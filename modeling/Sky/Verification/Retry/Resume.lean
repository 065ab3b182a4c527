import Sky.Verification.Retry.Settle

/-! # Attempts that a resume interrupts -/

namespace Sky.Retry

open Library

variable {β δ : Type} {fl : Floats β δ}

/-! ## Steps of other requests -/

/-- What a step of something else does to the record of a request outside the queue. -/
inductive Spared (now : Time) (q : Request) : Request → Prop where
  | same : Spared now q q
  | fresh (onWire : Bool) : Spared now q
      { q with attempt := 0, start := now, giveUp := false, resumed := onWire || q.resumed }

namespace Spared

variable {now : Time} {q q' q'' : Request}

theorem trans (h : Spared now q q') (k : Spared now q' q'') : Spared now q q'' := by
  cases k with
  | same => exact h
  | fresh onWire =>
      cases h with
      | same => exact .fresh onWire
      | fresh onWire' =>
          rw [← Bool.or_assoc]
          exact .fresh (onWire || onWire')

theorem attemptAt (h : Spared now q q') : q'.attemptAt = q.attemptAt := by
  cases h <;> rfl

end Spared

/-- The page came back during the attempt, and the budget is fresh since then. -/
structure Request.Marked (since : Time) (q : Request) : Prop where
  resumed : q.resumed = true
  giveUp : q.giveUp = false
  attempt : q.attempt = 0
  start : since ≤ q.start

theorem Request.Marked.spared {q q' : Request} {since now : Time} (hq : q.Marked since)
    (h : Spared now q q') (hnow : since ≤ now) : q'.Marked since := by
  cases h with
  | same => exact hq
  | fresh onWire => exact ⟨by simp [hq.resumed], rfl, rfl, hnow⟩

namespace Coord

variable {c c' c'' : Coord β} {r r' h : ℕ} {now : Time} {draw : δ}

/-- What a step that is not the request's own does about it. -/
structure Apart (c : Coord β) (r : ℕ) (now : Time) (c' : Coord β) : Prop where
  queue : r ∈ c'.queue ↔ r ∈ c.queue
  record : r ∉ c.queue → Spared now (c.request r) (c'.request r)

namespace Apart

theorem refl : Apart c r now c := ⟨.rfl, fun _ => .same⟩

theorem trans (hc : Apart c r now c') (k : Apart c' r now c'') : Apart c r now c'' where
  queue := k.queue.trans hc.queue
  record hr := (hc.record hr).trans (k.record (mt hc.queue.1 hr))

theorem of_eq (hqueue : c'.queue = c.queue) (hrecord : c'.request r = c.request r) :
    Apart c r now c' :=
  ⟨by rw [hqueue], fun _ => hrecord ▸ .same⟩

theorem alike (k : Alike c c') : Apart c r now c' := .of_eq k.queue (congrFun k.request r)

theorem modify (hne : r ≠ r') (f : Request → Request) : Apart c r now (c.modify r' f) :=
  .of_eq rfl (by rw [modify_request, if_neg hne])

theorem refresh (hline : c.Line) (onWire : Bool) : Apart c r now (c.refresh now onWire) where
  queue := .rfl
  record hr := by
    have hqueued : (c.request r).queued = false := by simpa using mt (hline.queued r).1 hr
    have hmark : (onWire && !(c.request r).queued) = onWire := by simp [hqueued]
    simp only [Coord.refresh, hmark]
    split
    · exact .fresh onWire
    · exact .same

theorem resume (hline : c.Line) : Apart c r now (c.resume now) :=
  (refresh hline true).trans (alike (c.resume_alike now))

theorem scheduled (k : Scheduled c h now c') (hh : h ∈ c.queue) : Apart c r now c' where
  queue := by rw [k.queue]
  record hr := by
    have hne : r ≠ h := fun heq => hr (heq ▸ hh)
    rw [k.other r hne]
    exact .same

theorem remove (hline : c.Line) (hr' : r' ∉ c.queue.tail) (hne : r ≠ r') (succeeded : Bool) :
    Apart c r now (c.remove fl r' succeeded now draw) := by
  rcases Line.head_or_out hr' with ⟨rest, hqueue⟩ | hout
  · have hqueued : (c.request r').queued = true := (hline.queued r').2 (by simp [hqueue])
    have hrest : (c.dequeue r').stop.queue = rest := by simp [Coord.dequeue, hqueue]
    have hleft : Apart c r now (c.dequeue r').stop := by
      refine ⟨by rw [hrest, hqueue]; simp [hne], fun _ => ?_⟩
      rw [stop_request, dequeue_request, if_neg hne]
      exact .same
    rcases c.remove_head fl r' now draw hqueued hqueue succeeded with ⟨-, k⟩ | ⟨next, _, hnext, k⟩
    · exact hleft.trans (.alike k)
    · exact hleft.trans (.scheduled k (by rw [hrest, hnext]; exact .head _))
  · have hqueued : (c.request r').queued = false := by simpa using mt (hline.queued r').1 hout
    rw [c.remove_unqueued fl r' now draw hqueued]
    exact .refl

theorem giveUp (hline : c.Line) (hr' : r' ∉ c.queue.tail) (hne : r ≠ r') :
    Apart c r now (c.giveUp fl r' now draw) :=
  (remove hline hr' hne false).trans (.of_eq rfl rfl)

theorem enqueue (hne : r ≠ r') : Apart c r now (c.enqueue r') := by
  refine ⟨by simp [Coord.enqueue, hne], fun _ => ?_⟩
  rw [enqueue_request, if_neg hne]
  exact .same

theorem drained (hline : c.Line) (hne : r ≠ r') : Apart c r now (c.drained r' now) := by
  have hwake : Apart c r now (c.modify r' fun q => { q with wake := false }) := .modify hne _
  unfold Coord.drained
  dsimp only
  split
  · have hquiet : (c.modify r' fun q => { q with wake := false }).Line :=
      hline.modify (fun _ => rfl) fun _ hw => by cases hw
    exact (hwake.trans (.refresh hquiet true)).trans (.modify hne _)
  · exact hwake.trans (.modify hne _)

theorem join (hne : r ≠ r') (o : Outcome) (resumed : Bool) :
    Apart c r now (c.join fl r' o resumed now draw) := by
  have hjoined : Apart c r now (if (c.request r').queued then c else c.enqueue r') := by
    split
    · exact .refl
    · exact .enqueue hne
  unfold Coord.join
  dsimp only
  generalize (if (c.request r').queued then c else c.enqueue r') = c₁ at hjoined ⊢
  split
  next hhead =>
      have hmodified : Apart c r now
          (c₁.modify r' fun q => { q with forced := q.forced || resumed }) :=
        hjoined.trans (.modify hne _)
      exact hmodified.trans (.scheduled (schedule_spec ..) (List.mem_of_mem_head? hhead))
  next => exact hjoined

theorem heard (hline : c.Line) (hne : r ≠ r') (o : Outcome) :
    Apart c r now (c.heard r' o now).1 :=
  (drained hline hne).trans (alike (c.heard_alike r' now o))

theorem judged (hline : c.Line) (hr' : r' ∉ c.queue.tail) (hne : r ≠ r') (o : Outcome) :
    Apart (c.heard r' o now).1 r now (c.done fl r' o now draw).1 := by
  have hjudged := hline.heard r' o now
  have hcounted : Apart (c.heard r' o now).1 r now (((c.heard r' o now).1.modify r' fun q =>
      { q with attempt := q.attempt + 1 }).record (.failed r')) :=
    .of_eq rfl (by simp [Coord.record, hne])
  have hfailed : Apart (c.heard r' o now).1 r now ((c.heard r' o now).1.fail fl r' o now) :=
    hcounted.trans (.alike (Coord.fail_alike ..))
  have hafter : Judged c r' ((c.heard r' o now).1.fail fl r' o now) := hjudged.fail o
  have hanswered : ∀ origin, Apart (c.heard r' o now).1 r now
      (((c.heard r' o now).1.refundToken fl origin).remove fl r' true now draw) := by
    intro origin
    have k := refundToken_alike fl (c.heard r' o now).1 origin
    refine (alike k).trans (remove (hjudged.line.alike k) ?_ hne true)
    rw [k.queue, hjudged.queue]
    exact hr'
  unfold Coord.done
  dsimp only
  split
  · exact hanswered _
  · exact hanswered _
  · split
    · exact hfailed.trans (giveUp hafter.line (hafter.queue ▸ hr') hne)
    · exact hfailed.trans (join hne o _)

theorem done (hline : c.Line) (hr' : r' ∉ c.queue.tail) (hne : r ≠ r') (o : Outcome) :
    Apart c r now (c.done fl r' o now draw).1 :=
  (heard hline hne o).trans (judged hline hr' hne o)

theorem force (hh : h ∈ c.queue) : Apart c r now (c.force fl h now draw) :=
  .scheduled (c.force_spec fl h now draw) hh

theorem setHidden (hline : c.Line) (hidden : Bool) :
    Apart c r now (c.setHidden fl hidden now draw) := by
  have hshown : Apart c r now { c with hidden := hidden } := .of_eq rfl rfl
  have hline' : ({ c with hidden := hidden } : Coord β).Line :=
    ⟨hline.nodup, hline.queued, hline.quiet, hline.behind⟩
  unfold Coord.setHidden
  dsimp only
  split
  · exact hshown
  · have hresumed := hshown.trans (.resume hline')
    split
    · exact hresumed
    next hqueue => exact hresumed.trans (.force (by simp [hqueue]))

theorem recover (hline : c.Line) : Apart c r now (c.recover fl now draw) := by
  unfold Coord.recover
  split
  · exact .refl
  next hqueue =>
      exact (refresh hline false).trans (.force (hqueue ▸ .head _))

theorem retry (hline : c.Line) (t : Timer RetryCall) : Apart c r now (c.retry t now) := by
  have herased : Apart c r now { c with timers := c.timers.erase t } := .of_eq rfl rfl
  have hline' : ({ c with timers := c.timers.erase t } : Coord β).Line :=
    ⟨hline.nodup, hline.queued, hline.quiet, fun t' ht' => hline.behind t' (List.mem_of_mem_erase ht')⟩
  unfold Coord.retry
  dsimp only
  split
  next hhead =>
      have hmem : t.call.head ∈ c.queue := List.mem_of_head? hhead
      have hwoken : ∀ c₀ : Coord β, Apart c r now c₀ → ∀ f : Request → Request,
          Apart c r now (({ c₀.modify t.call.head f with cancel := none } : Coord β).wake t.call.head) := by
        intro c₀ hc₀ f
        refine ⟨hc₀.queue, fun hr => ?_⟩
        have hne : r ≠ t.call.head := fun heq => hr (heq ▸ hmem)
        have hsame : (({ c₀.modify t.call.head f with cancel := none } : Coord β).wake
            t.call.head).request r = c₀.request r := by
          simp [hne]
        rw [hsame]
        exact hc₀.record hr
      apply hwoken
      split
      · exact herased.trans (.resume hline')
      · exact herased
  next => exact herased

theorem grace (hline : c.Line) (t : Timer Time) : Apart c r now (c.grace fl t now draw) := by
  have herased : Apart c r now { c with graces := c.graces.erase t } := .of_eq rfl rfl
  have hline' : ({ c with graces := c.graces.erase t, graceCancel := none } : Coord β).Line :=
    ⟨hline.nodup, hline.queued, hline.quiet, hline.behind⟩
  have hcancelled : Apart c r now { c with graces := c.graces.erase t, graceCancel := none } :=
    .of_eq rfl rfl
  unfold Coord.grace
  dsimp only
  split
  · exact herased
  next hqueue =>
      split
      · exact herased
      · split
        · refine (hcancelled.trans (.resume hline')).trans (.force ?_)
          rw [resume_queue]
          simp [hqueue]
        · split
          · exact hcancelled
          · split
            · exact hcancelled.trans (.of_eq rfl rfl)
            · exact hcancelled.trans (.force (by simp [hqueue]))

end Apart

/-! ## A resume marks what is on the wire -/

theorem resume_marked (now : Time) (hline : c.Line) (hr : r ∉ c.queue) (hlive : r ∈ c.live) :
    ((c.resume now).request r).Marked now := by
  have hqueued : (c.request r).queued = false := by simpa using mt (hline.queued r).1 hr
  rw [(c.resume_alike now).request]
  simp only [refresh, if_pos hlive, hqueued]
  exact ⟨rfl, rfl, rfl, le_rfl⟩

theorem setHidden_marked (hline : c.Line) (hr : r ∉ c.queue) (hlive : r ∈ c.live)
    (hhidden : c.hidden = true) : ((c.setHidden fl false now draw).request r).Marked now := by
  have hline' : ({ c with hidden := false } : Coord β).Line :=
    ⟨hline.nodup, hline.queued, hline.quiet, hline.behind⟩
  have hmarked := resume_marked now hline' hr hlive
  unfold setHidden
  simp only [hhidden, Bool.not_true, Bool.or_self, Bool.false_eq_true, if_false]
  split
  · exact hmarked
  next hqueue =>
      refine hmarked.spared ((Apart.force ?_).record ?_) le_rfl
      · rw [hqueue]
        exact .head _
      · rw [resume_queue]
        exact hr

theorem retry_marked (hline : c.Line) (hr : r ∉ c.queue) (hlive : r ∈ c.live) {t : Timer RetryCall}
    (hhead : c.queue.head? = some t.call.head) (hlate : c.late t.due now = true) :
    ((c.retry t now).request r).Marked now := by
  have hline' : ({ c with timers := c.timers.erase t } : Coord β).Line :=
    ⟨hline.nodup, hline.queued, hline.quiet, fun t' ht' => hline.behind t' (List.mem_of_mem_erase ht')⟩
  have hlate : ({ c with timers := c.timers.erase t } : Coord β).late t.due now = true := hlate
  have hne : r ≠ t.call.head := fun heq => hr (heq ▸ List.mem_of_head? hhead)
  have hmarked := resume_marked now hline' hr hlive
  unfold retry
  simp only [if_pos hhead, if_pos hlate]
  simpa [hne] using hmarked

theorem grace_marked (hline : c.Line) (hr : r ∉ c.queue) (hlive : r ∈ c.live) {t : Timer Time}
    (hqueue : c.queue ≠ []) (houtage : c.outageStart = some t.call) (hlate : c.late t.due now = true) :
    ((c.grace fl t now draw).request r).Marked now := by
  have hline' : ({ c with graces := c.graces.erase t, graceCancel := none } : Coord β).Line :=
    ⟨hline.nodup, hline.queued, hline.quiet, hline.behind⟩
  have hlate : ({ c with graces := c.graces.erase t, graceCancel := none } : Coord β).late t.due now =
      true := hlate
  have hmarked := resume_marked now hline' hr hlive
  obtain ⟨h, rest, hcons⟩ := List.exists_cons_of_ne_nil hqueue
  unfold grace
  dsimp only
  split
  next hnil => exact absurd hnil hqueue
  next hcons =>
      rw [if_neg (by simp [houtage]), if_pos hlate]
      refine hmarked.spared ((Apart.force ?_).record ?_) le_rfl
      · rw [resume_queue, hcons]
        exact .head _
      · rw [resume_queue]
        exact hr

theorem heard_marked (hline : c.Line) (hr : r ∉ c.queue) (hlive : r ∈ c.live) (hne : r ≠ r')
    (o : Outcome) (hsuspended : c.suspended r' now = true) :
    ((c.heard r' o now).1.request r).Marked now := by
  have hquiet : (c.modify r' fun q => { q with wake := false }).Line :=
    hline.modify (fun _ => rfl) fun _ hw => by cases hw
  have hmarked := resume_marked now hquiet hr hlive
  rw [(Coord.resume_alike _ now).request] at hmarked
  have hsuspended' : (c.modify r' fun q => { q with wake := false }).suspended r' now = true := by
    rwa [suspended_modify_wake]
  rw [(c.heard_alike r' now o).request]
  unfold drained
  simp only [if_pos hsuspended', modify_request, if_neg hne]
  exact hmarked

theorem done_marked (hline : c.Line) (hr : r ∉ c.queue) (hlive : r ∈ c.live) (hne : r ≠ r')
    (hr' : r' ∉ c.queue.tail) (o : Outcome) (hsuspended : c.suspended r' now = true) :
    ((c.done fl r' o now draw).1.request r).Marked now := by
  have hapart : Apart (c.heard r' o now).1 r now (c.done fl r' o now draw).1 :=
    .judged hline hr' hne o
  refine (heard_marked hline hr hlive hne o hsuspended).spared (hapart.record ?_) le_rfl
  rw [(hline.heard r' o now).queue]
  exact hr

/-! ## The attempt itself -/

theorem schedule_forced (c : Coord β) (last : Outcome) (hforced : (c.request h).forced = true) :
    c.schedule fl h last now draw =
      ((c.stop.modify h fun q => { q with paced := false }).modify h fun q =>
        { q with forced := false }).wake h := by
  have hforced' : ((c.stop.modify h fun q => { q with paced := false }).request h).forced = true := by
    simpa using hforced
  unfold schedule
  exact if_pos hforced'

/-- A request whose attempt a resume interrupted joins the queue with a token. -/
theorem join_interrupted (c : Coord β) (hqueued : (c.request r).queued = false) (o : Outcome)
    (hgive : (c.request r).giveUp = false)
    (hhead : (c.join fl r o true now draw).queue.head? = some r) :
    ((c.join fl r o true now draw).request r).wake = true ∧
      ((c.join fl r o true now draw).request r).giveUp = false := by
  unfold join at hhead ⊢
  simp only [hqueued, Bool.false_eq_true, if_false, Bool.or_true] at hhead ⊢
  by_cases hfirst : (c.enqueue r).queue.head? = some r
  · rw [if_pos hfirst, schedule_forced _ _ (by simp)]
    simp [hgive]
  · rw [if_neg hfirst] at hhead
    exact absurd hhead hfirst

/-- The record of a request whose attempt has an outcome. -/
theorem heard_self (hlive : r ∈ c.live) (hqueued : (c.request r).queued = false) (o : Outcome)
    {started : Time} (hstarted : (c.request r).attemptAt = some started)
    (hmarked : c.suspended r now = true ∨ (c.request r).Marked started) :
    (c.heard r o now).2 = true ∧ ((c.heard r o now).1.request r).queued = false ∧
      ((c.heard r o now).1.request r).giveUp = false ∧
      ((c.heard r o now).1.request r).attempt = 0 ∧
      (c.hidden = false → now < ((c.heard r o now).1.request r).start + spaRetryBudget) := by
  rw [(c.heard_alike r now o).request]
  by_cases hsuspended : c.suspended r now = true
  · have hsuspended' : (c.modify r fun q => { q with wake := false }).suspended r now = true := by
      rwa [suspended_modify_wake]
    have hresumed : (((c.modify r fun q => { q with wake := false }).resume now).request r).resumed =
        true := by
      rw [(Coord.resume_alike _ now).request]
      simp [refresh, hlive, hqueued]
    have hrecord : (c.drained r now).request r =
        { c.request r with
          wake := false, attempt := 0, start := now, giveUp := false, resumed := false } := by
      unfold drained
      simp only [if_pos hsuspended', modify_request, refresh, modify_live, if_pos hlive, if_true]
    rw [hrecord]
    refine ⟨?_, hqueued, rfl, rfl, ?_⟩
    · unfold heard
      simp only [if_pos hsuspended', hresumed]
    · intro _
      exact lt_add_of_pos_right now (by decide)
  · have hmarked := hmarked.resolve_left hsuspended
    have hsuspended' : ¬(c.modify r fun q => { q with wake := false }).suspended r now = true := by
      rwa [suspended_modify_wake]
    have hrecord : (c.drained r now).request r =
        { c.request r with wake := false, resumed := false } := by
      unfold drained
      simp only [if_neg hsuspended', modify_request, if_true]
    rw [hrecord]
    refine ⟨?_, hqueued, hmarked.giveUp, hmarked.attempt, ?_⟩
    · unfold heard
      simp only [if_neg hsuspended', modify_request, if_true]
      exact hmarked.resumed
    · intro hv
      simp only [suspended, hv, hstarted, Option.any_some, Bool.not_false, Bool.true_and,
        decide_eq_true_eq, not_le] at hsuspended
      have hbound : spaFetchTimeout + spaSuspendGap ≤ spaRetryBudget := by decide
      have hstart := hmarked.start
      change now < (c.request r).start + spaRetryBudget
      linarith

/-- Its failure is not the last, and it joins the queue with a token. -/
theorem done_interrupted (fl : Floats β δ) (draw : δ) (hline : c.Line) (hr : r ∉ c.queue) (hlive : r ∈ c.live) {o : Outcome}
    (ho : o.kind = .transient) {started : Time} (hstarted : (c.request r).attemptAt = some started)
    (hmarked : c.suspended r now = true ∨ (c.request r).Marked started) :
    (c.done fl r o now draw).2 = true ∧
      ((c.done fl r o now draw).1.queue.head? = some r →
        ((c.done fl r o now draw).1.request r).wake = true ∧
          ((c.done fl r o now draw).1.request r).giveUp = false) := by
  have hqueued : (c.request r).queued = false := by simpa using mt (hline.queued r).1 hr
  obtain ⟨hresumed, hqueued₁, hgive, hattempt, htime⟩ :=
    heard_self hlive hqueued o hstarted hmarked
  have hheard := hline.heard r o now
  have k := (c.heard r o now).1.fail_alike fl r now o
  have hrecord : ((c.heard r o now).1.fail fl r o now).request r =
      { (c.heard r o now).1.request r with attempt := 1 } := by
    rw [k.request]
    simp [record, hattempt]
  have hspent : ((c.heard r o now).1.fail fl r o now).spent r now = false := by
    have hhidden : ((c.heard r o now).1.fail fl r o now).hidden = c.hidden :=
      k.hidden.trans hheard.hidden
    unfold spent
    rw [hhidden, hrecord]
    cases hv : c.hidden with
    | true => rfl
    | false =>
        have htime := htime hv
        have hnot : ¬spaRetryBudget ≤ now - ((c.heard r o now).1.request r).start :=
          not_le.2 (by linarith)
        simp only [Bool.not_false, Bool.true_and, hnot, decide_false, Bool.or_false,
          decide_eq_false_iff_not]
        decide
  unfold done
  simp only [ho, hspent, hresumed, Bool.false_eq_true, if_false, true_and]
  intro hhead
  refine join_interrupted _ ?_ o ?_ hhead
  · rw [hrecord]
    exact hqueued₁
  · rw [hrecord]
    exact hgive

end Coord

/-! ## Runs -/

/-- The request that an action is a move of. -/
def Action.request (begun : ℕ) : Action δ → Option ℕ
  | .begin _ => some begun
  | .admits r _ | .done r _ _ | .wait r | .proceed r _ | .forget r => some r
  | _ => none

namespace System

variable {s t u : System β} {r : ℕ} {now : Time}

/-- The page comes back: it is shown, or a timer or an outcome is late. -/
def Resumes (s : System β) (now : Time) : Action δ → Prop
  | .setHidden hidden _ => hidden = false ∧ s.coord.hidden = true
  | .retry t => s.coord.queue.head? = some t.call.head ∧ s.coord.late t.due now = true
  | .grace t _ =>
      s.coord.queue ≠ [] ∧ s.coord.outageStart = some t.call ∧ s.coord.late t.due now = true
  | .done r _ _ => s.coord.suspended r now = true
  | _ => False

/-- A move that is not the request's own. -/
theorem moves_apart (hs : s.Steady) {a : Action δ} (h : Moves fl s now a t)
    (hother : a.request s.begun ≠ some r) :
    t.phase r = s.phase r ∧ Coord.Apart s.coord r now t.coord := by
  cases h with
  | begin origin =>
      have hne : r ≠ s.begun := fun heq => hother (heq ▸ rfl)
      exact ⟨setPhase_of_ne hne _ _, .of_eq rfl (Function.update_of_ne hne _ _)⟩
  | admits r' draw hphase =>
      have hne : r ≠ r' := fun heq => hother (heq ▸ rfl)
      exact ⟨setPhase_of_ne hne _ _,
        (Coord.Apart.modify hne _).trans (.alike (Steady.admit_alike fl s.coord r' now draw))⟩
  | again r' o draw hphase hresult =>
      have hne : r ≠ r' := fun heq => hother (heq ▸ rfl)
      exact ⟨setPhase_of_ne hne _ _, .done hs.line (hs.not_behind hphase (by simp)) hne o⟩
  | finish r' o draw hphase hresult =>
      have hne : r ≠ r' := fun heq => hother (heq ▸ rfl)
      have hdone : Coord.Apart s.coord r now (s.coord.done fl r' o now draw).1 :=
        .done hs.line (hs.not_behind hphase (by simp)) hne o
      exact ⟨setPhase_of_ne hne _ _, hdone.trans (.of_eq rfl rfl)⟩
  | wait r' hphase htoken =>
      have hne : r ≠ r' := fun heq => hother (heq ▸ rfl)
      have hwoken : Coord.Apart s.coord r now
          (s.coord.modify r' fun q => { q with wake := false }) := .modify hne _
      exact ⟨setPhase_of_ne hne _ _, hwoken⟩
  | pass r' draw hphase hkeep =>
      have hne : r ≠ r' := fun heq => hother (heq ▸ rfl)
      exact ⟨setPhase_of_ne hne _ _, .refl⟩
  | giveUp r' draw hphase hspent =>
      have hne : r ≠ r' := fun heq => hother (heq ▸ rfl)
      have hgone : Coord.Apart s.coord r now (s.coord.giveUp fl r' now draw) :=
        .giveUp hs.line (hs.not_behind hphase (by simp)) hne
      exact ⟨setPhase_of_ne hne _ _, hgone.trans (.of_eq rfl rfl)⟩
  | forget r' hphase =>
      have hne : r ≠ r' := fun heq => hother (heq ▸ rfl)
      exact ⟨setPhase_of_ne hne _ _, .of_eq rfl rfl⟩
  | fire id => exact ⟨rfl, .of_eq rfl rfl⟩
  | fireGrace id => exact ⟨rfl, .of_eq rfl rfl⟩
  | retry timer => exact ⟨rfl, .retry hs.line timer⟩
  | grace timer draw => exact ⟨rfl, .grace hs.line timer⟩
  | setHidden hidden draw => exact ⟨rfl, .setHidden hs.line hidden⟩
  | recover draw => exact ⟨rfl, .recover hs.line⟩

theorem moves_marked (hs : s.Steady) {a : Action δ} (h : Moves fl s now a t)
    (hother : a.request s.begun ≠ some r) (hr : r ∉ s.coord.queue) (hlive : r ∈ s.coord.live)
    (hresumes : s.Resumes now a) : (t.coord.request r).Marked now := by
  cases h with
  | retry timer => exact Coord.retry_marked hs.line hr hlive hresumes.1 hresumes.2
  | grace timer draw =>
      exact Coord.grace_marked hs.line hr hlive hresumes.1 hresumes.2.1 hresumes.2.2
  | setHidden hidden draw =>
      obtain ⟨rfl, hhidden⟩ := hresumes
      exact Coord.setHidden_marked hs.line hr hlive hhidden
  | again r' o draw hphase hresult =>
      have hne : r ≠ r' := fun heq => hother (heq ▸ rfl)
      exact Coord.done_marked hs.line hr hlive hne (hs.not_behind hphase (by simp)) o hresumes
  | finish r' o draw hphase hresult =>
      have hne : r ≠ r' := fun heq => hother (heq ▸ rfl)
      exact Coord.done_marked hs.line hr hlive hne (hs.not_behind hphase (by simp)) o hresumes
  | begin | admits | wait | pass | giveUp | forget | fire | fireGrace | recover =>
      exact hresumes.elim

/-- While its attempt runs, only an outcome is a move of the request. -/
theorem done_of_own (hs : s.Steady) {a : Action δ} (h : Moves fl s now a t) {refused : Bool}
    (hphase : s.phase r = some (.sending refused)) (hown : a.request s.begun = some r) :
    ∃ o draw, a = .done r o draw := by
  have hne : s.begun ≠ r := by
    intro heq
    rw [hs.fresh r heq.le] at hphase
    cases hphase
  cases h with
  | begin => exact absurd (Option.some.inj hown) hne
  | again r' o draw | finish r' o draw =>
      obtain rfl := Option.some.inj hown
      exact ⟨o, draw, rfl⟩
  | admits r' draw hphase' | wait r' hphase' | pass r' draw hphase' | giveUp r' draw hphase'
  | forget r' hphase' =>
      obtain rfl := Option.some.inj hown
      rw [hphase] at hphase'
      cases hphase'
  | fire | fireGrace | retry | grace | setHidden | recover => cases hown

/-- The attempts of requests outside the queue have started. -/
def Started (s : System β) : Prop :=
  ∀ r refused, s.phase r = some (.sending refused) → r ∉ s.coord.queue →
    ∃ started, (s.coord.request r).attemptAt = some started ∧ started ≤ s.clock

theorem Started.step (hs : s.Started) (hsteady : s.Steady) {a : Time × Action δ}
    (h : s.step fl a = some t) : t.Started := by
  obtain ⟨hclock, s', hmoves, rfl⟩ := moves_of_step h
  intro r refused hphase hr
  have hsending : ∀ (c : Coord β) (begun : ℕ) (p : Phase), (∀ refused, p ≠ .sending refused) →
      (({ s with coord := c, begun := begun } : System β).setPhase r p).phase r ≠
        some (.sending refused) := by
    intro c begun p hp hphase
    rw [setPhase_self] at hphase
    exact hp _ (Option.some.inj hphase)
  by_cases hown : a.2.request s.begun = some r
  · generalize a.2 = move at hmoves hown
    cases hmoves with
    | begin origin =>
        obtain rfl := Option.some.inj hown
        exact absurd hphase (hsending _ _ .ready (by simp))
    | admits r' draw =>
        obtain rfl := Option.some.inj hown
        refine ⟨a.1, ?_, le_rfl⟩
        have hrecord := congrFun (Steady.admit_alike fl s.coord r' a.1 draw).request r'
        rw [Coord.modify_request, if_pos rfl] at hrecord
        exact congrArg Request.attemptAt hrecord
    | again r' o draw =>
        obtain rfl := Option.some.inj hown
        exact absurd hphase (hsending _ _ .waiting (by simp))
    | finish r' o draw | giveUp r' draw =>
        obtain rfl := Option.some.inj hown
        exact absurd hphase (hsending _ _ .returned (by simp))
    | wait r' =>
        obtain rfl := Option.some.inj hown
        exact absurd hphase (hsending _ _ .woken (by simp))
    | pass r' draw =>
        obtain rfl := Option.some.inj hown
        exact absurd hphase (hsending _ _ .ready (by simp))
    | forget r' =>
        obtain rfl := Option.some.inj hown
        exact absurd hphase (hsending _ _ .ended (by simp))
    | fire | fireGrace | retry | grace | setHidden | recover => cases hown
  · obtain ⟨hsame, hapart⟩ := moves_apart hsteady hmoves hown
    have hout : r ∉ s.coord.queue := mt hapart.queue.2 hr
    obtain ⟨started, hstarted, hle⟩ := hs r refused (hsame ▸ hphase) hout
    exact ⟨started, (hapart.record hout).attemptAt.trans hstarted, hle.trans hclock⟩

/-- What holds in every state that is reached. -/
structure Reached (s : System β) : Prop where
  steady : s.Steady
  booked : s.Booked
  started : s.Started

theorem Reached.init (clock : Time) : Reached ({ clock := clock } : System β) :=
  ⟨.init clock, .init clock, fun _ _ hphase => by cases hphase⟩

theorem Reached.step (hs : s.Reached) {a : Time × Action δ} (h : s.step fl a = some t) :
    t.Reached := by
  obtain ⟨_, s', hmoves, rfl⟩ := moves_of_step h
  exact ⟨hs.steady.step h, (hs.booked.moves hs.steady hmoves).clock a.1, hs.started.step hs.steady h⟩

/-- A resume has interrupted an attempt of the request, which has not been in the queue. -/
structure Interrupted (s : System β) (r : ℕ) : Prop where
  phase : s.phase r = some (.sending false)
  out : r ∉ s.coord.queue
  marked : ∃ started, (s.coord.request r).attemptAt = some started ∧
    (s.coord.request r).Marked started ∧ started ≤ s.clock

theorem Interrupted.step (hr : s.Interrupted r) (hs : s.Reached) {a : Time × Action δ}
    (h : s.step fl a = some t) (hdone : ∀ o draw, a.2 ≠ .done r o draw) : t.Interrupted r := by
  obtain ⟨hclock, s', hmoves, rfl⟩ := moves_of_step h
  have hother : a.2.request s.begun ≠ some r := by
    intro hown
    obtain ⟨o, draw, heq⟩ := done_of_own hs.steady hmoves hr.phase hown
    exact hdone o draw heq
  obtain ⟨hsame, hapart⟩ := moves_apart hs.steady hmoves hother
  obtain ⟨started, hstarted, hmarked, hle⟩ := hr.marked
  have hspared := hapart.record hr.out
  exact ⟨hsame.trans hr.phase, mt hapart.queue.1 hr.out, started, hspared.attemptAt.trans hstarted,
    hmarked.spared hspared (hle.trans hclock), hle.trans hclock⟩

/-- A resume interrupts the attempts on the wire. -/
theorem interrupted_of_resumes (hs : s.Reached) {a : Time × Action δ} (h : s.step fl a = some t)
    (hphase : s.phase r = some (.sending false)) (hr : r ∉ s.coord.queue)
    (hresumes : s.Resumes a.1 a.2) (hdone : ∀ o draw, a.2 ≠ .done r o draw) : t.Interrupted r := by
  obtain ⟨hclock, s', hmoves, rfl⟩ := moves_of_step h
  have hother : a.2.request s.begun ≠ some r := by
    intro hown
    obtain ⟨o, draw, heq⟩ := done_of_own hs.steady hmoves hphase hown
    exact hdone o draw heq
  have hlive : r ∈ s.coord.live := (hs.booked.live r).2 ⟨_, hphase, by simp⟩
  obtain ⟨hsame, hapart⟩ := moves_apart hs.steady hmoves hother
  obtain ⟨started, hstarted, hle⟩ := hs.started r false hphase hr
  have hmarked := moves_marked hs.steady hmoves hother hr hlive hresumes
  exact ⟨hsame.trans hphase, mt hapart.queue.1 hr, started,
    (hapart.record hr).attemptAt.trans hstarted,
    ⟨hmarked.resumed, hmarked.giveUp, hmarked.attempt, (hle.trans hclock).trans hmarked.start⟩,
    hle.trans hclock⟩

/-- The request is let through: its token is there, and its loop goes on to the next attempt. -/
def LetThrough (fl : Floats β δ) (s : System β) (r : ℕ) : Prop :=
  s.phase r = some .waiting ∧ (s.coord.request r).wake = true ∧ ∀ draw, ∃ t u : System β,
    s.step fl (s.clock, .wait r) = some t ∧ t.step fl (s.clock, .proceed r draw) = some u ∧
      u.phase r = some .ready

/-- The request has taken its token. -/
def taken (s : System β) (r : ℕ) : System β :=
  ({ s with coord := s.coord.modify r fun q => { q with wake := false } }).setPhase r .woken

theorem letThrough_of_wake (fl : Floats β δ) (hphase : s.phase r = some .waiting)
    (hwake : (s.coord.request r).wake = true) (hgive : (s.coord.request r).giveUp = false) :
    s.LetThrough fl r := by
  refine ⟨hphase, hwake, ?_⟩
  intro draw
  have htake : s.act fl s.clock (.wait r) = some (s.taken r) := by simp [act, hphase, hwake, taken]
  have hwoken : (s.taken r).phase r = some .woken := setPhase_self ..
  have hkeep : ((s.taken r).coord.request r).giveUp = false := by simpa [taken, setPhase] using hgive
  have hgo : (s.taken r).act fl s.clock (.proceed r draw) = some ((s.taken r).setPhase r .ready) := by
    simp only [act, hwoken, if_true, Coord.proceed, hkeep, Bool.not_false]
    rfl
  refine ⟨s.taken r, (s.taken r).setPhase r .ready, ?_, ?_, setPhase_self ..⟩
  · simp only [step, le_refl, if_true, htake]
    rfl
  · have hclock : (s.taken r).clock ≤ s.clock := le_rfl
    simp only [step, if_pos hclock, hgo]
    rfl

/-- The failure of an interrupted attempt. -/
theorem Interrupted.letThrough (hs : s.Reached) {o : Outcome} {draw : δ} (ho : o.kind = .transient)
    (hphase : s.phase r = some (.sending false)) (hr : r ∉ s.coord.queue)
    (hmarked : s.coord.suspended r now = true ∨ s.Interrupted r)
    (h : s.step fl (now, .done r o draw) = some t) (hhead : t.coord.queue.head? = some r) :
    t.LetThrough fl r := by
  obtain ⟨_, s', hmoves, rfl⟩ := moves_of_step h
  have hlive : r ∈ s.coord.live := (hs.booked.live r).2 ⟨_, hphase, by simp⟩
  obtain ⟨started, hstarted, hmarked⟩ : ∃ started,
      (s.coord.request r).attemptAt = some started ∧
        (s.coord.suspended r now = true ∨ (s.coord.request r).Marked started) := by
    rcases hmarked with hsuspended | hinterrupted
    · obtain ⟨started, hstarted, _⟩ := hs.started r false hphase hr
      exact ⟨started, hstarted, .inl hsuspended⟩
    · obtain ⟨started, hstarted, hmarked, _⟩ := hinterrupted.marked
      exact ⟨started, hstarted, .inr hmarked⟩
  obtain ⟨hagain, hwake⟩ := Coord.done_interrupted fl draw hs.steady.line hr hlive ho
    hstarted hmarked
  cases hmoves with
  | again =>
      obtain ⟨hwake, hgive⟩ := hwake hhead
      exact letThrough_of_wake fl (setPhase_self ..) hwake hgive
  | finish _ _ _ _ hresult =>
      rw [hagain] at hresult
      cases hresult

end System

/-- An attempt that is on the wire at a resume, of a request that is not in the queue then, fails
for a while with the request at the head: the request is let through at once. `a` is the resume,
which may be the failure itself. -/
theorem resume_resends (fl : Floats β δ) {clock : Time} {es fs rest : List (Time × Action δ)}
    {a : Time × Action δ} {s t u : System β} {r : ℕ} {o : Outcome} {now : Time} {draw : δ}
    (hrun : Run (fun s a t => s.step fl a = some t) { clock := clock } es s)
    (hphase : s.phase r = some (.sending false)) (hresumes : s.Resumes a.1 a.2)
    (hqueue : r ∉ s.coord.queue)
    (hrest : Run (fun s a t => s.step fl a = some t) s fs t)
    (hnone : ∀ b ∈ fs, ∀ o draw, b.2 ≠ .done r o draw)
    (hfails : t.step fl (now, .done r o draw) = some u) (ho : o.kind = .transient)
    (hfirst : fs ++ [(now, .done r o draw)] = a :: rest)
    (hhead : u.coord.queue.head? = some r) : u.LetThrough fl r := by
  have hreached : s.Reached := hrun.invariant (P := System.Reached)
    (fun _ _ _ hs hstep => hs.step hstep) (.init clock)
  cases hrest with
  | nil =>
      obtain rfl : (now, .done r o draw) = a := by simpa using congrArg List.head? hfirst
      exact System.Interrupted.letThrough hreached ho hphase hqueue (.inl hresumes) hfails hhead
  | cons hstep hrest =>
      rename_i first next others
      obtain rfl : first = a := by simpa using congrArg List.head? hfirst
      have hinterrupted := System.interrupted_of_resumes hreached hstep hphase hqueue hresumes
        (hnone _ (.head _))
      have hboth : t.Reached ∧ t.Interrupted r := by
        refine hrest.invariant_of_forall (P := fun s => s.Reached ∧ s.Interrupted r)
          (Q := fun b => ∀ o draw, b.2 ≠ .done r o draw) ?_ (fun b hb => hnone b (.tail _ hb))
          ⟨hreached.step hstep, hinterrupted⟩
        intro s b s' hb hs hstep
        exact ⟨hs.1.step hstep, hs.2.step hs.1 hstep hb⟩
      exact System.Interrupted.letThrough hboth.1 ho hboth.2.phase hboth.2.out (.inr hboth.2) hfails
        hhead

/-! ### A request that was in the queue, and one that was not -/

/-- The page is away for a second while a first attempt is on the wire. -/
def awayOnWire : List (Time × Action Unit) :=
  [(0, .begin "self"), (0, .admits 0 ()), (1 * second, .setHidden true ())]

theorem resume_resends_awayOnWire :
    ∃ s t u : System ℕ,
      Run (fun s a t => System.step tenths s a = some t) { clock := 0 } awayOnWire s ∧
        s.step tenths (2 * second, .setHidden false ()) = some t ∧
        t.step tenths (3 * second, .done 0 { kind := .transient } ()) = some u ∧
        u.LetThrough tenths 0 := by
  obtain ⟨s, t, u, hrun, hphase, hhidden, hqueue, hstep, hfails, hhead⟩ : ∃ s t u : System ℕ,
      Run (fun s a t => System.step tenths s a = some t) { clock := 0 } awayOnWire s ∧
        s.phase 0 = some (.sending false) ∧ s.coord.hidden = true ∧ s.coord.queue = [] ∧
        s.step tenths (2 * second, .setHidden false ()) = some t ∧
        t.step tenths (3 * second, .done 0 { kind := .transient } ()) = some u ∧
        u.coord.queue.head? = some 0 :=
    ⟨_, _, _, Run.iff_foldlM.mpr rfl, rfl, rfl, rfl, rfl, rfl, rfl⟩
  exact ⟨s, t, u, hrun, hstep, hfails,
    resume_resends tenths (a := (2 * second, .setHidden false ())) hrun hphase ⟨rfl, hhidden⟩
      (by simp [hqueue]) (.single hstep) (by simp) hfails rfl rfl hhead⟩

/-- The same while a second attempt is on the wire, the request being in the queue. -/
def awayOnResend : List (Time × Action Unit) :=
  [(0, .begin "self"), (0, .admits 0 ()), (1, .done 0 { kind := .transient } ()),
    (2 * second, .fire 1), (2 * second, .retry ⟨1, 1 + second, true, ⟨0, false⟩⟩),
    (2 * second, .wait 0), (2 * second, .proceed 0 ()), (2 * second, .admits 0 ()),
    (3 * second, .setHidden true ())]

/-- It waits for its timer. -/
theorem resend_waits :
    ∃ s t u : System ℕ,
      Run (fun s a t => System.step tenths s a = some t) { clock := 0 } awayOnResend s ∧
        s.phase 0 = some (.sending false) ∧ s.Resumes (4 * second) (.setHidden false ()) ∧
        s.step tenths (4 * second, .setHidden false ()) = some t ∧
        t.step tenths (5 * second, .done 0 { kind := .transient } ()) = some u ∧
        u.coord.queue.head? = some 0 ∧ ¬u.LetThrough tenths 0 := by
  have hrun : ((awayOnResend.foldlM (System.step tenths) { clock := 0 }).any fun s =>
      s.phase 0 = some (.sending false) && s.coord.hidden &&
        (s.step tenths (4 * second, .setHidden false ())).any fun t =>
          (t.step tenths (5 * second, .done 0 { kind := .transient } ())).any fun u =>
            u.coord.queue.head? = some 0 && !(u.coord.request 0).wake) = true := by
    decide +kernel
  simp only [Option.any_eq_true, Bool.and_eq_true, decide_eq_true_eq, Bool.not_eq_true'] at hrun
  obtain ⟨s, hrun, ⟨hphase, hhidden⟩, t, hstep, u, hfails, hhead, hwake⟩ := hrun
  refine ⟨s, t, u, Run.iff_foldlM.mpr hrun, hphase, ⟨rfl, hhidden⟩, hstep, hfails, hhead, ?_⟩
  rintro ⟨_, htoken, _⟩
  rw [hwake] at htoken
  cases htoken

end Sky.Retry
