import Mathlib
import Sky.Verification.Retry.Queue

/-! # Failures and budgets

The failures and the start that a request's record holds are those of the history since it
began or since the latest resume. A request is given up because of them, or because of a
timer that was armed for the end of its budget. -/

namespace Sky.Retry

variable {β δ : Type} {fl : Floats β δ}

/-! ## The history -/

/-- When the event starts a fresh budget for the request. -/
def Event.freshFor (r : ℕ) : Event → Option Time
  | .began r' now => if r' = r then some now else none
  | .resumed now => some now
  | _ => none

/-- When the budget of the request started: when it began, or at the latest resume. -/
def budgetStart (r : ℕ) (log : List Event) : Option Time := log.findSome? (Event.freshFor r)

/-- The failures of the request since its budget started. -/
def failures (r : ℕ) (log : List Event) : ℕ :=
  (log.takeWhile fun e => (e.freshFor r).isNone).count (.failed r)

/-- The request has had all its failures or its whole budget of time. -/
def Justified (r : ℕ) (now : Time) (log : List Event) : Prop :=
  spaRetryMaxAttempts ≤ failures r log ∨
    ∃ start ∈ budgetStart r log, start + spaRetryBudget ≤ now

/-- Every request that was given up in sight of the user had had its budget. -/
def GaveUpLate : List Event → Prop
  | [] => True
  | .gaveUp r now false :: log => Justified r now log ∧ GaveUpLate log
  | _ :: log => GaveUpLate log

theorem GaveUpLate.of_append {r : ℕ} {now : Time} {log : List Event} :
    ∀ {es : List Event}, GaveUpLate (es ++ .gaveUp r now false :: log) → Justified r now log
  | [], h => h.1
  | .gaveUp _ _ false :: _, h => GaveUpLate.of_append h.2
  | .gaveUp _ _ true :: _, h => GaveUpLate.of_append (by simpa [GaveUpLate] using h)
  | .began _ _ :: _, h | .resumed _ :: _, h | .failed _ :: _, h | .joined _ :: _, h
  | .left _ :: _, h | .returned _ :: _, h => GaveUpLate.of_append (by simpa [GaveUpLate] using h)

section History

variable (r : ℕ) (now : Time) (log : List Event)

theorem budgetStart_cons_of_none {e : Event} (h : e.freshFor r = none) :
    budgetStart r (e :: log) = budgetStart r log := by
  simp [budgetStart, h]

theorem failures_cons_of_none {e : Event} (h : e.freshFor r = none) :
    failures r (e :: log) = failures r log + if e = .failed r then 1 else 0 := by
  simp [failures, h, List.count_cons]

theorem budgetStart_cons_of_some {e : Event} (h : e.freshFor r = some now) :
    budgetStart r (e :: log) = some now := by
  simp [budgetStart, h]

theorem failures_cons_of_some {e : Event} (h : e.freshFor r = some now) :
    failures r (e :: log) = 0 := by
  simp [failures, h]

end History

/-- An event that neither starts a budget nor is a failure. -/
def Event.Idle (e : Event) : Prop := ∀ r, e.freshFor r = none ∧ e ≠ .failed r

theorem Event.Idle.budgetStart {e : Event} (h : e.Idle) (r : ℕ) (log : List Event) :
    budgetStart r (e :: log) = Retry.budgetStart r log :=
  budgetStart_cons_of_none r log (h r).1

theorem Event.Idle.failures {e : Event} (h : e.Idle) (r : ℕ) (log : List Event) :
    failures r (e :: log) = Retry.failures r log := by
  rw [failures_cons_of_none r log (h r).1, if_neg (h r).2, Nat.add_zero]

namespace Coord

variable {c c' : Coord β} {r h : ℕ} {now : Time} {draw : δ} {rest : List ℕ}
variable {ts : List (Timer RetryCall)}

/-! ## The records agree with the history -/

structure Accounts (c : Coord β) (clock : Time) : Prop where
  start : ∀ r ∈ c.live, budgetStart r c.log = some (c.request r).start
  attempt : ∀ r ∈ c.live, failures r c.log = (c.request r).attempt
  giveUp : ∀ r ∈ c.live, (c.request r).giveUp = true →
    (c.request r).start + spaRetryBudget ≤ clock
  fired : ∀ t ∈ c.timers, t.fired = true → t.due ≤ clock
  late : GaveUpLate c.log

/-- The timers that give the head up are due at the end of its budget. -/
def Timed (c : Coord β) (ts : List (Timer RetryCall)) : Prop :=
  ∀ t ∈ ts, t.call.giveUp = true → c.queue.head? = some t.call.head →
    (c.request t.call.head).start + spaRetryBudget ≤ t.due

/-- None of the timers gives the head up. -/
def Clear (c : Coord β) (ts : List (Timer RetryCall)) : Prop :=
  ∀ t ∈ ts, t.call.giveUp = true → c.queue.head? ≠ some t.call.head

theorem Clear.timed (hc : c.Clear ts) : c.Timed ts :=
  fun t ht hgive hh => absurd hh (hc t ht hgive)

theorem Timed.alike (hc : c.Timed ts) (k : Alike c c') : c'.Timed ts := by
  unfold Timed
  rw [k.queue, k.request]
  exact hc

theorem stop_timers_alike (k : Alike c c') : c'.stop.timers = c.stop.timers := by
  unfold stop
  rw [k.timers, k.cancel]

namespace Accounts

theorem mono (hc : c.Accounts now) {later : Time} (hle : now ≤ later) : c.Accounts later where
  start := hc.start
  attempt := hc.attempt
  giveUp := fun r hr hgive => (hc.giveUp r hr hgive).trans hle
  fired := fun t ht hfired => (hc.fired t ht hfired).trans hle
  late := hc.late

theorem alike (hc : c.Accounts now) (k : Alike c c') : c'.Accounts now where
  start := by
    rw [k.log, k.live, k.request]
    exact hc.start
  attempt := by
    rw [k.log, k.live, k.request]
    exact hc.attempt
  giveUp := by
    rw [k.live, k.request]
    exact hc.giveUp
  fired := k.timers ▸ hc.fired
  late := k.log ▸ hc.late

theorem modify (hc : c.Accounts now) {f : Request → Request} (hstart : ∀ q, (f q).start = q.start)
    (hattempt : ∀ q, (f q).attempt = q.attempt)
    (hgive : (f (c.request r)).giveUp = true → (c.request r).giveUp = true ∨
      (c.request r).start + spaRetryBudget ≤ now) : (c.modify r f).Accounts now where
  start := by
    intro q hq
    rw [modify_request]
    split
    next heq => rw [hstart, ← heq]; exact hc.start q hq
    next => exact hc.start q hq
  attempt := by
    intro q hq
    rw [modify_request]
    split
    next heq => rw [hattempt, ← heq]; exact hc.attempt q hq
    next => exact hc.attempt q hq
  giveUp := by
    intro q hq hg
    rw [modify_request] at hg ⊢
    split
    next heq =>
        subst heq
        rw [if_pos rfl] at hg
        rw [hstart]
        exact (hgive hg).elim (hc.giveUp q hq) id
    next heq =>
        rw [if_neg heq] at hg
        exact hc.giveUp q hq hg
  fired := hc.fired
  late := hc.late

theorem record (hc : c.Accounts now) {e : Event} (he : e.Idle) (hlate : GaveUpLate (e :: c.log)) :
    (c.record e).Accounts now where
  start := by
    intro q hq
    exact (he.budgetStart q c.log).trans (hc.start q hq)
  attempt := by
    intro q hq
    exact (he.failures q c.log).trans (hc.attempt q hq)
  giveUp := hc.giveUp
  fired := hc.fired
  late := hlate

theorem stop (hc : c.Accounts now) : c.stop.Accounts now where
  start := hc.start
  attempt := hc.attempt
  giveUp := hc.giveUp
  fired := fun t ht => hc.fired t (mem_stop c ht)
  late := hc.late

theorem refresh (hc : c.Accounts now) (onWire : Bool) : (c.refresh now onWire).Accounts now where
  start := by
    intro q hq
    have hq : q ∈ c.live := hq
    simp only [Coord.refresh, if_pos hq]
    exact budgetStart_cons_of_some q now _ rfl
  attempt := by
    intro q hq
    have hq : q ∈ c.live := hq
    simp only [Coord.refresh, if_pos hq]
    exact failures_cons_of_some q now _ rfl
  giveUp := by
    intro q hq hg
    have hq : q ∈ c.live := hq
    simp only [Coord.refresh, if_pos hq] at hg
    cases hg
  fired := hc.fired
  late := hc.late

theorem resume (hc : c.Accounts now) : (c.resume now).Accounts now :=
  (hc.refresh true).alike (c.resume_alike now)

theorem dequeue (hc : c.Accounts now) (r : ℕ) : (c.dequeue r).Accounts now := by
  have hmodified : (c.modify r fun q => { q with queued := false }).Accounts now :=
    hc.modify (fun _ => rfl) (fun _ => rfl) .inl
  have hrecorded := hmodified.record (e := .left r) (fun _ => ⟨rfl, by simp⟩) hc.late
  exact ⟨hrecorded.start, hrecorded.attempt, hrecorded.giveUp, hrecorded.fired, hrecorded.late⟩

theorem enqueue (hc : c.Accounts now) (r : ℕ) : (c.enqueue r).Accounts now := by
  have hmodified : (c.modify r fun q => { q with queued := true }).Accounts now :=
    hc.modify (fun _ => rfl) (fun _ => rfl) .inl
  have hrecorded := hmodified.record (e := .joined r) (fun _ => ⟨rfl, by simp⟩) hc.late
  exact ⟨hrecorded.start, hrecorded.attempt, hrecorded.giveUp, hrecorded.fired, hrecorded.late⟩

theorem scheduled (hc : c.Accounts now) (k : Scheduled c h now c') : c'.Accounts now := by
  have hstart : ∀ q, (c'.request q).start = (c.request q).start := by
    intro q
    by_cases hq : q = h
    · rw [hq, k.start]
    · rw [k.other q hq]
  constructor
  case start =>
      intro q hq
      rw [k.log, hstart]
      exact hc.start q (k.live ▸ hq)
  case attempt =>
      intro q hq
      rw [k.log, hc.attempt q (k.live ▸ hq)]
      by_cases hqh : q = h
      · rw [hqh, k.attempt]
      · rw [k.other q hqh]
  case giveUp =>
      intro q hq hg
      rw [hstart]
      by_cases hqh : q = h
      · subst hqh
        exact (k.giveUp hg).elim (hc.giveUp q (k.live ▸ hq)) id
      · rw [k.other q hqh] at hg
        exact hc.giveUp q (k.live ▸ hq) hg
  case fired =>
      intro t ht hfired
      rcases k.timers t ht with ht | ⟨-, hnew, -⟩
      · exact hc.fired t (mem_stop c ht) hfired
      · rw [hnew] at hfired
        cases hfired
  case late => exact k.log ▸ hc.late

end Accounts

theorem Timed.scheduled (hc : c.Timed c.stop.timers) (k : Scheduled c h now c') :
    c'.Timed c'.timers := by
  have hstart : ∀ q, (c'.request q).start = (c.request q).start := by
    intro q
    by_cases hq : q = h
    · rw [hq, k.start]
    · rw [k.other q hq]
  intro t ht hgive hh
  rw [hstart]
  rcases k.timers t ht with ht | ⟨rfl, -, hdue⟩
  · exact hc t ht hgive (k.queue ▸ hh)
  · exact (hdue hgive).ge

/-! ## What each handler keeps -/

structure Kept (c : Coord β) (now : Time) : Prop where
  accounts : c.Accounts now
  timed : c.Timed c.timers

theorem Kept.alike (hc : c.Kept now) (k : Alike c c') : c'.Kept now :=
  ⟨hc.accounts.alike k, by rw [k.timers]; exact hc.timed.alike k⟩

theorem Accounts.kept_of_scheduled (hc : c.Accounts now) (htimed : c.Timed c.stop.timers)
    (k : Scheduled c h now c') : c'.Kept now :=
  ⟨hc.scheduled k, htimed.scheduled k⟩

theorem Accounts.remove (hc : c.Accounts now) (hline : c.Line) (fl : Floats β δ) (draw : δ)
    (hr : r ∉ c.queue.tail) (htimed : r ∉ c.queue → c.Timed c.timers) (succeeded : Bool) :
    (c.remove fl r succeeded now draw).Kept now := by
  rcases Line.head_or_out hr with ⟨rest, hqueue⟩ | hout
  · have hqueued : (c.request r).queued = true := (hline.queued r).mpr (by simp [hqueue])
    have hclear : ∀ ts ⊆ c.timers, (c.dequeue r).stop.Clear ts := by
      intro ts hts t ht _ hh
      have hrest : (c.dequeue r).stop.queue = c.queue.tail := by simp [Coord.dequeue, hqueue]
      rw [hrest] at hh
      exact hline.behind t (hts ht) (List.mem_of_head? hh)
    have haccounts := (hc.dequeue r).stop
    rcases c.remove_head fl r now draw hqueued hqueue succeeded with ⟨-, k⟩ | ⟨next, -, -, k⟩
    · exact Kept.alike ⟨haccounts, (hclear _ fun _ => mem_stop (c.dequeue r)).timed⟩ k
    · refine haccounts.kept_of_scheduled (hclear _ fun t ht => ?_).timed k
      exact mem_stop (c.dequeue r) (mem_stop _ ht)
  · have hqueued : (c.request r).queued = false := by
      simpa using mt (hline.queued r).mp hout
    rw [c.remove_unqueued fl r now draw hqueued]
    exact ⟨hc, htimed hout⟩

/-- Giving up adds only the departure of the request to the history. -/
theorem remove_log (c : Coord β) (fl : Floats β δ) (r : ℕ) (now : Time) (draw : δ)
    (hline : c.Line) (hr : r ∉ c.queue.tail) (succeeded : Bool) :
    (c.remove fl r succeeded now draw).log =
      if r ∈ c.queue then .left r :: c.log else c.log := by
  rcases Line.head_or_out hr with ⟨rest, hqueue⟩ | hout
  · have hqueued : (c.request r).queued = true := (hline.queued r).mpr (by simp [hqueue])
    rw [if_pos (by simp [hqueue])]
    rcases c.remove_head fl r now draw hqueued hqueue succeeded with ⟨-, k⟩ | ⟨next, -, -, k⟩
    · exact k.log
    · exact k.log
  · have hqueued : (c.request r).queued = false := by
      simpa using mt (hline.queued r).mp hout
    rw [c.remove_unqueued fl r now draw hqueued, if_neg hout]

theorem Accounts.giveUp_kept (hc : c.Accounts now) (hline : c.Line) (fl : Floats β δ) (draw : δ)
    (hr : r ∉ c.queue.tail) (htimed : r ∉ c.queue → c.Timed c.timers)
    (hspent : c.hidden = false → Justified r now c.log) : (c.giveUp fl r now draw).Kept now := by
  have hkept := hc.remove hline fl draw hr htimed false
  refine ⟨hkept.accounts.record (fun _ => ⟨rfl, by simp⟩) ?_, hkept.timed⟩
  have hlog := c.remove_log fl r now draw hline hr false
  cases hhidden : c.hidden with
  | true => exact hkept.accounts.late
  | false =>
      refine ⟨?_, hkept.accounts.late⟩
      rw [hlog]
      split
      · have hidle : (Event.left r).Idle := fun _ => ⟨rfl, by simp⟩
        rw [Justified, hidle.failures, hidle.budgetStart]
        exact hspent hhidden
      · exact hspent hhidden

theorem Timed.subset (hc : c.Timed ts) {ts' : List (Timer RetryCall)} (hts : ts' ⊆ ts) :
    c.Timed ts' :=
  fun t ht => hc t (hts ht)

theorem Timed.modify (hc : c.Timed ts) {f : Request → Request} (hstart : ∀ q, (f q).start = q.start) :
    (c.modify r f).Timed ts := by
  intro t ht hgive hh
  have hdue := hc t ht hgive hh
  rw [modify_request]
  split
  next heq => rw [hstart, ← heq]; exact hdue
  next => exact hdue

theorem Accounts.drained (hc : c.Accounts now) (r : ℕ) : (c.drained r now).Accounts now := by
  have hwake : (c.modify r fun q => { q with wake := false }).Accounts now :=
    hc.modify (fun _ => rfl) (fun _ => rfl) .inl
  unfold Coord.drained
  dsimp only
  split
  · exact (hwake.refresh true).modify (fun _ => rfl) (fun _ => rfl) .inl
  · exact hwake.modify (fun _ => rfl) (fun _ => rfl) .inl

theorem suspended_modify_wake (c : Coord β) (r : ℕ) (now : Time) :
    (c.modify r fun q => { q with wake := false }).suspended r now = c.suspended r now := by
  simp [suspended]

theorem Timed.drained (hc : c.Timed ts) (hclear : c.suspended r now = true → c.Clear ts) :
    (c.drained r now).Timed ts := by
  unfold Coord.drained
  dsimp only
  rw [suspended_modify_wake]
  split
  next hsuspended => exact fun t ht hgive hh => absurd hh (hclear hsuspended t ht hgive)
  next =>
      have hwake := @Timed.modify _ c r ts hc (fun q => { q with wake := false }) fun _ => rfl
      exact @Timed.modify _ _ r ts hwake (fun q => { q with resumed := false }) fun _ => rfl

theorem drained_stop_timers (c : Coord β) (r : ℕ) (now : Time) :
    (c.drained r now).stop.timers = c.stop.timers := by
  unfold drained
  dsimp only
  split <;> rfl

theorem drained_live (c : Coord β) (r : ℕ) (now : Time) : (c.drained r now).live = c.live := by
  unfold drained
  dsimp only
  split <;> rfl

theorem Accounts.fail (hc : c.Accounts now) (fl : Floats β δ) (r : ℕ) (o : Outcome) :
    (c.fail fl r o now).Accounts now := by
  refine Accounts.alike ?_ (c.fail_alike fl r now o)
  constructor
  case start =>
      intro q hq
      refine (budgetStart_cons_of_none q c.log rfl).trans ((hc.start q hq).trans ?_)
      by_cases hqr : q = r <;> simp [Coord.record, hqr]
  case attempt =>
      intro q hq
      refine (failures_cons_of_none q c.log rfl).trans ?_
      rw [hc.attempt q hq]
      by_cases hqr : q = r
      · simp [Coord.record, hqr]
      · simp [Coord.record, hqr, Ne.symm hqr]
  case giveUp =>
      intro q hq hg
      have hgive := hc.giveUp q hq
      by_cases hqr : q = r
      · subst hqr
        simpa [Coord.record] using hgive (by simpa [Coord.record] using hg)
      · simpa [Coord.record, hqr] using hgive (by simpa [Coord.record, hqr] using hg)
  case fired => exact hc.fired
  case late => exact hc.late

theorem Timed.fail (hc : c.Timed ts) (fl : Floats β δ) (r : ℕ) (o : Outcome) (now : Time) :
    (c.fail fl r o now).Timed ts := by
  have hcounted := @Timed.modify _ c r ts hc (fun q => { q with attempt := q.attempt + 1 })
    fun _ => rfl
  have hrecorded :
      ((c.modify r fun q => { q with attempt := q.attempt + 1 }).record (.failed r)).Timed ts :=
    hcounted
  exact hrecorded.alike (c.fail_alike fl r now o)

theorem Accounts.join (hc : c.Accounts now) (hline : c.Line) (fl : Floats β δ) (draw : δ)
    (hr : r ∉ c.queue.tail) (huntimed : r ∉ c.queue → ∀ t ∈ c.timers, t.call.head ≠ r)
    (hin : c.queue.head? = some r → c.Timed c.stop.timers)
    (hout : r ∉ c.queue → c.Timed c.timers) (o : Outcome) (resumed : Bool) :
    (c.join fl r o resumed now draw).Kept now := by
  have hschedule : ∀ c₀ : Coord β, c₀.Accounts now → c₀.Timed c₀.stop.timers → Kept
      ((c₀.modify r fun q => { q with forced := q.forced || resumed }).schedule fl r o now draw)
      now := by
    intro c₀ h₀ htimed
    have hmodified : (c₀.modify r fun q => { q with forced := q.forced || resumed }).Accounts now :=
      h₀.modify (fun _ => rfl) (fun _ => rfl) .inl
    exact hmodified.kept_of_scheduled (htimed.modify fun _ => rfl) (schedule_spec fl _ r now draw o)
  unfold Coord.join
  dsimp only
  rcases Line.head_or_out hr with ⟨rest, hqueue⟩ | hmem
  · have hhead : c.queue.head? = some r := by simp [hqueue]
    rw [if_pos ((hline.queued r).mpr (by simp [hqueue])), if_pos hhead]
    exact hschedule c hc (hin hhead)
  · have henqueued := hc.enqueue r
    rw [if_neg (mt (hline.queued r).mp hmem)]
    have hstart : ∀ q, ((c.enqueue r).request q).start = (c.request q).start := by
      intro q
      by_cases hq : q = r <;> simp [hq]
    split
    next hhead =>
        refine hschedule _ henqueued fun t ht _ hh => ?_
        have ht : t ∈ c.timers := mem_stop (c.enqueue r) ht
        exact absurd (Option.some.inj (hh.symm.trans hhead)) (huntimed hmem t ht)
    next hhead =>
        refine ⟨henqueued, fun t ht hgive hh => ?_⟩
        rw [hstart]
        refine hout hmem t ht hgive ?_
        cases hqueue : c.queue with
        | nil =>
            have hne := huntimed hmem t ht
            simp only [Coord.enqueue, hqueue, List.nil_append, List.head?_cons] at hh
            exact absurd (Option.some.inj hh).symm hne
        | cons h rest => simpa [Coord.enqueue, hqueue] using hh

theorem Accounts.justified (hc : c.Accounts now) (hr : r ∈ c.live) (hspent : c.spent r now = true) :
    Justified r now c.log := by
  simp only [spent, Bool.and_eq_true, Bool.or_eq_true, decide_eq_true_eq] at hspent
  rcases hspent.2 with hattempts | hbudget
  · exact .inl (by rw [hc.attempt r hr]; exact hattempts)
  · exact .inr ⟨_, hc.start r hr, by linarith⟩

theorem Kept.done (hc : c.Kept now) (hline : c.Line) (fl : Floats β δ) (draw : δ)
    (hr : r ∉ c.queue.tail) (huntimed : r ∉ c.queue → ∀ t ∈ c.timers, t.call.head ≠ r)
    (hlive : r ∈ c.live) (hclear : c.suspended r now = true →
      c.Clear (if c.queue.head? = some r then c.stop.timers else c.timers)) (o : Outcome) :
    (c.done fl r o now draw).1.Kept now := by
  have hheard := hline.heard r o now
  have hall : c.Timed (if c.queue.head? = some r then c.stop.timers else c.timers) := by
    split
    · exact hc.timed.subset fun _ => mem_stop c
    · exact hc.timed
  have hts := (hall.drained hclear).alike (c.heard_alike r now o)
  have hstop : (c.heard r o now).1.stop.timers = c.stop.timers :=
    (stop_timers_alike (c.heard_alike r now o)).trans (c.drained_stop_timers r now)
  have haccounts : (c.heard r o now).1.Accounts now :=
    (hc.accounts.drained r).alike (c.heard_alike r now o)
  have houtside : ∀ {c₀ : Coord β}, Judged c r c₀ →
      c₀.Timed (if c.queue.head? = some r then c.stop.timers else c.timers) → r ∉ c₀.queue →
      c₀.Timed c₀.timers := by
    intro c₀ hjudged htimed hout
    have hhead : c.queue.head? ≠ some r :=
      fun hh => hout (hjudged.queue ▸ List.mem_of_head? hh)
    rw [if_neg hhead] at htimed
    rw [hjudged.timers]
    exact htimed
  have hfail : Judged c r ((c.heard r o now).1.fail fl r o now) := hheard.fail o
  have hr' : r ∉ ((c.heard r o now).1.fail fl r o now).queue.tail := hfail.queue ▸ hr
  have hfailed := haccounts.fail fl r o
  have hts' := hts.fail fl r o now
  have hlive' : ((c.heard r o now).1.fail fl r o now).live = c.live :=
    ((fail_alike fl _ r now o).live.trans (c.heard_alike r now o).live).trans
      (c.drained_live r now)
  have hanswered : ∀ origin,
      Kept (((c.heard r o now).1.refundToken fl origin).remove fl r true now draw) now := by
    intro origin
    have k := refundToken_alike fl (c.heard r o now).1 origin
    have hjudged := hheard.alike k
    exact (haccounts.alike k).remove hjudged.line fl draw (hjudged.queue ▸ hr)
      (houtside hjudged (hts.alike k)) true
  unfold Coord.done
  dsimp only
  split
  · exact hanswered _
  · exact hanswered _
  · split
    next hspent =>
        exact hfailed.giveUp_kept hfail.line fl draw hr' (houtside hfail hts')
          fun _ => hfailed.justified (hlive' ▸ hlive) hspent
    next =>
        refine hfailed.join hfail.line fl draw hr' ?_ (fun hhead => ?_) (houtside hfail hts') o _
        · rw [hfail.queue, hfail.timers]
          exact huntimed
        · have hhead : c.queue.head? = some r := hfail.queue ▸ hhead
          rw [if_pos hhead] at hts'
          rw [show ((c.heard r o now).1.fail fl r o now).stop.timers = c.stop.timers from
            (stop_timers_alike (fail_alike fl _ r now o)).trans hstop]
          exact hts'

/-- Fresh budgets, and a head that is scheduled at once. -/
theorem Accounts.refreshed (hc : c.Accounts now) (hclear : c.Clear c.stop.timers) {c₀ : Coord β}
    {onWire : Bool} (k₀ : Alike (c.refresh now onWire) c₀) (k : Scheduled c₀ h now c') :
    c'.Kept now := by
  refine ((hc.refresh onWire).alike k₀).kept_of_scheduled (Timed.alike (Clear.timed ?_) k₀) k
  rw [stop_timers_alike k₀]
  exact hclear

theorem Kept.setHidden (hc : c.Kept now) (fl : Floats β δ) (hidden : Bool) (draw : δ)
    (hclear : hidden = false → c.hidden = true → c.Clear c.stop.timers) :
    (c.setHidden fl hidden now draw).Kept now := by
  have hc' : { c with hidden := hidden }.Kept now :=
    ⟨⟨hc.accounts.start, hc.accounts.attempt, hc.accounts.giveUp, hc.accounts.fired,
      hc.accounts.late⟩, hc.timed⟩
  unfold Coord.setHidden
  dsimp only
  split
  next => exact hc'
  next hreturn =>
      simp only [Bool.or_eq_true, Bool.not_eq_true', not_or, Bool.not_eq_true,
        Bool.not_eq_false] at hreturn
      have hclear' : { c with hidden := hidden }.Clear { c with hidden := hidden }.stop.timers :=
        hclear hreturn.1 hreturn.2
      split
      next hqueue =>
          rw [resume_queue] at hqueue
          refine ⟨hc'.accounts.resume, fun t _ _ hh => ?_⟩
          rw [resume_queue, hqueue] at hh
          cases hh
      next h rest hqueue =>
          exact hc'.accounts.refreshed hclear' (resume_alike _ now) (force_spec fl _ h now draw)

theorem Kept.recover (hc : c.Kept now) (fl : Floats β δ) (draw : δ)
    (hclear : c.Clear c.stop.timers) : (c.recover fl now draw).Kept now := by
  unfold Coord.recover
  split
  next => exact hc
  next h rest hqueue =>
      exact hc.accounts.refreshed hclear (.refl _) (force_spec fl _ h now draw)

theorem Kept.grace (hc : c.Kept now) (fl : Floats β δ) (t : Timer Time) (draw : δ)
    (hclear : c.late t.due now = true → c.Clear c.stop.timers) :
    (c.grace fl t now draw).Kept now := by
  have hc' : { c with graces := c.graces.erase t, graceCancel := none }.Kept now :=
    hc.alike ⟨rfl, rfl, rfl, rfl, rfl, rfl, rfl⟩
  unfold Coord.grace
  dsimp only
  split
  next => exact hc.alike ⟨rfl, rfl, rfl, rfl, rfl, rfl, rfl⟩
  next h rest hqueue =>
      split
      · exact hc.alike ⟨rfl, rfl, rfl, rfl, rfl, rfl, rfl⟩
      · split
        next hlate =>
            exact hc'.accounts.refreshed (hclear hlate) (resume_alike _ now)
              (force_spec fl _ h now draw)
        next =>
            split
            · exact hc'
            · split
              · exact hc'.alike ⟨rfl, rfl, rfl, rfl, rfl, rfl, rfl⟩
              · exact hc'.accounts.kept_of_scheduled (hc'.timed.subset fun _ => mem_stop _)
                  (force_spec fl _ h now draw)

theorem Kept.retry (hc : c.Kept now) {t : Timer RetryCall} (ht : t ∈ c.timers)
    (hfired : t.fired = true) (hclear : c.late t.due now = true → c.Clear (c.timers.erase t)) :
    (c.retry t now).Kept now := by
  have herase : c.timers.erase t ⊆ c.timers := fun _ => List.mem_of_mem_erase
  have hc' : { c with timers := c.timers.erase t }.Kept now :=
    ⟨⟨hc.accounts.start, hc.accounts.attempt, hc.accounts.giveUp,
      fun t' ht' => hc.accounts.fired t' (herase ht'), hc.accounts.late⟩, hc.timed.subset herase⟩
  have hwoken : ∀ c₀ : Coord β, c₀.Kept now → ∀ giveUp : Bool,
      (giveUp = true → (c₀.request t.call.head).start + spaRetryBudget ≤ now) →
      ({ (c₀.modify t.call.head fun q => { q with giveUp := q.giveUp || giveUp, paced := false })
        with cancel := none }.wake t.call.head).Kept now := by
    intro c₀ h₀ giveUp hgive
    have hmodified : (c₀.modify t.call.head
        fun q => { q with giveUp := q.giveUp || giveUp, paced := false }).Accounts now :=
      h₀.accounts.modify (fun _ => rfl) (fun _ => rfl) fun hg =>
        (Bool.or_eq_true_iff.mp hg).imp id hgive
    have htimed := @Timed.modify _ c₀ t.call.head c₀.timers h₀.timed
      (fun q => { q with giveUp := q.giveUp || giveUp, paced := false }) fun _ => rfl
    have hmodified' : { (c₀.modify t.call.head
        fun q => { q with giveUp := q.giveUp || giveUp, paced := false }) with
        cancel := none }.Accounts now :=
      ⟨hmodified.start, hmodified.attempt, hmodified.giveUp, hmodified.fired, hmodified.late⟩
    have htimed' : { (c₀.modify t.call.head
        fun q => { q with giveUp := q.giveUp || giveUp, paced := false }) with
        cancel := none }.Timed c₀.timers := htimed
    exact ⟨hmodified'.modify (fun _ => rfl) (fun _ => rfl) .inl, htimed'.modify fun _ => rfl⟩
  unfold Coord.retry
  dsimp only
  split
  next hhead =>
      split
      next hlate =>
          refine hwoken _ ⟨hc'.accounts.resume, ?_⟩ _ fun hgive => ?_
          · rw [resume_timers]
            refine Timed.alike (Clear.timed ?_) (resume_alike _ now)
            exact hclear hlate
          · simp [hlate] at hgive
      next hlate =>
          refine hwoken _ hc' _ fun hgive => ?_
          simp only [Bool.and_eq_true] at hgive
          exact (hc.timed t ht hgive.1.1 hhead).trans (hc.accounts.fired t ht hfired)
  next => exact hc'

theorem Kept.fire (hc : c.Kept now) (id : ℕ) :
    { c with timers := fireDue c.timers id now }.Kept now := by
  have hold : ∀ t ∈ fireDue c.timers id now, ∃ t' ∈ c.timers, t'.call = t.call ∧ t'.due = t.due ∧
      (t.fired = true → t'.fired = true ∨ t'.due ≤ now) := by
    intro t ht
    obtain ⟨t', ht', rfl⟩ := List.mem_map.mp ht
    refine ⟨t', ht', ?_⟩
    split
    next hdue =>
        simp only [Bool.and_eq_true, decide_eq_true_eq] at hdue
        exact ⟨rfl, rfl, fun _ => .inr hdue.2⟩
    next => exact ⟨rfl, rfl, .inl⟩
  refine ⟨⟨hc.accounts.start, hc.accounts.attempt, hc.accounts.giveUp, ?_, hc.accounts.late⟩, ?_⟩
  · intro t ht hfired
    obtain ⟨t', ht', -, hdue, hold⟩ := hold t ht
    rw [← hdue]
    exact (hold hfired).elim (hc.accounts.fired t' ht') (·)
  · intro t ht hgive hh
    obtain ⟨t', ht', hcall, hdue, -⟩ := hold t ht
    rw [← hcall, ← hdue]
    exact hc.timed t' ht' (hcall ▸ hgive) (hcall ▸ hh)

theorem Kept.begin (hc : c.Kept now) (hout : r ∉ c.queue) (origin : String) :
    (c.begin r origin now).Kept now := by
  have hother : ∀ q, q ≠ r → (c.begin r origin now).request q = c.request q :=
    fun q hq => Function.update_of_ne hq _ _
  have hself : (c.begin r origin now).request r = { origin := origin, start := now } :=
    Function.update_self _ _ _
  have hfresh : ∀ q, q ≠ r → (Event.began r now).freshFor q = none :=
    fun q hq => if_neg (Ne.symm hq)
  have hlive : ∀ q ∈ (c.begin r origin now).live, q ≠ r → q ∈ c.live :=
    fun q hq hqr => (List.mem_cons.mp hq).resolve_left hqr
  refine ⟨?_, fun t ht hgive hh => ?_⟩
  · constructor
    case start =>
        intro q hq
        by_cases hqr : q = r
        · rw [hqr, hself]
          exact budgetStart_cons_of_some r now _ (if_pos rfl)
        · rw [hother q hqr]
          exact (budgetStart_cons_of_none q _ (hfresh q hqr)).trans
            (hc.accounts.start q (hlive q hq hqr))
    case attempt =>
        intro q hq
        by_cases hqr : q = r
        · rw [hqr, hself]
          exact failures_cons_of_some r now _ (if_pos rfl)
        · rw [hother q hqr]
          refine (failures_cons_of_none q _ (hfresh q hqr)).trans ?_
          rw [hc.accounts.attempt q (hlive q hq hqr), if_neg (by simp), Nat.add_zero]
    case giveUp =>
        intro q hq hg
        by_cases hqr : q = r
        · rw [hqr, hself] at hg
          cases hg
        · rw [hother q hqr] at hg ⊢
          exact hc.accounts.giveUp q (hlive q hq hqr) hg
    case fired => exact hc.accounts.fired
    case late => exact hc.accounts.late
  · have hne : t.call.head ≠ r := ne_of_mem_of_not_mem (List.mem_of_head? hh) hout
    rw [hother _ hne]
    exact hc.timed t ht hgive hh

theorem Kept.forget (hc : c.Kept now) (r : ℕ) : (c.forget r).Kept now := by
  have hlive : ∀ q ∈ (c.forget r).live, q ∈ c.live := fun _ => List.mem_of_mem_erase
  exact ⟨⟨fun q hq => hc.accounts.start q (hlive q hq), fun q hq => hc.accounts.attempt q (hlive q hq),
    fun q hq => hc.accounts.giveUp q (hlive q hq), hc.accounts.fired, hc.accounts.late⟩, hc.timed⟩

theorem Kept.modify (hc : c.Kept now) {f : Request → Request} (hstart : ∀ q, (f q).start = q.start)
    (hattempt : ∀ q, (f q).attempt = q.attempt) (hgive : ∀ q, (f q).giveUp = q.giveUp) :
    (c.modify r f).Kept now :=
  ⟨hc.accounts.modify hstart hattempt fun hg => .inl (hgive _ ▸ hg), hc.timed.modify hstart⟩

theorem Kept.record (hc : c.Kept now) {e : Event} (he : e.Idle) (hlate : GaveUpLate (e :: c.log)) :
    (c.record e).Kept now :=
  ⟨hc.accounts.record he hlate, hc.timed⟩

end Coord

end Sky.Retry
