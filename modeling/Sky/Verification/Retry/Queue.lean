import Mathlib
import Sky.Library.Run
import Sky.Verification.Retry.Equations

/-! # The head of the queue always moves on

Only the head of the queue has timers or a token. Each handler that leaves the page visible
either leaves the head alone or schedules it, and scheduling ends with a token or a timer. -/

namespace Sky.Retry

open Library

variable {β δ : Type} {fl : Floats β δ}

namespace Coord

variable {c c' : Coord β} {r h : ℕ} {now : Time} {draw : δ} {rest : List ℕ}

structure Line (c : Coord β) : Prop where
  nodup : c.queue.Nodup
  queued : ∀ r, (c.request r).queued = true ↔ r ∈ c.queue
  quiet : ∀ r ∈ c.queue.tail, (c.request r).wake = false
  behind : ∀ t ∈ c.timers, t.call.head ∉ c.queue.tail

/-- The part of the history that is about the queue and the results. -/
def marks (c : Coord β) : List Event :=
  c.log.filter fun
    | .joined _ | .left _ | .returned _ => true
    | _ => false

theorem marks_eq_of_log (h : c'.log = c.log) : c'.marks = c.marks := by
  rw [marks, marks, h]

/-- The request has a token or a timer. -/
def Awake (c : Coord β) (h : ℕ) : Prop :=
  (c.request h).wake = true ∨ ∃ t ∈ c.timers, t.call.head = h

/-! ## What keeps the line -/

theorem Awake.alike (hh : c.Awake h) (k : Alike c c') : c'.Awake h := by
  unfold Awake
  rw [k.request, k.timers]
  exact hh

theorem Scheduled.awake (k : Scheduled c h now c') (hv : c.hidden = false) : c'.Awake h :=
  k.moves hv

namespace Line

theorem alike (hc : c.Line) (k : Alike c c') : c'.Line where
  nodup := k.queue ▸ hc.nodup
  queued := by
    rw [k.request, k.queue]
    exact hc.queued
  quiet := by
    rw [k.request, k.queue]
    exact hc.quiet
  behind := by
    rw [k.timers, k.queue]
    exact hc.behind

theorem record (hc : c.Line) (e : Event) : (c.record e).Line :=
  ⟨hc.nodup, hc.queued, hc.quiet, hc.behind⟩

theorem modify (hc : c.Line) {f : Request → Request} (hqueued : ∀ q, (f q).queued = q.queued)
    (hwake : ∀ q, (f q).wake = true → q.wake = true) : (c.modify r f).Line where
  nodup := hc.nodup
  queued := by
    intro q
    by_cases hq : q = r <;> simp [hq, hqueued, hc.queued]
  quiet := by
    intro q hq
    have hquiet := hc.quiet q hq
    by_cases hqr : q = r
    · subst hqr
      simpa [hquiet] using mt (hwake (c.request q))
    · simpa [hqr] using hquiet
  behind := hc.behind

theorem refresh (hc : c.Line) (onWire : Bool) : (c.refresh now onWire).Line where
  nodup := hc.nodup
  queued := by
    intro q
    rw [refresh_queued]
    exact hc.queued q
  quiet := by
    intro q hq
    rw [refresh_wake]
    exact hc.quiet q hq
  behind := hc.behind

theorem stop (hc : c.Line) : c.stop.Line where
  nodup := hc.nodup
  queued := hc.queued
  quiet := hc.quiet
  behind := fun _ ht => hc.behind _ (mem_stop c ht)

theorem head_not_mem_tail (hc : c.Line) (hh : c.queue.head? = some h) : h ∉ c.queue.tail := by
  obtain ⟨rest, hqueue⟩ := List.head?_eq_some_iff.mp hh
  have hnodup := hc.nodup
  rw [hqueue] at hnodup ⊢
  exact (List.nodup_cons.mp hnodup).1

theorem scheduled (hc : c.Line) (k : Scheduled c h now c') (hh : c.queue.head? = some h) :
    c'.Line := by
  have htail := hc.head_not_mem_tail hh
  constructor
  case nodup => exact k.queue ▸ hc.nodup
  case queued =>
      intro q
      rw [k.queue, ← hc.queued q]
      by_cases hq : q = h
      · rw [hq, k.queued]
      · rw [k.other q hq]
  case quiet =>
      intro q hq
      rw [k.queue] at hq
      rw [k.other q (ne_of_mem_of_not_mem hq htail)]
      exact hc.quiet q hq
  case behind =>
      intro t ht
      rw [k.queue]
      rcases k.timers t ht with ht | ⟨rfl, -⟩
      · exact hc.behind t (mem_stop c ht)
      · exact htail

theorem dequeue (hc : c.Line) (hqueue : c.queue = r :: rest) : (c.dequeue r).Line := by
  have hnodup := hc.nodup
  rw [hqueue] at hnodup
  have hrest : (c.dequeue r).queue = rest := by simp [Coord.dequeue, hqueue]
  have htail : rest.tail ⊆ c.queue.tail := by
    rw [hqueue]
    exact List.tail_subset _
  constructor
  case nodup => exact hrest ▸ hnodup.of_cons
  case queued =>
      intro q
      rw [hrest, dequeue_request]
      by_cases hq : q = r
      · simpa [hq] using (List.nodup_cons.mp hnodup).1
      · simpa [hq, hqueue] using hc.queued q
  case quiet =>
      intro q hq
      rw [hrest] at hq
      rw [dequeue_request]
      by_cases hqr : q = r
      · subst hqr
        exact absurd (List.mem_of_mem_tail hq) (List.nodup_cons.mp hnodup).1
      · simpa [hqr] using hc.quiet q (htail hq)
  case behind =>
      intro t ht hmem
      exact hc.behind t ht (htail (hrest ▸ hmem))

theorem enqueue (hc : c.Line) (hr : r ∉ c.queue) (hwake : (c.request r).wake = false)
    (htimers : ∀ t ∈ c.timers, t.call.head ≠ r) : (c.enqueue r).Line := by
  have htail : ∀ q ∈ (c.queue ++ [r]).tail, q ∈ c.queue.tail ∨ q = r := by
    intro q hq
    cases hqueue : c.queue with
    | nil => simp [hqueue] at hq
    | cons h rest => simpa [hqueue] using hq
  constructor
  case nodup =>
      exact List.nodup_append.mpr ⟨hc.nodup, List.nodup_singleton r,
        fun q hq q' hq' => by rw [List.mem_singleton.mp hq']; exact ne_of_mem_of_not_mem hq hr⟩
  case queued =>
      intro q
      by_cases hq : q = r <;> simp [Coord.enqueue, hq, hc.queued]
  case quiet =>
      intro q hq
      rw [enqueue_request]
      by_cases hqr : q = r
      · simpa [hqr] using hwake
      · simpa [hqr] using hc.quiet q ((htail q hq).resolve_right hqr)
  case behind =>
      intro t ht hmem
      exact (htail _ hmem).elim (hc.behind t ht) (htimers t ht)

end Line

/-! ## Handlers on behalf of a request -/

/-- What a handler does to the line when it is called for the request `r`. -/
structure Served (c : Coord β) (r : ℕ) (c' : Coord β) : Prop where
  line : c'.Line
  hidden : c'.hidden = c.hidden
  live : c'.live = c.live
  timers : ∀ t ∈ c'.timers, t ∈ c.timers ∨ c'.queue.head? = some t.call.head
  head : c.hidden = false → ∀ h, c'.queue.head? = some h →
    c'.Awake h ∨ c.queue.head? = some h ∧ h ≠ r ∧ (c.Awake h → c'.Awake h)

theorem Line.remove (hc : c.Line) (fl : Floats β δ) (now : Time) (draw : δ)
    (hqueue : c.queue = r :: rest) (succeeded : Bool) :
    Served c r (c.remove fl r succeeded now draw) ∧
      (c.remove fl r succeeded now draw).queue = rest := by
  have hqueued : (c.request r).queued = true := (hc.queued r).mpr (by simp [hqueue])
  have hrest : (c.dequeue r).stop.queue = rest := by simp [Coord.dequeue, hqueue]
  have hline := (hc.dequeue hqueue).stop
  rcases c.remove_head fl r now draw hqueued hqueue succeeded with
    ⟨rfl, k⟩ | ⟨next, rest', rfl, k⟩
  · have hnil : (c.remove fl r succeeded now draw).queue = [] := k.queue.trans hrest
    refine ⟨⟨hline.alike k, k.hidden, k.live, ?_, fun _ h hh => ?_⟩, hnil⟩
    · rw [k.timers]
      exact fun t ht => .inl (mem_stop (c.dequeue r) ht)
    · rw [hnil] at hh
      cases hh
  · have hcons : (c.remove fl r succeeded now draw).queue = next :: rest' := k.queue.trans hrest
    have hnext : (c.dequeue r).stop.queue.head? = some next := by rw [hrest]; rfl
    refine ⟨⟨hline.scheduled k hnext, k.hidden, k.live, ?_, fun hv h hh => ?_⟩, hcons⟩
    · intro t ht
      rcases k.timers t ht with ht | ⟨rfl, -⟩
      · exact .inl (mem_stop (c.dequeue r) (mem_stop _ ht))
      · exact .inr (by rw [hcons]; rfl)
    · rw [hcons] at hh
      cases hh
      exact .inl (k.awake hv)

theorem Served.record (hc : Served c r c') (e : Event) : Served c r (c'.record e) :=
  ⟨hc.line.record e, hc.hidden, hc.live, hc.timers, hc.head⟩

/-- A handler that only touched `r` and then served it. -/
theorem Served.after {c₀ : Coord β} (hhidden : c₀.hidden = c.hidden) (hqueue : c₀.queue = c.queue)
    (hlive : c₀.live = c.live) (htimers : c₀.timers = c.timers)
    (hwake : ∀ q, q ≠ r → (c₀.request q).wake = (c.request q).wake) (hc : Served c₀ r c') :
    Served c r c' where
  line := hc.line
  hidden := hc.hidden.trans hhidden
  live := hc.live.trans hlive
  timers := htimers ▸ hc.timers
  head := by
    intro hv h hh
    rcases hc.head (hhidden ▸ hv) h hh with hawake | ⟨hh', hne, hkeep⟩
    · exact .inl hawake
    · refine .inr ⟨hqueue ▸ hh', hne, fun hawake => hkeep ?_⟩
      unfold Awake
      rw [hwake h hne, htimers]
      exact hawake

/-- Nothing but `r` itself was touched, and `r` does not wait. -/
theorem Served.self (hc : c.Line) (hr : c.queue.head? ≠ some r) : Served c r c where
  line := hc
  hidden := rfl
  live := rfl
  timers := fun _ ht => .inl ht
  head := by
    intro _ h hh
    refine .inr ⟨hh, ?_, id⟩
    rintro rfl
    exact hr hh

/-- A request that is sent is the head or is not in the queue. -/
theorem Line.head_or_out (hr : r ∉ c.queue.tail) :
    (∃ rest, c.queue = r :: rest) ∨ r ∉ c.queue := by
  cases hqueue : c.queue with
  | nil => exact .inr List.not_mem_nil
  | cons h rest =>
      by_cases hh : h = r
      · exact .inl ⟨rest, by rw [hh]⟩
      · rw [hqueue] at hr
        exact .inr (by simpa [Ne.symm hh] using hr)

theorem Line.leave (hc : c.Line) (fl : Floats β δ) (now : Time) (draw : δ)
    (hr : r ∉ c.queue.tail) (succeeded : Bool) :
    Served c r (c.remove fl r succeeded now draw) ∧
      (c.remove fl r succeeded now draw).queue = c.queue.erase r := by
  rcases Line.head_or_out hr with ⟨rest, hqueue⟩ | hout
  · obtain ⟨hserved, hrest⟩ := hc.remove fl now draw hqueue succeeded
    exact ⟨hserved, by rw [hrest, hqueue, List.erase_cons_head]⟩
  · have hqueued : (c.request r).queued = false := by
      simpa using mt (hc.queued r).mp hout
    rw [c.remove_unqueued fl r now draw hqueued, List.erase_of_not_mem hout]
    exact ⟨.self hc fun hh => hout (List.mem_of_head? hh), rfl⟩

theorem Line.drained (hc : c.Line) : (c.drained r now).Line := by
  have hwake : (c.modify r fun q => { q with wake := false }).Line :=
    hc.modify (fun _ => rfl) fun _ hw => by cases hw
  unfold Coord.drained
  dsimp only
  split
  · exact (hwake.refresh true).modify (fun _ => rfl) fun _ => id
  · exact hwake.modify (fun _ => rfl) fun _ => id

theorem drained_frame (c : Coord β) (r : ℕ) (now : Time) :
    (c.drained r now).queue = c.queue ∧ (c.drained r now).hidden = c.hidden ∧
      (c.drained r now).live = c.live ∧ (c.drained r now).timers = c.timers ∧
      ((c.drained r now).request r).wake = false ∧
      ∀ q, q ≠ r → ((c.drained r now).request q).wake = (c.request q).wake := by
  unfold drained
  dsimp only
  split <;> refine ⟨rfl, rfl, rfl, rfl, ?_, fun q hq => ?_⟩ <;> simp [*]

/-- The joined request has been scheduled if it is the head. -/
theorem Line.join (hc : c.Line) (fl : Floats β δ) (now : Time) (draw : δ)
    (hr : r ∉ c.queue.tail) (hwake : (c.request r).wake = false)
    (htimers : r ∉ c.queue → ∀ t ∈ c.timers, t.call.head ≠ r) (o : Outcome) (resumed : Bool) :
    Served c r (c.join fl r o resumed now draw) ∧
      (c.join fl r o resumed now draw).queue =
        if r ∈ c.queue then c.queue else c.queue ++ [r] := by
  have hserved : ∀ c₀ : Coord β, c₀.Line → c₀.queue.head? = some r → Served c₀ r
      ((c₀.modify r fun q => { q with forced := q.forced || resumed }).schedule fl r o now draw) ∧
      ((c₀.modify r fun q => { q with forced := q.forced || resumed }).schedule fl r o now
        draw).queue = c₀.queue := by
    intro c₀ hline hhead
    have hline' : (c₀.modify r fun q => { q with forced := q.forced || resumed }).Line :=
      hline.modify (fun _ => rfl) fun _ => id
    have k := (c₀.modify r fun q => { q with forced := q.forced || resumed }).schedule_spec fl r now
      draw o
    refine ⟨⟨hline'.scheduled k hhead, k.hidden, k.live, ?_, fun hv h hh => ?_⟩, k.queue⟩
    · intro t ht
      rcases k.timers t ht with ht | ⟨rfl, -⟩
      · exact .inl (mem_stop c₀ ht)
      · exact .inr (k.queue ▸ hhead)
    · rw [k.queue] at hh
      cases hhead.symm.trans hh
      exact .inl (k.awake hv)
  unfold Coord.join
  dsimp only
  rcases Line.head_or_out hr with ⟨rest, hqueue⟩ | hout
  · have hqueued : (c.request r).queued = true := (hc.queued r).mpr (by simp [hqueue])
    have hhead : c.queue.head? = some r := by simp [hqueue]
    rw [if_pos hqueued, if_pos hhead, if_pos (List.mem_of_head? hhead)]
    exact hserved c hc hhead
  · have hqueued : ¬(c.request r).queued = true := mt (hc.queued r).mp hout
    have hline := hc.enqueue hout hwake (htimers hout)
    rw [if_neg hqueued, if_neg hout]
    by_cases hhead : (c.enqueue r).queue.head? = some r
    · rw [if_pos hhead]
      obtain ⟨k, hqueue⟩ := hserved _ hline hhead
      refine ⟨⟨k.line, k.hidden, k.live, k.timers, fun hv h hh => ?_⟩, hqueue⟩
      rw [hqueue] at hh
      rcases k.head hv h (hqueue ▸ hh) with hawake | ⟨-, hne, -⟩
      · exact .inl hawake
      · exact absurd (Option.some.inj (hh.symm.trans hhead)) hne
    · rw [if_neg hhead]
      refine ⟨⟨hline, rfl, rfl, fun _ ht => .inl ht, fun _ h hh => ?_⟩, rfl⟩
      have hne : h ≠ r := by
        rintro rfl
        exact hhead hh
      have hold : c.queue.head? = some h := by
        cases hqueue : c.queue with
        | nil =>
            simp only [Coord.enqueue, hqueue, List.nil_append, List.head?_cons] at hh
            exact absurd (Option.some.inj hh).symm hne
        | cons h' rest => simpa [Coord.enqueue, hqueue] using hh
      refine .inr ⟨hold, hne, fun hawake => ?_⟩
      unfold Awake
      rw [enqueue_request, if_neg hne]
      exact hawake

/-- The state in which the outcome of an attempt of `r` is judged. -/
structure Judged (c : Coord β) (r : ℕ) (c₀ : Coord β) : Prop where
  line : c₀.Line
  queue : c₀.queue = c.queue
  hidden : c₀.hidden = c.hidden
  live : c₀.live = c.live
  timers : c₀.timers = c.timers
  self : (c₀.request r).wake = false
  other : ∀ q, q ≠ r → (c₀.request q).wake = (c.request q).wake

theorem Judged.alike {c₀ c₁ : Coord β} (hc : Judged c r c₀) (k : Alike c₀ c₁) : Judged c r c₁ where
  line := hc.line.alike k
  queue := k.queue.trans hc.queue
  hidden := k.hidden.trans hc.hidden
  live := k.live.trans hc.live
  timers := k.timers.trans hc.timers
  self := by
    rw [k.request]
    exact hc.self
  other := by
    rw [k.request]
    exact hc.other

theorem Judged.served {c₀ : Coord β} (hc : Judged c r c₀) (h : Served c₀ r c') : Served c r c' :=
  .after hc.hidden hc.queue hc.live hc.timers hc.other h

theorem Line.heard (hc : c.Line) (r : ℕ) (o : Outcome) (now : Time) :
    Judged c r (c.heard r o now).1 := by
  obtain ⟨hqueue, hhidden, hlive, htimers, hself, hother⟩ := drained_frame c r now
  exact Judged.alike ⟨hc.drained, hqueue, hhidden, hlive, htimers, hself, hother⟩
    (c.heard_alike r now o)

theorem Judged.fail {c₀ : Coord β} (hc : Judged c r c₀) (o : Outcome) :
    Judged c r (c₀.fail fl r o now) := by
  have hline : (c₀.modify r fun q => { q with attempt := q.attempt + 1 }).Line :=
    hc.line.modify (fun _ => rfl) fun _ => id
  have hcounted : Judged c r
      ((c₀.modify r fun q => { q with attempt := q.attempt + 1 }).record (.failed r)) := by
    refine ⟨hline.record _, hc.queue, hc.hidden, hc.live, hc.timers, ?_, fun q hq => ?_⟩
    · simpa [Coord.record] using hc.self
    · simpa [Coord.record, hq] using hc.other q hq
  exact hcounted.alike (c₀.fail_alike fl r now o)

theorem Line.giveUp (hc : c.Line) (fl : Floats β δ) (now : Time) (draw : δ)
    (hr : r ∉ c.queue.tail) :
    Served c r (c.giveUp fl r now draw) ∧
      (c.giveUp fl r now draw).queue = c.queue.erase r := by
  obtain ⟨k, hqueue⟩ := hc.leave fl now draw hr false
  exact ⟨k.record _, hqueue⟩

theorem Line.done (hc : c.Line) (fl : Floats β δ) (now : Time) (draw : δ)
    (hr : r ∉ c.queue.tail)
    (htimers : r ∉ c.queue → ∀ t ∈ c.timers, t.call.head ≠ r) (o : Outcome) :
    Served c r (c.done fl r o now draw).1 ∧
      (c.done fl r o now draw).1.queue =
        if (c.done fl r o now draw).2 then if r ∈ c.queue then c.queue else c.queue ++ [r]
        else c.queue.erase r := by
  have hheard := hc.heard r o now
  have hrefund : ∀ origin, Judged c r ((c.heard r o now).1.refundToken fl origin) :=
    fun origin => hheard.alike (refundToken_alike fl _ origin)
  have hleave : ∀ origin,
      Served c r (((c.heard r o now).1.refundToken fl origin).remove fl r true now draw) ∧
      (((c.heard r o now).1.refundToken fl origin).remove fl r true now draw).queue =
        c.queue.erase r := by
    intro origin
    obtain ⟨k, hqueue⟩ := (hrefund origin).line.leave fl now draw
      ((hrefund origin).queue ▸ hr) true
    exact ⟨(hrefund origin).served k, hqueue.trans (by rw [(hrefund origin).queue])⟩
  have hfail : Judged c r ((c.heard r o now).1.fail fl r o now) := hheard.fail o
  have hr' : r ∉ ((c.heard r o now).1.fail fl r o now).queue.tail := hfail.queue ▸ hr
  unfold Coord.done
  dsimp only
  split
  · exact hleave _
  · exact hleave _
  · split
    · obtain ⟨k, hqueue⟩ := hfail.line.giveUp fl now draw hr'
      exact ⟨hfail.served k, hqueue.trans (by rw [hfail.queue]; rfl)⟩
    · obtain ⟨k, hqueue⟩ := hfail.line.join fl now draw hr' hfail.self
        (by rw [hfail.queue, hfail.timers]; exact htimers) o (c.heard r o now).2
      exact ⟨hfail.served k, hqueue.trans (by rw [hfail.queue]; rfl)⟩

/-! ## Handlers of the page and of timers -/

/-- What a handler does to the line when no request calls it. -/
structure Tended (c c' : Coord β) : Prop where
  line : c'.Line
  queue : c'.queue = c.queue
  live : c'.live = c.live
  marks : c'.marks = c.marks
  timers : ∀ t ∈ c'.timers, (∃ t' ∈ c.timers, t'.call.head = t.call.head) ∨
    c.queue.head? = some t.call.head
  head : c'.hidden = false → ∀ h, c.queue.head? = some h →
    c'.Awake h ∨ c.hidden = false ∧ (c.Awake h → c'.Awake h)

theorem Tended.alike {c'' : Coord β} (hc : Tended c c') (k : Alike c' c'') : Tended c c'' where
  line := hc.line.alike k
  queue := k.queue.trans hc.queue
  live := k.live.trans hc.live
  marks := (marks_eq_of_log k.log).trans hc.marks
  timers := by
    rw [k.timers]
    exact hc.timers
  head := by
    rw [k.hidden]
    intro hv h hh
    rcases hc.head hv h hh with hawake | ⟨hv', hkeep⟩
    · exact .inl (hawake.alike k)
    · exact .inr ⟨hv', fun hawake => (hkeep hawake).alike k⟩

theorem Line.tended_self (hc : c.Line) : Tended c c :=
  ⟨hc, rfl, rfl, rfl, fun t ht => .inl ⟨t, ht, rfl⟩, fun hv _ _ => .inr ⟨hv, id⟩⟩

/-- The head is scheduled in a state with the same queue. -/
theorem Tended.of_scheduled {c₀ : Coord β} (hline : c₀.Line) (hqueue : c₀.queue = c.queue)
    (hlive : c₀.live = c.live) (hmarks : c₀.marks = c.marks) (htimers : ∀ t ∈ c₀.timers, t ∈ c.timers) (hh : c.queue.head? = some h)
    (k : Scheduled c₀ h now c') : Tended c c' where
  line := hline.scheduled k (hqueue ▸ hh)
  queue := k.queue.trans hqueue
  live := k.live.trans hlive
  marks := (marks_eq_of_log k.log).trans hmarks
  timers := by
    intro t ht
    rcases k.timers t ht with ht | ⟨rfl, -⟩
    · exact .inl ⟨t, htimers t (mem_stop c₀ ht), rfl⟩
    · exact .inr hh
  head := by
    intro hv h' hh'
    cases hh.symm.trans hh'
    exact .inl (k.awake (k.hidden ▸ hv))

theorem Line.resume (hc : c.Line) : (c.resume now).Line :=
  (hc.refresh true).alike (c.resume_alike now)

theorem resume_queue (c : Coord β) (now : Time) : (c.resume now).queue = c.queue :=
  (c.resume_alike now).queue

theorem resume_timers (c : Coord β) (now : Time) : (c.resume now).timers = c.timers :=
  (c.resume_alike now).timers

theorem resume_live (c : Coord β) (now : Time) : (c.resume now).live = c.live :=
  (c.resume_alike now).live

theorem resume_marks (c : Coord β) (now : Time) : (c.resume now).marks = c.marks :=
  (marks_eq_of_log (c.resume_alike now).log).trans rfl

theorem Line.setHidden (hc : c.Line) (hidden : Bool) :
    Tended c (c.setHidden fl hidden now draw) := by
  have hline : { c with hidden := hidden }.Line := ⟨hc.nodup, hc.queued, hc.quiet, hc.behind⟩
  unfold Coord.setHidden
  dsimp only
  split
  next hskip =>
      refine ⟨hline, rfl, rfl, rfl, fun t ht => .inl ⟨t, ht, rfl⟩,
        fun hv h hh => .inr ⟨?_, id⟩⟩
      have hv : hidden = false := hv
      simpa [hv] using hskip
  next =>
      split
      next hqueue =>
          rw [resume_queue] at hqueue
          refine ⟨hline.resume, resume_queue _ now, resume_live _ now, resume_marks _ now, ?_,
            fun _ h hh => ?_⟩
          · rw [resume_timers]
            exact fun t ht => .inl ⟨t, ht, rfl⟩
          · have hnil : c.queue = [] := hqueue
            rw [hnil] at hh
            cases hh
      next h rest hqueue =>
          rw [resume_queue] at hqueue
          have hhead : c.queue.head? = some h := List.head?_eq_some_iff.mpr ⟨rest, hqueue⟩
          refine .of_scheduled hline.resume (resume_queue _ now) (resume_live _ now)
            (resume_marks _ now) ?_ hhead (force_spec fl _ h now draw)
          rw [resume_timers]
          exact fun _ ht => ht

theorem Line.recover (hc : c.Line) : Tended c (c.recover fl now draw) := by
  unfold Coord.recover
  split
  next => exact hc.tended_self
  next h rest hqueue =>
      have hhead : c.queue.head? = some h := List.head?_eq_some_iff.mpr ⟨rest, hqueue⟩
      exact .of_scheduled (hc.refresh false) rfl rfl rfl (fun _ => id) hhead
        (force_spec fl _ h now draw)

theorem Line.wake (hc : c.Line) (hh : c.queue.head? = some h) : (c.wake h).Line where
  nodup := hc.nodup
  queued := by
    intro q
    by_cases hq : q = h <;> simp [hq, hc.queued]
  quiet := by
    intro q hq
    rw [wake_request, if_neg (ne_of_mem_of_not_mem hq (hc.head_not_mem_tail hh))]
    exact hc.quiet q hq
  behind := hc.behind

theorem Line.retry (hc : c.Line) (t : Timer RetryCall) : Tended c (c.retry t now) := by
  have hline : { c with timers := c.timers.erase t }.Line :=
    ⟨hc.nodup, hc.queued, hc.quiet, fun t' ht' => hc.behind t' (List.mem_of_mem_erase ht')⟩
  have hold : ∀ t' ∈ c.timers.erase t, ∃ t'' ∈ c.timers, t''.call.head = t'.call.head :=
    fun t' ht' => ⟨t', List.mem_of_mem_erase ht', rfl⟩
  unfold Coord.retry
  dsimp only
  split
  next hhead =>
      have hwoken : ∀ c₀ : Coord β, c₀.Line → c₀.queue = c.queue → c₀.live = c.live →
          c₀.marks = c.marks → c₀.timers = c.timers.erase t → Tended c (c₀.wake t.call.head) := by
        intro c₀ hline₀ hqueue hlive hmarks htimers
        refine ⟨hline₀.wake (hqueue ▸ hhead), hqueue, hlive, hmarks, ?_,
          fun _ h hh => .inl (.inl ?_)⟩
        · rw [wake_timers, htimers]
          exact fun t' ht' => .inl (hold t' ht')
        · cases hhead.symm.trans hh
          simp
      have hcancel : ∀ c₀ : Coord β, c₀.Line → { c₀ with cancel := none }.Line :=
        fun _ h₀ => ⟨h₀.nodup, h₀.queued, h₀.quiet, h₀.behind⟩
      by_cases hlate : { c with timers := c.timers.erase t }.late t.due now
      · simp only [if_pos hlate]
        exact hwoken _ (hcancel _ (hline.resume.modify (fun _ => rfl) fun _ => id))
          (resume_queue _ now) (resume_live _ now) (resume_marks _ now) (resume_timers _ now)
      · simp only [if_neg hlate]
        exact hwoken _ (hcancel _ (hline.modify (fun _ => rfl) fun _ => id)) rfl rfl rfl rfl
  next hhead =>
      refine ⟨hline, rfl, rfl, rfl, fun t' ht' => .inl (hold t' ht'),
        fun hv h hh => .inr ⟨hv, ?_⟩⟩
      rintro (hawake | ⟨t', ht', hcall⟩)
      · exact .inl hawake
      · refine .inr ⟨t', (List.mem_erase_of_ne ?_).mpr ht', hcall⟩
        rintro rfl
        exact hhead (hcall ▸ hh)

theorem Line.grace (hc : c.Line) (t : Timer Time) : Tended c (c.grace fl t now draw) := by
  have hline : { c with graces := c.graces.erase t }.Line :=
    ⟨hc.nodup, hc.queued, hc.quiet, hc.behind⟩
  unfold Coord.grace
  dsimp only
  split
  next => exact hc.tended_self.alike ⟨rfl, rfl, rfl, rfl, rfl, rfl, rfl⟩
  next h rest hqueue =>
      have hhead : c.queue.head? = some h := List.head?_eq_some_iff.mpr ⟨rest, hqueue⟩
      have hline' : { c with graces := c.graces.erase t, graceCancel := none }.Line :=
        ⟨hc.nodup, hc.queued, hc.quiet, hc.behind⟩
      split
      · exact hc.tended_self.alike ⟨rfl, rfl, rfl, rfl, rfl, rfl, rfl⟩
      · split
        · refine .of_scheduled hline'.resume (resume_queue _ now) (resume_live _ now)
            (resume_marks _ now) ?_ hhead (force_spec fl _ h now draw)
          rw [resume_timers]
          exact fun _ => id
        · split
          · exact hc.tended_self.alike ⟨rfl, rfl, rfl, rfl, rfl, rfl, rfl⟩
          · split
            · exact hc.tended_self.alike ⟨rfl, rfl, rfl, rfl, rfl, rfl, rfl⟩
            · exact .of_scheduled hline' rfl rfl rfl (fun _ => id) hhead (force_spec fl _ h now draw)

theorem Line.fire (hc : c.Line) (id : ℕ) :
    Tended c { c with timers := fireDue c.timers id now } := by
  have hcall : ∀ t ∈ fireDue c.timers id now, ∃ t' ∈ c.timers, t'.call = t.call := by
    intro t ht
    obtain ⟨t', ht', rfl⟩ := List.mem_map.mp ht
    refine ⟨t', ht', ?_⟩
    split <;> rfl
  refine ⟨⟨hc.nodup, hc.queued, hc.quiet, fun t ht => ?_⟩, rfl, rfl, rfl, fun t ht => ?_,
    fun hv h hh => .inr ⟨hv, ?_⟩⟩
  · obtain ⟨t', ht', heq⟩ := hcall t ht
    exact heq ▸ hc.behind t' ht'
  · obtain ⟨t', ht', heq⟩ := hcall t ht
    exact .inl ⟨t', ht', by rw [heq]⟩
  · rintro (hawake | ⟨t, ht, rfl⟩)
    · exact .inl hawake
    · refine .inr ⟨_, List.mem_map_of_mem ht, ?_⟩
      split <;> rfl

end Coord

/-! ## Every run -/

/-- The loop of the request is over. -/
def Phase.over : Phase → Bool
  | .returned | .ended => true
  | _ => false

namespace System

variable {s t : System β} {r : ℕ} {now : Time}

theorem setPhase_self (s : System β) (r : ℕ) (p : Phase) : (s.setPhase r p).phase r = some p :=
  Function.update_self _ _ _

theorem setPhase_of_ne {q : ℕ} (hq : q ≠ r) (s : System β) (p : Phase) :
    (s.setPhase r p).phase q = s.phase q :=
  Function.update_of_ne hq _ _

structure Steady (s : System β) : Prop where
  line : s.coord.Line
  inLoop : ∀ r ∈ s.coord.queue, ∃ p, s.phase r = some p ∧ p.over = false
  waits : ∀ r p, s.phase r = some p → p = .waiting ∨ p = .woken → r ∈ s.coord.queue
  behind : ∀ r ∈ s.coord.queue.tail, s.phase r = some .waiting
  head : s.coord.hidden = false → ∀ h, s.coord.queue.head? = some h →
    s.phase h = some .waiting → s.coord.Awake h
  fresh : ∀ r, s.begun ≤ r → s.phase r = none
  timers : ∀ t ∈ s.coord.timers, t.call.head ∈ s.coord.queue ∨
    ∃ p, s.phase t.call.head = some p ∧ p.over = true

namespace Steady

theorem init (clock : Time) : Steady ({ clock := clock } : System β) where
  line := ⟨List.nodup_nil, by simp, by simp, by simp⟩
  inLoop := by simp
  waits := by simp
  behind := by simp
  head := by simp
  fresh := by simp
  timers := by simp

/-- A handler that no request calls keeps the phases. -/
theorem tended (hs : s.Steady) {c : Coord β} (k : Coord.Tended s.coord c) :
    ({ s with coord := c } : System β).Steady where
  line := k.line
  inLoop := k.queue ▸ hs.inLoop
  waits := k.queue ▸ hs.waits
  behind := k.queue ▸ hs.behind
  head := by
    intro hv h hh hwaits
    rw [k.queue] at hh
    rcases k.head hv h hh with hawake | ⟨hv', hkeep⟩
    · exact hawake
    · exact hkeep (hs.head hv' h hh hwaits)
  fresh := hs.fresh
  timers := by
    intro t ht
    rw [k.queue]
    rcases k.timers t ht with ⟨t', ht', hcall⟩ | hh
    · exact hcall ▸ hs.timers t' ht'
    · exact .inl (List.mem_of_head? hh)

/-- A request that does not wait is the head or is not in the queue. -/
theorem not_behind (hs : s.Steady) {p : Phase} (hr : s.phase r = some p) (hp : p ≠ .waiting) :
    r ∉ s.coord.queue.tail :=
  fun hmem => hp (Option.some.inj (hr.symm.trans (hs.behind r hmem)))

theorem fresh_setPhase (hs : s.Steady) {p : Phase} (hphase : s.phase r = some p) (c : Coord β)
    (p' : Phase) : ∀ q, s.begun ≤ q →
      (({ s with coord := c } : System β).setPhase r p').phase q = none := by
  intro q hq
  have hnone := hs.fresh q hq
  have hne : q ≠ r := by
    rintro rfl
    cases hphase.symm.trans hnone
  exact (setPhase_of_ne hne _ _).trans hnone

/-- The timers of other requests, while a loop that is not over changes its phase. -/
theorem over_setPhase {p : Phase} (hphase : s.phase r = some p) (hp : p.over = false) (c : Coord β)
    (p' : Phase) {h : ℕ} (hover : ∃ p₁, s.phase h = some p₁ ∧ p₁.over = true) :
    ∃ p₁, (({ s with coord := c } : System β).setPhase r p').phase h = some p₁ ∧
      p₁.over = true := by
  obtain ⟨p₁, hp₁, hover⟩ := hover
  have hne : h ≠ r := by
    rintro rfl
    obtain rfl := Option.some.inj (hphase.symm.trans hp₁)
    exact absurd hover (by simp [hp])
  exact ⟨p₁, (setPhase_of_ne hne _ _).trans hp₁, hover⟩

/-- A loop goes on and its coordinator keeps the queue and the timers. -/
theorem turn (hs : s.Steady) {p p' : Phase} (hphase : s.phase r = some p) (hp : p.over = false)
    (hr : r ∉ s.coord.queue.tail) {c : Coord β} (hline : c.Line)
    (hqueue : c.queue = s.coord.queue) (hhidden : c.hidden = s.coord.hidden)
    (htimers : c.timers = s.coord.timers)
    (hother : ∀ q, q ≠ r → (c.request q).wake = (s.coord.request q).wake) (hp' : p'.over = false)
    (hwaits : p' ≠ .waiting) (hwoken : p' = .woken → r ∈ s.coord.queue) :
    (({ s with coord := c } : System β).setPhase r p').Steady := by
  have hsame : ∀ q, q ≠ r → (({ s with coord := c } : System β).setPhase r p').phase q = s.phase q :=
    fun q hq => setPhase_of_ne hq _ _
  have hself := setPhase_self ({ s with coord := c } : System β) r p'
  constructor
  case line => exact hline
  case inLoop =>
      intro q hq
      by_cases hqr : q = r
      · exact ⟨p', hqr ▸ hself, hp'⟩
      · rw [hsame q hqr]
        exact hs.inLoop q (hqueue ▸ hq)
  case waits =>
      intro q p₁ hq hp₁
      change q ∈ c.queue
      rw [hqueue]
      by_cases hqr : q = r
      · subst hqr
        obtain rfl := Option.some.inj (hself.symm.trans hq)
        exact hwoken (hp₁.resolve_left hwaits)
      · exact hs.waits q p₁ (hsame q hqr ▸ hq) hp₁
  case behind =>
      intro q hq
      have hq : q ∈ s.coord.queue.tail := hqueue ▸ hq
      rw [hsame q (ne_of_mem_of_not_mem hq hr)]
      exact hs.behind q hq
  case head =>
      intro hv h hh hwait
      have hh : s.coord.queue.head? = some h := hqueue ▸ hh
      have hne : h ≠ r := by
        rintro rfl
        exact hwaits (Option.some.inj (hself.symm.trans hwait))
      have hawake := hs.head (hhidden ▸ hv) h hh (hsame h hne ▸ hwait)
      unfold Coord.Awake
      change (c.request h).wake = true ∨ ∃ t ∈ c.timers, t.call.head = h
      rw [hother h hne, htimers]
      exact hawake
  case fresh => exact hs.fresh_setPhase hphase c _
  case timers =>
      intro t ht
      change t.call.head ∈ c.queue ∨ _
      rw [hqueue]
      exact (hs.timers t (htimers ▸ ht)).imp_right (over_setPhase hphase hp c p')

/-- A request is served and waits for its next try. -/
theorem again (hs : s.Steady) {p : Phase} (hphase : s.phase r = some p) (hp : p.over = false)
    {c : Coord β} (k : Coord.Served s.coord r c)
    (hqueue : c.queue = if r ∈ s.coord.queue then s.coord.queue else s.coord.queue ++ [r]) :
    (({ s with coord := c } : System β).setPhase r .waiting).Steady := by
  have hsame : ∀ q, q ≠ r →
      (({ s with coord := c } : System β).setPhase r .waiting).phase q = s.phase q :=
    fun q hq => setPhase_of_ne hq _ _
  have hself := setPhase_self ({ s with coord := c } : System β) r .waiting
  have hmem : ∀ q, q ∈ c.queue ↔ q ∈ s.coord.queue ∨ q = r := by
    intro q
    rw [hqueue]
    by_cases hin : r ∈ s.coord.queue
    · rw [if_pos hin]
      exact ⟨.inl, fun hq => hq.elim id fun heq => heq ▸ hin⟩
    · simp [if_neg hin]
  have htail : ∀ q ∈ c.queue.tail, q ∈ s.coord.queue.tail ∨ q = r := by
    intro q hq
    rw [hqueue] at hq
    by_cases hin : r ∈ s.coord.queue
    · exact .inl (by rwa [if_pos hin] at hq)
    · rw [if_neg hin] at hq
      cases hold : s.coord.queue with
      | nil => simp [hold] at hq
      | cons h rest => simpa [hold] using hq
  constructor
  case line => exact k.line
  case inLoop =>
      intro q hq
      by_cases hqr : q = r
      · exact ⟨.waiting, hqr ▸ hself, rfl⟩
      · rw [hsame q hqr]
        exact hs.inLoop q (((hmem q).mp hq).resolve_right hqr)
  case waits =>
      intro q p₁ hq hp₁
      refine (hmem q).mpr ?_
      by_cases hqr : q = r
      · exact .inr hqr
      · exact .inl (hs.waits q p₁ (hsame q hqr ▸ hq) hp₁)
  case behind =>
      intro q hq
      by_cases hqr : q = r
      · exact hqr ▸ hself
      · rw [hsame q hqr]
        exact hs.behind q ((htail q hq).resolve_right hqr)
  case head =>
      intro hv h hh hwait
      have hv : s.coord.hidden = false := k.hidden ▸ hv
      rcases k.head hv h hh with hawake | ⟨hh', hne, hkeep⟩
      · exact hawake
      · exact hkeep (hs.head hv h hh' (hsame h hne ▸ hwait))
  case fresh => exact hs.fresh_setPhase hphase c _
  case timers =>
      intro t ht
      rcases k.timers t ht with ht | hh
      · exact (hs.timers t ht).imp (fun hin => (hmem _).mpr (.inl hin))
          (over_setPhase hphase hp c .waiting)
      · exact .inl (List.mem_of_head? hh)

/-- A request is served and its loop returns. -/
theorem finish (hs : s.Steady) {p : Phase} (hphase : s.phase r = some p)
    (hr : r ∉ s.coord.queue.tail) {c : Coord β} (k : Coord.Served s.coord r c)
    (hqueue : c.queue = s.coord.queue.erase r) :
    (({ s with coord := c } : System β).setPhase r .returned).Steady := by
  have hsame : ∀ q, q ≠ r →
      (({ s with coord := c } : System β).setPhase r .returned).phase q = s.phase q :=
    fun q hq => setPhase_of_ne hq _ _
  have hself := setPhase_self ({ s with coord := c } : System β) r .returned
  have hmem : ∀ q, q ∈ c.queue ↔ q ≠ r ∧ q ∈ s.coord.queue := by
    intro q
    rw [hqueue]
    exact hs.line.nodup.mem_erase_iff
  have htail : ∀ q ∈ c.queue.tail, q ∈ s.coord.queue.tail := by
    intro q hq
    rw [hqueue] at hq
    rcases Coord.Line.head_or_out hr with ⟨rest, hold⟩ | hout
    · rw [hold, List.erase_cons_head] at hq
      rw [hold]
      exact List.mem_of_mem_tail hq
    · rwa [List.erase_of_not_mem hout] at hq
  constructor
  case line => exact k.line
  case inLoop =>
      intro q hq
      obtain ⟨hqr, hq⟩ := (hmem q).mp hq
      rw [hsame q hqr]
      exact hs.inLoop q hq
  case waits =>
      intro q p₁ hq hp₁
      have hqr : q ≠ r := by
        rintro rfl
        obtain rfl := Option.some.inj (hself.symm.trans hq)
        simp at hp₁
      exact (hmem q).mpr ⟨hqr, hs.waits q p₁ (hsame q hqr ▸ hq) hp₁⟩
  case behind =>
      intro q hq
      have hq := htail q hq
      rw [hsame q (ne_of_mem_of_not_mem hq hr)]
      exact hs.behind q hq
  case head =>
      intro hv h hh hwait
      have hv : s.coord.hidden = false := k.hidden ▸ hv
      rcases k.head hv h hh with hawake | ⟨hh', hne, hkeep⟩
      · exact hawake
      · exact hkeep (hs.head hv h hh' (hsame h hne ▸ hwait))
  case fresh => exact hs.fresh_setPhase hphase c _
  case timers =>
      intro t ht
      by_cases hr' : t.call.head = r
      · exact .inr ⟨.returned, hr' ▸ hself, rfl⟩
      · rcases k.timers t ht with ht | hh
        · rcases hs.timers t ht with hin | hover
          · exact .inl ((hmem _).mpr ⟨hr', hin⟩)
          · rw [hsame _ hr']
            exact .inr hover
        · exact .inl (List.mem_of_head? hh)

theorem begin (hs : s.Steady) (origin : String) :
    ({ s with coord := s.coord.begin s.begun origin now, begun := s.begun + 1 }.setPhase s.begun
      .ready : System β).Steady := by
  have hnone := hs.fresh s.begun le_rfl
  have hout : s.begun ∉ s.coord.queue := by
    intro hmem
    obtain ⟨p, hp, -⟩ := hs.inLoop _ hmem
    cases hnone.symm.trans hp
  have hrequest : ∀ q, q ≠ s.begun →
      (s.coord.begin s.begun origin now).request q = s.coord.request q :=
    fun q hq => Function.update_of_ne hq _ _
  have hline : (s.coord.begin s.begun origin now).Line := by
    refine ⟨hs.line.nodup, fun q => ?_, fun q hq => ?_, hs.line.behind⟩
    · by_cases hq : q = s.begun
      · subst hq
        simpa [Coord.begin] using hout
      · rw [hrequest q hq]
        exact hs.line.queued q
    · have hq : q ∈ s.coord.queue.tail := hq
      rw [hrequest q (ne_of_mem_of_not_mem (List.mem_of_mem_tail hq) hout)]
      exact hs.line.quiet q hq
  have hsame : ∀ q, q ≠ s.begun →
      ({ s with coord := s.coord.begin s.begun origin now, begun := s.begun + 1 }.setPhase s.begun
        .ready : System β).phase q = s.phase q :=
    fun q hq => setPhase_of_ne hq _ _
  constructor
  case line => exact hline
  case inLoop =>
      intro q hq
      rw [hsame q (ne_of_mem_of_not_mem hq hout)]
      exact hs.inLoop q hq
  case waits =>
      intro q p hq hp
      have hne : q ≠ s.begun := by
        rintro rfl
        obtain rfl := Option.some.inj ((setPhase_self _ _ _).symm.trans hq)
        simp at hp
      exact hs.waits q p (hsame q hne ▸ hq) hp
  case behind =>
      intro q hq
      rw [hsame q (ne_of_mem_of_not_mem (List.mem_of_mem_tail hq) hout)]
      exact hs.behind q hq
  case head =>
      intro hv h hh hwait
      have hne : h ≠ s.begun := ne_of_mem_of_not_mem (List.mem_of_head? hh) hout
      have hawake := hs.head hv h hh (hsame h hne ▸ hwait)
      unfold Coord.Awake at hawake ⊢
      change ((s.coord.begin s.begun origin now).request h).wake = true ∨ _
      rw [hrequest h hne]
      exact hawake
  case fresh =>
      intro q hq
      rw [hsame q (Nat.ne_of_gt hq)]
      exact hs.fresh q (Nat.le_of_succ_le hq)
  case timers =>
      intro t ht
      refine (hs.timers t ht).imp_right ?_
      rintro ⟨p, hp, hover⟩
      refine ⟨p, (hsame _ ?_).trans hp, hover⟩
      intro heq
      rw [heq, hnone] at hp
      cases hp

/-- No timer is about a request whose loop is not over and that is not in the queue. -/
theorem untimed (hs : s.Steady) {p : Phase} (hphase : s.phase r = some p) (hp : p.over = false)
    (hr : r ∉ s.coord.queue) : ∀ t ∈ s.coord.timers, t.call.head ≠ r := by
  rintro t ht rfl
  rcases hs.timers t ht with hmem | ⟨p', hp', hover⟩
  · exact hr hmem
  · obtain rfl := Option.some.inj (hphase.symm.trans hp')
    exact absurd hover (by simp [hp])

/-- The loop of a returned request ends. -/
theorem rest (hs : s.Steady) (hphase : s.phase r = some .returned) :
    (({ s with coord := s.coord.forget r } : System β).setPhase r .ended).Steady := by
  have hout : r ∉ s.coord.queue := by
    intro hmem
    obtain ⟨p, hp, hover⟩ := hs.inLoop r hmem
    obtain rfl := Option.some.inj (hphase.symm.trans hp)
    cases hover
  have hsame : ∀ q, q ≠ r →
      (({ s with coord := s.coord.forget r } : System β).setPhase r .ended).phase q = s.phase q :=
    fun q hq => setPhase_of_ne hq _ _
  have hself := setPhase_self ({ s with coord := s.coord.forget r } : System β) r .ended
  constructor
  case line => exact ⟨hs.line.nodup, hs.line.queued, hs.line.quiet, hs.line.behind⟩
  case inLoop =>
      intro q hq
      rw [hsame q (ne_of_mem_of_not_mem hq hout)]
      exact hs.inLoop q hq
  case waits =>
      intro q p hq hp
      have hne : q ≠ r := by
        rintro rfl
        obtain rfl := Option.some.inj (hself.symm.trans hq)
        simp at hp
      exact hs.waits q p (hsame q hne ▸ hq) hp
  case behind =>
      intro q hq
      rw [hsame q (ne_of_mem_of_not_mem (List.mem_of_mem_tail hq) hout)]
      exact hs.behind q hq
  case head =>
      intro hv h hh hwait
      have hne : h ≠ r := ne_of_mem_of_not_mem (List.mem_of_head? hh) hout
      exact hs.head hv h hh (hsame h hne ▸ hwait)
  case fresh => exact hs.fresh_setPhase hphase _ _
  case timers =>
      intro t ht
      refine (hs.timers t ht).imp_right fun hover => ?_
      by_cases hr : t.call.head = r
      · exact ⟨.ended, hr ▸ hself, rfl⟩
      · rw [hsame _ hr]
        exact hover

theorem admit_alike (fl : Floats β δ) (c : Coord β) (r : ℕ) (now : Time) (draw : δ) :
    Coord.Alike (c.modify r fun q => { q with attemptAt := some now, sent := true })
      (c.admits fl r now draw).1 := by
  unfold Coord.admits Coord.throttled
  dsimp only
  split
  · exact .refl _
  · split
    · refine Coord.Alike.trans ?_ (Coord.recordThrottle_alike _ _)
      exact ⟨rfl, rfl, rfl, rfl, rfl, rfl, rfl⟩
    · exact ⟨rfl, rfl, rfl, rfl, rfl, rfl, rfl⟩

theorem moves (hs : s.Steady) {a : Action δ} (h : Moves fl s now a t) : t.Steady := by
  cases h with
  | begin origin => exact hs.begin origin
  | admits r draw hphase =>
      have k := admit_alike fl s.coord r now draw
      have hline : (s.coord.modify r fun q => { q with attemptAt := some now, sent := true }).Line :=
        hs.line.modify (fun _ => rfl) fun _ => id
      refine hs.turn hphase rfl (hs.not_behind hphase (by simp)) (hline.alike k) k.queue k.hidden
        k.timers (fun q hq => ?_) rfl (by simp) (by simp)
      rw [k.request, Coord.modify_request, if_neg hq]
  | again r o draw hphase hresult =>
      obtain ⟨k, hqueue⟩ := hs.line.done fl now draw
        (hs.not_behind hphase (by simp)) (hs.untimed hphase rfl) o
      rw [hresult] at hqueue
      exact hs.again hphase rfl k hqueue
  | finish r o draw hphase hresult =>
      obtain ⟨k, hqueue⟩ := hs.line.done fl now draw
        (hs.not_behind hphase (by simp)) (hs.untimed hphase rfl) o
      rw [hresult] at hqueue
      exact hs.finish hphase (hs.not_behind hphase (by simp)) (k.record _) hqueue
  | wait r hphase htoken =>
      have hr : r ∉ s.coord.queue.tail := by
        intro hmem
        rw [hs.line.quiet r hmem] at htoken
        cases htoken
      have hline : (s.coord.modify r fun q => { q with wake := false }).Line :=
        hs.line.modify (fun _ => rfl) fun _ hw => by cases hw
      refine hs.turn hphase rfl hr hline rfl rfl rfl (fun q hq => ?_) rfl (by simp)
        fun _ => hs.waits r _ hphase (.inl rfl)
      rw [Coord.modify_request, if_neg hq]
  | pass r draw hphase hkeep =>
      exact hs.turn hphase rfl (hs.not_behind hphase (by simp)) hs.line rfl rfl rfl
        (fun _ _ => rfl) rfl (by simp) (by simp)
  | giveUp r draw hphase hspent =>
      have hr := hs.not_behind hphase (by simp)
      obtain ⟨k, hqueue⟩ := hs.line.giveUp fl now draw hr
      exact hs.finish hphase hr (k.record _) hqueue
  | forget r hphase =>
      exact hs.rest hphase
  | fire id => exact hs.tended (hs.line.fire id)
  | fireGrace id => exact hs.tended (hs.line.tended_self.alike ⟨rfl, rfl, rfl, rfl, rfl, rfl, rfl⟩)
  | retry timer => exact hs.tended (hs.line.retry timer)
  | grace timer draw => exact hs.tended (hs.line.grace timer)
  | setHidden hidden draw => exact hs.tended (hs.line.setHidden hidden)
  | recover draw => exact hs.tended hs.line.recover

/-- Only the clock differs. -/
theorem clock (hs : s.Steady) (now : Time) : ({ s with clock := now } : System β).Steady :=
  ⟨hs.line, hs.inLoop, hs.waits, hs.behind, hs.head, hs.fresh, hs.timers⟩

theorem step (hs : s.Steady) {a : Time × Action δ} (h : s.step fl a = some t) : t.Steady := by
  obtain ⟨-, s', hmoves, rfl⟩ := moves_of_step h
  exact (hs.moves hmoves).clock a.1

end Steady

/-- The head of the queue has an armed timer (or one whose function is about to run), a token
waiting for it, or an attempt that runs or has been let through. -/
def HeadMoves (s : System β) : Prop :=
  ∀ h, s.coord.queue.head? = some h →
    (∃ t ∈ s.coord.timers, t.call.head = h) ∨ (s.coord.request h).wake = true ∨
      ∃ p ∈ s.phase h, p = .woken ∨ p = .ready ∨ ∃ refused, p = .sending refused

theorem Steady.headMoves (hs : s.Steady) (hv : s.coord.hidden = false) : s.HeadMoves := by
  intro h hh
  obtain ⟨p, hp, hover⟩ := hs.inLoop h (List.mem_of_head? hh)
  cases p with
  | ready => exact .inr (.inr ⟨_, hp, .inr (.inl rfl)⟩)
  | sending refused => exact .inr (.inr ⟨_, hp, .inr (.inr ⟨refused, rfl⟩)⟩)
  | waiting =>
      rcases hs.head hv h hh hp with hwake | htimer
      · exact .inr (.inl hwake)
      · exact .inl htimer
  | woken => exact .inr (.inr ⟨_, hp, .inl rfl⟩)
  | returned => cases hover
  | ended => cases hover

end System

theorem queue_never_stuck (fl : Floats β δ) {clock : Time} {es : List (Time × Action δ)}
    {s : System β} (h : Run (fun s a t => s.step fl a = some t) { clock := clock } es s)
    (hv : s.coord.hidden = false) : s.HeadMoves :=
  (h.invariant (P := System.Steady) (fun _ _ _ hs hstep => hs.step hstep)
    (.init clock)).headMoves hv

/-! ### One request that fails while the page is away -/

/-- Tenths of a token, and draws that refuse nothing and take a whole pause. -/
def tenths : Floats ℕ Unit where
  bucketMax := 100
  refund n := min (n + 1) 100
  spend n := n - 10
  low n := n < 50
  refuses _ _ _ := false
  scale d _ := d

def awayRun : List (Time × Action Unit) :=
  [(0, .begin "self"), (0, .admits 0 ()), (1, .setHidden true ()),
    (2, .done 0 { kind := .transient } ()), (3, .setHidden false ())]

theorem queue_never_stuck_awayRun :
    ∃ s : System ℕ, Run (fun s a t => System.step tenths s a = some t) { clock := 0 } awayRun s ∧
      s.coord.queue = [0] ∧ s.HeadMoves := by
  obtain ⟨s, hrun, hqueue, hv⟩ : ∃ s : System ℕ,
      Run (fun s a t => System.step tenths s a = some t) { clock := 0 } awayRun s ∧
        s.coord.queue = [0] ∧ s.coord.hidden = false :=
    ⟨_, Run.iff_foldlM.mpr rfl, rfl, rfl⟩
  exact ⟨s, hrun, hqueue, queue_never_stuck tenths hrun hv⟩

end Sky.Retry
