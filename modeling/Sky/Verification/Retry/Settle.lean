import Mathlib
import Sky.Verification.Retry.Budget

/-! # Re-sends in order, each request settled once

What a run makes of its requests, and when no request is given up before its time: no resume
may leave a give-up timer of the head behind. -/

namespace Sky.Retry

open Library

variable {β δ : Type} {fl : Floats β δ}

namespace Coord

variable {c c' : Coord β} {r : ℕ} {now : Time} {draw : δ}

/-! ## Marks of the handlers -/

theorem marks_fail (c : Coord β) (fl : Floats β δ) (r : ℕ) (o : Outcome) (now : Time) :
    (c.fail fl r o now).marks = c.marks :=
  (marks_eq_of_log (c.fail_alike fl r now o).log).trans rfl

theorem marks_drained (c : Coord β) (r : ℕ) (now : Time) : (c.drained r now).marks = c.marks := by
  unfold drained
  dsimp only
  split <;> rfl

theorem marks_heard (c : Coord β) (r : ℕ) (o : Outcome) (now : Time) :
    (c.heard r o now).1.marks = c.marks :=
  (marks_eq_of_log (c.heard_alike r now o).log).trans (c.marks_drained r now)

theorem marks_remove (hline : c.Line) (fl : Floats β δ) (now : Time) (draw : δ)
    (hr : r ∉ c.queue.tail) (succeeded : Bool) :
    (c.remove fl r succeeded now draw).marks =
      if r ∈ c.queue then .left r :: c.marks else c.marks := by
  rw [marks, c.remove_log fl r now draw hline hr succeeded]
  split <;> rfl

theorem marks_giveUp (hline : c.Line) (fl : Floats β δ) (now : Time) (draw : δ)
    (hr : r ∉ c.queue.tail) :
    (c.giveUp fl r now draw).marks = if r ∈ c.queue then .left r :: c.marks else c.marks :=
  marks_remove hline fl now draw hr false

theorem marks_join (hline : c.Line) (fl : Floats β δ) (now : Time) (draw : δ) (o : Outcome)
    (resumed : Bool) : (c.join fl r o resumed now draw).marks =
      if r ∈ c.queue then c.marks else .joined r :: c.marks := by
  have hschedule : ∀ c₀ : Coord β, Coord.marks
      ((c₀.modify r fun q => { q with forced := q.forced || resumed }).schedule fl r o now draw) =
        c₀.marks :=
    fun c₀ => marks_eq_of_log (schedule_spec fl _ r now draw o).log
  have hqueued : (c.request r).queued = true ↔ r ∈ c.queue := hline.queued r
  unfold join
  dsimp only
  by_cases hin : r ∈ c.queue
  · rw [if_pos (hqueued.mpr hin), if_pos hin]
    split
    · exact hschedule c
    · rfl
  · rw [if_neg (mt hqueued.mp hin), if_neg hin]
    split
    · exact hschedule _
    · rfl

theorem marks_done (hline : c.Line) (fl : Floats β δ) (now : Time) (draw : δ)
    (hr : r ∉ c.queue.tail) (o : Outcome) :
    (c.done fl r o now draw).1.marks =
      if (c.done fl r o now draw).2 then if r ∈ c.queue then c.marks else .joined r :: c.marks
      else if r ∈ c.queue then .left r :: c.marks else c.marks := by
  have hheard := hline.heard r o now
  have hfail : Judged c r ((c.heard r o now).1.fail fl r o now) := hheard.fail o
  have hmarks : ((c.heard r o now).1.fail fl r o now).marks = c.marks :=
    (marks_fail _ fl r o now).trans (c.marks_heard r o now)
  have hanswered : ∀ origin,
      (((c.heard r o now).1.refundToken fl origin).remove fl r true now draw).marks =
        if r ∈ c.queue then .left r :: c.marks else c.marks := by
    intro origin
    have hjudged := hheard.alike (refundToken_alike fl _ origin)
    rw [marks_remove hjudged.line fl now draw (hjudged.queue ▸ hr), hjudged.queue,
      marks_eq_of_log (refundToken_alike fl (c.heard r o now).1 origin).log, c.marks_heard]
  unfold done
  dsimp only
  split
  · exact hanswered _
  · exact hanswered _
  · split
    · refine (marks_giveUp hfail.line fl now draw (hfail.queue ▸ hr)).trans ?_
      rw [hmarks, hfail.queue]
      rfl
    · refine (marks_join hfail.line fl now draw o _).trans ?_
      rw [hmarks, hfail.queue]
      rfl

end Coord

namespace System

variable {s t : System β} {r : ℕ} {now : Time}

/-! ## The books of a run -/

structure Booked (s : System β) : Prop where
  live : ∀ r, r ∈ s.coord.live ↔ ∃ p, s.phase r = some p ∧ p ≠ .ended
  nodup : s.coord.live.Nodup
  joined : ∀ r, s.coord.marks.count (.joined r) =
    s.coord.marks.count (.left r) + if r ∈ s.coord.queue then 1 else 0
  left : ∀ r, s.coord.marks.count (.left r) ≤ s.coord.marks.count (.returned r)
  returned : ∀ r, s.coord.marks.count (.returned r) = if (s.phase r).any Phase.over then 1 else 0

namespace Booked

theorem init (clock : Time) : Booked ({ clock := clock } : System β) where
  live := by simp
  nodup := List.nodup_nil
  joined := by simp [Coord.marks]
  left := by simp [Coord.marks]
  returned := by simp [Coord.marks]

theorem clock (hs : s.Booked) (now : Time) : ({ s with clock := now } : System β).Booked :=
  ⟨hs.live, hs.nodup, hs.joined, hs.left, hs.returned⟩

theorem tended (hs : s.Booked) {c : Coord β} (k : Coord.Tended s.coord c) :
    ({ s with coord := c } : System β).Booked where
  live := k.live ▸ hs.live
  nodup := k.live ▸ hs.nodup
  joined := by
    change ∀ r, c.marks.count _ = c.marks.count _ + if r ∈ c.queue then 1 else 0
    rw [k.marks, k.queue]
    exact hs.joined
  left := by
    change ∀ r, c.marks.count _ ≤ c.marks.count _
    rw [k.marks]
    exact hs.left
  returned := by
    change ∀ r, c.marks.count _ = _
    rw [k.marks]
    exact hs.returned

/-- The tracked requests while a loop goes on. -/
theorem live_setPhase (hs : s.Booked) {p p' : Phase} (hphase : s.phase r = some p)
    (hp : p ≠ .ended) (hp' : p' ≠ .ended) {c : Coord β} (hlive : c.live = s.coord.live) :
    ∀ q, q ∈ c.live ↔
      ∃ p₁, (({ s with coord := c } : System β).setPhase r p').phase q = some p₁ ∧ p₁ ≠ .ended := by
  intro q
  rw [hlive, hs.live q]
  by_cases hq : q = r
  · subst hq
    rw [setPhase_self]
    exact ⟨fun _ => ⟨p', rfl, hp'⟩, fun _ => ⟨p, hphase, hp⟩⟩
  · rw [setPhase_of_ne hq]

/-- A loop goes on, and its request may have joined the queue. -/
theorem turn (hs : s.Booked) {p p' : Phase} (hphase : s.phase r = some p) (hp : p.over = false)
    (hp' : p'.over = false) {c : Coord β} (hlive : c.live = s.coord.live)
    (hqueue : c.queue = s.coord.queue ∧ c.marks = s.coord.marks ∨
      r ∉ s.coord.queue ∧ c.queue = s.coord.queue ++ [r] ∧
        c.marks = .joined r :: s.coord.marks) :
    (({ s with coord := c } : System β).setPhase r p').Booked := by
  have hended : ∀ {p : Phase}, p.over = false → p ≠ .ended := by
    rintro _ hover rfl
    cases hover
  have hcount : ∀ q, c.marks.count (.left q) = s.coord.marks.count (.left q) ∧
      c.marks.count (.returned q) = s.coord.marks.count (.returned q) := by
    intro q
    rcases hqueue with ⟨-, hmarks⟩ | ⟨-, -, hmarks⟩ <;> simp [hmarks]
  constructor
  case live => exact hs.live_setPhase hphase (hended hp) (hended hp') hlive
  case nodup => exact (hlive ▸ hs.nodup : c.live.Nodup)
  case joined =>
      intro q
      change c.marks.count _ = c.marks.count _ + if q ∈ c.queue then 1 else 0
      rw [(hcount q).1]
      have hjoined := hs.joined q
      rcases hqueue with ⟨hqueue, hmarks⟩ | ⟨hout, hqueue, hmarks⟩
      · rw [hqueue, hmarks, hjoined]
      · rw [hqueue, hmarks, List.count_cons, hjoined]
        by_cases hq : q = r
        · simp [hq, hout]
        · simp [hq, Ne.symm hq]
  case left =>
      intro q
      change c.marks.count _ ≤ c.marks.count _
      rw [(hcount q).1, (hcount q).2]
      exact hs.left q
  case returned =>
      intro q
      change c.marks.count _ = _
      rw [(hcount q).2, hs.returned q]
      by_cases hq : q = r
      · subst hq
        simp [setPhase_self, hphase, hp, hp']
      · rw [setPhase_of_ne hq]

/-- A loop returns, and its request may have left the queue. -/
theorem finish (hs : s.Booked) {p : Phase} (hphase : s.phase r = some p) (hp : p.over = false)
    {c : Coord β} (hnodup : s.coord.queue.Nodup) (hlive : c.live = s.coord.live)
    (hqueue : c.queue = s.coord.queue.erase r)
    (hmarks : c.marks = if r ∈ s.coord.queue then .left r :: s.coord.marks else s.coord.marks) :
    (({ s with coord := c.record (.returned r) } : System β).setPhase r .returned).Booked := by
  have hmarks' : (c.record (.returned r)).marks = .returned r :: c.marks := rfl
  have hzero : s.coord.marks.count (.returned r) = 0 := by
    rw [hs.returned r, hphase]
    simp [hp]
  constructor
  case live =>
      refine hs.live_setPhase hphase ?_ (by simp) hlive
      rintro rfl
      cases hp
  case nodup => exact (hlive ▸ hs.nodup : c.live.Nodup)
  case joined =>
      intro q
      change (c.record _).marks.count _ = (c.record _).marks.count _ + if q ∈ c.queue then 1 else 0
      have hjoined := hs.joined q
      rw [hmarks', hmarks, hqueue]
      by_cases hin : r ∈ s.coord.queue
      · by_cases hq : q = r
        · subst hq
          simpa [hin, hnodup.not_mem_erase] using hjoined
        · simpa [hin, hq, Ne.symm hq, List.mem_erase_of_ne] using hjoined
      · rw [List.erase_of_not_mem hin]
        simpa [hin] using hjoined
  case left =>
      intro q
      change (c.record _).marks.count _ ≤ (c.record _).marks.count _
      have hleft := hs.left q
      rw [hmarks', hmarks]
      by_cases hq : q = r
      · subst hq
        rw [hzero] at hleft
        by_cases hin : q ∈ s.coord.queue <;> simp [hin, hzero] <;> omega
      · by_cases hin : r ∈ s.coord.queue <;> simpa [hin, Ne.symm hq] using hleft
  case returned =>
      intro q
      change (c.record _).marks.count _ = _
      rw [hmarks', hmarks]
      have hreturned := hs.returned q
      by_cases hq : q = r
      · subst hq
        rw [setPhase_self]
        by_cases hin : q ∈ s.coord.queue <;> simp [hin, hzero, Phase.over]
      · rw [setPhase_of_ne hq]
        by_cases hin : r ∈ s.coord.queue <;> simpa [hin, Ne.symm hq] using hreturned

theorem begin (hs : s.Booked) (hsteady : s.Steady) (origin : String) :
    ({ s with coord := s.coord.begin s.begun origin now, begun := s.begun + 1 }.setPhase s.begun
      .ready : System β).Booked := by
  have hnone := hsteady.fresh s.begun le_rfl
  have hnew : s.begun ∉ s.coord.live := by
    intro hmem
    obtain ⟨p, hp, -⟩ := (hs.live _).mp hmem
    cases hnone.symm.trans hp
  have hmarks : (s.coord.begin s.begun origin now).marks = s.coord.marks := rfl
  constructor
  case live =>
      intro q
      change q ∈ s.begun :: s.coord.live ↔ _
      by_cases hq : q = s.begun
      · subst hq
        rw [setPhase_self]
        simp
      · rw [setPhase_of_ne hq, List.mem_cons, or_iff_right hq]
        exact hs.live q
  case nodup => exact List.nodup_cons.mpr ⟨hnew, hs.nodup⟩
  case joined => exact hmarks ▸ hs.joined
  case left => exact hmarks ▸ hs.left
  case returned =>
      intro q
      change (s.coord.begin s.begun origin now).marks.count _ = _
      rw [hmarks, hs.returned q]
      by_cases hq : q = s.begun
      · subst hq
        rw [setPhase_self, hnone]
        rfl
      · rw [setPhase_of_ne hq]

theorem rest (hs : s.Booked) (hphase : s.phase r = some .returned) :
    (({ s with coord := s.coord.forget r } : System β).setPhase r .ended).Booked := by
  have hmarks : (s.coord.forget r).marks = s.coord.marks := rfl
  constructor
  case live =>
      intro q
      change q ∈ s.coord.live.erase r ↔ _
      rw [hs.nodup.mem_erase_iff, hs.live q]
      by_cases hq : q = r
      · subst hq
        rw [setPhase_self]
        simp
      · rw [setPhase_of_ne hq]
        simp [hq]
  case nodup => exact hs.nodup.erase r
  case joined => exact hmarks ▸ hs.joined
  case left => exact hmarks ▸ hs.left
  case returned =>
      intro q
      change (s.coord.forget r).marks.count _ = _
      rw [hmarks, hs.returned q]
      by_cases hq : q = r
      · subst hq
        rw [setPhase_self, hphase]
        rfl
      · rw [setPhase_of_ne hq]

theorem moves (hs : s.Booked) (hsteady : s.Steady) {a : Action δ} (h : Moves fl s now a t) :
    t.Booked := by
  cases h with
  | begin origin => exact hs.begin hsteady origin
  | admits r draw hphase =>
      have k := Steady.admit_alike fl s.coord r now draw
      exact hs.turn hphase rfl rfl k.live (.inl ⟨k.queue, Coord.marks_eq_of_log k.log⟩)
  | again r o draw hphase hresult =>
      have hr := hsteady.not_behind hphase (by simp)
      obtain ⟨k, hqueue⟩ := hsteady.line.done fl now draw hr (hsteady.untimed hphase rfl) o
      have hmarks := Coord.marks_done hsteady.line fl now draw hr o
      rw [hresult] at hqueue hmarks
      refine hs.turn hphase rfl rfl k.live ?_
      by_cases hin : r ∈ s.coord.queue
      · exact .inl ⟨hqueue.trans (if_pos hin), hmarks.trans (if_pos hin)⟩
      · exact .inr ⟨hin, hqueue.trans (if_neg hin), hmarks.trans (if_neg hin)⟩
  | finish r o draw hphase hresult =>
      have hr := hsteady.not_behind hphase (by simp)
      obtain ⟨k, hqueue⟩ := hsteady.line.done fl now draw hr (hsteady.untimed hphase rfl) o
      have hmarks := Coord.marks_done hsteady.line fl now draw hr o
      rw [hresult] at hqueue hmarks
      exact hs.finish hphase rfl hsteady.line.nodup k.live hqueue hmarks
  | wait r hphase htoken => exact hs.turn hphase rfl rfl rfl (.inl ⟨rfl, rfl⟩)
  | pass r draw hphase hkeep => exact hs.turn hphase rfl rfl rfl (.inl ⟨rfl, rfl⟩)
  | giveUp r draw hphase hspent =>
      have hr := hsteady.not_behind hphase (by simp)
      obtain ⟨k, hqueue⟩ := hsteady.line.giveUp fl now draw hr
      exact hs.finish hphase rfl hsteady.line.nodup k.live hqueue
        (Coord.marks_giveUp hsteady.line fl now draw hr)
  | forget r hphase => exact hs.rest hphase
  | fire id => exact hs.tended (hsteady.line.fire id)
  | fireGrace id =>
      exact hs.tended (hsteady.line.tended_self.alike ⟨rfl, rfl, rfl, rfl, rfl, rfl, rfl⟩)
  | retry timer => exact hs.tended (hsteady.line.retry timer)
  | grace timer draw => exact hs.tended (hsteady.line.grace timer)
  | setHidden hidden draw => exact hs.tended (hsteady.line.setHidden hidden)
  | recover draw => exact hs.tended hsteady.line.recover

end Booked

/-! ## Budgets over a run -/

instance (c : Coord β) (ts : List (Timer RetryCall)) : Decidable (c.Clear ts) :=
  inferInstanceAs (Decidable (∀ t ∈ ts, t.call.giveUp = true → c.queue.head? ≠ some t.call.head))

/-- No fresh budget starts while a timer that gives the head up stays behind. -/
def Retimes (s : System β) (now : Time) : Action δ → Prop
  | .done r _ _ =>
      s.coord.suspended r now = true →
        s.coord.Clear (if s.coord.queue.head? = some r then s.coord.stop.timers else s.coord.timers)
  | .setHidden hidden _ =>
      hidden = false → s.coord.hidden = true → s.coord.Clear s.coord.stop.timers
  | .recover _ => s.coord.Clear s.coord.stop.timers
  | .grace t _ => s.coord.late t.due now = true → s.coord.Clear s.coord.stop.timers
  | .retry t => s.coord.late t.due now = true → s.coord.Clear (s.coord.timers.erase t)
  | _ => True

instance (s : System β) (now : Time) : ∀ a : Action δ, Decidable (s.Retimes now a)
  | .done r _ _ =>
      inferInstanceAs (Decidable (s.coord.suspended r now = true → s.coord.Clear
        (if s.coord.queue.head? = some r then s.coord.stop.timers else s.coord.timers)))
  | .setHidden hidden _ =>
      inferInstanceAs (Decidable (hidden = false → s.coord.hidden = true →
        s.coord.Clear s.coord.stop.timers))
  | .recover _ => inferInstanceAs (Decidable (s.coord.Clear s.coord.stop.timers))
  | .grace t _ =>
      inferInstanceAs (Decidable (s.coord.late t.due now = true →
        s.coord.Clear s.coord.stop.timers))
  | .retry t =>
      inferInstanceAs (Decidable (s.coord.late t.due now = true →
        s.coord.Clear (s.coord.timers.erase t)))
  | .begin _ | .admits _ _ | .wait _ | .proceed _ _ | .forget _ | .fire _ | .fireGrace _ =>
      inferInstanceAs (Decidable True)

theorem kept_moves {a : Action δ} (hkept : s.coord.Kept now) (hsteady : s.Steady) (hbooked : s.Booked)
    (hretimes : s.Retimes now a) (h : Moves fl s now a t) : t.coord.Kept now := by
  have hlive : ∀ {r p}, s.phase r = some p → p.over = false → r ∈ s.coord.live := by
    intro r p hphase hp
    refine (hbooked.live r).mpr ⟨p, hphase, ?_⟩
    rintro rfl
    cases hp
  cases h with
  | begin origin =>
      refine hkept.begin ?_ origin
      intro hmem
      obtain ⟨p, hp, -⟩ := hsteady.inLoop _ hmem
      cases (hsteady.fresh s.begun le_rfl).symm.trans hp
  | admits r draw hphase =>
      refine Coord.Kept.alike ?_ (Steady.admit_alike fl s.coord r now draw)
      exact hkept.modify (fun _ => rfl) (fun _ => rfl) fun _ => rfl
  | again r o draw hphase hresult =>
      exact hkept.done hsteady.line fl draw (hsteady.not_behind hphase (by simp))
        (hsteady.untimed hphase rfl) (hlive hphase rfl) hretimes o
  | finish r o draw hphase hresult =>
      have hdone := hkept.done hsteady.line fl draw (hsteady.not_behind hphase (by simp))
        (hsteady.untimed hphase rfl) (hlive hphase rfl) hretimes o
      exact hdone.record (fun _ => ⟨rfl, by simp⟩) hdone.accounts.late
  | wait r hphase htoken =>
      exact @Coord.Kept.modify _ _ r _ hkept (fun q => { q with wake := false }) (fun _ => rfl)
        (fun _ => rfl) fun _ => rfl
  | pass r draw hphase hkeep => exact hkept
  | giveUp r draw hphase hspent =>
      have hr := hlive hphase rfl
      have hgave := hkept.accounts.giveUp_kept hsteady.line fl draw
        (hsteady.not_behind hphase (by simp)) (fun _ => hkept.timed)
        fun _ => .inr ⟨_, hkept.accounts.start r hr, hkept.accounts.giveUp r hr hspent⟩
      exact hgave.record (fun _ => ⟨rfl, by simp⟩) hgave.accounts.late
  | forget r hphase => exact hkept.forget r
  | fire id => exact hkept.fire id
  | fireGrace id => exact hkept.alike ⟨rfl, rfl, rfl, rfl, rfl, rfl, rfl⟩
  | retry timer hmem hfired => exact hkept.retry hmem hfired hretimes
  | grace timer draw => exact hkept.grace fl timer draw hretimes
  | setHidden hidden draw => exact hkept.setHidden fl hidden draw hretimes
  | recover draw => exact hkept.recover fl draw hretimes

/-! ## Every run -/

/-- Requests in the queue are sent again from its head only; each joins and leaves the queue
once and has one result; and none is given up in sight of the user before its time. -/
structure Orderly (s : System β) : Prop where
  resends : ∀ r ∈ s.coord.queue, s.phase r ≠ some .waiting → s.coord.queue.head? = some r
  joins : ∀ r, s.coord.log.count (.joined r) ≤ 1
  leaves : ∀ r, s.coord.log.count (.joined r) =
    s.coord.log.count (.left r) + if r ∈ s.coord.queue then 1 else 0
  returns : ∀ r, s.coord.log.count (.returned r) = if (s.phase r).any Phase.over then 1 else 0
  settled : ∀ r, (s.phase r).any Phase.over → r ∉ s.coord.queue
  givesUp : ∀ r now es log, s.coord.log = es ++ .gaveUp r now false :: log → Justified r now log

structure Sound (s : System β) : Prop where
  steady : s.Steady
  booked : s.Booked
  kept : s.coord.Kept s.clock

theorem Sound.init (clock : Time) : Sound ({ clock := clock } : System β) where
  steady := .init clock
  booked := .init clock
  kept := ⟨⟨by simp, by simp, by simp, by simp, trivial⟩, by simp [Coord.Timed]⟩

theorem Sound.step (hs : s.Sound) {a : Time × Action δ} (h : s.step fl a = some t)
    (hretimes : s.Retimes a.1 a.2) : t.Sound := by
  obtain ⟨hclock, s', hmoves, rfl⟩ := moves_of_step h
  have hkept : s.coord.Kept a.1 := ⟨hs.kept.accounts.mono hclock, hs.kept.timed⟩
  have hkept' : s'.coord.Kept a.1 := kept_moves hkept hs.steady hs.booked hretimes hmoves
  exact ⟨(hs.steady.moves hmoves).clock a.1, (hs.booked.moves hs.steady hmoves).clock a.1, hkept'⟩

theorem Sound.orderly (hs : s.Sound) : s.Orderly := by
  have hjoined : ∀ r, s.coord.marks.count (.joined r) = s.coord.log.count (.joined r) :=
    fun r => List.count_filter rfl
  have hleft : ∀ r, s.coord.marks.count (.left r) = s.coord.log.count (.left r) :=
    fun r => List.count_filter rfl
  have hreturned : ∀ r, s.coord.marks.count (.returned r) = s.coord.log.count (.returned r) :=
    fun r => List.count_filter rfl
  have hinLoop : ∀ r ∈ s.coord.queue, ¬(s.phase r).any Phase.over := by
    intro r hr
    obtain ⟨p, hp, hover⟩ := hs.steady.inLoop r hr
    simp [hp, hover]
  constructor
  case resends =>
      intro r hr hphase
      obtain ⟨p, hp, -⟩ := hs.steady.inLoop r hr
      have htail := hs.steady.not_behind hp fun heq => hphase (heq ▸ hp)
      rcases Coord.Line.head_or_out htail with ⟨rest, hqueue⟩ | hout
      · rw [hqueue]
        rfl
      · exact absurd hr hout
  case joins =>
      intro r
      have hle := hs.booked.left r
      rw [← hjoined, hs.booked.joined r]
      rw [hs.booked.returned r] at hle
      by_cases hin : r ∈ s.coord.queue
      · rw [if_neg (hinLoop r hin)] at hle
        rw [if_pos hin]
        omega
      · rw [if_neg hin]
        split at hle <;> omega
  case leaves =>
      intro r
      rw [← hjoined, ← hleft]
      exact hs.booked.joined r
  case returns =>
      intro r
      rw [← hreturned]
      exact hs.booked.returned r
  case settled => exact fun r hover hin => hinLoop r hin hover
  case givesUp =>
      intro r now es log hlog
      exact GaveUpLate.of_append (hlog ▸ hs.kept.accounts.late)

end System

theorem retries_settle (fl : Floats β δ) {clock : Time} {es : List (Time × Action δ)}
    {s : System β}
    (h : Run (fun s a t => s.step fl a = some t ∧ s.Retimes a.1 a.2) { clock := clock } es s) :
    s.Orderly :=
  (h.invariant (P := System.Sound) (fun _ _ _ hs hstep => hs.step hstep.1 hstep.2)
    (.init clock)).orderly

/-- A request that fails, is sent again when its pause is over, and succeeds. -/
def onceMore : List (Time × Action Unit) :=
  [(0, .begin "self"), (0, .admits 0 ()), (1, .done 0 { kind := .transient } ()),
    (1000000001, .fire 1), (1000000001, .retry ⟨1, 1000000001, true, ⟨0, false⟩⟩),
    (1000000001, .wait 0), (1000000001, .proceed 0 ()), (1000000002, .admits 0 ()),
    (1000000003, .done 0 { kind := .ok, status := 200 } ())]

theorem retries_settle_onceMore :
    ∃ s : System ℕ, s.Orderly ∧ s.coord.log =
      [.returned 0, .left 0, .joined 0, .failed 0, .began 0 0] := by
  obtain ⟨s, hrun, hlog⟩ : ∃ s : System ℕ,
      Run (fun s a t => System.step tenths s a = some t ∧ s.Retimes a.1 a.2) { clock := 0 }
        onceMore s ∧ s.coord.log = [.returned 0, .left 0, .joined 0, .failed 0, .began 0 0] := by
    have hguarded : Run (fun (s : System ℕ) (a : Time × Action Unit) t =>
        (if s.Retimes a.1 a.2 then System.step tenths s a else none) = some t) { clock := 0 }
        onceMore _ := Run.iff_foldlM.mpr rfl
    refine ⟨_, hguarded.mono fun s a t h => ?_, rfl⟩
    obtain ⟨hretimes, hstep⟩ := Option.ite_none_right_eq_some.mp h
    exact ⟨hstep, hretimes⟩
  exact ⟨s, retries_settle tenths hrun, hlog⟩

/-! ### A head that is given up early

The page sleeps from second 1 to second 40. The outcome of the second request shows it and
starts fresh budgets, but the timer of the first still fires at the end of its old one. -/

def frozenRun : List (Time × Action Unit) :=
  [(0, .begin "self"), (0, .begin "self"), (0, .admits 0 ()), (0, .admits 1 ()),
    (1 * second, .done 0
      { kind := .transient, status := 503, retryAfter := some (120 * second) } ()),
    (40 * second, .done 1 { kind := .ok, status := 200 } ()),
    (60 * second, .fire 1),
    (60 * second, .retry ⟨1, 60 * second, true, ⟨0, true⟩⟩),
    (60 * second, .wait 0), (60 * second, .proceed 0 ())]

theorem head_given_up_early :
    ∃ s : System ℕ, Run (fun s a t => System.step tenths s a = some t) { clock := 0 } frozenRun s ∧
      s.coord.log = [.returned 0] ++ .gaveUp 0 (60 * second) false ::
        [.left 0, .returned 1, .resumed (40 * second), .joined 0, .failed 0, .began 1 0,
          .began 0 0] ∧
      ¬Justified 0 (60 * second) [.left 0, .returned 1, .resumed (40 * second), .joined 0,
        .failed 0, .began 1 0, .began 0 0] := by
  refine ⟨_, Run.iff_foldlM.mpr rfl, rfl, ?_⟩
  rintro (hattempts | ⟨start, hstart, hdue⟩)
  · exact absurd hattempts (by decide)
  · obtain rfl : 40 * second = start := Option.some.inj hstart
    exact absurd hdue (by decide)

end Sky.Retry
