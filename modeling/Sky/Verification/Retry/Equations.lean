import Mathlib
import Sky.Model.Retry

/-! # What each part of a handler changes -/

namespace Sky.Retry

open Function

namespace Coord

variable {β δ : Type} (fl : Floats β δ) (c : Coord β) (r q h : ℕ) (f : Request → Request)
variable (now : Time) (draw : δ)

/-! ## Requests -/

@[simp] theorem modify_request :
    (c.modify r f).request q = if q = r then f (c.request r) else c.request q := by
  simp [modify, update_apply]

@[simp] theorem modify_queue : (c.modify r f).queue = c.queue := rfl

@[simp] theorem modify_hidden : (c.modify r f).hidden = c.hidden := rfl

@[simp] theorem modify_live : (c.modify r f).live = c.live := rfl

@[simp] theorem modify_timers : (c.modify r f).timers = c.timers := rfl

@[simp] theorem modify_log : (c.modify r f).log = c.log := rfl

@[simp] theorem wake_request :
    (c.wake h).request q = if q = h then { c.request h with wake := true } else c.request q :=
  c.modify_request h q _

@[simp] theorem wake_queue : (c.wake h).queue = c.queue := rfl

@[simp] theorem wake_hidden : (c.wake h).hidden = c.hidden := rfl

@[simp] theorem wake_live : (c.wake h).live = c.live := rfl

@[simp] theorem wake_timers : (c.wake h).timers = c.timers := rfl

@[simp] theorem wake_log : (c.wake h).log = c.log := rfl

@[simp] theorem refresh_queued (onWire : Bool) :
    ((c.refresh now onWire).request q).queued = (c.request q).queued := by
  simp only [refresh]
  split <;> rfl

@[simp] theorem refresh_wake (onWire : Bool) :
    ((c.refresh now onWire).request q).wake = (c.request q).wake := by
  simp only [refresh]
  split <;> rfl

/-! ## Timers -/

@[simp] theorem stop_request : c.stop.request = c.request := rfl

@[simp] theorem stop_queue : c.stop.queue = c.queue := rfl

@[simp] theorem stop_hidden : c.stop.hidden = c.hidden := rfl

@[simp] theorem stop_live : c.stop.live = c.live := rfl

@[simp] theorem stop_log : c.stop.log = c.log := rfl

@[simp] theorem stop_modify_timers : (c.modify r f).stop.timers = c.stop.timers := rfl

theorem disarm_subset {κ : Type} (timers : List (Timer κ)) (id : Option ℕ) :
    disarm timers id ⊆ timers := by
  cases id with
  | none => exact List.Subset.refl _
  | some id => exact List.filter_subset_self _

theorem mem_stop {t : Timer RetryCall} (h : t ∈ c.stop.timers) : t ∈ c.timers :=
  disarm_subset _ _ h

/-! ## What the queue and the budgets depend on -/

structure Alike (c c' : Coord β) : Prop where
  request : c'.request = c.request
  queue : c'.queue = c.queue
  hidden : c'.hidden = c.hidden
  live : c'.live = c.live
  timers : c'.timers = c.timers
  cancel : c'.cancel = c.cancel
  log : c'.log = c.log

theorem Alike.refl : Alike c c := ⟨rfl, rfl, rfl, rfl, rfl, rfl, rfl⟩

theorem Alike.trans {c c' c'' : Coord β} (h : Alike c c') (k : Alike c' c'') : Alike c c'' :=
  ⟨k.request.trans h.request, k.queue.trans h.queue, k.hidden.trans h.hidden, k.live.trans h.live,
    k.timers.trans h.timers, k.cancel.trans h.cancel, k.log.trans h.log⟩

theorem Alike.modify {c c' : Coord β} (h : Alike c c') : Alike (c.modify r f) (c'.modify r f) :=
  ⟨by rw [Coord.modify, Coord.modify, h.request], h.queue, h.hidden, h.live, h.timers,
    h.cancel, h.log⟩

theorem endOutage_alike : Alike c c.endOutage := ⟨rfl, rfl, rfl, rfl, rfl, rfl, rfl⟩

theorem resume_alike : Alike (c.refresh now true) (c.resume now) := by
  unfold resume
  dsimp only
  split <;> exact ⟨rfl, rfl, rfl, rfl, rfl, rfl, rfl⟩

theorem refundToken_alike (origin : String) : Alike c (c.refundToken fl origin) :=
  ⟨rfl, rfl, rfl, rfl, rfl, rfl, rfl⟩

theorem recordThrottle_alike (e : ThrottleEvent) : Alike c (c.recordThrottle e) := by
  cases c
  exact ⟨rfl, rfl, rfl, rfl, rfl, rfl, rfl⟩

/-- The state after an outcome was heard. -/
def drained : Coord β :=
  let c := c.modify r fun q => { q with wake := false }
  (if c.suspended r now then c.refresh now true else c).modify r fun q => { q with resumed := false }

theorem drained_alike : Alike (c.drained r now)
    ((if (c.modify r fun q => { q with wake := false }).suspended r now then
        (c.modify r fun q => { q with wake := false }).resume now
      else c.modify r fun q => { q with wake := false }).modify r
        fun q => { q with resumed := false }) := by
  unfold drained
  dsimp only
  split
  · exact (resume_alike _ now).modify r _
  · exact .refl _

theorem heard_alike (o : Outcome) : Alike (c.drained r now) (c.heard r o now).1 := by
  unfold heard
  dsimp only
  by_cases hstatus : !o.refused && decide (0 < o.status)
  · rw [if_pos hstatus]
    exact (c.drained_alike r now).trans (recordThrottle_alike _ _)
  · rw [if_neg hstatus]
    exact c.drained_alike r now

theorem fail_alike (o : Outcome) :
    Alike ((c.modify r fun q => { q with attempt := q.attempt + 1 }).record (.failed r))
      (c.fail fl r o now) := by
  unfold fail
  dsimp only
  by_cases hrefused : o.refused
  · simp only [if_pos hrefused]
    exact .refl _
  · simp only [if_neg hrefused]
    split <;> exact ⟨rfl, rfl, rfl, rfl, rfl, rfl, rfl⟩

/-! ## The next try -/

/-- The four things that scheduling the head can come to. -/
theorem schedule_cases (last : Outcome) {c₀ : Coord β}
    (hc₀ : c₀ = c.stop.modify h fun q => { q with paced := false }) :
    c.schedule fl h last now draw = (c₀.modify h fun q => { q with forced := false }).wake h ∨
    ((c.request h).start + spaRetryBudget ≤ now ∧
      c.schedule fl h last now draw = (c₀.modify h fun q => { q with giveUp := true }).wake h) ∨
    (c.hidden = true ∧ c.schedule fl h last now draw = c₀) ∨
    ∃ paced due giveUp, (giveUp = true → due = (c.request h).start + spaRetryBudget) ∧
      c.schedule fl h last now draw =
        (c₀.modify h fun q => { q with paced := paced }).arm h due giveUp := by
  have hstart : (c₀.request h).start = (c.request h).start := by simp [hc₀]
  have hhidden : c₀.hidden = c.hidden := by simp [hc₀]
  unfold schedule
  rw [← hc₀]
  dsimp only
  by_cases hforced : (c₀.request h).forced
  · exact .inl (if_pos hforced)
  · refine .inr ?_
    rw [if_neg hforced]
    by_cases hspent : decide ((c₀.request h).start + spaRetryBudget - now ≤ 0) && !c₀.hidden
    · refine .inl ⟨?_, if_pos hspent⟩
      simp only [Bool.and_eq_true, decide_eq_true_eq, hstart] at hspent
      exact sub_nonpos.mp hspent.1
    · refine .inr ?_
      rw [if_neg hspent]
      cases hpause : c₀.pause fl h last ((c₀.request h).start + spaRetryBudget - now) draw with
      | none =>
          refine .inl ⟨?_, rfl⟩
          unfold pause at hpause
          split at hpause
          · split at hpause
            next hidden => exact hhidden ▸ hidden
            next => cases hpause
          · split at hpause <;> cases hpause
      | some next =>
          refine .inr ⟨next.2, _, _, fun hgive => ?_, rfl⟩
          rw [if_pos hgive, hstart]
          exact add_sub_cancel now _

/-- What scheduling the head `h` changes. -/
structure Scheduled (c : Coord β) (h : ℕ) (now : Time) (c' : Coord β) : Prop where
  queue : c'.queue = c.queue
  hidden : c'.hidden = c.hidden
  live : c'.live = c.live
  log : c'.log = c.log
  other : ∀ q, q ≠ h → c'.request q = c.request q
  queued : (c'.request h).queued = (c.request h).queued
  start : (c'.request h).start = (c.request h).start
  attempt : (c'.request h).attempt = (c.request h).attempt
  giveUp : (c'.request h).giveUp →
    (c.request h).giveUp ∨ (c.request h).start + spaRetryBudget ≤ now
  timers : ∀ t ∈ c'.timers, t ∈ c.stop.timers ∨ t.call.head = h ∧ t.fired = false ∧
    (t.call.giveUp = true → t.due = (c.request h).start + spaRetryBudget)
  moves : c.hidden = false → (c'.request h).wake ∨ ∃ t ∈ c'.timers, t.call.head = h

theorem schedule_spec (last : Outcome) : Scheduled c h now (c.schedule fl h last now draw) := by
  rcases c.schedule_cases fl h now draw last rfl with heq | ⟨hspent, heq⟩ | ⟨hhidden, heq⟩ |
    ⟨paced, due, giveUp, hdue, heq⟩
  · rw [heq]
    constructor <;> simp +contextual
  · rw [heq]
    constructor <;> simp +contextual [hspent]
  · rw [heq]
    constructor <;> simp +contextual [hhidden]
  · rw [heq]
    constructor <;> simp +contextual [arm, hdue]

theorem force_spec : Scheduled c h now (c.force fl h now draw) := by
  have hspec := (c.modify h fun q => { q with forced := true }).schedule_spec fl h now draw
    { kind := .transient }
  refine ⟨hspec.queue, hspec.hidden, hspec.live, hspec.log, fun q hq => ?_, ?_, ?_, ?_, ?_, ?_,
    hspec.moves⟩
  · exact (hspec.other q hq).trans (by simp [hq])
  · exact hspec.queued.trans (by simp)
  · exact hspec.start.trans (by simp)
  · exact hspec.attempt.trans (by simp)
  · exact fun hgive => by simpa using hspec.giveUp hgive
  · exact fun t ht => by simpa using hspec.timers t ht

/-! ## Leaving the queue -/

@[simp] theorem dequeue_request :
    (c.dequeue r).request q =
      if q = r then { c.request r with queued := false } else c.request q := by
  simp [dequeue, modify, update_apply]

@[simp] theorem enqueue_request :
    (c.enqueue r).request q =
      if q = r then { c.request r with queued := true } else c.request q := by
  simp [enqueue, modify, update_apply]

theorem remove_unqueued (h : (c.request r).queued = false) (succeeded : Bool) :
    c.remove fl r succeeded now draw = c := by
  simp [remove, h]

/-- The head leaves, and the request behind it is scheduled. -/
theorem remove_head (hqueued : (c.request r).queued = true) {rest : List ℕ}
    (hqueue : c.queue = r :: rest) (succeeded : Bool) :
    (rest = [] ∧ Alike (c.dequeue r).stop (c.remove fl r succeeded now draw)) ∨
      ∃ next rest', rest = next :: rest' ∧
        Scheduled (c.dequeue r).stop next now (c.remove fl r succeeded now draw) := by
  have hrest : (c.dequeue r).stop.queue = rest := by
    simp [dequeue, hqueue]
  unfold remove
  simp only [hqueued, hqueue, List.head?_cons, decide_true, Bool.not_true, Bool.false_eq_true,
    if_false]
  rw [hrest]
  cases rest with
  | nil => exact .inl ⟨rfl, endOutage_alike _⟩
  | cons next rest =>
      refine .inr ⟨next, rest, rfl, ?_⟩
      cases succeeded with
      | true => exact (c.dequeue r).stop.force_spec fl next now draw
      | false => exact (c.dequeue r).stop.schedule_spec fl next now draw _

end Coord

/-! ## The moves -/

namespace System

variable {β δ : Type} {fl : Floats β δ} {s t : System β} {now : Time}

/-- What an action can come to. -/
inductive Moves (fl : Floats β δ) (s : System β) (now : Time) : Action δ → System β → Prop where
  | begin (origin) : Moves fl s now (.begin origin)
      ({ s with coord := s.coord.begin s.begun origin now, begun := s.begun + 1 }.setPhase s.begun
        .ready)
  | admits (r draw) (phase : s.phase r = some .ready) : Moves fl s now (.admits r draw)
      ({ s with coord := (s.coord.admits fl r now draw).1 }.setPhase r
        (.sending !(s.coord.admits fl r now draw).2))
  | again (r o draw) {refused} (phase : s.phase r = some (.sending refused))
      (result : (s.coord.done fl r o now draw).2 = true) : Moves fl s now (.done r o draw)
      ({ s with coord := (s.coord.done fl r o now draw).1 }.setPhase r .waiting)
  | finish (r o draw) {refused} (phase : s.phase r = some (.sending refused))
      (result : (s.coord.done fl r o now draw).2 = false) : Moves fl s now (.done r o draw)
      ({ s with coord := (s.coord.done fl r o now draw).1.record (.returned r) }.setPhase r
        .returned)
  | wait (r) (phase : s.phase r = some .waiting) (token : (s.coord.request r).wake = true) :
      Moves fl s now (.wait r)
      ({ s with coord := s.coord.modify r fun q => { q with wake := false } }.setPhase r .woken)
  | pass (r draw) (phase : s.phase r = some .woken) (keep : (s.coord.request r).giveUp = false) :
      Moves fl s now (.proceed r draw) (s.setPhase r .ready)
  | giveUp (r draw) (phase : s.phase r = some .woken)
      (spent : (s.coord.request r).giveUp = true) : Moves fl s now (.proceed r draw)
      ({ s with coord := (s.coord.giveUp fl r now draw).record (.returned r) }.setPhase r .returned)
  | forget (r) (phase : s.phase r = some .returned) : Moves fl s now (.forget r)
      ({ s with coord := s.coord.forget r }.setPhase r .ended)
  | fire (id) : Moves fl s now (.fire id)
      { s with coord := { s.coord with timers := fireDue s.coord.timers id now } }
  | fireGrace (id) : Moves fl s now (.fireGrace id)
      { s with coord := { s.coord with graces := fireDue s.coord.graces id now } }
  | retry (timer) (mem : timer ∈ s.coord.timers) (fired : timer.fired = true) :
      Moves fl s now (.retry timer) { s with coord := s.coord.retry timer now }
  | grace (timer draw) (mem : timer ∈ s.coord.graces) (fired : timer.fired = true) :
      Moves fl s now (.grace timer draw) { s with coord := s.coord.grace fl timer now draw }
  | setHidden (hidden draw) : Moves fl s now (.setHidden hidden draw)
      { s with coord := s.coord.setHidden fl hidden now draw }
  | recover (draw) : Moves fl s now (.recover draw)
      { s with coord := s.coord.recover fl now draw }

theorem moves_of_act {a : Action δ} (h : s.act fl now a = some t) : Moves fl s now a t := by
  cases a with
  | begin origin =>
      obtain rfl := Option.some.inj h
      exact .begin origin
  | admits r draw =>
      obtain ⟨hphase, h⟩ := Option.ite_none_right_eq_some.mp h
      obtain rfl := Option.some.inj h
      exact .admits r draw hphase
  | done r o draw =>
      simp only [act] at h
      split at h
      next refused hphase =>
          obtain ⟨-, h⟩ := Option.ite_none_right_eq_some.mp h
          obtain rfl := Option.some.inj h
          cases hresult : (s.coord.done fl r o now draw).2 with
          | true =>
              rw [← Prod.mk.eta (p := s.coord.done fl r o now draw), hresult]
              exact .again r o draw hphase hresult
          | false =>
              rw [← Prod.mk.eta (p := s.coord.done fl r o now draw), hresult]
              exact .finish r o draw hphase hresult
      next => cases h
  | wait r =>
      obtain ⟨hguard, h⟩ := Option.ite_none_right_eq_some.mp h
      obtain rfl := Option.some.inj h
      obtain ⟨hphase, htoken⟩ := Bool.and_eq_true_iff.mp hguard
      exact .wait r (of_decide_eq_true hphase) htoken
  | proceed r draw =>
      obtain ⟨hphase, h⟩ := Option.ite_none_right_eq_some.mp h
      obtain rfl := Option.some.inj h
      cases hgive : (s.coord.request r).giveUp with
      | true =>
          rw [show s.coord.proceed fl r now draw = (s.coord.giveUp fl r now draw, false) by
            simp [Coord.proceed, hgive]]
          exact .giveUp r draw hphase hgive
      | false =>
          rw [show s.coord.proceed fl r now draw = (s.coord, true) by
            simp [Coord.proceed, hgive]]
          exact .pass r draw hphase hgive
  | forget r =>
      obtain ⟨hphase, h⟩ := Option.ite_none_right_eq_some.mp h
      obtain rfl := Option.some.inj h
      exact .forget r hphase
  | fire id =>
      obtain rfl := Option.some.inj h
      exact .fire id
  | fireGrace id =>
      obtain rfl := Option.some.inj h
      exact .fireGrace id
  | retry timer =>
      obtain ⟨hguard, h⟩ := Option.ite_none_right_eq_some.mp h
      obtain rfl := Option.some.inj h
      obtain ⟨hmem, hfired⟩ := Bool.and_eq_true_iff.mp hguard
      exact .retry timer (of_decide_eq_true hmem) hfired
  | grace timer draw =>
      obtain ⟨hguard, h⟩ := Option.ite_none_right_eq_some.mp h
      obtain rfl := Option.some.inj h
      obtain ⟨hmem, hfired⟩ := Bool.and_eq_true_iff.mp hguard
      exact .grace timer draw (of_decide_eq_true hmem) hfired
  | setHidden hidden draw =>
      obtain rfl := Option.some.inj h
      exact .setHidden hidden draw
  | recover draw =>
      obtain rfl := Option.some.inj h
      exact .recover draw

theorem moves_of_step {a : Time × Action δ} (h : s.step fl a = some t) :
    s.clock ≤ a.1 ∧ ∃ s', Moves fl s a.1 a.2 s' ∧ t = { s' with clock := a.1 } := by
  obtain ⟨hclock, h⟩ := Option.ite_none_right_eq_some.mp h
  obtain ⟨s', hact, rfl⟩ := Option.map_eq_some_iff.mp h
  exact ⟨hclock, s', moves_of_act hact, rfl⟩

end System

end Sky.Retry
