import Sky.Library.Run
import Sky.Library.Tasks
import Sky.Model.Parallel

/-! # What a step of a parallel run does, and the branches that are started -/

namespace Sky.Parallel

open Library

/-! ## One step -/

section

variable {V E P : Type} {s t : State V E P}

/-- What a branch may leave behind when it goes on. -/
inductive BranchStep (s : State V E P) (i : ℕ) (r : Result V E P) (rest : List Todo) :
    Todo → State V E P → Prop where
  | delivered (hgone : s.gone = false) (hroom : s.ch.length < s.branches.length) :
      BranchStep s i r rest .send { s.setBranch i (.ended r rest) with ch := s.ch ++ [(i, r)] }
  | refused (hgone : s.gone = true) (p : P) (hr : r = .panicked p) :
      BranchStep s i r rest .send (s.setBranch i (.ended r (.log :: rest)))
  | dropped (hgone : s.gone = true) (hr : ∀ p, r ≠ .panicked p) :
      BranchStep s i r rest .send (s.setBranch i (.ended r rest))
  | released (hslots : 0 < s.slots) :
      BranchStep s i r rest .release
        { s.setBranch i (.ended r rest) with slots := s.slots - 1 }
  | logged (p : P) (hr : r = .panicked p) :
      BranchStep s i r rest .log
        { s.setBranch i (.ended r rest) with logged := s.logged ++ [(i, p)] }
  | silent (hr : ∀ p, r ≠ .panicked p) : BranchStep s i r rest .log (s.setBranch i (.ended r rest))

theorem State.act_cases {i : ℕ} {r : Result V E P} {rest : List Todo} {a : Todo}
    (h : s.act i r rest a = some t) : BranchStep s i r rest a t := by
  cases a with
  | send =>
      simp only [State.act] at h
      split at h
      · next hgone =>
          split at h
          · next p =>
              obtain rfl := Option.some.inj h
              exact .refused hgone p rfl
          · next hr =>
              obtain rfl := Option.some.inj h
              exact .dropped hgone hr
      · next hgone =>
          split at h
          · next hroom =>
              obtain rfl := Option.some.inj h
              exact .delivered (by simpa using hgone) hroom
          · cases h
  | release =>
      simp only [State.act] at h
      split at h
      · next hslots =>
          obtain rfl := Option.some.inj h
          exact .released hslots
      · cases h
  | log =>
      simp only [State.act] at h
      split at h
      · next p =>
          obtain rfl := Option.some.inj h
          exact .logged p rfl
      · next hr =>
          obtain rfl := Option.some.inj h
          exact .silent hr

/-- What the caller may leave behind. -/
inductive CallerStep (s : State V E P) : State V E P → Prop where
  | launch (i : ℕ) (hcaller : s.caller = .launching i) (hi : i < s.branches.length) :
      CallerStep s { s.launch i with caller := .launching (i + 1) }
  | launched (i : ℕ) (hcaller : s.caller = .launching i) (hi : s.branches.length ≤ i) :
      CallerStep s { s with caller := .collecting 0 (List.replicate s.branches.length none) }
  | receive (received : ℕ) (results : List (Option V)) (i : ℕ) (r : Result V E P)
      (ch : List (ℕ × Result V E P)) (hcaller : s.caller = .collecting received results)
      (hlt : received < s.branches.length) (hch : s.ch = (i, r) :: ch) :
      CallerStep s { s with
        ch := ch
        taken := s.taken ++ [(i, r)]
        caller := State.receive received results i r }
  | complete (received : ℕ) (results : List (Option V))
      (hcaller : s.caller = .collecting received results) (hle : s.branches.length ≤ received) :
      CallerStep s { s with caller := .finishing (.ok results) }
  | leave (o : Outcome V E P) (hcaller : s.caller = .finishing o) :
      CallerStep s { s with gone := true, caller := .draining o }
  | drain (o : Outcome V E P) (i : ℕ) (r : Result V E P) (ch : List (ℕ × Result V E P))
      (hcaller : s.caller = .draining o) (hch : s.ch = (i, r) :: ch) (hr : ∀ p, r ≠ .panicked p) :
      CallerStep s { s with ch := ch, taken := s.taken ++ [(i, r)] }
  | drainPanic (o : Outcome V E P) (i : ℕ) (p : P) (ch : List (ℕ × Result V E P))
      (hcaller : s.caller = .draining o) (hch : s.ch = (i, .panicked p) :: ch) :
      CallerStep s { s with
        ch := ch
        taken := s.taken ++ [(i, .panicked p)]
        logged := s.logged ++ [(i, p)] }
  | drained (o : Outcome V E P) (hcaller : s.caller = .draining o) (hch : s.ch = [])
      (hlimit : s.limit = none) : CallerStep s { s with caller := .returned o }
  | drainedN (o : Outcome V E P) (hcaller : s.caller = .draining o) (hch : s.ch = [])
      (hlimit : s.limit ≠ none) : CallerStep s { s with caller := .closing o }
  | close (o : Outcome V E P) (hcaller : s.caller = .closing o) :
      CallerStep s { s with stop := true, caller := .returned o }

theorem State.stepCaller_cases (h : s.stepCaller = some t) : CallerStep s t := by
  unfold State.stepCaller at h
  split at h
  · next i hcaller =>
      split at h
      · next hi =>
          obtain rfl := Option.some.inj h
          exact .launch i hcaller hi
      · next hi =>
          obtain rfl := Option.some.inj h
          exact .launched i hcaller (Nat.le_of_not_lt hi)
  · next received results hcaller =>
      split at h
      · next hlt =>
          split at h
          · next i r ch hch =>
              obtain rfl := Option.some.inj h
              exact .receive received results i r ch hcaller hlt hch
          · cases h
      · next hle =>
          obtain rfl := Option.some.inj h
          exact .complete received results hcaller (Nat.le_of_not_lt hle)
  · next o hcaller =>
      obtain rfl := Option.some.inj h
      exact .leave o hcaller
  · next o hcaller =>
      split at h
      · next i r ch hch =>
          obtain rfl := Option.some.inj h
          cases r with
          | ok v => exact .drain o i _ ch hcaller hch (by simp)
          | err e => exact .drain o i _ ch hcaller hch (by simp)
          | panicked p => exact .drainPanic o i p ch hcaller hch
      · next hch =>
          obtain rfl := Option.some.inj h
          by_cases hlimit : s.limit = none
          · rw [if_neg (by simp [hlimit])]
            exact .drained o hcaller hch hlimit
          · rw [if_pos (Option.isSome_iff_ne_none.2 hlimit)]
            exact .drainedN o hcaller hch hlimit
  · next o hcaller =>
      obtain rfl := Option.some.inj h
      exact .close o hcaller
  · cases h

/-- What the dispatcher may leave behind. -/
inductive DispatcherStep (s : State V E P) : State V E P → Prop where
  | stopped (i : ℕ) (hdispatcher : s.dispatcher = .selecting i) (hstop : s.stop = true) :
      DispatcherStep s { s with dispatcher := .finished }
  | acquire (i : ℕ) (hdispatcher : s.dispatcher = .selecting i) (hi : i < s.branches.length)
      (hslots : s.slots < s.limit.getD 0) :
      DispatcherStep s { s with slots := s.slots + 1, dispatcher := .acquired i }
  | complete (i : ℕ) (hdispatcher : s.dispatcher = .selecting i) (hi : s.branches.length ≤ i) :
      DispatcherStep s { s with dispatcher := .finished }
  | late (i : ℕ) (hdispatcher : s.dispatcher = .acquired i) (hgone : s.gone = true) :
      DispatcherStep s { s with dispatcher := .leaving }
  | launch (i : ℕ) (hdispatcher : s.dispatcher = .acquired i) (hgone : s.gone = false) :
      DispatcherStep s { s.launch i with dispatcher := .selecting (i + 1) }
  | leave (hdispatcher : s.dispatcher = .leaving) (hslots : 0 < s.slots) :
      DispatcherStep s { s with slots := s.slots - 1, dispatcher := .finished }

theorem State.stepDispatcher_cases {stop : Bool} (h : s.stepDispatcher stop = some t) :
    DispatcherStep s t := by
  unfold State.stepDispatcher at h
  split at h
  · next i hdispatcher =>
      split at h
      · next hi =>
          split at h
          · split at h
            · next hstop =>
                obtain rfl := Option.some.inj h
                exact .stopped i hdispatcher hstop
            · cases h
          · split at h
            · next hslots =>
                obtain rfl := Option.some.inj h
                exact .acquire i hdispatcher hi hslots
            · cases h
      · next hi =>
          obtain rfl := Option.some.inj h
          exact .complete i hdispatcher (Nat.le_of_not_lt hi)
  · next i hdispatcher =>
      split at h
      · next hgone =>
          obtain rfl := Option.some.inj h
          exact .late i hdispatcher hgone
      · next hgone =>
          obtain rfl := Option.some.inj h
          exact .launch i hdispatcher (by simpa using hgone)
  · next hdispatcher =>
      split at h
      · next hslots =>
          obtain rfl := Option.some.inj h
          exact .leave hdispatcher hslots
      · cases h
  · cases h

inductive Stepped (s : State V E P) : State V E P → Prop where
  | caller {t : State V E P} (h : CallerStep s t) : Stepped s t
  | dispatcher {t : State V E P} (h : DispatcherStep s t) : Stepped s t
  | finish (i : ℕ) (r : Result V E P) (hi : s.branches[i]? = some .running) :
      Stepped s (s.setBranch i (.ended r (s.todo r)))
  | branch {t : State V E P} (i : ℕ) (r : Result V E P) (a : Todo) (rest : List Todo)
      (hi : s.branches[i]? = some (.ended r (a :: rest))) (h : BranchStep s i r rest a t) :
      Stepped s t

theorem State.step_cases {e : Event V E P} (h : s.step e = some t) : Stepped s t := by
  cases e with
  | caller => exact .caller (State.stepCaller_cases h)
  | dispatcher stop => exact .dispatcher (State.stepDispatcher_cases h)
  | finish i r =>
      simp only [State.step] at h
      split at h
      · next hi =>
          obtain rfl := Option.some.inj h
          exact .finish i r hi
      · cases h
  | branch i =>
      simp only [State.step] at h
      split at h
      · next r a rest hi => exact .branch i r a rest hi (State.act_cases h)
      · cases h

end

/-! ## Starts -/

variable {V E P : Type} {s t : State V E P}

/-- The tasks that were started are the first ones; whoever starts them stands at the next. -/
structure Started (s : State V E P) : Prop where
  range : s.started = List.range s.started.length
  le : s.started.length ≤ s.branches.length
  idle : ∀ i, s.branches[i]? = some .idle ↔ s.started.length ≤ i ∧ i < s.branches.length
  launching : ∀ i, s.caller = .launching i → i = s.started.length ∧ s.limit = none
  eager : s.limit = none → (∀ i, s.caller ≠ .launching i) → s.started.length = s.branches.length
  plain : s.limit = none → s.dispatcher = .finished
  selecting : ∀ i, s.dispatcher = .selecting i → i = s.started.length
  acquired : ∀ i, s.dispatcher = .acquired i → i = s.started.length ∧ i < s.branches.length
  left : s.limit ≠ none → s.dispatcher = .leaving ∨ s.dispatcher = .finished →
    s.gone = true ∨ s.started.length = s.branches.length
  leaving : ∀ o, s.caller = .draining o ∨ s.caller = .closing o → s.gone = true
  stopped : s.stop = true → s.gone = true

/-- One more task is started. -/
theorem Started.launch (h : Started s) :
    s.started ++ [s.started.length] = List.range (s.started.length + 1) ∧
      ∀ i, (s.branches.set s.started.length .running)[i]? = some .idle ↔
        s.started.length + 1 ≤ i ∧ i < s.branches.length := by
  refine ⟨?_, ?_⟩
  · rw [List.range_succ, ← h.range]
  · intro i
    constructor
    · intro hi
      rcases getElem?_set_cases hi with ⟨_, heq⟩ | ⟨hne, hi⟩
      · cases heq
      · obtain ⟨hle, hlt⟩ := (h.idle i).1 hi
        exact ⟨by omega, hlt⟩
    · rintro ⟨hle, hi⟩
      rw [List.getElem?_set_ne (by omega)]
      exact (h.idle i).2 ⟨by omega, hi⟩

/-- A branch that is not idle moves, and is not idle after it. -/
theorem Started.setBranch (h : Started s) {i : ℕ} {b b' : Branch V E P}
    (hi : s.branches[i]? = some b) (hb : b ≠ .idle) (hb' : b' ≠ .idle) :
    ∀ j, (s.branches.set i b')[j]? = some .idle ↔
      s.started.length ≤ j ∧ j < s.branches.length := by
  intro j
  rw [← h.idle j]
  constructor
  · intro hj
    rcases getElem?_set_cases hj with ⟨_, heq⟩ | ⟨_, hj⟩
    · exact absurd heq.symm hb'
    · exact hj
  · intro hj
    have hij : i ≠ j := by
      rintro rfl
      exact hb (Option.some.inj (hi.symm.trans hj))
    exact (List.getElem?_set_ne hij).trans hj

theorem Started.caller (h : Started s) (hstep : CallerStep s t) : Started t := by
  cases hstep with
  | launch i hcaller hi =>
      obtain ⟨rfl, hlimit⟩ := h.launching i hcaller
      obtain ⟨hrange, hidle⟩ := h.launch
      have hfinished := h.plain hlimit
      refine ⟨?_, ?_, ?_, ?_, ?_, h.plain, ?_, ?_, ?_, by simp, h.stopped⟩
      · simpa [State.launch] using hrange
      · simpa [State.launch, State.setBranch] using hi
      · simpa [State.launch, State.setBranch] using hidle
      · intro i heq
        obtain rfl := Caller.launching.inj heq
        simpa [State.launch, State.setBranch] using hlimit
      · intro _ hne
        exact absurd rfl (hne _)
      · intro i heq
        exact absurd (hfinished.symm.trans heq) (by simp)
      · intro i heq
        exact absurd (hfinished.symm.trans heq) (by simp)
      · intro hne
        exact absurd hlimit hne
  | launched i hcaller hi =>
      obtain ⟨rfl, hlimit⟩ := h.launching i hcaller
      exact ⟨h.range, h.le, h.idle, by simp, fun _ _ => Nat.le_antisymm h.le hi, h.plain, h.selecting,
        h.acquired, h.left, by simp, h.stopped⟩
  | receive received results i r ch hcaller hlt hch =>
      refine ⟨h.range, h.le, h.idle, ?_, fun hlimit _ => h.eager hlimit (by simp [hcaller]), h.plain,
        h.selecting, h.acquired, h.left, ?_, h.stopped⟩
      · intro j heq
        cases r <;> cases heq
      · intro o heq
        rcases heq with heq | heq <;> cases r <;> cases heq
  | complete received results hcaller hle =>
      exact ⟨h.range, h.le, h.idle, by simp, fun hlimit _ => h.eager hlimit (by simp [hcaller]),
        h.plain, h.selecting, h.acquired, h.left, by simp, h.stopped⟩
  | leave o hcaller =>
      exact ⟨h.range, h.le, h.idle, by simp, fun hlimit _ => h.eager hlimit (by simp [hcaller]),
        h.plain, h.selecting, h.acquired, fun _ _ => .inl rfl, fun _ _ => rfl, fun _ => rfl⟩
  | drain o i r ch hcaller hch hr =>
      exact ⟨h.range, h.le, h.idle, h.launching, h.eager, h.plain, h.selecting, h.acquired, h.left,
        h.leaving, h.stopped⟩
  | drainPanic o i p ch hcaller hch =>
      exact ⟨h.range, h.le, h.idle, h.launching, h.eager, h.plain, h.selecting, h.acquired, h.left,
        h.leaving, h.stopped⟩
  | drained o hcaller hch hlimit =>
      exact ⟨h.range, h.le, h.idle, by simp, fun hlimit _ => h.eager hlimit (by simp [hcaller]),
        h.plain, h.selecting, h.acquired, h.left, by simp, h.stopped⟩
  | drainedN o hcaller hch hlimit =>
      exact ⟨h.range, h.le, h.idle, by simp, fun hlimit _ => h.eager hlimit (by simp [hcaller]),
        h.plain, h.selecting, h.acquired, h.left, fun _ _ => h.leaving o (.inl hcaller), h.stopped⟩
  | close o hcaller =>
      exact ⟨h.range, h.le, h.idle, by simp, fun hlimit _ => h.eager hlimit (by simp [hcaller]),
        h.plain, h.selecting, h.acquired, h.left, by simp, fun _ => h.leaving o (.inr hcaller)⟩

theorem Started.dispatcher (h : Started s) (hstep : DispatcherStep s t) : Started t := by
  cases hstep with
  | stopped i hdispatcher hstop =>
      exact ⟨h.range, h.le, h.idle, h.launching, h.eager, fun _ => rfl, by simp, by simp,
        fun _ _ => .inl (h.stopped hstop), h.leaving, h.stopped⟩
  | acquire i hdispatcher hi hslots =>
      obtain rfl := h.selecting i hdispatcher
      refine ⟨h.range, h.le, h.idle, h.launching, h.eager, ?_, by simp, ?_, by simp, h.leaving,
        h.stopped⟩
      · intro hlimit
        exact absurd ((h.plain hlimit).symm.trans hdispatcher) (by simp)
      · intro j heq
        obtain rfl := Dispatcher.acquired.inj heq
        exact ⟨rfl, hi⟩
  | complete i hdispatcher hi =>
      obtain rfl := h.selecting i hdispatcher
      exact ⟨h.range, h.le, h.idle, h.launching, h.eager, fun _ => rfl, by simp, by simp,
        fun _ _ => .inr (Nat.le_antisymm h.le hi), h.leaving, h.stopped⟩
  | late i hdispatcher hgone =>
      refine ⟨h.range, h.le, h.idle, h.launching, h.eager, ?_, by simp, by simp,
        fun _ _ => .inl hgone, h.leaving, h.stopped⟩
      intro hlimit
      exact absurd ((h.plain hlimit).symm.trans hdispatcher) (by simp)
  | launch i hdispatcher hgone =>
      obtain ⟨rfl, hi⟩ := h.acquired i hdispatcher
      obtain ⟨hrange, hidle⟩ := h.launch
      have hlimit : s.limit ≠ none := by
        intro hlimit
        exact absurd ((h.plain hlimit).symm.trans hdispatcher) (by simp)
      refine ⟨?_, ?_, ?_, ?_, fun heq => absurd heq hlimit, fun heq => absurd heq hlimit, ?_, by simp,
        by simp, h.leaving, h.stopped⟩
      · simpa [State.launch] using hrange
      · simpa [State.launch, State.setBranch] using hi
      · simpa [State.launch, State.setBranch] using hidle
      · intro j heq
        exact absurd (h.launching j heq).2 hlimit
      · intro j heq
        obtain rfl := Dispatcher.selecting.inj heq
        simp [State.launch]
  | leave hdispatcher hslots =>
      exact ⟨h.range, h.le, h.idle, h.launching, h.eager, fun _ => rfl, by simp, by simp,
        fun hlimit _ => h.left hlimit (.inl hdispatcher), h.leaving, h.stopped⟩

/-- Only the branches change, and none is idle that was not. -/
theorem Started.same (h : Started s) {i : ℕ} {b b' : Branch V E P}
    (hi : s.branches[i]? = some b) (hb : b ≠ .idle) (hb' : b' ≠ .idle)
    (hbranches : t.branches = s.branches.set i b')
    (hfields : t.started = s.started ∧ t.caller = s.caller ∧ t.dispatcher = s.dispatcher ∧
      t.limit = s.limit ∧ t.gone = s.gone ∧ t.stop = s.stop) : Started t := by
  obtain ⟨hstarted, hcaller, hdispatcher, hlimit, hgone, hstop⟩ := hfields
  have hlength : t.branches.length = s.branches.length := by rw [hbranches, List.length_set]
  have hidle := h.setBranch hi hb hb'
  rw [← hbranches] at hidle
  constructor
  all_goals simp only [hstarted, hcaller, hdispatcher, hlimit, hgone, hstop, hlength]
  · exact h.range
  · exact h.le
  · exact hidle
  · exact h.launching
  · exact h.eager
  · exact h.plain
  · exact h.selecting
  · exact h.acquired
  · exact h.left
  · exact h.leaving
  · exact h.stopped

theorem Started.step (h : Started s) (hstep : Stepped s t) : Started t := by
  cases hstep with
  | caller hstep => exact h.caller hstep
  | dispatcher hstep => exact h.dispatcher hstep
  | finish i r hi => exact h.same hi (by simp) (by simp) rfl ⟨rfl, rfl, rfl, rfl, rfl, rfl⟩
  | branch i r a rest hi hstep =>
      cases hstep with
      | delivered => exact h.same hi (by simp) (by simp) rfl ⟨rfl, rfl, rfl, rfl, rfl, rfl⟩
      | refused => exact h.same hi (by simp) (by simp) rfl ⟨rfl, rfl, rfl, rfl, rfl, rfl⟩
      | dropped => exact h.same hi (by simp) (by simp) rfl ⟨rfl, rfl, rfl, rfl, rfl, rfl⟩
      | released => exact h.same hi (by simp) (by simp) rfl ⟨rfl, rfl, rfl, rfl, rfl, rfl⟩
      | logged => exact h.same hi (by simp) (by simp) rfl ⟨rfl, rfl, rfl, rfl, rfl, rfl⟩
      | silent => exact h.same hi (by simp) (by simp) rfl ⟨rfl, rfl, rfl, rfl, rfl, rfl⟩

end Sky.Parallel
