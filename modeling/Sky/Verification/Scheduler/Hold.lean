import Sky.Verification.Scheduler.Order

/-! # A holding call holds the queue

`drain` looks at one slot, `hold`, while several holding calls may be unsettled.
The slot stands for all of them as long as none is left when it is released. -/

namespace Sky.Spa

open Sky.Library

variable {M Src : Type*} {ctor : M → String}

/-! ## The slot and the urgent marks -/

theorem SpaSched.hold_issue {Msg : Type*} (ctor : Msg → String) (s : SpaSched Msg Src)
    (hold : Bool) :
    (s.issue ctor hold).hold =
      if hold && s.hold.isNone then some (s.newJob ctor hold) else s.hold := by
  simp only [issue, tickNetBegin]
  split_ifs <;> rfl

theorem SpaSched.hold_settle {Msg : Type*} (s : SpaSched Msg Src) (j : SpaRpcJob) (msg : Msg) :
    (s.settle j msg).hold = if s.hold = some j then none else s.hold := by
  simp only [settle, tickNetEnd]
  split_ifs <;> simp_all

theorem SpaSched.queue_settle {Msg : Type*} (s : SpaSched Msg Src) (j : SpaRpcJob) (msg : Msg) :
    (s.settle j msg).queue =
      if s.hold = some j then { msg := msg, urgent := true } :: s.queue
      else s.queue ++ [{ msg := msg }] := by
  simp only [settle, tickNetEnd]
  split_ifs <;> simp_all

theorem SpaSched.queue_issue {Msg : Type*} (ctor : Msg → String) (s : SpaSched Msg Src)
    (hold : Bool) : (s.issue ctor hold).queue = s.queue := by
  simp only [issue, tickNetBegin]
  split_ifs <;> rfl

/-- Only `issue` and `settle` touch the slot. -/
theorem Call.hold_apply {Msg : Type*} (ctor : Msg → String) (s : SpaSched Msg Src)
    (c : Call Msg Src) (hi : ∀ hold, c ≠ .issue hold) (hs : ∀ j msg, c ≠ .settle j msg) :
    (c.apply ctor s).hold = s.hold := by
  cases c with
  | issue hold => exact (hi hold rfl).elim
  | settle j msg => exact (hs j msg rfl).elim
  | report j msg =>
      simp only [apply, SpaSched.report]
      split_ifs <;> rfl
  | _ => rfl

/-- A call queues a Msg as urgent exactly when its origin says so. -/
theorem Call.urgent_apply (s : SpaSched (Handed M) Src) (n : ℕ) (c : Call M Src)
    (h : ∀ q ∈ s.queue, q.urgent = q.msg.origin.aheadOfHold) :
    ∀ q ∈ ((c.stamped ctor s n).apply (ctor ·.msg) s).queue,
      q.urgent = q.msg.origin.aheadOfHold := by
  intro q hq
  cases c with
  | dispatch msg | dispatchTick msg ms =>
      simp only [stamped, apply, SpaSched.dispatch, SpaSched.dispatchTick, List.mem_append,
        List.mem_singleton] at hq
      rcases hq with hq | rfl
      · exact h q hq
      · rfl
  | dispatchFrom msg src =>
      simp only [stamped, apply, SpaSched.dispatchFrom, List.mem_append, List.mem_singleton] at hq
      rcases hq with hq | rfl
      · exact h q hq
      · rfl
  | dispatchFirst msgs =>
      simp only [stamped, apply, SpaSched.dispatchFirst, List.mem_append, List.mem_map] at hq
      rcases hq with ⟨_, ⟨_, _, rfl⟩, rfl⟩ | hq
      · rfl
      · exact h q hq
  | dispatchUrgent msg =>
      simp only [stamped, apply, SpaSched.dispatchUrgent, List.mem_append, List.mem_cons] at hq
      rcases hq with hq | rfl | hq
      · exact h q ((List.takeWhile_sublist _).subset hq)
      · rfl
      · exact h q ((List.dropWhile_sublist _).subset hq)
  | issue hold =>
      simp only [stamped, apply, SpaSched.queue_issue] at hq
      exact h q hq
  | settle j msg =>
      simp only [stamped, apply, SpaSched.queue_settle] at hq
      split_ifs at hq with hj
      · rcases List.mem_cons.mp hq with rfl | hq
        · simp [Origin.aheadOfHold, hj]
        · exact h q hq
      · rcases List.mem_append.mp hq with hq | hq
        · exact h q hq
        · simp_all [Origin.aheadOfHold]
  | report j msg =>
      simp only [stamped, apply, SpaSched.report] at hq
      split_ifs at hq with hj
      · rcases List.mem_cons.mp hq with rfl | hq
        · simp [Origin.aheadOfHold, hj]
        · exact h q hq
      · rcases List.mem_append.mp hq with hq | hq
        · exact h q hq
        · simp_all [Origin.aheadOfHold]

namespace Ledger

/-! ## The invariant -/

/-- When the held call settles, no other holding call is unsettled. -/
def SettlesAlone (L : Ledger M Src) : Event M Src → Prop
  | .call (.settle j _) =>
      L.machine.sched.hold = some j → ∀ i ∈ L.unsettled, i.hold = true → i.rid = j.rid
  | _ => True

/-- A free slot means that no holding call is unsettled, and the queue marks as
urgent what was handed in as urgent. -/
structure Held (L : Ledger M Src) : Prop where
  slot : L.machine.sched.hold = none → ∀ i ∈ L.unsettled, i.hold = false
  urgent : ∀ q ∈ L.machine.sched.queue, q.urgent = q.msg.origin.aheadOfHold

theorem Held.init (nonce : String) (holdFree : List (String × String)) :
    Held (Ledger.init nonce holdFree : Ledger M Src) :=
  ⟨fun _ _ hi => (List.not_mem_nil hi).elim, fun _ hq => (List.not_mem_nil hq).elim⟩

theorem Held.call {L L' : Ledger M Src} {c : Call M Src} (hL : Held L)
    (h : step ctor L (.call c) = some L') (hc : SettlesAlone L (.call c)) : Held L' := by
  obtain ⟨-, -, hu, hq, hh⟩ := step_call h
  refine ⟨?_, by rw [hq]; exact Call.urgent_apply _ _ c hL.urgent⟩
  rw [hh, hu]
  cases c with
  | issue hold =>
      intro hn i hi
      simp only [Call.stamped, Call.apply, SpaSched.hold_issue] at hn
      rcases List.mem_append.mp hi with hi | hi
      · refine hL.slot ?_ i hi
        split_ifs at hn
        exact hn
      · simp only [List.mem_singleton] at hi
        subst hi
        cases hold with
        | false => rfl
        | true =>
            split_ifs at hn with hnone
            simp [hn] at hnone
  | settle j msg =>
      intro hn i hi
      obtain ⟨hmem, hne⟩ := List.mem_filter.mp hi
      simp only [Call.stamped, Call.apply, SpaSched.hold_settle] at hn
      split_ifs at hn with hj
      · -- the slot is released: the condition leaves no other holding call
        by_contra hhold
        have hrid := hc hj i hmem (by simpa using hhold)
        simp [hrid] at hne
      · exact hL.slot hn i hmem
  | dispatch | dispatchFrom | dispatchFirst | dispatchTick | dispatchUrgent | report =>
      rw [Call.hold_apply _ _ _ (by simp [Call.stamped]) (by simp [Call.stamped])]
      exact hL.slot

theorem Held.step {L L' : Ledger M Src} {e : Event M Src} (hL : Held L)
    (h : step ctor L e = some L') (hc : SettlesAlone L e) : Held L' := by
  cases e with
  | call c => exact hL.call h hc
  | iterate =>
      obtain ⟨-, hu, hh, -, hq⟩ := step_iterate h
      refine ⟨?_, fun q hmem => hL.urgent q ?_⟩
      · rw [hh, hu]
        exact hL.slot
      · rw [hq]
        exact List.mem_append_right _ hmem
  | stepReturns | stepPanics =>
      simp only [Ledger.step, Option.map_eq_some_iff, Machine.step] at h
      obtain ⟨m, hm, rfl⟩ := h
      split at hm
      · cases hm
        exact ⟨hL.slot, hL.urgent⟩
      · cases hm

/-- `drain` starts a Msg that is not urgent only when the slot is free. -/
theorem hold_of_starts {L : Ledger M Src} {e : Event M Src} {q : SpaQueued (Handed M) Src}
    (h : L.starts e = some q) (hq : q.urgent = false) : L.machine.sched.hold = none := by
  cases e with
  | iterate =>
      simp only [starts] at h
      split_ifs at h
      unfold SpaSched.nextRun at h
      split at h
      · cases h
      · split_ifs at h with hblock
        cases h
        simpa [hq] using hblock
  | _ => cases h

end Ledger

/-! ## The contract of a hold -/

/-- In every run in which the held call always settles alone, no Msg that is not
urgent starts while a holding call is unsettled. -/
theorem sched_hold_blocks (ctor : M → String) (nonce : String) (holdFree : List (String × String))
    {es : List (Event M Src)} {L : Ledger M Src}
    (h : Run (fun a e b => Ledger.step ctor a e = some b ∧ a.SettlesAlone e)
      (.init nonce holdFree) es L) :
    ∀ e q, L.starts e = some q → q.msg.origin.aheadOfHold = false →
      ∀ i ∈ L.unsettled, i.hold = false := by
  have hL : L.Held := h.invariant (fun _ _ _ ha he => ha.step he.1 he.2) (.init nonce holdFree)
  intro e q hstart hurgent
  have hmem : q ∈ L.machine.sched.queue := by
    cases e with
    | iterate =>
        simp only [Ledger.starts] at hstart
        split_ifs at hstart
        rw [SpaSched.nextRun_eq_some hstart]
        exact List.mem_cons_self
    | _ => cases hstart
  exact hL.slot (Ledger.hold_of_starts hstart (by rw [hL.urgent q hmem, hurgent]))

/-- One holding call settles alone, and the edit that comes next finds the slot
free. -/
def oneHoldRun : List (Event String Unit) :=
  [.call (.dispatch "Save"), .iterate, .call (.issue true), .stepReturns, .iterate,
    .call (.settle ⟨true, "Save", "t-1", 0⟩ "Saved"), .iterate, .stepReturns, .iterate,
    .call (.dispatch "Edit")]

theorem sched_hold_blocks_oneHoldRun :
    ∃ L : Ledger String Unit, L.starts .iterate = some { msg := ⟨2, .dispatch, "Edit"⟩ } ∧
      ∀ i ∈ L.unsettled, i.hold = false := by
  have alone : ∀ i ∈ [(⟨true, "Save", "t-1", 0⟩ : SpaRpcJob)], i.hold = true → i.rid = "t-1" := by
    simp
  obtain ⟨L, hrun, hstart⟩ : ∃ L, Run (fun a e b => Ledger.step id a e = some b ∧ a.SettlesAlone e)
      (.init "t" []) oneHoldRun L ∧
      L.starts .iterate = some { msg := ⟨2, .dispatch, "Edit"⟩ } :=
    ⟨_, .cons ⟨rfl, trivial⟩ (.cons ⟨rfl, trivial⟩ (.cons ⟨rfl, trivial⟩ (.cons ⟨rfl, trivial⟩
      (.cons ⟨rfl, trivial⟩ (.cons ⟨rfl, fun _ => alone⟩ (.cons ⟨rfl, trivial⟩
      (.cons ⟨rfl, trivial⟩ (.cons ⟨rfl, trivial⟩ (.cons ⟨rfl, trivial⟩ (.nil _)))))))))), rfl⟩
  exact ⟨L, hstart, sched_hold_blocks id "t" [] hrun .iterate _ hstart rfl⟩

/-- Two holding calls issued by one step; the first settles, and an edit comes. -/
def twoHoldsRun : List (Event String Unit) :=
  [.call (.dispatch "Save"), .iterate, .call (.issue true), .call (.issue true), .stepReturns,
    .iterate, .call (.settle ⟨true, "Save", "t-1", 0⟩ "Saved"), .iterate, .stepReturns, .iterate,
    .call (.dispatch "Edit")]

/-- The edit starts although the second holding call has not settled. -/
theorem sched_second_hold_lost :
    ∃ L, Ledger.Reaches id (.init "t" []) twoHoldsRun L ∧
      (L.starts .iterate).map (·.msg.msg) = some "Edit" ∧
      (L.starts .iterate).map (·.msg.origin.aheadOfHold) = some false ∧
      L.unsettled = [⟨true, "Save", "t-2", 0⟩] :=
  ⟨_, Run.iff_foldlM.mpr rfl, rfl, rfl, rfl⟩

end Sky.Spa
