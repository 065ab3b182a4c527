import Mathlib
import Sky.Library.Run
import Sky.Model.Scheduler

/-! # Every Msg runs once, and ordinary Msgs run in order

The scheduler never looks inside a Msg, except for its constructor name. The ledger runs it on Msgs
stamped at hand-in, and records what was handed in, what ran and which calls have not settled. The
line of a run is what has run followed by what waits. Every event extends it at one place, and an
ordinary Msg always at its end. -/

namespace Sky.Spa

open Sky.Library

/-! ## The ledger of a scheduler run -/

section

/-- How a Msg was handed in. -/
inductive Origin where
  | dispatch
  | tick
  | input (free : Bool)
  | followUp
  | urgent
  | result (held : Bool)
  | report (held : Bool)
  deriving DecidableEq

/-- A Msg that waits its turn: neither urgent nor hold-free nor a follow-up, and
not the answer of the held call. -/
def Origin.ordinary : Origin → Bool
  | dispatch | tick => true
  | input free => !free
  | result held | report held => !held
  | followUp | urgent => false

/-- A Msg that runs ahead of a hold. -/
def Origin.aheadOfHold : Origin → Bool
  | urgent => true
  | input free => free
  | result held | report held => held
  | dispatch | tick | followUp => false

/-- A Msg with the number of its hand-in and its origin. -/
structure Handed (M : Type*) where
  stamp : ℕ
  origin : Origin
  msg : M
  deriving DecidableEq

variable {M Src : Type*}

/-- The Msgs a call hands in, in order. -/
def Call.msgs {Msg : Type*} : Call Msg Src → List Msg
  | .dispatch msg | .dispatchFrom msg _ | .dispatchTick msg _ | .dispatchUrgent msg
  | .settle _ msg | .report _ msg => [msg]
  | .dispatchFirst msgs => msgs
  | .issue _ => []

/-- The same call on stamped Msgs, the first of them numbered `n`. -/
def Call.stamped (ctor : M → String) (s : SpaSched (Handed M) Src) (n : ℕ) :
    Call M Src → Call (Handed M) Src
  | .dispatch msg => .dispatch ⟨n, .dispatch, msg⟩
  | .dispatchFrom msg src =>
      .dispatchFrom ⟨n, .input (s.holdFreeNow (ctor ·.msg) ⟨n, .dispatch, msg⟩), msg⟩ src
  | .dispatchFirst msgs => .dispatchFirst ((msgs.zipIdx n).map fun p => ⟨p.2, .followUp, p.1⟩)
  | .dispatchTick msg ms => .dispatchTick ⟨n, .tick, msg⟩ ms
  | .dispatchUrgent msg => .dispatchUrgent ⟨n, .urgent, msg⟩
  | .issue hold => .issue hold
  | .settle j msg => .settle j ⟨n, .result (decide (s.hold = some j)), msg⟩
  | .report j msg => .report j ⟨n, .report (decide (s.hold = some j)), msg⟩

/-- A scheduler with its history. -/
structure Ledger (M Src : Type*) where
  machine : Machine (Handed M) Src
  handed : List (Handed M)
  ran : List (Handed M)
  unsettled : List SpaRpcJob

namespace Ledger

def init (nonce : String) (holdFree : List (String × String)) : Ledger M Src :=
  ⟨.init nonce holdFree, [], [], []⟩

/-- The stamped Msgs still in the queue. -/
def queued (L : Ledger M Src) : List (Handed M) := L.machine.sched.queue.map (·.msg)

/-- The calls issued and not settled after a method call. -/
def unsettledAfter (ctor : M → String) (L : Ledger M Src) : Call M Src → List SpaRpcJob
  | .issue hold => L.unsettled ++ [L.machine.sched.newJob (ctor ·.msg) hold]
  | .settle j _ => L.unsettled.filter (fun i => i.rid != j.rid)
  | _ => L.unsettled

/-- The Msg an event starts, if it starts one. -/
def starts (L : Ledger M Src) : Event M Src → Option (SpaQueued (Handed M) Src)
  | .iterate => if L.machine.phase = .loop then L.machine.sched.nextRun else none
  | _ => none

/-- One event of the scheduler, entered in the ledger. -/
def step (ctor : M → String) (L : Ledger M Src) (e : Event M Src) : Option (Ledger M Src) :=
  match e with
  | .call c =>
      let c' := c.stamped ctor L.machine.sched L.handed.length
      (L.machine.step (ctor ·.msg) (.call c')).map fun m =>
        ⟨m, L.handed ++ c'.msgs, L.ran, L.unsettledAfter ctor c⟩
  | .iterate =>
      (L.machine.step (ctor ·.msg) .iterate).map fun m =>
        { L with machine := m, ran := L.ran ++ ((L.starts e).map (·.msg)).toList }
  | .stepReturns => (L.machine.step (ctor ·.msg) .stepReturns).map fun m => { L with machine := m }
  | .stepPanics => (L.machine.step (ctor ·.msg) .stepPanics).map fun m => { L with machine := m }

/-- `L` is reached from `L₀` through the events `es`. -/
abbrev Reaches (ctor : M → String) (L₀ : Ledger M Src) (es : List (Event M Src))
    (L : Ledger M Src) : Prop :=
  Run (fun a e b => step ctor a e = some b) L₀ es L

end Ledger

/-! ## What a call does to the queue -/

/-- A call that hands its Msgs in behind everything that waits. -/
def Call.atBack {Msg : Type*} (s : SpaSched Msg Src) : Call Msg Src → Bool
  | .dispatchFirst _ | .dispatchUrgent _ => false
  | .settle j _ | .report j _ => decide (s.hold ≠ some j)
  | _ => true

/-- A call inserts its Msgs at one place of the queue. -/
theorem Call.apply_queue {Msg : Type*} (ctor : Msg → String) (s : SpaSched Msg Src)
    (c : Call Msg Src) :
    ∃ front back, s.queue.map (·.msg) = front ++ back ∧
      (c.apply ctor s).queue.map (·.msg) = front ++ c.msgs ++ back ∧
      (c.atBack s = true → back = []) := by
  cases c with
  | dispatch msg =>
      exact ⟨_, [], (List.append_nil _).symm, by simp [apply, SpaSched.dispatch, msgs],
        fun _ => rfl⟩
  | dispatchFrom msg src =>
      exact ⟨_, [], (List.append_nil _).symm, by simp [apply, SpaSched.dispatchFrom, msgs],
        fun _ => rfl⟩
  | dispatchFirst ms =>
      refine ⟨[], _, rfl, ?_, by simp [atBack]⟩
      simp [apply, SpaSched.dispatchFirst, msgs, Function.comp_def]
  | dispatchTick msg ms =>
      exact ⟨_, [], (List.append_nil _).symm, by simp [apply, SpaSched.dispatchTick, msgs],
        fun _ => rfl⟩
  | dispatchUrgent msg =>
      refine ⟨(s.queue.takeWhile (·.urgent)).map (·.msg),
        (s.queue.dropWhile (·.urgent)).map (·.msg),
        ?_, by simp [apply, SpaSched.dispatchUrgent, msgs], by simp [atBack]⟩
      rw [← List.map_append, List.takeWhile_append_dropWhile]
  | issue hold =>
      refine ⟨_, [], (List.append_nil _).symm, ?_, fun _ => rfl⟩
      simp only [apply, SpaSched.issue, SpaSched.tickNetBegin, msgs]
      split_ifs <;> simp
  | settle j msg =>
      by_cases h : s.hold = some j
      · refine ⟨[], _, rfl, ?_, by simp [atBack, h]⟩
        simp only [apply, SpaSched.settle, SpaSched.tickNetEnd, msgs]
        split_ifs <;> simp_all
      · refine ⟨_, [], (List.append_nil _).symm, ?_, fun _ => rfl⟩
        simp only [apply, SpaSched.settle, SpaSched.tickNetEnd, msgs]
        split_ifs <;> simp_all
  | report j msg =>
      by_cases h : s.hold = some j
      · exact ⟨[], _, rfl, by simp [apply, SpaSched.report, msgs, h], by simp [atBack, h]⟩
      · exact ⟨_, [], (List.append_nil _).symm, by simp [apply, SpaSched.report, msgs, h],
          fun _ => rfl⟩

end

/-! ## The line of a run -/

variable {M Src : Type*} {ctor : M → String}

/-! ## The head of the queue -/

theorem SpaSched.nextRun_eq_some {Msg : Type*} {s : SpaSched Msg Src} {q : SpaQueued Msg Src}
    (h : s.nextRun = some q) : s.queue = q :: s.queue.tail := by
  unfold SpaSched.nextRun at h
  split at h
  · cases h
  · rename_i x tail hq
    split_ifs at h
    cases h
    rw [hq, List.tail_cons]

/-! ## Stamped calls -/

theorem Call.stamped_stamps (s : SpaSched (Handed M) Src) (n : ℕ) (c : Call M Src) :
    (c.stamped ctor s n).msgs.map Handed.stamp =
      List.range' n (c.stamped ctor s n).msgs.length := by
  cases c with
  | dispatchFirst msgs =>
      have h : ((msgs.zipIdx n).map fun p => (⟨p.2, .followUp, p.1⟩ : Handed M)).map Handed.stamp =
          (msgs.zipIdx n).map Prod.snd := by simp [Function.comp_def]
      simp only [stamped, Call.msgs, h, List.length_map, List.length_zipIdx]
      exact List.zipIdx_map_snd n msgs
  | _ => simp [stamped, Call.msgs]

/-- An ordinary Msg is handed in behind everything that waits. -/
theorem Call.stamped_atBack (s : SpaSched (Handed M) Src) (n : ℕ) (c : Call M Src)
    {m : Handed M} (hm : m ∈ (c.stamped ctor s n).msgs) (ho : m.origin.ordinary = true) :
    (c.stamped ctor s n).atBack s = true := by
  cases c with
  | dispatchFirst msgs =>
      simp only [stamped, Call.msgs, List.mem_map] at hm
      obtain ⟨p, _, rfl⟩ := hm
      simp [Origin.ordinary] at ho
  | dispatchUrgent msg =>
      simp only [stamped, Call.msgs, List.mem_singleton] at hm
      subst hm
      simp [Origin.ordinary] at ho
  | settle j msg | report j msg =>
      simp only [stamped, Call.msgs, List.mem_singleton] at hm
      subst hm
      simpa [Origin.ordinary, stamped, atBack] using ho
  | _ => rfl

namespace Ledger

/-! ## What one event does to the line -/

/-- What has run, followed by what waits. -/
def line (L : Ledger M Src) : List (Handed M) := L.ran ++ L.queued

/-- `L'` extends the line of `L` by the Msgs `new`, behind `front` and before
`back`. -/
structure Extends (L L' : Ledger M Src) (front new back : List (Handed M)) : Prop where
  queued : L.queued = front ++ back
  line : L'.line = L.ran ++ (front ++ new ++ back)
  handed : L'.handed = L.handed ++ new
  ran : L.ran <+: L'.ran
  stamps : new.map Handed.stamp = List.range' L.handed.length new.length
  ordinary : ∀ m ∈ new, m.origin.ordinary = true → back = []

/-- A call leaves what ran alone and acts on the queue only. -/
theorem step_call {L L' : Ledger M Src} {c : Call M Src} (h : step ctor L (.call c) = some L') :
    L'.handed = L.handed ++ (c.stamped ctor L.machine.sched L.handed.length).msgs ∧
      L'.ran = L.ran ∧ L'.unsettled = L.unsettledAfter ctor c ∧
      L'.machine.sched.queue = ((c.stamped ctor L.machine.sched L.handed.length).apply
        (ctor ·.msg) L.machine.sched).queue ∧
      L'.machine.sched.hold = ((c.stamped ctor L.machine.sched L.handed.length).apply
        (ctor ·.msg) L.machine.sched).hold := by
  simp only [step, Option.map_eq_some_iff] at h
  obtain ⟨m, hm, rfl⟩ := h
  refine ⟨rfl, rfl, rfl, ?_⟩
  simp only [Machine.step] at hm
  split at hm
  · cases hm
  · cases hm
    exact ⟨rfl, rfl⟩
  · split at hm <;> cases hm <;> exact ⟨rfl, rfl⟩

/-- An iteration that starts a Msg takes it from the head of the queue. -/
theorem step_iterate {L L' : Ledger M Src} (h : step ctor L .iterate = some L') :
    L'.handed = L.handed ∧ L'.unsettled = L.unsettled ∧
      L'.machine.sched.hold = L.machine.sched.hold ∧
      L'.ran = L.ran ++ ((L.starts .iterate).map (·.msg)).toList ∧
      L.machine.sched.queue = (L.starts .iterate).toList ++ L'.machine.sched.queue := by
  simp only [step, Option.map_eq_some_iff] at h
  obtain ⟨m, hm, rfl⟩ := h
  simp only [Machine.step] at hm
  cases hp : L.machine.phase with
  | idle => simp [hp] at hm
  | step => simp [hp] at hm
  | loop =>
      have hs : L.starts .iterate = L.machine.sched.nextRun := by simp [starts, hp]
      rw [hp] at hm
      cases hq : L.machine.sched.nextRun with
      | none =>
          simp only [hq, Option.some.injEq] at hm
          subst hm
          simp [hs, hq]
      | some q =>
          simp only [hq, Option.some.injEq] at hm
          subst hm
          refine ⟨rfl, rfl, rfl, rfl, ?_⟩
          rw [hs, hq]
          exact SpaSched.nextRun_eq_some hq

theorem step_extends {L L' : Ledger M Src} {e : Event M Src} (h : step ctor L e = some L') :
    ∃ front new back, Extends L L' front new back := by
  cases e with
  | call c =>
      obtain ⟨hh, hr, -, hq, -⟩ := step_call h
      obtain ⟨front, back, hb, ha, hl⟩ := Call.apply_queue (ctor ·.msg) L.machine.sched
        (c.stamped ctor L.machine.sched L.handed.length)
      refine ⟨front, _, back, ⟨hb, ?_, hh, ?_, Call.stamped_stamps _ _ c, ?_⟩⟩
      · rw [Ledger.line, hr, Ledger.queued, hq, ha]
      · exact hr ▸ List.prefix_rfl
      · intro m hm ho
        exact hl (Call.stamped_atBack _ _ c hm ho)
  | iterate =>
      obtain ⟨hh, -, -, hr, hq⟩ := step_iterate h
      refine ⟨L.queued, [], [], ⟨by simp, ?_, by simpa using hh, ?_, rfl, by simp⟩⟩
      · rw [Ledger.line, hr, Ledger.queued, Ledger.queued, hq]
        cases L.starts .iterate <;> simp
      · rw [hr]
        exact List.prefix_append _ _
  | stepReturns | stepPanics =>
      simp only [step, Option.map_eq_some_iff, Machine.step] at h
      obtain ⟨m, hm, rfl⟩ := h
      split at hm
      · cases hm
        exact ⟨L.queued, [], [], ⟨by simp, by simp [Ledger.line, Ledger.queued], by simp,
          List.prefix_rfl, rfl, by simp⟩⟩
      · cases hm

/-! ## Runs -/

/-- The line holds exactly the Msgs handed in, and its ordinary Msgs stand in the
order of their hand-in. -/
structure Orderly (L : Ledger M Src) : Prop where
  perm : L.line.Perm L.handed
  stamps : L.handed.map Handed.stamp = List.range L.handed.length
  ordinary : L.line.filter (·.origin.ordinary) = L.handed.filter (·.origin.ordinary)

theorem Orderly.init (nonce : String) (holdFree : List (String × String)) :
    Orderly (Ledger.init nonce holdFree : Ledger M Src) :=
  ⟨List.Perm.refl _, rfl, rfl⟩

theorem Orderly.step {L L' : Ledger M Src} (hL : Orderly L) {front new back : List (Handed M)}
    (h : Extends L L' front new back) : Orderly L' := by
  have hline : L.line = L.ran ++ (front ++ back) := by rw [Ledger.line, h.queued]
  refine ⟨?_, ?_, ?_⟩
  · have hp : (L.ran ++ (front ++ new ++ back)).Perm (L.ran ++ (front ++ back) ++ new) := by
      simp only [List.append_assoc]
      have hswap : (new ++ back).Perm (back ++ new) := List.perm_append_comm
      exact (hswap.append_left front).append_left L.ran
    rw [h.line, h.handed]
    exact hp.trans (by simpa only [← hline] using hL.perm.append_right new)
  · rw [h.handed, List.map_append, hL.stamps, h.stamps, List.length_append, List.range_eq_range',
      List.range_eq_range', ← List.range'_append_1, Nat.zero_add]
  · rw [h.line, h.handed, List.filter_append L.handed, ← hL.ordinary, hline]
    by_cases hb : back = []
    · simp [hb]
    · have hnew : new.filter (·.origin.ordinary) = [] := by
        refine List.filter_eq_nil_iff.mpr ?_
        intro m hm ho
        exact hb (h.ordinary m hm ho)
      simp [hnew]

theorem Orderly.reaches {L L' : Ledger M Src} {es : List (Event M Src)} (hL : Orderly L)
    (h : Reaches ctor L es L') : Orderly L' :=
  h.invariant (fun _ _ _ ha he => by
    obtain ⟨_, _, _, hx⟩ := step_extends he
    exact ha.step hx) hL

theorem Orderly.nodup {L : Ledger M Src} (hL : Orderly L) : L.line.Nodup := by
  have h : L.handed.Nodup :=
    List.Nodup.of_map Handed.stamp (by rw [hL.stamps]; exact List.nodup_range)
  exact hL.perm.nodup_iff.mpr h

/-- Later events keep the relative order of the line, and what has run. -/
theorem Reaches.line_sublist {L L' : Ledger M Src} {es : List (Event M Src)}
    (h : Reaches ctor L es L') : L.line.Sublist L'.line ∧ L.ran <+: L'.ran := by
  refine Run.relates (R := fun A B : Ledger M Src => A.line.Sublist B.line ∧ A.ran <+: B.ran)
    (fun _ => ⟨.refl _, List.prefix_rfl⟩)
    (fun _ _ _ hab hbc => ⟨hab.1.trans hbc.1, hab.2.trans hbc.2⟩) ?_ h
  intro A e B he
  obtain ⟨front, new, back, hx⟩ := step_extends he
  refine ⟨?_, hx.ran⟩
  rw [hx.line, Ledger.line, hx.queued]
  exact ((List.sublist_append_left front new).append (.refl back)).append_left A.ran

/-- Follow-ups go to the head of the line. -/
theorem step_dispatchFirst {L L' : Ledger M Src} {msgs : List M}
    (h : step ctor L (.call (.dispatchFirst msgs)) = some L') :
    ∃ new, L'.handed = L.handed ++ new ∧ new.map Handed.msg = msgs ∧
      L'.line = L.ran ++ (new ++ L.queued) := by
  obtain ⟨hh, hr, -, hq, -⟩ := step_call h
  refine ⟨_, hh, by simp [Call.stamped, Call.msgs, Function.comp_def], ?_⟩
  rw [line, hr, queued, hq]
  simp [queued, Call.stamped, Call.apply, SpaSched.dispatchFirst, Call.msgs, Function.comp_def]

/-- A pair that stands in the line in this order ran in this order, once its
second Msg has run. -/
theorem pair_ran {L : Ledger M Src} (hL : L.line.Nodup) {f o : Handed M}
    (h : [f, o].Sublist L.line) (ho : o ∈ L.ran) : [f, o].Sublist L.ran := by
  obtain ⟨front, back, hsplit, hf, hb⟩ := List.sublist_append_iff.mp h
  have hnot : o ∉ L.queued := fun hq => List.disjoint_of_nodup_append hL ho hq
  cases back using List.reverseRecOn with
  | nil => simpa [hsplit] using hf
  | append_singleton back last =>
      have hlast : o = last := by
        have := congrArg List.getLast? hsplit
        simpa using this
      subst hlast
      exact (hnot (hb.subset (by simp))).elim

end Ledger

/-! ## The contract of the scheduler -/

/-- In every run each Msg handed in has run once or still waits, ordinary Msgs
run in the order of their hand-in, and a follow-up runs before every ordinary Msg
that waited when it was handed in. -/
theorem sched_runs_once_in_order (ctor : M → String) (nonce : String)
    (holdFree : List (String × String)) {es : List (Event M Src)} {L : Ledger M Src}
    (h : Ledger.Reaches ctor (.init nonce holdFree) es L) :
    (L.ran ++ L.queued).Perm L.handed ∧ (L.ran ++ L.queued).Nodup ∧
      (L.ran ++ L.queued).filter (·.origin.ordinary) = L.handed.filter (·.origin.ordinary) ∧
      ∀ msgs L' es' L'', L.step ctor (.call (.dispatchFirst msgs)) = some L' →
        Ledger.Reaches ctor L' es' L'' →
        ∃ new, L'.handed = L.handed ++ new ∧ new.map Handed.msg = msgs ∧
          ∀ f ∈ new, ∀ o ∈ L.queued, o ∈ L''.ran → [f, o].Sublist L''.ran := by
  have hL := (Ledger.Orderly.init nonce holdFree).reaches h
  refine ⟨hL.perm, hL.nodup, hL.ordinary, ?_⟩
  intro msgs L' es' L'' hfirst hlater
  obtain ⟨new, hh, hm, hline⟩ := Ledger.step_dispatchFirst hfirst
  refine ⟨new, hh, hm, ?_⟩
  intro f hf o ho hran
  have hL'' : L''.Orderly := hL.reaches ((Run.nil L).snoc hfirst |>.append hlater)
  have hpair : [f, o].Sublist L'.line := by
    rw [hline]
    have hsub : ([f] ++ [o]).Sublist (new ++ L.queued) :=
      (List.singleton_sublist.mpr hf).append (List.singleton_sublist.mpr ho)
    exact hsub.trans (List.sublist_append_right _ _)
  exact Ledger.pair_ran hL''.nodup (hpair.trans hlater.line_sublist.1) hran

/-- An ordinary Msg, counting the answer of every settled call as one. -/
def Origin.inTurn : Origin → Bool
  | .dispatch | .tick | .result _ => true
  | .input free => !free
  | _ => false

/-- A hold call is issued, an edit waits behind it, and the call settles. -/
def settledHoldRun : List (Event String Unit) :=
  [.call (.dispatch "Save"), .iterate, .call (.issue true), .stepReturns, .iterate,
    .call (.dispatch "Edit"), .iterate, .call (.settle ⟨true, "Save", "t-1", 0⟩ "Saved"),
    .iterate, .stepReturns, .iterate]

theorem sched_runs_once_in_order_settledHoldRun :
    ∃ L, Ledger.Reaches id (.init "t" []) settledHoldRun L ∧ L.ran.map Handed.stamp = [0, 2, 1] ∧
      (L.ran ++ L.queued).Perm L.handed :=
  ⟨_, Run.iff_foldlM.mpr rfl, rfl,
    (sched_runs_once_in_order id "t" [] (Run.iff_foldlM.mpr rfl : Ledger.Reaches id (.init "t" [])
      settledHoldRun _)).1⟩

/-- The answers of all settled calls do not keep their turn: the held call's
answer, handed in after the edit, runs before it. -/
theorem sched_held_result_overtakes :
    ∃ L, Ledger.Reaches id (.init "t" []) settledHoldRun L ∧
      L.handed.map Handed.msg = ["Save", "Edit", "Saved"] ∧
      L.ran.map Handed.msg = ["Save", "Saved", "Edit"] ∧
      (L.ran ++ L.queued).filter (·.origin.inTurn) ≠ L.handed.filter (·.origin.inTurn) :=
  ⟨_, Run.iff_foldlM.mpr rfl, rfl, rfl, by decide⟩

end Sky.Spa
