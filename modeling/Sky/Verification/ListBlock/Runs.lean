import Sky.Verification.ListBlock.Steps

/-! # Lists never change -/

namespace Sky.ListBlock

open Library

variable {α : Type*} {zero : α} {s s' t : State α}

/-- What a step does to the memory. -/
inductive State.Effect (s : State α) : List (Obj α) → Prop where
  | same : s.Effect s.heap
  | push (o : Obj α) : s.Effect (s.pushObj o).heap
  | write (op : Op α) (st : StateId) (hop : .write op st ∈ s.tasks) :
      s.Effect (s.writeCells op.ys.obj (op.ys.off - op.front.len) (s.frontContents op.front)).heap
  | free (i : ObjId) : s.Effect (s.heap.modify i fun x => { x with live := false })

theorem State.runStart_effect {i : TaskId} {op : Op α} {base : ℕ}
    (h : s.runStart zero i base op = some s') : s.Effect s'.heap ∧ s.built ⊆ s'.built := by
  unfold State.runStart at h
  simp only at h
  split at h
  · split at h
    · obtain ⟨_, rfl⟩ := State.alloc_map h
      exact ⟨.push _, List.subset_cons_self _ _⟩
    · obtain rfl := Option.some.inj h
      exact ⟨.same, List.Subset.refl _⟩
  · split at h
    · obtain ⟨_, rfl⟩ := State.alloc_map h
      exact ⟨.push _, List.subset_cons_self _ _⟩
    · split at h <;> obtain rfl := Option.some.inj h <;> exact ⟨.same, List.Subset.refl _⟩

theorem State.runCopy_effect {i : TaskId} {op : Op α} {base : ℕ}
    (h : s.runCopy zero i base op = some s') : s.Effect s'.heap ∧ s.built ⊆ s'.built := by
  unfold State.runCopy at h
  simp only at h
  split at h <;> obtain ⟨_, rfl⟩ := State.alloc_map h <;>
    exact ⟨.push _, List.subset_cons_self _ _⟩

theorem State.runLookup_effect (i : TaskId) (op : Op α) (way : ℕ) :
    s.Effect (s.runLookup i op way).heap ∧ s.built ⊆ (s.runLookup i op way).built := by
  unfold State.runLookup
  split
  · split <;> exact ⟨.same, List.Subset.refl _⟩
  · exact ⟨.same, List.Subset.refl _⟩

theorem State.runCheck_effect (i : TaskId) (op : Op α) (way : ℕ) (st : StateId) (b : BlockState) :
    s.Effect (s.runCheck i op way st b).heap ∧ s.built ⊆ (s.runCheck i op way st b).built := by
  unfold State.runCheck
  split
  · split
    · exact ⟨.same, List.Subset.refl _⟩
    · split <;> exact ⟨.same, List.Subset.refl _⟩
  · exact ⟨.same, List.Subset.refl _⟩

theorem State.runCas_effect (i : TaskId) (op : Op α) (st : StateId) (b : BlockState) :
    s.Effect (s.runCas i op st b).heap ∧ s.built ⊆ (s.runCas i op st b).built := by
  unfold State.runCas
  simp only
  split <;> exact ⟨.same, List.Subset.refl _⟩

theorem State.run_effect {i : TaskId} {base : ℕ} (h : s.run zero i base = some s') :
    s.Effect s'.heap ∧ s.built ⊆ s'.built := by
  unfold State.run at h
  split at h
  · cases h
  · cases h
  · exact State.runStart_effect h
  · next op way hi =>
      obtain rfl := Option.some.inj h
      exact State.runLookup_effect i op way
  · next op way st hi =>
      obtain ⟨b, _, rfl⟩ := Option.map_eq_some_iff.1 h
      exact State.runCheck_effect i op way st b
  · next op st hi =>
      obtain ⟨b, _, rfl⟩ := Option.map_eq_some_iff.1 h
      exact State.runCas_effect i op st b
  · next op st hi =>
      obtain rfl := Option.some.inj h
      exact ⟨.write op st (List.mem_of_getElem? hi), List.subset_cons_self _ _⟩
  · exact State.runCopy_effect h
  · split at h <;> obtain rfl := Option.some.inj h <;> exact ⟨.same, List.Subset.refl _⟩
  · split at h <;> obtain rfl := Option.some.inj h <;> exact ⟨.same, List.Subset.refl _⟩
  · split at h <;> obtain rfl := Option.some.inj h <;> exact ⟨.same, List.Subset.refl _⟩
  · split at h <;> obtain rfl := Option.some.inj h <;> exact ⟨.same, List.Subset.refl _⟩
  · obtain rfl := Option.some.inj h
    exact ⟨.same, List.Subset.refl _⟩
  · obtain rfl := Option.some.inj h
    exact ⟨.same, List.Subset.refl _⟩

theorem State.step_effect [DecidableEq α] {e : Event α} (h : s.step zero e = some s') :
    s.Effect s'.heap ∧ s.built ⊆ s'.built := by
  unfold State.step at h
  cases e with
  | run i base => exact State.run_effect h
  | call i op =>
      simp only at h
      split at h
      · split at h
        · obtain rfl := Option.some.inj h
          exact ⟨.same, List.Subset.refl _⟩
        · cases h
      · cases h
  | literal base elem vs =>
      simp only at h
      split at h
      · obtain ⟨_, rfl⟩ := State.alloc_map h
        exact ⟨.push _, List.subset_cons_self _ _⟩
      · cases h
  | nil elem =>
      obtain rfl := Option.some.inj h
      exact ⟨.same, List.subset_cons_self _ _⟩
  | slice xs i j k =>
      simp only at h
      split at h
      · obtain rfl := Option.some.inj h
        exact ⟨.same, List.subset_cons_self _ _⟩
      · cases h
  | drop xs =>
      obtain rfl := Option.some.inj h
      exact ⟨.same, List.Subset.refl _⟩
  | free i =>
      simp only at h
      split at h
      · obtain rfl := Option.some.inj h
        exact ⟨.free i, List.Subset.refl _⟩
      · cases h

/-- The lists that exist are still there, with their contents. -/
structure State.Keeps (s t : State α) : Prop where
  built : s.built ⊆ t.built
  read : ∀ xs ∈ s.built, t.read xs = s.read xs

theorem State.Keeps.refl (s : State α) : s.Keeps s := ⟨List.Subset.refl _, fun _ _ => rfl⟩

theorem State.Keeps.trans (h : s.Keeps s') (h' : s'.Keeps t) : s.Keeps t :=
  ⟨List.Subset.trans h.built h'.built, fun xs hxs => (h'.read xs (h.built hxs)).trans (h.read xs hxs)⟩

theorem State.read_of_heap {xs : Slice} (h : s'.heap = t.heap) : s'.read xs = t.read xs := by
  simp only [State.read, h]

theorem Inv.keeps [DecidableEq α] (h : Inv zero s) {e : Event α}
    (hstep : s.step zero e = some s') : s.Keeps s' := by
  obtain ⟨heffect, hbuilt⟩ := State.step_effect hstep
  refine ⟨hbuilt, ?_⟩
  intro xs hxs
  generalize hheap : s'.heap = heap at heffect
  cases heffect with
  | same => exact State.read_of_heap hheap
  | push o => exact (State.read_of_heap hheap).trans (State.read_pushObj (h.window xs hxs) o)
  | write op st hop =>
      obtain ⟨htyped, helig, b, hb, hown⟩ := h.sound _ hop
      obtain ⟨_, o, ho, _, hend⟩ := h.ys_obj htyped helig
      have hlength := htyped.length_front h
      have hslots := hown.slots
      refine (State.read_of_heap hheap).trans (State.read_writeCells ?_ ?_)
      · intro x hx
        obtain rfl : o = x := Option.some.inj (ho.symm.trans hx)
        omega
      · intro hobj
        have := hown.unseen xs hxs hobj
        omega
  | free i =>
      refine (State.read_of_heap (t := { s with heap := _ }) hheap).trans ?_
      exact State.read_free i xs

section

variable [DecidableEq α]

theorem inv_of_run {k : ℕ} {es : List (Event α)}
    (h : Run (fun a e b => State.step zero a e = some b) (State.init k) es s) : Inv zero s :=
  h.invariant (fun _ _ _ ha hstep => ha.step hstep) (inv_init zero k)

theorem Inv.keeps_run (h : Inv zero s) {es : List (Event α)}
    (hrun : Run (fun a e b => State.step zero a e = some b) s es t) : s.Keeps t := by
  have hboth : Inv zero t ∧ s.Keeps t := by
    refine hrun.invariant (P := fun u => Inv zero u ∧ s.Keeps u) ?_ ⟨h, .refl s⟩
    intro a e b ha hstep
    exact ⟨ha.1.step hstep, ha.2.trans (ha.1.keeps hstep)⟩
  exact hboth.2

/-- In every run of any number of tasks, every list that exists keeps its contents for ever, each
result of a cons or append is the list it stands for, and no slot of a block is taken twice. -/
theorem lists_never_change {k : ℕ} {es fs : List (Event α)}
    (hrun : Run (fun a e b => State.step zero a e = some b) (State.init k) es s)
    (hmore : Run (fun a e b => State.step zero a e = some b) s fs t) :
    (∀ xs ∈ s.built, xs ∈ t.built ∧ t.read xs = s.read xs) ∧
      (∀ p ∈ t.results, p.2 ∈ t.built ∧ (∀ xs ∈ p.1.slices, xs ∈ t.built) ∧
        t.read p.2 = t.contents p.1) ∧
      t.claims.Nodup := by
  have hinv : Inv zero t := inv_of_run (hrun.append hmore)
  have hkeeps : s.Keeps t := (inv_of_run hrun).keeps_run hmore
  refine ⟨?_, ?_, hinv.distinct⟩
  · intro xs hxs
    exact ⟨hkeeps.built hxs, hkeeps.read xs hxs⟩
  · intro p hp
    obtain ⟨htyped, hr, hread⟩ := hinv.results p hp
    exact ⟨hr, htyped.built, hread⟩

end

/-! Two tasks cons onto one list of a block: the second to swap copies. -/

/-- A list of 32 numbers on a block of 64 slots. -/
def onBlock : Slice := ⟨2, 32, 32, 32, 8⟩

def raceStart : List (Event ℕ) :=
  .literal 8 8 (List.range 31) :: .call 0 ⟨.value 100, ⟨1, 0, 31, 31, 8⟩⟩ ::
    List.replicate 8 (.run 0 1000)

def race : List (Event ℕ) :=
  [.call 0 ⟨.value 101, onBlock⟩, .call 1 ⟨.value 102, onBlock⟩, .run 0 0, .run 0 0, .run 0 0,
    .run 1 0, .run 1 0, .run 1 0, .run 1 0, .run 0 0, .run 0 5000, .run 1 0]

theorem race_keeps_onBlock :
    ((raceStart ++ race).foldlM (State.step 0) (State.init 2)).map (State.read · onBlock) =
        (raceStart.foldlM (State.step 0) (State.init 2)).map (State.read · onBlock) ∧
      ((raceStart ++ race).foldlM (State.step 0) (State.init 2)).map
        (fun s => s.states.map BlockState.frontier) = some [31, 33] := by
  have hfirst : (raceStart.foldlM (State.step 0) (State.init 2)).map State.built =
      some [onBlock, ⟨1, 0, 31, 31, 8⟩] := by decide +kernel
  have hlast : ((raceStart ++ race).foldlM (State.step 0) (State.init 2)).map
      (fun s => s.states.map BlockState.frontier) = some [31, 33] := by decide +kernel
  refine ⟨?_, hlast⟩
  obtain ⟨s, hs, hbuilt⟩ := Option.map_eq_some_iff.1 hfirst
  obtain ⟨t, ht, _⟩ := Option.map_eq_some_iff.1 hlast
  have hrace : race.foldlM (State.step 0) s = some t := by
    simpa [List.foldlM_append, hs] using ht
  have hkept := (lists_never_change (Run.iff_foldlM.2 hs) (Run.iff_foldlM.2 hrace)).1 onBlock
    (hbuilt ▸ List.mem_cons_self)
  rw [hs, ht]
  exact congrArg some hkept.2

end Sky.ListBlock
