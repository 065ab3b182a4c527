import Sky.Verification.ListBlock.Primitives

/-! # What each step keeps -/

namespace Sky.ListBlock

open Library

variable {α : Type*} {zero : α} {s s' : State α}

/-! ## Lists -/

theorem State.length_read {xs : Slice} (h : s.Window xs) : (s.read xs).length = xs.len := by
  obtain ⟨o, ho, hcap, hend, _⟩ := h
  simp only [State.read, ho, List.length_take, List.length_drop]
  omega

theorem State.read_of_len {xs : Slice} (h : xs.len = 0) : s.read xs = [] := by
  unfold State.read
  split <;> simp [h]

theorem Inv.read_nil (h : Inv zero s) {xs : Slice} (hobj : xs.obj = nilObj) : s.read xs = [] := by
  obtain ⟨o, ho, hcells, _⟩ := h.empty
  simp [State.read, hobj, ho, hcells]

theorem Op.Typed.length_front {op : Op α} (h : Inv zero s) (hop : op.Typed zero s.built) :
    (s.frontContents op.front).length = op.front.len := by
  cases hf : op.front with
  | value x => rfl
  | list xs => exact State.length_read (hop.window h (Op.front_mem_slices hf))

theorem Op.Typed.length_contents {op : Op α} (h : Inv zero s) (hop : op.Typed zero s.built) :
    (s.contents op).length = op.front.len + op.ys.len := by
  rw [State.contents, List.length_append, hop.length_front h,
    State.length_read (hop.window h op.ys_mem_slices)]

theorem State.frontContents_of_len {op : Op α} (h : op.front.len = 0) :
    s.frontContents op.front = [] := by
  cases hf : op.front with
  | value x => simp [hf, Front.len] at h
  | list xs => exact State.read_of_len (by simpa [hf, Front.len] using h)

/-- Lists of no size hold the zero value. -/
theorem Op.Typed.contents_zero {op : Op α} (h : Inv zero s) (hop : op.Typed zero s.built)
    (helem : op.ys.elem = 0) : s.contents op = List.replicate (op.front.len + op.ys.len) zero := by
  have hlist : ∀ xs ∈ op.slices, ∀ v ∈ s.read xs, v = zero := by
    intro xs hxs v hv
    obtain ⟨o, ho, _, _, hsize⟩ := hop.window h hxs
    simp only [State.read, ho] at hv
    have hpos : 0 < xs.len := by
      by_contra hlen
      rw [Nat.eq_zero_of_not_pos hlen] at hv
      simp at hv
    have hzero : o.size = 0 := (hsize hpos).trans ((hop.elem xs hxs).trans helem)
    exact h.sized o (List.mem_of_getElem? ho) hzero v (List.mem_of_mem_drop (List.mem_of_mem_take hv))
  refine List.eq_replicate_iff.2 ⟨hop.length_contents h, ?_⟩
  intro v hv
  rcases List.mem_append.1 hv with hfront | hys
  · cases hf : op.front with
    | value x =>
        rw [hf] at hfront
        exact (List.mem_singleton.1 hfront).trans (hop.sized helem x hf)
    | list xs =>
        rw [hf] at hfront
        exact hlist xs (Op.front_mem_slices hf) v hfront
  · exact hlist op.ys op.ys_mem_slices v hys

/-! ## Returning -/

theorem State.alloc_map {f : State α → State α} {base size : ℕ} {cells : List α}
    (h : (s.alloc base size cells).map f = some s') :
    s.Free ⟨base, size, cells, true⟩ ∧ f (s.pushObj ⟨base, size, cells, true⟩) = s' := by
  obtain ⟨t, ht, hf⟩ := Option.map_eq_some_iff.1 h
  unfold State.alloc at ht
  simp only at ht
  split at ht
  · next hfree =>
      obtain rfl := Option.some.inj ht
      exact ⟨hfree, hf⟩
  · cases ht

theorem State.Window.obj_lt {xs : Slice} (h : s.Window xs) : xs.obj < s.heap.length := by
  obtain ⟨o, ho, _⟩ := h
  exact (List.getElem?_eq_some_iff.1 ho).1

theorem State.Describes.slot0_lt {b : BlockState} (h : s.Describes b) :
    b.slot0 < s.heap.length := by
  obtain ⟨_, o, ho, _⟩ := h
  exact (List.getElem?_eq_some_iff.1 ho).1

theorem State.pushObj_getElem?_new (o : Obj α) : (s.pushObj o).heap[s.heap.length]? = some o := by
  simp [State.pushObj]

/-- A list on an array that no other list is on. -/
theorem Inv.build_new (h : Inv zero s) {r : Slice} (hwindow : s.Window r)
    (hnew : ∀ xs ∈ s.built, xs.obj ≠ r.obj)
    (habove : ∀ b ∈ s.states, r.obj = b.slot0 → b.frontier ≤ r.off) : Inv zero (s.build r) := by
  refine h.build hwindow habove ?_
  intro op st hop hobj
  have hys : op.ys ∈ s.built := (h.sound _ hop).1.built _ op.ys_mem_slices
  exact absurd hobj.symm (hnew _ hys)

theorem Inv.finish (h : Inv zero s) {r : Slice} (hr : r ∈ s.built) (halive : s.Alive r.obj)
    (i : TaskId) : Inv zero (s.finish i r) :=
  (h.hold hr halive).setTask trivial (by simp [Pc.slices]) (.of_none rfl)

/-- The result of an operation, on fresh memory. -/
theorem Inv.finish_new (h : Inv zero s) {op : Op α} (hop : op.Typed zero s.built) {r : Slice}
    {o : Obj α} (hfree : s.Free o) (hlive : o.live = true) (hobj : r.obj = s.heap.length)
    (hin : r.InObj o) (hsized : o.size = 0 → ∀ v ∈ o.cells, v = zero)
    (hread : (o.cells.drop r.off).take r.len = s.contents op) (i : TaskId) :
    Inv zero ((((s.pushObj o).build r).record op r).finish i r) := by
  have hpush : Inv zero (s.pushObj o) := h.pushObj hfree hsized
  have hat : (s.pushObj o).heap[r.obj]? = some o := hobj ▸ State.pushObj_getElem?_new o
  have hbuild : Inv zero ((s.pushObj o).build r) := by
    refine hpush.build_new ⟨o, hat, hin⟩ ?_ ?_
    · intro xs hxs
      exact hobj ▸ (h.window xs hxs).obj_lt.ne
    · intro b hb hslot
      exact absurd (hslot.symm.trans hobj) (h.describes b hb).slot0_lt.ne
  have hmem : r ∈ ((s.pushObj o).build r).built := List.mem_cons_self
  have hresult : ((s.pushObj o).build r).read r = ((s.pushObj o).build r).contents op := by
    calc ((s.pushObj o).build r).read r = (o.cells.drop r.off).take r.len := by
          simp only [State.read, State.build, hat]
      _ = s.contents op := hread
      _ = ((s.pushObj o).build r).contents op :=
          (State.contents_congr fun xs hxs => State.read_pushObj (hop.window h hxs) o).symm
  exact (hbuild.record (hop.mono (List.subset_cons_self _ _)) hmem hresult).finish hmem
    ⟨o, hat, hlive⟩ i

/-! ## The fast returns -/

theorem Inv.runStart (h : Inv zero s) {i : TaskId} {op : Op α} {base : ℕ}
    (hi : s.tasks[i]? = some (.start op)) (hstep : s.runStart zero i base op = some s') :
    Inv zero s' := by
  have hop : op.Typed zero s.built := h.sound _ (List.mem_of_getElem? hi)
  have hroot : ∀ xs ∈ op.slices, s.Alive xs.obj := fun xs hxs =>
    (h.rooted xs (Pc.mem_slices_roots (List.mem_of_getElem? hi) hxs)).2
  unfold State.runStart at hstep
  simp only at hstep
  split at hstep
  · next hm =>
      have hcontents : s.contents op = s.read op.ys := by
        rw [State.contents, State.frontContents_of_len hm, List.nil_append]
      split at hstep
      · next hnil =>
          obtain ⟨hfree, rfl⟩ := State.alloc_map hstep
          refine h.finish_new hop hfree rfl rfl ⟨le_rfl, le_rfl, fun hpos => absurd hpos (by simp)⟩
            (by simp) ?_ i
          rw [hcontents, h.read_nil hnil]
          rfl
      · obtain rfl := Option.some.inj hstep
        have hys : op.ys ∈ s.built := hop.built _ op.ys_mem_slices
        exact (h.record hop hys hcontents.symm).finish hys (hroot _ op.ys_mem_slices) i
  · next hm =>
      split at hstep
      · next helem =>
          obtain ⟨hfree, rfl⟩ := State.alloc_map hstep
          refine h.finish_new hop hfree rfl rfl ⟨le_rfl, by simp, fun _ => rfl⟩ ?_ ?_ i
          · intro _ v hv
            exact List.eq_of_mem_replicate hv
          · rw [hop.contents_zero h helem]
            simp
      · next helem =>
          have hfront : 0 < op.front.len := Nat.pos_of_ne_zero hm
          have hsize : 0 < op.ys.elem := Nat.pos_of_ne_zero helem
          split at hstep
          · next hlong =>
              obtain rfl := Option.some.inj hstep
              have helig : op.Eligible := by
                refine ⟨hsize, hfront, ?_, hlong.2⟩
                have := hlong.1
                unfold blockMinCap at this
                omega
              exact h.advance hi (List.Subset.refl _) ⟨hop, helig⟩ rfl
          · obtain rfl := Option.some.inj hstep
            exact h.advance hi (List.Subset.refl _) ⟨hop, hfront, hsize⟩ rfl

/-! ## Finding the block -/

theorem Inv.runLookup (h : Inv zero s) {i : TaskId} {op : Op α} {way : ℕ}
    (hi : s.tasks[i]? = some (.lookup op way)) : Inv zero (s.runLookup i op way) := by
  have hsound : op.Typed zero s.built ∧ op.Eligible := h.sound _ (List.mem_of_getElem? hi)
  unfold State.runLookup
  split
  · split
    · exact h.advance hi (List.Subset.refl _) hsound rfl
    · exact h.advance hi (List.Subset.refl _) hsound rfl
  · exact h.advance hi (List.Subset.refl _) ⟨hsound.1, hsound.2.front, hsound.2.elem⟩ rfl

/-- An element of an array lies in the array's memory. -/
theorem Obj.element_lt (o : Obj α) {k : ℕ} (hsize : 0 < o.size) (hk : k < o.cells.length) :
    k * o.size < o.extent := by
  rw [Obj.extent, Nat.mul_comm]
  exact Nat.mul_lt_mul_of_pos_left hk hsize

/-- Two live arrays with one element address are the same. -/
theorem Inv.same_obj (h : Inv zero s) {i j : ObjId} {o o' : Obj α} (hi : s.heap[i]? = some o)
    (hj : s.heap[j]? = some o') (hlive : o.live = true) (hlive' : o'.live = true) {k l : ℕ}
    (hsize : 0 < o.size) (hsize' : 0 < o'.size) (hk : k < o.cells.length)
    (hl : l < o'.cells.length) (haddr : o.base + k * o.size = o'.base + l * o'.size) : i = j := by
  by_contra hne
  have hapart := h.apart i j o o' hi hj hlive hlive' hne
  have hin := o.element_lt hsize hk
  have hin' := o'.element_lt hsize' hl
  unfold Obj.Apart at hapart
  omega

/-- A live state whose block ends at the list's last element is of the list's own array. -/
theorem Inv.endsOn (h : Inv zero s) {op : Op α} (hop : op.Typed zero s.built) (helig : op.Eligible)
    (halive : s.Alive op.ys.obj) {b : BlockState} (hb : b ∈ s.states)
    (helem : b.elemSize = op.ys.elem) {p : ℕ} (hp : s.weakValue b = some p)
    (hend : p + (b.cap - 1) * op.ys.elem = s.lastAddr op.ys) : op.EndsOn b := by
  obtain ⟨o, ho, holive⟩ := halive
  obtain ⟨o₁, ho₁, _, hwindow, hsize⟩ := hop.window h op.ys_mem_slices
  obtain rfl : o = o₁ := Option.some.inj (ho.symm.trans ho₁)
  obtain ⟨hcap, o', ho', hlength', hsize'⟩ := h.describes b hb
  have hosize : o.size = op.ys.elem := hsize helig.long
  have hosize' : o'.size = op.ys.elem := hsize'.trans helem
  have hlive' : o'.live = true ∧ o'.base = p := by
    simp only [State.weakValue, ho'] at hp
    split at hp
    · next hl => exact ⟨hl, by simpa using hp⟩
    · cases hp
  have haddr : o'.base + (b.cap - 1) * o'.size = o.base + (op.ys.off + op.ys.len - 1) * o.size := by
    rw [hosize, hosize', hlive'.2, hend]
    simp [State.lastAddr, ho]
  have hlong := helig.long
  have hfull := helig.full
  have hsame : b.slot0 = op.ys.obj :=
    h.same_obj ho' ho hlive'.1 holive (hosize' ▸ helig.elem) (hosize ▸ helig.elem)
      (by omega) (by omega) haddr
  refine ⟨hsame, ?_⟩
  obtain rfl : o = o' := Option.some.inj (ho.symm.trans (hsame ▸ ho'))
  have hlast : b.cap - 1 = op.ys.off + op.ys.len - 1 :=
    Nat.eq_of_mul_eq_mul_right (hosize ▸ helig.elem) (Nat.add_left_cancel haddr)
  omega

theorem Inv.runCheck (h : Inv zero s) {i : TaskId} {op : Op α} {way : ℕ} {st : StateId}
    {b : BlockState} (hi : s.tasks[i]? = some (.check op way st)) (hb : s.states[st]? = some b) :
    Inv zero (s.runCheck i op way st b) := by
  have hsound : op.Typed zero s.built ∧ op.Eligible := h.sound _ (List.mem_of_getElem? hi)
  have hnext : Inv zero (s.setTask i (.lookup op (way + 1))) :=
    h.advance hi (List.Subset.refl _) hsound rfl
  unfold State.runCheck
  split
  · next hmatch =>
      split
      · exact hnext
      · next p hp =>
          split
          · next hend =>
              have halive : s.Alive op.ys.obj := (h.rooted _
                (Pc.mem_slices_roots (List.mem_of_getElem? hi) op.ys_mem_slices)).2
              have hends : op.EndsOn b := h.endsOn hsound.1 hsound.2 halive
                (List.mem_of_getElem? hb) hmatch.2 hp hend
              exact h.advance hi (List.Subset.refl _) ⟨hsound.1, hsound.2, b, hb, hends⟩ rfl
          · exact hnext
  · exact hnext

/-! ## Claiming slots -/

/-- At the frontier no other task has a claim to fill. -/
theorem Inv.no_writer (h : Inv zero s) {b : BlockState} {st : StateId} (hb : s.states[st]? = some b)
    {ys : Slice} (hys : ys ∈ s.built) (hslot : b.slot0 = ys.obj) (hfrontier : b.frontier = ys.off) :
    ∀ pc ∈ s.tasks, pc.writes ≠ some b.slot0 := by
  intro pc hpc hwrites
  cases pc with
  | write op k =>
      obtain ⟨_, helig, b', hb', hown⟩ := h.sound _ hpc
      have hobj : op.ys.obj = b.slot0 := by simpa [Pc.writes] using hwrites
      have hst : st = k := h.oneState st k b b' hb hb' (hobj.symm.trans hown.ends.1.symm)
      subst hst
      obtain rfl : b = b' := Option.some.inj (hb.symm.trans hb')
      have hunseen := hown.unseen ys hys (hslot.symm.trans hobj.symm)
      have hslots := hown.slots
      have hfront := helig.front
      omega
  | _ => simp [Pc.writes] at hwrites

theorem Inv.runCas (h : Inv zero s) {i : TaskId} {op : Op α} {st : StateId} {b : BlockState}
    (hi : s.tasks[i]? = some (.cas op st)) (hb : s.states[st]? = some b) :
    Inv zero (s.runCas i op st b) := by
  obtain ⟨hop, helig, b', hb', hends⟩ := h.sound _ (List.mem_of_getElem? hi)
  obtain rfl : b = b' := Option.some.inj (hb.symm.trans hb')
  have hys : op.ys ∈ s.built := hop.built _ op.ys_mem_slices
  unfold State.runCas
  simp only
  split
  · next hcas =>
      have hoff : b.cap - op.ys.len = op.ys.off := by
        have := hends.2
        omega
      rw [hoff] at hcas ⊢
      obtain ⟨hroom, hfrontier⟩ := hcas
      have hno := h.no_writer hb hys hends.1 hfrontier
      have hlower : op.ys.off - op.front.len ≤ b.frontier := by omega
      have hset := h.setFrontier hb hlower hno
      have hat : (s.setFrontier st b (op.ys.off - op.front.len)).states[st]? =
          some { b with frontier := op.ys.off - op.front.len } :=
        List.getElem?_set_self (List.getElem?_eq_some_iff.1 hb).1
      have hclaim : Inv zero ((s.setFrontier st b (op.ys.off - op.front.len)).claim b.slot0
          (List.range' (op.ys.off - op.front.len) op.front.len)) := by
        refine hset.claim (List.mem_of_getElem? hat) le_rfl ?_
        intro p hp hobj
        obtain ⟨x, hx, hslot, hle⟩ := h.claimed p hp
        obtain ⟨j, hj⟩ := List.mem_iff_getElem?.1 hx
        have hst : st = j := h.oneState st j b x hb hj (hobj.symm.trans hslot.symm)
        subst hst
        obtain rfl : b = x := Option.some.inj (hb.symm.trans hj)
        omega
      refine hclaim.setTask ⟨hop, helig, _, hat, ⟨hends, ?_, ?_⟩⟩ ?_ ?_
      · exact Nat.sub_add_cancel hroom
      · intro xs hxs hobj
        rw [← hfrontier]
        exact h.above b (List.mem_of_getElem? hb) xs hxs (hobj.trans hends.1.symm)
      · intro xs hxs
        exact h.rooted xs (Pc.mem_slices_roots (List.mem_of_getElem? hi) hxs)
      · intro j q o _ hq hown hother
        obtain rfl : op.ys.obj = o := by simpa [Pc.writes] using hown
        exact hno q (List.mem_of_getElem? hq) (hends.1 ▸ hother)
  · exact h.advance hi (List.Subset.refl _) ⟨hop, helig.front, helig.elem⟩ rfl

/-! ## Filling the claimed slots -/

theorem Inv.ys_obj (h : Inv zero s) {op : Op α} (hop : op.Typed zero s.built)
    (helig : op.Eligible) : op.ys.obj ≠ nilObj ∧ ∃ o, s.heap[op.ys.obj]? = some o ∧
      o.size = op.ys.elem ∧ op.ys.off + op.ys.len ≤ o.cells.length := by
  obtain ⟨o, ho, hcap, hend, hsize⟩ := hop.window h op.ys_mem_slices
  refine ⟨?_, o, ho, hsize helig.long, by omega⟩
  intro hnil
  obtain ⟨o', ho', hcells, _⟩ := h.empty
  obtain rfl : o = o' := Option.some.inj (ho.symm.trans (hnil ▸ ho'))
  have hlong := helig.long
  simp only [hcells, List.length_nil] at hend
  omega

theorem State.writeCells_getElem? {i : ObjId} {o : Obj α} (ho : s.heap[i]? = some o) (slot : ℕ)
    (vs : List α) : (s.writeCells i slot vs).heap[i]? =
      some { o with cells := o.cells.take slot ++ vs ++ o.cells.drop (slot + vs.length) } := by
  rw [State.writeCells, getElem?_modify_of_some _ i ho, if_pos rfl]

/-- What was written in front of a list, followed by the list. -/
theorem State.read_writeCells_front {ys : Slice} {o : Obj α} (ho : s.heap[ys.obj]? = some o)
    {slot : ℕ} {vs : List α} (hoff : slot + vs.length = ys.off)
    (hend : ys.off + ys.len ≤ o.cells.length) (cap elem : ℕ) :
    (s.writeCells ys.obj slot vs).read ⟨ys.obj, slot, ys.len + vs.length, cap, elem⟩ =
      vs ++ s.read ys := by
  simp only [State.read, State.writeCells_getElem? ho, ho]
  rw [drop_overwrite (by omega), hoff, Nat.add_comm ys.len, List.take_length_add_append]

theorem Inv.runWrite (h : Inv zero s) {i : TaskId} {op : Op α} {st : StateId}
    (hi : s.tasks[i]? = some (.write op st)) : Inv zero (s.runWrite i op) := by
  have hmem := List.mem_of_getElem? hi
  obtain ⟨hop, helig, b, hb, hown⟩ := h.sound _ hmem
  obtain ⟨hobj, o, ho, hsize, hend⟩ := h.ys_obj hop helig
  have hslots := hown.slots
  have hcontents : s.contents op = s.frontContents op.front ++ s.read op.ys := rfl
  have hlength : (s.frontContents op.front).length = op.front.len := hop.length_front h
  have hoff : op.ys.off - op.front.len + (s.frontContents op.front).length = op.ys.off := by omega
  unfold State.runWrite
  rw [← hlength] at hoff ⊢
  generalize s.frontContents op.front = vs at hcontents hlength hoff ⊢
  simp only
  generalize op.ys.off - vs.length = slot at hoff ⊢
  have habove : ∀ xs ∈ s.built, xs.obj = op.ys.obj → slot + vs.length ≤ xs.off := by
    intro xs hxs hxobj
    exact hoff.trans_le (hown.unseen xs hxs hxobj)
  have hroom : ∀ x, s.heap[op.ys.obj]? = some x → 0 < x.size ∧ slot + vs.length ≤ x.cells.length := by
    intro x hx
    obtain rfl : o = x := Option.some.inj (ho.symm.trans hx)
    exact ⟨hsize ▸ helig.elem, by omega⟩
  have hidle : Inv zero ((s.writeCells op.ys.obj slot vs).setTask i .idle) :=
    (h.writeCells hobj hroom habove).setTask trivial (by simp [Pc.slices]) (.of_none rfl)
  have hat := State.writeCells_getElem? ho slot vs
  have hlen := length_overwrite (hroom o ho).2
  generalize hr : (⟨op.ys.obj, slot, op.ys.len + vs.length, op.ys.len + vs.length,
    op.ys.elem⟩ : Slice) = r
  have hrobj : r.obj = op.ys.obj := hr ▸ rfl
  have hroff : r.off = slot := hr ▸ rfl
  have hatr := (congrArg ((s.writeCells op.ys.obj slot vs).heap[·]?) hrobj).trans hat
  have hbuild : Inv zero (((s.writeCells op.ys.obj slot vs).setTask i .idle).build r) := by
    refine hidle.build ⟨_, hatr, ?_⟩ ?_ ?_
    · subst hr
      exact ⟨le_rfl, by simp only; omega, fun _ => hsize⟩
    · intro b' hb' hslot
      obtain ⟨j, hj⟩ := List.mem_iff_getElem?.1 hb'
      have hst : st = j := h.oneState st j b b' hb hj (hown.ends.1.trans (hrobj.symm.trans hslot))
      subst hst
      obtain rfl : b = b' := Option.some.inj (hb.symm.trans hj)
      omega
    · intro op' st' hop' hobj'
      obtain ⟨j, hj⟩ := List.mem_iff_getElem?.1 hop'
      rcases getElem?_set_cases hj with ⟨_, hidle'⟩ | ⟨hne, hj'⟩
      · cases hidle'
      · refine absurd (h.writer i j _ _ op.ys.obj hi hj' rfl ?_) hne
        rw [Pc.writes, ← hobj', hrobj]
  have hmemr : r ∈ (((s.writeCells op.ys.obj slot vs).setTask i .idle).build r).built :=
    List.mem_cons_self
  have hresult : (s.writeCells op.ys.obj slot vs).read r =
      (s.writeCells op.ys.obj slot vs).contents op := by
    calc (s.writeCells op.ys.obj slot vs).read r = vs ++ s.read op.ys := by
          subst hr
          exact State.read_writeCells_front ho hoff hend _ _
      _ = s.contents op := hcontents.symm
      _ = (s.writeCells op.ys.obj slot vs).contents op :=
          (State.contents_congr fun xs hxs => State.read_writeCells (fun x hx => (hroom x hx).2)
            (habove xs (hop.built xs hxs))).symm
  refine (hbuild.record (hop.mono (List.subset_cons_self _ _)) hmemr hresult).hold hmemr ?_
  obtain ⟨_, x, hx, hlive⟩ := h.rooted op.ys (Pc.mem_slices_roots hmem op.ys_mem_slices)
  obtain rfl : o = x := Option.some.inj (ho.symm.trans hx)
  exact ⟨_, hatr, hlive⟩

/-! ## Copying -/

theorem Inv.runCopy (h : Inv zero s) {i : TaskId} {op : Op α} {base : ℕ}
    (hi : s.tasks[i]? = some (.copy op)) (hstep : s.runCopy zero i base op = some s') :
    Inv zero s' := by
  obtain ⟨hop, hfront, helem⟩ := h.sound _ (List.mem_of_getElem? hi)
  have hlength : (s.contents op).length = op.front.len + op.ys.len := hop.length_contents h
  unfold State.runCopy at hstep
  simp only [← hlength] at hstep
  split at hstep
  · obtain ⟨hfree, rfl⟩ := State.alloc_map hstep
    refine h.finish_new (r := ⟨s.heap.length, 0, (s.contents op).length, (s.contents op).length,
      op.ys.elem⟩) hop hfree rfl rfl ⟨le_rfl, by simp, fun _ => rfl⟩ ?_ (by simp) i
    intro hsize
    exact absurd hsize helem.ne'
  · obtain ⟨hfree, rfl⟩ := State.alloc_map hstep
    generalize hvs : s.contents op = vs at *
    have hroom : 2 * vs.length - vs.length = vs.length := by omega
    rw [hroom] at hfree ⊢
    generalize ho : (⟨base, op.ys.elem, List.replicate vs.length zero ++ vs, true⟩ : Obj α) = o at *
    have hcells : o.cells = List.replicate vs.length zero ++ vs := ho ▸ rfl
    have hsize : o.size = op.ys.elem := ho ▸ rfl
    have hpush : Inv zero (s.pushObj o) := by
      refine h.pushObj hfree ?_
      intro hzero
      exact absurd (hsize.symm.trans hzero) helem.ne'
    have hat : (s.pushObj o).heap[s.heap.length]? = some o := State.pushObj_getElem?_new o
    generalize hb : (⟨s.heap.length, base + (2 * vs.length - 1) * op.ys.elem, 2 * vs.length,
      op.ys.elem, vs.length⟩ : BlockState) = b
    have hslot0 : b.slot0 = s.heap.length := hb ▸ rfl
    have hfrontier : b.frontier = vs.length := hb ▸ rfl
    have hfresh : (s.pushObj o).Fresh b := by
      refine ⟨⟨?_, o, hslot0 ▸ hat, ?_, ?_⟩, ?_, ?_⟩
      · subst hb
        simp only
        omega
      · subst hb
        simp only [hcells, List.length_append, List.length_replicate]
        omega
      · subst hb
        exact hsize
      · intro b' hb'
        exact hslot0 ▸ (h.describes b' hb').slot0_lt.ne
      · intro xs hxs
        exact hslot0 ▸ (h.window xs hxs).obj_lt.ne
    have hstate := hpush.pushState hfresh
    have hclaim : Inv zero (((s.pushObj o).pushState b).claim b.slot0
        (List.range' vs.length vs.length)) := by
      refine hstate.claim (List.mem_append_right _ List.mem_cons_self) hfrontier.le ?_
      intro p hp hobj
      obtain ⟨b', hb', hslot, _⟩ := h.claimed p hp
      exact absurd (hslot.trans hobj) (hfresh.state b' hb')
    rw [hslot0] at hclaim
    generalize hr : (⟨s.heap.length, vs.length, vs.length, vs.length, op.ys.elem⟩ : Slice) = r
    have hrobj : r.obj = s.heap.length := hr ▸ rfl
    have hatr := (congrArg ((s.pushObj o).heap[·]?) hrobj).trans hat
    have hbuild := hclaim.build_new (r := r) ⟨o, hatr, ?_⟩ ?_ ?_
    · have hmemr := List.mem_cons_self (a := r) (l := s.built)
      refine (hbuild.record (hop.mono (List.subset_cons_self _ _)) hmemr ?_).setTask trivial ?_
        (.of_none rfl)
      · calc (s.pushObj o).read r = vs := by
              subst hr
              simp only [State.read, hat, hcells, List.drop_left' List.length_replicate,
                List.take_length]
          _ = s.contents op := hvs.symm
          _ = (s.pushObj o).contents op :=
              (State.contents_congr fun xs hxs => State.read_pushObj (hop.window h hxs) o).symm
      · intro xs hxs
        obtain rfl := List.mem_singleton.1 hxs
        exact ⟨hmemr, o, hatr, ho ▸ rfl⟩
    · subst hr
      exact ⟨le_rfl, by simp [hcells], fun _ => hsize⟩
    · intro xs hxs
      exact hrobj ▸ (h.window xs hxs).obj_lt.ne
    · intro b' hb' hslot
      rcases List.mem_append.1 hb' with hold | hnew
      · exact absurd (hslot.symm.trans hrobj) (h.describes b' hold).slot0_lt.ne
      · obtain rfl := List.mem_singleton.1 hnew
        exact hr ▸ hfrontier.le

/-! ## Every step -/

theorem Inv.run (h : Inv zero s) {i : TaskId} {base : ℕ} (hstep : s.run zero i base = some s') :
    Inv zero s' := by
  unfold State.run at hstep
  split at hstep
  · cases hstep
  · cases hstep
  · next op hi => exact h.runStart hi hstep
  · next op way hi =>
      obtain rfl := Option.some.inj hstep
      exact h.runLookup hi
  · next op way st hi =>
      obtain ⟨b, hb, rfl⟩ := Option.map_eq_some_iff.1 hstep
      exact h.runCheck hi hb
  · next op st hi =>
      obtain ⟨b, hb, rfl⟩ := Option.map_eq_some_iff.1 hstep
      exact h.runCas hi hb
  · next op st hi =>
      obtain rfl := Option.some.inj hstep
      exact h.runWrite hi
  · next op hi => exact h.runCopy hi hstep
  · next r st way hi =>
      split at hstep <;> obtain rfl := Option.some.inj hstep <;>
        exact h.advance hi (List.Subset.refl _) trivial rfl
  · next r st way old hi =>
      split at hstep <;> obtain rfl := Option.some.inj hstep <;>
        exact h.advance hi (List.Subset.refl _) trivial rfl
  · next r st way old hi =>
      split at hstep <;> obtain rfl := Option.some.inj hstep
      · have hr := h.rooted r (Pc.mem_slices_roots (List.mem_of_getElem? hi) List.mem_cons_self)
        exact (h.setTable _ way st).finish hr.1 hr.2 i
      · exact h.advance hi (List.Subset.refl _) trivial rfl
  · next r st hi =>
      split at hstep <;> obtain rfl := Option.some.inj hstep <;>
        exact h.advance hi (List.Subset.refl _) trivial rfl
  · next r st old hi =>
      obtain rfl := Option.some.inj hstep
      exact (h.setTable _ 1 old).advance hi (List.Subset.refl _) trivial rfl
  · next r st hi =>
      obtain rfl := Option.some.inj hstep
      have hr := h.rooted r (Pc.mem_slices_roots (List.mem_of_getElem? hi) List.mem_cons_self)
      exact (h.setTable _ 0 st).finish hr.1 hr.2 i

theorem Inv.typed_of_callable (h : Inv zero s) {op : Op α} (hop : s.Callable zero op) :
    op.Typed zero s.built := by
  obtain ⟨hys, hfront⟩ := hop
  have hheld : ∀ xs ∈ s.held, xs ∈ s.built := fun xs hxs =>
    (h.rooted xs (List.mem_append_left _ hxs)).1
  refine ⟨?_, ?_, ?_⟩
  · intro xs hxs
    unfold Op.slices at hxs
    cases hf : op.front with
    | value x =>
        simp only [hf, List.mem_singleton] at hxs
        exact hxs ▸ hheld _ hys
    | list zs =>
        simp only [hf, List.mem_cons, List.not_mem_nil, or_false] at hxs hfront
        rcases hxs with hxs | hxs
        · exact hxs ▸ hheld _ hfront.1
        · exact hxs ▸ hheld _ hys
  · intro xs hxs
    unfold Op.slices at hxs
    cases hf : op.front with
    | value x =>
        simp only [hf, List.mem_singleton] at hxs
        rw [hxs]
    | list zs =>
        simp only [hf, List.mem_cons, List.not_mem_nil, or_false] at hxs hfront
        rcases hxs with hxs | hxs
        · exact hxs ▸ hfront.2
        · rw [hxs]
  · intro helem x hf
    simp only [hf] at hfront
    exact hfront helem x List.mem_cons_self

theorem Inv.call (h : Inv zero s) {i : TaskId} {op : Op α} (hop : s.Callable zero op) :
    Inv zero (s.setTask i (.start op)) := by
  have htyped := h.typed_of_callable hop
  refine h.setTask htyped ?_ (.of_none rfl)
  intro xs hxs
  refine ⟨htyped.built xs hxs, ?_⟩
  have halive : ∀ xs ∈ s.held, s.Alive xs.obj := fun xs hxs =>
    (h.rooted xs (List.mem_append_left _ hxs)).2
  obtain ⟨hys, hfront⟩ := hop
  unfold Pc.slices Op.slices at hxs
  cases hf : op.front with
  | value x =>
      simp only [hf, List.mem_singleton] at hxs
      exact hxs ▸ halive _ hys
  | list zs =>
      simp only [hf, List.mem_cons, List.not_mem_nil, or_false] at hxs hfront
      rcases hxs with hxs | hxs
      · exact hxs ▸ halive _ hfront.1
      · exact hxs ▸ halive _ hys

theorem Inv.literal (h : Inv zero s) {base elem : ℕ} {vs : List α} (hsize : State.OfSize zero elem vs)
    (hfree : s.Free ⟨base, elem, vs, true⟩) :
    Inv zero (((s.pushObj ⟨base, elem, vs, true⟩).build
      ⟨s.heap.length, 0, vs.length, vs.length, elem⟩).hold
      ⟨s.heap.length, 0, vs.length, vs.length, elem⟩) := by
  have hat := State.pushObj_getElem?_new (s := s) ⟨base, elem, vs, true⟩
  have hbuild := (h.pushObj hfree hsize).build_new
    (r := ⟨s.heap.length, 0, vs.length, vs.length, elem⟩)
    ⟨_, hat, le_rfl, by simp, fun _ => rfl⟩ (fun xs hxs => (h.window xs hxs).obj_lt.ne) ?_
  · exact hbuild.hold List.mem_cons_self ⟨_, hat, rfl⟩
  · intro b hb hslot
    exact absurd hslot.symm (h.describes b hb).slot0_lt.ne

theorem Inv.nil (h : Inv zero s) (elem : ℕ) :
    Inv zero ((s.build ⟨nilObj, 0, 0, 0, elem⟩).hold ⟨nilObj, 0, 0, 0, elem⟩) := by
  obtain ⟨o, ho, hcells, hlive⟩ := h.empty
  have hbuild : Inv zero (s.build ⟨nilObj, 0, 0, 0, elem⟩) := by
    refine h.build ⟨o, ho, le_rfl, Nat.zero_le _, fun hpos => absurd hpos (by simp)⟩ ?_ ?_
    · intro b hb hslot
      obtain ⟨hcap, x, hx, hlength, _⟩ := h.describes b hb
      rw [← hslot] at hx
      obtain rfl : o = x := Option.some.inj (ho.symm.trans hx)
      rw [hcells] at hlength
      exact absurd hlength hcap.ne
    · intro op st hop hobj
      obtain ⟨htyped, helig, _⟩ := h.sound _ hop
      exact absurd hobj.symm (h.ys_obj htyped helig).1
  exact hbuild.hold List.mem_cons_self ⟨o, ho, hlive⟩

theorem Inv.slice (h : Inv zero s) {xs : Slice} {i j k : ℕ} (hxs : xs ∈ s.held) (hij : i ≤ j)
    (hj : j ≤ xs.len) (hjk : j ≤ k) (hk : k ≤ xs.cap) :
    Inv zero ((s.build ⟨xs.obj, xs.off + i, j - i, k - i, xs.elem⟩).hold
      ⟨xs.obj, xs.off + i, j - i, k - i, xs.elem⟩) := by
  obtain ⟨hbuilt, halive⟩ := h.rooted xs (List.mem_append_left _ hxs)
  obtain ⟨o, ho, hcap, hend, hsize⟩ := h.window xs hbuilt
  have hin : Slice.InObj ⟨xs.obj, xs.off + i, j - i, k - i, xs.elem⟩ o := by
    refine ⟨by simp only; omega, by simp only; omega, ?_⟩
    intro hpos
    exact hsize (by simp only at hpos; omega)
  refine (h.build (r := ⟨xs.obj, xs.off + i, j - i, k - i, xs.elem⟩) ⟨o, ho, hin⟩ ?_ ?_).hold
    List.mem_cons_self halive
  · intro b hb hobj
    exact (h.above b hb xs hbuilt hobj).trans (Nat.le_add_right _ _)
  · intro op st hop hobj
    obtain ⟨_, _, b, _, hown⟩ := h.sound _ hop
    exact (hown.unseen xs hbuilt hobj).trans (Nat.le_add_right _ _)

theorem Inv.step [DecidableEq α] (h : Inv zero s) {e : Event α} (hstep : s.step zero e = some s') :
    Inv zero s' := by
  unfold State.step at hstep
  cases e with
  | run i base => exact h.run hstep
  | call i op =>
      simp only at hstep
      split at hstep
      · split at hstep
        · next hop =>
            obtain rfl := Option.some.inj hstep
            exact h.call hop
        · cases hstep
      · cases hstep
  | literal base elem vs =>
      simp only at hstep
      split at hstep
      · next hsize =>
          obtain ⟨hfree, rfl⟩ := State.alloc_map hstep
          exact h.literal hsize hfree
      · cases hstep
  | nil elem =>
      obtain rfl := Option.some.inj hstep
      exact h.nil elem
  | slice xs i j k =>
      simp only at hstep
      split at hstep
      · next hbounds =>
          obtain rfl := Option.some.inj hstep
          exact h.slice hbounds.1 hbounds.2.1 hbounds.2.2.1 hbounds.2.2.2.1 hbounds.2.2.2.2
      · cases hstep
  | drop xs =>
      obtain rfl := Option.some.inj hstep
      exact h.drop xs
  | free o =>
      simp only at hstep
      split at hstep
      · next hfree =>
          obtain rfl := Option.some.inj hstep
          exact h.free hfree.1 hfree.2
      · cases hstep

end Sky.ListBlock
