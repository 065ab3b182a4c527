import Mathlib
import Sky.Library.Run
import Sky.Verification.Array.Operations

/-! # The persistent Array is a list

Sequences of operations on any versions, next to the same operations on lists. -/

namespace Sky.Array

open Library

variable {α : Type*}

/-- The array answers as the list does, and nothing it is asked panics. -/
structure Refines (a : SkyArray α) (xs : List α) : Prop where
  toSlice : toSlice a = some xs
  length : length a = xs.length
  get : ∀ i : ℤ, get a i = some (if 0 ≤ i then xs[i.toNat]? else none)
  set_outside : ∀ (i : ℤ) x, ¬ (0 ≤ i ∧ i < xs.length) → set a i x = some a

theorem Represents.refines {a : SkyArray α} {xs : List α} (h : Represents a xs) : Refines a xs := by
  refine ⟨toSlice_spec h, length_eq h, get_spec h, fun i x hout => ?_⟩
  obtain ⟨b, hb, -, hsame⟩ := set_spec h i x
  rw [hb, hsame hout]

/-! ## Sequences of operations on versions -/

/-- An operation on any of the versions obtained so far. -/
inductive ArrayOp (α : Type*) where
  | push (x : α) (version : ℕ)
  | set (i : ℤ) (x : α) (version : ℕ)
  | append (left right : ℕ)
  | slice (start stop : ℤ) (version : ℕ)
  | filter (p : α → Bool) (version : ℕ)
  | map (f : α → α) (version : ℕ)

/-- The version that an operation makes. It fails where the code panics. -/
def ArrayOp.eval (versions : List (SkyArray α)) : ArrayOp α → Option (SkyArray α)
  | .push x v => versions[v]?.bind fun a => Array.push a x
  | .set i x v => versions[v]?.bind fun a => Array.set a i x
  | .append l r => versions[l]?.bind fun a => versions[r]?.bind fun b => Array_append a b
  | .slice start stop v => versions[v]?.bind fun a => Array_slice start stop a
  | .filter p v => versions[v]?.bind fun a => Array_filter p a
  | .map f v => versions[v]?.bind fun a => Array_map f a

/-- One operation adds one version. -/
def ArrayOp.apply (versions : List (SkyArray α)) (op : ArrayOp α) : Option (List (SkyArray α)) :=
  (op.eval versions).map fun a => versions ++ [a]

/-- The list that the same operation makes. It fails only on a version that is not
there. -/
def ArrayOp.evalList (lists : List (List α)) : ArrayOp α → Option (List α)
  | .push x v => lists[v]?.map fun xs => xs ++ [x]
  | .set i x v =>
      lists[v]?.map fun xs => if 0 ≤ i ∧ i < xs.length then xs.set i.toNat x else xs
  | .append l r => lists[l]?.bind fun xs => lists[r]?.map fun ys => xs ++ ys
  | .slice start stop v => lists[v]?.map (listSlice start stop)
  | .filter p v => lists[v]?.map (List.filter p)
  | .map f v => lists[v]?.map (List.map f)

def ArrayOp.applyList (lists : List (List α)) (op : ArrayOp α) : Option (List (List α)) :=
  (op.evalList lists).map fun xs => lists ++ [xs]

/-- The version and the list with the same number agree. -/
def Agree (lists : List (List α)) (versions : List (SkyArray α)) : Prop :=
  List.Forall₂ (fun xs a => Represents a xs) lists versions

section Agree

variable {lists lists' : List (List α)} {versions : List (SkyArray α)} {op : ArrayOp α}
  {xs : List α}

theorem Agree.getElem? {v : ℕ} (h : Agree lists versions) (hv : lists[v]? = some xs) :
    ∃ a, versions[v]? = some a ∧ Represents a xs := by
  induction h generalizing v with
  | nil => simp at hv
  | @cons xs' a lists versions ha _ ih =>
      cases v with
      | zero =>
          obtain rfl := Option.some.inj hv
          exact ⟨a, rfl, ha⟩
      | succ v => exact ih hv

/-- An operation that works on one list works on its version. -/
theorem Agree.bind {v : ℕ} {g : List α → List α} {f : SkyArray α → Option (SkyArray α)}
    (h : Agree lists versions) (hv : (lists[v]?).map g = some xs)
    (hf : ∀ a ys, Represents a ys → ∃ b, f a = some b ∧ Represents b (g ys)) :
    ∃ b, (versions[v]?).bind f = some b ∧ Represents b xs := by
  obtain ⟨ys, hys, rfl⟩ := Option.map_eq_some_iff.mp hv
  obtain ⟨a, ha, hrep⟩ := h.getElem? hys
  obtain ⟨b, hb, hrep'⟩ := hf a ys hrep
  exact ⟨b, by rw [ha, Option.bind_some, hb], hrep'⟩

theorem Agree.eval (h : Agree lists versions) (hop : op.evalList lists = some xs) :
    ∃ a, op.eval versions = some a ∧ Represents a xs := by
  cases op with
  | push x v => exact h.bind hop fun _ _ ha => push_spec ha x
  | set i x v =>
      refine h.bind hop fun _ _ ha => ?_
      obtain ⟨b, hb, hrep, -⟩ := set_spec ha i x
      exact ⟨b, hb, hrep⟩
  | append l r =>
      obtain ⟨ys, hys, hmap⟩ := Option.bind_eq_some_iff.mp hop
      obtain ⟨zs, hzs, rfl⟩ := Option.map_eq_some_iff.mp hmap
      obtain ⟨a, ha, hrep⟩ := h.getElem? hys
      obtain ⟨b, hb, hrep'⟩ := h.getElem? hzs
      obtain ⟨c, hc, hrep''⟩ := append_spec hrep hrep'
      exact ⟨c, by rw [ArrayOp.eval, ha, Option.bind_some, hb, Option.bind_some, hc], hrep''⟩
  | slice start stop v => exact h.bind hop fun _ _ ha => slice_spec ha start stop
  | filter p v => exact h.bind hop fun _ _ ha => filter_spec ha p
  | map f v => exact h.bind hop fun _ _ ha => map_spec ha f

theorem Agree.step (h : Agree lists versions) (hop : op.applyList lists = some lists') :
    ∃ versions', op.apply versions = some versions' ∧ Agree lists' versions' := by
  obtain ⟨xs, hxs, rfl⟩ := Option.map_eq_some_iff.mp hop
  obtain ⟨a, ha, hrep⟩ := h.eval hxs
  exact ⟨_, by rw [ArrayOp.apply, ha]; rfl, List.rel_append h (.cons hrep .nil)⟩

end Agree

/-- A step adds a version at the end and touches no earlier one. -/
theorem ArrayOp.prefix_of_apply {versions versions' : List (SkyArray α)} {op : ArrayOp α}
    (hop : op.apply versions = some versions') : versions <+: versions' := by
  obtain ⟨a, -, rfl⟩ := Option.map_eq_some_iff.mp hop
  exact List.prefix_append _ _

/-- Whatever operations lists go through from the empty one, arrays go through the
same without a panic, every version answers as its list does, and all versions of
an earlier moment are still there unchanged. -/
theorem array_refines_list {ops : List (ArrayOp α)} {lists : List (List α)}
    (h : Run (fun ls op ls' => ArrayOp.applyList ls op = some ls') [[]] ops lists) :
    ∃ versions, Run (fun vs op vs' => ArrayOp.apply vs op = some vs') [none] ops versions ∧
      List.Forall₂ Refines versions lists ∧
      ∀ ops' versions', Run (fun vs op vs' => ArrayOp.apply vs op = some vs')
        versions ops' versions' → versions <+: versions' := by
  have hinit : Agree [[]] [(none : SkyArray α)] := .cons rfl .nil
  obtain ⟨versions, hversions, hagree⟩ := h.simulates (fun _ _ _ _ ha hop => ha.step hop) hinit
  have hall := (hagree.imp fun _ _ ha => ha.refines).flip
  refine ⟨versions, hversions, hall, fun ops' versions' h' => ?_⟩
  exact h'.relates List.prefix_refl (fun _ _ _ => List.IsPrefix.trans)
    fun _ _ _ => ArrayOp.prefix_of_apply

/-- Doubling past a block, a write into an old version, and a slice of both. -/
def blockOps : List (ArrayOp ℕ) :=
  (List.range 20).map (fun n => .push n n) ++
    [.append 20 20, .push 7 21, .set 3 9 21, .map (· + 1) 22, .slice (-35) (-2) 22,
      .filter (· < 5) 23]

theorem array_refines_list_blockOps :
    ∃ versions lists, lists.length = 27 ∧
      Run (fun vs op vs' => ArrayOp.apply vs op = some vs') [none] blockOps versions ∧
      List.Forall₂ Refines versions lists := by
  obtain ⟨lists, hrun, hlen⟩ : ∃ lists,
      Run (fun ls op ls' => ArrayOp.applyList ls op = some ls') [[]] blockOps lists ∧
        lists.length = 27 := by
    refine ⟨_, Run.iff_foldlM.mpr rfl, rfl⟩
  obtain ⟨versions, hversions, hall, -⟩ := array_refines_list hrun
  exact ⟨versions, lists, hlen, hversions, hall⟩

end Sky.Array
