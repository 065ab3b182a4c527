import Mathlib

/-! # Arrays with checked indices

An array of a fixed size; a read or a write outside it has no result. -/

namespace Sky.Library

/-- So many cells and what stands in each. -/
structure Cells (α : Type*) where
  size : ℕ
  val : ℕ → α

namespace Cells

variable {α : Type*} {c c' : Cells α} {i : ℕ} {v : α}

/-- Cells that all hold one value. -/
def make (n : ℕ) (v : α) : Cells α := ⟨n, fun _ => v⟩

def get? (c : Cells α) (i : ℕ) : Option α := if i < c.size then some (c.val i) else none

def set? (c : Cells α) (i : ℕ) (v : α) : Option (Cells α) :=
  if i < c.size then some ⟨c.size, Function.update c.val i v⟩ else none

def toList (c : Cells α) : List α := (List.range c.size).map c.val

@[simp] theorem make_size (n : ℕ) (v : α) : (make n v).size = n := rfl

@[simp] theorem make_val (n : ℕ) (v : α) (i : ℕ) : (make n v).val i = v := rfl

@[simp] theorem toList_length (c : Cells α) : c.toList.length = c.size := by
  simp [toList]

theorem toList_getElem? (c : Cells α) (h : i < c.size) : c.toList[i]? = some (c.val i) := by
  simp [toList, h]

theorem get?_eq_some (h : i < c.size) : c.get? i = some (c.val i) := if_pos h

theorem set?_eq_some (h : i < c.size) (v : α) :
    c.set? i v = some ⟨c.size, Function.update c.val i v⟩ := if_pos h

/-- Writing a list from the first cell on. -/
theorem fill_spec (vs : List α) (c : Cells α) (k : ℕ) (h : k + vs.length ≤ c.size) :
    ∃ c', (vs.zipIdx k).foldlM (fun c p => c.set? p.2 p.1) c = some c' ∧ c'.size = c.size ∧
      (∀ i (hi : i < vs.length), c'.val (k + i) = vs[i]) ∧ ∀ j, j < k → c'.val j = c.val j := by
  induction vs generalizing c k with
  | nil => exact ⟨c, rfl, rfl, by simp, fun j _ => rfl⟩
  | cons v vs ih =>
      have hlen : k + (vs.length + 1) ≤ c.size := by simpa using h
      have hk : k < c.size := by omega
      obtain ⟨c', hrun, hsize, hval, hbelow⟩ :=
        ih ⟨c.size, Function.update c.val k v⟩ (k + 1) (by simp only; omega)
      refine ⟨c', ?_, hsize, ?_, ?_⟩
      · rw [List.zipIdx_cons, List.foldlM_cons, set?_eq_some hk]
        exact hrun
      · intro i hi
        cases i with
        | zero =>
            have hhere := hbelow k (Nat.lt_succ_self k)
            simpa using hhere
        | succ i =>
            have hi' : i < vs.length := by simpa using hi
            have hthere := hval i hi'
            rw [show k + (i + 1) = k + 1 + i by omega]
            simpa using hthere
      · intro j hj
        rw [hbelow j (by omega)]
        exact Function.update_of_ne (by omega) _ _

end Cells

end Sky.Library
