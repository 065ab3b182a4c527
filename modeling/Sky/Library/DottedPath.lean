import Mathlib

/-! # Dotted paths

Names of the form `p.s.t`. A name lies within another one when it is that name or
continues it after a dot, and renaming moves everything within one name to another. -/

namespace Sky.Library.DottedPath

variable {α : Type*} {dot : α} {p q s t w x : List α}

/-- What can follow a name: nothing, or a dot and more. -/
def Tail (dot : α) (w : List α) : Prop := w = [] ∨ ∃ v, w = dot :: v

/-- The name `x` is `p` or continues it. -/
def Within (dot : α) (p x : List α) : Prop := ∃ w, Tail dot w ∧ x = p ++ w

theorem Tail.append (hw : Tail dot w) (hx : Tail dot x) : Tail dot (w ++ x) := by
  rcases hw with rfl | ⟨v, rfl⟩
  · exact hx
  · exact .inr ⟨v ++ x, rfl⟩

namespace Within

theorem refl (dot : α) (p : List α) : Within dot p p := ⟨[], .inl rfl, (List.append_nil p).symm⟩

theorem of_cons (dot : α) (p w : List α) : Within dot p (p ++ dot :: w) := ⟨_, .inr ⟨w, rfl⟩, rfl⟩

theorem trans (h : Within dot p q) (k : Within dot q x) : Within dot p x := by
  obtain ⟨w, hw, rfl⟩ := h
  obtain ⟨v, hv, rfl⟩ := k
  exact ⟨w ++ v, hw.append hv, List.append_assoc _ _ _⟩

end Within

theorem eq_of_append_tail (hs : dot ∉ s) (ht : dot ∉ t) (hw : Tail dot w) (hx : Tail dot x)
    (h : s ++ w = t ++ x) : s = t := by
  induction s generalizing t with
  | nil =>
      cases t with
      | nil => rfl
      | cons b t =>
          rcases hw with rfl | ⟨v, rfl⟩
          · cases h
          · exact (ht (List.mem_cons.mpr (.inl (List.cons.inj h).1))).elim
  | cons a s ih =>
      cases t with
      | nil =>
          rcases hx with rfl | ⟨v, rfl⟩
          · cases h
          · exact (hs (List.mem_cons.mpr (.inl (List.cons.inj h).1.symm))).elim
      | cons b t =>
          obtain ⟨rfl, hrest⟩ := List.cons.inj h
          rw [ih (List.not_mem_of_not_mem_cons hs) (List.not_mem_of_not_mem_cons ht) hrest]

/-- Two names below one parent have no name in common unless they are the same. -/
theorem Within.sibling_eq (hs : dot ∉ s) (ht : dot ∉ t) (h : Within dot (p ++ dot :: s) x)
    (k : Within dot (p ++ dot :: t) x) : s = t := by
  obtain ⟨w, hw, rfl⟩ := h
  obtain ⟨v, hv, hx⟩ := k
  rw [List.append_assoc, List.append_assoc, List.append_cancel_left_eq, List.cons_append,
    List.cons_append] at hx
  exact eq_of_append_tail hs ht hw hv (List.cons.inj hx).2

/-! ## Renaming -/

section Rename

variable [DecidableEq α]

/-- The name `x` with `p` in front of it replaced by `q`, when `x` lies within `p`. -/
def rename (dot : α) (p q x : List α) : List α :=
  if x = p then q else if p ++ [dot] <+: x then q ++ x.drop p.length else x

theorem rename_append (hw : Tail dot w) : rename dot p q (p ++ w) = q ++ w := by
  rcases hw with rfl | ⟨v, rfl⟩
  · rw [rename, if_pos (List.append_nil p), List.append_nil]
  · have hne : p ++ dot :: v ≠ p := by
      intro h
      have := congrArg List.length h
      simp at this
    have hprefix : p ++ [dot] <+: p ++ dot :: v := ⟨v, by simp⟩
    rw [rename, if_neg hne, if_pos hprefix, List.drop_left]

/-- Renaming is injective on the names within `p`. -/
theorem Within.rename_inj {y : List α} (hx : Within dot p x) (hy : Within dot p y)
    (h : rename dot p q x = rename dot p q y) : x = y := by
  obtain ⟨w, hw, rfl⟩ := hx
  obtain ⟨v, hv, rfl⟩ := hy
  rw [rename_append hw, rename_append hv] at h
  rw [List.append_cancel_left h]

/-- Renaming keeps what lies within what, below `p`. -/
theorem Within.rename {s : List α} (hs : Within dot p s) (hx : Within dot s x) :
    Within dot (rename dot p q s) (DottedPath.rename dot p q x) := by
  obtain ⟨w, hw, rfl⟩ := hs
  obtain ⟨v, hv, rfl⟩ := hx
  refine ⟨v, hv, ?_⟩
  rw [List.append_assoc, rename_append (hw.append hv), rename_append hw, List.append_assoc]

end Rename

end Sky.Library.DottedPath
