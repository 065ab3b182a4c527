import Mathlib

/-! # Cutting a list into pieces

A cutter says how long the first piece of a list is. Cutting from the front gives the pieces of a
list; where the cutter decides a piece by the piece alone, a part of the list that ends at a border
has the same pieces. -/

namespace Sky.Library

structure Cutter (α : Type*) where
  width : List α → ℕ
  pos (s) : s ≠ [] → 0 < width s
  le (s) : width s ≤ s.length
  stable (a b) : a ≠ [] → width (a ++ b) ≤ a.length → width a = width (a ++ b)

namespace Cutter

variable {α : Type*} (w : Cutter α) {s a b : List α} {i j k : ℕ}

def piecesWithin : ℕ → List α → List (List α)
  | 0, _ => []
  | n + 1, s => if s.isEmpty then [] else s.take (w.width s) :: piecesWithin n (s.drop (w.width s))

def pieces (s : List α) : List (List α) := w.piecesWithin s.length s

theorem piecesWithin_eq {m n : ℕ} (hm : s.length ≤ m) (hn : s.length ≤ n) :
    w.piecesWithin m s = w.piecesWithin n s := by
  induction m generalizing n s with
  | zero =>
      obtain rfl := List.length_eq_zero_iff.1 (Nat.le_zero.1 hm)
      cases n <;> rfl
  | succ m ih =>
      cases s with
      | nil => cases n <;> rfl
      | cons x s =>
          obtain ⟨n, rfl⟩ : ∃ k, n = k + 1 := ⟨n - 1, by rw [List.length_cons] at hn; omega⟩
          have hpos := w.pos (x :: s) (List.cons_ne_nil x s)
          have hlength : ((x :: s).drop (w.width (x :: s))).length ≤ s.length := by
            rw [List.length_drop, List.length_cons]
            omega
          rw [List.length_cons] at hm hn
          simp only [piecesWithin, List.isEmpty_cons, Bool.false_eq_true, if_false]
          rw [ih (hlength.trans (Nat.le_of_succ_le_succ hm)) (hlength.trans (Nat.le_of_succ_le_succ hn))]

@[simp] theorem pieces_nil : w.pieces [] = [] := rfl

theorem pieces_of_ne_nil (h : s ≠ []) :
    w.pieces s = s.take (w.width s) :: w.pieces (s.drop (w.width s)) := by
  obtain ⟨x, s, rfl⟩ := List.exists_cons_of_ne_nil h
  have hpos := w.pos _ h
  rw [pieces, List.length_cons, piecesWithin, if_neg (by simp), pieces]
  congr 1
  apply piecesWithin_eq
  · rw [List.length_drop, List.length_cons]
    omega
  · exact le_rfl

/-- Induction along the pieces of a list. -/
theorem induction {motive : List α → Prop} (nil : motive [])
    (cut : ∀ s, s ≠ [] → motive (s.drop (w.width s)) → motive s) (s : List α) : motive s := by
  induction hn : s.length using Nat.strong_induction_on generalizing s with
  | _ n ih =>
      by_cases h : s = []
      · exact h ▸ nil
      · refine cut s h (ih _ ?_ _ rfl)
        have hpos := w.pos s h
        have hlength := List.length_pos_iff.2 h
        rw [List.length_drop]
        omega

@[simp] theorem flatten_pieces (s : List α) : (w.pieces s).flatten = s := by
  induction s using w.induction with
  | nil => rfl
  | cut s hs ih => rw [w.pieces_of_ne_nil hs, List.flatten_cons, ih, List.take_append_drop]

theorem ne_nil_of_mem_pieces {c : List α} (hc : c ∈ w.pieces s) : c ≠ [] := by
  induction s using w.induction with
  | nil => cases hc
  | cut s hs ih =>
      rw [w.pieces_of_ne_nil hs, List.mem_cons] at hc
      rcases hc with rfl | hc
      · rw [Ne, List.take_eq_nil_iff]
        rintro (hzero | hnil)
        · exact (w.pos s hs).ne' hzero
        · exact hs hnil
      · exact ih hc

/-! ## Borders -/

/-- Where the first `k` pieces end. -/
def offset (s : List α) (k : ℕ) : ℕ := ((w.pieces s).take k).flatten.length

@[simp] theorem offset_zero (s : List α) : w.offset s 0 = 0 := rfl

@[simp] theorem offset_nil (k : ℕ) : w.offset [] k = 0 := by simp [offset]

theorem offset_succ (h : s ≠ []) (k : ℕ) :
    w.offset s (k + 1) = w.width s + w.offset (s.drop (w.width s)) k := by
  rw [offset, w.pieces_of_ne_nil h, List.take_succ_cons, List.flatten_cons, List.length_append,
    List.length_take, Nat.min_eq_left (w.le s), offset]

theorem take_offset (s : List α) (k : ℕ) :
    s.take (w.offset s k) = ((w.pieces s).take k).flatten := by
  have hsplit : ((w.pieces s).take k).flatten ++ ((w.pieces s).drop k).flatten = s := by
    rw [← List.flatten_append, List.take_append_drop, w.flatten_pieces]
  exact (congrArg (List.take (w.offset s k)) hsplit.symm).trans List.take_left

theorem drop_offset (s : List α) (k : ℕ) :
    s.drop (w.offset s k) = ((w.pieces s).drop k).flatten := by
  refine List.append_cancel_left (show s.take (w.offset s k) ++ _ = s.take (w.offset s k) ++ _ from ?_)
  rw [List.take_append_drop, w.take_offset, ← List.flatten_append, List.take_append_drop,
    w.flatten_pieces]

theorem offset_le (s : List α) (k : ℕ) : w.offset s k ≤ s.length := by
  have hsplit := congrArg List.length (w.take_offset s k)
  rw [List.length_take] at hsplit
  change _ = w.offset s k at hsplit
  omega

theorem offset_of_le (h : (w.pieces s).length ≤ k) : w.offset s k = s.length := by
  rw [offset, List.take_of_length_le h, w.flatten_pieces]

theorem pieces_drop_offset (s : List α) (k : ℕ) :
    w.pieces (s.drop (w.offset s k)) = (w.pieces s).drop k := by
  induction k generalizing s with
  | zero => rfl
  | succ k ih =>
      by_cases h : s = []
      · subst h
        simp
      · rw [w.offset_succ h, ← List.drop_drop, ih, w.pieces_of_ne_nil h, List.drop_succ_cons]

/-- The pieces of a part that ends at a border are the first pieces. -/
theorem pieces_take_offset (s : List α) (k : ℕ) :
    w.pieces (s.take (w.offset s k)) = (w.pieces s).take k := by
  induction k generalizing s with
  | zero => simp
  | succ k ih =>
      by_cases h : s = []
      · subst h
        simp
      · have hpos := w.pos s h
        have hle := w.le s
        have hlength := w.offset_le s (k + 1)
        rw [w.offset_succ h] at hlength ⊢
        have hne : s.take (w.width s + w.offset (s.drop (w.width s)) k) ≠ [] := by
          rw [Ne, List.take_eq_nil_iff]
          rintro (hzero | hnil)
          · omega
          · exact h hnil
        have hwidth : w.width (s.take (w.width s + w.offset (s.drop (w.width s)) k)) = w.width s := by
          have hstable := w.stable _ (s.drop (w.width s + w.offset (s.drop (w.width s)) k)) hne
          rw [List.take_append_drop, List.length_take, Nat.min_eq_left hlength] at hstable
          exact hstable (Nat.le_add_right _ _)
        rw [w.pieces_of_ne_nil hne, hwidth, w.pieces_of_ne_nil h, List.take_succ_cons,
          List.take_take, Nat.min_eq_left (Nat.le_add_right _ _), List.drop_take,
          Nat.add_sub_cancel_left, ih]

theorem offset_add (s : List α) (j k : ℕ) :
    w.offset s (j + k) = w.offset s j + w.offset (s.drop (w.offset s j)) k := by
  rw [offset, List.take_add, List.flatten_append, List.length_append, ← w.pieces_drop_offset]
  rfl

theorem offset_mono (s : List α) (h : j ≤ k) : w.offset s j ≤ w.offset s k := by
  obtain ⟨d, rfl⟩ := Nat.exists_eq_add_of_le h
  rw [w.offset_add]
  exact Nat.le_add_right _ _

/-- What stands between two borders. -/
theorem take_drop_offset (s : List α) (j k : ℕ) :
    (s.take (w.offset s k)).drop (w.offset s j) = (((w.pieces s).take k).drop j).flatten := by
  rcases le_total j k with h | h
  · have hoffset : w.offset (s.take (w.offset s k)) j = w.offset s j := by
      rw [offset, w.pieces_take_offset, List.take_take, Nat.min_eq_left h, offset]
    rw [← hoffset, w.drop_offset, w.pieces_take_offset]
  · rw [List.drop_eq_nil_of_le, List.drop_eq_nil_of_le]
    · rfl
    · exact (List.length_take_le _ _).trans h
    · exact (List.length_take_le _ _).trans (w.offset_mono s h)

/-! ## From the end -/

/-- The last piece before a border. -/
theorem offset_succ_eq (hk : k < (w.pieces s).length) :
    w.offset s (k + 1) = w.offset s k + ((w.pieces s)[k]).length := by
  rw [offset, List.take_succ_eq_append_getElem hk, List.flatten_append, List.length_append]
  simp [offset]

/-- An element that is never inside a piece stands at a border. -/
theorem border_of_start {start : α → Prop}
    (hinside : ∀ s j x, 0 < j → j < w.width s → s[j]? = some x → ¬start x) {x : α}
    (hx : s[i]? = some x) (hstart : start x) : ∃ k, w.offset s k = i := by
  induction hn : i using Nat.strong_induction_on generalizing s i with
  | _ n ih =>
      subst hn
      have hs : s ≠ [] := by
        rintro rfl
        cases hx
      rcases Nat.eq_zero_or_pos i with rfl | hi
      · exact ⟨0, rfl⟩
      · have hle : w.width s ≤ i := by
          by_contra hlt
          exact hinside s i x hi (not_le.1 hlt) hx hstart
        have hpos := w.pos s hs
        obtain ⟨k, hk⟩ := ih (i - w.width s) (by omega) (s := s.drop (w.width s))
          (i := i - w.width s) (by rwa [List.getElem?_drop, Nat.add_sub_cancel' hle]) rfl
        refine ⟨k + 1, ?_⟩
        rw [w.offset_succ hs, hk]
        omega

/-- A border from which one piece reaches the end is the last one. -/
theorem pieces_eq_concat (hi : w.offset s k < s.length)
    (hwidth : w.width (s.drop (w.offset s k)) = s.length - w.offset s k) :
    w.pieces s = (w.pieces s).take k ++ [s.drop (w.offset s k)] := by
  have hne : s.drop (w.offset s k) ≠ [] := by
    rw [Ne, List.drop_eq_nil_iff]
    omega
  have hlength : w.width (s.drop (w.offset s k)) = (s.drop (w.offset s k)).length := by
    rw [hwidth, List.length_drop]
  have hlast : (w.pieces s).drop k = [s.drop (w.offset s k)] := by
    rw [← w.pieces_drop_offset, w.pieces_of_ne_nil hne, hlength, List.take_length, List.drop_length,
      w.pieces_nil]
  rw [← hlast, List.take_append_drop]

end Cutter

end Sky.Library
