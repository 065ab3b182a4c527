import Mathlib

/-! # Arrays indexed by a bitmap

A sparse array keeps one element for each set bit of a bitmap, in the order of
the bits: the element of bit `i` stands at the number of set bits below `i`. -/

namespace Sky.Library.Bitmap

variable {w : ℕ} {bm : BitVec w} {i j : ℕ} {α : Type*}

/-- The positions of the set bits, lowest first. -/
def ones (bm : BitVec w) : List ℕ := (List.range w).filter fun i => bm.getLsbD i

/-- The number of set bits. -/
def onesCount (bm : BitVec w) : ℕ := (ones bm).length

/-- The bitmap with bit `i` alone. -/
def bit (w i : ℕ) : BitVec w := 1#w <<< i

/-- The number of set bits below `i`, as the masked count that an index takes. -/
def rank (bm : BitVec w) (i : ℕ) : ℕ := onesCount (bm &&& (bit w i - 1#w))

theorem getLsbD_bit : (bit w i).getLsbD j = (decide (i < w) && decide (i = j)) := by
  rw [bit, ← BitVec.twoPow_eq, BitVec.getLsbD_twoPow]

theorem getLsbD_bit_sub_one (hi : i < w) : (bit w i - 1#w).getLsbD j = decide (j < i) := by
  have hle : (1#w).toNat ≤ (bit w i).toNat := by
    rw [bit, ← BitVec.twoPow_eq, BitVec.toNat_twoPow_of_lt hi, BitVec.toNat_one (by omega)]
    exact Nat.one_le_two_pow
  rw [BitVec.getLsbD, BitVec.toNat_sub_of_le hle, bit, ← BitVec.twoPow_eq,
    BitVec.toNat_twoPow_of_lt hi, BitVec.toNat_one (by omega), Nat.testBit_two_pow_sub_one]

theorem and_bit_eq_zero (hi : i < w) : bm &&& bit w i = 0#w ↔ bm.getLsbD i = false := by
  constructor
  · intro h
    have := congrArg (fun x : BitVec w => x.getLsbD i) h
    simpa only [BitVec.getLsbD_and, getLsbD_bit, hi, decide_true, Bool.and_true,
      BitVec.getLsbD_zero] using this
  · intro h
    refine BitVec.eq_of_getLsbD_eq fun j _ => ?_
    rw [BitVec.getLsbD_and, getLsbD_bit, BitVec.getLsbD_zero]
    by_cases hj : i = j
    · subst hj
      simp [h]
    · simp [hj]

/-! ## The set bits around one position -/

def below (bm : BitVec w) (i : ℕ) : List ℕ := (List.range i).filter fun i => bm.getLsbD i

def above (bm : BitVec w) (i : ℕ) : List ℕ :=
  (List.range' (i + 1) (w - (i + 1))).filter fun i => bm.getLsbD i

theorem lt_of_mem_below (h : j ∈ below bm i) : j < i :=
  List.mem_range.mp (List.mem_filter.mp h).1

theorem lt_of_mem_above (h : j ∈ above bm i) : i < j :=
  (List.mem_range'_1.mp (List.mem_filter.mp h).1).1

theorem ones_eq_append (hi : i < w) :
    ones bm = below bm i ++ ((if bm.getLsbD i then [i] else []) ++ above bm i) := by
  have hrange : List.range w = List.range i ++ i :: List.range' (i + 1) (w - (i + 1)) := by
    obtain ⟨d, rfl⟩ := Nat.exists_eq_add_of_lt hi
    rw [show i + d + 1 = i + (d + 1) by omega, List.range_add,
      show i + (d + 1) - (i + 1) = d by omega]
    congr 1
    rw [List.range_succ_eq_map, List.map_cons, Nat.add_zero, List.map_map]
    rw [List.range'_eq_map_range]
    congr 1
    exact List.map_congr_left fun k _ => by simp only [Function.comp]; omega
  rw [ones, hrange, List.filter_append, List.filter_cons]
  split_ifs <;> rfl

theorem ones_of_set (hi : i < w) (h : bm.getLsbD i = true) :
    ones bm = below bm i ++ i :: above bm i := by
  rw [ones_eq_append hi, if_pos h]
  rfl

theorem ones_of_unset (hi : i < w) (h : bm.getLsbD i = false) :
    ones bm = below bm i ++ above bm i := by
  rw [ones_eq_append hi, h]
  rfl

theorem below_congr {bm' : BitVec w} (h : ∀ j < i, bm'.getLsbD j = bm.getLsbD j) :
    below bm' i = below bm i :=
  List.filter_congr fun j hj => h j (List.mem_range.mp hj)

theorem above_congr {bm' : BitVec w} (h : ∀ j, i < j → bm'.getLsbD j = bm.getLsbD j) :
    above bm' i = above bm i :=
  List.filter_congr fun j hj => h j (List.mem_range'_1.mp hj).1

theorem rank_eq (hi : i < w) : rank bm i = (below bm i).length := by
  have hlow : ∀ j < i, (bm &&& (bit w i - 1#w)).getLsbD j = bm.getLsbD j := by
    intro j hj
    rw [BitVec.getLsbD_and, getLsbD_bit_sub_one hi, decide_eq_true hj, Bool.and_true]
  have hhigh : above (bm &&& (bit w i - 1#w)) i = [] := by
    refine List.filter_eq_nil_iff.mpr fun j hj => ?_
    have hj := (List.mem_range'_1.mp hj).1
    rw [BitVec.getLsbD_and, getLsbD_bit_sub_one hi, decide_eq_false (by omega)]
    simp
  have hself : (bm &&& (bit w i - 1#w)).getLsbD i = false := by
    rw [BitVec.getLsbD_and, getLsbD_bit_sub_one hi, decide_eq_false (by omega), Bool.and_false]
  rw [rank, onesCount, ones_of_unset hi hself, hhigh, below_congr hlow, List.append_nil]

/-! ## Setting and clearing a bit -/

theorem ones_or_bit (hi : i < w) : ones (bm ||| bit w i) = below bm i ++ i :: above bm i := by
  have hne : ∀ j, j ≠ i → (bm ||| bit w i).getLsbD j = bm.getLsbD j := by
    intro j hj
    rw [BitVec.getLsbD_or, getLsbD_bit, decide_eq_false (Ne.symm hj), Bool.and_false, Bool.or_false]
  rw [ones_of_set hi (by simp [getLsbD_bit, hi]), below_congr fun j hj => hne j (Nat.ne_of_lt hj),
    above_congr fun j hj => hne j (Nat.ne_of_gt hj)]

theorem ones_and_not_bit (hi : i < w) : ones (bm &&& ~~~bit w i) = below bm i ++ above bm i := by
  have hne : ∀ j, j ≠ i → (bm &&& ~~~bit w i).getLsbD j = bm.getLsbD j := by
    intro j hj
    by_cases hjw : j < w
    · rw [BitVec.getLsbD_and, BitVec.getLsbD_not, getLsbD_bit, decide_eq_false (Ne.symm hj),
        decide_eq_true hjw, Bool.and_false, Bool.not_false, Bool.and_true, Bool.and_true]
    · rw [BitVec.getLsbD_of_ge _ _ (by omega), BitVec.getLsbD_of_ge _ _ (by omega)]
  have hself : (bm &&& ~~~bit w i).getLsbD i = false := by
    rw [BitVec.getLsbD_and, BitVec.getLsbD_not, getLsbD_bit, decide_eq_true hi, decide_eq_true rfl]
    exact Bool.and_false _
  rw [ones_of_unset hi hself, below_congr fun j hj => hne j (Nat.ne_of_lt hj),
    above_congr fun j hj => hne j (Nat.ne_of_gt hj)]

theorem ones_bit (hi : i < w) : ones (bit w i) = [i] := by
  have hnone : ∀ j, (0#w).getLsbD j = false := fun j => BitVec.getLsbD_zero
  have hbelow : below 0#w i = [] := List.filter_eq_nil_iff.mpr fun j _ => by simp [hnone j]
  have habove : above 0#w i = [] := List.filter_eq_nil_iff.mpr fun j _ => by simp [hnone j]
  have h : ones (0#w ||| bit w i) = below 0#w i ++ i :: above 0#w i := ones_or_bit hi
  rwa [BitVec.zero_or, hbelow, habove] at h

/-- Two bits, the lower one first. -/
theorem ones_bit_or_bit (hij : i < j) (hj : j < w) : ones (bit w i ||| bit w j) = [i, j] := by
  have hclear : (bit w i).getLsbD j = false := by
    rw [getLsbD_bit, decide_eq_false (Nat.ne_of_lt hij), Bool.and_false]
  have hones := ones_of_unset hj hclear
  rw [ones_bit (Nat.lt_trans hij hj)] at hones
  have habove : above (bit w i) j = [] := by
    refine List.eq_nil_iff_forall_not_mem.mpr fun l hl => ?_
    have hmem : l ∈ [i] := hones ▸ List.mem_append_right _ hl
    have := lt_of_mem_above hl
    have := List.mem_singleton.mp hmem
    omega
  rw [habove, List.append_nil] at hones
  rw [ones_or_bit hj, ← hones, habove]
  rfl

/-! ## The array as an association list -/

/-- The elements with the bit that each one belongs to. -/
def bindings (bm : BitVec w) (xs : List α) : List (ℕ × α) := (ones bm).zip xs

theorem map_snd_bindings {xs : List α} (h : xs.length = onesCount bm) :
    (bindings bm xs).map Prod.snd = xs :=
  List.map_snd_zip (Nat.le_of_eq h)

/-- The array around a set bit: the element of bit `i` stands at its rank. -/
structure SplitAt (bm : BitVec w) (i : ℕ) (xs : List α) (x : α) (front back : List (ℕ × α)) :
    Prop where
  frontBits : front.map Prod.fst = below bm i
  backBits : back.map Prod.fst = above bm i
  array : xs = front.map Prod.snd ++ x :: back.map Prod.snd
  bindings : bindings bm xs = front ++ (i, x) :: back

/-- The array around a clear bit. -/
structure GapAt (bm : BitVec w) (i : ℕ) (xs : List α) (front back : List (ℕ × α)) : Prop where
  frontBits : front.map Prod.fst = below bm i
  backBits : back.map Prod.fst = above bm i
  array : xs = front.map Prod.snd ++ back.map Prod.snd
  bindings : bindings bm xs = front ++ back

theorem exists_splitAt {xs : List α} (hi : i < w) (hlen : xs.length = onesCount bm)
    (h : bm.getLsbD i = true) : ∃ x front back, SplitAt bm i xs x front back := by
  have hones := ones_of_set hi h
  rw [onesCount, hones] at hlen
  simp only [List.length_append, List.length_cons] at hlen
  have hfront : (below bm i).length = (xs.take (below bm i).length).length := by
    rw [List.length_take]
    omega
  cases hdrop : xs.drop (below bm i).length with
  | nil =>
      have := congrArg List.length hdrop
      rw [List.length_drop, List.length_nil] at this
      omega
  | cons x rest =>
      have hxs : xs = xs.take (below bm i).length ++ x :: rest := by
        rw [← hdrop, List.take_append_drop]
      have hback : (above bm i).length = rest.length := by
        have := congrArg List.length hdrop
        rw [List.length_drop, List.length_cons] at this
        omega
      refine ⟨x, (below bm i).zip (xs.take (below bm i).length), (above bm i).zip rest,
        List.map_fst_zip (Nat.le_of_eq hfront), List.map_fst_zip (Nat.le_of_eq hback), ?_, ?_⟩
      · rw [List.map_snd_zip (Nat.le_of_eq hfront.symm), List.map_snd_zip (Nat.le_of_eq hback.symm)]
        exact hxs
      · rw [Bitmap.bindings, hones]
        conv_lhs => rw [hxs]
        rw [List.zip_append hfront, List.zip_cons_cons]

theorem exists_gapAt {xs : List α} (hi : i < w) (hlen : xs.length = onesCount bm)
    (h : bm.getLsbD i = false) : ∃ front back, GapAt bm i xs front back := by
  have hones := ones_of_unset hi h
  rw [onesCount, hones, List.length_append] at hlen
  have hfront : (below bm i).length = (xs.take (below bm i).length).length := by
    rw [List.length_take]
    omega
  have hback : (above bm i).length = (xs.drop (below bm i).length).length := by
    rw [List.length_drop]
    omega
  refine ⟨(below bm i).zip (xs.take (below bm i).length),
    (above bm i).zip (xs.drop (below bm i).length),
    List.map_fst_zip (Nat.le_of_eq hfront), List.map_fst_zip (Nat.le_of_eq hback), ?_, ?_⟩
  · rw [List.map_snd_zip (Nat.le_of_eq hfront.symm), List.map_snd_zip (Nat.le_of_eq hback.symm),
      List.take_append_drop]
  · rw [Bitmap.bindings, hones]
    conv_lhs => rw [← List.take_append_drop (below bm i).length xs]
    rw [List.zip_append hfront]

namespace SplitAt

variable {xs : List α} {x : α} {front back : List (ℕ × α)}

theorem length_front (h : SplitAt bm i xs x front back) (hi : i < w) :
    front.length = rank bm i := by
  rw [rank_eq hi, ← h.frontBits, List.length_map]

theorem front_lt (h : SplitAt bm i xs x front back) : ∀ p ∈ front, p.1 < i :=
  fun _ hp => lt_of_mem_below (h.frontBits ▸ List.mem_map_of_mem hp)

theorem back_gt (h : SplitAt bm i xs x front back) : ∀ p ∈ back, i < p.1 :=
  fun _ hp => lt_of_mem_above (h.backBits ▸ List.mem_map_of_mem hp)

/-- The element of a set bit is replaced at its rank. -/
theorem set (h : SplitAt bm i xs x front back) (y : α) (hi : i < w) (hset : bm.getLsbD i = true) :
    SplitAt bm i (front.map Prod.snd ++ y :: back.map Prod.snd) y front back := by
  refine ⟨h.frontBits, h.backBits, rfl, ?_⟩
  rw [Bitmap.bindings, ones_of_set hi hset, ← h.frontBits, ← h.backBits,
    List.zip_append (by rw [List.length_map, List.length_map]), List.zip_cons_cons,
    ← List.zip_of_prod rfl rfl, ← List.zip_of_prod rfl rfl]

/-- Clearing the bit takes its element out. -/
theorem erase (h : SplitAt bm i xs x front back) (hi : i < w) :
    Bitmap.bindings (bm &&& ~~~bit w i) (front.map Prod.snd ++ back.map Prod.snd) =
      front ++ back := by
  rw [Bitmap.bindings, ones_and_not_bit hi, ← h.frontBits, ← h.backBits,
    List.zip_append (by rw [List.length_map, List.length_map]),
    ← List.zip_of_prod rfl rfl, ← List.zip_of_prod rfl rfl]

theorem onesCount_erase (h : SplitAt bm i xs x front back) (hi : i < w) :
    onesCount (bm &&& ~~~bit w i) = front.length + back.length := by
  rw [onesCount, ones_and_not_bit hi, ← h.frontBits, ← h.backBits, List.length_append,
    List.length_map,
    List.length_map]

end SplitAt

namespace GapAt

variable {xs : List α} {front back : List (ℕ × α)}

theorem length_front (h : GapAt bm i xs front back) (hi : i < w) : front.length = rank bm i := by
  rw [rank_eq hi, ← h.frontBits, List.length_map]

theorem front_lt (h : GapAt bm i xs front back) : ∀ p ∈ front, p.1 < i :=
  fun _ hp => lt_of_mem_below (h.frontBits ▸ List.mem_map_of_mem hp)

theorem back_gt (h : GapAt bm i xs front back) : ∀ p ∈ back, i < p.1 :=
  fun _ hp => lt_of_mem_above (h.backBits ▸ List.mem_map_of_mem hp)

/-- Setting the bit puts an element in at the bit's rank. -/
theorem insert (h : GapAt bm i xs front back) (y : α) (hi : i < w) :
    Bitmap.bindings (bm ||| bit w i) (front.map Prod.snd ++ y :: back.map Prod.snd) =
      front ++ (i, y) :: back := by
  rw [Bitmap.bindings, ones_or_bit hi, ← h.frontBits, ← h.backBits,
    List.zip_append (by rw [List.length_map, List.length_map]), List.zip_cons_cons,
    ← List.zip_of_prod rfl rfl, ← List.zip_of_prod rfl rfl]

theorem onesCount_insert (h : GapAt bm i xs front back) (hi : i < w) :
    onesCount (bm ||| bit w i) = front.length + (back.length + 1) := by
  rw [onesCount, ones_or_bit hi, ← h.frontBits, ← h.backBits, List.length_append, List.length_cons,
    List.length_map, List.length_map]

end GapAt

end Sky.Library.Bitmap
