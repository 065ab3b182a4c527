import Mathlib

/-! # Fair splits

Truncation and rounding of a rational, and an integer split into parts that differ by at most one,
the larger ones first. -/

namespace Sky.Library.FairSplit

/-! ## Truncation -/

/-- The integer part: digits after the point are dropped. -/
def trunc (q : ℚ) : ℤ := if 0 ≤ q then ⌊q⌋ else ⌈q⌉

variable {q : ℚ} {z : ℤ}

theorem trunc_neg : trunc (-q) = -trunc q := by
  unfold trunc
  rcases lt_trichotomy q 0 with h | rfl | h
  · rw [if_pos (by linarith), if_neg (by linarith), Int.floor_neg]
  · simp
  · rw [if_neg (by linarith), if_pos h.le, Int.ceil_neg]

theorem trunc_eq_of_nonneg (hz : 0 ≤ z) (hlow : z ≤ q) (hhigh : q < z + 1) : trunc q = z := by
  have hq : 0 ≤ q := le_trans (by exact_mod_cast hz) hlow
  rw [trunc, if_pos hq, Int.floor_eq_iff]
  exact ⟨hlow, hhigh⟩

theorem trunc_intCast (z : ℤ) : trunc z = z := by
  unfold trunc
  split <;> simp

/-- What is dropped has the sign of the number, and is below one. -/
theorem trunc_nonneg (h : 0 ≤ q) : (0 : ℚ) ≤ trunc q ∧ (trunc q : ℚ) ≤ q ∧ q < trunc q + 1 := by
  rw [trunc, if_pos h]
  exact ⟨by exact_mod_cast Int.floor_nonneg.2 h, Int.floor_le q, Int.lt_floor_add_one q⟩

theorem trunc_nonpos (h : q ≤ 0) : (trunc q : ℚ) ≤ 0 ∧ q ≤ trunc q ∧ trunc q - 1 < q := by
  obtain ⟨hsign, hlow, hhigh⟩ := trunc_nonneg (q := -q) (by linarith)
  rw [trunc_neg, Int.cast_neg] at hsign hlow hhigh
  exact ⟨by linarith, by linarith, by linarith⟩

theorem abs_sub_trunc_lt : |q - trunc q| < 1 := by
  rw [abs_lt]
  rcases le_total 0 q with h | h
  · obtain ⟨_, hlow, hhigh⟩ := trunc_nonneg h
    constructor <;> linarith
  · obtain ⟨_, hlow, hhigh⟩ := trunc_nonpos h
    constructor <;> linarith

/-! ## Rounding -/

/-- To so many digits after the point, a half away from zero. -/
def roundTo (digits : ℕ) (q : ℚ) : ℚ := trunc (q * 10 ^ digits + (if 0 ≤ q then 1 / 2 else -1 / 2)) / 10 ^ digits

theorem roundTo_neg (digits : ℕ) (h : q ≠ 0) : roundTo digits (-q) = -roundTo digits q := by
  have hneg : -q * 10 ^ digits + (if 0 ≤ -q then 1 / 2 else -1 / 2) =
      -(q * 10 ^ digits + (if 0 ≤ q then 1 / 2 else -1 / 2)) := by
    rcases lt_or_gt_of_ne h with h | h
    · rw [if_pos (by linarith), if_neg (by linarith)]
      ring
    · rw [if_neg (by linarith), if_pos h.le]
      ring
  rw [roundTo, hneg, trunc_neg, roundTo]
  push_cast
  ring

/-- The rounded number is at most half a last digit above, and never goes below a whole number that
the number is not below. -/
theorem roundTo_bounds (digits : ℕ) (h : 0 ≤ q) (hz : z ≤ q) :
    z ≤ roundTo digits q ∧ roundTo digits q ≤ q + 1 / (2 * 10 ^ digits) := by
  have hpow : (0 : ℚ) < 10 ^ digits := by positivity
  obtain ⟨_, hlow, hhigh⟩ := trunc_nonneg (q := q * 10 ^ digits + 1 / 2) (by positivity)
  rw [roundTo, if_pos h]
  constructor
  · rw [le_div_iff₀ hpow]
    have hwhole : ((z * 10 ^ digits : ℤ) : ℚ) < trunc (q * 10 ^ digits + 1 / 2) + 1 := by
      push_cast
      nlinarith [mul_le_mul_of_nonneg_right hz hpow.le]
    have hle : z * 10 ^ digits ≤ trunc (q * 10 ^ digits + 1 / 2) := by
      exact Int.lt_add_one_iff.1 (by exact_mod_cast hwhole)
    exact_mod_cast hle
  · rw [div_le_iff₀ hpow]
    calc (trunc (q * 10 ^ digits + 1 / 2) : ℚ) ≤ q * 10 ^ digits + 1 / 2 := hlow
      _ = (q + 1 / (2 * 10 ^ digits)) * 10 ^ digits := by field_simp

/-- Rounding a quotient does not carry it to the next whole number while the divisor is small. -/
theorem trunc_roundTo_div (digits n : ℕ) (hn : 0 < n) (hsmall : n < 2 * 10 ^ digits) (t : ℤ) :
    trunc (roundTo digits (t / n)) = t.tdiv n := by
  have hpos : (0 : ℚ) < n := by exact_mod_cast hn
  have hsmall : (n : ℚ) < 2 * 10 ^ digits := by exact_mod_cast hsmall
  -- Only a whole number that is not negative is needed: rounding is odd.
  have hnonneg : ∀ t : ℤ, 0 ≤ t → trunc (roundTo digits (t / n)) = t.tdiv n := by
    intro t ht
    have hdiv : t.tdiv n * n + t.tmod n = t := Int.tdiv_mul_add_tmod ..
    have hmod : t.tmod n < n := Int.tmod_lt_of_pos t (by exact_mod_cast hn)
    have hrest : 0 ≤ t.tmod n := Int.tmod_nonneg _ ht
    have hquot : 0 ≤ t.tdiv n := Int.tdiv_nonneg ht (by positivity)
    have hvalue : (t / n : ℚ) = t.tdiv n + t.tmod n / n := by
      rw [← mul_comm] at hdiv
      field_simp
      exact_mod_cast hdiv.symm
    have hlow : ((t.tdiv n : ℤ) : ℚ) ≤ t / n := by
      rw [hvalue]
      have hfraction : (0 : ℚ) ≤ (t.tmod n : ℚ) / n := by positivity
      linarith
    have hhigh : (t / n : ℚ) ≤ t.tdiv n + 1 - 1 / n := by
      have hlast : ((t.tmod n : ℤ) : ℚ) ≤ n - 1 := by exact_mod_cast Int.le_sub_one_of_lt hmod
      have hfraction : (t.tmod n : ℚ) / n ≤ (n - 1) / n := div_le_div_of_nonneg_right hlast hpos.le
      have hone : ((n : ℚ) - 1) / n = 1 - 1 / n := by field_simp
      linarith
    have hcarry : (1 : ℚ) / (2 * 10 ^ digits) < 1 / n := one_div_lt_one_div_of_lt hpos hsmall
    obtain ⟨hround, habove⟩ := roundTo_bounds digits (q := t / n) (by positivity) hlow
    exact trunc_eq_of_nonneg hquot hround (by linarith)
  rcases le_total 0 t with ht | ht
  · exact hnonneg t ht
  · rcases eq_or_ne t 0 with rfl | hne
    · exact hnonneg 0 le_rfl
    · have hquotient : ((-t : ℤ) / n : ℚ) = -(t / n) := by
        push_cast
        ring
      have hodd := hnonneg (-t) (by omega)
      rw [hquotient, roundTo_neg digits (by positivity), trunc_neg, Int.neg_tdiv] at hodd
      exact neg_injective hodd

/-! ## Shares -/

/-- The share of part `i`: one more of the total's sign while there is a remainder. -/
def share (total : ℤ) (parts i : ℕ) : ℤ :=
  total.tdiv parts + if i < (total.tmod parts).natAbs then (total.tmod parts).sign else 0

variable {total : ℤ} {parts : ℕ}

theorem sum_map_ite_lt (n k : ℕ) (s : ℤ) :
    ((List.range n).map fun i => if i < k then s else 0).sum = (min n k : ℕ) * s := by
  induction n with
  | zero => simp
  | succ n ih =>
      rw [List.range_succ, List.map_append, List.sum_append, ih]
      rcases Nat.lt_or_ge n k with hk | hk
      · rw [min_eq_left hk.le, min_eq_left (by omega : n + 1 ≤ k)]
        simp [hk]
        ring
      · rw [min_eq_right hk, min_eq_right (by omega : k ≤ n + 1)]
        simp [Nat.not_lt.2 hk]

theorem natAbs_tmod_lt (total : ℤ) (hparts : 0 < parts) : (total.tmod parts).natAbs < parts := by
  rw [Int.natAbs_tmod]
  exact Nat.mod_lt _ (by simpa using hparts)

theorem sum_share (total : ℤ) (hparts : 0 < parts) : ((List.range parts).map (share total parts)).sum = total := by
  have hlt := natAbs_tmod_lt total hparts
  calc ((List.range parts).map (share total parts)).sum
      = parts * total.tdiv parts + (total.tmod parts).natAbs * (total.tmod parts).sign := by
        unfold share
        rw [List.sum_map_add, sum_map_ite_lt, min_eq_right hlt.le, List.map_const', List.sum_replicate,
          List.length_range, nsmul_eq_mul]
    _ = parts * total.tdiv parts + total.tmod parts := by
        rw [mul_comm _ (Int.sign _), Int.sign_mul_natAbs]
    _ = total := Int.mul_tdiv_add_tmod ..

theorem share_nonneg (h : 0 ≤ total) (i : ℕ) : 0 ≤ share total parts i := by
  have hquot : 0 ≤ total.tdiv parts := Int.tdiv_nonneg h (by positivity)
  have hsign : 0 ≤ (total.tmod parts).sign := Int.sign_nonneg_iff.2 (Int.tmod_nonneg _ h)
  unfold share
  split <;> omega

theorem share_neg (i : ℕ) : share (-total) parts i = -share total parts i := by
  simp only [share, Int.neg_tdiv, Int.neg_tmod, Int.natAbs_neg, Int.sign_neg]
  split <;> omega

theorem share_nonpos (h : total ≤ 0) (i : ℕ) : share total parts i ≤ 0 := by
  have hneg : 0 ≤ share (-total) parts i := share_nonneg (neg_nonneg.2 h) i
  rw [share_neg] at hneg
  omega

/-- Later shares are at most as large, and by at most one less. -/
theorem share_le {i j : ℕ} (hij : i ≤ j) :
    |share total parts j| ≤ |share total parts i| ∧ |share total parts i - share total parts j| ≤ 1 := by
  have hsame : ∀ total : ℤ, 0 ≤ total →
      |share total parts j| ≤ |share total parts i| ∧
        |share total parts i - share total parts j| ≤ 1 := by
    intro total h
    have hone : (total.tmod parts).sign = 0 ∨ (total.tmod parts).sign = 1 := by
      have hmod : 0 ≤ total.tmod parts := Int.tmod_nonneg _ h
      rcases hmod.eq_or_lt with hzero | hpos
      · exact .inl (by rw [← hzero, Int.sign_zero])
      · exact .inr (Int.sign_eq_one_of_pos hpos)
    rw [abs_of_nonneg (share_nonneg h i), abs_of_nonneg (share_nonneg h j), abs_le]
    unfold share
    split <;> split <;> omega
  rcases le_total 0 total with h | h
  · exact hsame total h
  · obtain ⟨hlarger, hdiffer⟩ := hsame (-total) (neg_nonneg.2 h)
    simp only [share_neg, abs_neg] at hlarger hdiffer
    refine ⟨hlarger, ?_⟩
    rwa [neg_sub_neg, abs_sub_comm] at hdiffer

end Sky.Library.FairSplit
