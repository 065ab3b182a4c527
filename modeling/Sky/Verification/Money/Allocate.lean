import Sky.Model.Money

/-! # A split is exact and fair -/

namespace Sky.Money

open Library.FairSplit

variable {D : Type} {dec : Decimals D}

/-! ## Boxes and places -/

theorem decimalBox_of_le {d : D} (h : |dec.exponent d| ≤ decimalExponentMax) :
    decimalBox dec d = .ok ⟨d, h⟩ :=
  dif_pos h

theorem decimalPlaces_of_le {op : String} {n : ℤ} (h : |n| ≤ decimalExponentMax) :
    decimalPlaces op n = .ok n := by
  rw [abs_le] at h
  exact if_neg (by omega)

theorem mapM_decimalBox {f : ℕ → D} (l : List ℕ)
    (h : ∀ i ∈ l, |dec.exponent (f i)| ≤ decimalExponentMax) :
    ∃ out, l.mapM (fun i => decimalBox dec (f i)) = .ok out ∧
      out.map Boxed.value = l.map fun i => dec.value (f i) := by
  induction l with
  | nil => exact ⟨[], rfl, rfl⟩
  | cons i l ih =>
      obtain ⟨out, hout, hvalues⟩ := ih fun j hj => h j (.tail _ hj)
      refine ⟨⟨f i, h i (.head _)⟩ :: out, ?_, ?_⟩
      · simp only [List.mapM_cons, decimalBox_of_le (h i (.head _)), hout]
        rfl
      · rw [List.map_cons, hvalues]
        rfl

/-! ## The values of a split -/

/-- The amount in whole minor units. -/
def minorUnits (dec : Decimals D) (places : ℤ) (amount : D) : ℤ :=
  trunc (dec.value amount * 10 ^ places)

/-- What is below a minor unit. -/
def residue (dec : Decimals D) (places : ℤ) (amount : D) : ℚ :=
  dec.value amount - minorUnits dec places amount * 10 ^ (-places)

theorem abs_residue_lt (places : ℤ) (amount : D) : |residue dec places amount| < 10 ^ (-places) := by
  have hpow : (0 : ℚ) < 10 ^ (-places) := by positivity
  have hcancel : (10 : ℚ) ^ places * 10 ^ (-places) = 1 := by
    rw [← zpow_add₀ (by norm_num), add_neg_cancel, zpow_zero]
  have hscaled : residue dec places amount =
      (dec.value amount * 10 ^ places - minorUnits dec places amount) * 10 ^ (-places) := by
    rw [sub_mul, mul_assoc, hcancel, mul_one]
    rfl
  rw [hscaled, abs_mul, abs_of_pos hpow]
  exact mul_lt_of_lt_one_left hpow abs_sub_trunc_lt

theorem minorUnits_cancel (places : ℤ) (q : ℚ) : q * 10 ^ places * 10 ^ (-places) = q := by
  rw [mul_assoc, ← zpow_add₀ (by norm_num), add_neg_cancel, zpow_zero, mul_one]

/-- The whole units and the residue have the amount's sign. -/
theorem residue_nonneg (places : ℤ) {amount : D} (h : 0 ≤ dec.value amount) :
    0 ≤ minorUnits dec places amount ∧ 0 ≤ residue dec places amount := by
  have hpow : (0 : ℚ) < 10 ^ (-places) := by positivity
  obtain ⟨hsign, hlow, _⟩ := trunc_nonneg (q := dec.value amount * 10 ^ places) (by positivity)
  have hunits := mul_le_mul_of_nonneg_right hlow hpow.le
  rw [minorUnits_cancel] at hunits
  exact ⟨by exact_mod_cast hsign, sub_nonneg.2 hunits⟩

theorem residue_nonpos (places : ℤ) {amount : D} (h : dec.value amount ≤ 0) :
    minorUnits dec places amount ≤ 0 ∧ residue dec places amount ≤ 0 := by
  have hpow : (0 : ℚ) < 10 ^ (-places) := by positivity
  have hscaled : dec.value amount * 10 ^ places ≤ 0 := mul_nonpos_of_nonpos_of_nonneg h (by positivity)
  obtain ⟨hsign, hlow, _⟩ := trunc_nonpos hscaled
  have hunits := mul_le_mul_of_nonneg_right hlow hpow.le
  rw [minorUnits_cancel] at hunits
  exact ⟨by exact_mod_cast hsign, sub_nonpos.2 hunits⟩

/-- The value of part `i`. -/
def partValue (dec : Decimals D) (places : ℤ) (parts : ℕ) (amount : D) (i : ℕ) : ℚ :=
  share (minorUnits dec places amount) parts i * 10 ^ (-places) +
    if i = 0 then residue dec places amount else 0

theorem partValue_sum (places : ℤ) {parts : ℕ} (hparts : 0 < parts) (amount : D) :
    ((List.range parts).map (partValue dec places parts amount)).sum = dec.value amount := by
  obtain ⟨n, rfl⟩ : ∃ n, parts = n + 1 := ⟨parts - 1, by omega⟩
  have hfirst : ((List.range (n + 1)).map fun i =>
      if i = 0 then residue dec places amount else 0).sum = residue dec places amount := by
    simp [List.range_succ_eq_map, Function.comp_def]
  have hshares : ((List.range (n + 1)).map fun i =>
      (share (minorUnits dec places amount) (n + 1) i : ℚ)).sum = minorUnits dec places amount := by
    have hsum := sum_share (minorUnits dec places amount) hparts
    have hcast := congrArg (Int.cast : ℤ → ℚ) hsum
    rwa [Int.cast_list_sum, List.map_map] at hcast
  unfold partValue
  rw [List.sum_map_add, List.sum_map_mul_right, hshares, hfirst]
  exact add_sub_cancel ..

theorem partValue_nonneg {places : ℤ} {amount : D} (h : 0 ≤ dec.value amount) (parts i : ℕ) :
    0 ≤ partValue dec places parts amount i := by
  obtain ⟨hunits, hrest⟩ := residue_nonneg places h
  have hshare : (0 : ℚ) ≤ share (minorUnits dec places amount) parts i := by
    exact_mod_cast share_nonneg hunits i
  unfold partValue
  split <;> positivity

theorem partValue_nonpos {places : ℤ} {amount : D} (h : dec.value amount ≤ 0) (parts i : ℕ) :
    partValue dec places parts amount i ≤ 0 := by
  obtain ⟨hunits, hrest⟩ := residue_nonpos places h
  have hshare : (share (minorUnits dec places amount) parts i : ℚ) ≤ 0 := by
    exact_mod_cast share_nonpos hunits i
  have hscaled := mul_nonpos_of_nonpos_of_nonneg hshare (by positivity : (0 : ℚ) ≤ 10 ^ (-places))
  unfold partValue
  split <;> linarith

/-! ## The parts that are built -/

section

variable (hdec : dec.Lawful) {places : ℤ} {parts : ℕ} {amount : D}
include hdec

theorem value_totalMinor :
    dec.value (dec.truncate (dec.shift amount places)) = minorUnits dec places amount := by
  rw [hdec.truncate, hdec.shift]
  rfl

theorem value_subMinor :
    dec.value (dec.sub amount (dec.shift (dec.truncate (dec.shift amount places)) (-places))) =
      residue dec places amount := by
  rw [hdec.sub, hdec.shift, value_totalMinor hdec]
  rfl

/-- The rounded quotient has the whole part of the exact one. -/
theorem value_base (hparts : 0 < parts) (hmax : parts ≤ moneyAllocateMaxParts) :
    dec.value (dec.truncate (dec.div (dec.truncate (dec.shift amount places))
      (dec.newFromInt parts))) = (minorUnits dec places amount).tdiv parts := by
  have hsmall : parts < 2 * 10 ^ divisionPrecision := by
    unfold moneyAllocateMaxParts at hmax
    unfold divisionPrecision
    omega
  have hne : dec.value (dec.newFromInt parts) ≠ 0 := by
    rw [hdec.newFromInt]
    exact_mod_cast hparts.ne'
  rw [hdec.truncate, hdec.div _ _ hne, value_totalMinor hdec, hdec.newFromInt, Int.cast_natCast,
    trunc_roundTo_div _ _ hparts hsmall]

theorem intPart_remainder (hparts : 0 < parts) (hmax : parts ≤ moneyAllocateMaxParts) :
    dec.intPart (dec.sub (dec.truncate (dec.shift amount places))
      (dec.mul (dec.truncate (dec.div (dec.truncate (dec.shift amount places))
        (dec.newFromInt parts))) (dec.newFromInt parts))) =
      (minorUnits dec places amount).tmod parts := by
  have hvalue : dec.value (dec.sub (dec.truncate (dec.shift amount places))
      (dec.mul (dec.truncate (dec.div (dec.truncate (dec.shift amount places))
        (dec.newFromInt parts))) (dec.newFromInt parts))) =
      ((minorUnits dec places amount).tmod parts : ℤ) := by
    rw [hdec.sub, hdec.mul, value_base hdec hparts hmax, value_totalMinor hdec, hdec.newFromInt,
      Int.tmod_def]
    push_cast
    ring
  have hlt := natAbs_tmod_lt (minorUnits dec places amount) hparts
  rw [hdec.intPart, hvalue, trunc_intCast]
  rw [hvalue, trunc_intCast, Int.abs_eq_natAbs]
  unfold moneyAllocateMaxParts at hmax
  omega

theorem value_part {base subMinor : D} {total : ℤ} {rest : ℚ}
    (hbase : dec.value base = total.tdiv parts) (hrest : dec.value subMinor = rest) (i : ℕ) :
    dec.value (part dec places (if total.tmod parts < 0 then -1 else 1) (total.tmod parts).natAbs base
      subMinor i) = share total parts i * 10 ^ (-places) + if i = 0 then rest else 0 := by
  have hshare : dec.value (if i < (total.tmod parts).natAbs then
      dec.add base (dec.newFromInt (if total.tmod parts < 0 then -1 else 1)) else base) =
      share total parts i := by
    unfold share
    split
    · have hsign : (if total.tmod parts < 0 then (-1 : ℤ) else 1) = (total.tmod parts).sign := by
        split
        · rw [Int.sign_eq_neg_one_of_neg ‹_›]
        · rw [Int.sign_eq_one_of_pos (by omega)]
      rw [hdec.add, hdec.newFromInt, hbase, hsign]
      push_cast
      ring
    · rw [hbase, add_zero]
  unfold part
  simp only
  split
  · rw [hdec.add, hdec.shift, hshare, hrest]
  · rw [hdec.shift, hshare, add_zero]

/-- Every part is in range. -/
theorem exponent_part (hplaces : |places| ≤ decimalExponentMax)
    (hamount : |dec.exponent amount| ≤ decimalExponentMax) (sign : ℤ) (n i : ℕ) (b : D) :
    |dec.exponent (part dec places sign n (dec.truncate (dec.div (dec.truncate
      (dec.shift amount places)) b)) (dec.sub amount (dec.shift (dec.truncate
        (dec.shift amount places)) (-places))) i)| ≤ decimalExponentMax := by
  have hbase : dec.exponent (dec.truncate (dec.div (dec.truncate (dec.shift amount places)) b)) = 0 := by
    rw [hdec.exponent_truncate, hdec.exponent_div]
    decide
  have hmajor : ∀ share, dec.exponent share = 0 → dec.exponent (dec.shift share (-places)) = -places := by
    intro share hshare
    rw [hdec.exponent_shift, hshare, zero_add]
  have hshare : dec.exponent (if i < n then dec.add (dec.truncate (dec.div (dec.truncate
      (dec.shift amount places)) b)) (dec.newFromInt sign)
      else dec.truncate (dec.div (dec.truncate (dec.shift amount places)) b)) = 0 := by
    split
    · rw [hdec.exponent_add, hbase, hdec.exponent_newFromInt, min_self]
    · exact hbase
  rw [abs_le] at hplaces hamount ⊢
  unfold part
  simp only
  split
  · rw [hdec.exponent_add, hmajor _ hshare, hdec.exponent_sub, hdec.exponent_shift,
      hdec.exponent_truncate, hdec.exponent_shift]
    omega
  · rw [hmajor _ hshare]
    omega

theorem allocateParts_values (hparts : 0 < parts) (hmax : parts ≤ moneyAllocateMaxParts)
    (hplaces : |places| ≤ decimalExponentMax) (hamount : |dec.exponent amount| ≤ decimalExponentMax) :
    ∃ out, allocateParts dec places parts amount = .ok out ∧
      out.map Boxed.value = (List.range parts).map (partValue dec places parts amount) := by
  unfold allocateParts
  simp only [intPart_remainder hdec hparts hmax]
  obtain ⟨out, hout, hvalues⟩ := mapM_decimalBox (List.range parts)
    fun i _ => exponent_part hdec hplaces hamount _ _ i _
  refine ⟨out, hout, hvalues.trans ?_⟩
  apply List.map_congr_left
  intro i _
  exact value_part hdec (value_base hdec hparts hmax) (value_subMinor hdec) i

end

/-! ## The split -/

/-- The parts are as many as asked for, sum to the amount and have its sign. But for a rest below a
minor unit in the first part, they are whole minor units that differ by at most one, the larger
first. -/
theorem allocate_exact (hdec : dec.Lawful) {places parts : ℤ} (hplaces : |places| ≤ decimalExponentMax)
    (hone : 1 ≤ parts) (hmax : parts ≤ moneyAllocateMaxParts) (amount : Boxed dec) :
    ∃ out, allocate dec places parts amount = .ok out ∧ (out.length : ℤ) = parts ∧
      (out.map Boxed.value).sum = amount.value ∧
      (∀ p ∈ out, (0 ≤ amount.value → 0 ≤ p.value) ∧ (amount.value ≤ 0 → p.value ≤ 0)) ∧
      ∃ (units : List ℤ) (rest : ℚ), |rest| < 10 ^ (-places) ∧
        out.map Boxed.value =
          (units.map fun u : ℤ => (u : ℚ) * 10 ^ (-places)).modifyHead (· + rest) ∧
        units.Pairwise fun u v => |v| ≤ |u| ∧ |u - v| ≤ 1 := by
  obtain ⟨n, rfl⟩ : ∃ n : ℕ, parts = n := ⟨parts.toNat, by omega⟩
  have hn : 0 < n := by omega
  obtain ⟨out, hout, hvalues⟩ := allocateParts_values hdec hn hmax hplaces amount.inRange
  have hallocate : allocate dec places n amount = .ok out := by
    have hle : ¬(n : ℤ) > moneyAllocateMaxParts := by omega
    have hpos : ¬(n : ℤ) ≤ 0 := by omega
    unfold allocate
    rw [decimalPlaces_of_le hplaces, ← hout]
    exact (if_neg hpos).trans (if_neg hle)
  refine ⟨out, hallocate, ?_, ?_, ?_, ?_⟩
  · have hlength := congrArg List.length hvalues
    simpa using hlength
  · rw [hvalues]
    exact partValue_sum places hn amount.decimal
  · intro p hp
    have hmem : p.value ∈ out.map Boxed.value := List.mem_map_of_mem hp
    rw [hvalues] at hmem
    obtain ⟨i, _, hi⟩ := List.mem_map.1 hmem
    rw [← hi]
    exact ⟨fun h => partValue_nonneg h n i, fun h => partValue_nonpos h n i⟩
  · refine ⟨(List.range n).map (share (minorUnits dec places amount.decimal) n),
      residue dec places amount.decimal, abs_residue_lt .., ?_, ?_⟩
    · rw [hvalues]
      obtain ⟨m, rfl⟩ : ∃ m, n = m + 1 := ⟨n - 1, by omega⟩
      simp [List.range_succ_eq_map, partValue, Function.comp_def]
    · rw [List.pairwise_map]
      apply List.pairwise_lt_range.imp
      intro i j hij
      exact share_le hij.le

/-! ## Decimals of a coefficient and an exponent -/

structure Decimal where
  coefficient : ℤ
  exponent : ℤ

namespace Decimal

def value (d : Decimal) : ℚ := d.coefficient * 10 ^ d.exponent

/-- The coefficient at a smaller exponent. -/
def rescaled (d : Decimal) (exponent : ℤ) : ℤ := d.coefficient * 10 ^ (d.exponent - exponent).toNat

theorem value_rescaled {d : Decimal} {exponent : ℤ} (h : exponent ≤ d.exponent) :
    (d.rescaled exponent : ℚ) * 10 ^ exponent = d.value := by
  have hnat : (10 : ℚ) ^ (d.exponent - exponent).toNat = 10 ^ (d.exponent - exponent) := by
    rw [← zpow_natCast, Int.toNat_of_nonneg (by omega)]
  unfold rescaled value
  rw [Int.cast_mul, Int.cast_pow, Int.cast_ofNat, hnat, mul_assoc, ← zpow_add₀ (by norm_num),
    sub_add_cancel]

def operations : Decimals Decimal where
  value := value
  exponent := exponent
  newFromInt n := ⟨n, 0⟩
  add a b :=
    ⟨a.rescaled (min a.exponent b.exponent) + b.rescaled (min a.exponent b.exponent),
      min a.exponent b.exponent⟩
  sub a b :=
    ⟨a.rescaled (min a.exponent b.exponent) - b.rescaled (min a.exponent b.exponent),
      min a.exponent b.exponent⟩
  mul a b := ⟨a.coefficient * b.coefficient, a.exponent + b.exponent⟩
  div a b :=
    ⟨trunc (roundTo divisionPrecision (a.value / b.value) * 10 ^ divisionPrecision),
      -divisionPrecision⟩
  shift d n := ⟨d.coefficient, d.exponent + n⟩
  truncate d := if 0 ≤ d.exponent then d else ⟨trunc d.value, 0⟩
  intPart d := (trunc d.value).bmod (2 ^ 64)
  zero := ⟨0, 1⟩
  exponent_zero := rfl

theorem lawful : operations.Lawful where
  newFromInt n := by simp [operations, value]
  add a b := by
    have ha := value_rescaled (min_le_left a.exponent b.exponent)
    have hb := value_rescaled (min_le_right a.exponent b.exponent)
    simp only [operations]
    rw [← ha, ← hb, ← add_mul]
    simp [value]
  sub a b := by
    have ha := value_rescaled (min_le_left a.exponent b.exponent)
    have hb := value_rescaled (min_le_right a.exponent b.exponent)
    simp only [operations]
    rw [← ha, ← hb, ← sub_mul]
    simp [value]
  mul a b := by
    simp only [operations, value]
    rw [zpow_add₀ (by norm_num)]
    push_cast
    ring
  div a b _ := by
    have hpow : (10 : ℚ) ^ divisionPrecision ≠ 0 := by positivity
    simp only [operations]
    generalize a.value / b.value = q
    have hwhole : roundTo divisionPrecision q * 10 ^ divisionPrecision =
        trunc (q * 10 ^ divisionPrecision + (if 0 ≤ q then 1 / 2 else -1 / 2)) :=
      div_mul_cancel₀ _ hpow
    rw [hwhole, trunc_intCast]
    simp only [value, zpow_neg, zpow_natCast]
    exact (div_eq_mul_inv _ _).symm
  shift d n := by
    simp only [operations, value]
    rw [zpow_add₀ (by norm_num), mul_assoc]
  truncate d := by
    simp only [operations]
    split
    · rename_i h
      have hinteger : d.value = ((d.coefficient * 10 ^ d.exponent.toNat : ℤ) : ℚ) := by
        unfold value
        rw [Int.cast_mul, Int.cast_pow, ← zpow_natCast, Int.toNat_of_nonneg h, Int.cast_ofNat]
      rw [hinteger, trunc_intCast]
    · simp [value]
  intPart d h := by
    simp only [operations] at h ⊢
    rw [abs_lt] at h
    exact Int.bmod_eq_of_le (by norm_num; omega) (by norm_num; omega)
  exponent_newFromInt _ := rfl
  exponent_add _ _ := rfl
  exponent_sub _ _ := rfl
  exponent_div _ _ := rfl
  exponent_shift _ _ := rfl
  exponent_truncate d := by
    simp only [operations]
    split
    · exact (max_eq_left ‹_›).symm
    · exact (max_eq_right (le_of_not_ge ‹_›)).symm

end Decimal

/-- A negative amount that is finer than a cent. -/
def refund : Boxed Decimal.operations := ⟨⟨-1005, -3⟩, by decide⟩

theorem refund_exact :
    ∃ out, allocate Decimal.operations 2 3 refund = .ok out ∧ (out.length : ℤ) = 3 ∧
      (out.map Boxed.value).sum = refund.value ∧
      (∀ p ∈ out, (0 ≤ refund.value → 0 ≤ p.value) ∧ (refund.value ≤ 0 → p.value ≤ 0)) ∧
      ∃ (units : List ℤ) (rest : ℚ), |rest| < 10 ^ (-2 : ℤ) ∧
        out.map Boxed.value =
          (units.map fun u : ℤ => (u : ℚ) * 10 ^ (-2 : ℤ)).modifyHead (· + rest) ∧
        units.Pairwise fun u v => |v| ≤ |u| ∧ |u - v| ≤ 1 :=
  allocate_exact Decimal.lawful (by decide) (by decide) (by decide) refund

end Sky.Money
