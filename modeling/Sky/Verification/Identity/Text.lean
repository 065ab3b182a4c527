import Sky.Model.Strconv
import Sky.Library.PrefixCode

/-! # The decimal text of a number determines it -/

namespace Sky.Strconv

open Sky.Library

/-! ## Digits -/

/-- The number a list of digits denotes, most significant first. -/
def readDigits (ds : List ℕ) : ℕ := Nat.ofDigits 10 ds.reverse

def Digits (ds : List ℕ) : Prop := ∀ d ∈ ds, d < 10

theorem digit_inj {d d' : ℕ} (h : d < 10) (h' : d' < 10) (heq : digit d = digit d') : d = d' := by
  have := congrArg Fin.val heq
  simp only [digit, Fin.ofNat] at this
  omega

theorem digit_val {d : ℕ} (h : d < 10) : (digit d).val = 48 + d := by
  simp only [digit, Fin.ofNat]
  omega

/-- A byte that no digit is. -/
def NonDigit (b : Byte) : Prop := b.val < 48 ∨ 57 < b.val

theorem digit_ne {d : ℕ} {b : Byte} (h : d < 10) (hb : NonDigit b) : digit d ≠ b := by
  intro heq
  have := digit_val h
  rw [heq] at this
  rcases hb with hb | hb <;> omega

theorem notMem_map_digit {ds : List ℕ} {b : Byte} (h : Digits ds) (hb : NonDigit b) :
    b ∉ ds.map digit := by
  intro hmem
  obtain ⟨d, hd, heq⟩ := List.mem_map.mp hmem
  exact digit_ne (h d hd) hb heq

theorem map_digit_inj {ds ds' : List ℕ} (h : Digits ds) (h' : Digits ds')
    (heq : ds.map digit = ds'.map digit) : ds = ds' := by
  induction ds generalizing ds' with
  | nil => simpa [eq_comm] using heq
  | cons d ds ih =>
      cases ds' with
      | nil => simp at heq
      | cons d' ds' =>
          simp only [List.map_cons, List.cons.injEq] at heq
          have hd := digit_inj (h d (by simp)) (h' d' (by simp)) heq.1
          have hds := ih (fun x hx => h x (by simp [hx])) (fun x hx => h' x (by simp [hx])) heq.2
          rw [hd, hds]

/-- A text ends or goes on with a byte that is no digit. -/
def EndsDigits (s : List Byte) : Prop := ∀ b ∈ s.head?, NonDigit b

/-- Digits end where a byte follows that is no digit. -/
theorem digits_append_inj {ds ds' : List ℕ} {s s' : List Byte} (h : Digits ds) (h' : Digits ds')
    (hs : EndsDigits s) (hs' : EndsDigits s') (heq : ds.map digit ++ s = ds'.map digit ++ s') :
    ds = ds' ∧ s = s' := by
  induction ds generalizing ds' with
  | nil =>
      cases ds' with
      | nil => exact ⟨rfl, heq⟩
      | cons d' ds' =>
          have hd := hs (digit d') (by
            rw [List.map_nil, List.nil_append] at heq
            simp [heq])
          exact absurd rfl (digit_ne (h' d' (by simp)) hd)
  | cons d ds ih =>
      cases ds' with
      | nil =>
          have hd := hs' (digit d) (by
            rw [List.map_nil, List.nil_append] at heq
            simp [← heq])
          exact absurd rfl (digit_ne (h d (by simp)) hd)
      | cons d' ds' =>
          simp only [List.map_cons, List.cons_append, List.cons.injEq] at heq
          have hd := digit_inj (h d (by simp)) (h' d' (by simp)) heq.1
          obtain ⟨hds, hs⟩ := ih (fun x hx => h x (by simp [hx])) (fun x hx => h' x (by simp [hx]))
            heq.2
          exact ⟨by rw [hd, hds], hs⟩

/-! ## Integers -/

/-- The digits of the text of a natural number. -/
def natDigits (n : ℕ) : List ℕ := if n = 0 then [0] else (Nat.digits 10 n).reverse

theorem formatNat_eq (n : ℕ) : formatNat n = (natDigits n).map digit := by
  unfold formatNat natDigits
  split
  · rfl
  · rfl

theorem digits_natDigits (n : ℕ) : Digits (natDigits n) := by
  intro d hd
  unfold natDigits at hd
  split at hd
  · simp at hd
    omega
  · exact Nat.digits_lt_base (by norm_num) (List.mem_reverse.mp hd)

@[simp] theorem readDigits_natDigits (n : ℕ) : readDigits (natDigits n) = n := by
  unfold readDigits natDigits
  split
  · simp_all
  · rw [List.reverse_reverse, Nat.ofDigits_digits]

theorem formatNat_inj {n n' : ℕ} (h : formatNat n = formatNat n') : n = n' := by
  rw [formatNat_eq, formatNat_eq] at h
  have := map_digit_inj (digits_natDigits n) (digits_natDigits n') h
  rw [← readDigits_natDigits n, this, readDigits_natDigits]

theorem notMem_formatNat {b : Byte} (hb : NonDigit b) (n : ℕ) : b ∉ formatNat n := by
  rw [formatNat_eq]
  exact notMem_map_digit (digits_natDigits n) hb

theorem notMem_formatInt {b : Byte} (hb : NonDigit b) (hminus : b ≠ ch '-') (i : ℤ) :
    b ∉ formatInt i := by
  unfold formatInt
  split
  · simp [hminus, notMem_formatNat hb]
  · exact notMem_formatNat hb _

theorem formatInt_inj {i i' : ℤ} (h : formatInt i = formatInt i') : i = i' := by
  have hsign : ∀ n, ch '-' ∉ formatNat n := notMem_formatNat (Or.inl (by decide))
  have hne : ∀ n n', formatNat n ≠ ch '-' :: formatNat n' := by
    intro n n' heq
    exact hsign n (by simp [heq])
  unfold formatInt at h
  split at h <;> split at h
  · have := formatNat_inj (List.cons.inj h).2
    omega
  · exact absurd h.symm (hne _ _)
  · exact absurd h (hne _ _)
  · have := formatNat_inj h
    omega

/-! ## The decimal behind a float's text -/

namespace Decimal

/-- The number the decimal denotes. -/
def value (d : Decimal) : ℚ := readDigits d.digits * 10 ^ (d.point - d.digits.length)

structure WellFormed (d : Decimal) : Prop where
  digits : Digits d.digits
  nonempty : d.digits ≠ []

end Decimal

theorem readDigits_append (A B : List ℕ) :
    readDigits (A ++ B) = readDigits B + 10 ^ B.length * readDigits A := by
  simp [readDigits, Nat.ofDigits_append]

theorem readDigits_replicate_zero (k : ℕ) : readDigits (List.replicate k 0) = 0 := by
  simp [readDigits, Nat.ofDigits_replicate_zero]

theorem wellFormed_decimalOf {D : ℕ} (hD : D ≠ 0) (e : ℤ) : (decimalOf D e).WellFormed := by
  refine ⟨?_, ?_⟩
  · intro d hd
    have hmem := List.mem_reverse.mp hd
    exact Nat.digits_lt_base (by norm_num) ((List.dropWhile_sublist _).subset hmem)
  · intro hnil
    have hall : ∀ d ∈ Nat.digits 10 D, d = 0 := by
      simpa [decimalOf, List.dropWhile_eq_nil_iff] using hnil
    have hzero : Nat.ofDigits 10 (Nat.digits 10 D) = 0 := by
      rw [List.eq_replicate_of_mem hall, Nat.ofDigits_replicate_zero]
    rw [Nat.ofDigits_digits] at hzero
    exact hD hzero

theorem value_decimalOf (D : ℕ) (e : ℤ) : (decimalOf D e).value = D * 10 ^ e := by
  set ds := Nat.digits 10 D with hds
  set zeros := ds.takeWhile (· = 0) with hzeros
  set rest := ds.dropWhile (· = 0) with hrest
  have hsplit : zeros ++ rest = ds := List.takeWhile_append_dropWhile
  have hrep : zeros = List.replicate zeros.length 0 := by
    refine List.eq_replicate_of_mem ?_
    intro d hd
    simpa using List.mem_takeWhile_imp hd
  have hD : D = 10 ^ zeros.length * Nat.ofDigits 10 rest := by
    have h := Nat.ofDigits_digits 10 D
    rw [← hds, ← hsplit, Nat.ofDigits_append, hrep, Nat.ofDigits_replicate_zero] at h
    simpa using h.symm
  have hlen : (ds.length : ℤ) = zeros.length + rest.length := by
    rw [← hsplit]
    simp
  have hpoint : (ds.length : ℤ) + e - rest.length = zeros.length + e := by omega
  calc (decimalOf D e).value
      = (Nat.ofDigits 10 rest : ℕ) * 10 ^ ((ds.length : ℤ) + e - rest.length) := by
        simp [Decimal.value, decimalOf, readDigits, ← hds, ← hrest]
    _ = (Nat.ofDigits 10 rest : ℕ) * (10 ^ zeros.length * 10 ^ e) := by
        rw [hpoint, zpow_add₀ (by norm_num), zpow_natCast]
    _ = (10 ^ zeros.length * Nat.ofDigits 10 rest : ℕ) * 10 ^ e := by
        push_cast
        ring
    _ = D * 10 ^ e := by rw [← hD]

/-! ## Layout -/

/-- The number that digits around a point and an exponent denote. -/
def fracValue (A B : List ℕ) (x : ℤ) : ℚ := readDigits (A ++ B) * 10 ^ (x - B.length)

def layout (A B : List ℕ) (X : List Byte) : List Byte :=
  A.map digit ++ ((if B = [] then [] else ch '.' :: B.map digit) ++ X)

/-- The text of an exponent, or none. -/
def ExpText (X : List Byte) : Prop := ∀ b ∈ X.head?, b = ch 'e'

theorem ExpText.endsDigits {X : List Byte} (h : ExpText X) : EndsDigits X := by
  intro b hb
  rw [h b hb]
  exact Or.inr (by decide)

theorem endsDigits_cons {b : Byte} (h : NonDigit b) (s : List Byte) : EndsDigits (b :: s) := by
  intro c hc
  obtain rfl : b = c := by simpa using hc
  exact h

theorem layout_inj {A A' B B' : List ℕ} {X X' : List Byte} (hA : Digits A) (hA' : Digits A')
    (hB : Digits B) (hB' : Digits B') (hX : ExpText X) (hX' : ExpText X')
    (h : layout A B X = layout A' B' X') : A = A' ∧ B = B' ∧ X = X' := by
  have hends : ∀ {B : List ℕ} {X : List Byte}, ExpText X →
      EndsDigits ((if B = [] then [] else ch '.' :: B.map digit) ++ X) := by
    intro B X hX
    split
    · exact hX.endsDigits
    · exact endsDigits_cons (Or.inl (by decide)) _
  have hpoint : ∀ {B : List ℕ} {X X' : List Byte}, ExpText X → X ≠ ch '.' :: (B.map digit ++ X') := by
    intro B X X' hX heq
    have := hX (ch '.') (by simp [heq])
    exact absurd this (by decide)
  obtain ⟨rfl, hrest⟩ := digits_append_inj hA hA' (hends hX) (hends hX') h
  refine ⟨rfl, ?_⟩
  by_cases hb : B = [] <;> by_cases hb' : B' = []
  · subst hb hb'
    exact ⟨rfl, by simpa using hrest⟩
  · simp only [hb, hb', if_true, if_false, List.nil_append, List.cons_append] at hrest
    exact absurd hrest (hpoint hX)
  · simp only [hb, hb', if_true, if_false, List.nil_append, List.cons_append] at hrest
    exact absurd hrest.symm (hpoint hX')
  · simp only [hb, hb', if_false, List.cons_append, List.cons.injEq, true_and] at hrest
    exact digits_append_inj hB hB' hX.endsDigits hX'.endsDigits hrest

def expText (exp : ℤ) : List Byte :=
  [ch 'e', if exp < 0 then ch '-' else ch '+'] ++
    (if exp.natAbs < 10 then ch '0' :: formatNat exp.natAbs else formatNat exp.natAbs)

theorem expText_inj {x x' : ℤ} (h : expText x = expText x') : x = x' := by
  simp only [expText, List.cons_append, List.nil_append, List.cons.injEq, true_and] at h
  obtain ⟨hsign, habs⟩ := h
  have hread : ∀ n, (if n < 10 then ch '0' :: formatNat n else formatNat n) =
      ((if n < 10 then [0] else []) ++ natDigits n).map digit := by
    intro n
    split
    · rw [formatNat_eq]
      rfl
    · rw [formatNat_eq]
      rfl
  have hdigits : ∀ n, Digits ((if n < 10 then [0] else []) ++ natDigits n) := by
    intro n d hd
    rcases List.mem_append.mp hd with hd | hd
    · split at hd <;> simp at hd
      omega
    · exact digits_natDigits n d hd
  rw [hread, hread] at habs
  have hlists := map_digit_inj (hdigits _) (hdigits _) habs
  have hn : x.natAbs = x'.natAbs := by
    have hval : ∀ n, readDigits ((if n < 10 then [0] else []) ++ natDigits n) = n := by
      intro n
      split
      · rw [readDigits_append, readDigits_natDigits]
        simp [readDigits]
      · rw [List.nil_append, readDigits_natDigits]
    rw [← hval x.natAbs, hlists, hval]
  have hminus : ch '-' ≠ ch '+' := by decide
  split at hsign <;> split at hsign
  · omega
  · exact absurd hsign hminus
  · exact absurd hsign.symm hminus
  · omega

namespace Decimal

variable {d : Decimal}

theorem fmtE_eq {x : ℕ} {xs : List ℕ} (hd : d.digits = x :: xs) :
    fmtE d = layout [x] xs (expText (d.point - 1)) := by
  simp only [fmtE, layout, expText, hd, List.headD_cons, List.tail_cons, List.map_cons,
    List.map_nil, List.append_assoc]

theorem fmtF_eq (d : Decimal) : fmtF d = layout (intDigits d) (fracDigits d) [] := by
  rw [fmtF, layout, List.append_nil]

theorem value_eq_fmtE {x : ℕ} {xs : List ℕ} (hd : d.digits = x :: xs) :
    d.value = fracValue [x] xs (d.point - 1) := by
  have hexp : d.point - ((xs.length : ℤ) + 1) = d.point - 1 - xs.length := by ring
  simp [value, fracValue, hd, hexp]

theorem value_eq_fmtF (d : Decimal) : d.value = fracValue (intDigits d) (fracDigits d) 0 := by
  unfold value fracValue intDigits fracDigits
  by_cases hp : 0 < d.point
  · simp only [hp, if_true]
    obtain ⟨p, hpn⟩ := Int.eq_ofNat_of_zero_le hp.le
    simp only [hpn, Int.toNat_natCast, List.length_drop]
    rcases le_total p d.digits.length with hle | hle
    · have hzero : p - d.digits.length = 0 := by omega
      have hexp : (p : ℤ) - d.digits.length = 0 - ((d.digits.length - p : ℕ) : ℤ) := by omega
      rw [hzero, List.replicate_zero, List.append_nil, List.take_append_drop, hexp]
    · have hdrop : d.digits.drop p = [] := List.drop_eq_nil_of_le hle
      have htake : d.digits.take p = d.digits := List.take_of_length_le hle
      have hexp : (p : ℤ) - d.digits.length = ((p - d.digits.length : ℕ) : ℤ) := by omega
      rw [hdrop, htake, List.append_nil, readDigits_append, readDigits_replicate_zero, hexp,
        zpow_natCast]
      have hzero : d.digits.length - p = 0 := by omega
      simp [hzero, mul_comm]
  · simp only [hp, if_false]
    obtain ⟨k, hk⟩ := Int.eq_ofNat_of_zero_le (by omega : 0 ≤ -d.point)
    have hpoint : d.point = -k := by omega
    have hexp : -(k : ℤ) - d.digits.length = 0 - ((k + d.digits.length : ℕ) : ℤ) := by
      push_cast
      ring
    simp only [hk, Int.toNat_natCast, List.length_append, List.length_replicate]
    rw [← List.append_assoc, readDigits_append, hpoint, hexp]
    have hzeros : readDigits ([0] ++ List.replicate k 0) = 0 := by
      rw [readDigits_append, readDigits_replicate_zero]
      simp [readDigits]
    rw [hzeros]
    simp

theorem digits_intDigits (h : d.WellFormed) : Digits (intDigits d) := by
  intro x hx
  unfold intDigits at hx
  split at hx
  · rcases List.mem_append.mp hx with hx | hx
    · exact h.digits x (List.mem_of_mem_take hx)
    · rw [List.eq_of_mem_replicate hx]
      norm_num
  · simp at hx
    omega

theorem intDigits_ne_nil (h : d.WellFormed) : intDigits d ≠ [] := by
  unfold intDigits
  split
  next hp =>
    intro hnil
    have htake := (List.append_eq_nil_iff.mp hnil).1
    rcases List.take_eq_nil_iff.mp htake with hzero | hnil
    · omega
    · exact h.nonempty hnil
  next => simp

theorem digits_fracDigits (h : d.WellFormed) : Digits (fracDigits d) := by
  intro x hx
  unfold fracDigits at hx
  split at hx
  · exact h.digits x (List.mem_of_mem_drop hx)
  · rcases List.mem_append.mp hx with hx | hx
    · rw [List.eq_of_mem_replicate hx]
      norm_num
    · exact h.digits x hx

/-- Both forms lay out digits around a point and an exponent. -/
theorem fmtG_eq (h : d.WellFormed) : ∃ A B X x, fmtG d = layout A B X ∧ A ≠ [] ∧ Digits A ∧ Digits B ∧
    d.value = fracValue A B x ∧ (X = [] ∧ x = 0 ∨ X = expText x) := by
  obtain ⟨y, ys, hd⟩ := List.exists_cons_of_ne_nil h.nonempty
  unfold fmtG
  simp only
  split
  · refine ⟨[y], ys, _, d.point - 1, fmtE_eq hd, by simp, ?_, ?_, value_eq_fmtE hd,
      Or.inr rfl⟩
    · intro z hz
      exact h.digits z (by simp_all)
    · intro z hz
      exact h.digits z (by simp [hd, hz])
  · exact ⟨_, _, [], 0, fmtF_eq d, intDigits_ne_nil h, digits_intDigits h, digits_fracDigits h,
      value_eq_fmtF d, Or.inl ⟨rfl, rfl⟩⟩

theorem expText_of {X : List Byte} {x : ℤ} (h : X = [] ∧ x = 0 ∨ X = expText x) : ExpText X := by
  rcases h with ⟨rfl, _⟩ | rfl
  · intro b hb
    simp at hb
  · intro b hb
    simpa [expText, eq_comm] using hb

/-- The text determines the number. -/
theorem value_eq_of_fmtG {d' : Decimal} (h : d.WellFormed) (h' : d'.WellFormed)
    (heq : fmtG d = fmtG d') : d.value = d'.value := by
  obtain ⟨A, B, X, x, htext, _, hA, hB, hval, hX⟩ := fmtG_eq h
  obtain ⟨A', B', X', x', htext', _, hA', hB', hval', hX'⟩ := fmtG_eq h'
  rw [htext, htext'] at heq
  obtain ⟨rfl, rfl, rfl⟩ := layout_inj hA hA' hB hB' (expText_of hX) (expText_of hX') heq
  have hx : x = x' := by
    rcases hX with ⟨rfl, rfl⟩ | rfl <;> rcases hX' with ⟨hnil, rfl⟩ | hX'
    · rfl
    · simp [expText] at hX'
    · simp [expText] at hnil
    · exact expText_inj hX'
  rw [hval, hval', hx]

end Decimal

/-! ## Shortest digits read back -/

theorem FloatFormat.round_zero (F : FloatFormat) : F.round 0 = 0 := if_pos rfl

theorem candidate_round {F : FloatFormat} {q : ℚ} {n D : ℕ} {e : ℤ}
    (h : candidate F q n = some (D, e)) : F.round (D * 10 ^ e) = q := by
  simp only [candidate] at h
  split at h
  next hok =>
    rw [Option.some.injEq, Prod.mk.injEq] at h
    obtain ⟨rfl, rfl⟩ := h
    split_ifs
    · exact hok.1
    · exact hok.2
    · exact hok.1
    · exact hok.2
  next =>
    split at h
    next hok =>
      rw [Option.some.injEq, Prod.mk.injEq] at h
      obtain ⟨rfl, rfl⟩ := h
      exact hok
    next =>
      split at h
      next hok =>
        rw [Option.some.injEq, Prod.mk.injEq] at h
        obtain ⟨rfl, rfl⟩ := h
        exact hok
      next => exact absurd h (by simp)

/-- A number of a binary format has a power of two for its denominator. -/
theorem FloatFormat.den_eq {F : FloatFormat} {q : ℚ} (h : F.round q = q) :
    q.den = 2 ^ Nat.log 2 q.den := by
  have hform : ∃ (m : ℤ) (k : ℕ), q = m / 2 ^ k := by
    unfold FloatFormat.round at h
    split at h
    next => exact ⟨0, 0, by rw [← h]; simp⟩
    next =>
      simp only at h
      generalize roundHalfEven (q / 2 ^ max F.emin (Int.log 2 q - (F.prec - 1))) = m at h
      generalize max F.emin (Int.log 2 q - (F.prec - 1)) = e at h
      rcases le_total 0 e with he | he
      · obtain ⟨k, rfl⟩ := Int.eq_ofNat_of_zero_le he
        exact ⟨m * 2 ^ k, 0, by rw [← h]; simp⟩
      · obtain ⟨k, hk⟩ := Int.eq_ofNat_of_zero_le (by omega : 0 ≤ -e)
        obtain rfl : e = -k := by omega
        exact ⟨m, k, by rw [← h, zpow_neg, zpow_natCast, div_eq_mul_inv]⟩
  obtain ⟨m, k, hq⟩ := hform
  have hdvd : q.den ∣ 2 ^ k := by
    have := Rat.den_dvd m (2 ^ k)
    rw [Rat.divInt_eq_div] at this
    push_cast at this
    rw [← hq] at this
    exact_mod_cast this
  obtain ⟨j, _, hj⟩ := (Nat.dvd_prime_pow Nat.prime_two).mp hdvd
  rw [hj, Nat.log_pow (by norm_num)]

theorem allDigits_eq {F : FloatFormat} {q : ℚ} (hq : 0 < q) (h : F.round q = q) :
    ((allDigits q).1 : ℚ) * 10 ^ (allDigits q).2 = q := by
  set k := Nat.log 2 q.den with hk
  have hden : (q.den : ℚ) = 2 ^ k := by exact_mod_cast FloatFormat.den_eq h
  have hnum : ((q.num.natAbs : ℕ) : ℚ) = q.num := by
    rw [Nat.cast_natAbs, abs_of_pos (Rat.num_pos.mpr hq)]
  have hten : (10 : ℚ) ^ (-(k : ℤ)) = (5 ^ k)⁻¹ * (2 ^ k)⁻¹ := by
    rw [zpow_neg, zpow_natCast, ← mul_inv, ← mul_pow]
    norm_num
  calc ((allDigits q).1 : ℚ) * 10 ^ (allDigits q).2
      = ((q.num.natAbs : ℕ) * 5 ^ k) * 10 ^ (-(k : ℤ)) := by simp [allDigits, ← hk]
    _ = q.num * (5 ^ k * (5 ^ k)⁻¹) * (2 ^ k)⁻¹ := by rw [hten, hnum]; ring
    _ = q.num / q.den := by
        rw [mul_inv_cancel₀ (by positivity), mul_one, hden, div_eq_mul_inv]
    _ = q := Rat.num_div_den q

/-- The digits found read back as the number, and are not all zero. -/
theorem roundShortest_spec {F : FloatFormat} {q : ℚ} (hq : 0 < q) (h : F.round q = q) :
    F.round ((roundShortest F q).1 * 10 ^ (roundShortest F q).2) = q ∧ (roundShortest F q).1 ≠ 0 := by
  have hround : F.round ((roundShortest F q).1 * 10 ^ (roundShortest F q).2) = q := by
    unfold roundShortest
    cases hfind : (List.range 17).findSome? fun n => candidate F q (n + 1) with
    | none => rw [Option.getD_none, allDigits_eq hq h, h]
    | some r =>
        obtain ⟨n, _, hn⟩ := List.exists_of_findSome?_eq_some hfind
        exact candidate_round hn
  refine ⟨hround, ?_⟩
  intro hzero
  rw [hzero, Nat.cast_zero, zero_mul, FloatFormat.round_zero] at hround
  exact hq.ne hround

/-! ## The text of a float -/

theorem fmtG_head {d : Decimal} (h : d.WellFormed) (s : List Byte) : fmtG d ≠ ch '-' :: s := by
  obtain ⟨A, B, X, x, htext, hne, hA, _⟩ := Decimal.fmtG_eq h
  obtain ⟨a, A', rfl⟩ := List.exists_cons_of_ne_nil hne
  rw [htext, layout, List.map_cons, List.cons_append]
  intro heq
  exact digit_ne (hA a (by simp)) (Or.inl (by decide)) (List.cons.inj heq).1

theorem notMem_fmtG {d : Decimal} (h : d.WellFormed) : ch ';' ∉ fmtG d := by
  obtain ⟨A, B, X, x, htext, _, hA, hB, _, hX⟩ := Decimal.fmtG_eq h
  have hsemi : NonDigit (ch ';') := Or.inr (by decide)
  have hXmem : ch ';' ∉ X := by
    rcases hX with ⟨rfl, _⟩ | rfl
    · simp
    · unfold expText
      have hsigns : ch ';' ∉ [ch 'e', if x < 0 then ch '-' else ch '+'] := by
        split <;> decide
      have hzero : ch ';' ≠ ch '0' := by decide
      have hnat := notMem_formatNat hsemi x.natAbs
      rw [List.mem_append, not_or]
      refine ⟨hsigns, ?_⟩
      split
      · exact List.not_mem_cons_of_ne_of_not_mem hzero hnat
      · exact hnat
  have hpoint : ch ';' ≠ ch '.' := by decide
  rw [htext, layout, List.mem_append, List.mem_append, not_or, not_or]
  refine ⟨notMem_map_digit hA hsemi, ?_, hXmem⟩
  split
  · simp
  · exact List.not_mem_cons_of_ne_of_not_mem hpoint (notMem_map_digit hB hsemi)

section

variable {F : FloatFormat} {q q' : ℚ}

/-- The decimal that stands for a nonzero number. -/
def shortDecimal (F : FloatFormat) (q : ℚ) : Decimal :=
  decimalOf (roundShortest F |q|).1 (roundShortest F |q|).2

theorem formatFloat_eq (hq : q ≠ 0) :
    formatFloat F q = (if q < 0 then [ch '-'] else []) ++ fmtG (shortDecimal F q) := by
  rw [formatFloat, if_neg hq]
  rfl

theorem shortDecimal_spec (hq : q ≠ 0) (h : F.round |q| = |q|) :
    (shortDecimal F q).WellFormed ∧ F.round (shortDecimal F q).value = |q| := by
  obtain ⟨hround, hne⟩ := roundShortest_spec (abs_pos.mpr hq) h
  exact ⟨wellFormed_decimalOf hne _, by rw [shortDecimal, value_decimalOf, hround]⟩

theorem notMem_formatFloat (hq : q ≠ 0) (h : F.round |q| = |q|) : ch ';' ∉ formatFloat F q := by
  have hminus : ch ';' ≠ ch '-' := by decide
  rw [formatFloat_eq hq, List.mem_append, not_or]
  refine ⟨?_, notMem_fmtG (shortDecimal_spec hq h).1⟩
  split <;> simp [hminus]

/-- The shortest text of a nonzero float determines it. -/
theorem formatFloat_inj (hq : q ≠ 0) (hq' : q' ≠ 0) (h : F.round |q| = |q|)
    (h' : F.round |q'| = |q'|) (heq : formatFloat F q = formatFloat F q') : q = q' := by
  obtain ⟨hwf, hval⟩ := shortDecimal_spec hq h
  obtain ⟨hwf', hval'⟩ := shortDecimal_spec hq' h'
  rw [formatFloat_eq hq, formatFloat_eq hq'] at heq
  have habs : fmtG (shortDecimal F q) = fmtG (shortDecimal F q') → |q| = |q'| := by
    intro htext
    rw [← hval, Decimal.value_eq_of_fmtG hwf hwf' htext, hval']
  split at heq <;> split at heq
  next hneg hneg' =>
    have := habs (by simpa using heq)
    rw [abs_of_neg hneg, abs_of_neg hneg'] at this
    exact neg_injective this
  next => exact absurd heq.symm (fmtG_head hwf' _)
  next => exact absurd heq (fmtG_head hwf _)
  next hpos hpos' =>
    have := habs (by simpa using heq)
    rwa [abs_of_nonneg (not_lt.mp hpos), abs_of_nonneg (not_lt.mp hpos')] at this

end

end Sky.Strconv
