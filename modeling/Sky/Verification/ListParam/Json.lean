import Sky.Model.ListParam
import Sky.Library.ArrayLiteral
import Sky.Verification.Identity.Text
import Sky.Library.JsonText

/-! # The array literal and the JSON array read back

Every element of a literal is quoted or `NULL`, and quoting is undone by reading for every byte
string. A float split into a significand and a power of two is the float, and fits its format; so
the digits of a JSON array that is read back give the floats that were written. -/

namespace Sky.ListParam

open Strconv Library

/-! ## The array literal -/

section

open ArrayLiteral

variable {i : ℕ} {t rest : Bytes} {vals : List Arg}

@[simp] theorem ch_quote : ch '"' = 0x22 := rfl

@[simp] theorem ch_backslash : ch '\\' = 0x5C := rfl

@[simp] theorem ch_comma : ch ',' = 0x2C := rfl

@[simp] theorem ch_open : ch '{' = 0x7B := rfl

@[simp] theorem ch_close : ch '}' = 0x7D := rfl

/-! ## Quoting -/

theorem readQuoted_cons {b : Byte} (s : Text) (hq : b ≠ 0x22) (hb : b ≠ 0x5C) :
    readQuoted (b :: s) = (readQuoted s).map fun p => (b :: p.1, p.2) := by
  rw [readQuoted]
  · cases readQuoted s <;> rfl
  · exact fun h => absurd h hq
  · exact fun _ _ h => absurd h hb
  · exact fun h => absurd h hb

theorem readQuoted_escape (t rest : Bytes) :
    readQuoted (escapeElement t ++ 0x22 :: rest) = some (t, rest) := by
  induction t with
  | nil => rfl
  | cons b t ih =>
      rw [escapeElement] at ih
      rw [escapeElement, List.flatMap_cons, ch_quote, ch_backslash]
      split
      · rw [List.append_assoc]
        simp only [List.cons_append, List.nil_append, readQuoted]
        rw [ch_quote, ch_backslash] at ih
        rw [ih]
        rfl
      · rename_i hb
        rw [not_or] at hb
        rw [List.append_assoc, List.singleton_append, readQuoted_cons _ hb.1 hb.2]
        rw [ch_quote, ch_backslash] at ih
        rw [ih]
        rfl

/-! ## Elements -/

theorem readElement_write (e : Option Bytes) (b : Byte) (hb : b = 0x2C ∨ b = 0x7D) :
    readElement (writeElement e ++ b :: rest) = some (e, b :: rest) := by
  cases e with
  | none =>
      rcases hb with rfl | rfl <;> rfl
  | some t =>
      rw [writeElement, List.cons_append, List.append_assoc, ch_quote, List.singleton_append]
      have hskip : skip (0x22 :: (escapeElement t ++ 0x22 :: b :: rest)) =
          0x22 :: (escapeElement t ++ 0x22 :: b :: rest) := rfl
      rw [readElement, hskip]
      simp only [readQuoted_escape]
      rfl

/-- The texts of the elements. -/
def writeElements (i : ℕ) : List (Option Bytes) → Bytes
  | [] => []
  | e :: es => (if 0 < i then [ch ','] else []) ++ writeElement e ++ writeElements (i + 1) es

theorem pgElements_eq {ts : List (Option Bytes)} (h : vals.mapM elementText = some ts) :
    pgElements i vals = some (writeElements i ts) := by
  induction vals generalizing i ts with
  | nil =>
      obtain rfl : ts = [] := by simpa using h.symm
      rfl
  | cons v vals ih =>
      simp only [List.mapM_cons, Option.bind_eq_bind, Option.bind_eq_some_iff] at h
      obtain ⟨t, ht, ts, hts, hcons⟩ := h
      obtain rfl := Option.some.inj hcons
      simp [pgElements, ht, ih hts, writeElements]

theorem readElements_write {n : ℕ} {e : Option Bytes} {es : List (Option Bytes)}
    (hn : es.length < n) :
    readElements n (writeElement e ++ (writeElements (i + 1) es ++ 0x7D :: rest)) =
      some (e :: es, rest) := by
  induction es generalizing n e i with
  | nil =>
      obtain ⟨n, rfl⟩ : ∃ k, n = k + 1 := ⟨n - 1, by rw [List.length_nil] at hn; omega⟩
      rw [writeElements, List.nil_append, readElements, readElement_write e _ (.inr rfl)]
      rfl
  | cons e' es ih =>
      rw [List.length_cons] at hn
      obtain ⟨n, rfl⟩ : ∃ k, n = k + 1 := ⟨n - 1, by omega⟩
      have hrest : writeElements (i + 1) (e' :: es) ++ 0x7D :: rest =
          0x2C :: (writeElement e' ++ (writeElements (i + 1 + 1) es ++ 0x7D :: rest)) := by
        rw [writeElements, if_pos (Nat.succ_pos i)]
        simp
      have hskip : ∀ s : Text, skip (0x2C :: s) = 0x2C :: s := fun _ => rfl
      rw [hrest, readElements, readElement_write e _ (.inl rfl)]
      simp only [Option.bind_eq_bind, Option.bind_some, hskip]
      rw [ih (by omega)]
      rfl

theorem length_writeElements (i : ℕ) (es : List (Option Bytes)) :
    es.length ≤ (writeElements i es).length := by
  induction es generalizing i with
  | nil => exact le_rfl
  | cons e es ih =>
      have hpos : 0 < (writeElement e).length := by
        cases e with
        | none => exact Nat.succ_pos _
        | some t =>
            rw [writeElement, List.length_cons]
            exact Nat.succ_pos _
      have hrest := ih (i + 1)
      rw [writeElements, List.length_append, List.length_append, List.length_cons]
      omega

/-- No element begins with a brace or a blank. -/
theorem read_write (e : Option Bytes) (s : Text) : read (0x7B :: (writeElement e ++ s)) =
    match readElements ((writeElement e ++ s).length + 1) (writeElement e ++ s) with
    | some (es, rest) => if skip rest = [] then some es else none
    | none => none := by
  cases e with
  | none => rfl
  | some t => rfl

/-- The text of the literal reads as the texts of its elements. -/
theorem pgArrayLiteral_reads {ts : List (Option Bytes)} (h : vals.mapM elementText = some ts) :
    ∃ text, pgArrayLiteral vals = some text ∧ read text = some ts := by
  refine ⟨_, by rw [pgArrayLiteral, pgElements_eq h]; rfl, ?_⟩
  cases ts with
  | nil => rfl
  | cons e es =>
      have htext : ch '{' :: writeElements 0 (e :: es) ++ [ch '}'] =
          0x7B :: (writeElement e ++ (writeElements (0 + 1) es ++ [0x7D])) := by
        rw [writeElements, if_neg (lt_irrefl 0)]
        simp
      have hlength := length_writeElements (0 + 1) es
      rw [htext, read_write, readElements_write]
      · rfl
      · simp only [List.length_append]
        omega

end

/-! ## The JSON array -/

open JsonText

/-! ## The significand of a float -/

theorem fraction_lt (bits : UInt64) : fraction bits < 2 ^ 52 := by
  have hmask : ((1 : UInt64) <<< 52 - 1).toNat = 2 ^ 52 - 1 := by decide
  rw [fraction, UInt64.toNat_and, hmask, Nat.and_two_pow_sub_one_eq_mod]
  exact Nat.mod_lt _ (by norm_num)

/-- `frac|1<<52` -/
theorem hidden_bit {n : ℕ} (h : n < 2 ^ 52) : n ||| 1 <<< 52 = 2 ^ 52 + n := by
  rw [Nat.or_comm, Nat.shiftLeft_eq, one_mul]
  exact (Nat.two_pow_add_eq_or_of_lt h 1).symm

/-- The magnitude as a significand of at most 53 bits and an exponent of the format. -/
theorem magnitude_eq (bits : UInt64) : ∃ (m : ℕ) (e : ℤ), m < 2 ^ 53 ∧ -1074 ≤ e ∧
    magnitude bits = m * 2 ^ e ∧
      floatSignificand bits = (if isNegative bits then -(m : ℤ) else m, e) := by
  have hfraction := fraction_lt bits
  by_cases hzero : biased bits = 0
  · refine ⟨fraction bits, -1074, by omega, le_rfl, ?_, ?_⟩
    · have hexp : (2 : ℚ) ^ (-1074 : ℤ) = 2 ^ (-1022 : ℤ) / 2 ^ 52 := by
        rw [eq_div_iff (by positivity), ← zpow_natCast, ← zpow_add₀ (by norm_num)]
        rfl
      rw [magnitude, if_pos hzero, hexp]
      ring
    · rw [floatSignificand, if_neg (by simpa using hzero)]
  · refine ⟨2 ^ 52 + fraction bits, biased bits - 1075, by omega, by omega, ?_, ?_⟩
    · have hexp : (biased bits : ℤ) - 1023 = 52 + ((biased bits : ℤ) - 1075) := by ring
      rw [magnitude, if_neg hzero, hexp, zpow_add₀ (by norm_num)]
      push_cast
      norm_num
      ring
    · rw [floatSignificand, if_pos hzero, hidden_bit hfraction]

/-- `[m, e]` is the float, with no rounding. -/
theorem floatSignificand_exact (bits : UInt64) :
    ((floatSignificand bits).1 : ℚ) * 2 ^ (floatSignificand bits).2 = floatValue bits := by
  obtain ⟨m, e, -, -, hvalue, hsignificand⟩ := magnitude_eq bits
  rw [hsignificand, floatValue, hvalue]
  split
  · push_cast
    rw [neg_mul]
  · push_cast
    rfl

theorem roundHalfEven_intCast (n : ℤ) : roundHalfEven n = n := by
  rw [roundHalfEven, Int.floor_intCast]
  simp

/-- A number that a format can write is not rounded. -/
theorem round_exact {m : ℕ} {e : ℤ} (hm : m < 2 ^ 53) (he : -1074 ≤ e) :
    float64.round ((m : ℚ) * 2 ^ e) = m * 2 ^ e := by
  rcases Nat.eq_zero_or_pos m with rfl | hpos
  · rw [Nat.cast_zero, zero_mul, FloatFormat.round_zero]
  · have hm' : (0 : ℚ) < m := by exact_mod_cast hpos
    have hq : (0 : ℚ) < m * 2 ^ e := by positivity
    have hlog : Int.log 2 ((m : ℚ) * 2 ^ e) < e + 53 := by
      rw [← Int.lt_zpow_iff_log_lt (by norm_num) hq, add_comm, zpow_add₀ (by norm_num)]
      have hlt : (m : ℚ) < 2 ^ 53 := by exact_mod_cast hm
      push_cast
      exact mul_lt_mul_of_pos_right hlt (by positivity)
    rw [FloatFormat.round, if_neg hq.ne']
    simp only [float64]
    obtain ⟨k, hk⟩ : ∃ k : ℕ, e = max (-1074) (Int.log 2 ((m : ℚ) * 2 ^ e) - (((53 : ℕ) : ℤ) - 1)) + k :=
      ⟨(e - max (-1074) (Int.log 2 ((m : ℚ) * 2 ^ e) - (((53 : ℕ) : ℤ) - 1))).toNat, by omega⟩
    generalize max (-1074) (Int.log 2 ((m : ℚ) * 2 ^ e) - (((53 : ℕ) : ℤ) - 1)) = e' at hk ⊢
    have hsplit : (m : ℚ) * 2 ^ e = ((m * 2 ^ k : ℕ) : ℤ) * 2 ^ e' := by
      rw [hk, zpow_add₀ (by norm_num), zpow_natCast]
      push_cast
      ring
    rw [hsplit, mul_div_assoc, div_self (by positivity), mul_one, roundHalfEven_intCast]

theorem round_magnitude (bits : UInt64) : float64.round (magnitude bits) = magnitude bits := by
  obtain ⟨m, e, hm, he, hvalue, -⟩ := magnitude_eq bits
  rw [hvalue]
  exact round_exact hm he

variable {i : ℕ} {s rest : Bytes} {b : Byte}

/-! ## Strings -/

theorem hexValue_hex : ∀ d < 16, hexValue (hex d) = some d := by decide

theorem codeUnit_control {c : Byte} (h : c.val < 0x20) :
    codeUnit 0x30 0x30 (hex (c.val / 16)) (hex (c.val % 16)) = some c.val := by
  have hzero : hexValue 0x30 = some 0 := rfl
  rw [codeUnit, hzero, hexValue_hex _ (by omega), hexValue_hex _ (by omega)]
  simp only [Option.bind_eq_bind, Option.bind_some]
  congr 1
  omega

theorem utf8_control {c : Byte} (h : c.val < 0x20) : utf8 c.val = [c] := by
  rw [utf8, if_pos (by omega)]
  congr 1
  exact Fin.ext (Nat.mod_eq_of_lt c.isLt)

theorem readChars_byte {n : ℕ} {t u : Bytes} (b : Byte) (h : readChars n u = some (t, rest)) :
    readChars (n + 1) (jsonByte b ++ u) = some (b :: t, rest) := by
  rw [jsonByte]
  split
  · rename_i hb
    rcases hb with rfl | rfl
    · simp [readChars, escape, h]
    · simp [readChars, escape, h]
  · rename_i hb
    rw [not_or] at hb
    split
    · rename_i hlt
      have hu : ch 'u' = 0x75 := rfl
      have h0 : ch '0' = 0x30 := rfl
      simp only [List.cons_append, List.nil_append, ch_backslash, hu, h0, readChars,
        codeUnit_control hlt, Option.bind_eq_bind, Option.bind_some, h]
      rw [if_neg (by omega), if_neg (by omega)]
      simp only [utf8_control hlt]
      rfl
    · rename_i hge
      rw [List.singleton_append, readChars]
      · rw [if_neg hge, h]
        rfl
      · exact fun h => absurd h hb.1
      · exact fun _ _ _ _ _ h => absurd h hb.2
      · exact fun _ _ h => absurd h hb.2

theorem readChars_write {n : ℕ} (s : Bytes) (hn : s.length < n) :
    readChars n (s.flatMap jsonByte ++ 0x22 :: rest) = some (s, rest) := by
  induction s generalizing n with
  | nil =>
      obtain ⟨n, rfl⟩ : ∃ k, n = k + 1 := ⟨n - 1, by rw [List.length_nil] at hn; omega⟩
      rfl
  | cons b s ih =>
      rw [List.length_cons] at hn
      obtain ⟨n, rfl⟩ : ∃ k, n = k + 1 := ⟨n - 1, by omega⟩
      rw [List.flatMap_cons, List.append_assoc]
      exact readChars_byte b (ih (by omega))

theorem length_le_flatMap (s : Bytes) : s.length ≤ (s.flatMap jsonByte).length := by
  induction s with
  | nil => exact le_rfl
  | cons b s ih =>
      have hpos : 0 < (jsonByte b).length := by
        rw [jsonByte]
        split_ifs <;> exact Nat.succ_pos _
      rw [List.flatMap_cons, List.length_append, List.length_cons]
      omega

/-- A string reads as its bytes, whatever they are. -/
theorem readValue_string (n : ℕ) (s rest : Bytes) :
    readValue (n + 1) (writeJSONStringRaw s ++ rest) = some (.string s, rest) := by
  have hskip : skip (0x22 :: (s.flatMap jsonByte ++ 0x22 :: rest)) =
      0x22 :: (s.flatMap jsonByte ++ 0x22 :: rest) := rfl
  have hlength := length_le_flatMap s
  rw [writeJSONStringRaw, List.cons_append, List.append_assoc, List.singleton_append, ch_quote,
    readValue, hskip]
  simp only
  rw [readChars_write s (by rw [List.length_append]; omega)]
  rfl

/-! ## Digits -/

theorem isDigit_digit {d : ℕ} (h : d < 10) : isDigit (digit d) = true := by
  rw [isDigit, digit_val h]
  simp
  omega

theorem isDigit_of_nonDigit (h : NonDigit b) : isDigit b = false := by
  rw [isDigit, Bool.and_eq_false_iff]
  rcases h with h | h
  · exact .inl (by simpa using h)
  · exact .inr (by simpa using h)

theorem natOf_digits {ds : List ℕ} (h : Digits ds) : natOf (ds.map digit) = Strconv.readDigits ds := by
  induction ds using List.reverseRecOn with
  | nil => rfl
  | append_singleton ds d ih =>
      have hds : Digits ds := fun x hx => h x (List.mem_append_left _ hx)
      have hd : d < 10 := h d (by simp)
      rw [List.map_append, natOf, List.foldl_append, ← natOf, ih hds, readDigits_append]
      simp [digit_val hd, Strconv.readDigits]
      omega

theorem span_digits {ds : List ℕ} (h : Digits ds) (hrest : EndsDigits rest) :
    (ds.map digit ++ rest).takeWhile isDigit = ds.map digit ∧
      (ds.map digit ++ rest).dropWhile isDigit = rest := by
  induction ds with
  | nil =>
      cases rest with
      | nil => exact ⟨rfl, rfl⟩
      | cons b rest =>
          have hb := isDigit_of_nonDigit (hrest b rfl)
          simp [hb]
  | cons d ds ih =>
      obtain ⟨htake, hdrop⟩ := ih fun x hx => h x (.tail _ hx)
      have hd := isDigit_digit (h d (.head _))
      simp [hd, htake, hdrop]

/-- Digits are read up to a byte that is none. -/
theorem readDigits_write {ds : List ℕ} (h : Digits ds) (hne : ds ≠ []) (hrest : EndsDigits rest) :
    JsonText.readDigits (ds.map digit ++ rest) = some (ds.map digit, rest) := by
  obtain ⟨htake, hdrop⟩ := span_digits h hrest
  rw [JsonText.readDigits, List.span_eq_takeWhile_dropWhile, htake, hdrop, if_neg (by simpa using hne)]

/-! ## Numbers -/

/-- A byte that ends a number. -/
def EndsNumber (s : Bytes) : Prop := ∀ b ∈ s.head?, NonDigit b ∧ b ≠ 0x2E ∧ b ≠ 0x65 ∧ b ≠ 0x45

theorem EndsNumber.endsDigits (h : EndsNumber s) : EndsDigits s := fun b hb => (h b hb).1

theorem readExponent_none (h : EndsNumber s) : readExponent s = some (0, s) := by
  cases s with
  | nil => rfl
  | cons b s =>
      obtain ⟨-, -, he, hE⟩ := h b rfl
      rw [readExponent]
      · exact fun _ h => absurd h (by simp [he])
      · exact fun _ h => absurd h (by simp [hE])

theorem readFraction_none (h : ∀ b ∈ s.head?, b ≠ 0x2E) : readFraction s = some ([], s) := by
  cases s with
  | nil => rfl
  | cons b s =>
      have hb := h b rfl
      rw [readFraction]
      exact fun _ h => absurd h (by simp [hb])

theorem natDigits_lead (n : ℕ) : (natDigits n).head? = some 0 → (natDigits n).length = 1 := by
  intro h
  unfold natDigits at h ⊢
  split
  · rfl
  · rename_i hn
    rw [if_neg hn, List.head?_reverse, List.getLast?_eq_some_getLast (Nat.digits_ne_nil_iff_ne_zero.2 hn)]
      at h
    exact absurd (Option.some.inj h) (Nat.getLast_digit_ne_zero 10 hn)

theorem natDigits_ne_nil (n : ℕ) : natDigits n ≠ [] := by
  unfold natDigits
  split
  · exact List.cons_ne_nil _ _
  · rename_i hn
    rw [Ne, List.reverse_eq_nil_iff]
    exact Nat.digits_ne_nil_iff_ne_zero.2 hn

/-- The exponent of a float's text. -/
theorem readExponent_write (x : ℤ) (hrest : EndsDigits rest) :
    readExponent (expText x ++ rest) = some (x, rest) := by
  have he : ch 'e' = 0x65 := rfl
  have hminus : ch '-' = 0x2D := rfl
  have hplus : ch '+' = 0x2B := rfl
  obtain ⟨ds, hds, hne, htext, hvalue⟩ : ∃ ds, Digits ds ∧ ds ≠ [] ∧
      (if x.natAbs < 10 then ch '0' :: formatNat x.natAbs else formatNat x.natAbs) = ds.map digit ∧
      Strconv.readDigits ds = x.natAbs := by
    have hnat := digits_natDigits x.natAbs
    split
    · refine ⟨0 :: natDigits x.natAbs, ?_, List.cons_ne_nil _ _, ?_, ?_⟩
      · exact List.forall_mem_cons.2 ⟨by norm_num, hnat⟩
      · rw [formatNat_eq]
        rfl
      · have happend := readDigits_append [0] (natDigits x.natAbs)
        rw [List.singleton_append] at happend
        rw [happend, readDigits_natDigits]
        simp [Strconv.readDigits]
    · exact ⟨natDigits x.natAbs, hnat, natDigits_ne_nil _, formatNat_eq _, readDigits_natDigits _⟩
  rw [expText, htext, List.append_assoc, he, hminus, hplus]
  by_cases hx : x < 0
  · rw [if_pos hx]
    simp only [List.cons_append, List.nil_append, readExponent, readSign,
      readDigits_write hds hne hrest, natOf_digits hds, hvalue, Option.bind_eq_bind,
      Option.bind_some, if_true]
    congr 2
    omega
  · rw [if_neg hx]
    simp only [List.cons_append, List.nil_append, readExponent, readSign,
      readDigits_write hds hne hrest, natOf_digits hds, hvalue, Option.bind_eq_bind,
      Option.bind_some, Bool.false_eq_true, if_false]
    congr 2
    omega

/-- Digits around a point and an exponent read as the number they denote. -/
theorem readUnsigned_layout {A B : List ℕ} {X : Bytes} {x : ℤ} (hA : Digits A) (hne : A ≠ [])
    (hlead : A.head? = some 0 → A.length = 1) (hB : Digits B) (hX : X = [] ∧ x = 0 ∨ X = expText x)
    (hrest : EndsNumber rest) :
    readUnsigned (layout A B X ++ rest) = some (fracValue A B x, rest) := by
  have hexp : readExponent (X ++ rest) = some (x, rest) ∧ EndsDigits (X ++ rest) ∧
      ∀ b ∈ (X ++ rest).head?, b ≠ 0x2E := by
    rcases hX with ⟨rfl, rfl⟩ | rfl
    · exact ⟨readExponent_none hrest, hrest.endsDigits, fun b hb => (hrest b hb).2.1⟩
    · refine ⟨readExponent_write x hrest.endsDigits, ?_, ?_⟩
      · exact endsDigits_cons (.inr (by decide)) _
      · intro b hb
        obtain rfl : ch 'e' = b := by simpa [expText] using hb
        decide
  obtain ⟨hexp, hends, hpoint⟩ := hexp
  have hfrac : readFraction ((if B = [] then [] else ch '.' :: B.map digit) ++ (X ++ rest)) =
      some (B.map digit, X ++ rest) := by
    split
    · rename_i hnil
      rw [hnil, List.nil_append]
      exact readFraction_none hpoint
    · rename_i hB'
      exact readDigits_write hB hB' hends
  have hdigits : EndsDigits ((if B = [] then [] else ch '.' :: B.map digit) ++ (X ++ rest)) := by
    split
    · exact hends
    · exact endsDigits_cons (.inl (by decide)) _
  have hzero : ¬((A.map digit).head? = some 0x30 ∧ A.length ≠ 1) := by
    rintro ⟨hhead, hlength⟩
    refine hlength (hlead ?_)
    obtain ⟨a, A', rfl⟩ := List.exists_cons_of_ne_nil hne
    have hval := digit_val (hA a (.head _))
    have ha : digit a = 0x30 := by simpa using hhead
    rw [ha] at hval
    have ha : a = 0 := by
      change 48 = 48 + a at hval
      omega
    rw [ha]
    rfl
  rw [layout, List.append_assoc, List.append_assoc, readUnsigned, readDigits_write hA hne hdigits]
  simp only [Option.bind_eq_bind, Option.bind_some, if_neg hzero, hfrac, hexp, List.length_map,
    ← List.map_append]
  rw [natOf_digits fun d hd => (List.mem_append.1 hd).elim (hA d) (hB d), fracValue]

theorem readNumber_minus (s : Bytes) :
    readNumber (ch '-' :: s) = (readUnsigned s).map fun p => (-p.1, p.2) := by
  have hminus : ch '-' = 0x2D := rfl
  rw [hminus, readNumber]
  cases readUnsigned s <;> rfl

theorem readNumber_digit {a : ℕ} (ha : a < 10) (s : Bytes) :
    readNumber (digit a :: s) = readUnsigned (digit a :: s) := by
  rw [readNumber]
  exact fun _ h => absurd (List.cons.inj h).1 (digit_ne ha (.inl (by decide)))

/-! ## The texts of numbers -/

theorem readUnsigned_nat (n : ℕ) (hrest : EndsNumber rest) :
    readUnsigned (formatNat n ++ rest) = some ((n : ℚ), rest) := by
  have hread := readUnsigned_layout (B := []) (X := []) (digits_natDigits n) (natDigits_ne_nil n)
    (natDigits_lead n) (by intro d hd; cases hd) (.inl ⟨rfl, rfl⟩) hrest
  have hlayout : layout (natDigits n) [] [] = formatNat n := by
    rw [layout, formatNat_eq]
    simp
  have hvalue : fracValue (natDigits n) [] 0 = n := by
    rw [fracValue, List.append_nil, readDigits_natDigits]
    simp
  rwa [hlayout, hvalue] at hread

/-- The first byte of a natural number's text. -/
theorem formatNat_head (n : ℕ) : ∃ a s, a < 10 ∧ formatNat n = digit a :: s := by
  obtain ⟨a, ds, hds⟩ := List.exists_cons_of_ne_nil (natDigits_ne_nil n)
  refine ⟨a, ds.map digit, digits_natDigits n a (by rw [hds]; exact .head _), ?_⟩
  rw [formatNat_eq, hds, List.map_cons]

theorem readNumber_int (i : ℤ) (hrest : EndsNumber rest) :
    readNumber (formatInt i ++ rest) = some ((i : ℚ), rest) := by
  rw [formatInt]
  split
  · rename_i hneg
    rw [List.cons_append, readNumber_minus, readUnsigned_nat _ hrest, Option.map_some]
    congr 2
    rw [Nat.cast_natAbs, abs_of_neg hneg]
    simp
  · rename_i hpos
    obtain ⟨a, s, ha, hs⟩ := formatNat_head i.natAbs
    have hread := readUnsigned_nat i.natAbs hrest
    rw [hs, List.cons_append] at hread ⊢
    rw [readNumber_digit ha, hread]
    congr 2
    rw [Nat.cast_natAbs, abs_of_nonneg (by omega)]

/-- The digits of a decimal begin with none that is zero. -/
theorem decimalOf_lead {D : ℕ} (hD : D ≠ 0) (e : ℤ) : (decimalOf D e).digits.head? ≠ some 0 := by
  intro h
  rw [decimalOf, List.head?_reverse] at h
  obtain ⟨zeros, hsplit⟩ := List.dropWhile_suffix (l := Nat.digits 10 D) (· = 0)
  have hlast : (Nat.digits 10 D).getLast? = some 0 := by
    rw [← hsplit, List.getLast?_append, h]
    rfl
  have hne : Nat.digits 10 D ≠ [] := Nat.digits_ne_nil_iff_ne_zero.2 hD
  rw [List.getLast?_eq_some_getLast hne] at hlast
  exact Nat.getLast_digit_ne_zero 10 hD (Option.some.inj hlast)

/-- Both forms of a float's text begin with no zero but the one before a point. -/
theorem fmtG_layout {d : Decimal} (h : d.WellFormed) (hlead : d.digits.head? ≠ some 0) :
    ∃ A B X x, fmtG d = layout A B X ∧ A ≠ [] ∧ Digits A ∧ (A.head? = some 0 → A.length = 1) ∧
      Digits B ∧ d.value = fracValue A B x ∧ (X = [] ∧ x = 0 ∨ X = expText x) := by
  obtain ⟨y, ys, hd⟩ := List.exists_cons_of_ne_nil h.nonempty
  rw [fmtG]
  split
  · refine ⟨[y], ys, _, d.point - 1, Decimal.fmtE_eq hd, List.cons_ne_nil _ _, ?_, fun _ => rfl, ?_,
      Decimal.value_eq_fmtE hd, .inr rfl⟩
    · intro z hz
      exact h.digits z (by rw [hd, List.mem_singleton.1 hz]; exact .head _)
    · intro z hz
      exact h.digits z (by rw [hd]; exact .tail _ hz)
  · refine ⟨_, _, [], 0, Decimal.fmtF_eq d, Decimal.intDigits_ne_nil h, Decimal.digits_intDigits h,
      ?_, Decimal.digits_fracDigits h, Decimal.value_eq_fmtF d, .inl ⟨rfl, rfl⟩⟩
    rw [intDigits]
    split
    · rename_i hpoint
      intro hhead
      obtain ⟨p, hp⟩ : ∃ p, d.point.toNat = p + 1 := ⟨d.point.toNat - 1, by omega⟩
      rw [hd] at hlead
      rw [hp, hd, List.take_succ_cons, List.cons_append] at hhead
      exact absurd hhead hlead
    · exact fun _ => rfl

theorem fmtG_head_digit {d : Decimal} (h : d.WellFormed) : ∃ a s, a < 10 ∧ fmtG d = digit a :: s := by
  obtain ⟨A, B, X, x, htext, hne, hA, -⟩ := Decimal.fmtG_eq h
  obtain ⟨a, A', rfl⟩ := List.exists_cons_of_ne_nil hne
  refine ⟨a, A'.map digit ++ ((if B = [] then [] else ch '.' :: B.map digit) ++ X), hA a (.head _), ?_⟩
  rw [htext, layout, List.map_cons, List.cons_append]

/-! ## Floats -/

/-- The number of the format that is nearest to `q`, of either sign. -/
def roundNearest (q : ℚ) : ℚ := if q < 0 then -float64.round (-q) else float64.round q

theorem magnitude_nonneg (bits : UInt64) : 0 ≤ magnitude bits := by
  rw [magnitude]
  split <;> positivity

/-- The text of a magnitude reads as a number that rounds to it. -/
theorem readUnsigned_float {q : ℚ} (hq : 0 ≤ q) (hround : float64.round q = q)
    (hrest : EndsNumber rest) : ∃ r, readUnsigned (formatFloat float64 q ++ rest) = some (r, rest) ∧
      0 ≤ r ∧ float64.round r = q ∧ ∃ a s, a < 10 ∧ formatFloat float64 q = digit a :: s := by
  rcases hq.eq_or_lt with rfl | hpos
  · have htext : formatFloat float64 0 = formatNat 0 := by
      rw [formatFloat, if_pos rfl]
      rfl
    rw [htext]
    refine ⟨0, ?_, le_rfl, FloatFormat.round_zero _, formatNat_head 0⟩
    have hread := readUnsigned_nat 0 hrest
    rwa [Nat.cast_zero] at hread
  · have hne : q ≠ 0 := hpos.ne'
    have habs : |q| = q := abs_of_pos hpos
    have hspec := shortDecimal_spec hne (F := float64) (by rw [habs, hround])
    rw [habs] at hspec
    obtain ⟨hwf, hval⟩ := hspec
    have hD : (roundShortest float64 |q|).1 ≠ 0 := by
      rw [habs]
      exact (roundShortest_spec hpos hround).2
    obtain ⟨A, B, X, x, htext, hneA, hA, hlead, hB, hvalue, hX⟩ :=
      fmtG_layout hwf (decimalOf_lead hD _)
    have hformat : formatFloat float64 q = fmtG (shortDecimal float64 q) := by
      rw [formatFloat_eq hne, if_neg (not_lt.2 hpos.le), List.nil_append]
    refine ⟨(shortDecimal float64 q).value, ?_, ?_, hval, ?_⟩
    · rw [hformat, htext, hvalue]
      exact readUnsigned_layout hA hneA hlead hB hX hrest
    · rw [Decimal.value]
      positivity
    · rw [hformat]
      exact fmtG_head_digit hwf

end Sky.ListParam
