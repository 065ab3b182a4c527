import Sky.Verification.ListParam.Collapse
import Sky.Verification.ListParam.Json

/-! # A collapsed list parameter is the same list -/

namespace Sky.ListParam

open Strconv Library JsonText

variable {i : ℕ} {b : Byte} {rest : Bytes} {v : Arg} {vals : List Arg}

/-! ## What a text denotes -/

/-- Nil, an integer, a finite float, a bool or a string. -/
def Arg.Plain : Arg → Prop
  | .float64 x => isFinite x = true
  | .other => False
  | _ => True

/-- The JSON value is the Go value: a number is read as the float nearest to it, and with `reals` a
float is a pair of a significand and an exponent. -/
inductive Denotes (reals : Bool) : Arg → Value → Prop where
  | nil : Denotes reals .nil .null
  | int64 (i : ℤ) : Denotes reals (.int64 i) (.number i)
  | int (i : ℤ) : Denotes reals (.int i) (.number i)
  | bool (b : Bool) : Denotes reals (.bool b) (.bool b)
  | string (s : Bytes) : Denotes reals (.string s) (.string s)
  | float {x q} (hreals : reals = false) (hq : roundNearest q = floatValue x) :
      Denotes reals (.float64 x) (.number q)
  | real {x : UInt64} {m e : ℤ} (hreals : reals = true) (hq : (m : ℚ) * 2 ^ e = floatValue x) :
      Denotes reals (.float64 x) (.array [.number m, .number e])

/-! ## Values -/

/-- A byte that begins a number. -/
def BeginsNumber (b : Byte) : Prop := b = 0x2D ∨ 48 ≤ b.val ∧ b.val ≤ 57

theorem beginsNumber_digit {a : ℕ} (ha : a < 10) : BeginsNumber (digit a) := by
  refine .inr ?_
  rw [digit_val ha]
  omega

theorem readValue_number {q : ℚ} {t : Bytes} (n : ℕ) (hb : BeginsNumber b)
    (h : readNumber (b :: t) = some (q, rest)) :
    readValue (n + 1) (b :: t) = some (.number q, rest) := by
  have hbyte : ∀ c : Byte, c ≠ 0x2D → ¬(48 ≤ c.val ∧ c.val ≤ 57) → b ≠ c := by
    rintro c hc hc' rfl
    exact hb.elim hc hc'
  have hskip : skip (b :: t) = b :: t := by
    have h1 := hbyte 0x20 (by decide) (by decide)
    have h2 := hbyte 0x09 (by decide) (by decide)
    have h3 := hbyte 0x0A (by decide) (by decide)
    have h4 := hbyte 0x0D (by decide) (by decide)
    simp [skip, h1, h2, h3, h4]
  rw [readValue, hskip]
  split
  · exact absurd (List.cons.inj ‹_›).1 (hbyte _ (by decide) (by decide))
  · exact absurd (List.cons.inj ‹_›).1 (hbyte _ (by decide) (by decide))
  · exact absurd (List.cons.inj ‹_›).1 (hbyte _ (by decide) (by decide))
  · exact absurd (List.cons.inj ‹_›).1 (hbyte _ (by decide) (by decide))
  · exact absurd (List.cons.inj ‹_›).1 (hbyte _ (by decide) (by decide))
  · exact absurd (List.cons.inj ‹_›).1 (hbyte _ (by decide) (by decide))
  · rw [h]
    rfl

theorem endsNumber_cons (hb : b = 0x2C ∨ b = 0x5D) (s : Bytes) : EndsNumber (b :: s) := by
  intro c hc
  obtain rfl : b = c := by simpa using hc
  rcases hb with rfl | rfl
  · exact ⟨.inl (by decide), by decide, by decide, by decide⟩
  · exact ⟨.inr (by decide), by decide, by decide, by decide⟩

theorem formatInt_begins (i : ℤ) : ∃ c t, BeginsNumber c ∧ formatInt i = c :: t := by
  rw [formatInt]
  split
  · exact ⟨_, _, .inl rfl, rfl⟩
  · obtain ⟨a, t, ha, htext⟩ := formatNat_head i.natAbs
    exact ⟨_, _, beginsNumber_digit ha, htext⟩

theorem readValue_int (n : ℕ) (i : ℤ) (hb : b = 0x2C ∨ b = 0x5D) :
    readValue (n + 1) (formatInt i ++ b :: rest) = some (.number i, b :: rest) := by
  have hread := readNumber_int i (endsNumber_cons hb rest)
  obtain ⟨c, t, hc, htext⟩ := formatInt_begins i
  rw [htext, List.cons_append] at hread ⊢
  exact readValue_number n hc hread

theorem roundNearest_neg {r : ℚ} (hr : 0 ≤ r) : roundNearest (-r) = -float64.round r := by
  rw [roundNearest]
  split
  · rw [neg_neg]
  · have hzero : r = 0 := by linarith
    rw [hzero, neg_zero, FloatFormat.round_zero, neg_zero]

theorem formatFloat64_begins {x : UInt64} (hx : isFinite x = true) :
    ∃ c t, BeginsNumber c ∧ formatFloat64 x = c :: t := by
  obtain ⟨-, -, -, -, a, t, ha, htext⟩ :=
    readUnsigned_float (magnitude_nonneg x) (round_magnitude x)
      (show EndsNumber [] by rintro b ⟨⟩)
  rw [formatFloat64, if_pos hx]
  split
  · exact ⟨_, _, .inl rfl, rfl⟩
  · exact ⟨_, _, beginsNumber_digit ha, htext⟩

theorem readValue_float (n : ℕ) (rest : Bytes) {x : UInt64} (hx : isFinite x = true) (hb : b = 0x2C ∨ b = 0x5D) :
    ∃ q, readValue (n + 1) (formatFloat64 x ++ b :: rest) = some (.number q, b :: rest) ∧
      roundNearest q = floatValue x := by
  obtain ⟨r, hread, hr, hround, a, t, ha, htext⟩ :=
    readUnsigned_float (magnitude_nonneg x) (round_magnitude x) (endsNumber_cons hb rest)
  rw [formatFloat64, if_pos hx, floatValue]
  by_cases hneg : isNegative x = true
  · rw [if_pos hneg, if_pos hneg]
    refine ⟨-r, ?_, by rw [roundNearest_neg hr, hround]⟩
    rw [List.singleton_append, List.cons_append]
    refine readValue_number n (.inl rfl) ?_
    rw [readNumber_minus, hread]
    rfl
  · rw [if_neg hneg, if_neg hneg, List.nil_append]
    refine ⟨r, ?_, by rw [roundNearest, if_neg (not_lt.2 hr), hround]⟩
    rw [htext, List.cons_append] at hread ⊢
    refine readValue_number n (beginsNumber_digit ha) ?_
    rw [readNumber_digit ha, hread]

/-! ## Arrays -/

/-- A text that begins with no blank and does not end an array. -/
def Solid (s : Bytes) : Prop :=
  ∃ c t, s = c :: t ∧ c ≠ 0x20 ∧ c ≠ 0x09 ∧ c ≠ 0x0A ∧ c ≠ 0x0D ∧ c ≠ 0x5D

theorem Solid.append {s : Bytes} (h : Solid s) (t : Bytes) : Solid (s ++ t) := by
  obtain ⟨c, u, rfl, hc⟩ := h
  exact ⟨c, u ++ t, rfl, hc⟩

theorem Solid.skip {s : Bytes} (h : Solid s) : skip s = s := by
  obtain ⟨c, t, rfl, h1, h2, h3, h4, -⟩ := h
  simp [JsonText.skip, h1, h2, h3, h4]

theorem readValue_array (n : ℕ) {s : Bytes} (hs : Solid s) :
    readValue (n + 1) (0x5B :: s) = (readElements n s).map fun p => (.array p.1, p.2) := by
  have hskip : JsonText.skip (0x5B :: s) = 0x5B :: s := rfl
  rw [readValue, hskip]
  simp only [hs.skip]
  obtain ⟨c, t, rfl, -, -, -, -, hc⟩ := hs
  split
  · exact absurd (List.cons.inj ‹_›).1 hc
  · cases readElements n (c :: t) <;> rfl

theorem readElements_last {n : ℕ} {s : Bytes} {q : Value}
    (h : readValue n s = some (q, 0x5D :: rest)) : readElements (n + 1) s = some ([q], rest) := by
  have hskip : skip (0x5D :: rest) = 0x5D :: rest := rfl
  rw [readElements, h]
  simp only [Option.bind_eq_bind, Option.bind_some, hskip]

theorem readElements_cons {n : ℕ} {s t : Bytes} {q : Value} {qs : List Value}
    (h : readValue n s = some (q, 0x2C :: t)) (hrest : readElements n t = some (qs, rest)) :
    readElements (n + 1) s = some (q :: qs, rest) := by
  have hskip : skip (0x2C :: t) = 0x2C :: t := rfl
  rw [readElements, h]
  simp only [Option.bind_eq_bind, Option.bind_some, hskip, hrest]

theorem BeginsNumber.solid {t : Bytes} (hb : BeginsNumber b) : Solid (b :: t) := by
  refine ⟨b, t, rfl, ?_, ?_, ?_, ?_, ?_⟩ <;> rintro rfl <;>
    exact hb.elim (by decide) (by decide)

theorem solid_formatInt (i : ℤ) : Solid (formatInt i) := by
  obtain ⟨c, t, hc, htext⟩ := formatInt_begins i
  exact htext ▸ hc.solid

theorem readValue_real (n : ℕ) (m e : ℤ) : readValue (n + 1 + 1 + 1 + 1)
    (ch '[' :: formatInt m ++ ch ',' :: formatInt e ++ [ch ']'] ++ rest) =
      some (.array [.number m, .number e], rest) := by
  have htext : ch '[' :: formatInt m ++ ch ',' :: formatInt e ++ [ch ']'] ++ rest =
      0x5B :: (formatInt m ++ 0x2C :: (formatInt e ++ 0x5D :: rest)) := by
    have h1 : ch '[' = 0x5B := rfl
    have h2 : ch ']' = 0x5D := rfl
    simp [h1, h2]
  rw [htext, readValue_array _ ((solid_formatInt m).append _),
    readElements_cons (readValue_int _ m (.inl rfl))
      (readElements_last (readValue_int n e (.inr rfl)))]
  rfl

theorem Solid.length_pos {s : Bytes} (h : Solid s) : 0 < s.length := by
  obtain ⟨c, t, rfl, -⟩ := h
  exact Nat.succ_pos _

/-- The text of a value: it reads as the value where more values or the end of the array follow. -/
structure Reads (reals : Bool) (v : Arg) (t : Bytes) : Prop where
  solid : Solid t
  read : ∀ n b rest, t.length ≤ n → b = 0x2C ∨ b = 0x5D →
    ∃ q, readValue n (t ++ b :: rest) = some (q, b :: rest) ∧ Denotes reals v q

/-- A text that needs a call of the reader only. -/
theorem Reads.scalar {reals : Bool} {t : Bytes} (ht : Solid t)
    (h : ∀ n b rest, b = 0x2C ∨ b = 0x5D →
      ∃ q, readValue (n + 1) (t ++ b :: rest) = some (q, b :: rest) ∧ Denotes reals v q) :
    Reads reals v t where
  solid := ht
  read n b rest hn hb := by
    have hpos := ht.length_pos
    obtain ⟨n, rfl⟩ : ∃ k, n = k + 1 := ⟨n - 1, by omega⟩
    exact h n b rest hb

theorem solid_of_head {c : Byte} (t : Bytes) (h : c ∉ [0x20, 0x09, 0x0A, 0x0D, (0x5D : Byte)]) :
    Solid (c :: t) := by
  simp only [List.mem_cons, List.not_mem_nil, or_false, not_or] at h
  exact ⟨c, t, rfl, h⟩

theorem jsonText_reads (reals : Bool) (hv : v.Plain) :
    ∃ t, jsonText reals v = some t ∧ Reads reals v t := by
  cases v with
  | nil =>
      refine ⟨_, rfl, .scalar (solid_of_head _ (by decide)) fun n b rest _ => ?_⟩
      exact ⟨.null, rfl, .nil⟩
  | int64 i =>
      refine ⟨_, rfl, .scalar (solid_formatInt i) fun n b rest hb => ?_⟩
      exact ⟨_, readValue_int n i hb, .int64 i⟩
  | int i =>
      refine ⟨_, rfl, .scalar (solid_formatInt i) fun n b rest hb => ?_⟩
      exact ⟨_, readValue_int n i hb, .int i⟩
  | bool c =>
      refine ⟨_, rfl, ?_⟩
      cases c with
      | true => exact .scalar (solid_of_head _ (by decide)) fun n b rest _ => ⟨.bool true, rfl, .bool true⟩
      | false =>
          exact .scalar (solid_of_head _ (by decide)) fun n b rest _ => ⟨.bool false, rfl, .bool false⟩
  | string s =>
      refine ⟨_, rfl, .scalar (solid_of_head _ (by decide)) fun n b rest _ => ?_⟩
      exact ⟨_, readValue_string n s _, .string s⟩
  | other => exact hv.elim
  | float64 x =>
      have hx : isFinite x = true := hv
      cases reals with
      | false =>
          refine ⟨formatFloat64 x, by simp [jsonText, hx], .scalar ?_ fun n b rest hb => ?_⟩
          · obtain ⟨c, t, hc, htext⟩ := formatFloat64_begins hx
            exact htext ▸ hc.solid
          · obtain ⟨q, hread, hq⟩ := readValue_float n rest hx hb
            exact ⟨_, hread, .float rfl hq⟩
      | true =>
          have htext : jsonText true (.float64 x) = some (ch '[' :: formatInt (floatSignificand x).1 ++
              ch ',' :: formatInt (floatSignificand x).2 ++ [ch ']']) := by
            simp [jsonText, hx]
          refine ⟨_, htext, solid_of_head _ (by decide), fun n b rest hn _ => ?_⟩
          have hm := (solid_formatInt (floatSignificand x).1).length_pos
          have he := (solid_formatInt (floatSignificand x).2).length_pos
          obtain ⟨n, rfl⟩ : ∃ k, n = k + 1 + 1 + 1 + 1 := by
            refine ⟨n - 4, ?_⟩
            simp only [List.length_cons, List.length_append, List.length_nil] at hn
            omega
          exact ⟨_, readValue_real n _ _, .real rfl (floatSignificand_exact x)⟩

/-! ## The list -/

/-- A value as it is written. -/
def written (legacyText : Bool) (v : Arg) : Arg := if legacyText then sqliteLegacyText v else v

theorem written_plain (legacyText : Bool) (hv : v.Plain) : (written legacyText v).Plain := by
  rw [written]
  split
  · cases v <;> first | exact hv | trivial
  · exact hv

theorem sqliteElements_reads (reals legacyText : Bool) (i : ℕ) (v : Arg) (vals : List Arg)
    (h : ∀ v' ∈ v :: vals, v'.Plain) : ∃ text,
      sqliteElements reals legacyText i (v :: vals) = some ((if 0 < i then [ch ','] else []) ++ text) ∧
      Solid text ∧ ∀ n rest, text.length < n → ∃ qs,
        readElements n (text ++ 0x5D :: rest) = some (qs, rest) ∧
          List.Forall₂ (Denotes reals) ((v :: vals).map (written legacyText)) qs := by
  obtain ⟨t, ht, hreads⟩ := jsonText_reads reals (written_plain legacyText (h v (.head _)))
  induction vals generalizing i v t with
  | nil =>
      refine ⟨t, ?_, hreads.solid, fun n rest hn => ?_⟩
      · rw [written] at ht
        simp [sqliteElements, ht]
      · obtain ⟨n, rfl⟩ : ∃ k, n = k + 1 := ⟨n - 1, by omega⟩
        obtain ⟨q, hq, hdenotes⟩ := hreads.read n 0x5D rest (by omega) (.inr rfl)
        exact ⟨[q], readElements_last hq, .cons hdenotes .nil⟩
  | cons v' vals ih =>
      have hplain : ∀ w ∈ v' :: vals, w.Plain := fun w hw => h w (.tail _ hw)
      obtain ⟨t', ht', hreads'⟩ :=
        jsonText_reads reals (written_plain legacyText (hplain v' (.head _)))
      obtain ⟨text, htext, hsolid, hread⟩ := ih (i + 1) v' hplain t' ht' hreads'
      rw [if_pos (Nat.succ_pos i)] at htext
      refine ⟨t ++ ch ',' :: text, ?_, hreads.solid.append _, fun n rest hn => ?_⟩
      · rw [written] at ht
        rw [sqliteElements, ht, htext]
        simp
      · rw [List.length_append, List.length_cons] at hn
        obtain ⟨n, rfl⟩ : ∃ k, n = k + 1 := ⟨n - 1, by omega⟩
        obtain ⟨qs, hqs, hdenotes⟩ := hread n rest (by omega)
        obtain ⟨q, hq, hv⟩ := hreads.read n 0x2C (text ++ 0x5D :: rest) (by omega) (.inl rfl)
        refine ⟨q :: qs, ?_, .cons hv hdenotes⟩
        rw [List.append_assoc]
        exact readElements_cons hq hqs

/-- The text of the list reads as the values. -/
theorem sqliteListJSON_reads (vals : List Arg) (reals legacyText : Bool)
    (h : ∀ v ∈ vals, v.Plain) : ∃ text qs, sqliteListJSON vals reals legacyText = some text ∧
      read text = some (.array qs) ∧
      List.Forall₂ (Denotes reals) (vals.map (written legacyText)) qs := by
  cases vals with
  | nil => exact ⟨_, [], rfl, rfl, .nil⟩
  | cons v vals =>
      obtain ⟨text, htext, hsolid, hread⟩ := sqliteElements_reads reals legacyText 0 v
        vals h
      obtain ⟨qs, hqs, hdenotes⟩ := hread (text.length + 2) [] (by omega)
      rw [if_neg (lt_irrefl 0), List.nil_append] at htext
      refine ⟨_, qs, by rw [sqliteListJSON, htext]; rfl, ?_, hdenotes⟩
      have h1 : ch '[' = 0x5B := rfl
      have h2 : ch ']' = 0x5D := rfl
      rw [h1, h2, JsonText.read, List.cons_append, List.length_cons, List.length_append,
        List.length_singleton, readValue_array _ (hsolid.append _), hqs]
      rfl

theorem elementText_plain (h : ∀ v ∈ vals, v.Plain) : ∃ ts, vals.mapM elementText = some ts := by
  induction vals with
  | nil => exact ⟨[], rfl⟩
  | cons v vals ih =>
      obtain ⟨ts, hts⟩ := ih fun w hw => h w (.tail _ hw)
      have hv : ∃ t, elementText v = some t := by
        have hplain := h v (.head _)
        cases v with
        | other => exact hplain.elim
        | float64 x => exact ⟨_, if_pos hplain⟩
        | _ => exact ⟨_, rfl⟩
      obtain ⟨t, ht⟩ := hv
      exact ⟨t :: ts, by simp [List.mapM_cons, ht, hts]⟩

/-- What a list parameter is to be: the arguments regrouped or as they were, and the two texts of a
list the same list under the grammar of each engine. -/
structure SameList {α : Type} (marks : Marks) (args : List α)
    (build : ListMark → List α → Option α) (vals : List Arg) (reals legacyText : Bool) : Prop where
  collapses : Collapses marks args build (collapseListArgs marks args build)
  literal : ∃ text ts, pgArrayLiteral vals = some text ∧ vals.mapM elementText = some ts ∧
    ArrayLiteral.read text = some ts
  json : ∃ text qs, sqliteListJSON vals reals legacyText = some text ∧
    read text = some (.array qs) ∧ List.Forall₂ (Denotes reals) (vals.map (written legacyText)) qs
  exact : ∀ x, isFinite x = true →
    ((floatSignificand x).1 : ℚ) * 2 ^ (floatSignificand x).2 = floatValue x

theorem sameList_iff {α : Type} (marks : Marks) (args : List α)
    (build : ListMark → List α → Option α) (hlen : args.length < 2 ^ 63) (vals : List Arg)
    (h : ∀ v ∈ vals, v.Plain) (reals legacyText : Bool) :
    SameList marks args build vals reals legacyText ↔
      ¬Overflows marks build args.length 0 args := by
  rw [← collapses_iff marks args build hlen]
  refine ⟨SameList.collapses, fun hcollapses => ⟨hcollapses, ?_, ?_, ?_⟩⟩
  · obtain ⟨ts, hts⟩ := elementText_plain h
    obtain ⟨text, htext, hread⟩ := pgArrayLiteral_reads hts
    exact ⟨text, ts, htext, hts, hread⟩
  · exact sqliteListJSON_reads vals reals legacyText h
  · exact fun x _ => floatSignificand_exact x

/-- A list of two values behind a plain argument. -/
def pairMarks : Marks := AList.singleton 1 ⟨2, false, false, [], [], by decide, by decide⟩

/-- The sum of a group. -/
def sumOf (_ : ListMark) (group : List ℕ) : Option ℕ := some group.sum

theorem sameList_pair : collapseListArgs pairMarks [1, 20, 300] sumOf = some [1, 320] ∧
    SameList pairMarks [1, 20, 300] sumOf [.nil, .int (-7), .string [0x22, 0x0A, 0xFF]] true false := by
  refine ⟨by decide +kernel, ?_⟩
  refine (sameList_iff pairMarks [1, 20, 300] sumOf (by decide) _ ?_ true false).2 ?_
  · intro v hv
    simp only [List.mem_cons, List.not_mem_nil, or_false] at hv
    rcases hv with rfl | rfl | rfl <;> trivial
  · rw [overflows_plain rfl, overflows_list rfl (List.cons_ne_nil _ _)]
    rintro (hover | ⟨-, -, hover⟩)
    · exact absurd hover (by decide)
    · exact overflows_nil hover

/-- A mark with the greatest int for its number, behind a plain argument. -/
def hugeMarks : Marks :=
  AList.singleton 1 ⟨2 ^ 63 - 1, false, false, [], [], by decide, by decide⟩

theorem hugeMarks_panics : collapseListArgs hugeMarks [1, 20] sumOf = none ∧
    ¬SameList hugeMarks [1, 20] sumOf [] false false := by
  have hpanics : collapseListArgs hugeMarks [1, 20] sumOf = none := by decide +kernel
  refine ⟨hpanics, fun h => ?_⟩
  have hcollapses := h.collapses
  rw [collapses_iff _ _ _ (by decide)] at hcollapses
  refine hcollapses (.plain rfl (.here (List.cons_ne_nil _ _) rfl ?_))
  decide

end Sky.ListParam
