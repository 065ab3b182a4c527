import Sky.Verification.Syntax.Isolation

/-! # Errors stay in their unit

Replacing the tokens of one unit leaves what the parse adds for every other unit as it was, up to
the shift of the text, unless the other units are no longer imports, or are imports now. -/

namespace Sky.Syntax

open Sky.Returning

variable {logos : Logos}

/-! ## One unit replaced -/

/-- A file around one of its units: text and tokens before it, its own, and those after it, with the
starts of the other units. What comes after counts from the end of the unit. -/
structure Around where
  before : List Char
  text : List Char
  after : List Char
  toksBefore : List PToken
  toks : List PToken
  toksAfter : List PToken
  unitsBefore : List ℕ
  unitsAfter : List ℕ

namespace Around

def src (f : Around) : List Char := f.before ++ f.text ++ f.after

/-- Where the text after the unit is. -/
def stop (f : Around) : ℕ := (f.before ++ f.text).length

/-- Where the tokens after the unit are. -/
def tokStop (f : Around) : ℕ := (f.toksBefore ++ f.toks).length

def tokens (f : Around) : List PToken :=
  f.toksBefore ++ f.toks ++ f.toksAfter.map (PToken.moved 0 f.stop)

def units (f : Around) : List ℕ :=
  f.unitsBefore ++ f.toksBefore.length :: f.unitsAfter.map (f.tokStop + ·)

/-- Other text and tokens in the place of the unit. -/
def replace (f : Around) (text : List Char) (toks : List PToken) : Around :=
  { f with text := text, toks := toks }

/-- The unit is one of the file's, and the budget is above the text of the tokens. -/
structure Valid (logos : Logos) (fuel : ℕ) (f : Around) : Prop where
  before : WithinSource f.before f.toksBefore
  toks : WithinSource (f.before ++ f.text) f.toks
  after : WithinSource f.after f.toksAfter
  units : lexicalUnits logos fuel f.src f.tokens = some f.units
  budget : leftFrom f.tokens 0 < fuel

variable {f : Around} {text : List Char} {toks : List PToken} {fuel : ℕ}

theorem Valid.within (hf : f.Valid logos fuel) : WithinSource f.src f.tokens := by
  intro t ht
  rw [src]
  rcases List.mem_append.1 ht with ht | ht
  · rcases List.mem_append.1 ht with ht | ht
    · have := hf.before t ht
      simp only [List.length_append]
      omega
    · have := hf.toks t ht
      rw [List.length_append]
      omega
  · obtain ⟨u, hu, rfl⟩ := List.mem_map.1 ht
    have hspan := hf.after u hu
    rw [List.length_append]
    change u.start - 0 + f.stop < u.stop - 0 + f.stop ∧ u.stop - 0 + f.stop ≤ _
    rw [stop]
    omega

theorem units_eq (f : Around) : f.units =
    (f.unitsBefore ++ [f.toksBefore.length]) ++ f.unitsAfter.map (f.tokStop + ·) := by
  rw [units, List.append_cons]

/-- The starts of the units before and of the unit itself. -/
theorem units_before {j : ℕ} (hj : j ≤ f.unitsBefore.length) :
    f.units[j]? = (f.unitsBefore ++ [f.toksBefore.length])[j]? := by
  rw [units_eq, List.getElem?_append_left]
  rw [List.length_append, List.length_singleton]
  omega

theorem units_after (j : ℕ) :
    f.units[f.unitsBefore.length + 1 + j]? = f.unitsAfter[j]?.map (f.tokStop + ·) := by
  have hlength : (f.unitsBefore ++ [f.toksBefore.length]).length = f.unitsBefore.length + 1 := by
    rw [List.length_append, List.length_singleton]
  rw [units_eq, List.getElem?_append_right (by omega), hlength, Nat.add_sub_cancel_left,
    List.getElem?_map]

theorem tokens_before {i : ℕ} (hi : i < f.toksBefore.length) :
    f.tokens[i]? = f.toksBefore[i]? := by
  rw [tokens, List.append_assoc, List.getElem?_append_left hi]

theorem tokens_after (i : ℕ) :
    f.tokens[f.tokStop + i]? = f.toksAfter[i]?.map (PToken.moved 0 f.stop) := by
  rw [tokens, tokStop, List.getElem?_append_right (Nat.le_add_right _ _), Nat.add_sub_cancel_left,
    List.getElem?_map]

theorem tokens_length (f : Around) : f.tokens.length = f.tokStop + f.toksAfter.length := by
  rw [tokens, List.length_append, List.length_map]
  rfl

theorem src_length (f : Around) : f.src.length = f.stop + f.after.length := by
  rw [src, List.length_append]
  rfl

/-- The starts of a file's units, in order. -/
structure Ordered (f : Around) : Prop where
  increasing : f.units.Pairwise (· < ·)
  bound : ∀ u ∈ f.units, u < f.tokens.length
  first : f.units[0]? = some 0

theorem Valid.ordered (hlogos : logos.Partitions) (hf : f.Valid logos fuel) : f.Ordered := by
  obtain ⟨units, hunits, hincreasing, hbound⟩ := lexicalUnitsFrom_returns hlogos hf.within hf.budget
    f.tokens 0 [] .nil (by simp)
  obtain rfl : units = f.units := Option.some.inj (hunits.symm.trans hf.units)
  refine ⟨hincreasing, fun u hu => ?_, lexicalUnits_first ?_ hf.units⟩
  · have hlt := hbound u hu
    omega
  · rintro hnil
    have hmem : f.toksBefore.length ∈ f.units := by simp [Around.units]
    have hlt := hbound _ hmem
    rw [hnil] at hlt
    exact absurd hlt (by simp)

theorem Ordered.lt (hf : f.Ordered) {i j a b : ℕ} (hij : i < j) (ha : f.units[i]? = some a)
    (hb : f.units[j]? = some b) : a < b := by
  obtain ⟨h₁, rfl⟩ := List.getElem?_eq_some_iff.mp ha
  obtain ⟨h₂, rfl⟩ := List.getElem?_eq_some_iff.mp hb
  exact List.pairwise_iff_getElem.mp hf.increasing _ _ h₁ h₂ hij

theorem unit_self (f : Around) : f.units[f.unitsBefore.length]? = some f.toksBefore.length := by
  rw [units_before le_rfl, List.getElem?_append_right le_rfl, Nat.sub_self]
  rfl

theorem bound_self (ho : f.Ordered) : f.toksBefore.length < f.tokens.length :=
  ho.bound _ (List.mem_of_getElem? f.unit_self)

theorem src_before (f : Around) : 0 + f.before.length ≤ f.src.length := by
  rw [src, List.length_append, List.length_append]
  omega

/-- A unit before the replaced one. -/
theorem window_before (hf : f.Valid logos fuel) (ho : f.Ordered)
    (ho' : (f.replace text toks).Ordered) {j : ℕ} (hj : j < f.unitsBefore.length) :
    ∃ w, UnitWindow f.src (f.replace text toks).src f.tokens (f.replace text toks).tokens f.units
      (f.replace text toks).units j w ∧ w.b = 0 ∧ w.b' = 0 := by
  have hsame : ∀ i ≤ f.unitsBefore.length, (f.replace text toks).units[i]? = f.units[i]? := by
    intro i hi
    rw [units_before hi, units_before (f := f.replace text toks) hi]
    rfl
  have hlength : f.unitsBefore.length < f.units.length :=
    (List.getElem?_eq_some_iff.1 f.unit_self).1
  obtain ⟨a, ha⟩ : ∃ a, f.units[j]? = some a := ⟨_, List.getElem?_eq_getElem (by omega)⟩
  obtain ⟨e, he⟩ : ∃ e, f.units[j + 1]? = some e := ⟨_, List.getElem?_eq_getElem (by omega)⟩
  have hae := ho.lt (Nat.lt_succ_self j) ha he
  have hle : e ≤ f.toksBefore.length := by
    rcases Nat.lt_or_ge (j + 1) f.unitsBefore.length with hlt | hge
    · exact (ho.lt hlt he f.unit_self).le
    · have heq : j + 1 = f.unitsBefore.length := by omega
      rw [heq] at he
      exact (Option.some.inj (he.symm.trans f.unit_self)).le
  have hself := bound_self ho
  have hself' := bound_self ho'
  have hsum : a + (e - a) = e := Nat.add_sub_of_le hae.le
  have hstop : f.units[j + 1]?.getD f.tokens.length = a + (e - a) := by
    rw [he, Option.getD_some, hsum]
  have hstop' : (f.replace text toks).units[j + 1]?.getD (f.replace text toks).tokens.length =
      a + (e - a) := by
    rw [hsame _ (by omega), he, Option.getD_some, hsum]
  have hslice : ∀ g : Around, slice g.src 0 (0 + g.before.length) = g.before := by
    intro g
    rw [slice, src, List.append_assoc, Nat.zero_add, List.take_left, List.drop_zero]
  refine ⟨⟨f.src, (f.replace text toks).src, f.tokens, (f.replace text toks).tokens, a, a, e - a, 0,
    0, f.before.length⟩, ⟨⟨(hslice f).trans (hslice (f.replace text toks)).symm, src_before f,
      src_before (f.replace text toks), ?_, Nat.sub_pos_of_lt hae, .inl ⟨?_, ?_⟩⟩, rfl, rfl, rfl, rfl,
      ha, (hsame j hj.le).trans ha, hstop, hstop'⟩, rfl, rfl⟩
  · intro i hi
    have hlt : a + i < f.toksBefore.length := by
      change i < e - a at hi
      omega
    have hget := List.getElem?_eq_getElem hlt
    have hspan := hf.before _ (List.getElem_mem hlt)
    exact ⟨_, (tokens_before hlt).trans hget,
      (tokens_before (f := f.replace text toks) hlt).trans hget, Nat.zero_le _, hspan.1.le,
      hspan.2.trans (Nat.zero_add _).ge⟩
  · exact (hsum.trans_le hle).trans_lt hself
  · exact (hsum.trans_le hle).trans_lt hself'

theorem slice_after (f : Around) : slice f.src f.stop (f.stop + f.after.length) = f.after := by
  rw [slice, ← src_length, List.take_length, src]
  exact List.drop_left

theorem shift_after (b b' x : ℕ) : shift b b' (shift 0 b x) = shift 0 b' x := by
  rw [shift, shift, shift]
  omega

/-- Where a unit after ends, among the tokens after. -/
theorem stop_after (f : Around) (i : ℕ) :
    f.units[f.unitsBefore.length + 1 + i + 1]?.getD f.tokens.length =
      f.tokStop + f.unitsAfter[i + 1]?.getD f.toksAfter.length := by
  rw [Nat.add_assoc _ i 1, units_after, tokens_length]
  cases f.unitsAfter[i + 1]? with
  | none => rfl
  | some v => rfl

/-- A unit after has tokens, all of them among those after. -/
theorem extent_after (ho : f.Ordered) {i v : ℕ} (hv : f.unitsAfter[i]? = some v) :
    v < f.unitsAfter[i + 1]?.getD f.toksAfter.length ∧
      f.unitsAfter[i + 1]?.getD f.toksAfter.length ≤ f.toksAfter.length := by
  have hlength := f.tokens_length
  have hstart : f.units[f.unitsBefore.length + 1 + i]? = some (f.tokStop + v) := by
    rw [units_after, hv]
    rfl
  cases hnext : f.unitsAfter[i + 1]? with
  | none =>
      have hlt := ho.bound _ (List.mem_of_getElem? hstart)
      exact ⟨show v < f.toksAfter.length by omega, le_rfl⟩
  | some v' =>
      have hstop : f.units[f.unitsBefore.length + 1 + (i + 1)]? = some (f.tokStop + v') := by
        rw [units_after, hnext]
        rfl
      have hlt := ho.lt (by omega) hstart hstop
      have hbound := ho.bound _ (List.mem_of_getElem? hstop)
      exact ⟨show v < v' by omega, show v' ≤ f.toksAfter.length by omega⟩

/-- A unit after the replaced one. -/
theorem window_after (hf : f.Valid logos fuel) (ho : f.Ordered) {j : ℕ}
    (hj : f.unitsBefore.length + 1 ≤ j) :
    (f.units[j]? = none ∧ (f.replace text toks).units[j]? = none) ∨
      ∃ w, UnitWindow f.src (f.replace text toks).src f.tokens (f.replace text toks).tokens f.units
        (f.replace text toks).units j w ∧ w.b = f.stop ∧ w.b' = (f.replace text toks).stop := by
  obtain ⟨i, rfl⟩ := Nat.exists_eq_add_of_le hj
  have hstart := units_after (f := f) i
  have hstart' : (f.replace text toks).units[f.unitsBefore.length + 1 + i]? =
      f.unitsAfter[i]?.map ((f.replace text toks).tokStop + ·) :=
    units_after (f := f.replace text toks) i
  cases hv : f.unitsAfter[i]? with
  | none =>
      rw [hv] at hstart hstart'
      exact .inl ⟨hstart, hstart'⟩
  | some v =>
      rw [hv] at hstart hstart'
      obtain ⟨hlt, hle⟩ := extent_after ho hv
      have hstop := f.stop_after i
      have hstop' : (f.replace text toks).units[f.unitsBefore.length + 1 + i + 1]?.getD
          (f.replace text toks).tokens.length = (f.replace text toks).tokStop +
            f.unitsAfter[i + 1]?.getD f.toksAfter.length := (f.replace text toks).stop_after i
      generalize f.unitsAfter[i + 1]?.getD f.toksAfter.length = m at hlt hle hstop hstop'
      have hsum : ∀ g : Around, g.tokStop + v + (m - v) = g.tokStop + m := by
        intro g
        omega
      have hlength := f.tokens_length
      have hlength' : (f.replace text toks).tokens.length =
          (f.replace text toks).tokStop + f.toksAfter.length := (f.replace text toks).tokens_length
      have hsrc' : (f.replace text toks).src.length =
          (f.replace text toks).stop + f.after.length := (f.replace text toks).src_length
      refine .inr ⟨⟨f.src, (f.replace text toks).src, f.tokens, (f.replace text toks).tokens,
        f.tokStop + v, (f.replace text toks).tokStop + v, m - v, f.stop, (f.replace text toks).stop,
        f.after.length⟩, ⟨⟨f.slice_after.trans (f.replace text toks).slice_after.symm,
          f.src_length.ge, hsrc'.ge, ?_, Nat.sub_pos_of_lt hlt, ?_⟩, rfl, rfl, rfl, rfl, hstart,
          hstart', hstop.trans (hsum f).symm, hstop'.trans (hsum _).symm⟩, rfl, rfl⟩
      · intro x hx
        have hx' : v + x < f.toksAfter.length := by
          change x < m - v at hx
          omega
        have hget := List.getElem?_eq_getElem hx'
        have hspan := hf.after _ (List.getElem_mem hx')
        generalize f.toksAfter[v + x] = t at hget hspan
        have hmoved : (t.moved 0 f.stop).moved f.stop (f.replace text toks).stop =
            t.moved 0 (f.replace text toks).stop := by
          rw [PToken.moved, PToken.moved, PToken.moved]
          simp only [shift_after]
        have htok : f.tokens[f.tokStop + v + x]? = some (t.moved 0 f.stop) := by
          rw [Nat.add_assoc, tokens_after, hget]
          rfl
        have htok' : (f.replace text toks).tokens[(f.replace text toks).tokStop + v + x]? =
            some ((t.moved 0 f.stop).moved f.stop (f.replace text toks).stop) := by
          rw [hmoved, Nat.add_assoc]
          exact (tokens_after (f := f.replace text toks) (v + x)).trans
            (congrArg (Option.map _) hget)
        refine ⟨_, htok, htok', ?_⟩
        change f.stop ≤ t.start - 0 + f.stop ∧ t.start - 0 + f.stop ≤ t.stop - 0 + f.stop ∧
          t.stop - 0 + f.stop ≤ f.stop + f.after.length
        omega
      · change (f.tokStop + v + (m - v) < f.tokens.length ∧
            (f.replace text toks).tokStop + v + (m - v) < (f.replace text toks).tokens.length) ∨
          (f.tokStop + v + (m - v) = f.tokens.length ∧
            (f.replace text toks).tokStop + v + (m - v) = (f.replace text toks).tokens.length ∧
            f.src.length = f.stop + f.after.length ∧
            (f.replace text toks).src.length = (f.replace text toks).stop + f.after.length)
        rw [hsum, hsum, hlength, hlength']
        rcases hle.lt_or_eq with hm | hm
        · exact .inl ⟨by omega, by omega⟩
        · exact .inr ⟨by omega, by omega, f.src_length, hsrc'⟩

/-- The file's parser. -/
def parser (f : Around) : Parser := Parser.withUnits f.src f.tokens f.units

/-- The parse of the file, unit by unit. -/
theorem Valid.read (hlogos : logos.Partitions) (hf : f.Valid logos fuel) :
    ∃ done ps, runGrammar logos fuel f.src f.tokens = some done ∧
      Boundary f.src f.tokens f.units 0 .header (opened f.parser) ∧
      left (opened f.parser) < fuel ∧ FileOf (entries logos fuel) f.parser ps done := by
  have ho := hf.ordered hlogos
  obtain ⟨p, hp, htop, -⟩ := newFile_top hlogos hf.within hf.budget
  obtain rfl : f.parser = p := by
    rw [Parser.newFile, hf.units] at hp
    exact Option.some.inj hp
  have hlevel := entries_level hlogos fuel
  have hleft : left f.parser < fuel := hf.budget
  have hmore : f.parser.pos < f.parser.toks.length :=
    ho.bound 0 (List.mem_of_getElem? ho.first)
  obtain ⟨_, done, hrun, -⟩ := sourceFile_parsed hlevel htop hleft
  obtain ⟨ps, t, cm, hreads, hcomplete⟩ := sourceFile_reads hlevel htop hleft rfl hmore hrun
  have hopened := opened_boundary htop rfl rfl ho.first ho.bound rfl rfl rfl
  refine ⟨done, ps, ?_, hopened, hleft, fileOf_reads hlogos hopened hleft rfl rfl hreads hcomplete⟩
  rw [runGrammar, hp]
  change (sourceFile (entries logos fuel) f.parser >>= _) = _
  rw [hrun]
  rfl

end Around

/-- A token of one character at the start of a line. -/
def lineToken (kind : SyntaxKind) (start : ℕ) : PToken :=
  { kind := kind, start := start, stop := start + 1, newlineBefore := true, col := 1,
    wsBefore := false }

/-- A token of one character after others of its line. -/
def inlineToken (kind : SyntaxKind) (start col : ℕ) : PToken :=
  { kind := kind, start := start, stop := start + 1, newlineBefore := false, col := col,
    wsBefore := false }

/-- `x=1`, `y=2` and `z=3` on three lines, around the second. -/
def threeLines : Around where
  before := "x=1\n".toList
  text := "y=2\n".toList
  after := "z=3".toList
  toksBefore := [lineToken .lowerIdent 0, inlineToken .eq 1 2, inlineToken .int 2 3]
  toks := [lineToken .lowerIdent 4, inlineToken .eq 5 2, inlineToken .int 6 3]
  toksAfter := [lineToken .lowerIdent 0, inlineToken .eq 1 2, inlineToken .int 2 3]
  unitsBefore := [0]
  unitsAfter := [0]

theorem threeLines_valid : threeLines.Valid charLogos 12 where
  before := by unfold WithinSource; decide
  toks := by unfold WithinSource; decide
  after := by unfold WithinSource; decide
  units := by decide +kernel
  budget := by decide +kernel

/-- The second line is only `y`. -/
def brokenLine : Around := threeLines.replace "y\n".toList [lineToken .lowerIdent 4]

theorem brokenLine_valid : brokenLine.Valid charLogos 12 where
  before := by unfold WithinSource; decide
  toks := by unfold WithinSource; decide
  after := by unfold WithinSource; decide
  units := by decide +kernel
  budget := by decide +kernel

/-- A scanner whose tokens are words and single characters. -/
def wordLogos : Logos where
  lexer src := (src.zipIdx.splitBy fun a b => a.1.isAlpha && b.1.isAlpha).map fun g =>
    (charLogos.charClass (g.head?.elim ' ' (·.1)), g.head?.elim 0 (·.2), g.getLast?.elim 0 (·.2 + 1))
  isUppercase := Char.isUpper

def scanned (src : List Char) : List PToken := layout src (lex wordLogos src)

end Sky.Syntax
