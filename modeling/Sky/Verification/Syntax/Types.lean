import Sky.Model.Syntax.Grammar
import Sky.Verification.Syntax.Primitives

/-! # Contracts of the shared shapes, types and patterns

Each production is one rule for each line of the source. A production of level `n + 1`
recurses into level `n` only past a token. -/

namespace Sky.Syntax

open Sky.Returning

/-- The contracts of one level of recursion. -/
structure Level (n : ℕ) (e : Entries) : Prop where
  fuel : n + 1 ≤ e.fuel
  ty : Plants n e.ty
  pattern : Plants n e.pattern
  patternCons : Plants n e.patternCons
  exprBp : ∀ minBp, Plants n (e.exprBp minBp)
  primaryExpr : Plants n e.primaryExpr

theorem Level.expr {n : ℕ} {e : Entries} (h : Level n e) : Plants n e.expr := h.exprBp 0

theorem Level.le_fuel {n : ℕ} {e : Entries} (h : Level n e) : n ≤ e.fuel :=
  (Nat.le_succ n).trans h.fuel

/-! ## Shared shapes -/

variable {n fuel : ℕ}

theorem atDotName_inside (p : Parser) (h : atDotName p = true) : p.atEnd = false := by
  simp only [atDotName, Bool.and_eq_true] at h
  exact atEnd_of_isAt (by decide) h.1

theorem dotNames_runs (hfuel : n ≤ fuel) : Runs n Anything (dotNames fuel) := by
  refine Runs.whileLoop atDotName_inside (fun _ _ => ?_) hfuel trivial
  exact bump_moves.seq fun _ _ => bump_runs.bind fun _ _ => Runs.pure trivial

theorem commaRound_rounds (close : SyntaxKind) {item : P Unit} (hitem : Runs n Anything item) :
    Rounds n Anything (commaRound close item) := by
  intro _ _ s hs hleft
  refine Returns.branch (fun _ => Returns.pure ⟨Step.refl s, trivial⟩) fun _ => ?_
  refine (hitem s hs hleft).bind ?_
  rintro _ s₁ ⟨h₁, -⟩
  refine (eat_returns (by decide) (h₁.ok hs)).bind ?_
  rintro b s₂ ⟨h₂, hlt⟩
  cases b with
  | true => exact Returns.pure ⟨h₁.trans h₂, trivial, lt_of_le_of_lt h₁.pos_le (hlt rfl)⟩
  | false => exact Returns.pure ⟨h₁.trans h₂, trivial⟩

theorem commaLoop_runs (hfuel : n ≤ fuel) (close : SyntaxKind) {item : P Unit}
    (hitem : Runs n Anything item) : Runs n Anything (commaLoop fuel close item) :=
  Runs.loop (commaRound_rounds close hitem) hfuel trivial

theorem isAt_inside {kind : SyntaxKind} (hk : kind ≠ .eof) (p : Parser)
    (h : p.isAt kind = true) : p.atEnd = false := atEnd_of_isAt hk h

theorem tupleRound_rounds {item : P CompletedMarker} (hitem : Plants n item) :
    Rounds n Anything (tupleRound item) := by
  refine Rounds.of_moves (isAt_inside (by decide)) (fun _ _ => ?_)
    (Rounds.done (f := id) fun _ _ => trivial)
  exact bump_moves.seq fun _ _ => Runs.branch (Runs.pure trivial)
    ((Runs.ignore hitem).bind fun _ _ => Runs.pure trivial)

theorem listRound_rounds {item : P CompletedMarker} (hitem : Plants n item) :
    Rounds n Anything (listRound item) := by
  intro _ _ s hs hleft
  refine (eat_returns (by decide) hs).bind ?_
  rintro b s₁ ⟨h₁, hlt⟩
  cases b with
  | false => exact Returns.pure ⟨h₁, trivial⟩
  | true =>
      refine Returns.branch (fun _ => Returns.pure ⟨h₁, trivial⟩) fun _ => ?_
      refine (Runs.ignore hitem s₁ (h₁.ok hs) (lt_of_le_of_lt h₁.left_le hleft)).bind ?_
      rintro _ s₂ ⟨h₂, -⟩
      exact Returns.pure ⟨h₁.trans h₂, trivial, lt_of_lt_of_le (hlt rfl) h₂.pos_le⟩

theorem ite_isNode {b : Bool} {k k' : SyntaxKind} (hk : IsNode k) (hk' : IsNode k') :
    IsNode (if b then k else k') := by
  cases b with
  | true => exact hk
  | false => exact hk'

theorem parenOf_grows (hfuel : n ≤ fuel) {item : P CompletedMarker} (hitem : Plants n item)
    {unit tuple paren : SyntaxKind} (hunit : IsNode unit) (htuple : IsNode tuple)
    (hparen : IsNode paren) : Grows (n + 1) (parenOf fuel item unit tuple paren) := by
  refine node_grows (bump_moves.bind fun _ _ => Runs.branch ?_ ?_)
  · exact bump_runs.bind fun _ _ => Runs.pure hunit
  · refine Runs.bind (U := Anything) (withIndent_runs 0 ?_)
      fun isTuple _ => Runs.pure (ite_isNode htuple hparen)
    refine (Runs.ignore hitem).bind fun _ _ => Runs.bind (U := Anything) ?_ fun isTuple _ =>
      (expect_runs _).bind fun _ _ => Runs.pure trivial
    exact Runs.loop (tupleRound_rounds hitem) hfuel trivial

theorem listOf_grows (hfuel : n ≤ fuel) {item : P CompletedMarker} (hitem : Plants n item)
    {kind : SyntaxKind} (hkind : IsNode kind) : Grows (n + 1) (listOf fuel item kind) := by
  refine node_grows (bump_moves.bind fun _ _ =>
    Runs.bind (U := Anything) (withIndent_runs 0 ?_) fun _ _ => Runs.pure hkind)
  refine Runs.bind (U := Anything) (Runs.branch (Runs.pure trivial) ?_)
    fun _ _ => expect_runs _
  exact (Runs.ignore hitem).bind fun _ _ => Runs.loop (listRound_rounds hitem) hfuel trivial

/-! ## Types -/

variable {e : Entries}

theorem typeRecordField_runs (h : Level n e) : Runs n Anything (typeRecordField e) :=
  node_runs <| (expect_runs _).bind fun _ _ => (expect_runs _).bind fun _ _ =>
    (Runs.ignore h.ty).bind fun _ _ => Runs.pure (by decide)

theorem rowVar_runs : Runs n Anything rowVar :=
  (Runs.ignore (leaf_plants (by decide))).bind fun _ _ => bump_runs

theorem typeRecord_grows (h : Level n e) : Grows (n + 1) (typeRecord e) := by
  refine node_grows (bump_moves.bind fun _ _ =>
    Runs.bind (U := Anything) (withIndent_runs 0 ?_) fun _ _ => Runs.pure (by decide))
  refine Runs.branch bump_runs ?_
  exact (Runs.branch rowVar_runs (Runs.pure trivial)).bind fun _ _ =>
    (commaLoop_runs h.le_fuel _ (typeRecordField_runs h)).bind fun _ _ => expect_runs _

/-- A name with its qualifier. -/
theorem qualified_grows (hfuel : n ≤ fuel) {rest : Bool → P SyntaxKind}
    (hrest : ∀ b, Runs n IsNode (rest b)) :
    Grows (n + 1) (node (do bump; let q ← dotNames fuel; rest q)) :=
  node_grows (bump_moves.bind fun _ _ => (dotNames_runs hfuel).bind fun b _ => hrest b)

theorem typeAtom_plants (h : Level n e) : Plants (n + 1) (typeAtom e) := by
  refine Plants.match_current fun p => ?_
  split
  · exact .inr (leaf_plants (by decide))
  · rename_i hcur
    refine .inl ⟨by rw [hcur]; decide, qualified_grows h.le_fuel fun b => ?_⟩
    exact Runs.pure (ite_isNode (by decide) (by decide))
  · rename_i hcur
    exact .inl ⟨by rw [hcur]; decide,
      parenOf_grows h.le_fuel h.ty (by decide) (by decide) (by decide)⟩
  · rename_i hcur
    exact .inl ⟨by rw [hcur]; decide, typeRecord_grows h⟩
  · exact .inr (errorAtom_plants _)

theorem atTypeArg_inside (p : Parser) (h : atTypeArg p = true) : p.atEnd = false := by
  simp only [atTypeArg, Bool.and_eq_true] at h
  exact atEnd_of_atAny (by decide) h.1

theorem typeApp_plants (h : Level n e) : Plants (n + 1) (typeApp e) := by
  refine (typeAtom_plants h).bind (Regrows.wrap_runs (by decide) ?_)
  exact Runs.whileLoop atTypeArg_inside
    (fun _ _ => Moves.ignore (typeAtom_plants h).grows) h.fuel trivial

theorem ty_plants (h : Level n e) : Plants (n + 1) (ty e) := by
  refine guarded_plants ((typeApp_plants h).bind (Regrows.wrap ?_ (by decide) ?_))
  · intro p hp
    simp only [Bool.and_eq_true] at hp
    exact atEnd_of_isAt (by decide) hp.1
  · exact bump_moves.bind fun _ _ => Runs.ignore h.ty

/-! ## Patterns -/

theorem patternRecord_grows (h : Level n e) : Grows (n + 1) (patternRecord e) := by
  refine node_grows (bump_moves.bind fun _ _ =>
    Runs.bind (U := Anything) (withIndent_runs 0 ?_) fun _ _ => Runs.pure (by decide))
  exact (commaLoop_runs h.le_fuel _ (expect_runs _)).bind fun _ _ => expect_runs _

theorem patCtor_grows (h : Level n e) {args : P Unit} (hargs : Runs n Anything args) :
    Grows (n + 1) (patCtor e args) :=
  qualified_grows h.le_fuel fun b =>
    hargs.bind fun _ _ => Runs.pure (ite_isNode (by decide) (by decide))

theorem atNegativePattern_inside (p : Parser) (h : atNegativePattern p = true) :
    p.atEnd = false := by
  simp only [atNegativePattern, Bool.and_eq_true] at h
  exact atEnd_of_isAt (by decide) h.1.1.1

theorem patternAtom_plants (h : Level n e) : Plants (n + 1) (patternAtom e) := by
  refine Plants.branch_inside atNegativePattern_inside ?_ (Plants.match_current fun p => ?_)
  · exact node_grows (bump_moves.bind fun _ _ => bump_runs.bind fun _ _ => Runs.pure (by decide))
  split
  case h_3 hcur =>
    exact .inl ⟨by rw [hcur]; decide, patCtor_grows h (Runs.pure trivial)⟩
  case h_12 hcur =>
    exact .inl ⟨by rw [hcur]; decide,
      parenOf_grows h.le_fuel h.pattern (by decide) (by decide) (by decide)⟩
  case h_13 hcur =>
    exact .inl ⟨by rw [hcur]; decide, listOf_grows h.le_fuel h.pattern (by decide)⟩
  case h_14 hcur => exact .inl ⟨by rw [hcur]; decide, patternRecord_grows h⟩
  case h_7 | h_8 | h_9 => exact .inr (checkedLeaf_plants (by decide))
  case h_15 => exact .inr (errorAtom_plants _)
  all_goals exact .inr (leaf_plants (by decide))

theorem atAny_inside {set : TokenSet} (hset : SyntaxKind.eof ∉ set) (p : Parser)
    (h : p.atAny set = true) : p.atEnd = false := atEnd_of_atAny hset h

theorem patternApp_plants (h : Level n e) : Plants (n + 1) (patternApp e) := by
  refine Plants.branch_inside (isAt_inside (by decide)) (patCtor_grows h ?_)
    (patternAtom_plants h)
  exact Runs.whileLoop (atAny_inside (by decide))
    (fun _ _ => Moves.ignore ((patternAtom_plants h).mono (Nat.le_succ n)).grows) h.le_fuel
    trivial

theorem patternCons_plants (h : Level n e) : Plants (n + 1) (patternCons e) := by
  refine (patternApp_plants h).bind (Regrows.wrap (isAt_inside (by decide)) (by decide) ?_)
  exact bump_moves.bind fun _ _ => Runs.ignore h.patternCons

theorem pattern_plants (h : Level n e) : Plants (n + 1) (pattern e) := by
  refine guarded_plants ((patternCons_plants h).bind
    (Regrows.wrap (isAt_inside (by decide)) (by decide) ?_))
  exact bump_moves.bind fun _ _ => expect_runs _

theorem paramList_runs (h : Level n e) (stop : SyntaxKind) :
    Runs n Anything (paramList e stop) := by
  refine node_runs (Runs.bind (U := Anything) ?_ fun _ _ => Runs.pure (by decide))
  refine Runs.whileLoop ?_
    (fun _ _ => Moves.ignore ((patternApp_plants h).mono (Nat.le_succ n)).grows) h.le_fuel
    trivial
  intro p hp
  simp only [Bool.and_eq_true] at hp
  exact atEnd_of_atAny (by decide) hp.1

end Sky.Syntax
