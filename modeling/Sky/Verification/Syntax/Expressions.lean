import Sky.Verification.Syntax.Interior
import Sky.Verification.Syntax.Types

/-! # Contracts of expressions and declarations -/

namespace Sky.Syntax

open Sky.Returning

variable {n : ℕ} {e : Entries}

/-! ## Guards -/

theorem operatorContinues_inside (p : Parser) (h : operatorContinues p = true) :
    p.atEnd = false := by
  simp only [operatorContinues, Bool.and_eq_true, Bool.or_eq_true] at h
  rcases h.1 with h | h
  · exact atEnd_of_isAt (by decide) h
  · exact atEnd_of_isAt (by decide) h

theorem argContinues_inside (p : Parser) (h : argContinues p = true) : p.atEnd = false := by
  simp only [argContinues, Bool.and_eq_true, Bool.not_eq_true'] at h
  exact h.1

/-- A guard that asks for `.` at the cursor. -/
theorem dot_inside {b : Bool} (p : Parser) (h : (p.isAt .dot && b) = true) :
    p.atEnd = false := by
  rw [Bool.and_eq_true] at h
  exact atEnd_of_isAt (by decide) h.1

/-! ## Access paths -/

theorem fieldAccess_regrows {fuel : ℕ} (hfuel : n ≤ fuel) : Regrows n (fieldAccess fuel) := by
  refine Regrows.whileLoop ?_ (by decide) (bump_moves.seq fun _ _ => bump_runs) hfuel
  intro p hp
  rw [Bool.and_assoc] at hp
  exact dot_inside p hp

theorem qualifiedPath_runs {fuel : ℕ} (hfuel : n ≤ fuel) :
    Runs n Anything (qualifiedPath fuel) := by
  refine Runs.loop (Rounds.of_moves ?_ ?_ (Rounds.done (f := id) fun _ _ => trivial)) hfuel
    trivial
  · intro p hp
    rw [Bool.and_assoc] at hp
    exact dot_inside p hp
  · intro _ _ s hs hend hleft
    refine Returns.get_bind ?_
    refine Moves.seq (n := n) bump_moves (fun _ _ => bump_runs.bind fun _ _ => ?_) s hs hend hleft
    exact Runs.pure (by split <;> trivial)

/-! ## Compound expressions -/

theorem recordBase_runs (h : Level n e) : Runs n Anything (recordBase e) := by
  refine Runs.branch (bump_runs.bind fun _ _ => ?_) bump_runs
  refine Runs.whileLoop ?_ (fun _ _ => bump_moves.seq fun _ _ => bump_runs) h.le_fuel trivial
  intro p hp
  rw [Bool.and_assoc] at hp
  exact dot_inside p hp

theorem recordField_runs (h : Level n e) : Runs n Anything (recordField e) :=
  node_runs <| (expect_runs _).bind fun _ _ => (expect_runs _).bind fun _ _ =>
    (Runs.ignore h.expr).bind fun _ _ => Runs.pure (by decide)

theorem recordExpr_grows (h : Level n e) : Grows (n + 1) (recordExpr e) := by
  refine node_grows (bump_moves.bind fun _ _ => withIndent_runs 0 (Runs.branch ?_ ?_))
  · exact bump_runs.bind fun _ _ => Runs.pure (by decide)
  · refine Runs.get_bind fun p => ?_
    refine (Runs.onlyIf ((recordBase_runs h).bind fun _ _ => expect_runs _)).bind fun _ _ => ?_
    refine (commaLoop_runs h.le_fuel _ (recordField_runs h)).bind fun _ _ => ?_
    exact (expect_runs _).bind fun _ _ => Runs.pure (ite_isNode (by decide) (by decide))

theorem lambdaExpr_grows (h : Level n e) : Grows (n + 1) (lambdaExpr e) :=
  node_grows <| bump_moves.bind fun _ _ => (paramList_runs h _).bind fun _ _ =>
    (expect_runs _).bind fun _ _ => (Runs.ignore h.expr).bind fun _ _ => Runs.pure (by decide)

theorem ifExpr_grows (h : Level n e) : Grows (n + 1) (ifExpr e) :=
  node_grows <| bump_moves.bind fun _ _ => (Runs.ignore h.expr).bind fun _ _ =>
    (expect_runs _).bind fun _ _ => (Runs.ignore h.expr).bind fun _ _ =>
    (expect_runs _).bind fun _ _ => (Runs.ignore h.expr).bind fun _ _ => Runs.pure (by decide)

/-! ## Bindings -/

theorem annotationBinding_moves (h : Level n e) (anchor : ℕ) :
    Moves n Anything (annotationBinding e anchor) :=
  Moves.ignore <| node_grows <| bump_moves.seq fun _ _ => bump_runs.bind fun _ _ =>
    (withIndent_runs anchor (Runs.ignore h.ty)).bind fun _ _ => Runs.pure (by decide)

theorem valueBinding_moves (h : Level n e) (anchor : ℕ) :
    Moves n Anything (valueBinding e anchor) :=
  Moves.ignore <| node_grows <| bump_moves.seq fun _ _ => (paramList_runs h _).bind fun _ _ =>
    (expect_runs _).bind fun _ _ =>
    (withIndent_runs anchor (Runs.ignore h.expr)).bind fun _ _ => Runs.pure (by decide)

theorem destructureBinding_moves (h : Level n e) (anchor : ℕ) :
    Moves n Anything (destructureBinding e anchor) :=
  Moves.ignore <| node_grows <| (Moves.ignore h.pattern.grows).seq fun _ _ =>
    (expect_runs _).bind fun _ _ =>
    (withIndent_runs anchor (Runs.ignore h.expr)).bind fun _ _ => Runs.pure (by decide)

theorem letBinding_moves (h : Level n e) (anchor : ℕ) :
    Moves n Anything (letBinding e anchor) :=
  Moves.branch (annotationBinding_moves h anchor)
    (Moves.branch (valueBinding_moves h anchor) (destructureBinding_moves h anchor))

theorem matchArm_moves (h : Level n e) (patCol : ℕ) : Moves n Anything (matchArm e patCol) :=
  Moves.ignore <| node_grows <| (Moves.ignore h.pattern.grows).seq fun _ _ =>
    (expect_runs _).bind fun _ _ => Runs.get_bind fun _ =>
    (withIndent_runs _ (Runs.ignore h.expr)).bind fun _ _ => Runs.pure (by decide)

theorem siblingRound_rounds {stop more : Parser → Bool} {item : P Unit}
    (hstop : ∀ p, stop p = false → p.atEnd = false) (hitem : Moves n Anything item) :
    Rounds n Anything (siblingRound stop more item) := by
  intro _ _ s hs hleft
  refine Returns.branch (fun _ => Returns.pure ⟨Step.refl s, trivial⟩) fun hs' => ?_
  refine (hitem s hs (hstop s hs') hleft).bind ?_
  rintro _ s₁ ⟨h₁, hlt, -⟩
  refine Returns.branch (fun _ => ?_) fun _ => ?_
  · exact Returns.pure ⟨h₁, trivial, hlt⟩
  · exact Returns.pure ⟨h₁, trivial⟩

theorem letRound_rounds (h : Level n e) (anchor : ℕ) : Rounds n Anything (letRound e anchor) := by
  refine siblingRound_rounds (fun p hp => ?_) (letBinding_moves h anchor)
  rw [Bool.or_eq_false_iff] at hp
  exact hp.2

theorem caseRound_rounds (h : Level n e) (anchor : ℕ) :
    Rounds n Anything (caseRound e anchor) := by
  refine siblingRound_rounds (fun p hp => ?_) (matchArm_moves h anchor)
  rw [Bool.or_eq_false_iff] at hp
  exact hp.1

theorem letExpr_grows (h : Level n e) : Grows (n + 1) (letExpr e) :=
  node_grows <| bump_moves.bind fun _ _ => Runs.get_bind fun p =>
    (Runs.branch (error_runs _) (Runs.pure trivial)).bind fun _ _ =>
    (Runs.loop (letRound_rounds h p.col) h.le_fuel trivial).bind fun _ _ =>
    (expect_runs _).bind fun _ _ => (Runs.ignore h.expr).bind fun _ _ => Runs.pure (by decide)

theorem caseExpr_grows (h : Level n e) : Grows (n + 1) (caseExpr e) :=
  node_grows <| bump_moves.bind fun _ _ => (Runs.ignore h.expr).bind fun _ _ =>
    (expect_runs _).bind fun _ _ => Runs.get_bind fun p =>
    (Runs.branch (error_runs _) (Runs.pure trivial)).bind fun _ _ =>
    (Runs.loop (caseRound_rounds h p.col) h.le_fuel trivial).bind fun _ _ =>
    Runs.pure (by decide)

/-! ## Atoms and operators -/

section

variable {logos : Logos} (hlogos : logos.Partitions)

include hlogos

theorem multilineLiteral_grows (h : Level n e) : Grows (n + 1) (multilineLiteral logos e) :=
  node_grows ((multiline_moves hlogos h.expr).seq fun _ _ => Runs.pure (by decide))

theorem atom_plants (h : Level n e) : Plants (n + 1) (atom logos e) := by
  refine Plants.match_current fun p => ?_
  split
  case h_6 hcur => exact .inl ⟨by rw [hcur]; decide, multilineLiteral_grows hlogos h⟩
  case h_4 | h_5 => exact .inr (checkedLeaf_plants (by decide))
  case h_10 hcur =>
    refine .inl ⟨by rw [hcur]; decide, node_grows (bump_moves.bind fun _ _ => ?_)⟩
    exact (qualifiedPath_runs h.le_fuel).bind fun _ _ =>
      Runs.pure (ite_isNode (by decide) (by decide))
  case h_11 hcur =>
    refine .inl ⟨by rw [hcur]; decide, node_grows (bump_moves.bind fun _ _ => ?_)⟩
    exact (expect_runs _).bind fun _ _ => Runs.pure (by decide)
  case h_12 hcur =>
    split
    · refine .inl ⟨by rw [hcur]; decide, node_grows (bump_moves.bind fun _ _ => ?_)⟩
      exact (Runs.ignore h.primaryExpr).bind fun _ _ => Runs.pure (by decide)
    · exact .inr (errorAtom_plants _)
  case h_13 hcur =>
    exact .inl ⟨by rw [hcur]; decide,
      parenOf_grows h.le_fuel h.expr (by decide) (by decide) (by decide)⟩
  case h_14 hcur => exact .inl ⟨by rw [hcur]; decide, listOf_grows h.le_fuel h.expr (by decide)⟩
  case h_15 hcur => exact .inl ⟨by rw [hcur]; decide, recordExpr_grows h⟩
  case h_16 hcur => exact .inl ⟨by rw [hcur]; decide, lambdaExpr_grows h⟩
  case h_17 hcur => exact .inl ⟨by rw [hcur]; decide, ifExpr_grows h⟩
  case h_18 hcur => exact .inl ⟨by rw [hcur]; decide, letExpr_grows h⟩
  case h_19 hcur => exact .inl ⟨by rw [hcur]; decide, caseExpr_grows h⟩
  case h_20 => exact .inr (errorAtom_plants _)
  all_goals exact .inr (leaf_plants (by decide))

theorem primaryExpr_plants (h : Level n e) : Plants (n + 1) (primaryExpr logos e) :=
  (atom_plants hlogos h).bind (fieldAccess_regrows h.fuel)

theorem appExpr_plants (h : Level n e) : Plants (n + 1) (appExpr logos e) := by
  refine (primaryExpr_plants hlogos h).bind (Regrows.wrap_runs (by decide) ?_)
  refine Runs.whileLoop argContinues_inside (fun _ _ => Moves.branch ?_ ?_) h.fuel trivial
  · exact Moves.ignore <| node_grows <| bump_moves.seq fun _ _ =>
      (Runs.ignore (leaf_plants (by decide))).bind fun _ _ => Runs.pure (by decide)
  · exact Moves.ignore (primaryExpr_plants hlogos h).grows

theorem exprBp_plants (h : Level n e) (minBp : ℕ) : Plants (n + 1) (exprBp logos e minBp) := by
  refine guarded_plants ((appExpr_plants hlogos h).bind (Regrows.loop ?_ h.fuel))
  intro s s₁ cm hs hcm hleft
  refine Returns.branch (fun hop => ?_) fun _ => Returns.pure ⟨hcm, le_rfl⟩
  refine Returns.get_bind ?_
  dsimp only
  split
  · exact Returns.pure ⟨hcm, le_rfl⟩
  · have hbody : Moves (n + 1) Anything (do
        bump
        ignore (e.exprBp (binPower s₁).2)) :=
      bump_moves.bind fun _ _ => Runs.ignore (h.exprBp _)
    refine (wrap_moves (by decide) hbody hs hcm (operatorContinues_inside s₁ hop) hleft).bind ?_
    intro cm' s₂ h₂
    exact Returns.pure h₂

/-- Every level of recursion keeps its contracts. -/
theorem entries_level (n : ℕ) : Level n (entries logos n) := by
  induction n with
  | zero =>
      have hzero : ∀ x : P CompletedMarker, Plants 0 x := fun _ s _ hleft => by omega
      exact ⟨le_rfl, hzero _, hzero _, hzero _, fun _ => hzero _, hzero _⟩
  | succ n ih =>
      exact ⟨le_rfl, ty_plants ih, pattern_plants ih, patternCons_plants ih,
        exprBp_plants hlogos ih, primaryExpr_plants hlogos ih⟩

end

/-! ## Module header and imports -/

variable {fuel : ℕ}

theorem moduleName_runs (hfuel : n ≤ fuel) : Runs n Anything (moduleName fuel) := by
  refine node_runs ((expect_runs _).bind fun _ _ =>
    Runs.bind (U := Anything) ?_ fun _ _ => Runs.pure (by decide))
  exact Runs.whileLoop (fun p hp => dot_inside p hp) (fun _ _ => bump_moves.seq fun _ _ => bump_runs) hfuel trivial

theorem exposedNames_runs (hfuel : n ≤ fuel) {item : P Unit} (hitem : Runs n Anything item) :
    Runs n Anything (exposedNames fuel item) := by
  refine (eat_runs (by decide)).bind fun b _ => ?_
  cases b with
  | true => exact Runs.pure trivial
  | false => exact commaLoop_runs hfuel _ hitem

theorem exposedCtors_runs (hfuel : n ≤ fuel) : Runs n Anything (exposedCtors fuel) :=
  node_runs <| bump_runs.bind fun _ _ => (exposedNames_runs hfuel (expect_runs _)).bind fun _ _ =>
    (expect_runs _).bind fun _ _ => Runs.pure (by decide)

theorem exposedItem_runs (hfuel : n ≤ fuel) : Runs n Anything (exposedItem fuel) := by
  refine Runs.get_bind fun p => ?_
  split
  · exact Runs.ignore (leaf_plants (by decide))
  · exact node_runs <| bump_runs.bind fun _ _ =>
      (Runs.branch (exposedCtors_runs hfuel) (Runs.pure trivial)).bind fun _ _ =>
      Runs.pure (by decide)
  · exact node_runs <| bump_runs.bind fun _ _ =>
      (Runs.branch (Runs.pure trivial) bump_runs).bind fun _ _ =>
      (expect_runs _).bind fun _ _ => Runs.pure (by decide)
  · exact Runs.ignore (errorAtom_plants _)

theorem exposingList_runs (hfuel : n ≤ fuel) {kind : SyntaxKind} (hkind : IsNode kind) :
    Runs n Anything (exposingList fuel kind) := by
  refine node_runs (bump_runs.bind fun _ _ => (expect_runs _).bind fun _ _ =>
    Runs.bind (U := Anything) (withIndent_runs 0 ?_) fun _ _ => Runs.pure hkind)
  exact (exposedNames_runs hfuel (exposedItem_runs hfuel)).bind fun _ _ => expect_runs _

theorem moduleHeader_runs (hfuel : n ≤ fuel) : Runs n Anything (moduleHeader fuel) :=
  node_runs <| bump_runs.bind fun _ _ => (moduleName_runs hfuel).bind fun _ _ =>
    (Runs.branch (exposingList_runs hfuel (by decide)) (Runs.pure trivial)).bind fun _ _ =>
    Runs.pure (by decide)

theorem importAlias_runs : Runs n Anything importAlias :=
  node_runs <| bump_runs.bind fun _ _ => (Runs.branch bump_runs (error_runs _)).bind fun _ _ =>
    Runs.pure (by decide)

theorem importDecl_moves (hfuel : n ≤ fuel) : Moves n Anything (importDecl fuel) :=
  Moves.ignore <| node_grows <| bump_moves.seq fun _ _ => (moduleName_runs hfuel).bind fun _ _ =>
    (Runs.branch importAlias_runs (Runs.pure trivial)).bind fun _ _ =>
    (Runs.branch (exposingList_runs hfuel (by decide)) (Runs.pure trivial)).bind fun _ _ =>
    Runs.pure (by decide)

/-! ## Declarations -/

theorem variant_runs (h : Level n e) : Runs n Anything (variant e) := by
  refine node_runs ((expect_runs _).bind fun _ _ =>
    Runs.bind (U := Anything) ?_ fun _ _ => Runs.pure (by decide))
  refine Runs.whileLoop ?_
    (fun _ _ => Moves.ignore ((typeAtom_plants h).mono (Nat.le_succ n)).grows) h.le_fuel trivial
  intro p hp
  simp only [Bool.and_eq_true] at hp
  exact atEnd_of_atAny (by decide) hp.1.1

theorem unionVariants_runs (h : Level n e) : Runs n Anything (unionVariants e) := by
  refine node_runs ((variant_runs h).bind fun _ _ =>
    Runs.bind (U := Anything) ?_ fun _ _ => Runs.pure (by decide))
  refine Runs.whileLoop ?_ (fun _ _ => bump_moves.seq fun _ _ => variant_runs h) h.le_fuel
    trivial
  intro p hp
  simp only [Bool.and_eq_true] at hp
  exact atEnd_of_isAt (by decide) hp.1

theorem typeVarList_runs (h : Level n e) : Runs n Anything (typeVarList e) := by
  refine node_runs (Runs.bind (U := Anything) ?_ fun _ _ => Runs.pure (by decide))
  exact Runs.whileLoop (isAt_inside (by decide)) (fun _ _ => bump_moves) h.le_fuel trivial

theorem typeDecl_moves (h : Level n e) : Moves n Anything (typeDecl e) := by
  refine Moves.ignore (node_grows (bump_moves.seq fun _ _ =>
    (eat_runs (by decide)).bind fun b _ => ?_))
  cases b with
  | true =>
      exact (expect_runs _).bind fun _ _ => (typeVarList_runs h).bind fun _ _ =>
        (expect_runs _).bind fun _ _ =>
        (withIndent_runs 1 (Runs.ignore h.ty)).bind fun _ _ => Runs.pure (by decide)
  | false =>
      exact (expect_runs _).bind fun _ _ => (typeVarList_runs h).bind fun _ _ =>
        (expect_runs _).bind fun _ _ =>
        (withIndent_runs 1 (unionVariants_runs h)).bind fun _ _ => Runs.pure (by decide)

theorem valueOrAnno_moves (h : Level n e) : Moves n Anything (valueOrAnno e) := by
  refine Moves.ignore (node_grows (bump_moves.seq fun _ _ => Runs.branch ?_ ?_))
  · exact bump_runs.bind fun _ _ =>
      (withIndent_runs 1 (Runs.ignore h.ty)).bind fun _ _ => Runs.pure (by decide)
  · exact (paramList_runs h _).bind fun _ _ => (expect_runs _).bind fun _ _ =>
      Runs.get_bind fun p =>
      (withIndent_runs p.col (Runs.ignore h.expr)).bind fun _ _ => Runs.pure (by decide)

theorem decl_moves (h : Level n e) : Moves n Anything (decl e) := by
  intro s hs hend hleft
  refine Returns.get_bind ?_
  split
  · exact typeDecl_moves h s hs hend hleft
  · exact valueOrAnno_moves h s hs hend hleft
  · exact valueOrAnno_moves h s hs hend hleft
  · exact errAndBump_moves _ s hs hend hleft

/-- A round of the top level consumes a token. -/
theorem topLevel_moves (h : Level n e) : Moves n Anything (topLevel e) := by
  intro s hs hend hleft
  refine Returns.branch (fun _ => decl_moves h s hs hend hleft) fun hdecl => ?_
  refine Returns.branch (fun _ => errAndBump_moves _ s hs hend hleft) fun hboundary => ?_
  have hstops : recoveryStops declStart s = false := by
    simp [recoveryStops, hend, hdecl, hboundary]
  exact (errRecover_moves h.le_fuel _ hs hstops hleft).mono fun _ _ hr => ⟨hr.1, hr.2, trivial⟩

end Sky.Syntax
