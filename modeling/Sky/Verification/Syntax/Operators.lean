import Sky.Verification.Syntax.Progress

/-! # Operators

`expr_bp` reads operands and operators into a tree. Within the nesting limit it is the one that
the operator table prescribes. -/

namespace Sky.Syntax

open Sky.Returning

/-! ## Operator trees -/

inductive OpTree where
  /-- What `app_expr` reads. -/
  | atom (segs : List Segment)
  /-- An operand past the nesting limit. -/
  | tooDeep (segs : List Segment)
  | binary (lhs : OpTree) (op : PToken) (rhs : OpTree)

namespace OpTree

/-- The chain of nodes that the tree is built as. -/
def segs : OpTree → List Segment
  | .atom segs | .tooDeep segs => segs
  | .binary lhs op rhs => lhs.segs ++ [(.binExpr, .token op.kind :: chainEvents rhs.segs)]

def root? : OpTree → Option PToken
  | .atom _ | .tooDeep _ => none
  | .binary _ op _ => some op

/-- How deeply operands nest. -/
def height : OpTree → ℕ
  | .atom _ | .tooDeep _ => 1
  | .binary lhs _ rhs => max lhs.height (rhs.height + 1)

/-- No operand is past the nesting limit. -/
def Shallow : OpTree → Prop
  | .atom _ => True
  | .tooDeep _ => False
  | .binary lhs _ rhs => lhs.Shallow ∧ rhs.Shallow

end OpTree

/-! ## The operator table -/

section

variable (src : List Char) (op : PToken)

def opText : List Char := if op.kind = .colon2 then "::".toList else slice src op.start op.stop

def opLevel : ℕ := binaryOpPrecedence (opText src op)

def rightAssociative : Bool :=
  op.kind = .colon2 ||
    ["<<", "^", "++", "&&", "||", "<|"].contains (String.ofList (slice src op.start op.stop))

def opPower : ℕ × ℕ :=
  if rightAssociative src op then (opLevel src op * 2 + 1, opLevel src op * 2)
  else (opLevel src op * 2, opLevel src op * 2 + 1)

end

/-- In every node, each operand that is an operator node binds tighter than the node, or equally
tight on the side that the associativities `left` and `right` of the two allow. -/
def OpTree.Law (src : List Char) (left right : PToken → PToken → Prop) : OpTree → Prop
  | .atom _ | .tooDeep _ => True
  | .binary lhs op rhs =>
      lhs.Law src left right ∧ rhs.Law src left right ∧
        (∀ o, lhs.root? = some o →
          opLevel src op < opLevel src o ∨ opLevel src o = opLevel src op ∧ left op o) ∧
        ∀ o, rhs.root? = some o →
          opLevel src op < opLevel src o ∨ opLevel src o = opLevel src op ∧ right op o

/-- Equally tight operands stand to the left of a left-associative operator, or to the right of a
right-associative one; or a right-associative one stands to the right of a left-associative one. -/
def OpTree.Prescribed (src : List Char) (t : OpTree) : Prop :=
  t.Law src
    (fun op o => rightAssociative src op = false ∧ rightAssociative src o = false)
    (fun op o => rightAssociative src op = true ∨ rightAssociative src o = true)

/-! ## Readings -/

/-- A parser over the same tokens, in the same unit and block. -/
structure Along (s u : Parser) : Prop where
  src : u.src = s.src
  toks : u.toks = s.toks
  limit : u.limit = s.limit
  blockIndent : u.blockIndent = s.blockIndent

theorem Step.along {s u : Parser} (h : Step s u) : Along s u :=
  ⟨h.src, h.toks, h.limit, h.blockIndent⟩

theorem Along.trans {s u v : Parser} (h : Along s u) (h' : Along u v) : Along s v :=
  ⟨h'.src.trans h.src, h'.toks.trans h.toks, h'.limit.trans h.limit,
    h'.blockIndent.trans h.blockIndent⟩

theorem Along.operatorContinues {s u : Parser} (h : Along s u) :
    operatorContinues u = operatorContinues { s with pos := u.pos } := by
  obtain ⟨⟩ := s
  obtain ⟨⟩ := u
  obtain ⟨rfl, rfl, rfl, rfl⟩ := h
  rfl

theorem Along.binPower {s u : Parser} (h : Along s u) :
    binPower u = binPower { s with pos := u.pos } := by
  obtain ⟨⟩ := s
  obtain ⟨⟩ := u
  obtain ⟨rfl, rfl, rfl, rfl⟩ := h
  rfl

/-- The tree reads the tokens from one place to another: its operands are what `app_expr` reads
there, or error nodes past the nesting limit, and an operator is one token. -/
inductive OpTree.Reads (logos : Logos) (s : Parser) : ℕ → ℕ → OpTree → Prop where
  | atom {n u u' cm segs} (hread : appExpr logos (entries logos n) u = some (cm, u'))
      (hchained : Chained u u' cm segs) (halong : Along s u) :
      OpTree.Reads logos s u.pos u'.pos (.atom segs)
  | tooDeep {u u' cm segs} (hdepth : maxDepth < u.depth) (hread : errorNode u = some (cm, u'))
      (hchained : Chained u u' cm segs) (halong : Along s u) :
      OpTree.Reads logos s u.pos u'.pos (.tooDeep segs)
  | binary {a m b lhs op rhs} (hlhs : OpTree.Reads logos s a m lhs) (hop : s.toks[m]? = some op)
      (hkind : op.kind = .op ∨ op.kind = .colon2) (hrhs : OpTree.Reads logos s (m + 1) b rhs) :
      OpTree.Reads logos s a b (.binary lhs op rhs)

theorem OpTree.Reads.along {logos : Logos} {s u : Parser} (h : Along s u) {a b : ℕ} {t : OpTree}
    (ht : t.Reads logos u a b) : t.Reads logos s a b := by
  induction ht with
  | atom hread hchained halong => exact .atom hread hchained (h.trans halong)
  | tooDeep hdepth hread hchained halong => exact .tooDeep hdepth hread hchained (h.trans halong)
  | binary _ hop hkind _ ihl ihr => exact .binary ihl (h.toks ▸ hop) hkind ihr

theorem OpTree.Reads.le {logos : Logos} {s : Parser} {a b : ℕ} {t : OpTree}
    (h : t.Reads logos s a b) : a ≤ b := by
  induction h with
  | atom _ hchained _ => exact hchained.pos_le
  | tooDeep _ _ hchained _ => exact hchained.pos_le
  | binary _ _ _ _ ihl ihr => omega

/-! ## Binding powers -/

theorem tok_eq {s : Parser} {t : PToken} (h : s.tok s.pos = some t) : s.toks[s.pos]? = some t := by
  unfold Parser.tok at h
  split at h
  · exact h
  · cases h

theorem isAt_eq {s : Parser} {t : PToken} (h : s.tok s.pos = some t) (kind : SyntaxKind) :
    s.isAt kind = (t.kind == kind) := by
  simp [Parser.isAt, Parser.current, Parser.nth, h]

theorem binPower_eq {s : Parser} {t : PToken} (h : s.tok s.pos = some t) :
    binPower s = opPower s.src t := by
  have htext : s.curText = slice s.src t.start t.stop := by simp [Parser.curText, h]
  unfold binPower opPower opLevel rightAssociative opText
  rw [isAt_eq h]
  by_cases hkind : t.kind = .colon2
  · simp [hkind]
  · simp only [beq_iff_eq, hkind, if_false, htext]
    split <;> simp_all

theorem operatorContinues_tok {s : Parser} (h : operatorContinues s = true) :
    ∃ t, s.tok s.pos = some t ∧ (t.kind = .op ∨ t.kind = .colon2) := by
  have hend := operatorContinues_inside s h
  simp only [operatorContinues, Bool.and_eq_true, Bool.or_eq_true] at h
  cases ht : s.tok s.pos with
  | none => simp [Parser.isAt, Parser.current, Parser.nth, ht] at h
  | some t =>
      rw [isAt_eq ht, isAt_eq ht, beq_iff_eq, beq_iff_eq] at h
      exact ⟨t, rfl, h.1⟩

variable {src : List Char} {op o : PToken}

/-- What an operator leaves to the loop around it binds no tighter than its operand asks for. -/
theorem left_law (h : (opPower src op).1 < (opPower src o).2) :
    opLevel src op < opLevel src o ∨ opLevel src o = opLevel src op ∧
      rightAssociative src op = false ∧ rightAssociative src o = false := by
  unfold opPower at h
  cases hop : rightAssociative src op <;> cases ho : rightAssociative src o <;>
    simp only [hop, ho, if_true, if_false, Bool.false_eq_true] at h <;> simp <;> omega

theorem right_law (h : (opPower src op).2 ≤ (opPower src o).1) :
    opLevel src op < opLevel src o ∨ opLevel src o = opLevel src op ∧
      (rightAssociative src op = true ∨ rightAssociative src o = true) := by
  unfold opPower at h
  cases hop : rightAssociative src op <;> cases ho : rightAssociative src o <;>
    simp only [hop, ho, if_true, if_false, Bool.false_eq_true] at h <;> simp <;> omega

/-! ## The loop -/

/-- An operator at the cursor that continues the expression binds less than `minBp`. -/
def Stops (minBp : ℕ) (s : Parser) : Prop := operatorContinues s = true → (binPower s).1 < minBp

theorem Along.stops {s u : Parser} (h : Along s u) {minBp : ℕ} :
    Stops minBp u ↔ Stops minBp { s with pos := u.pos } := by
  rw [Stops, Stops, h.operatorContinues, h.binPower]

/-- The tree that is read from `s` to `s'`, with its operands at the nesting depth `d`. -/
structure Grouped (logos : Logos) (d minBp : ℕ) (s s' : Parser) (cm : CompletedMarker)
    (t : OpTree) : Prop extends Chained s s' cm t.segs where
  reads : t.Reads logos s s.pos s'.pos
  shallow : d + t.height ≤ maxDepth + 1 → t.Shallow
  prescribed : t.Shallow → t.Prescribed s.src
  root : t.Shallow → ∀ o, t.root? = some o → minBp ≤ (opPower s.src o).1

/-- An operator and its right operand, which ends at `pos`. -/
structure Operand (logos : Logos) (s : Parser) (start power : ℕ) (op : PToken) (es : List Event)
    (pos : ℕ) (rhs : OpTree) : Prop where
  events : es = .token op.kind :: chainEvents rhs.segs
  reads : rhs.Reads logos s (start + 1) pos
  shallow : s.depth + 1 + rhs.height ≤ maxDepth + 1 → rhs.Shallow
  prescribed : rhs.Shallow → rhs.Prescribed s.src
  root : rhs.Shallow → ∀ o, rhs.root? = some o → power ≤ (opPower s.src o).1
  stops : rhs.Shallow → Stops power { s with pos := pos }

/-- `expr_bp` reads a tree of operators, and stops at one that binds less than `minBp`. -/
def Groups (logos : Logos) (n minBp : ℕ) (x : P CompletedMarker) : Prop :=
  ∀ s, Ok s → left s < n → Returns x s fun cm s' =>
    ∃ t, Grouped logos (s.depth + 1) minBp s s' cm t ∧ (t.Shallow → Stops minBp s')

variable {logos : Logos} {n : ℕ} {e : Entries}

theorem operand_returns {power : ℕ} (hgroups : Groups logos n power (e.exprBp power))
    {s u : Parser} {op : PToken} (hs : Ok s) (hsu : Step s u) (htok : u.tok u.pos = some op)
    (hend : u.atEnd = false) (hleft : left u < n + 1) (es : List Event) :
    Returns (do bump; ignore (e.exprBp power)) { u with events := es } fun _ s' =>
      Step { u with events := es } s' ∧ ∀ fs, s'.events = es ++ fs →
        ∃ rhs, Operand logos s u.pos power op fs s'.pos rhs := by
  have hu : Ok { u with events := es } := (hsu.ok hs).withEvents es
  have hend' : ({ u with events := es } : Parser).atEnd = false := hend
  have htok' : ({ u with events := es } : Parser).tok u.pos = some op := htok
  have hcurrent : ({ u with events := es } : Parser).current = op.kind := by
    simp [Parser.current, Parser.nth, htok']
  refine Returns.bind (P := fun _ v => Step { u with events := es } v ∧ v.pos = u.pos + 1 ∧
    v.events = es ++ [.token op.kind]) ?_ ?_
  · obtain ⟨_, v, hv, hstep, -, -⟩ := bump_moves (n := n + 1) { u with events := es } hu hend' hleft
    refine ⟨_, v, hv, hstep, ?_⟩
    have heq : v = { u with events := es ++ [.token op.kind], pos := u.pos + 1 } := by
      have hbump : bump { u with events := es } =
          some ((), { u with events := es ++ [.token op.kind], pos := u.pos + 1 }) := by
        simp only [bump, modify, modifyGet, MonadStateOf.modifyGet, StateT.modifyGet, pure, hcurrent,
          hend', Bool.false_eq_true, if_false]
      exact (Prod.mk.inj (Option.some.inj (hv.symm.trans hbump))).2
    rw [heq]
    exact ⟨rfl, rfl⟩
  · rintro _ v ⟨hstep, hpos, hevents⟩
    have hlt : left v < n := by
      have hdown := hstep.left_lt hu (by rw [hpos]; exact Nat.lt_succ_self _)
      change left v < left u at hdown
      omega
    refine (hgroups v (hstep.ok hu) hlt).bind ?_
    rintro cm v' ⟨rhs, hrhs, hstops⟩
    refine Returns.pure ⟨hstep.trans hrhs.toStep, ?_⟩
    intro fs hfs
    have halong : Along s v := hsu.along.trans (⟨hstep.src, hstep.toks, hstep.limit,
      hstep.blockIndent⟩ : Along u v)
    refine ⟨rhs, ?_, ?_, ?_, ?_, ?_, ?_⟩
    · rw [hrhs.appended, hevents, List.append_assoc] at hfs
      exact (List.append_cancel_left hfs).symm
    · rw [← hpos]
      exact hrhs.reads.along halong
    · rw [← hsu.depth, show u.depth = v.depth from hstep.depth.symm]
      exact hrhs.shallow
    · rw [← halong.src]
      exact hrhs.prescribed
    · rw [← halong.src]
      exact hrhs.root
    · intro hshallow
      exact (halong.trans hrhs.along).stops.1 (hstops hshallow)

/-- One more operator and operand go over the tree read so far. -/
theorem Grouped.binary {minBp : ℕ} {s u v : Parser} {cm cm' : CompletedMarker} {t rhs : OpTree}
    {op : PToken} {es : List Event} (h : Grouped logos s.depth minBp s u cm t)
    (hloop : t.Shallow → ∀ o, t.root? = some o → Stops (opPower s.src o).2 u)
    (hop : operatorContinues u = true) (htok : u.tok u.pos = some op)
    (hkind : op.kind = .op ∨ op.kind = .colon2) (hmin : minBp ≤ (binPower u).1)
    (hrhs : Operand logos s u.pos (binPower u).2 op es v.pos rhs)
    (hv : Chained s v cm' (t.segs ++ [(.binExpr, es)])) :
    Grouped logos s.depth minBp s v cm' (.binary t op rhs) ∧
      ((OpTree.binary t op rhs).Shallow →
        ∀ o, (OpTree.binary t op rhs).root? = some o → Stops (opPower s.src o).2 v) := by
  have hpower : binPower u = opPower s.src op := by
    rw [binPower_eq htok, h.src]
  refine ⟨⟨?_, ?_, ?_, ?_, ?_⟩, ?_⟩
  · rw [OpTree.segs, ← hrhs.events]
    exact hv
  · exact .binary h.reads (h.toks ▸ tok_eq htok) hkind hrhs.reads
  · intro hheight
    rw [OpTree.height] at hheight
    exact ⟨h.shallow (by omega), hrhs.shallow (by omega)⟩
  · rintro ⟨hl, hr⟩
    refine ⟨h.prescribed hl, hrhs.prescribed hr, ?_, ?_⟩
    · intro o ho
      have hlt := hloop hl o ho hop
      rw [hpower] at hlt
      exact left_law hlt
    · intro o ho
      have hle := hrhs.root hr o ho
      rw [hpower] at hle
      exact right_law hle
  · rintro _ o ho
    obtain rfl : op = o := Option.some.inj ho
    rwa [← hpower]
  · rintro ⟨_, hr⟩ o ho
    obtain rfl : op = o := Option.some.inj ho
    rw [← hpower]
    exact hv.along.stops.2 (hrhs.stops hr)

/-- The operators after the first operand. -/
theorem operators_return {minBp fuel : ℕ} (hgroups : ∀ power, Groups logos n power (e.exprBp power))
    (hfuel : n + 1 ≤ fuel) {s u : Parser} {cm : CompletedMarker} {t : OpTree} (hs : Ok s)
    (hleft : left u < n + 1) (h : Grouped logos s.depth minBp s u cm t)
    (hloop : t.Shallow → ∀ o, t.root? = some o → Stops (opPower s.src o).2 u) :
    Returns (loop fuel (operatorRound e minBp) cm) u fun cm' s' =>
      ∃ t, Grouped logos s.depth minBp s s' cm' t ∧ (t.Shallow → Stops minBp s') := by
  refine Returns.loop (μ := fun _ v => left v) (I := fun cm v => left v < n + 1 ∧
    ∃ t, Grouped logos s.depth minBp s v cm t ∧
      (t.Shallow → ∀ o, t.root? = some o → Stops (opPower s.src o).2 v)) ?_ fuel cm u
    ⟨hleft, t, h, hloop⟩ (by omega)
  rintro cm v ⟨hleft, t, h, hloop⟩
  refine Returns.branch (fun hop => ?_) fun hop => ?_
  · refine Returns.get_bind ?_
    dsimp only
    split
    next hlt => exact Returns.pure ⟨t, h, fun _ _ => hlt⟩
    next hmin =>
      obtain ⟨op, htok, hkind⟩ := operatorContinues_tok hop
      have hend := operatorContinues_inside v hop
      refine (wrap_chained
        (Q := fun es pos => ∃ rhs, Operand logos s v.pos (binPower v).2 op es pos rhs) (by decide)
        h.toChained (operand_returns (hgroups _) hs h.toStep htok hend hleft)).bind ?_
      rintro cm' w ⟨es, hw, hpos, rhs, hrhs⟩
      obtain ⟨hgrouped, hstops⟩ := h.binary hloop hop htok hkind (not_lt.1 hmin) hrhs hw
      have hlt : v.pos < w.pos := hrhs.reads.le
      have hdown : left w < left v := by
        have hbound := (h.ok hs).limit_le
        have hinside := ((h.ok hs).inside hend).choose_spec.2.2
        rw [left, left, hw.toks, ← h.toks]
        exact leftFrom_lt (fun t ht => ((h.ok hs).spans t ht).1) (by omega) hlt
      exact Returns.pure ⟨⟨by omega, _, hgrouped, hstops⟩, hdown⟩
  · refine Returns.pure ⟨t, h, fun _ hop' => ?_⟩
    rw [hop] at hop'
    cases hop'

/-! ## `expr_bp` -/

variable (hlogos : logos.Partitions)
include hlogos

theorem exprBp_groups (n minBp : ℕ) : Groups logos n minBp ((entries logos n).exprBp minBp) := by
  induction n generalizing minBp with
  | zero =>
      intro s _ hleft
      omega
  | succ n ih =>
      intro s hs hleft
      have hlevel := entries_level hlogos n
      -- One level down, at the nesting depth of the operands.
      let inner : Parser := { s with depth := s.depth + 1 }
      have hinner : Ok inner := ⟨hs.limit_le, hs.pos_le, hs.spans⟩
      refine Returns.bind (P := fun cm t' => ∃ t, Grouped logos inner.depth minBp inner t' cm t ∧
        (t.Shallow → Stops minBp t')) ?_ ?_
      · refine Returns.bind (P := fun deep t' => deep = decide (maxDepth < inner.depth) ∧ t' = inner)
          ⟨_, _, rfl, rfl, rfl⟩ ?_
        rintro deep _ ⟨rfl, rfl⟩
        by_cases hdeep : maxDepth < inner.depth
        · rw [decide_eq_true hdeep]
          obtain ⟨cm, u, hu, hplanted, -⟩ := errorAtom_plants (n := n + 1)
            (.text "nested too deeply") inner hinner hleft
          obtain ⟨segs, hsegs⟩ := hplanted.chained
          refine ⟨cm, u, hu, .tooDeep segs, ⟨hsegs, ?_, ?_, fun h => h.elim, fun h => h.elim⟩,
            fun h => h.elim⟩
          · exact .tooDeep hdeep hu hsegs (Step.refl inner).along
          · intro hheight
            rw [OpTree.height] at hheight
            omega
        · rw [decide_eq_false hdeep]
          obtain ⟨cm, u, hu, hplanted, -⟩ := appExpr_plants hlogos hlevel inner hinner hleft
          obtain ⟨segs, hsegs⟩ := hplanted.chained
          refine Returns.bind (P := fun cm' u' => cm' = cm ∧ u' = u) ⟨cm, u, hu, rfl, rfl⟩ ?_
          rintro _ _ ⟨rfl, rfl⟩
          refine operators_return (t := .atom segs) (fun power => ih power) hlevel.fuel hinner
            (lt_of_le_of_lt hsegs.left_le hleft) ⟨hsegs, ?_, ?_, ?_, ?_⟩ ?_
          · exact .atom hu hsegs (Step.refl inner).along
          · exact fun _ => trivial
          · exact fun _ => trivial
          · rintro _ o ⟨⟩
          · rintro _ o ⟨⟩
      · rintro cm t' ⟨t, ht, hstops⟩
        refine Returns.bind (P := fun _ v => v = { t' with depth := t'.depth - 1 })
          (Returns.update rfl) ?_
        rintro _ v rfl
        refine Returns.pure ⟨t, ⟨⟨⟨ht.src, ht.toks, ht.units, ht.unit, ht.limit, ht.blockIndent, ?_,
          ht.pos_le, ht.bound, ht.events⟩, ht.linked, ht.appended, ht.cm_pos⟩, ?_, ht.shallow,
          ht.prescribed, ht.root⟩, ?_⟩
        · change t'.depth - 1 = s.depth
          rw [ht.depth]
          exact Nat.add_sub_cancel s.depth 1
        · have hreads : t.Reads logos s inner.pos t'.pos :=
            ht.reads.along (⟨rfl, rfl, rfl, rfl⟩ : Along s inner)
          exact hreads
        · exact hstops

/-- `expr_bp` reads operands and operators in their order into the tree that the operator table
prescribes, up to an operator that binds less than `minBp`. -/
theorem exprBp_prescribes {s : Parser} (hs : Ok s) {n : ℕ} (hleft : left s < n) (minBp : ℕ) :
    ∃ (cm : CompletedMarker) (s' : Parser) (t : OpTree),
      (entries logos n).exprBp minBp s = some (cm, s') ∧
      s'.events = s.events ++ chainEvents t.segs ∧ cm.pos = s.events.length + lastStart t.segs ∧
      t.Reads logos s s.pos s'.pos ∧
      (s.depth + t.height ≤ maxDepth → t.Prescribed s.src ∧
        (operatorContinues s' = true → (binPower s').1 < minBp)) := by
  obtain ⟨cm, s', hrun, t, ht, hstops⟩ := exprBp_groups hlogos n minBp s hs hleft
  refine ⟨cm, s', t, hrun, ht.appended, ht.cm_pos, ht.reads, fun hheight => ?_⟩
  have hshallow := ht.shallow (by omega)
  exact ⟨ht.prescribed hshallow, hstops hshallow⟩

omit hlogos

/-! ## Examples -/

def sumSource : List Char := ['a', '+', 'b']

def sumParser : Parser := Parser.new sumSource (layout sumSource (lex charLogos sumSource))

theorem exprBp_prescribes_sum : ∃ (cm : CompletedMarker) (s' : Parser) (t : OpTree),
    (entries charLogos 4).exprBp 0 sumParser = some (cm, s') ∧
      s'.events = sumParser.events ++ chainEvents t.segs ∧
      cm.pos = sumParser.events.length + lastStart t.segs ∧
      t.Reads charLogos sumParser sumParser.pos s'.pos ∧
      (sumParser.depth + t.height ≤ maxDepth → t.Prescribed sumParser.src ∧
        (operatorContinues s' = true → (binPower s').1 < 0)) :=
  exprBp_prescribes charLogos_partitions (new_ok (layout_spans (charLogos_partitions sumSource)))
    (by decide) 0

/-- Equally tight operands only on the side that the operator's own associativity allows. -/
def OpTree.Sided (src : List Char) (t : OpTree) : Prop :=
  t.Law src (fun op _ => rightAssociative src op = false) (fun op _ => rightAssociative src op = true)

def pipeSource : List Char := "a |> b <| c".toList

def pipeToken (kind : SyntaxKind) (start stop : ℕ) : PToken :=
  { kind := kind, start := start, stop := stop, newlineBefore := false, col := start + 1,
    wsBefore := true }

def pipeTokens : List PToken :=
  [pipeToken .lowerIdent 0 1, pipeToken .op 2 4, pipeToken .lowerIdent 5 6, pipeToken .op 7 9,
    pipeToken .lowerIdent 10 11]

def refAtom : OpTree := .atom [(.refExpr, [.token .lowerIdent])]

/-- `a |> (b <| c)` -/
def pipeTree : OpTree :=
  .binary refAtom (pipeToken .op 2 4) (.binary refAtom (pipeToken .op 7 9) refAtom)

/-- Operators of one level and both associativities: the left one has an equally tight operand on
its right. -/
theorem pipes_mixed :
    (∃ (cm : CompletedMarker) (s' : Parser),
      (entries charLogos 12).exprBp 0 (Parser.new pipeSource pipeTokens) = some (cm, s') ∧
        s'.pos = 5 ∧ s'.events = chainEvents pipeTree.segs) ∧ ¬pipeTree.Sided pipeSource := by
  constructor
  · have hrun : (((entries charLogos 12).exprBp 0 (Parser.new pipeSource pipeTokens)).any fun r =>
        decide (r.2.pos = 5 ∧ r.2.events = chainEvents pipeTree.segs)) = true := by
      decide +kernel
    obtain ⟨⟨cm, s'⟩, hs', hevents⟩ := (Option.any_eq_true _ _).1 hrun
    exact ⟨cm, s', hs', of_decide_eq_true hevents⟩
  · rintro ⟨_, _, _, hright⟩
    rcases hright _ rfl with hlt | ⟨_, hassoc⟩
    · exact absurd hlt (by decide +kernel)
    · exact absurd hassoc (by decide +kernel)

end Sky.Syntax
