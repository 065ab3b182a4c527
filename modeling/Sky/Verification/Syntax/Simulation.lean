import Sky.Library.Following
import Sky.Model.Syntax.Grammar
import Sky.Verification.Syntax.Interior

/-! # The grammar over related parsers

A production looks at its parser through the cursor and changes it through markers and moves. Over
two parsers that look the same there it does the same, if the productions that it calls do. -/

namespace Sky.Syntax

open Sky.Returning

/-! ## What a production sees -/

/-- The two parsers look the same at the cursor. -/
structure SameView (s t : Parser) : Prop where
  nth : ∀ n, s.nth n = t.nth n
  nthWsBefore : ∀ n, s.nthWsBefore n = t.nthWsBefore n
  curText : s.curText = t.curText
  newlineBefore : s.newlineBefore = t.newlineBefore
  col : s.col = t.col
  atEnd : s.atEnd = t.atEnd
  blockIndent : s.blockIndent = t.blockIndent

namespace SameView

theorem refl (s : Parser) : SameView s s := ⟨fun _ => rfl, fun _ => rfl, rfl, rfl, rfl, rfl, rfl⟩

variable {s t : Parser} (h : SameView s t)
include h

theorem current : s.current = t.current := h.nth 0

theorem isAt (kind : SyntaxKind) : s.isAt kind = t.isAt kind := by
  rw [Parser.isAt, Parser.isAt, h.current]

theorem atAny (set : TokenSet) : s.atAny set = t.atAny set := by
  rw [Parser.atAny, Parser.atAny, h.current]

theorem wsBefore : s.wsBefore = t.wsBefore := h.nthWsBefore 0

theorem atContinuation : s.atContinuation = t.atContinuation := by
  rw [Parser.atContinuation, Parser.atContinuation, h.atEnd, h.newlineBefore, h.blockIndent, h.col]

theorem atBlockBoundary : s.atBlockBoundary = t.atBlockBoundary := by
  rw [Parser.atBlockBoundary, Parser.atBlockBoundary, h.atEnd, h.newlineBefore, h.blockIndent, h.col]

theorem recoveryStops (recovery : TokenSet) :
    recoveryStops recovery s = Syntax.recoveryStops recovery t := by
  rw [Syntax.recoveryStops, Syntax.recoveryStops, h.atEnd, h.atAny, h.atBlockBoundary]

theorem atDotName : atDotName s = Syntax.atDotName t := by
  rw [Syntax.atDotName, Syntax.atDotName, h.isAt, h.nth]

theorem atTypeArg : atTypeArg s = Syntax.atTypeArg t := by
  rw [Syntax.atTypeArg, Syntax.atTypeArg, h.atAny, h.atContinuation]

theorem atNegativePattern : atNegativePattern s = Syntax.atNegativePattern t := by
  rw [Syntax.atNegativePattern, Syntax.atNegativePattern, h.isAt, h.curText, h.nthWsBefore, h.nth]

theorem sameBlock : sameBlock s = Syntax.sameBlock t := by
  rw [Syntax.sameBlock, Syntax.sameBlock, h.newlineBefore, h.blockIndent, h.col]

theorem operatorContinues : operatorContinues s = Syntax.operatorContinues t := by
  rw [Syntax.operatorContinues, Syntax.operatorContinues, h.isAt, h.isAt, h.sameBlock]

theorem isNegativeLiteralArg : isNegativeLiteralArg s = Syntax.isNegativeLiteralArg t := by
  rw [Syntax.isNegativeLiteralArg, Syntax.isNegativeLiteralArg, h.isAt, h.curText, h.wsBefore,
    h.nthWsBefore, h.nth, h.sameBlock]

theorem argContinues : argContinues s = Syntax.argContinues t := by
  rw [Syntax.argContinues, Syntax.argContinues, h.atEnd, h.isNegativeLiteralArg, h.atAny, h.sameBlock]

theorem binPower : binPower s = Syntax.binPower t := by
  unfold Syntax.binPower
  rw [h.isAt, h.curText]

theorem recordUpdateAhead : recordUpdateAhead s = Syntax.recordUpdateAhead t := by
  rw [Syntax.recordUpdateAhead, Syntax.recordUpdateAhead, h.isAt, h.nth, h.isAt]

theorem badString : badString s = Syntax.badString t := by
  rw [Syntax.badString, Syntax.badString, h.isAt, h.curText]

theorem badChar : badChar s = Syntax.badChar t := by
  rw [Syntax.badChar, Syntax.badChar, h.curText]

end SameView

/-! ## Related parsers -/

/-- Nodes at related places. -/
def Marks (M : ℕ → ℕ → Prop) (c c' : CompletedMarker) : Prop := M c.pos c'.pos

/-- A token and one of the other parser, of one length; `O` relates their offsets. -/
structure SameSpan (O : ℕ → ℕ → Prop) (s t : Parser) (u v : PToken) : Prop where
  le : u.start ≤ u.stop ∧ u.stop ≤ s.src.length
  le' : v.start ≤ v.stop ∧ v.stop ≤ t.src.length
  length : v.stop - v.start = u.stop - u.start
  offsets : ∀ k ≤ u.stop - u.start, O (u.start + k) (v.start + k)

/-- A relation of parsers that every primitive action keeps. `M` relates the places of markers, `O`
the offsets in the sources. -/
structure Simulation (R : Parser → Parser → Prop) (M O : ℕ → ℕ → Prop) : Prop where
  view : ∀ s t, R s t → SameView s t
  start : Follows R R (fun m m' => M m.pos m'.pos) start start
  complete : ∀ (m m' : Marker) kind, M m.pos m'.pos →
    Follows R R (Marks M) (m.complete kind) (m'.complete kind)
  precede : ∀ c c', Marks M c c' → Follows R R (fun m m' => M m.pos m'.pos) c.precede c'.precede
  bump : Follows R R (· = ·) bump bump
  error : ∀ msg, Follows R R (· = ·) (error msg) (error msg)
  indent : ∀ anchor, Follows R R (· = ·) (modify fun p : Parser => { p with blockIndent := anchor })
    (modify fun p : Parser => { p with blockIndent := anchor })
  skipRaw : Follows R R (· = ·) skipRaw skipRaw
  emitSlice : ∀ kind a b a' b', O a a' → O b b' →
    Follows R R (· = ·) (emitSlice kind a b) (emitSlice kind a' b')
  source : ∀ s t, R s t → ∀ a b a' b', O a a' → O b b' → slice s.src a b = slice t.src a' b'
  span : ∀ s t, R s t → ∀ u, s.tok s.pos = some u → ∃ v, t.tok t.pos = some v ∧ SameSpan O s t u v
  no_span : ∀ s t, R s t → s.tok s.pos = none → t.tok t.pos = none

variable {R : Parser → Parser → Prop} {M O : ℕ → ℕ → Prop} {α : Type}

namespace Simulation

variable (h : Simulation R M O)
include h

/-! ## Shapes -/

theorem bind_bump {x y : P α} {A : α → α → Prop} (hxy : Follows R R A x y) :
    Follows R R A (do Syntax.bump; x) (do Syntax.bump; y) := h.bump.bind fun _ _ _ => hxy

theorem node {x y : P SyntaxKind} (hxy : Follows R R (· = ·) x y) :
    Follows R R (Marks M) (node x) (node y) := by
  refine h.start.bind fun m m' hm => hxy.bind ?_
  rintro kind _ rfl
  exact h.complete m m' kind hm

theorem wrap {c c' : CompletedMarker} (hc : Marks M c c') (kind : SyntaxKind) {x y : P Unit}
    (hxy : Follows R R (· = ·) x y) : Follows R R (Marks M) (c.wrap kind x) (c'.wrap kind y) := by
  refine (h.precede c c' hc).bind fun m m' hm => hxy.bind fun _ _ _ => ?_
  exact h.complete m m' kind hm

omit h in
theorem ignore {A : α → α → Prop} {x y : P α} (hxy : Follows R R A x y) :
    Follows R R (· = ·) (ignore x) (ignore y) := hxy.bind fun _ _ _ => Follows.pure rfl

theorem isAt (kind : SyntaxKind) : ∀ s t, R s t → (s.isAt kind) = t.isAt kind :=
  fun s t hst => (h.view s t hst).isAt kind

theorem eat (kind : SyntaxKind) : Follows R R (· = ·) (eat kind) (eat kind) :=
  Follows.branch (h.isAt kind) (h.bump.on.bind fun _ _ _ => Follows.pure rfl) (Follows.pure rfl)

theorem expect (kind : SyntaxKind) : Follows R R (· = ·) (expect kind) (expect kind) :=
  Follows.branch (h.isAt kind) h.bump.on (h.error _)

theorem bumpUnlessEnd : Follows R R (· = ·) bumpUnlessEnd bumpUnlessEnd :=
  Follows.branch (fun s t hst => (h.view s t hst).atEnd) (Follows.pure rfl).on h.bump

theorem leaf (kind : SyntaxKind) : Follows R R (Marks M) (leaf kind) (leaf kind) :=
  h.node (h.bind_bump (Follows.pure rfl))

theorem checkedLeaf {bad : Parser → Bool} (hbad : ∀ s t, R s t → bad s = bad t) (msg : Message)
    (kind : SyntaxKind) : Follows R R (Marks M) (checkedLeaf bad msg kind)
      (checkedLeaf bad msg kind) :=
  h.node ((Follows.branch hbad (h.error msg).on (Follows.pure rfl)).bind fun _ _ _ =>
    h.bind_bump (Follows.pure rfl))

theorem errorAtom (msg : Message) : Follows R R (Marks M) (errorAtom msg) (errorAtom msg) :=
  h.node ((h.error msg).bind fun _ _ _ => h.bumpUnlessEnd.bind fun _ _ _ => Follows.pure rfl)

theorem errAndBump (msg : Message) : Follows R R (· = ·) (errAndBump msg) (errAndBump msg) :=
  ignore (h.errorAtom msg)

theorem errRecover {n m : ℕ} (hnm : n ≤ m) (msg : Message) (recovery : TokenSet) :
    Follows R R (· = ·) (errRecover n msg recovery) (errRecover m msg recovery) := by
  refine Follows.branch (fun s t hst => (h.view s t hst).recoveryStops recovery) (h.error msg).on
    (ignore (h.node ((h.error msg).bind fun _ _ _ => ?_)))
  refine Follows.bind (Follows.whileLoop (C := (· = ·)) ?_ (fun _ _ _ => h.bump.on) hnm rfl)
    fun _ _ _ => Follows.pure rfl
  intro s t hst
  rw [(h.view s t hst).recoveryStops recovery]

theorem withIndent (anchor : ℕ) {A : α → α → Prop} {x y : P α} (hxy : Follows R R A x y) :
    Follows R R A (withIndent anchor x) (withIndent anchor y) := by
  refine Follows.get_bind fun p q hpq => ?_
  rw [(h.view p q hpq).blockIndent]
  refine (h.indent anchor).bind fun _ _ _ => hxy.bind fun a b hab => ?_
  exact (h.indent q.blockIndent).bind fun _ _ _ => Follows.pure hab

/-! ## Shared shapes -/

variable {n m : ℕ} (hnm : n ≤ m)

section
include hnm

theorem dotNames : Follows R R (· = ·) (dotNames n) (dotNames m) :=
  Follows.whileLoop (fun s t hst => (h.view s t hst).atDotName)
    (fun _ _ _ => (h.bind_bump (h.bind_bump (Follows.pure rfl))).on) hnm rfl

theorem commaLoop (close : SyntaxKind) {x y : P Unit} (hxy : Follows R R (· = ·) x y) :
    Follows R R (· = ·) (commaLoop n close x) (commaLoop m close y) := by
  refine Follows.loop (fun _ _ _ => ?_) hnm rfl
  refine Follows.branch (fun s t hst => ?_) (Follows.pure (.done rfl)).on (hxy.bind fun _ _ _ => ?_)
  · rw [(h.view s t hst).isAt, (h.view s t hst).atEnd]
  · refine (h.eat .comma).bind ?_
    rintro more _ rfl
    exact Follows.ite (fun _ => Follows.pure (.yield rfl)) fun _ => Follows.pure (.done rfl)

theorem parenOf {x y : P CompletedMarker} (hxy : Follows R R (Marks M) x y)
    (unit tuple paren : SyntaxKind) : Follows R R (Marks M) (parenOf n x unit tuple paren)
      (parenOf m y unit tuple paren) := by
  refine h.node (h.bind_bump (Follows.branch (h.isAt _) (h.bind_bump (Follows.pure rfl)).on ?_))
  refine Follows.bind (A := (· = ·)) (h.withIndent 0 ?_) ?_
  · refine (ignore hxy).bind fun _ _ _ => ?_
    refine Follows.bind (Follows.loop (C := (· = ·)) ?_ hnm rfl) ?_
    · rintro isTuple _ rfl
      refine Follows.branch (h.isAt _) (h.bind_bump ?_).on (Follows.pure (.done rfl))
      exact Follows.branch (h.isAt _) (Follows.pure (.done rfl)).on
        ((ignore hxy).bind fun _ _ _ => Follows.pure (.yield rfl))
    · rintro isTuple _ rfl
      exact (h.expect _).bind fun _ _ _ => Follows.pure rfl
  · rintro isTuple _ rfl
    exact Follows.pure rfl

theorem listOf {x y : P CompletedMarker} (hxy : Follows R R (Marks M) x y) (kind : SyntaxKind) :
    Follows R R (Marks M) (listOf n x kind) (listOf m y kind) := by
  refine h.node (h.bind_bump (Follows.bind (A := (· = ·)) (h.withIndent 0 ?_)
    fun _ _ _ => Follows.pure rfl))
  refine Follows.bind (A := (· = ·)) (Follows.branch (h.isAt _) (Follows.pure rfl).on
    ((ignore hxy).bind fun _ _ _ => Follows.loop (fun _ _ _ => ?_) hnm rfl))
    fun _ _ _ => h.expect _
  refine (h.eat .comma).bind ?_
  rintro more _ rfl
  refine Follows.ite (fun _ => ?_) fun _ => Follows.pure (.done rfl)
  exact Follows.branch (h.isAt _) (Follows.pure (.done rfl)).on
    ((ignore hxy).bind fun _ _ _ => Follows.pure (.yield rfl))

/-! ## Module header and imports -/

theorem moduleName : Follows R R (· = ·) (moduleName n) (moduleName m) := by
  refine ignore (h.node ((h.expect _).bind fun _ _ _ => ?_))
  refine Follows.bind (A := (· = ·)) (Follows.whileLoop (fun s t hst => ?_)
    (fun _ _ _ => (h.bind_bump h.bump).on) hnm rfl) fun _ _ _ => Follows.pure rfl
  rw [(h.view s t hst).isAt, (h.view s t hst).nth]

theorem exposedNames {x y : P Unit} (hxy : Follows R R (· = ·) x y) :
    Follows R R (· = ·) (exposedNames n x) (exposedNames m y) := by
  refine (h.eat .dotDot).bind ?_
  rintro all _ rfl
  exact Follows.ite (fun _ => Follows.pure rfl) fun _ => h.commaLoop hnm _ hxy

theorem exposedCtors : Follows R R (· = ·) (exposedCtors n) (exposedCtors m) :=
  ignore (h.node (h.bind_bump ((h.exposedNames hnm (h.expect _)).bind fun _ _ _ =>
    (h.expect _).bind fun _ _ _ => Follows.pure rfl)))

theorem exposedItem : Follows R R (· = ·) (exposedItem n) (exposedItem m) := by
  refine Follows.get_bind fun p q hpq => ?_
  rw [(h.view p q hpq).current]
  split
  · exact ignore (h.leaf _)
  · exact ignore (h.node (h.bind_bump ((Follows.branch (h.isAt _) (h.exposedCtors hnm).on
      (Follows.pure rfl)).bind fun _ _ _ => Follows.pure rfl)))
  · exact ignore (h.node (h.bind_bump ((Follows.branch (h.isAt _) (Follows.pure rfl).on
      h.bump).bind fun _ _ _ => (h.expect _).bind fun _ _ _ => Follows.pure rfl)))
  · exact h.errAndBump _

theorem exposingList (kind : SyntaxKind) :
    Follows R R (· = ·) (exposingList n kind) (exposingList m kind) := by
  refine ignore (h.node (h.bind_bump ((h.expect _).bind fun _ _ _ => ?_)))
  refine Follows.bind (A := (· = ·)) (h.withIndent 0 ?_) fun _ _ _ => Follows.pure rfl
  exact (h.exposedNames hnm (h.exposedItem hnm)).bind fun _ _ _ => h.expect _

theorem moduleHeader : Follows R R (· = ·) (moduleHeader n) (moduleHeader m) :=
  ignore (h.node (h.bind_bump ((h.moduleName hnm).bind fun _ _ _ =>
    (Follows.branch (h.isAt _) (h.exposingList hnm _).on (Follows.pure rfl)).bind fun _ _ _ =>
      Follows.pure rfl)))

omit hnm in
theorem importAlias : Follows R R (· = ·) importAlias importAlias := by
  refine ignore (h.node (h.bind_bump ((Follows.branch (fun s t hst => ?_) h.bump.on
    (h.error _)).bind fun _ _ _ => Follows.pure rfl)))
  rw [(h.view s t hst).isAt, (h.view s t hst).isAt]

theorem importDecl : Follows R R (· = ·) (importDecl n) (importDecl m) :=
  ignore (h.node (h.bind_bump ((h.moduleName hnm).bind fun _ _ _ =>
    (Follows.branch (h.isAt _) h.importAlias.on (Follows.pure rfl)).bind fun _ _ _ =>
    (Follows.branch (h.isAt _) (h.exposingList hnm _).on (Follows.pure rfl)).bind fun _ _ _ =>
      Follows.pure rfl)))

end

end Simulation

/-! ## Interpolations -/

/-- An interpolation in the text of a multiline string, with its body's place and length. -/
def Interpolates (text : List Char) (i rel : ℕ) : Prop :=
  text[i]? = some '{' ∧ text[i + 1]? = some '{' ∧
    findClose (slice text (i + 2) (closeOf text)) = some rel

/-- Where one expression parser reads a text by itself, another ends in the same state. -/
def SameBody (logos : Logos) (x y : P CompletedMarker) (text : List Char) : Prop :=
  ∀ c sub, x (Parser.new text (layout text (lex logos text))) = some (c, sub) →
    ∃ c', y (Parser.new text (layout text (lex logos text))) = some (c', sub)

theorem slice_length_le (src : List Char) (a b : ℕ) : (slice src a b).length ≤ b - a := by
  simp [slice]
  omega

namespace Simulation

mutual

theorem emitGreen (h : Simulation R M O) (g : Green) {c c' : ℕ}
    (hO : ∀ k ≤ g.text.length, O (c + k) (c' + k)) :
    Follows R R (fun a a' => a = c + g.text.length ∧ a' = c' + g.text.length) (emitGreen g c)
      (emitGreen g c') := by
  cases g with
  | node kind children =>
      rw [Syntax.emitGreen, Syntax.emitGreen]
      refine h.start.bind fun m m' hm => (emitGreens h children hO).bind fun a a' ha => ?_
      exact (h.complete m m' kind hm).bind fun _ _ _ => Follows.pure ha
  | token kind text =>
      rw [Syntax.emitGreen, Syntax.emitGreen]
      have hstart := hO 0 (Nat.zero_le _)
      refine (h.emitSlice kind _ _ _ _ hstart (hO _ le_rfl)).bind fun _ _ _ => ?_
      exact Follows.pure ⟨rfl, rfl⟩

theorem emitGreens (h : Simulation R M O) (gs : List Green) {c c' : ℕ}
    (hO : ∀ k ≤ (Green.texts gs).length, O (c + k) (c' + k)) :
    Follows R R (fun a a' => a = c + (Green.texts gs).length ∧ a' = c' + (Green.texts gs).length)
      (emitGreens gs c) (emitGreens gs c') := by
  cases gs with
  | nil => exact Follows.pure ⟨rfl, rfl⟩
  | cons g gs =>
      rw [Syntax.emitGreens, Syntax.emitGreens]
      have hlength : (Green.texts (g :: gs)).length = g.text.length + (Green.texts gs).length := by
        rw [Green.texts, List.length_append]
      refine (emitGreen h g fun k hk => hO k (by omega)).bind ?_
      rintro _ _ ⟨rfl, rfl⟩
      have hrest : ∀ k ≤ (Green.texts gs).length,
          O (c + g.text.length + k) (c' + g.text.length + k) := by
        intro k hk
        rw [add_assoc, add_assoc]
        exact hO _ (by omega)
      refine (emitGreens h gs hrest).mono ?_ fun _ _ hst => hst
      rintro _ _ ⟨rfl, rfl⟩
      constructor <;> omega

end

variable (h : Simulation R M O)
include h

theorem emitFlat {a b n : ℕ} {raw : List LexToken} (hraw : ∀ t ∈ raw, t.start ≤ n ∧ t.stop ≤ n)
    (hO : ∀ k ≤ n, O (a + k) (b + k)) : Follows R R (· = ·) (emitFlat a raw) (emitFlat b raw) := by
  induction raw with
  | nil => exact Follows.pure rfl
  | cons t raw ih =>
      have ht := hraw t (.head _)
      exact (h.emitSlice _ _ _ _ _ (hO _ ht.1) (hO _ ht.2)).bind fun _ _ _ =>
        ih fun t ht => hraw t (.tail _ ht)

variable {logos : Logos} (hlogos : logos.Partitions) {x y : P CompletedMarker}

include hlogos

theorem body {a b n : ℕ} (hO : ∀ k ≤ n, O (a + k) (b + k))
    (hsame : ∀ s t, R s t → SameBody logos x y (slice s.src a (a + n))) :
    Follows R R (· = ·) (body logos x a (a + n)) (body logos y b (b + n)) := by
  refine Follows.get_bind fun p q hpq => ?_
  have hstart := hO 0 (Nat.zero_le _)
  rw [← h.source p q hpq a (a + n) b (b + n) hstart (hO n le_rfl)]
  have htext : (slice p.src a (a + n)).length ≤ n := by
    have hle := slice_length_le p.src a (a + n)
    omega
  have hbody := hsame p q hpq
  generalize slice p.src a (a + n) = text at htext hbody
  have hraw : ∀ t ∈ lex logos text, t.start ≤ n ∧ t.stop ≤ n := by
    intro t ht
    have hspan := (hlogos text).mem t ht
    omega
  dsimp only
  cases hx : x (Parser.new text (layout text (lex logos text))) with
  | none => exact Follows.none
  | some r =>
      obtain ⟨c, sub⟩ := r
      obtain ⟨c', hy⟩ := hbody c sub hx
      rw [hy]
      dsimp only
      rw [Nat.add_sub_cancel_left, Nat.add_sub_cancel_left]
      refine Follows.ite (fun _ => ?_) fun _ => h.emitFlat hraw hO
      cases buildTree text (lex logos text) sub.events with
      | none => exact Follows.none
      | some green =>
          refine Follows.ite (fun hlength => ?_) fun _ => h.emitFlat hraw hO
          exact ignore (h.emitGreen green fun k hk => hO k (by omega))

/-- The scan of a multiline string's text. -/
theorem splitStep {base base' : ℕ} {text : List Char}
    (hO : ∀ k ≤ text.length, O (base + k) (base' + k))
    (hsame : ∀ i rel, Interpolates text i rel → ∀ s t, R s t →
      SameBody logos x y (slice s.src (base + (i + 2)) (base + (i + 2 + rel))))
    {r : ℕ × ℕ} (hr : r.2 ≤ text.length) :
    Follows R R (Rounded fun r r' => r = r' ∧ r.2 ≤ text.length)
      (splitStep logos x base text (closeOf text) r)
      (splitStep logos y base' text (closeOf text) r) := by
  obtain ⟨i, chunkStart⟩ := r
  have hclose := (closeOf_bounds text).2
  unfold Syntax.splitStep
  refine Follows.ite (fun _ => Follows.pure (.done ⟨rfl, hr⟩)) fun hi => ?_
  refine Follows.ite (fun _ => Follows.pure (.yield ⟨rfl, hr⟩)) fun _ => ?_
  refine Follows.ite (fun hopen => ?_) fun _ => Follows.pure (.yield ⟨rfl, hr⟩)
  split
  next rel hrel =>
      have hle := findClose_le hrel
      rw [slice_length hclose] at hle
      refine (Follows.onlyIf (h.emitSlice _ _ _ _ _ (hO _ hr) (hO _ (by omega)))).bind
        fun _ _ _ => ?_
      refine Follows.bind (A := (· = ·)) (ignore (h.node ?_)) fun _ _ _ =>
        Follows.pure (.yield ⟨rfl, by dsimp only; omega⟩)
      refine (h.emitSlice _ _ _ _ _ (hO _ (by omega)) (hO _ (by omega))).bind fun _ _ _ => ?_
      have hinterpolates : Interpolates text i rel := ⟨hopen.1, hopen.2.2, hrel⟩
      have hoffsets : ∀ k ≤ rel, O (base + (i + 2) + k) (base' + (i + 2) + k) := by
        intro k hk
        rw [Nat.add_assoc base (i + 2) k, Nat.add_assoc base' (i + 2) k]
        exact hO _ (by omega)
      have hbody : Follows R R (· = ·) (Syntax.body logos x (base + (i + 2)) (base + (i + 2 + rel)))
          (Syntax.body logos y (base' + (i + 2)) (base' + (i + 2 + rel))) := by
        rw [← Nat.add_assoc base (i + 2) rel, ← Nat.add_assoc base' (i + 2) rel]
        refine h.body hlogos hoffsets fun s t hst => ?_
        rw [Nat.add_assoc base (i + 2) rel]
        exact hsame i rel hinterpolates s t hst
      refine hbody.bind fun _ _ _ => ?_
      exact (h.emitSlice _ _ _ _ _ (hO _ (by omega)) (hO _ (by omega))).bind fun _ _ _ =>
        Follows.pure rfl
  next => exact Follows.pure (.yield ⟨rfl, hr⟩)

theorem multiline {R₀ : Parser → Parser → Prop} (hR₀ : ∀ s t, R₀ s t → R s t)
    (hsame : ∀ s t, R₀ s t → ∀ u, s.tok s.pos = some u → ∀ i rel,
      Interpolates (slice s.src u.start u.stop) i rel → ∀ s' t', R s' t' →
        SameBody logos x y (slice s'.src (u.start + (i + 2)) (u.start + (i + 2 + rel)))) :
    Follows R₀ R (· = ·) (multiline logos x) (multiline logos y) := by
  refine Follows.get_bind_at fun p q hpq => ?_
  have hat : ∀ s t, s = p ∧ t = q → R s t := by
    rintro s t ⟨rfl, rfl⟩
    exact hR₀ _ _ hpq
  cases hu : p.tok p.pos with
  | none =>
      rw [h.no_span p q (hR₀ p q hpq) hu]
      exact (Follows.pure rfl).before hat
  | some u =>
      obtain ⟨v, hv, hspan⟩ := h.span p q (hR₀ p q hpq) u hu
      rw [hv]
      dsimp only
      have hlength := slice_length (a := u.start) hspan.le.2
      have hO : ∀ k ≤ (slice p.src u.start u.stop).length, O (u.start + k) (v.start + k) := by
        rw [hlength]
        exact hspan.offsets
      have hstop : O u.stop v.stop := by
        have hend := hspan.offsets _ le_rfl
        rwa [Nat.add_sub_cancel' hspan.le.1, ← hspan.length, Nat.add_sub_cancel' hspan.le'.1] at hend
      have hstart : O u.start v.start := hspan.offsets 0 (Nat.zero_le _)
      rw [← h.source p q (hR₀ p q hpq) _ _ _ _ hstart hstop]
      have hsame' := hsame p q hpq u hu
      generalize slice p.src u.start u.stop = text at hO hsame'
      have hclose := (closeOf_bounds text).2
      have hopened : min 3 text.length ≤ text.length := min_le_right _ _
      refine (h.skipRaw.bind fun _ _ _ => ?_).before hat
      refine (Follows.onlyIf (h.emitSlice _ _ _ _ _ hstart (hO _ hopened))).bind fun _ _ _ => ?_
      refine Follows.bind (A := fun r r' => r = r' ∧ r.2 ≤ text.length) (Follows.loop ?_ le_rfl
        ⟨rfl, hopened⟩) ?_
      · rintro r _ ⟨rfl, hr⟩
        exact h.splitStep hlogos hO hsame' hr
      · rintro ⟨i, chunkStart⟩ _ ⟨rfl, hchunk⟩
        refine (Follows.onlyIf (h.emitSlice _ _ _ _ _ (hO _ hchunk) (hO _ hclose))).bind
          fun _ _ _ => ?_
        exact Follows.onlyIf (h.emitSlice _ _ _ _ _ (hO _ hclose) hstop)

end Simulation

/-! ## Types and patterns -/

/-- A `-` at the cursor. -/
def atMinus (p : Parser) : Bool := p.isAt .op && p.curText == ['-']

/-- The calls of one production are followed by those of another. -/
structure FollowsEntries (logos : Logos) (R : Parser → Parser → Prop) (M : ℕ → ℕ → Prop)
    (e e' : Entries) : Prop where
  fuel : e.fuel ≤ e'.fuel
  ty : Follows R R (Marks M) e.ty e'.ty
  pattern : Follows R R (Marks M) e.pattern e'.pattern
  exprBp : ∀ minBp, Follows R R (Marks M) (e.exprBp minBp) (e'.exprBp minBp)
  multiline : Follows (On (·.isAt .multilineString) R) R (Marks M) (multilineLiteral logos e)
    (multilineLiteral logos e')
  /-- The rest of a pattern from `::` on. -/
  tail : ∀ c c', Marks M c c' → Follows (On (·.isAt .colon2) R) R (Marks M)
    (c.wrap .patCons do bump; ignore e.patternCons) (c'.wrap .patCons do bump; ignore e'.patternCons)

/-- The operand of a unary minus. -/
def minusNode (e : Entries) : P CompletedMarker := node do
  bump
  ignore e.primaryExpr
  pure .negateExpr

namespace Simulation

variable {logos : Logos} {e e' : Entries} (h : Simulation R M O)
  (he : FollowsEntries logos R M e e')
include h he

theorem typeParen : Follows R R (Marks M) (typeParen e) (typeParen e') := h.parenOf he.fuel he.ty _ _ _

omit he in
theorem rowVar : Follows R R (· = ·) rowVar rowVar :=
  (ignore (h.leaf _)).bind fun _ _ _ => h.bump

theorem typeRecordField : Follows R R (· = ·) (typeRecordField e) (typeRecordField e') :=
  ignore (h.node ((h.expect _).bind fun _ _ _ => (h.expect _).bind fun _ _ _ =>
    (ignore he.ty).bind fun _ _ _ => Follows.pure rfl))

theorem typeRecord : Follows R R (Marks M) (typeRecord e) (typeRecord e') := by
  refine h.node (h.bind_bump (Follows.bind (A := (· = ·)) (h.withIndent 0 ?_)
    fun _ _ _ => Follows.pure rfl))
  refine Follows.branch (h.isAt _) h.bump.on ?_
  refine Follows.bind (A := (· = ·)) (Follows.branch (fun s t hst => ?_) (rowVar h).on
    (Follows.pure rfl)) fun _ _ _ => ?_
  · rw [(h.view s t hst).isAt, (h.view s t hst).nth]
  · exact (h.commaLoop he.fuel _ (typeRecordField h he)).bind fun _ _ _ => h.expect _

theorem typeAtom : Follows R R (Marks M) (typeAtom e) (typeAtom e') := by
  refine Follows.get_bind fun p q hpq => ?_
  rw [(h.view p q hpq).current]
  split
  · exact h.leaf _
  · refine h.node (h.bind_bump ((h.dotNames he.fuel).bind ?_))
    rintro qualified _ rfl
    exact Follows.pure rfl
  · exact typeParen h he
  · exact typeRecord h he
  · exact h.errorAtom _

theorem typeApp : Follows R R (Marks M) (typeApp e) (typeApp e') := by
  have harg : ∀ s t, R s t → atTypeArg s = atTypeArg t := fun s t hst => (h.view s t hst).atTypeArg
  refine (typeAtom h he).bind fun c c' hc => Follows.branch harg (h.wrap hc _ ?_).on (Follows.pure hc)
  exact Follows.whileLoop harg (fun _ _ _ => (ignore (typeAtom h he)).on) he.fuel rfl

theorem patternParen : Follows R R (Marks M) (patternParen e) (patternParen e') :=
  h.parenOf he.fuel he.pattern _ _ _

theorem patternList : Follows R R (Marks M) (patternList e) (patternList e') :=
  h.listOf he.fuel he.pattern _

theorem patternRecord : Follows R R (Marks M) (patternRecord e) (patternRecord e') := by
  refine h.node (h.bind_bump (Follows.bind (A := (· = ·)) (h.withIndent 0 ?_)
    fun _ _ _ => Follows.pure rfl))
  exact (h.commaLoop he.fuel _ (h.expect _)).bind fun _ _ _ => h.expect _

theorem patCtor {x y : P Unit} (hxy : Follows R R (· = ·) x y) :
    Follows R R (Marks M) (patCtor e x) (patCtor e' y) := by
  refine h.node (h.bind_bump ((h.dotNames he.fuel).bind ?_))
  rintro qualified _ rfl
  exact hxy.bind fun _ _ _ => Follows.pure rfl

theorem patternAtom : Follows R R (Marks M) (patternAtom e) (patternAtom e') := by
  refine Follows.branch (fun s t hst => (h.view s t hst).atNegativePattern)
    (h.node (h.bind_bump (h.bind_bump (Follows.pure rfl)))).on ?_
  refine Follows.get_bind fun p q hpq => ?_
  rw [(h.view p q hpq).current]
  split
  case h_3 => exact patCtor h he (Follows.pure rfl)
  case h_7 | h_8 => exact h.checkedLeaf (fun s t hst => (h.view s t hst).badString) _ _
  case h_9 => exact h.checkedLeaf (fun s t hst => (h.view s t hst).badChar) _ _
  case h_12 => exact patternParen h he
  case h_13 => exact patternList h he
  case h_14 => exact patternRecord h he
  case h_15 => exact h.errorAtom _
  all_goals exact h.leaf _

theorem patternApp : Follows R R (Marks M) (patternApp e) (patternApp e') := by
  refine Follows.branch (h.isAt _) (patCtor h he ?_).on (patternAtom h he)
  exact Follows.whileLoop (fun s t hst => (h.view s t hst).atAny _)
    (fun _ _ _ => (ignore (patternAtom h he)).on) he.fuel rfl

theorem patternCons : Follows R R (Marks M) (patternCons e) (patternCons e') :=
  (patternApp h he).bind fun c c' hc => Follows.branch (h.isAt _) (he.tail c c' hc) (Follows.pure hc)

theorem paramList (stop : SyntaxKind) :
    Follows R R (· = ·) (paramList e stop) (paramList e' stop) := by
  refine ignore (h.node (Follows.bind (A := (· = ·)) (Follows.whileLoop (fun s t hst => ?_)
    (fun _ _ _ => (ignore (patternApp h he)).on) he.fuel rfl) fun _ _ _ => Follows.pure rfl))
  rw [(h.view s t hst).atAny, (h.view s t hst).isAt]

/-! ## Expressions -/

theorem fieldAccess {c c' : CompletedMarker} (hc : Marks M c c') :
    Follows R R (Marks M) (fieldAccess e.fuel c) (fieldAccess e'.fuel c') := by
  refine Follows.whileLoop (fun s t hst => ?_) (fun c c' hc => (h.wrap hc _ ?_).on) he.fuel hc
  · rw [(h.view s t hst).isAt, (h.view s t hst).wsBefore, (h.view s t hst).nth]
  · exact h.bind_bump h.bump

theorem qualifiedPath : Follows R R (· = ·) (qualifiedPath e.fuel) (qualifiedPath e'.fuel) := by
  refine Follows.loop ?_ he.fuel rfl
  rintro qualified _ rfl
  refine Follows.branch (fun s t hst => ?_) ?_ (Follows.pure (.done rfl))
  · rw [(h.view s t hst).isAt, (h.view s t hst).wsBefore, (h.view s t hst).nth]
  · refine Follows.on (Follows.get_bind fun p q hpq => ?_)
    rw [(h.view p q hpq).nth]
    refine h.bind_bump (h.bind_bump (Follows.pure ?_))
    split
    · exact .done rfl
    · exact .yield rfl

omit h in
theorem expr : Follows R R (Marks M) e.expr e'.expr := he.exprBp 0

theorem parenExpr : Follows R R (Marks M) (parenExpr e) (parenExpr e') :=
  h.parenOf he.fuel (expr he) _ _ _

theorem listExpr : Follows R R (Marks M) (listExpr e) (listExpr e') :=
  h.listOf he.fuel (expr he) _

theorem recordBase : Follows R R (· = ·) (recordBase e) (recordBase e') := by
  refine Follows.branch (h.isAt _) (h.bind_bump ?_).on h.bump
  refine Follows.whileLoop (fun s t hst => ?_) (fun _ _ _ => (h.bind_bump h.bump).on) he.fuel rfl
  rw [(h.view s t hst).isAt, (h.view s t hst).wsBefore, (h.view s t hst).nth]

theorem recordField : Follows R R (· = ·) (recordField e) (recordField e') :=
  ignore (h.node ((h.expect _).bind fun _ _ _ => (h.expect _).bind fun _ _ _ =>
    (ignore (expr he)).bind fun _ _ _ => Follows.pure rfl))

theorem recordExpr : Follows R R (Marks M) (recordExpr e) (recordExpr e') := by
  refine h.node (h.bind_bump (h.withIndent 0 ?_))
  refine Follows.branch (h.isAt _) (h.bind_bump (Follows.pure rfl)).on ?_
  refine Follows.get_bind fun p q hpq => ?_
  rw [(h.view p q hpq).recordUpdateAhead]
  refine (Follows.onlyIf ((recordBase h he).bind fun _ _ _ => h.expect _)).bind fun _ _ _ => ?_
  exact (h.commaLoop he.fuel _ (recordField h he)).bind fun _ _ _ =>
    (h.expect _).bind fun _ _ _ => Follows.pure rfl

theorem lambdaExpr : Follows R R (Marks M) (lambdaExpr e) (lambdaExpr e') :=
  h.node (h.bind_bump ((paramList h he _).bind fun _ _ _ => (h.expect _).bind fun _ _ _ =>
    (ignore (expr he)).bind fun _ _ _ => Follows.pure rfl))

theorem ifExpr : Follows R R (Marks M) (ifExpr e) (ifExpr e') :=
  h.node (h.bind_bump ((ignore (expr he)).bind fun _ _ _ => (h.expect _).bind fun _ _ _ =>
    (ignore (expr he)).bind fun _ _ _ => (h.expect _).bind fun _ _ _ =>
    (ignore (expr he)).bind fun _ _ _ => Follows.pure rfl))

theorem annotationBinding (anchor : ℕ) :
    Follows R R (· = ·) (annotationBinding e anchor) (annotationBinding e' anchor) :=
  ignore (h.node (h.bind_bump (h.bind_bump ((h.withIndent anchor (ignore he.ty)).bind fun _ _ _ =>
    Follows.pure rfl))))

theorem valueBinding (anchor : ℕ) :
    Follows R R (· = ·) (valueBinding e anchor) (valueBinding e' anchor) :=
  ignore (h.node (h.bind_bump ((paramList h he _).bind fun _ _ _ => (h.expect _).bind fun _ _ _ =>
    (h.withIndent anchor (ignore (expr he))).bind fun _ _ _ => Follows.pure rfl)))

theorem destructureBinding (anchor : ℕ) :
    Follows R R (· = ·) (destructureBinding e anchor) (destructureBinding e' anchor) :=
  ignore (h.node ((ignore he.pattern).bind fun _ _ _ => (h.expect _).bind fun _ _ _ =>
    (h.withIndent anchor (ignore (expr he))).bind fun _ _ _ => Follows.pure rfl))

theorem letBinding (anchor : ℕ) :
    Follows R R (· = ·) (letBinding e anchor) (letBinding e' anchor) := by
  refine Follows.branch (fun s t hst => ?_) (annotationBinding h he anchor).on
    (Follows.branch (h.isAt _) (valueBinding h he anchor).on (destructureBinding h he anchor))
  rw [(h.view s t hst).isAt, (h.view s t hst).nth]

omit h he in
theorem siblingRound {stop more : Parser → Bool} (hstop : ∀ s t, R s t → stop s = stop t)
    (hmore : ∀ s t, R s t → more s = more t) {x y : P Unit} (hxy : Follows R R (· = ·) x y) :
    Follows R R (Rounded (· = ·)) (siblingRound stop more x ()) (siblingRound stop more y ()) :=
  Follows.branch hstop (Follows.pure (.done rfl)).on (hxy.bind fun _ _ _ =>
    Follows.branch hmore (Follows.pure (.yield rfl)).on (Follows.pure (.done rfl)))

theorem letExpr : Follows R R (Marks M) (letExpr e) (letExpr e') := by
  refine h.node (h.bind_bump (Follows.get_bind fun p q hpq => ?_))
  rw [(h.view p q hpq).col]
  refine Follows.bind (A := (· = ·)) (Follows.branch (fun s t hst => ?_) (h.error _).on
    (Follows.pure rfl)) fun _ _ _ => ?_
  · rw [(h.view s t hst).isAt, (h.view s t hst).atEnd]
  refine Follows.bind (A := (· = ·)) (Follows.loop (fun _ _ _ => ?_) he.fuel rfl) fun _ _ _ =>
    (h.expect _).bind fun _ _ _ => (ignore (expr he)).bind fun _ _ _ => Follows.pure rfl
  refine siblingRound (fun s t hst => ?_) (fun s t hst => ?_) (letBinding h he q.col)
  · rw [(h.view s t hst).isAt, (h.view s t hst).atEnd]
  · rw [(h.view s t hst).isAt, (h.view s t hst).newlineBefore, (h.view s t hst).col]

theorem matchArm (patCol : ℕ) : Follows R R (· = ·) (matchArm e patCol) (matchArm e' patCol) := by
  refine ignore (h.node ((ignore he.pattern).bind fun _ _ _ => (h.expect _).bind fun _ _ _ =>
    Follows.get_bind fun p q hpq => ?_))
  rw [(h.view p q hpq).col]
  exact (h.withIndent _ (ignore (expr he))).bind fun _ _ _ => Follows.pure rfl

theorem caseExpr : Follows R R (Marks M) (caseExpr e) (caseExpr e') := by
  refine h.node (h.bind_bump ((ignore (expr he)).bind fun _ _ _ => (h.expect _).bind fun _ _ _ =>
    Follows.get_bind fun p q hpq => ?_))
  rw [(h.view p q hpq).col]
  refine Follows.bind (A := (· = ·)) (Follows.branch (fun s t hst => (h.view s t hst).atEnd)
    (h.error _).on (Follows.pure rfl)) fun _ _ _ => ?_
  refine Follows.bind (A := (· = ·)) (Follows.loop (fun _ _ _ => ?_) he.fuel rfl) fun _ _ _ =>
    Follows.pure rfl
  refine siblingRound (fun s t hst => ?_) (fun s t hst => ?_) (matchArm h he q.col)
  · rw [(h.view s t hst).atEnd, (h.view s t hst).newlineBefore, (h.view s t hst).col]
  · rw [(h.view s t hst).newlineBefore, (h.view s t hst).col]

section

variable {R₀ : Parser → Parser → Prop} (hR₀ : ∀ s t, R₀ s t → R s t)
  (hminus : Follows (On atMinus R₀) R (Marks M) (minusNode e) (minusNode e'))
include hR₀ hminus

theorem atom : Follows R₀ R (Marks M) (atom logos e) (atom logos e') := by
  refine Follows.get_bind_at fun p q hpq => ?_
  have hview := h.view p q (hR₀ p q hpq)
  have hat : ∀ s t, s = p ∧ t = q → R s t := by
    rintro s t ⟨rfl, rfl⟩
    exact hR₀ s t hpq
  rw [hview.current, hview.curText]
  split
  case h_4 => exact (h.checkedLeaf (fun s t hst => (h.view s t hst).badString) _ _).before hat
  case h_5 => exact (h.checkedLeaf (fun s t hst => (h.view s t hst).badChar) _ _).before hat
  case h_6 hcur =>
    refine he.multiline.before ?_
    rintro s t ⟨rfl, rfl⟩
    exact ⟨hR₀ s t hpq, by simp [Parser.isAt, hview.current, hcur]⟩
  case h_10 =>
    refine (h.node (h.bind_bump ((qualifiedPath h he).bind ?_))).before hat
    rintro qualified _ rfl
    exact Follows.pure rfl
  case h_11 =>
    exact (h.node (h.bind_bump ((h.expect _).bind fun _ _ _ => Follows.pure rfl))).before hat
  case h_12 hcur =>
    refine Follows.ite (fun htext => ?_) fun _ => (h.errorAtom _).before hat
    refine hminus.before ?_
    rintro s t ⟨rfl, rfl⟩
    refine ⟨hpq, ?_⟩
    simp [atMinus, Parser.isAt, hview.current, hview.curText, hcur, htext]
  case h_13 => exact (parenExpr h he).before hat
  case h_14 => exact (listExpr h he).before hat
  case h_15 => exact (recordExpr h he).before hat
  case h_16 => exact (lambdaExpr h he).before hat
  case h_17 => exact (ifExpr h he).before hat
  case h_18 => exact (letExpr h he).before hat
  case h_19 => exact (caseExpr h he).before hat
  case h_20 => exact (h.errorAtom _).before hat
  all_goals exact (h.leaf _).before hat

theorem primaryExpr : Follows R₀ R (Marks M) (primaryExpr logos e) (primaryExpr logos e') :=
  (atom h he hR₀ hminus).bind fun _ _ hc => fieldAccess h he hc

end

omit he in
theorem negativeArg : Follows R R (· = ·) negativeArg negativeArg :=
  ignore (h.node (h.bind_bump ((ignore (h.leaf _)).bind fun _ _ _ => Follows.pure rfl)))

section

variable (hminus : Follows (On atMinus R) R (Marks M) (minusNode e) (minusNode e'))
include hminus

theorem appExpr : Follows R R (Marks M) (appExpr logos e) (appExpr logos e') := by
  have harg : ∀ s t, R s t → argContinues s = argContinues t :=
    fun s t hst => (h.view s t hst).argContinues
  have hprimary := primaryExpr h he (fun _ _ hst => hst) hminus
  refine hprimary.bind fun c c' hc => Follows.branch harg (h.wrap hc _ ?_).on (Follows.pure hc)
  refine Follows.whileLoop harg (fun _ _ _ => Follows.on ?_) he.fuel rfl
  exact Follows.branch (fun s t hst => (h.view s t hst).isNegativeLiteralArg) (negativeArg h).on
    (ignore hprimary)

omit hminus in
theorem operatorRound (minBp : ℕ) {c c' : CompletedMarker} (hc : Marks M c c') :
    Follows R R (Rounded (Marks M)) (operatorRound e minBp c) (operatorRound e' minBp c') := by
  refine Follows.branch (fun s t hst => (h.view s t hst).operatorContinues)
    (Follows.on (Follows.get_bind fun p q hpq => ?_)) (Follows.pure (.done hc))
  rw [(h.view p q hpq).binPower]
  refine Follows.ite (fun _ => Follows.pure (.done hc)) fun _ => ?_
  exact (h.wrap hc _ (h.bind_bump (ignore (he.exprBp _)))).bind fun _ _ hc =>
    Follows.pure (Rounded.yield hc)

/-- What `expr_bp` does within the nesting limit. -/
theorem operators (minBp : ℕ) : Follows R R (Marks M)
    (do loop e.fuel (Syntax.operatorRound e minBp) (← Syntax.appExpr logos e))
    (do loop e'.fuel (Syntax.operatorRound e' minBp) (← Syntax.appExpr logos e')) :=
  (appExpr h he hminus).bind fun _ _ hc =>
    Follows.loop (fun _ _ hc => operatorRound h he minBp hc) he.fuel hc

end

/-! ## Declarations -/

theorem variant : Follows R R (· = ·) (variant e) (variant e') := by
  refine ignore (h.node ((h.expect _).bind fun _ _ _ => Follows.bind (A := (· = ·))
    (Follows.whileLoop (fun s t hst => ?_) (fun _ _ _ => (ignore (typeAtom h he)).on) he.fuel rfl)
    fun _ _ _ => Follows.pure rfl))
  rw [(h.view s t hst).atAny, (h.view s t hst).atContinuation, (h.view s t hst).isAt]

theorem unionVariants : Follows R R (· = ·) (unionVariants e) (unionVariants e') := by
  refine ignore (h.node ((variant h he).bind fun _ _ _ => Follows.bind (A := (· = ·))
    (Follows.whileLoop (fun s t hst => ?_) (fun _ _ _ => (h.bind_bump (variant h he)).on) he.fuel rfl)
    fun _ _ _ => Follows.pure rfl))
  rw [(h.view s t hst).atContinuation, (h.view s t hst).isAt]

theorem typeVarList : Follows R R (· = ·) (typeVarList e) (typeVarList e') :=
  ignore (h.node (Follows.bind (A := (· = ·)) (Follows.whileLoop (h.isAt _)
    (fun _ _ _ => h.bump.on) he.fuel rfl) fun _ _ _ => Follows.pure rfl))

theorem typeDecl : Follows R R (· = ·) (typeDecl e) (typeDecl e') := by
  refine ignore (h.node (h.bind_bump ((h.eat _).bind ?_)))
  rintro isAlias _ rfl
  refine Follows.ite (fun _ => ?_) fun _ => ?_
  · exact (h.expect _).bind fun _ _ _ => (typeVarList h he).bind fun _ _ _ =>
      (h.expect _).bind fun _ _ _ => (h.withIndent 1 (ignore he.ty)).bind fun _ _ _ =>
      Follows.pure rfl
  · exact (h.expect _).bind fun _ _ _ => (typeVarList h he).bind fun _ _ _ =>
      (h.expect _).bind fun _ _ _ => (h.withIndent 1 (unionVariants h he)).bind fun _ _ _ =>
      Follows.pure rfl

theorem valueOrAnno : Follows R R (· = ·) (valueOrAnno e) (valueOrAnno e') := by
  refine ignore (h.node (h.bind_bump (Follows.branch (h.isAt _) (Follows.on ?_) ?_)))
  · exact h.bind_bump ((h.withIndent 1 (ignore he.ty)).bind fun _ _ _ => Follows.pure rfl)
  · refine (paramList h he _).bind fun _ _ _ => (h.expect _).bind fun _ _ _ =>
      Follows.get_bind fun p q hpq => ?_
    rw [(h.view p q hpq).col]
    exact (h.withIndent _ (ignore (expr he))).bind fun _ _ _ => Follows.pure rfl

theorem decl : Follows R R (· = ·) (decl e) (decl e') := by
  refine Follows.get_bind fun p q hpq => ?_
  rw [(h.view p q hpq).current]
  split
  · exact typeDecl h he
  · exact valueOrAnno h he
  · exact valueOrAnno h he
  · exact h.errAndBump _

theorem topLevel : Follows R R (· = ·) (topLevel e) (topLevel e') :=
  Follows.branch (fun s t hst => (h.view s t hst).atAny _) (decl h he).on
    (Follows.branch (fun s t hst => (h.view s t hst).atBlockBoundary) (h.errAndBump _).on
      (h.errRecover he.fuel _ _))

theorem sourceFile (hunit : Follows R R (· = ·) beginUnit beginUnit) :
    Follows R R (· = ·) (sourceFile e) (sourceFile e') := by
  refine ignore (h.node (hunit.bind fun _ _ _ => ?_))
  refine Follows.bind (A := (· = ·)) (Follows.branch (h.isAt _) (h.moduleHeader he.fuel).on
    (Follows.pure rfl)) fun _ _ _ => hunit.bind fun _ _ _ => ?_
  refine Follows.bind (A := (· = ·)) (Follows.whileLoop (h.isAt _) (fun _ _ _ => Follows.on
    ((h.importDecl he.fuel).bind fun _ _ _ => hunit)) he.fuel rfl) fun _ _ _ => ?_
  refine Follows.bind (A := (· = ·)) (h.withIndent 1 (Follows.loop (fun _ _ _ => ?_) he.fuel rfl))
    fun _ _ _ => Follows.pure rfl
  refine hunit.bind fun _ _ _ => Follows.branch (fun s t hst => (h.view s t hst).atEnd)
    (Follows.pure (.done rfl)).on ?_
  exact (topLevel h he).bind fun _ _ _ => Follows.pure (.yield rfl)

end Simulation

/-! ## One level of recursion -/

/-- The productions that call those of `e`. -/
def level (logos : Logos) (fuel : ℕ) (e : Entries) : Entries where
  fuel := fuel
  ty := ty e
  pattern := pattern e
  patternCons := patternCons e
  exprBp := exprBp logos e
  primaryExpr := primaryExpr logos e

/-- The productions of one record are followed by those of another. -/
structure Covers (R : Parser → Parser → Prop) (M : ℕ → ℕ → Prop) (e e' : Entries) : Prop where
  fuel : e.fuel ≤ e'.fuel
  ty : Follows R R (Marks M) e.ty e'.ty
  pattern : Follows R R (Marks M) e.pattern e'.pattern
  patternCons : Follows R R (Marks M) e.patternCons e'.patternCons
  exprBp : ∀ minBp, Follows R R (Marks M) (e.exprBp minBp) (e'.exprBp minBp)
  primaryExpr : Follows R R (Marks M) e.primaryExpr e'.primaryExpr

variable {logos : Logos} {e e' : Entries}

/-- The multiline strings at the cursor are read alike. -/
def FollowsMultiline (logos : Logos) (R : Parser → Parser → Prop) (M : ℕ → ℕ → Prop)
    (e e' : Entries) : Prop :=
  Follows (On (·.isAt .multilineString) R) R (Marks M) (multilineLiteral logos e)
    (multilineLiteral logos e')

namespace Covers

variable (h : Simulation R M O) (he : Covers R M e e') (hm : FollowsMultiline logos R M e e')
include h he

include hm in
theorem follows : FollowsEntries logos R M e e' where
  fuel := he.fuel
  ty := he.ty
  pattern := he.pattern
  exprBp := he.exprBp
  multiline := hm
  tail _ _ hc := Follows.on (h.wrap hc _ (h.bind_bump (Simulation.ignore he.patternCons)))

theorem minus : Follows (On atMinus R) R (Marks M) (minusNode e) (minusNode e') :=
  Follows.on (h.node (h.bind_bump ((Simulation.ignore he.primaryExpr).bind fun _ _ _ => Follows.pure rfl)))

include hm

theorem patternCons_follows : Follows R R (Marks M) (Syntax.patternCons e) (Syntax.patternCons e') :=
  h.patternCons (he.follows h hm)

theorem primaryExpr_follows :
    Follows R R (Marks M) (Syntax.primaryExpr logos e) (Syntax.primaryExpr logos e') :=
  h.primaryExpr (he.follows h hm) (fun _ _ hst => hst) (he.minus h)

end Covers

/-! ## The nesting guard -/

/-- Entering and leaving the nesting guard goes from `R` to `R'` and back; `within` holds where it
lets the production run. -/
structure Guard (R R' : Parser → Parser → Prop) (within : Prop) : Prop where
  enter : Follows R R' (fun b b' => b = b' ∧ (b = false → within)) depthEnter depthEnter
  leave : Follows R' R (· = ·) depthLeave depthLeave

namespace Guard

variable {R' : Parser → Parser → Prop} {within : Prop} (hguard : Guard R R' within)
  (h : Simulation R' M O)
include hguard h

theorem follows {x y : P CompletedMarker} (hxy : within → Follows R' R' (Marks M) x y) :
    Follows R R (Marks M) (guarded x) (guarded y) := by
  refine Follows.bind (hguard.enter.bind ?_) fun _ _ hc =>
    hguard.leave.bind fun _ _ _ => Follows.pure hc
  rintro deep _ ⟨rfl, hwithin⟩
  cases deep with
  | true => exact h.errorAtom _
  | false => exact hxy (hwithin rfl)

variable (he : within → Covers R' M e e') (hm : within → FollowsMultiline logos R' M e e')
include he hm

theorem ty : Follows R R (Marks M) (Syntax.ty e) (Syntax.ty e') := by
  refine hguard.follows h fun hw => ?_
  have hfollows := (he hw).follows h (hm hw)
  refine (h.typeApp hfollows).bind fun _ _ hc => Follows.branch (fun s t hst => ?_)
    (Follows.on (h.wrap hc _ (h.bind_bump (Simulation.ignore hfollows.ty)))) (Follows.pure hc)
  rw [(h.view s t hst).isAt, (h.view s t hst).atContinuation]

theorem pattern : Follows R R (Marks M) (Syntax.pattern e) (Syntax.pattern e') := by
  refine hguard.follows h fun hw => ?_
  refine ((he hw).patternCons_follows h (hm hw)).bind fun _ _ hc => Follows.branch (h.isAt _)
    (Follows.on (h.wrap hc _ (h.bind_bump (h.expect _)))) (Follows.pure hc)

theorem exprBp (minBp : ℕ) :
    Follows R R (Marks M) (Syntax.exprBp logos e minBp) (Syntax.exprBp logos e' minBp) := by
  rw [exprBp_eq, exprBp_eq]
  exact hguard.follows h fun hw =>
    h.operators ((he hw).follows h (hm hw)) ((he hw).minus h) minBp

end Guard

/-! ## The grammar and itself -/

theorem entries_fuel (logos : Logos) (n : ℕ) : (entries logos n).fuel = n + 1 := by
  cases n with
  | zero => rfl
  | succ n => rfl

namespace Simulation

variable (h : Simulation R M O) (hlogos : logos.Partitions)
include h hlogos

theorem multiline_self (e : Entries) : FollowsMultiline logos R M e e := by
  refine Follows.on (h.node ?_)
  refine (h.multiline hlogos (fun _ _ hst => hst) ?_).bind fun _ _ _ => Follows.pure rfl
  exact fun _ _ _ _ _ _ _ _ _ _ _ c _ hx => ⟨c, hx⟩

/-- The grammar does the same from related parsers. -/
theorem entries_covers (hguard : Guard R R True) (n : ℕ) :
    Covers R M (entries logos n) (entries logos n) := by
  induction n with
  | zero => exact ⟨le_rfl, Follows.none, Follows.none, Follows.none, fun _ => Follows.none,
      Follows.none⟩
  | succ n ih =>
      have hm := h.multiline_self hlogos (M := M) (entries logos n)
      exact ⟨le_rfl, hguard.ty h (fun _ => ih) fun _ => hm, hguard.pattern h (fun _ => ih) fun _ => hm,
        ih.patternCons_follows h hm, hguard.exprBp h (fun _ => ih) fun _ => hm,
        ih.primaryExpr_follows h hm⟩

theorem entries_follows (hguard : Guard R R True) (n : ℕ) :
    FollowsEntries logos R M (entries logos n) (entries logos n) :=
  (h.entries_covers hlogos hguard n).follows h (h.multiline_self hlogos _)

end Simulation

end Sky.Syntax
