import Sky.Library.Returning
import Sky.Model.Syntax.Tree

/-! # The parser core

`parser.rs`: a cursor over the significant tokens, the marker API that drives the event
list, layout predicates, error recovery and the nesting guard. A parser action is a
`StateT Parser Option` program; `none` is a panic or a spent budget. -/

namespace Sky.Syntax

open Sky.Returning

def maxDepth : ℕ := 256

/-- A set of token kinds. -/
abbrev TokenSet := List SyntaxKind

def TokenSet.union (a b : TokenSet) : TokenSet := a ++ b

def TokenSet.without (a : TokenSet) (k : SyntaxKind) : TokenSet := a.filter (· ≠ k)

/-! ## State -/

/-- The text of a syntax diagnostic. -/
inductive Message where
  | expected (kind : SyntaxKind)
  | text (msg : String)
  deriving DecidableEq

structure Diagnostic where
  code : String
  message : Message
  start : ℕ
  stop : ℕ
  deriving DecidableEq

/-- Where a diagnostic was raised: its index, the token it was raised at, its unit. -/
structure ErrorSite where
  diag : ℕ
  pos : ℕ
  unit : ℕ
  deriving DecidableEq

structure Parser where
  src : List Char
  toks : List PToken
  pos : ℕ
  events : List Event
  diags : List Diagnostic
  /-- A fresh-line token continues the current block iff its column is greater. -/
  blockIndent : ℕ
  depth : ℕ
  /-- The token index where each lexical unit starts, in order. -/
  units : List ℕ
  /-- The unit the cursor is in. -/
  unit : ℕ
  /-- The token index where that unit ends. -/
  limit : ℕ
  unitErrored : Bool
  sites : List ErrorSite
  deriving DecidableEq

abbrev P (α : Type) := StateT Parser Option α

/-- The position of an open node's `start` event. -/
structure Marker where
  pos : ℕ

/-- The position of a finished node's `start` event. -/
structure CompletedMarker where
  pos : ℕ

namespace Parser

def withUnits (src : List Char) (toks : List PToken) (units : List ℕ) : Parser where
  src := src
  toks := toks
  pos := 0
  events := []
  diags := []
  blockIndent := 0
  depth := 0
  units := units
  unit := 0
  limit := units[1]?.getD toks.length
  unitErrored := false
  sites := []

/-- A parser over `toks` as one unit. -/
def new (src : List Char) (toks : List PToken) : Parser := withUnits src toks [0]

/-! ## Cursor -/

/-- The token at `i`, or none past the end of the current unit. -/
def tok (p : Parser) (i : ℕ) : Option PToken := if i < p.limit then p.toks[i]? else none

def nth (p : Parser) (n : ℕ) : SyntaxKind :=
  match p.tok (p.pos + n) with
  | some t => t.kind
  | none => .eof

def current (p : Parser) : SyntaxKind := p.nth 0

def isAt (p : Parser) (kind : SyntaxKind) : Bool := p.current == kind

def atAny (p : Parser) (set : TokenSet) : Bool := set.contains p.current

def atEnd (p : Parser) : Bool := min p.limit p.toks.length ≤ p.pos

def curText (p : Parser) : List Char :=
  match p.tok p.pos with
  | some t => slice p.src t.start t.stop
  | none => []

def newlineBefore (p : Parser) : Bool :=
  match p.tok p.pos with
  | some t => t.newlineBefore
  | none => true

def col (p : Parser) : ℕ :=
  match p.tok p.pos with
  | some t => t.col
  | none => 0

def nthWsBefore (p : Parser) (n : ℕ) : Bool :=
  match p.tok (p.pos + n) with
  | some t => t.wsBefore
  | none => true

def wsBefore (p : Parser) : Bool := p.nthWsBefore 0

/-- The current token continues the enclosing block. -/
def atContinuation (p : Parser) : Bool :=
  !p.atEnd && (!p.newlineBefore || p.blockIndent < p.col)

/-- A fresh-line token at or left of the enclosing block's anchor. -/
def atBlockBoundary (p : Parser) : Bool :=
  !p.atEnd && p.newlineBefore && p.col ≤ p.blockIndent

/-- The range a diagnostic at the cursor points at. -/
def curSpan (p : Parser) : ℕ × ℕ :=
  match p.tok p.pos with
  | some t => (t.start, t.stop)
  | none =>
      if p.pos < p.toks.length ∧ 0 < p.pos then
        match p.toks[p.pos - 1]? with
        | some t => (t.stop, t.stop)
        | none => (p.src.length, p.src.length)
      else (p.src.length, p.src.length)

end Parser

/-! ## Markers -/

def start : P Marker := fun p =>
  some (⟨p.events.length⟩, { p with events := p.events ++ [.tombstone] })

/-- Name the node and close it. -/
def Marker.complete (m : Marker) (kind : SyntaxKind) : P CompletedMarker := fun p =>
  match p.events[m.pos]? with
  | some (.start _ fp) =>
      some (⟨m.pos⟩, { p with events := p.events.set m.pos (.start kind fp) ++ [.finish] })
  | _ => none

/-- Open a node that becomes the parent of a finished one. -/
def CompletedMarker.precede (cm : CompletedMarker) : P Marker := do
  let m ← start
  fun p =>
    match p.events[cm.pos]? with
    | some (.start kind _) =>
        some (m, { p with events := p.events.set cm.pos (.start kind (some (m.pos - cm.pos))) })
    | some _ => some (m, p)
    | none => none

/-- `start`, then `body`, then `complete` with the kind `body` chooses. -/
def node (body : P SyntaxKind) : P CompletedMarker := do
  let m ← start
  let kind ← body
  m.complete kind

/-- `precede`, then `body`, then `complete`. -/
def CompletedMarker.wrap (cm : CompletedMarker) (kind : SyntaxKind) (body : P Unit) :
    P CompletedMarker := do
  let m ← cm.precede
  body
  m.complete kind

/-- Run an action whose result the source drops. -/
def ignore {α : Type} (x : P α) : P Unit := do
  let _ ← x
  pure ()

/-! ## Moves -/

/-- Emit the current token and advance. -/
def bump : P Unit := modify fun p =>
  if p.atEnd then p
  else { p with events := p.events ++ [.token p.current], pos := p.pos + 1 }

/-- Consume the current token without emitting it. -/
def skipRaw : P Unit := modify fun p =>
  if p.atEnd then p else { p with events := p.events ++ [.skip], pos := p.pos + 1 }

/-- Emit a leaf that covers `src[start..stop]`. -/
def emitSlice (kind : SyntaxKind) (start stop : ℕ) : P Unit := modify fun p =>
  { p with events := p.events ++ [.rawSlice kind start stop] }

/-- Record a diagnostic at the current token; a unit keeps only its first. -/
def error (msg : Message) : P Unit := modify fun p =>
  if p.unitErrored then p
  else
    { p with
      unitErrored := true
      sites := p.sites ++ [{ diag := p.diags.length, pos := p.pos, unit := p.unit }]
      diags := p.diags ++
        [{ code := "E0001", message := msg, start := p.curSpan.1, stop := p.curSpan.2 }] }

def eat (kind : SyntaxKind) : P Bool :=
  branch (·.isAt kind) (do bump; pure true) (pure false)

/-- Consume `kind` or record a diagnostic. -/
def expect (kind : SyntaxKind) : P Unit :=
  branch (·.isAt kind) bump (error (.expected kind))

def bumpUnlessEnd : P Unit := branch (·.atEnd) (pure ()) bump

/-- A node of one token. -/
def leaf (kind : SyntaxKind) : P CompletedMarker := node do
  bump
  pure kind

/-- A node of one token, with a diagnostic when the token is bad. -/
def checkedLeaf (bad : Parser → Bool) (msg : Message) (kind : SyntaxKind) :
    P CompletedMarker := node do
  branch bad (error msg) (pure ())
  bump
  pure kind

/-- Wrap the current token in an error node. -/
def errorAtom (msg : Message) : P CompletedMarker := node do
  error msg
  bumpUnlessEnd
  pure .error

def errAndBump (msg : Message) : P Unit := ignore (errorAtom msg)

def recoveryStops (recovery : TokenSet) (p : Parser) : Bool :=
  p.atEnd || p.atAny recovery || p.atBlockBoundary

/-- Diagnose, then wrap the tokens up to a recovery anchor in an error node. -/
def errRecover (fuel : ℕ) (msg : Message) (recovery : TokenSet) : P Unit :=
  branch (recoveryStops recovery) (error msg) <|
    ignore <| node do
      error msg
      whileLoop fuel (fun p => !recoveryStops recovery p) (fun _ => bump) ()
      pure .error

/-- The bail-out of the nesting guard. -/
def errorNode : P CompletedMarker := errorAtom (.text "nested too deeply")

/-! ## Scopes -/

/-- Begin the next lexical unit when the cursor is at the end of the current one. -/
def beginUnit : P Unit := modify fun p =>
  if p.pos < p.limit ∨ p.toks.length ≤ p.pos then p
  else
    { p with
      unit := p.unit + 1
      limit := p.units[p.unit + 2]?.getD p.toks.length
      unitErrored := false }

def withIndent {α : Type} (anchor : ℕ) (f : P α) : P α := do
  let saved := (← get).blockIndent
  modify fun p => { p with blockIndent := anchor }
  let r ← f
  modify fun p => { p with blockIndent := saved }
  pure r

def depthEnter : P Bool := fun p =>
  some (decide (maxDepth < p.depth + 1), { p with depth := p.depth + 1 })

def depthLeave : P Unit := modify fun p => { p with depth := p.depth - 1 }

/-- `depth_enter`, then `body` or, past the limit, an error node, then `depth_leave`. -/
def guarded (body : P CompletedMarker) : P CompletedMarker := do
  let cm ← (do if (← depthEnter) then errorNode else body)
  depthLeave
  pure cm

end Sky.Syntax
