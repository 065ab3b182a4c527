import Sky.Model.Syntax.Lexer

/-! # Parser events and the tree they build

`event.rs`: the parser emits a flat list of events and `buildTree` replays it into a
green tree, taking trivia and token text from the raw tokens. -/

namespace Sky.Syntax

/-! ## Events -/

inductive Event where
  /-- Open a node. `forwardParent` is the distance to the `start` of its parent-to-be. -/
  | start (kind : SyntaxKind) (forwardParent : Option ℕ)
  | finish
  /-- Emit one significant token, its trivia first. -/
  | token (kind : SyntaxKind)
  /-- Emit a leaf whose text is a range of the source. -/
  | rawSlice (kind : SyntaxKind) (start stop : ℕ)
  /-- Consume one significant token without emitting it. -/
  | skip
  deriving DecidableEq

def Event.tombstone : Event := .start .tombstone none

/-! ## Green trees -/

inductive Green where
  | node (kind : SyntaxKind) (children : List Green)
  | token (kind : SyntaxKind) (text : List Char)

mutual

/-- The texts of the leaves, in order. -/
def Green.text : Green → List Char
  | .node _ children => Green.texts children
  | .token _ text => text

def Green.texts : List Green → List Char
  | [] => []
  | g :: gs => g.text ++ Green.texts gs

end

/-- The builder of green trees: the open nodes, innermost first, each with the place of
its first child in `children`. -/
structure GreenNodeBuilder where
  parents : List (SyntaxKind × ℕ)
  children : List Green

namespace GreenNodeBuilder

def new : GreenNodeBuilder := ⟨[], []⟩

def token (b : GreenNodeBuilder) (kind : SyntaxKind) (text : List Char) : GreenNodeBuilder :=
  { b with children := b.children ++ [.token kind text] }

def startNode (b : GreenNodeBuilder) (kind : SyntaxKind) : GreenNodeBuilder :=
  { b with parents := (kind, b.children.length) :: b.parents }

/-- Close the innermost node; with none open the builder panics. -/
def finishNode (b : GreenNodeBuilder) : Option GreenNodeBuilder :=
  match b.parents with
  | [] => none
  | (kind, first) :: parents =>
      some { parents := parents
             children := b.children.take first ++ [.node kind (b.children.drop first)] }

/-- The finished tree; anything but a single node is a panic. -/
def finish (b : GreenNodeBuilder) : Option Green :=
  match b.children with
  | [.node kind children] => some (.node kind children)
  | _ => none

end GreenNodeBuilder

/-! ## Replay -/

/-- The builder with the raw tokens not yet emitted. -/
structure Sink where
  builder : GreenNodeBuilder
  raw : List LexToken

/-- Emit the trivia at the cursor. -/
def eatTrivia (src : List Char) (builder : GreenNodeBuilder) : List LexToken → Sink
  | [] => ⟨builder, []⟩
  | t :: raw =>
      if t.kind.isTrivia then
        eatTrivia src (builder.token t.kind (slice src t.start t.stop)) raw
      else ⟨builder, t :: raw⟩

/-- Follow the forward parents from the event `pos` places after the current one, which
is a tombstone by now; `rest` are the events after the current one. Gives the kinds met,
in order, and `rest` with the events met replaced by tombstones. -/
def forwardKinds : ℕ → List Event → ℕ → Option ℕ → Option (List SyntaxKind × List Event)
  | _, rest, _, none => some ([], rest)
  | 0, _, _, some _ => none
  | fuel + 1, rest, pos, some fwd =>
      match pos + fwd with
      | 0 => some ([], rest)
      | idx + 1 =>
          match rest[idx]? with
          | some (.start kind forwardParent) =>
              (forwardKinds fuel (rest.set idx .tombstone) (idx + 1) forwardParent).map
                fun (kinds, rest) =>
                  (if kind ≠ .tombstone then kind :: kinds else kinds, rest)
          | _ => none

/-- Open the nodes of a chain, the outermost (the last link) first. -/
def startNodes (b : GreenNodeBuilder) (kinds : List SyntaxKind) : GreenNodeBuilder :=
  kinds.reverse.foldl
    (fun b k => if k ≠ .tombstone then b.startNode k else b) b

/-- Replay the events, of which `n` are left. The last `finish` takes the trailing
trivia into the root. -/
def replay (src : List Char) : ℕ → List Event → Sink → Option Sink
  | 0, _, sink => some sink
  | _, [], sink => some sink
  | n + 1, .start .tombstone none :: rest, sink => replay src n rest sink
  | n + 1, .start kind forwardParent :: rest, sink => do
      let (kinds, rest) ← forwardKinds (rest.length + 1) rest 0 forwardParent
      replay src n rest { sink with builder := startNodes sink.builder (kind :: kinds) }
  | n + 1, .finish :: rest, sink => do
      let sink := if rest.isEmpty then eatTrivia src sink.builder sink.raw else sink
      let builder ← sink.builder.finishNode
      replay src n rest { sink with builder := builder }
  | n + 1, .token kind :: rest, sink =>
      let sink := eatTrivia src sink.builder sink.raw
      match sink.raw with
      | [] => replay src n rest sink
      | t :: raw =>
          replay src n rest ⟨sink.builder.token kind (slice src t.start t.stop), raw⟩
  | n + 1, .rawSlice kind start stop :: rest, sink =>
      replay src n rest { sink with builder := sink.builder.token kind (slice src start stop) }
  | n + 1, .skip :: rest, sink =>
      let sink := eatTrivia src sink.builder sink.raw
      replay src n rest { sink with raw := sink.raw.tail }

/-- Replay a list of events into a tree. `none` is a panic. -/
def buildTree (src : List Char) (raw : List LexToken) (events : List Event) : Option Green := do
  let sink ← replay src events.length events ⟨.new, raw⟩
  (eatTrivia src sink.builder sink.raw).builder.finish

end Sky.Syntax
