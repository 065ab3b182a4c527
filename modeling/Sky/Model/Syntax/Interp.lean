import Sky.Model.Syntax.Parser

/-! # The interior of a multiline string

`interp.rs`: the bytes of a `"""…"""` token are covered again by chunks and, for each
`{{…}}`, by the tree of its body, parsed by the expression grammar. -/

namespace Sky.Syntax

open Sky.Returning

/-- The offset of the first `}}`. -/
def findClose : List Char → Option ℕ
  | c :: d :: rest =>
      if c = '}' ∧ d = '}' then some 0 else (findClose (d :: rest)).map (· + 1)
  | _ => none

mutual

/-- Emit the leaves of a tree again as slices from `cursor` on, with its nodes. Gives
the offset after the last leaf. -/
def emitGreen : Green → ℕ → P ℕ
  | .node kind children, cursor => do
      let m ← start
      let cursor ← emitGreens children cursor
      let _ ← m.complete kind
      pure cursor
  | .token kind text, cursor => do
      emitSlice kind cursor (cursor + text.length)
      pure (cursor + text.length)

def emitGreens : List Green → ℕ → P ℕ
  | [], cursor => pure cursor
  | g :: gs, cursor => do
      let cursor ← emitGreen g cursor
      emitGreens gs cursor

end

/-- Emit the raw tokens of a body as flat leaves. -/
def emitFlat (base : ℕ) : List LexToken → P Unit
  | [] => pure ()
  | t :: raw => do
      emitSlice t.kind (base + t.start) (base + t.stop)
      emitFlat base raw

section

variable (logos : Logos) (expr : P CompletedMarker)

/-- Parse `src[start..stop]` by a parser of its own and emit the tree, or flat leaves
when the body is not one error-free expression. -/
def body (start stop : ℕ) : P Unit := do
  let text := slice (← get).src start stop
  let raw := lex logos text
  match expr (Parser.new text (layout text raw)) with
  | none => fun _ => none
  | some (_, sub) =>
      if sub.atEnd && sub.diags.isEmpty then
        match buildTree text raw sub.events with
        | none => fun _ => none
        | some green =>
            if green.text.length = stop - start then ignore (emitGreen green start)
            else emitFlat start raw
      else emitFlat start raw

def emitInterpolation (openAt exprStart exprEnd closeEnd : ℕ) : P Unit := ignore <| node do
  emitSlice .interpOpen openAt exprStart
  body logos expr exprStart exprEnd
  emitSlice .interpClose exprEnd closeEnd
  pure .interpolation

/-- One round of the scan of `text`, the token at offset `base`: the place reached and
the start of the pending chunk. -/
def splitStep (base : ℕ) (text : List Char) (close : ℕ) :
    ℕ × ℕ → P (ForInStep (ℕ × ℕ))
  | (i, chunkStart) =>
      if close ≤ i then pure (.done (i, chunkStart))
      else if text[i]? = some '\\' ∧ i + 1 < close ∧ text[i + 1]? = some '{' then
        pure (.yield (i + 2, chunkStart))
      else if text[i]? = some '{' ∧ i + 1 < close ∧ text[i + 1]? = some '{' then
        match findClose (slice text (i + 2) close) with
        | some rel => do
            let exprEnd := i + 2 + rel
            onlyIf (chunkStart < i) (emitSlice .stringChunk (base + chunkStart) (base + i))
            emitInterpolation logos expr (base + i) (base + (i + 2)) (base + exprEnd)
              (base + (exprEnd + 2))
            pure (.yield (exprEnd + 2, exprEnd + 2))
        | none => pure (.yield (i + 1, chunkStart))
      else pure (.yield (i + 1, chunkStart))

/-- Where the text of a multiline string ends and its closing quotes begin. -/
def closeOf (text : List Char) : ℕ :=
  if 6 ≤ text.length ∧ ['"', '"', '"'] <:+ text then text.length - 3 else text.length

/-- Consume the current token and cover its text by chunks and interpolations. -/
def multiline : P Unit := do
  let p ← get
  match p.tok p.pos with
  | none => pure ()
  | some t => do
      let text := slice p.src t.start t.stop
      skipRaw
      let opened := min 3 text.length
      let close := closeOf text
      onlyIf (0 < opened) (emitSlice .stringChunk t.start (t.start + opened))
      let (_, chunkStart) ←
        loop (text.length + 1) (splitStep logos expr t.start text close) (opened, opened)
      onlyIf (chunkStart < close)
        (emitSlice .stringChunk (t.start + chunkStart) (t.start + close))
      onlyIf (close < text.length) (emitSlice .stringChunk (t.start + close) t.stop)

end

end Sky.Syntax
