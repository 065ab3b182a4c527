import Mathlib

/-! # Tokens of a source file

Kinds, the lexer and the layout pass of `crates/syntax`. A source is its list of
characters and an offset counts characters. The generated `logos` scanner is the
parameter `Logos`; what the crate does with its output is modelled in full. -/

namespace Sky.Syntax

/-! ## Kinds -/

/-- One kind space for tokens and nodes. -/
inductive SyntaxKind where
  | whitespace | newline | lineComment | blockComment
  | int | hexInt | float | string | multilineString | char
  | lowerIdent | upperIdent | moduleKw | exposingKw | importKw | asKw | typeKw | aliasKw
  | ifKw | thenKw | elseKw | caseKw | ofKw | letKw | inKw | trueKw | falseKw
  | eq | colon | colon2 | dot | dotDot | pipe | arrow | backslash | op
  | lParen | rParen | lBrack | rBrack | lBrace | rBrace | comma | underscore
  | stringChunk | interpOpen | interpClose
  | error | eof
  | sourceFile | moduleHeader | moduleName | exposingList | exposedValue | exposedType
  | exposedCtorList | exposedOperator | «import» | importAlias | importExposing | valueDecl
  | typeAnnoDecl | unionDecl | aliasDecl | paramList | typeVarList | unionVariantList
  | unionVariant
  | typeFun | typeApp | typeVar | typeCon | typeQual | typeRecord | typeRecordField | typeTuple
  | typeUnit | typeParen | rowVar
  | patWildcard | patVar | patCtor | patCtorQual | patList | patCons | patTuple | patUnit
  | patRecord | patAlias | patInt | patFloat | patString | patChar | patBool | patParen
  | patNegate
  | literal | multilineLiteral | interpolation | refExpr | qualRefExpr | accessorExpr
  | fieldAccess | listExpr | tupleExpr | unitExpr | recordExpr | recordUpdate | recordField
  | parenExpr | negateExpr | binExpr | callExpr | lambdaExpr | ifExpr | elseIf | letExpr
  | letBinding | destructureBinding | caseExpr | matchArm
  | tombstone
  deriving DecidableEq

/-- Whitespace, newlines and both comment forms. -/
def SyntaxKind.isTrivia : SyntaxKind → Bool
  | .whitespace | .newline | .lineComment | .blockComment => true
  | _ => false

/-! ## Lexer -/

/-- The token classes of the generated scanner. -/
inductive Lx where
  | ws | nl | lineComment | blockComment | hex | float | int | multiline | str | char
  | ident | op | lParen | rParen | lBrack | rBrack | lBrace | rBrace | comma | underscore
  deriving DecidableEq

/-- The generated scanner, which gives every item its class, or none on an error, and
its span; and the Unicode test that tells an upper-case first letter. -/
structure Logos where
  lexer : List Char → List (Option Lx × ℕ × ℕ)
  isUppercase : Char → Bool

/-- A kind and a half-open range of the source. -/
structure LexToken where
  kind : SyntaxKind
  start : ℕ
  stop : ℕ
  deriving DecidableEq

/-- The text `src[start..stop]`. -/
def slice (src : List Char) (start stop : ℕ) : List Char := (src.take stop).drop start

def lowerKeyword (text : String) : Option SyntaxKind :=
  match text with
  | "module" => some .moduleKw
  | "exposing" => some .exposingKw
  | "import" => some .importKw
  | "as" => some .asKw
  | "type" => some .typeKw
  | "alias" => some .aliasKw
  | "if" => some .ifKw
  | "then" => some .thenKw
  | "else" => some .elseKw
  | "case" => some .caseKw
  | "of" => some .ofKw
  | "let" => some .letKw
  | "in" => some .inKw
  | _ => none

def classifyIdent (isUppercase : Char → Bool) (text : List Char) : SyntaxKind :=
  match lowerKeyword (String.ofList text) with
  | some kw => kw
  | none =>
      match text.head? with
      | some c =>
          if isUppercase c then
            match String.ofList text with
            | "True" => .trueKw
            | "False" => .falseKw
            | _ => .upperIdent
          else .lowerIdent
      | none => .lowerIdent

def classifyOp (text : List Char) : SyntaxKind :=
  match String.ofList text with
  | "=" => .eq
  | ":" => .colon
  | "::" => .colon2
  | "." => .dot
  | ".." => .dotDot
  | "|" => .pipe
  | "->" => .arrow
  | "\\" => .backslash
  | _ => .op

def mapKind (isUppercase : Char → Bool) (lx : Lx) (text : List Char) : SyntaxKind :=
  match lx with
  | .ws => .whitespace
  | .nl => .newline
  | .lineComment => .lineComment
  | .blockComment => .blockComment
  | .hex => .hexInt
  | .float => .float
  | .int => .int
  | .multiline => .multilineString
  | .str => .string
  | .char => .char
  | .ident => classifyIdent isUppercase text
  | .op => classifyOp text
  | .lParen => .lParen
  | .rParen => .rParen
  | .lBrack => .lBrack
  | .rBrack => .rBrack
  | .lBrace => .lBrace
  | .rBrace => .rBrace
  | .comma => .comma
  | .underscore => .underscore

/-- Lex a source into its raw tokens, trivia included. -/
def lex (logos : Logos) (src : List Char) : List LexToken :=
  (logos.lexer src).map fun (res, start, stop) =>
    { kind := match res with
        | some lx => mapKind logos.isUppercase lx (slice src start stop)
        | none => .error
      start := start
      stop := stop }

/-! ## Layout -/

/-- A significant token with the layout facts the parser consults. -/
structure PToken where
  kind : SyntaxKind
  start : ℕ
  stop : ℕ
  newlineBefore : Bool
  col : ℕ
  wsBefore : Bool
  deriving DecidableEq

def advanceCol (text : List Char) (kind : SyntaxKind) (col : ℕ) : ℕ :=
  if kind = .newline then 1
  else if kind = .whitespace then
    text.foldl (fun c ch =>
      match ch with
      | ' ' => c + 1
      | '\t' => c + 4
      | '\r' => c
      | _ => c + 1) col
  else if '\n' ∈ text then (text.reverse.takeWhile (· ≠ '\n')).length + 1
  else col + text.length

/-- What the layout pass carries from one raw token to the next. -/
structure LayoutState where
  col : ℕ
  newlineSince : Bool
  prevWasTrivia : Bool

def layoutFrom (src : List Char) (st : LayoutState) : List LexToken → List PToken
  | [] => []
  | tok :: raw =>
      let col := advanceCol (slice src tok.start tok.stop) tok.kind st.col
      if tok.kind.isTrivia then
        layoutFrom src
          { col := col
            newlineSince := st.newlineSince || tok.kind == .newline
            prevWasTrivia := true } raw
      else
        { kind := tok.kind
          start := tok.start
          stop := tok.stop
          newlineBefore := st.newlineSince
          col := st.col
          wsBefore := st.prevWasTrivia } ::
          layoutFrom src { col := col, newlineSince := false, prevWasTrivia := false } raw

/-- The significant tokens of a source with their layout facts. -/
def layout (src : List Char) (raw : List LexToken) : List PToken :=
  layoutFrom src { col := 1, newlineSince := false, prevWasTrivia := false } raw

end Sky.Syntax
