import Sky.Model.Syntax.Interp

/-! # The grammar productions

`grammar.rs`: recursive descent for declarations, types and patterns, a Pratt loop for
operators. The productions that recurse take the next level of recursion as `Entries`;
`entries` ties the knot with a budget. -/

namespace Sky.Syntax

open Sky.Returning

/-! ## Token sets -/

def argStart : TokenSet :=
  [.int, .hexInt, .float, .string, .multilineString, .char, .lowerIdent, .upperIdent, .trueKw,
    .falseKw, .lParen, .lBrack, .lBrace, .dot]

def typeAtomStart : TokenSet := [.lowerIdent, .upperIdent, .lParen, .lBrace]

def patAtomStart : TokenSet :=
  [.underscore, .lowerIdent, .upperIdent, .lParen, .lBrack, .lBrace, .int, .hexInt, .float,
    .string, .multilineString, .char, .trueKw, .falseKw]

def declStart : TokenSet := [.typeKw, .lowerIdent, .upperIdent]

/-- The tokens that begin a lexical unit at the start of a line. -/
def unitStart : TokenSet := (declStart.union [.moduleKw, .importKw]).without .upperIdent

/-- The keywords that cannot begin a unit. -/
def nameOnlyKeywords : TokenSet :=
  [.thenKw, .elseKw, .ofKw, .inKw, .asKw, .aliasKw, .exposingKw]

/-- The productions one level of recursion down, and the budget of a loop. -/
structure Entries where
  fuel : ℕ
  ty : P CompletedMarker
  pattern : P CompletedMarker
  patternCons : P CompletedMarker
  exprBp : ℕ → P CompletedMarker
  primaryExpr : P CompletedMarker

def Entries.expr (e : Entries) : P CompletedMarker := e.exprBp 0

/-! ## Shared shapes -/

/-- `.` followed by a name. -/
def atDotName (p : Parser) : Bool :=
  p.isAt .dot && (p.nth 1 == .upperIdent || p.nth 1 == .lowerIdent)

/-- The `.name` segments after an upper-case name; whether there was one. -/
def dotNames (fuel : ℕ) : P Bool :=
  whileLoop fuel atDotName (fun _ => do bump; bump; pure true) false

/-- One item up to `close` and its comma. -/
def commaRound (close : SyntaxKind) (item : P Unit) : Unit → P (ForInStep Unit) := fun _ =>
  branch (fun p => p.isAt close || p.atEnd) (pure (.done ())) do
    item
    if ← eat .comma then pure (.yield ()) else pure (.done ())

/-- `item (, item)*` up to `close`, with an optional trailing comma. -/
def commaLoop (fuel : ℕ) (close : SyntaxKind) (item : P Unit) : P Unit :=
  loop fuel (commaRound close item) ()

/-- A comma and the next item of a tuple; whether there was a comma. -/
def tupleRound (item : P CompletedMarker) : Bool → P (ForInStep Bool) := fun isTuple =>
  branch (·.isAt .comma)
    (do
      bump
      branch (·.isAt .rParen) (pure (.done true)) do
        ignore item
        pure (.yield true))
    (pure (.done isTuple))

/-- A comma and the next item of a list. -/
def listRound (item : P CompletedMarker) : Unit → P (ForInStep Unit) := fun _ => do
  if ← eat .comma then
    branch (·.isAt .rBrack) (pure (.done ())) do
      ignore item
      pure (.yield ())
  else pure (.done ())

/-- `(item)`, `(item, …)` or `()`. -/
def parenOf (fuel : ℕ) (item : P CompletedMarker) (unit tuple paren : SyntaxKind) :
    P CompletedMarker := node do
  bump
  branch (·.isAt .rParen) (do bump; pure unit) do
    let isTuple ← withIndent 0 do
      ignore item
      let isTuple ← loop fuel (tupleRound item) false
      expect .rParen
      pure isTuple
    pure (if isTuple then tuple else paren)

/-- `[item, …]`. -/
def listOf (fuel : ℕ) (item : P CompletedMarker) (kind : SyntaxKind) : P CompletedMarker :=
  node do
    bump
    withIndent 0 do
      branch (·.isAt .rBrack) (pure ()) do
        ignore item
        loop fuel (listRound item) ()
      expect .rBrack
    pure kind

/-! ## Literals -/

def isNum (k : SyntaxKind) : Bool := k == .int || k == .hexInt || k == .float

/-- One character, or a backslash and one character, between quotes. -/
def validCharLiteral : List Char → Bool
  | '\'' :: rest =>
      match rest.reverse with
      | '\'' :: inner =>
          let inner := inner.reverse
          (inner.length == 1 && inner.head? != some '\\') ||
            (inner.length == 2 && inner.head? == some '\\')
      | _ => false
  | _ => false

def closesString : Bool → List Char → Bool
  | _, [] => false
  | true, _ :: cs => closesString false cs
  | false, c :: cs =>
      if c = '\\' then closesString true cs
      else if c = '"' then true
      else closesString false cs

/-- The text has an unescaped closing quote. -/
def isTerminatedString : List Char → Bool
  | '"' :: cs => closesString false cs
  | _ => false

def charErrorMsg : Message := .text
  ("a character literal must contain exactly one character — e.g. `'a'` or an " ++
    "escape like `'\\n'` / `'\\\\'`")

def stringErrorMsg : Message := .text "unterminated string literal — add a closing `\"`"

def badString (p : Parser) : Bool := p.isAt .string && !isTerminatedString p.curText

def badChar (p : Parser) : Bool := !validCharLiteral p.curText

/-! ## Module header and imports -/

def moduleName (fuel : ℕ) : P Unit := ignore <| node do
  expect .upperIdent
  whileLoop fuel (fun p => p.isAt .dot && p.nth 1 == .upperIdent)
    (fun _ => do bump; bump) ()
  pure .moduleName

/-- `..`, or a list of items. -/
def exposedNames (fuel : ℕ) (item : P Unit) : P Unit := do
  if ← eat .dotDot then pure () else commaLoop fuel .rParen item

def exposedCtors (fuel : ℕ) : P Unit := ignore <| node do
  bump
  exposedNames fuel (expect .upperIdent)
  expect .rParen
  pure .exposedCtorList

def exposedItem (fuel : ℕ) : P Unit := do
  match (← get).current with
  | .lowerIdent => ignore (leaf .exposedValue)
  | .upperIdent => ignore <| node do
      bump
      branch (·.isAt .lParen) (exposedCtors fuel) (pure ())
      pure .exposedType
  | .lParen => ignore <| node do
      bump
      branch (·.isAt .rParen) (pure ()) bump
      expect .rParen
      pure .exposedOperator
  | _ => errAndBump (.text "expected an exposed value, type, or operator")

def exposingList (fuel : ℕ) (kind : SyntaxKind) : P Unit := ignore <| node do
  bump
  expect .lParen
  withIndent 0 do
    exposedNames fuel (exposedItem fuel)
    expect .rParen
  pure kind

def moduleHeader (fuel : ℕ) : P Unit := ignore <| node do
  bump
  moduleName fuel
  branch (·.isAt .exposingKw) (exposingList fuel .exposingList) (pure ())
  pure .moduleHeader

def importAlias : P Unit := ignore <| node do
  bump
  branch (fun p => p.isAt .upperIdent || p.isAt .underscore) bump
    (error (.text "expected an alias name after `as`"))
  pure .importAlias

def importDecl (fuel : ℕ) : P Unit := ignore <| node do
  bump
  moduleName fuel
  branch (·.isAt .asKw) importAlias (pure ())
  branch (·.isAt .exposingKw) (exposingList fuel .importExposing) (pure ())
  pure .import

/-! ## Types -/

section

variable (e : Entries)

def typeParen : P CompletedMarker := parenOf e.fuel e.ty .typeUnit .typeTuple .typeParen

def rowVar : P Unit := do
  ignore (leaf .rowVar)
  bump

def typeRecordField : P Unit := ignore <| node do
  expect .lowerIdent
  expect .colon
  ignore e.ty
  pure .typeRecordField

def typeRecord : P CompletedMarker := node do
  bump
  withIndent 0 <| branch (·.isAt .rBrace) bump do
    branch (fun p => p.isAt .lowerIdent && p.nth 1 == .pipe) rowVar (pure ())
    commaLoop e.fuel .rBrace (typeRecordField e)
    expect .rBrace
  pure .typeRecord

def typeAtom : P CompletedMarker := do
  match (← get).current with
  | .lowerIdent => leaf .typeVar
  | .upperIdent => node do
      bump
      let qualified ← dotNames e.fuel
      pure (if qualified then .typeQual else .typeCon)
  | .lParen => typeParen e
  | .lBrace => typeRecord e
  | _ => errorAtom (.text "expected a type")

def atTypeArg (p : Parser) : Bool := p.atAny typeAtomStart && p.atContinuation

def typeApp : P CompletedMarker := do
  let first ← typeAtom e
  branch atTypeArg
    (first.wrap .typeApp (whileLoop e.fuel atTypeArg (fun _ => ignore (typeAtom e)) ()))
    (pure first)

def ty : P CompletedMarker := guarded do
  let lhs ← typeApp e
  branch (fun p => p.isAt .arrow && p.atContinuation)
    (lhs.wrap .typeFun do
      bump
      ignore e.ty)
    (pure lhs)

/-! ## Patterns -/

def patternParen : P CompletedMarker :=
  parenOf e.fuel e.pattern .patUnit .patTuple .patParen

def patternList : P CompletedMarker := listOf e.fuel e.pattern .patList

def patternRecord : P CompletedMarker := node do
  bump
  withIndent 0 do
    commaLoop e.fuel .rBrace (expect .lowerIdent)
    expect .rBrace
  pure .patRecord

/-- `-` abutting a number. -/
def atNegativePattern (p : Parser) : Bool :=
  p.isAt .op && p.curText == ['-'] && !p.nthWsBefore 1 && isNum (p.nth 1)

def patCtor (args : P Unit) : P CompletedMarker := node do
  bump
  let qualified ← dotNames e.fuel
  args
  pure (if qualified then .patCtorQual else .patCtor)

def patternAtom : P CompletedMarker :=
  branch atNegativePattern
    (node do
      bump
      bump
      pure .patNegate) do
    match (← get).current with
    | .underscore => leaf .patWildcard
    | .lowerIdent => leaf .patVar
    | .upperIdent => patCtor e (pure ())
    | .int | .hexInt => leaf .patInt
    | .float => leaf .patFloat
    | .string | .multilineString => checkedLeaf badString stringErrorMsg .patString
    | .char => checkedLeaf badChar charErrorMsg .patChar
    | .trueKw | .falseKw => leaf .patBool
    | .lParen => patternParen e
    | .lBrack => patternList e
    | .lBrace => patternRecord e
    | _ => errorAtom (.text "expected a pattern")

def patternApp : P CompletedMarker :=
  branch (·.isAt .upperIdent)
    (patCtor e
      (whileLoop e.fuel (·.atAny patAtomStart) (fun _ => ignore (patternAtom e)) ()))
    (patternAtom e)

def patternCons : P CompletedMarker := do
  let lhs ← patternApp e
  branch (·.isAt .colon2)
    (lhs.wrap .patCons do
      bump
      ignore e.patternCons)
    (pure lhs)

def pattern : P CompletedMarker := guarded do
  let lhs ← patternCons e
  branch (·.isAt .asKw)
    (lhs.wrap .patAlias do
      bump
      expect .lowerIdent)
    (pure lhs)

/-- The parameters of a binding or lambda, up to `stop`. -/
def paramList (stop : SyntaxKind) : P Unit := ignore <| node do
  whileLoop e.fuel (fun p => p.atAny patAtomStart && !p.isAt stop)
    (fun _ => ignore (patternApp e)) ()
  pure .paramList

/-! ## Operators -/

def binaryOpPrecedence (op : List Char) : ℕ :=
  match String.ofList op with
  | ">>" | "<<" => 9
  | "^" => 8
  | "*" | "/" | "//" | "%" => 7
  | "+" | "-" => 6
  | "++" | "::" => 5
  | "==" | "/=" | "<" | ">" | "<=" | ">=" => 4
  | "&&" => 3
  | "||" => 2
  | "|>" | "<|" => 0
  | _ => 9

/-- The left and right binding powers of the operator at the cursor. -/
def binPower (p : Parser) : ℕ × ℕ :=
  let left (prec : ℕ) : ℕ × ℕ := (prec * 2, prec * 2 + 1)
  let right (prec : ℕ) : ℕ × ℕ := (prec * 2 + 1, prec * 2)
  if p.isAt .colon2 then right (binaryOpPrecedence "::".toList)
  else
    let prec := binaryOpPrecedence p.curText
    match String.ofList p.curText with
    | "<<" | "^" | "++" | "&&" | "||" | "<|" => right prec
    | _ => left prec

/-- The cursor is on the same line, or past the block anchor on a fresh one. -/
def sameBlock (p : Parser) : Bool := !p.newlineBefore || p.blockIndent < p.col

def operatorContinues (p : Parser) : Bool :=
  (p.isAt .op || p.isAt .colon2) && sameBlock p

def isNegativeLiteralArg (p : Parser) : Bool :=
  (p.isAt .op && p.curText == ['-'] && p.wsBefore) &&
    (!p.nthWsBefore 1 && isNum (p.nth 1)) && sameBlock p

def argContinues (p : Parser) : Bool :=
  !p.atEnd && (isNegativeLiteralArg p || (p.atAny argStart && sameBlock p))

/-! ## Expressions -/

def fieldAccess (fuel : ℕ) : CompletedMarker → P CompletedMarker :=
  whileLoop fuel (fun p => p.isAt .dot && !p.wsBefore && p.nth 1 == .lowerIdent)
    (fun cm => cm.wrap .fieldAccess do
      bump
      bump)

/-- The `.name` segments of a qualified reference: a lower-case one is the last. -/
def qualifiedPath (fuel : ℕ) : P Bool :=
  loop fuel (fun qualified =>
    branch (fun p => p.isAt .dot && !p.wsBefore &&
        (p.nth 1 == .lowerIdent || p.nth 1 == .upperIdent))
      (do
        let valueSegment := (← get).nth 1 == .lowerIdent
        bump
        bump
        pure (if valueSegment then .done true else .yield true))
      (pure (.done qualified))) false

def parenExpr : P CompletedMarker :=
  parenOf e.fuel e.expr .unitExpr .tupleExpr .parenExpr

def listExpr : P CompletedMarker := listOf e.fuel e.expr .listExpr

def recordBase : P Unit :=
  branch (·.isAt .upperIdent)
    (do
      bump
      whileLoop e.fuel (fun p => p.isAt .dot && !p.wsBefore &&
          (p.nth 1 == .lowerIdent || p.nth 1 == .upperIdent))
        (fun _ => do bump; bump) ())
    bump

def recordField : P Unit := ignore <| node do
  expect .lowerIdent
  expect .eq
  ignore e.expr
  pure .recordField

def recordUpdateAhead (p : Parser) : Bool :=
  (p.isAt .lowerIdent && p.nth 1 == .pipe) || p.isAt .upperIdent

def recordExpr : P CompletedMarker := node do
  bump
  withIndent 0 <| branch (·.isAt .rBrace) (do bump; pure .recordExpr) do
    let update := recordUpdateAhead (← get)
    onlyIf update do
      recordBase e
      expect .pipe
    commaLoop e.fuel .rBrace (recordField e)
    expect .rBrace
    pure (if update then .recordUpdate else .recordExpr)

def lambdaExpr : P CompletedMarker := node do
  bump
  paramList e .arrow
  expect .arrow
  ignore e.expr
  pure .lambdaExpr

def ifExpr : P CompletedMarker := node do
  bump
  ignore e.expr
  expect .thenKw
  ignore e.expr
  expect .elseKw
  ignore e.expr
  pure .ifExpr

def annotationBinding (anchor : ℕ) : P Unit := ignore <| node do
  bump
  bump
  withIndent anchor (ignore e.ty)
  pure .letBinding

def valueBinding (anchor : ℕ) : P Unit := ignore <| node do
  bump
  paramList e .eq
  expect .eq
  withIndent anchor (ignore e.expr)
  pure .letBinding

def destructureBinding (anchor : ℕ) : P Unit := ignore <| node do
  ignore e.pattern
  expect .eq
  withIndent anchor (ignore e.expr)
  pure .destructureBinding

def letBinding (anchor : ℕ) : P Unit :=
  branch (fun p => p.isAt .lowerIdent && p.nth 1 == .colon) (annotationBinding e anchor) <|
    branch (·.isAt .lowerIdent) (valueBinding e anchor) (destructureBinding e anchor)

/-- One item of a block, unless it stops here; the next one follows if there is more. -/
def siblingRound (stop more : Parser → Bool) (item : P Unit) : Unit → P (ForInStep Unit) :=
  fun _ => branch stop (pure (.done ())) do
    item
    branch more (pure (.yield ())) (pure (.done ()))

def letRound (anchor : ℕ) : Unit → P (ForInStep Unit) :=
  siblingRound (fun p => p.isAt .inKw || p.atEnd)
    (fun p => !p.isAt .inKw && (p.newlineBefore && p.col == anchor)) (letBinding e anchor)

def letExpr : P CompletedMarker := node do
  bump
  let anchor := (← get).col
  branch (fun p => p.isAt .inKw || p.atEnd) (error (.text "expected a let binding")) (pure ())
  loop e.fuel (letRound e anchor) ()
  expect .inKw
  ignore e.expr
  pure .letExpr

def matchArm (patCol : ℕ) : P Unit := ignore <| node do
  ignore e.pattern
  expect .arrow
  let bodyCol := (← get).col
  withIndent (max patCol bodyCol) (ignore e.expr)
  pure .matchArm

def caseRound (anchor : ℕ) : Unit → P (ForInStep Unit) :=
  siblingRound (fun p => p.atEnd || (p.newlineBefore && p.col != anchor))
    (fun p => p.newlineBefore && p.col == anchor) (matchArm e anchor)

def caseExpr : P CompletedMarker := node do
  bump
  ignore e.expr
  expect .ofKw
  let anchor := (← get).col
  branch (·.atEnd) (error (.text "expected a case branch")) (pure ())
  loop e.fuel (caseRound e anchor) ()
  pure .caseExpr

end

section

variable (logos : Logos) (e : Entries)

def multilineLiteral : P CompletedMarker := node do
  multiline logos e.expr
  pure .multilineLiteral

def atom : P CompletedMarker := do
  let p ← get
  match p.current with
  | .int | .hexInt | .float => leaf .literal
  | .string => checkedLeaf badString stringErrorMsg .literal
  | .char => checkedLeaf badChar charErrorMsg .literal
  | .multilineString => multilineLiteral logos e
  | .trueKw | .falseKw => leaf .literal
  | .lowerIdent => leaf .refExpr
  | .upperIdent => node do
      bump
      let qualified ← qualifiedPath e.fuel
      pure (if qualified then .qualRefExpr else .refExpr)
  | .dot => node do
      bump
      expect .lowerIdent
      pure .accessorExpr
  | .op =>
      if p.curText = ['-'] then
        node do
          bump
          ignore e.primaryExpr
          pure .negateExpr
      else errorAtom (.text "expected an expression")
  | .lParen => parenExpr e
  | .lBrack => listExpr e
  | .lBrace => recordExpr e
  | .backslash => lambdaExpr e
  | .ifKw => ifExpr e
  | .letKw => letExpr e
  | .caseKw => caseExpr e
  | _ => errorAtom (.text "expected an expression")

def primaryExpr : P CompletedMarker := do
  let cm ← atom logos e
  fieldAccess e.fuel cm

def negativeArg : P Unit := ignore <| node do
  bump
  ignore (leaf .literal)
  pure .negateExpr

def appExpr : P CompletedMarker := do
  let first ← primaryExpr logos e
  branch argContinues
    (first.wrap .callExpr
      (whileLoop e.fuel argContinues (fun _ =>
        branch isNegativeLiteralArg negativeArg (ignore (primaryExpr logos e))) ()))
    (pure first)

def exprBp (minBp : ℕ) : P CompletedMarker := guarded do
  let lhs ← appExpr logos e
  loop e.fuel (fun lhs =>
    branch operatorContinues
      (do
        let power := binPower (← get)
        if power.1 < minBp then pure (.done lhs)
        else
          let lhs ← lhs.wrap .binExpr do
            bump
            ignore (e.exprBp power.2)
          pure (.yield lhs))
      (pure (.done lhs))) lhs

/-- One round of the loop in `exprBp`. -/
def operatorRound (minBp : ℕ) (lhs : CompletedMarker) : P (ForInStep CompletedMarker) :=
  branch operatorContinues
    (do
      let power := binPower (← get)
      if power.1 < minBp then pure (.done lhs)
      else
        let lhs ← lhs.wrap .binExpr do
          bump
          ignore (e.exprBp power.2)
        pure (.yield lhs))
    (pure (.done lhs))

theorem exprBp_eq (minBp : ℕ) : exprBp logos e minBp =
    guarded (do loop e.fuel (operatorRound e minBp) (← appExpr logos e)) := rfl

end

/-- The productions with `n` levels of recursion. -/
def entries (logos : Logos) : ℕ → Entries
  | 0 =>
      { fuel := 1
        ty := fun _ => none
        pattern := fun _ => none
        patternCons := fun _ => none
        exprBp := fun _ _ => none
        primaryExpr := fun _ => none }
  | n + 1 =>
      let e := entries logos n
      { fuel := n + 2
        ty := ty e
        pattern := pattern e
        patternCons := patternCons e
        exprBp := exprBp logos e
        primaryExpr := primaryExpr logos e }

/-! ## Declarations -/

section

variable (e : Entries)

def variant : P Unit := ignore <| node do
  expect .upperIdent
  whileLoop e.fuel (fun p => p.atAny typeAtomStart && p.atContinuation && !p.isAt .pipe)
    (fun _ => ignore (typeAtom e)) ()
  pure .unionVariant

def unionVariants : P Unit := ignore <| node do
  variant e
  whileLoop e.fuel (fun p => p.isAt .pipe && p.atContinuation)
    (fun _ => do bump; variant e) ()
  pure .unionVariantList

def typeVarList : P Unit := ignore <| node do
  whileLoop e.fuel (·.isAt .lowerIdent) (fun _ => bump) ()
  pure .typeVarList

def typeDecl : P Unit := ignore <| node do
  bump
  if ← eat .aliasKw then do
    expect .upperIdent
    typeVarList e
    expect .eq
    withIndent 1 (ignore e.ty)
    pure .aliasDecl
  else do
    expect .upperIdent
    typeVarList e
    expect .eq
    withIndent 1 (unionVariants e)
    pure .unionDecl

def valueOrAnno : P Unit := ignore <| node do
  bump
  branch (·.isAt .colon)
    (do
      bump
      withIndent 1 (ignore e.ty)
      pure .typeAnnoDecl)
    (do
      paramList e .eq
      expect .eq
      let bodyCol := (← get).col
      withIndent bodyCol (ignore e.expr)
      pure .valueDecl)

def decl : P Unit := do
  match (← get).current with
  | .typeKw => typeDecl e
  | .lowerIdent | .upperIdent => valueOrAnno e
  | _ => errAndBump (.text "expected a declaration")

/-- One round of the top-level loop, not at the end of the input. -/
def topLevel : P Unit :=
  branch (·.atAny declStart) (decl e) <|
    branch (·.atBlockBoundary) (errAndBump (.text "expected a declaration"))
      (errRecover e.fuel (.text "expected a declaration") declStart)

def sourceFile : P Unit := ignore <| node do
  beginUnit
  branch (·.isAt .moduleKw) (moduleHeader e.fuel) (pure ())
  beginUnit
  whileLoop e.fuel (·.isAt .importKw) (fun _ => do importDecl e.fuel; beginUnit) ()
  withIndent 1 <| loop e.fuel (fun _ => do
    beginUnit
    branch (·.atEnd) (pure (.done ())) do
      topLevel e
      pure (.yield ())) ()
  pure .sourceFile

end

/-! ## Lexical units -/

def textAt (src : List Char) (toks : List PToken) (i : ℕ) : Option (List Char) :=
  (toks[i]?).map fun t => slice src t.start t.stop

def kindAt (toks : List PToken) (i : ℕ) : Option SyntaxKind := (toks[i]?).map (·.kind)

def onSameLine (toks : List PToken) (i : ℕ) : Option PToken :=
  (toks[i]?).filter fun t => !t.newlineBefore

/-- A line at column 1 whose first token `t`, at `i`, is a keyword that cannot begin a
unit reads as a declaration named by it. `units` are the unit starts before `i`. -/
def keywordNamesADeclaration (logos : Logos) (fuel : ℕ) (src : List Char)
    (toks : List PToken) (units : List ℕ) (i : ℕ) (t : PToken) : Option Bool :=
  if !nameOnlyKeywords.contains t.kind then some false
  else
    let names := (toks.drop (i + 1)).takeWhile fun t =>
      !t.newlineBefore && (t.kind == .lowerIdent || t.kind == .underscore)
    let j := i + 1 + names.length
    match (onSameLine toks j).filter fun t => t.kind == .eq || t.kind == .colon with
    | none => some false
    | some stop =>
        let aliasTail := t.kind == .asKw && j == i + 2 &&
          kindAt toks (i + 1) == some .lowerIdent && stop.kind == .eq
        if !aliasTail then some true
        else
          match units.getLast? with
          | none => some true
          | some first =>
              let lineEnd := j + 1 + (toks.drop (j + 1)).findIdx (·.newlineBefore)
              let unit := (toks.take lineEnd).drop first
              (sourceFile (entries logos fuel) (Parser.new src unit)).map fun done =>
                done.2.sites.any fun s => s.pos ≤ j - first

/-- Whether the token at `i` begins a line that can begin a unit. -/
def lineStart (logos : Logos) (fuel : ℕ) (src : List Char) (toks : List PToken)
    (units : List ℕ) (i : ℕ) (t : PToken) : Option Bool :=
  let col1 := t.newlineBefore && t.col == 1
  if i == 0 || (col1 && unitStart.contains t.kind) then some true
  else if col1 then keywordNamesADeclaration logos fuel src toks units i t
  else some false

/-- The line at `i` is the definition that follows its own annotation. -/
def continuesAnnotation (src : List Char) (toks : List PToken) (units : List ℕ) (i : ℕ) :
    Bool :=
  match units.getLast? with
  | none => false
  | some prev =>
      kindAt toks (prev + 1) == some .colon && textAt src toks prev == textAt src toks i &&
        kindAt toks (i + 1) != some .colon

/-- The unit starts among the tokens from `i` on, after the starts `units`. -/
def lexicalUnitsFrom (logos : Logos) (fuel : ℕ) (src : List Char) (toks : List PToken) :
    List PToken → ℕ → List ℕ → Option (List ℕ)
  | [], _, units => some units
  | t :: rest, i, units => do
      let begins ← lineStart logos fuel src toks units i t
      if !begins || continuesAnnotation src toks units i then
        lexicalUnitsFrom logos fuel src toks rest (i + 1) units
      else lexicalUnitsFrom logos fuel src toks rest (i + 1) (units ++ [i])

/-- Split the tokens into lexical units. -/
def lexicalUnits (logos : Logos) (fuel : ℕ) (src : List Char) (toks : List PToken) :
    Option (List ℕ) :=
  lexicalUnitsFrom logos fuel src toks toks 0 []

/-- A parser over a whole file. -/
def Parser.newFile (logos : Logos) (fuel : ℕ) (src : List Char) (toks : List PToken) :
    Option Parser :=
  (lexicalUnits logos fuel src toks).map (Parser.withUnits src toks)

/-! ## Parse -/

/-- What a parse of a file yields: its tree and the diagnostics the parser raised. -/
structure Parse where
  green : Green
  errors : List Diagnostic

/-- Run the grammar over a file; the final state. -/
def runGrammar (logos : Logos) (fuel : ℕ) (src : List Char) (toks : List PToken) :
    Option Parser := do
  let p ← Parser.newFile logos fuel src toks
  let done ← sourceFile (entries logos fuel) p
  pure done.2

/-- Parse a source into a tree. -/
def parse (logos : Logos) (fuel : ℕ) (src : List Char) : Option Parse := do
  let raw := lex logos src
  let done ← runGrammar logos fuel src (layout src raw)
  let green ← buildTree src raw done.events
  pure { green := green, errors := done.diags }

/-- The texts of all leaves in order. -/
def Parse.reprint (p : Parse) : List Char := p.green.text

end Sky.Syntax
