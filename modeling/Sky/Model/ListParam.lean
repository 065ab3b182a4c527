import Sky.Model.Strconv

/-! # One parameter for a whole value list

A list placeholder takes the values of its mark as one argument: the text of a PostgreSQL array
literal, or of a JSON array. -/

namespace Sky.ListParam

open Strconv

abbrev Bytes := List Byte

/-! ## Regrouping the arguments -/

/-- A parsed list mark: `parseListMark` reads a positive int. -/
structure ListMark where
  n : ℕ
  reals : Bool
  int : Bool
  table : Bytes
  col : Bytes
  pos : 1 ≤ n
  lt : n < 2 ^ 63

abbrev Marks := AList fun _ : ℕ => ListMark

/-- The value of an int that may have overflowed. -/
def toInt64 (i : ℤ) : ℤ := i.bmod (2 ^ 64)

variable {α : Type}

/-- How the loop of `collapseListArgs` ends; a slice out of range panics. -/
inductive Loop (α : Type) where
  | collapsed (out : List α)
  | unchanged
  | panics

/-- The loop of `collapseListArgs`, from placeholder `p` and argument `a` on. Each round takes an
argument, so that `fuel` is the arguments that are left. -/
def collapseLoop (marks : Marks) (args : List α) (build : ListMark → List α → Option α) :
    ℕ → (p a : ℕ) → (out : List α) → Loop α
  | 0, _, _, out => .collapsed out
  | fuel + 1, p, a, out =>
      match args[a]? with
      | none => .collapsed out
      | some x =>
          match marks.lookup p with
          | none => collapseLoop marks args build fuel (p + 1) (a + 1) (out ++ [x])
          | some m =>
              if (args.length : ℤ) < toInt64 (a + m.n) then .unchanged
              else if toInt64 (a + m.n) < a then .panics
              else
                match build m ((args.take (toInt64 (a + m.n)).toNat).drop a) with
                | none => .unchanged
                | some v => collapseLoop marks args build fuel (p + 1) (a + m.n) (out ++ [v])

/-- `collapseListArgs`; `none` is a panic. -/
def collapseListArgs (marks : Marks) (args : List α) (build : ListMark → List α → Option α) :
    Option (List α) :=
  if marks.keys = [] then some args
  else
    match collapseLoop marks args build args.length 0 0 [] with
    | .panics => none
    | .unchanged => some args
    | .collapsed out => if marks.keys.any (out.length ≤ ·) then some args else some out

/-! ## Values -/

/-- A Go value to bind; a float is its bits, and `other` is of any other type. -/
inductive Arg where
  | nil
  | int64 (i : ℤ)
  | int (i : ℤ)
  | float64 (bits : UInt64)
  | bool (b : Bool)
  | string (s : Bytes)
  | other

/-- `int64(bits>>52) & 0x7ff` -/
def biased (bits : UInt64) : ℕ := (bits >>> 52).toNat &&& 0x7ff

def fraction (bits : UInt64) : ℕ := (bits &&& ((1 : UInt64) <<< 52 - 1)).toNat

def isNegative (bits : UInt64) : Bool := bits >>> 63 != 0

/-- `math.IsNaN` or `math.IsInf` -/
def isFinite (bits : UInt64) : Bool := biased bits != 0x7ff

/-- `floatSignificand` -/
def floatSignificand (bits : UInt64) : ℤ × ℤ :=
  let (m, e) : ℕ × ℤ :=
    if biased bits ≠ 0 then (fraction bits ||| 1 <<< 52, biased bits - 1075)
    else (fraction bits, -1074)
  (if isNegative bits then -(m : ℤ) else m, e)

/-- The number that the bits of a finite float64 stand for. -/
def magnitude (bits : UInt64) : ℚ :=
  if biased bits = 0 then fraction bits / 2 ^ 52 * 2 ^ (-1022 : ℤ)
  else (1 + fraction bits / 2 ^ 52) * 2 ^ ((biased bits : ℤ) - 1023)

def floatValue (bits : UInt64) : ℚ :=
  if isNegative bits then -magnitude bits else magnitude bits

/-- `strconv.FormatFloat(x, 'g', -1, 64)` -/
def formatFloat64 (bits : UInt64) : Bytes :=
  if isFinite bits then
    (if isNegative bits then [ch '-'] else []) ++ formatFloat float64 (magnitude bits)
  else if fraction bits = 0 then
    (if isNegative bits then ch '-' else ch '+') :: [ch 'I', ch 'n', ch 'f']
  else [ch 'N', ch 'a', ch 'N']

def formatBool (b : Bool) : Bytes :=
  if b then [ch 't', ch 'r', ch 'u', ch 'e'] else [ch 'f', ch 'a', ch 'l', ch 's', ch 'e']

/-! ## PostgreSQL -/

/-- The text of an element of an array literal, or nil for a nil; `none` refuses the value. -/
def elementText : Arg → Option (Option Bytes)
  | .nil => some none
  | .int64 i => some (some (formatInt i))
  | .int i => some (some (formatInt i))
  | .float64 x => if isFinite x then some (some (formatFloat64 x)) else none
  | .bool b => some (some (formatBool b))
  | .string s => some (some s)
  | .other => none

/-- A quoted element without its quotes. -/
def escapeElement (t : Bytes) : Bytes :=
  t.flatMap fun b => if b = ch '"' ∨ b = ch '\\' then [ch '\\', b] else [b]

def writeElement : Option Bytes → Bytes
  | none => [ch 'N', ch 'U', ch 'L', ch 'L']
  | some t => ch '"' :: (escapeElement t ++ [ch '"'])

/-- The loop of `pgArrayLiteral`, from value `i` on. -/
def pgElements (i : ℕ) : List Arg → Option Bytes
  | [] => some []
  | v :: vals => do
      let t ← elementText v
      let rest ← pgElements (i + 1) vals
      some ((if 0 < i then [ch ','] else []) ++ writeElement t ++ rest)

def pgArrayLiteral (vals : List Arg) : Option Bytes := do
  some (ch '{' :: (← pgElements 0 vals) ++ [ch '}'])

/-! ## SQLite -/

def sqliteLegacyText : Arg → Arg
  | .bool b => .string (formatBool b)
  | .float64 x => .string (formatFloat64 x)
  | .int64 i => .string (formatInt i)
  | .int i => .string (formatInt i)
  | v => v

/-- The digits of `hex`. -/
def hex (d : ℕ) : Byte := if d < 10 then Fin.ofNat 256 (48 + d) else Fin.ofNat 256 (87 + d)

/-- A byte of `writeJSONStringRaw` -/
def jsonByte (c : Byte) : Bytes :=
  if c = ch '"' ∨ c = ch '\\' then [ch '\\', c]
  else if c.val < 0x20 then [ch '\\', ch 'u', ch '0', ch '0', hex (c.val / 16), hex (c.val % 16)]
  else [c]

def writeJSONStringRaw (s : Bytes) : Bytes := ch '"' :: (s.flatMap jsonByte ++ [ch '"'])

/-- The text of a value of `sqliteListJSON`; `none` refuses it. -/
def jsonText (reals : Bool) : Arg → Option Bytes
  | .nil => some [ch 'n', ch 'u', ch 'l', ch 'l']
  | .int64 i => some (formatInt i)
  | .int i => some (formatInt i)
  | .float64 x =>
      if !isFinite x then none
      else if reals then
        let (m, e) := floatSignificand x
        some (ch '[' :: formatInt m ++ ch ',' :: formatInt e ++ [ch ']'])
      else some (formatFloat64 x)
  | .bool b => some (formatBool b)
  | .string s => some (writeJSONStringRaw s)
  | .other => none

/-- The loop of `sqliteListJSON`, from value `i` on. -/
def sqliteElements (reals legacyText : Bool) (i : ℕ) : List Arg → Option Bytes
  | [] => some []
  | v :: vals => do
      let t ← jsonText reals (if legacyText then sqliteLegacyText v else v)
      let rest ← sqliteElements reals legacyText (i + 1) vals
      some ((if 0 < i then [ch ','] else []) ++ t ++ rest)

def sqliteListJSON (vals : List Arg) (reals legacyText : Bool) : Option Bytes := do
  some (ch '[' :: (← sqliteElements reals legacyText 0 vals) ++ [ch ']'])

end Sky.ListParam
