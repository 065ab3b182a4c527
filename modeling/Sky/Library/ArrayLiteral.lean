import Sky.Library.Bytes

/-! # PostgreSQL array literals

A reader of one-dimensional array literals: elements between braces, quoted or not, where a
backslash takes the next byte as it is and an unquoted `NULL` is no element. -/

namespace Sky.Library.ArrayLiteral

abbrev Text := List (Fin 256)

def isSpace (b : Fin 256) : Bool := b = 0x20 || (9 ≤ b.val && b.val ≤ 13)

def skip (s : Text) : Text := s.dropWhile isSpace

/-- The rest of a quoted element, behind its opening quote. -/
def readQuoted : Text → Option (Text × Text)
  | [] => none
  | 0x22 :: s => some ([], s)
  | 0x5C :: b :: s => do
      let (t, s) ← readQuoted s
      some (b :: t, s)
  | 0x5C :: [] => none
  | b :: s => do
      let (t, s) ← readQuoted s
      some (b :: t, s)

/-- An unquoted element, each byte with whether it was escaped, up to the byte that ends it. -/
def readPlain : Text → Option (List (Fin 256 × Bool) × Text)
  | [] => none
  | 0x2C :: s => some ([], 0x2C :: s)
  | 0x7D :: s => some ([], 0x7D :: s)
  | 0x22 :: _ => none
  | 0x7B :: _ => none
  | 0x5C :: b :: s => do
      let (t, s) ← readPlain s
      some ((b, true) :: t, s)
  | 0x5C :: [] => none
  | b :: s => do
      let (t, s) ← readPlain s
      some ((b, false) :: t, s)

def upper (b : Fin 256) : Fin 256 := if 97 ≤ b.val ∧ b.val ≤ 122 then b - 32 else b

/-- An unquoted element without the blanks behind it. -/
def plain (t : List (Fin 256 × Bool)) : Option (Option Text) :=
  let t := (t.reverse.dropWhile fun p => isSpace p.1 && !p.2).reverse
  if t = [] then none
  else if t.all (fun p => !p.2) ∧ t.map (upper ·.1) = [0x4E, 0x55, 0x4C, 0x4C] then some none
  else some (some (t.map Prod.fst))

def readElement (s : Text) : Option (Option Text × Text) :=
  match skip s with
  | 0x22 :: s => do
      let (t, s) ← readQuoted s
      some (some t, s)
  | s => do
      let (t, s) ← readPlain s
      some (← plain t, s)

def readElements : ℕ → Text → Option (List (Option Text) × Text)
  | 0, _ => none
  | n + 1, s => do
      let (e, s) ← readElement s
      match skip s with
      | 0x2C :: s => do
          let (es, s) ← readElements n s
          some (e :: es, s)
      | 0x7D :: s => some ([e], s)
      | _ => none

def read (s : Text) : Option (List (Option Text)) :=
  match skip s with
  | 0x7B :: s =>
      match skip s with
      | 0x7D :: rest => if skip rest = [] then some [] else none
      | s =>
          match readElements (s.length + 1) s with
          | some (es, rest) => if skip rest = [] then some es else none
          | none => none
  | _ => none

end Sky.Library.ArrayLiteral
