import Sky.Library.Bytes

/-! # JSON text

A reader of the JSON grammar over bytes. A number stands for a rational; a string for its bytes,
with an escape read as the UTF-8 of its code point. -/

namespace Sky.Library.JsonText

abbrev Text := List (Fin 256)

inductive Value where
  | null
  | bool (b : Bool)
  | number (q : ℚ)
  | string (s : Text)
  | array (vs : List Value)
  | object (ms : List (Text × Value))

/-! ## Numbers -/

def isDigit (b : Fin 256) : Bool := 48 ≤ b.val && b.val ≤ 57

def natOf (ds : Text) : ℕ := ds.foldl (fun n b => 10 * n + (b.val - 48)) 0

/-- The digits that a text begins with, at least one. -/
def readDigits (s : Text) : Option (Text × Text) :=
  if s.takeWhile isDigit = [] then none else some (s.span isDigit)

def readFraction : Text → Option (Text × Text)
  | 0x2E :: s => readDigits s
  | s => some ([], s)

def readSign : Text → Bool × Text
  | 0x2D :: s => (true, s)
  | 0x2B :: s => (false, s)
  | s => (false, s)

def readExponent : Text → Option (ℤ × Text)
  | 0x65 :: s | 0x45 :: s => do
      let (neg, s) := readSign s
      let (ds, s) ← readDigits s
      some (if neg then -natOf ds else natOf ds, s)
  | s => some (0, s)

/-- A number without its sign. The integer part has no leading zero. -/
def readUnsigned (s : Text) : Option (ℚ × Text) := do
  let (ds, s) ← readDigits s
  if ds.head? = some 0x30 ∧ ds.length ≠ 1 then none
  else do
    let (frac, s) ← readFraction s
    let (exp, s) ← readExponent s
    some (natOf (ds ++ frac) * 10 ^ (exp - frac.length), s)

def readNumber : Text → Option (ℚ × Text)
  | 0x2D :: s => do
      let (q, s) ← readUnsigned s
      some (-q, s)
  | s => readUnsigned s

/-! ## Strings -/

def hexValue (b : Fin 256) : Option ℕ :=
  if 48 ≤ b.val ∧ b.val ≤ 57 then some (b.val - 48)
  else if 97 ≤ b.val ∧ b.val ≤ 102 then some (b.val - 87)
  else if 65 ≤ b.val ∧ b.val ≤ 70 then some (b.val - 55)
  else none

def codeUnit (a b c d : Fin 256) : Option ℕ := do
  some (((← hexValue a) * 16 + (← hexValue b)) * 256 + ((← hexValue c) * 16 + (← hexValue d)))

/-- The UTF-8 of a code point. -/
def utf8 (c : ℕ) : Text :=
  if c < 0x80 then [Fin.ofNat 256 c]
  else if c < 0x800 then [Fin.ofNat 256 (0xC0 + c / 64), Fin.ofNat 256 (0x80 + c % 64)]
  else if c < 0x10000 then
    [Fin.ofNat 256 (0xE0 + c / 4096), Fin.ofNat 256 (0x80 + c / 64 % 64),
      Fin.ofNat 256 (0x80 + c % 64)]
  else
    [Fin.ofNat 256 (0xF0 + c / 262144), Fin.ofNat 256 (0x80 + c / 4096 % 64),
      Fin.ofNat 256 (0x80 + c / 64 % 64), Fin.ofNat 256 (0x80 + c % 64)]

/-- What a two-character escape stands for. -/
def escape (b : Fin 256) : Option (Fin 256) :=
  match b with
  | 0x22 => some 0x22
  | 0x5C => some 0x5C
  | 0x2F => some 0x2F
  | 0x62 => some 0x08
  | 0x66 => some 0x0C
  | 0x6E => some 0x0A
  | 0x72 => some 0x0D
  | 0x74 => some 0x09
  | _ => none

/-- The low half of a surrogate pair, if one follows. -/
def readLow : Text → Option (ℕ × Text)
  | 0x5C :: 0x75 :: a :: b :: c :: d :: s => do
      let u ← codeUnit a b c d
      if 0xDC00 ≤ u ∧ u < 0xE000 then some (u, s) else none
  | _ => none

/-- The rest of a string, behind its opening quote. -/
def readChars : ℕ → Text → Option (Text × Text)
  | 0, _ => none
  | _ + 1, [] => none
  | _ + 1, 0x22 :: s => some ([], s)
  | n + 1, 0x5C :: 0x75 :: a :: b :: c :: d :: s => do
      let u ← codeUnit a b c d
      let (p, s) ← if 0xD800 ≤ u ∧ u < 0xDC00 then do
          let (v, s) ← readLow s
          some (0x10000 + (u - 0xD800) * 1024 + (v - 0xDC00), s)
        else if 0xDC00 ≤ u ∧ u < 0xE000 then none
        else some (u, s)
      let (t, s) ← readChars n s
      some (utf8 p ++ t, s)
  | n + 1, 0x5C :: b :: s => do
      let c ← escape b
      let (t, s) ← readChars n s
      some (c :: t, s)
  | n + 1, b :: s =>
      if b.val < 0x20 then none
      else do
        let (t, s) ← readChars n s
        some (b :: t, s)

/-! ## Values -/

def skip (s : Text) : Text := s.dropWhile fun b => b = 0x20 || b = 0x09 || b = 0x0A || b = 0x0D

mutual

def readValue : ℕ → Text → Option (Value × Text)
  | 0, _ => none
  | n + 1, s =>
      match skip s with
      | 0x6E :: 0x75 :: 0x6C :: 0x6C :: s => some (.null, s)
      | 0x74 :: 0x72 :: 0x75 :: 0x65 :: s => some (.bool true, s)
      | 0x66 :: 0x61 :: 0x6C :: 0x73 :: 0x65 :: s => some (.bool false, s)
      | 0x22 :: s => do
          let (t, s) ← readChars (s.length + 1) s
          some (.string t, s)
      | 0x5B :: s =>
          match skip s with
          | 0x5D :: s => some (.array [], s)
          | s => do
              let (vs, s) ← readElements n s
              some (.array vs, s)
      | 0x7B :: s =>
          match skip s with
          | 0x7D :: s => some (.object [], s)
          | s => do
              let (ms, s) ← readMembers n s
              some (.object ms, s)
      | s => do
          let (q, s) ← readNumber s
          some (.number q, s)

def readElements : ℕ → Text → Option (List Value × Text)
  | 0, _ => none
  | n + 1, s => do
      let (v, s) ← readValue n s
      match skip s with
      | 0x2C :: s => do
          let (vs, s) ← readElements n s
          some (v :: vs, s)
      | 0x5D :: s => some ([v], s)
      | _ => none

def readMembers : ℕ → Text → Option (List (Text × Value) × Text)
  | 0, _ => none
  | n + 1, s =>
      match skip s with
      | 0x22 :: s => do
          let (k, s) ← readChars (s.length + 1) s
          match skip s with
          | 0x3A :: s => do
              let (v, s) ← readValue n s
              match skip s with
              | 0x2C :: s => do
                  let (ms, s) ← readMembers n s
                  some ((k, v) :: ms, s)
              | 0x7D :: s => some ([(k, v)], s)
              | _ => none
          | _ => none
      | _ => none

end

def read (s : Text) : Option Value :=
  match readValue (s.length + 1) s with
  | some (v, rest) => if skip rest = [] then some v else none
  | none => none

end Sky.Library.JsonText
