import Sky.Library.Bytes

/-! # Decimal text of numbers, as `strconv` writes it -/

namespace Sky.Strconv

/-- A Go string is a list of bytes. -/
abbrev Byte := Fin 256

def ch (c : Char) : Byte := Fin.ofNat 256 c.toNat

def digit (d : ℕ) : Byte := Fin.ofNat 256 (48 + d)

/-! ## Integers -/

def formatNat (n : ℕ) : List Byte :=
  if n = 0 then [ch '0'] else (Nat.digits 10 n).reverse.map digit

def formatInt (i : ℤ) : List Byte :=
  if i < 0 then ch '-' :: formatNat i.natAbs else formatNat i.natAbs

/-! ## Floating-point formats -/

/-- A binary format: the bits of a significand and the least and greatest exponents. -/
structure FloatFormat where
  prec : ℕ
  emin : ℤ
  emax : ℤ

def float64 : FloatFormat := ⟨53, -1074, 1024⟩

def float32 : FloatFormat := ⟨24, -149, 128⟩

def roundHalfEven (q : ℚ) : ℤ :=
  let f := ⌊q⌋
  if q - f < 1 / 2 then f
  else if 1 / 2 < q - f then f + 1
  else if f % 2 = 0 then f
  else f + 1

/-- The number of the format that is nearest to a magnitude. -/
def FloatFormat.round (F : FloatFormat) (q : ℚ) : ℚ :=
  if q = 0 then 0
  else
    let e := max F.emin (Int.log 2 q - (F.prec - 1))
    roundHalfEven (q / 2 ^ e) * 2 ^ e

/-- A finite Go float: a number of its format. Zero stands for both of its signs. -/
structure GoFloat where
  narrow : Bool
  val : ℚ
  exact : (if narrow then float32 else float64).round |val| = |val|
  finite : |val| < 2 ^ (if narrow then float32 else float64).emax

def GoFloat.format (f : GoFloat) : FloatFormat := if f.narrow then float32 else float64

/-! ## The shortest decimal that reads back -/

/-- The decimal `0.d₁d₂… × 10^point`. -/
structure Decimal where
  digits : List ℕ
  point : ℤ
  deriving DecidableEq

/-- The decimal `D × 10^e`, without its trailing zeros. -/
def decimalOf (D : ℕ) (e : ℤ) : Decimal :=
  let ds := Nat.digits 10 D
  { digits := (ds.dropWhile (· = 0)).reverse, point := ds.length + e }

/-- The decimal with `n` digits that reads back as `q`, the nearer one where two do. -/
def candidate (F : FloatFormat) (q : ℚ) (n : ℕ) : Option (ℕ × ℤ) :=
  let e := Int.log 10 q + 1 - n
  let x := q / 10 ^ e
  let okDown := F.round (⌊x⌋₊ * 10 ^ e) = q
  let okUp := F.round (⌈x⌉₊ * 10 ^ e) = q
  if okDown ∧ okUp then
    some (if x - ⌊x⌋₊ < 1 / 2 then ⌊x⌋₊ else if 1 / 2 < x - ⌊x⌋₊ then ⌈x⌉₊
      else if ⌊x⌋₊ % 2 = 0 then ⌊x⌋₊ else ⌈x⌉₊, e)
  else if okDown then some (⌊x⌋₊, e)
  else if okUp then some (⌈x⌉₊, e)
  else none

/-- All the digits of a dyadic number. -/
def allDigits (q : ℚ) : ℕ × ℤ := (q.num.natAbs * 5 ^ Nat.log 2 q.den, -Nat.log 2 q.den)

/-- The fewest digits that read back as the positive number `q`; seventeen always do. -/
def roundShortest (F : FloatFormat) (q : ℚ) : ℕ × ℤ :=
  ((List.range 17).findSome? fun n => candidate F q (n + 1)).getD (allDigits q)

/-! ## Layout -/

/-- `%e` with all digits. -/
def fmtE (d : Decimal) : List Byte :=
  let exp := d.point - 1
  [digit (d.digits.headD 0)] ++
    (if d.digits.tail = [] then [] else ch '.' :: d.digits.tail.map digit) ++
    [ch 'e', if exp < 0 then ch '-' else ch '+'] ++
    (if exp.natAbs < 10 then ch '0' :: formatNat exp.natAbs else formatNat exp.natAbs)

/-- The digits before the point of `%f`. -/
def intDigits (d : Decimal) : List ℕ :=
  if 0 < d.point then
    d.digits.take d.point.toNat ++ List.replicate (d.point.toNat - d.digits.length) 0
  else [0]

/-- The digits after it. -/
def fracDigits (d : Decimal) : List ℕ :=
  if 0 < d.point then d.digits.drop d.point.toNat
  else List.replicate (-d.point).toNat 0 ++ d.digits

/-- `%f` with all digits. -/
def fmtF (d : Decimal) : List Byte :=
  (intDigits d).map digit ++
    if fracDigits d = [] then [] else ch '.' :: (fracDigits d).map digit

/-- `%g`: the exponent form from an exponent of six on, and below minus four. -/
def fmtG (d : Decimal) : List Byte :=
  let exp := d.point - 1
  if exp < -4 ∨ 6 ≤ exp then fmtE d else fmtF d

def formatFloat (F : FloatFormat) (q : ℚ) : List Byte :=
  if q = 0 then [ch '0']
  else
    let (D, e) := roundShortest F |q|
    (if q < 0 then [ch '-'] else []) ++ fmtG (decimalOf D e)

end Sky.Strconv
