import Sky.Library.FairSplit

/-! # Splitting an amount of money

Decimals are those of a library: its operations are a parameter. -/

namespace Sky.Money

open Library.FairSplit

/-- What a split uses of the decimal library. `value`: the number that a decimal stands for. -/
structure Decimals (D : Type) where
  value : D → ℚ
  exponent : D → ℤ
  newFromInt : ℤ → D
  add : D → D → D
  sub : D → D → D
  mul : D → D → D
  div : D → D → D
  shift : D → ℤ → D
  truncate : D → D
  intPart : D → ℤ
  zero : D
  exponent_zero : exponent zero = 1

/-- The digits after the point to which a quotient is rounded. -/
def divisionPrecision : ℕ := 16

/-- The arithmetic is exact, but for the quotient; `truncate` is to no digits after the point. -/
structure Decimals.Lawful {D : Type} (dec : Decimals D) : Prop where
  newFromInt : ∀ n, dec.value (dec.newFromInt n) = n
  add : ∀ a b, dec.value (dec.add a b) = dec.value a + dec.value b
  sub : ∀ a b, dec.value (dec.sub a b) = dec.value a - dec.value b
  mul : ∀ a b, dec.value (dec.mul a b) = dec.value a * dec.value b
  div : ∀ a b, dec.value b ≠ 0 →
    dec.value (dec.div a b) = roundTo divisionPrecision (dec.value a / dec.value b)
  shift : ∀ a n, dec.value (dec.shift a n) = dec.value a * 10 ^ n
  truncate : ∀ a, dec.value (dec.truncate a) = trunc (dec.value a)
  intPart : ∀ a, |trunc (dec.value a)| < 2 ^ 63 → dec.intPart a = trunc (dec.value a)
  exponent_newFromInt : ∀ n, dec.exponent (dec.newFromInt n) = 0
  exponent_add : ∀ a b, dec.exponent (dec.add a b) = min (dec.exponent a) (dec.exponent b)
  exponent_sub : ∀ a b, dec.exponent (dec.sub a b) = min (dec.exponent a) (dec.exponent b)
  exponent_div : ∀ a b, dec.exponent (dec.div a b) = -divisionPrecision
  exponent_shift : ∀ a n, dec.exponent (dec.shift a n) = dec.exponent a + n
  exponent_truncate : ∀ a, dec.exponent (dec.truncate a) = max (dec.exponent a) 0

def decimalExponentMax : ℤ := 100000

/-- The most parts of a split. -/
def moneyAllocateMaxParts : ℤ := 10000000

variable {D : Type} (dec : Decimals D)

/-- A `Decimal` of the language: a decimal whose exponent is in range. -/
structure Boxed where
  decimal : D
  inRange : |dec.exponent decimal| ≤ decimalExponentMax

variable {dec} in
def Boxed.value (b : Boxed dec) : ℚ := dec.value b.decimal

def decimalBox (d : D) : Except String (Boxed dec) :=
  if h : |dec.exponent d| ≤ decimalExponentMax then .ok ⟨d, h⟩
  else if dec.value d = 0 then .ok ⟨dec.zero, by rw [dec.exponent_zero]; decide⟩
  else
    .error s!"rt.Decimal.range: a Decimal with exponent {dec.exponent d} is outside the Decimal range (exponent -{decimalExponentMax} to {decimalExponentMax})"

def decimalPlaces (op : String) (n : ℤ) : Except String ℤ :=
  if n > decimalExponentMax ∨ n < -decimalExponentMax then
    .error s!"rt.Decimal.range: {op}: {n} decimal places is outside the range -{decimalExponentMax} to {decimalExponentMax}"
  else .ok n

/-- Part `i`, in major units. -/
def part (places sign : ℤ) (nResidue : ℕ) (base subMinor : D) (i : ℕ) : D :=
  let share := if i < nResidue then dec.add base (dec.newFromInt sign) else base
  let major := dec.shift share (-places)
  if i = 0 then dec.add major subMinor else major

def allocateParts (places : ℤ) (parts : ℕ) (amount : D) : Except String (List (Boxed dec)) :=
  let totalMinor := dec.truncate (dec.shift amount places)
  let subMinor := dec.sub amount (dec.shift totalMinor (-places))
  let partsDec := dec.newFromInt parts
  let base := dec.truncate (dec.div totalMinor partsDec)
  let remInt := dec.intPart (dec.sub totalMinor (dec.mul base partsDec))
  let sign := if remInt < 0 then -1 else 1
  (List.range parts).mapM fun i => decimalBox dec (part dec places sign remInt.natAbs base subMinor i)

def allocate (places parts : ℤ) (amount : Boxed dec) : Except String (List (Boxed dec)) := do
  let places ← decimalPlaces "Money.allocate" places
  if parts ≤ 0 then
    .error s!"rt.Money.allocate: {parts} parts: an amount is split into one part or more"
  else if parts > moneyAllocateMaxParts then
    .error s!"rt.Decimal.range: Money.allocate: {parts} parts is more than the {moneyAllocateMaxParts} parts a split can have"
  else allocateParts dec places parts.toNat amount.decimal

end Sky.Money
