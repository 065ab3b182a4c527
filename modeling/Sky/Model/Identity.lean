import Sky.Model.Strconv

/-! # The identity key of a value -/

namespace Sky.Identity

open Sky.Strconv

abbrev Bytes := List Byte

/-- What a Go struct type that is no union stands for. -/
inductive StructType where
  | unit
  | tuple
  | record (names : List Bytes)
  deriving DecidableEq

/-- A Go value that codegen or a kernel makes for a Sky value, as reflection sees it. -/
inductive GoVal where
  | bool (b : Bool)
  | int (i : ℤ)
  | rune (c : ℕ)
  | float (f : GoFloat)
  | str (s : Bytes)
  | nilSlice
  | slice (xs : List GoVal)
  | nilMap
  | map (entries : List (Bytes × GoVal))
  | struct (type : StructType) (fields : List GoVal)
  | dict (entries : List (Bytes × GoVal))
  | set (items : List GoVal)
  | union (tag : ℕ) (name : Option Bytes) (payload : List GoVal)
  | iface (v : GoVal)

def identityKeyMaxDepth : ℕ := 512

def sortStrings (words : List Bytes) : List Bytes := words.insertionSort (· ≤ ·)

/-! ## The productions -/

def writeBoolKey (b : Bool) : Bytes := if b then [ch 'b', ch '1'] else [ch 'b', ch '0']

def writeIntKey (i : ℤ) : Bytes := ch 'i' :: (formatInt i ++ [ch ';'])

/-- A string item: its length in bytes, then its bytes. -/
def stringItem (s : Bytes) : Bytes := ch 's' :: (formatNat s.length ++ ch ':' :: s)

def writeStringKey (depth : ℕ) (s : Bytes) : Bytes :=
  if identityKeyMaxDepth < depth then [ch '!'] else stringItem s

/-- A letter, a count, and as many words. -/
def counted (letter : Char) (words : List Bytes) : Bytes :=
  ch letter :: (formatNat words.length ++ ch ';' :: words.flatten)

section

-- what the conversion of `2^63` to an `int64` gives: Go leaves it to the platform
variable (overflow : ℤ)

def int64Of (q : ℚ) : ℤ := if q < 2 ^ 63 then ⌊q⌋ else overflow

/-- `math.MaxInt64` as a float64 is `2^63`, and is let through. -/
def writeFloatKey (f : GoFloat) : Bytes :=
  if f.val = ⌊f.val⌋ ∧ -2 ^ 63 ≤ f.val ∧ f.val ≤ 2 ^ 63 then writeIntKey (int64Of overflow f.val)
  else ch 'f' :: (formatFloat f.format f.val ++ [ch ';'])

mutual

def writeIdentityKey (depth : ℕ) : GoVal → Bytes
  | .bool b => if identityKeyMaxDepth < depth then [ch '!'] else writeBoolKey b
  | .int i => if identityKeyMaxDepth < depth then [ch '!'] else writeIntKey i
  | .rune c => if identityKeyMaxDepth < depth then [ch '!'] else writeIntKey c
  | .float f => if identityKeyMaxDepth < depth then [ch '!'] else writeFloatKey overflow f
  | .str s => writeStringKey depth s
  | .nilSlice => if identityKeyMaxDepth < depth then [ch '!'] else [ch 'Z']
  | .slice xs =>
      if identityKeyMaxDepth < depth then [ch '!']
      else counted 'L' (identityWords (depth + 1) xs)
  | .nilMap => if identityKeyMaxDepth < depth then [ch '!'] else [ch 'N']
  | .map entries | .dict entries =>
      if identityKeyMaxDepth < depth then [ch '!']
      else counted 'M' (sortStrings (pairWords (depth + 1) entries))
  | .struct _ fields =>
      if identityKeyMaxDepth < depth then [ch '!']
      else counted 'R' (identityWords (depth + 1) fields)
  | .set items =>
      if identityKeyMaxDepth < depth then [ch '!']
      else counted 'S' ((sortStrings (identityWords 0 items)).map stringItem)
  | .union tag name payload =>
      if identityKeyMaxDepth < depth then [ch '!']
      else
        let words := identityWords (depth + 1) payload
        ch 'U' :: (formatNat tag ++ ch ';' ::
          (name.elim [ch 'N'] (writeStringKey (depth + 1)) ++
            (formatNat words.length ++ ch ';' :: words.flatten)))
  | .iface v =>
      if identityKeyMaxDepth < depth then [ch '!'] else writeIdentityKey (depth + 1) v

def identityWords (depth : ℕ) : List GoVal → List Bytes
  | [] => []
  | v :: vs => writeIdentityKey depth v :: identityWords depth vs

def pairWords (depth : ℕ) : List (Bytes × GoVal) → List Bytes
  | [] => []
  | (k, v) :: entries =>
      (writeStringKey depth k ++ writeIdentityKey depth v) :: pairWords depth entries

end

def identityKey (v : GoVal) : Bytes := writeIdentityKey overflow 0 v

end

end Sky.Identity
