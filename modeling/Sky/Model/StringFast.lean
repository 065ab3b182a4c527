import Sky.Library.Atomic
import Sky.Model.Utf8

/-! # The byte-walking string kernels

A string is the address of its bytes and the bytes themselves. The kernels walk the bytes one code
point after another; the one-entry index cache is two cells that every call shares, and a load or a
store of a cell is one step. -/

namespace Sky.StringFast

open Library Utf8

structure Str where
  data : ℕ
  bytes : List UInt8
  deriving DecidableEq

/-! ## Walking -/

/-- `k` is how many steps are left. -/
def walkRunes (s : List UInt8) : (i k : ℕ) → ℕ
  | i, 0 => if i < s.length then i else s.length
  | i, k + 1 =>
      match s[i]? with
      | none => s.length
      | some b =>
          walkRunes s (if b < runeSelf then i + 1 else i + decodeRuneInString (s.drop i)) k

def walkBack (s : List UInt8) : (i k : ℕ) → ℕ
  | i, 0 => i
  | 0, _ + 1 => 0
  | i + 1, k + 1 =>
      walkBack s (if s[i]?.any (· < runeSelf) then i
        else i + 1 - decodeLastRuneInString (s.take (i + 1))) k

def runeOffsetFromEnd (s : List UInt8) (k : ℕ) : ℕ := walkBack s s.length k

/-! ## The index -/

def largeStringBytes : ℕ := 4096

def runeIndexStride : ℕ := 64

structure RuneIndex where
  s : Str
  offs : List ℕ
  total : ℕ
  deriving DecidableEq

/-- `offs` and `n` of the loop of `indexFor`, and where its next rune begins. -/
structure IndexLoop where
  offs : List ℕ
  n : ℕ
  i : ℕ

def IndexLoop.rune (l : IndexLoop) (c : List UInt8) : IndexLoop where
  offs := if l.n % runeIndexStride = 0 then l.offs ++ [l.i] else l.offs
  n := l.n + 1
  i := l.i + c.length

def sameString (a b : Str) : Bool := a.bytes.length == b.bytes.length && a.data == b.data

/-- The index that `indexFor` builds over `range s`. -/
def buildIndex (s : Str) : RuneIndex :=
  let l := (runes.pieces s.bytes).foldl IndexLoop.rune ⟨[], 0, 0⟩
  ⟨s, l.offs, l.n⟩

/-- `runeIndexCache` and `runeIndexLast` -/
structure Cells where
  cache : Option RuneIndex
  last : Option Str

def Cells.init : Cells := ⟨none, none⟩

def loadCache : Atomic Cells (Option RuneIndex) := .load Cells.cache

def storeCache (idx : RuneIndex) : Atomic Cells Unit :=
  .store fun c => { c with cache := some idx }

def loadLast : Atomic Cells (Option Str) := .load Cells.last

def storeLast (s : Str) : Atomic Cells Unit := .store fun c => { c with last := some s }

def indexFor (s : Str) : Atomic Cells (Option RuneIndex) :=
  if s.bytes.length < largeStringBytes then pure none
  else do
    match (← loadCache).filter fun c => sameString c.s s with
    | some c => pure (some c)
    | none =>
        match (← loadLast).filter fun last => sameString last s with
        | none => do
            storeLast s
            pure none
        | some _ => do
            storeCache (buildIndex s)
            pure (some (buildIndex s))

def runeOffset (s : Str) (k : ℕ) : Atomic Cells ℕ :=
  if k = 0 then pure 0
  else do
    match ← indexFor s with
    | none => pure (walkRunes s.bytes 0 k)
    | some idx =>
        if idx.total ≤ k then pure s.bytes.length
        else do
          let slot := k / runeIndexStride
          let start ← .ofOption idx.offs[slot]?
          pure (walkRunes s.bytes start (k - slot * runeIndexStride))

def runeTotal (s : Str) : Atomic Cells ℕ := do
  match (← loadCache).filter fun c => sameString c.s s with
  | some c => pure c.total
  | none => pure (runes.pieces s.bytes).length

/-! ## The kernels -/

/-- `s[a:b]`, which panics where it is out of range. -/
def slice (s : List UInt8) (a b : ℕ) : Atomic Cells (List UInt8) :=
  .ofOption (if a ≤ b ∧ b ≤ s.length then some ((s.take b).drop a) else none)

def stringLeft (n : ℤ) (s : Str) : Atomic Cells (List UInt8) :=
  if n ≤ 0 then pure []
  else do slice s.bytes 0 (← runeOffset s n.toNat)

def stringDropLeft (n : ℤ) (s : Str) : Atomic Cells (List UInt8) :=
  if n ≤ 0 then pure s.bytes
  else do slice s.bytes (← runeOffset s n.toNat) s.bytes.length

def stringRight (n : ℤ) (s : Str) : Atomic Cells (List UInt8) :=
  if n ≤ 0 then pure []
  else slice s.bytes (runeOffsetFromEnd s.bytes n.toNat) s.bytes.length

def stringDropRight (n : ℤ) (s : Str) : Atomic Cells (List UInt8) :=
  if n ≤ 0 then pure s.bytes
  else slice s.bytes 0 (runeOffsetFromEnd s.bytes n.toNat)

/-- `st` and `en` of `stringSlice` once negative ones are counted from the end. -/
def sliceIndices (st en : ℤ) (s : Str) : Atomic Cells (ℤ × ℤ) :=
  if st < 0 ∨ en < 0 then do
    let total ← runeTotal s
    let st := if st < 0 then st + total else st
    let en := if en < 0 then en + total else en
    pure (if st < 0 then 0 else st, en)
  else pure (st, en)

def stringSlice (st en : ℤ) (s : Str) : Atomic Cells (List UInt8) := do
  let (st, en) ← sliceIndices st en s
  if en ≤ st then pure []
  else do
    let a ← runeOffset s st.toNat
    if a = s.bytes.length then pure []
    else slice s.bytes a (walkRunes s.bytes a (en - st).toNat)

/-! ## Calls in any order -/

inductive Kernel where
  | left (n : ℤ)
  | dropLeft (n : ℤ)
  | right (n : ℤ)
  | dropRight (n : ℤ)
  | slice (st en : ℤ)
  deriving DecidableEq

structure Call where
  kernel : Kernel
  s : Str
  deriving DecidableEq

def Call.run (c : Call) : Atomic Cells (List UInt8) :=
  match c.kernel with
  | .left n => stringLeft n c.s
  | .dropLeft n => stringDropLeft n c.s
  | .right n => stringRight n c.s
  | .dropRight n => stringDropRight n c.s
  | .slice st en => stringSlice st en c.s

/-- The strings that the cells and the running calls keep alive. -/
def alive (c : Cells) (calls : List Call) : List Str :=
  c.cache.toList.map RuneIndex.s ++ c.last.toList ++ calls.map Call.s

/-- A string that is kept alive is not changed, and its bytes are not given to another one. -/
def Admitted (c : Cells) (calls : List Call) (call : Call) : Prop :=
  ∀ t ∈ alive c calls, sameString t call.s = true → t.bytes = call.s.bytes

abbrev State := AtomicState Cells Call (List UInt8)

abbrev Event := AtomicEvent Call

def State.init : State := ⟨Cells.init, []⟩

abbrev Step : State → Event → State → Prop := AtomicState.Step Call.run Admitted

end Sky.StringFast
