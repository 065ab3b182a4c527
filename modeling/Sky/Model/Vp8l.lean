import Sky.Library.Cells
import Sky.Library.Loop
import Sky.Library.PrefixCode

/-! # The prefix codes of the WebP lossless encoder

`webp_vp8l_encode.go`: code lengths from a histogram, and canonical codes from the lengths.
`none` is an index out of range. -/

namespace Sky.Vp8l

open Library

/-- `vp8lMaxCodeLen` -/
def maxCodeLen : ℕ := 15

/-- A slice, whose length is an `int`. -/
structure Slice (α : Type) where
  elems : List α
  length_lt : elems.length < 2 ^ 63

/-! ## Code lengths -/

structure Leaf where
  w : UInt64
  sym : ℕ
deriving DecidableEq

/-- The symbols with a count, in order. -/
def leavesOf (freq : List UInt32) : List Leaf :=
  (freq.zipIdx.filter fun p => decide (0 < p.1)).map fun p => ⟨p.1.toUInt64, p.2⟩

/-- The order of `sort.Slice`. -/
def Leaf.before (a b : Leaf) : Prop := if a.w ≠ b.w then a.w < b.w else a.sym < b.sym

instance (a b : Leaf) : Decidable (a.before b) := by
  unfold Leaf.before
  infer_instance

/-- The counts raised to `floor`, smallest first. -/
def raised (leaves : List Leaf) (floor : UInt64) : List Leaf :=
  (leaves.map fun l => { l with w := max l.w floor }).insertionSort fun a b => ¬ b.before a

/-- The two queues: the leaves from `li` on and the inner nodes from `ii` on. -/
structure Merge where
  li : ℕ
  ii : ℕ
  next : ℕ
  weight : Cells UInt64
  parent : Cells ℕ

/-- Whether the next pick is a leaf. -/
def Merge.leafNext (m : ℕ) (s : Merge) : Option Bool :=
  if s.li < m then
    if s.ii ≥ s.next then some true
    else do
      let wl ← s.weight.get? s.li
      let wi ← s.weight.get? s.ii
      some (decide (wl ≤ wi))
  else some false

def Merge.pick (m : ℕ) (s : Merge) : Option (ℕ × Merge) := do
  let leaf ← s.leafNext m
  if leaf then some (s.li, { s with li := s.li + 1 }) else some (s.ii, { s with ii := s.ii + 1 })

/-- One round of `for next < 2*m-1`. -/
def Merge.join (m : ℕ) (s : Merge) : Option Merge := do
  let (a, s) ← s.pick m
  let (b, s) ← s.pick m
  let wa ← s.weight.get? a
  let wb ← s.weight.get? b
  let weight ← s.weight.set? s.next (wa + wb)
  let parent ← s.parent.set? a s.next
  let parent ← parent.set? b s.next
  some { s with next := s.next + 1, weight := weight, parent := parent }

/-- So many rounds: every round raises `next` by one. -/
def Merge.joins (m : ℕ) : ℕ → Merge → Option Merge
  | 0, s => some s
  | n + 1, s => do
      let s ← s.join m
      Merge.joins m n s

/-- `for k := 2*m-3; k >= 0; k--`, with the deepest leaf so far. -/
def deepen (m : ℕ) (parent : Cells ℕ) : ℕ → Cells ℕ → ℕ → Option (Cells ℕ × ℕ)
  | 0, d, maxD => some (d, maxD)
  | k + 1, d, maxD => do
      let p ← parent.get? k
      let dp ← d.get? p
      let d ← d.set? k (dp + 1)
      let dk ← d.get? k
      deepen m parent k d (if k < m ∧ dk > maxD then dk else maxD)

/-- `for i := 0; i < m; i++ { depth[ls[i].sym] = uint8(d[i]) }` -/
def assign (ls : List Leaf) (d : Cells ℕ) (depth : Cells UInt8) : Option (Cells UInt8) :=
  ls.zipIdx.foldlM (fun depth p => do
    let x ← d.get? p.2
    depth.set? p.1.sym (UInt8.ofNat x)) depth

/-- What a round of `for floor := uint64(1); ; floor *= 2` finds. -/
structure Rebuild where
  floor : UInt64
  weight : Cells UInt64
  parent : Cells ℕ
  d : Cells ℕ

/-- The tree over the raised counts. -/
def Rebuild.grow (m : ℕ) (ls : List Leaf) (r : Rebuild) : Option (Merge × Cells ℕ × ℕ) := do
  let weight ← (ls.map Leaf.w).zipIdx.foldlM (fun c p => c.set? p.2 p.1) r.weight
  let s ← Merge.joins m (2 * m - 1 - m) ⟨0, m, m, weight, r.parent⟩
  let d ← r.d.set? (2 * m - 2) 0
  let (d, maxD) ← deepen m s.parent (2 * m - 2) d 0
  some (s, d, maxD)

def Rebuild.round (leaves : List Leaf) (limit : ℕ) (depth : Cells UInt8) (r : Rebuild) :
    Round Rebuild (Option (Cells UInt8)) :=
  let m := leaves.length
  let ls := raised leaves r.floor
  match r.grow m ls with
  | none => .done none
  | some (s, d, maxD) =>
      if maxD ≤ limit then .done (assign ls d depth)
      else .next ⟨r.floor * 2, s.weight, s.parent, d⟩

/-- At most `fuel` trees are built. -/
def huffLengths (fuel : ℕ) (freq : Slice UInt32) (limit : ℕ) : Option (List UInt8) := do
  let depth := Cells.make freq.elems.length (0 : UInt8)
  match leavesOf freq.elems with
  | [] => some depth.toList
  | [l] =>
      let depth ← depth.set? l.sym 1
      some depth.toList
  | l :: l' :: leaves =>
      let leaves := l :: l' :: leaves
      let m := leaves.length
      let depth ← (← Loop.run (Rebuild.round leaves limit depth) fuel
        ⟨1, Cells.make (2 * m - 1) 0, Cells.make (2 * m - 1) 0, Cells.make (2 * m - 1) 0⟩)
      some depth.toList

/-! ## Canonical codes -/

structure HuffCode where
  depth : List UInt8
  code : List (BitVec 16)
  used : List ℕ
  single : Bool

/-- `for s, d := range depth` -/
def tally (depth : List UInt8) (count : Cells ℕ) : Option (Cells ℕ × List ℕ) :=
  depth.zipIdx.foldlM (fun st p =>
    if p.1 > 0 then do
      let n ← st.1.get? p.1.toNat
      let count ← st.1.set? p.1.toNat (n + 1)
      some (count, st.2 ++ [p.2])
    else some st) (count, [])

/-- `for l := 1; l <= vp8lMaxCodeLen; l++` -/
def firsts (count : Cells ℕ) (next : Cells ℕ) : Option (ℕ × Cells ℕ) :=
  (List.range' 1 maxCodeLen).foldlM (fun st l => do
    let n ← count.get? (l - 1)
    let code := (st.1 + n) * 2
    let next ← st.2.set? l code
    some (code, next)) (0, next)

/-- `uint16(bits.Reverse16(uint16(v)) >> (16 - d))` -/
def reversed (v : ℕ) (d : UInt8) : BitVec 16 := (BitVec.ofNat 16 v).reverse >>> (16 - d).toNat

/-- `for _, s := range c.used` -/
def number (depth : List UInt8) (used : List ℕ) (next : Cells ℕ) (code : Cells (BitVec 16)) :
    Option (Cells ℕ × Cells (BitVec 16)) :=
  used.foldlM (fun st s => do
    let d ← depth[s]?
    let v ← st.1.get? d.toNat
    let next ← st.1.set? d.toNat (v + 1)
    let code ← st.2.set? s (reversed v d)
    some (next, code)) (next, code)

def codeFromDepth (depth : List UInt8) : Option HuffCode := do
  let (count, used) ← tally depth (Cells.make (maxCodeLen + 1) 0)
  let (_, next) ← firsts count (Cells.make (maxCodeLen + 1) 0)
  let (_, code) ← number depth used next (Cells.make depth.length 0)
  some ⟨depth, code.toList, used, used.length = 1⟩

/-- The bits `put` writes for a symbol, the lowest bit of the code first. -/
def HuffCode.put (c : HuffCode) (sym : ℕ) : Option (List Bool) :=
  if c.single then some []
  else do
    let code ← c.code[sym]?
    let d ← c.depth[sym]?
    some ((List.range d.toNat).map code.getLsbD)

end Sky.Vp8l
