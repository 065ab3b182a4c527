import Sky.Library.Bitmap
import Sky.Library.CountingSort

/-! # The persistent Dict

`SkyDict`: a flat array of entries, or a 16-way hash trie whose child arrays are
indexed by a bitmap. The functions only write to arrays they have just made, so a
version is a value. The hash function is a parameter. -/

namespace Sky.Dict

open Sky.Library

/-- An encoded key: the bytes of a Go string. -/
abbrev Key := List UInt8

/-- One trie slot: a leaf, a branch with its bitmap and children, or a collision
bucket. -/
inductive DSlot (V : Type*) where
  | leaf (key : Key) (val : V)
  | branch (bm : BitVec 32) (kids : List (DSlot V))
  | bucket (entries : List (Key × V))

/-- The flat array of entries, or the root bitmap and children of a trie with its
number of entries. `foreign` marks a Dict converted from a Go map. -/
inductive SkyDict (V : Type*) where
  | flat (entries : List (Key × V)) (foreign : Bool)
  | trie (bm : BitVec 32) (kids : List (DSlot V)) (n : ℕ) (foreign : Bool)

def dictFlatMax : ℕ := 16

/-- The number of hash bits consumed at each trie level, and their mask. -/
def dictBits : ℕ := 4
def dictMask : BitVec 64 := 15#64

/-- The child position that a hash selects at a level. -/
def nibble (h : BitVec 64) (shift : ℕ) : ℕ := ((h >>> shift) &&& dictMask).toNat

variable {V : Type*} {σ : Type*}

namespace DSlot

/-- The bitmap and the children that a slot's fields hold. -/
def bm : DSlot V → BitVec 32
  | leaf _ _ => 0#32
  | branch bm _ => bm
  | bucket entries => BitVec.ofNat 32 entries.length

def kids : DSlot V → List (DSlot V)
  | leaf _ _ => []
  | branch _ kids => kids
  | bucket entries => entries.map fun e => leaf e.1 e.2

def isLeaf : DSlot V → Bool
  | leaf _ _ => true
  | _ => false

end DSlot

/-! ## Flat search -/

/-- The linear scan with a prefilter on the length and the last byte. -/
def flatFind (es : List (Key × V)) (k : Key) : Option ℕ :=
  match k.getLast? with
  | none => es.findIdx? fun e => e.1.length = 0
  | some last =>
      es.findIdx? fun e => e.1.length = k.length ∧ e.1[k.length - 1]? = some last ∧ e.1 = k

/-- The binding of `k` in an array of entries, by a linear scan. -/
def scan (es : List (Key × V)) (k : Key) : Option V :=
  (es.find? fun e => e.1 = k).map Prod.snd

/-! ## Lookup -/

/-- The trie walk from the children of one branch. -/
def lookupFrom (k : Key) (h : BitVec 64) (shift : ℕ) (bm : BitVec 32) (kids : List (DSlot V)) :
    Option V :=
  if shift < 64 then
    let bit := Bitmap.bit 32 (nibble h shift)
    if bm &&& bit = 0#32 then none
    else
      match kids[Bitmap.onesCount (bm &&& (bit - 1#32))]? with
      | none => none
      | some (.leaf key val) => if key = k then some val else none
      | some (.bucket entries) => scan entries k
      | some (.branch bm kids) => lookupFrom k h (shift + dictBits) bm kids
  else none
termination_by 64 - shift
decreasing_by
  simp only [dictBits]
  omega

namespace SkyDict

def Len : SkyDict V → ℕ
  | flat entries _ => entries.length
  | trie _ _ n _ => n

def Lookup (hash : Key → BitVec 64) (d : SkyDict V) (k : Key) : Option V :=
  match d with
  | flat entries _ => (flatFind entries k).bind fun i => entries[i]?.map Prod.snd
  | trie bm kids _ _ => lookupFrom k (hash k) 0 bm kids

end SkyDict

/-! ## Insert -/

/-- Two entries with different keys below one slot. -/
def dictMerge (shift : ℕ) (k₁ : Key) (v₁ : V) (h₁ : BitVec 64) (k₂ : Key) (v₂ : V)
    (h₂ : BitVec 64) : DSlot V :=
  if 64 ≤ shift then .bucket [(k₁, v₁), (k₂, v₂)]
  else
    let i₁ := nibble h₁ shift
    let i₂ := nibble h₂ shift
    if i₁ = i₂ then
      .branch (Bitmap.bit 32 i₁) [dictMerge (shift + dictBits) k₁ v₁ h₁ k₂ v₂ h₂]
    else
      .branch (Bitmap.bit 32 i₁ ||| Bitmap.bit 32 i₂)
        (if i₂ < i₁ then [.leaf k₂ v₂, .leaf k₁ v₁] else [.leaf k₁ v₁, .leaf k₂ v₂])
termination_by 64 - shift
decreasing_by
  simp only [dictBits]
  omega

/-- A collision bucket with `k` bound to `v`, and whether `k` is new. -/
def bucketInsert (es : List (Key × V)) (k : Key) (v : V) : List (Key × V) × Bool :=
  match es.findIdx? fun e => e.1 = k with
  | some i => (es.modify i fun e => (e.1, v), false)
  | none => (es ++ [(k, v)], true)

mutual

/-- The slot `nd` with `k` bound to `v`, and whether `k` is new below it. -/
def dictInsertSlot (hash : Key → BitVec 64) (k : Key) (v : V) : DSlot V → ℕ → DSlot V × Bool
  | .bucket entries, _ =>
      let (es, added) := bucketInsert entries k v
      (.bucket es, added)
  | .leaf _ _, shift => (.branch (Bitmap.bit 32 (nibble (hash k) shift)) [.leaf k v], true)
  | .branch bm kids, shift =>
      let bit := Bitmap.bit 32 (nibble (hash k) shift)
      let pos := Bitmap.onesCount (bm &&& (bit - 1#32))
      if bm &&& bit = 0#32 then
        (.branch (bm ||| bit) (kids.take pos ++ .leaf k v :: kids.drop pos), true)
      else
        let (ns, added) := dictInsertKid hash k v kids pos shift
        (.branch bm ns, added)

/-- The children with the one at `pos` replaced by the slot that takes in `k`. -/
def dictInsertKid (hash : Key → BitVec 64) (k : Key) (v : V) :
    List (DSlot V) → ℕ → ℕ → List (DSlot V) × Bool
  | [], _, _ => ([], false)
  | s :: kids, 0, shift =>
      match s with
      | .leaf key val =>
          if key = k then (.leaf key v :: kids, false)
          else (dictMerge (shift + dictBits) key val (hash key) k v (hash k) :: kids, true)
      | .branch bm ks =>
          let (s', added) := dictInsertSlot hash k v (.branch bm ks) (shift + dictBits)
          (s' :: kids, added)
      | .bucket es =>
          let (s', added) := dictInsertSlot hash k v (.bucket es) (shift + dictBits)
          (s' :: kids, added)
  | s :: kids, pos + 1, shift =>
      let (ns, added) := dictInsertKid hash k v kids pos shift
      (s :: ns, added)

end

/-! ## Build -/

/-- A trie node for entries with distinct keys: the entries are bucketed by nibble
with a counting sort, and each bucket becomes a leaf or a node of its own. -/
def dictBuildNode (hash : Key → BitVec 64) (entries : List (Key × V)) (shift : ℕ) : DSlot V :=
  if shift < 64 then
    let key := fun e : Key × V => nibble (hash e.1) shift
    let counts := CountingSort.histogram key 16 entries
    let bm := counts.zipIdx.foldl
      (fun bm c => if 0 < c.1 then bm ||| Bitmap.bit 32 c.2 else bm) 0#32
    let kids := counts.zipIdx.filterMap fun c =>
      match c.1, CountingSort.bucket key 16 entries c.2 with
      | 0, _ => none
      | _, [(k, v)] => some (.leaf k v)
      | _, group => some (dictBuildNode hash group (shift + dictBits))
    .branch bm kids
  else .bucket entries
termination_by 64 - shift
decreasing_by
  simp only [dictBits]
  omega

/-- A Dict of entries with distinct keys, in one pass. -/
def dictBuild (hash : Key → BitVec 64) (entries : List (Key × V)) (foreign : Bool) : SkyDict V :=
  if entries.length ≤ dictFlatMax then .flat entries foreign
  else
    let r := dictBuildNode hash entries 0
    .trie r.bm r.kids entries.length foreign

/-- The Dict with `k` bound to `v`. A flat Dict that is full becomes a trie. -/
def SkyDict.Insert (hash : Key → BitVec 64) (d : SkyDict V) (k : Key) (v : V) : SkyDict V :=
  match d with
  | flat entries foreign =>
      match flatFind entries k with
      | some i => .flat (entries.modify i fun e => (e.1, v)) foreign
      | none =>
          if entries.length < dictFlatMax then .flat (entries ++ [(k, v)]) foreign
          else dictBuild hash (entries ++ [(k, v)]) foreign
  | trie bm kids n foreign =>
      let (nr, added) := dictInsertSlot hash k v (.branch bm kids) 0
      .trie nr.bm nr.kids (if added then n + 1 else n) foreign

/-! ## Remove -/

/-- What removing a key did to a slot: the key was absent, the slot is replaced,
or its last entry left. -/
inductive DictRemoved (V : Type*) where
  | unchanged
  | replaced (s : DSlot V)
  | deleted

/-- A collision bucket without `k`. A bucket left with one entry is a leaf. -/
def bucketRemove (es : List (Key × V)) (k : Key) : DictRemoved V :=
  match es.findIdx? fun e => e.1 = k with
  | none => .unchanged
  | some i =>
      if es.length = 2 then
        match es[1 - i]? with
        | some e => .replaced (.leaf e.1 e.2)
        | none => .unchanged
      else .replaced (.bucket (es.eraseIdx i))

/-- A branch whose child at `pos` was deleted. Below the root, one remaining leaf
takes the branch's place. -/
def branchDelete (bm bit : BitVec 32) (kids : List (DSlot V)) (pos : ℕ) (isRoot : Bool) :
    DictRemoved V :=
  let shrunk : DictRemoved V := .replaced (.branch (bm &&& ~~~bit) (kids.eraseIdx pos))
  if kids.length = 1 then .deleted
  else if kids.length = 2 ∧ ¬ isRoot then
    match kids[1 - pos]? with
    | some (.leaf key val) => .replaced (.leaf key val)
    | _ => shrunk
  else shrunk

/-- A branch whose child at `pos` was replaced. Below the root, a lone child that
became a leaf moves up. -/
def branchReplace (bm : BitVec 32) (kids : List (DSlot V)) (pos : ℕ) (repl : DSlot V)
    (isRoot : Bool) : DictRemoved V :=
  if kids.length = 1 ∧ ¬ isRoot ∧ repl.isLeaf then .replaced repl
  else .replaced (.branch bm (kids.set pos repl))

mutual

/-- The slot `nd` without `k`. -/
def dictRemoveSlot (hash : Key → BitVec 64) (k : Key) : DSlot V → ℕ → Bool → DictRemoved V
  | .bucket entries, _, _ => bucketRemove entries k
  | .leaf _ _, _, _ => .unchanged
  | .branch bm kids, shift, isRoot =>
      let bit := Bitmap.bit 32 (nibble (hash k) shift)
      let pos := Bitmap.onesCount (bm &&& (bit - 1#32))
      if bm &&& bit = 0#32 then .unchanged
      else
        match dictRemoveKid hash k kids pos shift with
        | .unchanged => .unchanged
        | .deleted => branchDelete bm bit kids pos isRoot
        | .replaced repl => branchReplace bm kids pos repl isRoot

/-- What removing `k` does to the child at `pos`. -/
def dictRemoveKid (hash : Key → BitVec 64) (k : Key) : List (DSlot V) → ℕ → ℕ → DictRemoved V
  | [], _, _ => .unchanged
  | s :: _, 0, shift =>
      match s with
      | .leaf key _ => if key = k then .deleted else .unchanged
      | .branch bm ks => dictRemoveSlot hash k (.branch bm ks) (shift + dictBits) false
      | .bucket es => dictRemoveSlot hash k (.bucket es) (shift + dictBits) false
  | _ :: kids, pos + 1, shift => dictRemoveKid hash k kids pos shift

end

/-- The Dict without `k`. -/
def SkyDict.Remove (hash : Key → BitVec 64) (d : SkyDict V) (k : Key) : SkyDict V :=
  match d with
  | flat entries foreign =>
      match flatFind entries k with
      | none => .flat entries foreign
      | some i => .flat (entries.eraseIdx i) foreign
  | trie bm kids n foreign =>
      match dictRemoveSlot hash k (.branch bm kids) 0 true with
      | .unchanged => .trie bm kids n foreign
      | .deleted => .flat [] foreign
      | .replaced nr => .trie nr.bm nr.kids (n - 1) foreign

/-! ## Range -/

/-- The callback on each entry in turn, until it returns false. -/
def rangeEntries (fn : Key → V → σ → Bool × σ) : List (Key × V) → σ → Bool × σ
  | [], st => (true, st)
  | (k, v) :: es, st =>
      match fn k v st with
      | (true, st) => rangeEntries fn es st
      | (false, st) => (false, st)

mutual

def dictRangeSlot (fn : Key → V → σ → Bool × σ) : DSlot V → σ → Bool × σ
  | .leaf _ _, st => (true, st)
  | .bucket entries, st => rangeEntries fn entries st
  | .branch _ kids, st => dictRangeKids fn kids st

def dictRangeKids (fn : Key → V → σ → Bool × σ) : List (DSlot V) → σ → Bool × σ
  | [], st => (true, st)
  | c :: kids, st =>
      match c with
      | .leaf key val =>
          match fn key val st with
          | (true, st) => dictRangeKids fn kids st
          | (false, st) => (false, st)
      | .branch bm ks =>
          match dictRangeSlot fn (.branch bm ks) st with
          | (true, st) => dictRangeKids fn kids st
          | (false, st) => (false, st)
      | .bucket es =>
          match dictRangeSlot fn (.bucket es) st with
          | (true, st) => dictRangeKids fn kids st
          | (false, st) => (false, st)

end

/-- The callback on every entry, in no particular order, until it returns false. -/
def SkyDict.Range (fn : Key → V → σ → Bool × σ) : SkyDict V → σ → σ
  | flat entries _, st => (rangeEntries fn entries st).2
  | trie bm kids _ _, st => (dictRangeSlot fn (.branch bm kids) st).2

end Sky.Dict
