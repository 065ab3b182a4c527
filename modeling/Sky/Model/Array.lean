import Mathlib

/-! # The persistent Array

`arrayTrie`: full blocks of 32 elements in a trie, the last ones in a tail. The
outer `Option` of a result is `none` where the code panics: a failed type
assertion, a nil node, an index out of range. Nodes are copied before they are
written, so a version is a value. -/

namespace Sky.Array

def arrBits : ℕ := 5
def arrWidth : ℕ := 32
def arrMask : ℕ := 31

/-- What a slot of a node holds: nothing, an element, or a node of 32 slots. -/
inductive Slot (α : Type*) where
  | nil
  | elem (x : α)
  | node (kids : Fin 32 → Slot α)

/-- An `arrNode`. -/
abbrev ArrNode (α : Type*) := Fin 32 → Slot α

structure ArrayTrie (α : Type*) where
  cnt : ℕ
  shift : ℕ
  root : Option (ArrNode α)
  tail : List α

/-- The pointer that a `SkyArray` holds: nil is the empty array. -/
abbrev SkyArray (α : Type*) := Option (ArrayTrie α)

variable {α β σ : Type*}

/-- The element of a slot. -/
def Slot.value : Slot α → Option α
  | .elem x => some x
  | _ => none

/-- The type assertion on an inner slot. -/
def Slot.asNode : Slot α → Option (ArrNode α)
  | .node kids => some kids
  | _ => none

def emptyNode : ArrNode α := fun _ => .nil

/-- The slot position `(i >> level) & arrMask`. -/
def sub (i level : ℕ) : Fin 32 := Fin.ofNat 32 ((i >>> level) &&& arrMask)

def length : SkyArray α → ℕ
  | none => 0
  | some t => t.cnt

namespace ArrayTrie

def tailOff (t : ArrayTrie α) : ℕ :=
  if t.cnt < arrWidth then 0 else ((t.cnt - 1) >>> arrBits) <<< arrBits

end ArrayTrie

/-! ## Reading -/

/-- The walk from a node at `level` to the block of index `i`. A level below
`arrBits` would wrap around, so it counts as a failure. -/
def descend (i level : ℕ) (n : ArrNode α) : Option (ArrNode α) :=
  if level = 0 then some n
  else if level < arrBits then none
  else (n (sub i level)).asNode.bind (descend i (level - arrBits))
termination_by level
decreasing_by
  simp only [arrBits] at *
  omega

/-- The block that holds index `i`. -/
def ArrayTrie.leafFor (t : ArrayTrie α) (i : ℕ) : Option (List (Slot α)) :=
  if t.tailOff ≤ i then some (t.tail.map .elem)
  else t.root.bind fun n => (descend i t.shift n).map List.ofFn

/-- `get`: the inner option is the element and its presence. -/
def get (t : SkyArray α) (i : ℤ) : Option (Option α) :=
  match t with
  | none => some none
  | some t =>
      if i < 0 ∨ (t.cnt : ℤ) ≤ i then some none
      else do
        let leaf ← t.leafFor i.toNat
        let s ← leaf[i.toNat &&& arrMask]?
        some <$> s.value

/-! ## Push -/

def newPath (level : ℕ) (n : ArrNode α) : Option (ArrNode α) :=
  if level = 0 then some n
  else if level < arrBits then none
  else (newPath (level - arrBits) n).map fun below => Function.update emptyNode 0 (.node below)
termination_by level
decreasing_by
  simp only [arrBits] at *
  omega

/-- The node `parent`, which may be nil, with the full tail at its place. -/
def pushTail (cnt level : ℕ) (parent : Option (ArrNode α)) (tailNode : ArrNode α) :
    Option (ArrNode α) :=
  let ret := parent.getD emptyNode
  let sub := sub (cnt - 1) level
  if level = arrBits then some (Function.update ret sub (.node tailNode))
  else if level < arrBits then none
  else
    match parent.bind fun kids => (kids sub).asNode with
    | some child =>
        (pushTail cnt (level - arrBits) (some child) tailNode).map fun below =>
          Function.update ret sub (.node below)
    | none =>
        (newPath (level - arrBits) tailNode).map fun below =>
          Function.update ret sub (.node below)
termination_by level
decreasing_by
  simp only [arrBits] at *
  omega

/-- A node with a copy of the elements in its first slots. -/
def blockOf (xs : List α) : ArrNode α := fun j => (xs[j.1]?).elim .nil .elem

def push (t : SkyArray α) (x : α) : Option (SkyArray α) :=
  match t with
  | none => some (some ⟨1, arrBits, none, [x]⟩)
  | some t =>
      if t.cnt = 0 then some (some ⟨1, arrBits, none, [x]⟩)
      else if t.cnt - t.tailOff < arrWidth then
        some (some ⟨t.cnt + 1, t.shift, t.root, t.tail ++ [x]⟩)
      else
        let tailNode := blockOf t.tail
        if 1 <<< t.shift < t.cnt >>> arrBits then do
          let old ← t.root
          let path ← newPath t.shift tailNode
          let root : ArrNode α :=
            Function.update (Function.update emptyNode 0 (.node old)) 1 (.node path)
          some (some ⟨t.cnt + 1, t.shift + arrBits, some root, [x]⟩)
        else do
          let root ← pushTail t.cnt t.shift t.root tailNode
          some (some ⟨t.cnt + 1, t.shift, some root, [x]⟩)

/-! ## Set -/

def doAssoc (level : ℕ) (n : ArrNode α) (i : ℕ) (x : α) : Option (ArrNode α) :=
  if level = 0 then some (Function.update n (sub i 0) (.elem x))
  else if level < arrBits then none
  else do
    let child ← (n (sub i level)).asNode
    let below ← doAssoc (level - arrBits) child i x
    some (Function.update n (sub i level) (.node below))
termination_by level
decreasing_by
  simp only [arrBits] at *
  omega

def set (t : SkyArray α) (i : ℤ) (x : α) : Option (SkyArray α) :=
  match t with
  | none => some none
  | some t =>
      if i < 0 ∨ (t.cnt : ℤ) ≤ i then some (some t)
      else if t.tailOff ≤ i.toNat then
        if i.toNat &&& arrMask < t.tail.length then
          some (some { t with tail := t.tail.set (i.toNat &&& arrMask) x })
        else none
      else do
        let n ← t.root
        let root ← doAssoc t.shift n i.toNat x
        some (some { t with root := some root })

/-! ## Loops -/

/-- The inner loop of `each` over one block. The callback says whether to go on,
and it may panic itself. -/
def eachBlock (f : ℕ → α → σ → Option (Bool × σ)) (leaf : List (Slot α)) (cnt i j : ℕ) (st : σ) :
    Option (Bool × σ) :=
  if j < arrWidth ∧ i + j < cnt then
    (leaf[j]?.bind Slot.value).bind fun x =>
      (f (i + j) x st).bind fun
        | (true, st) => eachBlock f leaf cnt i (j + 1) st
        | (false, st) => some (false, st)
  else some (true, st)
termination_by arrWidth - j

/-- The outer loop of `each`. -/
def eachFrom (f : ℕ → α → σ → Option (Bool × σ)) (t : ArrayTrie α) (i : ℕ) (st : σ) :
    Option (Bool × σ) :=
  if i < t.cnt then
    (t.leafFor i).bind fun leaf =>
      (eachBlock f leaf t.cnt i 0 st).bind fun
        | (true, st) => eachFrom f t (i + arrWidth) st
        | (false, st) => some (false, st)
  else some (true, st)
termination_by t.cnt - i
decreasing_by
  simp only [arrWidth] at *
  omega

/-- The callback on every element in order, until it says no. -/
def each (t : SkyArray α) (f : ℕ → α → σ → Option (Bool × σ)) (st : σ) : Option σ :=
  match t with
  | none => some st
  | some t => (eachFrom f t 0 st).map Prod.snd

def toSlice (t : SkyArray α) : Option (List α) :=
  each t (fun _ x out => some (true, out ++ [x])) []

/-! ## Kernels -/

def Array_map (f : α → β) (a : SkyArray α) : Option (SkyArray β) :=
  each a (fun _ x out => (push out (f x)).map fun out => (true, out)) none

def Array_filter (f : α → Bool) (a : SkyArray α) : Option (SkyArray α) :=
  each a (fun _ x out => if f x then (push out x).map fun out => (true, out) else some (true, out))
    none

def Array_append (a b : SkyArray α) : Option (SkyArray α) :=
  each b (fun _ x out => (push out x).map fun out => (true, out)) a

/-- The loop of `Array_slice` from `i` up to `en`. An absent element would be
pushed as nil. -/
def sliceLoop (t : SkyArray α) (en i : ℤ) (out : SkyArray α) : Option (SkyArray α) :=
  if i < en then do
    let x ← get t i
    let out ← push out (← x)
    sliceLoop t en (i + 1) out
  else some out
termination_by (en - i).toNat
decreasing_by omega

/-- A negative index counts from the end, and the range is clamped. -/
def Array_slice (start stop : ℤ) (a : SkyArray α) : Option (SkyArray α) :=
  let n : ℤ := length a
  let st := if start < 0 then start + n else start
  let en := if stop < 0 then stop + n else stop
  let st := if st < 0 then 0 else st
  let en := if n < en then n else en
  sliceLoop a en st none

end Sky.Array
