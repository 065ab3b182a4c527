import Mathlib

/-! # Cons and append blocks

The heap of backing arrays, the table of weak block states, and the cons and append of each
task, one shared access a step. -/

namespace Sky.ListBlock

abbrev ObjId := ℕ
abbrev StateId := ℕ
abbrev TaskId := ℕ

def blockMinCap : ℕ := 32

/-- A backing array. -/
structure Obj (α : Type*) where
  base : ℕ
  size : ℕ
  cells : List α
  live : Bool

/-- The bytes an array takes. -/
def Obj.extent {α : Type*} (o : Obj α) : ℕ := o.size * o.cells.length

/-- Two arrays share no memory. -/
def Obj.Apart {α : Type*} (o o' : Obj α) : Prop :=
  o.extent = 0 ∨ o'.extent = 0 ∨ o.base + o.extent ≤ o'.base ∨ o'.base + o'.extent ≤ o.base

instance {α : Type*} (o o' : Obj α) : Decidable (o.Apart o') :=
  inferInstanceAs (Decidable (_ ∨ _ ∨ _ ∨ _))

/-- A Go slice: its array and window, and the size of its element type. -/
structure Slice where
  obj : ObjId
  off : ℕ
  len : ℕ
  cap : ℕ
  elem : ℕ
  deriving DecidableEq

/-- The object that stands for no array: the one of a nil slice. -/
def nilObj : ObjId := 0

/-- The shared word of a block, with the weak pointer to its array. -/
structure BlockState where
  slot0 : ObjId
  last : ℕ
  cap : ℕ
  elemSize : ℕ
  frontier : ℕ
  deriving DecidableEq

def blockSet (last : ℕ) : ℕ := (last * 0x9E3779B97F4A7C15) % 2 ^ 64 / 2 ^ (64 - 10)

/-- What is put in front: the head of a cons, or the left list of an append. -/
inductive Front (α : Type*) where
  | value (x : α)
  | list (xs : Slice)

def Front.len {α : Type*} : Front α → ℕ
  | .value _ => 1
  | .list xs => xs.len

/-- `x :: ys` or `xs ++ ys`. -/
structure Op (α : Type*) where
  front : Front α
  ys : Slice

/-- Where a task stands in its cons or append. -/
inductive Pc (α : Type*) where
  | idle
  | start (op : Op α)
  | lookup (op : Op α) (way : ℕ)
  | check (op : Op α) (way : ℕ) (st : StateId)
  | cas (op : Op α) (st : StateId)
  | write (op : Op α) (st : StateId)
  | copy (op : Op α)
  | regLoad (r : Slice) (st : StateId) (way : ℕ)
  | regTest (r : Slice) (st : StateId) (way : ℕ) (old : Option StateId)
  | regCas (r : Slice) (st : StateId) (way : ℕ) (old : Option StateId)
  | regMove (r : Slice) (st : StateId)
  | regStore1 (r : Slice) (st old : StateId)
  | regStore0 (r : Slice) (st : StateId)

def Op.slices {α : Type*} (op : Op α) : List Slice :=
  match op.front with
  | .value _ => [op.ys]
  | .list xs => [xs, op.ys]

/-- The slices a task holds on to. -/
def Pc.slices {α : Type*} : Pc α → List Slice
  | .idle => []
  | .start op | .lookup op _ | .check op _ _ | .cas op _ | .write op _ | .copy op => op.slices
  | .regLoad r _ _ | .regTest r _ _ _ | .regCas r _ _ _ | .regMove r _ | .regStore1 r _ _
  | .regStore0 r _ => [r]

/-- The memory and the tasks. `built`, `results` and `claims` are the history: the lists made so
far, the operation each comes from, and the block slots taken for them. -/
structure State (α : Type*) where
  heap : List (Obj α)
  states : List BlockState
  table : ℕ → ℕ → Option StateId
  tasks : List (Pc α)
  held : List Slice
  built : List Slice
  results : List (Op α × Slice)
  claims : List (ObjId × ℕ)

namespace State

variable {α : Type*} (s : State α)

/-- So many tasks, none of which holds a list. -/
def init (k : ℕ) : State α where
  heap := [{ base := 0, size := 0, cells := [], live := true }]
  states := []
  table := fun _ _ => none
  tasks := List.replicate k .idle
  held := []
  built := []
  results := []
  claims := []

/-! ## Memory -/

def read (xs : Slice) : List α :=
  match s.heap[xs.obj]? with
  | some o => (o.cells.drop xs.off).take xs.len
  | none => []

def frontContents : Front α → List α
  | .value x => [x]
  | .list xs => s.read xs

/-- The list an operation stands for. -/
def contents (op : Op α) : List α := s.frontContents op.front ++ s.read op.ys

/-- The address of the last element of a slice. -/
def lastAddr (xs : Slice) : ℕ :=
  (s.heap[xs.obj]?.elim 0 Obj.base) + (xs.off + xs.len - 1) * xs.elem

/-- What a weak pointer gives: the array's address, unless the array was freed. -/
def weakValue (b : BlockState) : Option ℕ :=
  match s.heap[b.slot0]? with
  | some o => if o.live then some o.base else none
  | none => none

def roots : List Slice := s.held ++ s.tasks.flatMap Pc.slices

/-! ## Updates -/

def setTask (i : TaskId) (pc : Pc α) : State α := { s with tasks := s.tasks.set i pc }

def hold (xs : Slice) : State α := { s with held := xs :: s.held }

/-- A new list. -/
def build (xs : Slice) : State α := { s with built := xs :: s.built }

def record (op : Op α) (r : Slice) : State α := { s with results := (op, r) :: s.results }

def claim (o : ObjId) (slots : List ℕ) : State α :=
  { s with claims := slots.map (fun k => (o, k)) ++ s.claims }

def setTable (set way : ℕ) (st : StateId) : State α :=
  { s with table := Function.update s.table set (Function.update (s.table set) way (some st)) }

def setFrontier (st : StateId) (b : BlockState) (frontier : ℕ) : State α :=
  { s with states := s.states.set st { b with frontier := frontier } }

/-- Write values into an array, from a slot on. -/
def writeCells (o : ObjId) (slot : ℕ) (vs : List α) : State α :=
  { s with
    heap := s.heap.modify o fun x =>
      { x with cells := x.cells.take slot ++ vs ++ x.cells.drop (slot + vs.length) } }

def pushObj (o : Obj α) : State α := { s with heap := s.heap ++ [o] }

def pushState (b : BlockState) : State α := { s with states := s.states ++ [b] }

/-- The allocator gives memory that no live array takes. -/
def Free (o : Obj α) : Prop := ∀ o' ∈ s.heap, o'.live → o.Apart o'

instance (o : Obj α) : Decidable (s.Free o) :=
  inferInstanceAs (Decidable (∀ o' ∈ s.heap, o'.live → o.Apart o'))

/-- A new array at `base`, where the memory is free. -/
def alloc (base size : ℕ) (cells : List α) : Option (State α) :=
  let o : Obj α := { base := base, size := size, cells := cells, live := true }
  if s.Free o then some (s.pushObj o) else none

/-- The task returns the list. -/
def finish (i : TaskId) (r : Slice) : State α := (s.hold r).setTask i .idle

/-! ## Steps of a cons or append -/

section

-- the zero value, which fresh memory holds
variable (zero : α)

/-- The fast returns, and the test for a list that may be a block's. -/
def runStart (i : TaskId) (base : ℕ) (op : Op α) : Option (State α) :=
  let m := op.front.len
  let n := op.ys.len
  if m = 0 then
    if op.ys.obj = nilObj then
      let r : Slice := ⟨s.heap.length, 0, 0, 0, op.ys.elem⟩
      (s.alloc base op.ys.elem []).map fun s => ((s.build r).record op r).finish i r
    else some ((s.record op op.ys).finish i op.ys)
  else if op.ys.elem = 0 then
    let r : Slice := ⟨s.heap.length, 0, m + n, m + n, 0⟩
    (s.alloc base 0 (List.replicate (m + n) zero)).map fun s =>
      ((s.build r).record op r).finish i r
  else if blockMinCap - 1 ≤ n ∧ n = op.ys.cap then some (s.setTask i (.lookup op 0))
  else some (s.setTask i (.copy op))

/-- `lookupBlock` loads one way of the set after the other. -/
def runLookup (i : TaskId) (op : Op α) (way : ℕ) : State α :=
  if way < 2 then
    match s.table (blockSet (s.lastAddr op.ys)) way with
    | none => s.setTask i (.lookup op (way + 1))
    | some st => s.setTask i (.check op way st)
  else s.setTask i (.copy op)

/-- A state is a hit when its block is live and ends at the list's last slot. -/
def runCheck (i : TaskId) (op : Op α) (way : ℕ) (st : StateId) (b : BlockState) : State α :=
  if b.last = s.lastAddr op.ys ∧ b.elemSize = op.ys.elem then
    match s.weakValue b with
    | none => s.setTask i (.lookup op (way + 1))
    | some p =>
        if p + (b.cap - 1) * op.ys.elem = s.lastAddr op.ys then s.setTask i (.cas op st)
        else s.setTask i (.lookup op (way + 1))
  else s.setTask i (.lookup op (way + 1))

/-- The compare-and-swap of the frontier. -/
def runCas (i : TaskId) (op : Op α) (st : StateId) (b : BlockState) : State α :=
  let m := op.front.len
  let off := b.cap - op.ys.len
  if m ≤ off ∧ b.frontier = off then
    ((s.setFrontier st b (off - m)).claim b.slot0 (List.range' (off - m) m)).setTask i
      (.write op st)
  else s.setTask i (.copy op)

/-- The claimed slots are filled, and the longer slice is returned. -/
def runWrite (i : TaskId) (op : Op α) : State α :=
  let m := op.front.len
  let r : Slice := ⟨op.ys.obj, op.ys.off - m, op.ys.len + m, op.ys.len + m, op.ys.elem⟩
  let written := (s.writeCells op.ys.obj (op.ys.off - m) (s.frontContents op.front)).setTask i .idle
  ((written.build r).record op r).hold r

/-- `consCopy`, and the end of `listAppendBlock`: a plain copy of a short list, else a block with
as much free room in front. -/
def runCopy (i : TaskId) (base : ℕ) (op : Op α) : Option (State α) :=
  let total := op.front.len + op.ys.len
  let vs := s.contents op
  if total < blockMinCap then
    let r : Slice := ⟨s.heap.length, 0, total, total, op.ys.elem⟩
    (s.alloc base op.ys.elem vs).map fun s => ((s.build r).record op r).finish i r
  else
    let c := 2 * total
    let h := c - total
    let r : Slice := ⟨s.heap.length, h, total, total, op.ys.elem⟩
    (s.alloc base op.ys.elem (List.replicate h zero ++ vs)).map fun s' =>
      let s' := s'.pushState ⟨s.heap.length, base + (c - 1) * op.ys.elem, c, op.ys.elem, h⟩
      ((((s'.claim s.heap.length (List.range' h total)).build r).record op r).setTask i
        (.regLoad r s.states.length 0))

/-! `registerBlock`: an empty or stale way first, else way 0 moves to way 1. -/

def stateSet (st : StateId) : ℕ := blockSet (s.states[st]?.elim 0 BlockState.last)

def stale (old : Option StateId) : Bool :=
  match old with
  | none => true
  | some k => (s.states[k]?.bind s.weakValue).isNone

/-- One step of a task; `base` is the address the allocator gives. -/
def run (i : TaskId) (base : ℕ) : Option (State α) :=
  match s.tasks[i]? with
  | none | some .idle => none
  | some (.start op) => s.runStart zero i base op
  | some (.lookup op way) => some (s.runLookup i op way)
  | some (.check op way st) => s.states[st]?.map (s.runCheck i op way st)
  | some (.cas op st) => s.states[st]?.map (s.runCas i op st)
  | some (.write op _) => some (s.runWrite i op)
  | some (.copy op) => s.runCopy zero i base op
  | some (.regLoad r st way) =>
      if way < 2 then some (s.setTask i (.regTest r st way (s.table (s.stateSet st) way)))
      else some (s.setTask i (.regMove r st))
  | some (.regTest r st way old) =>
      if s.stale old then some (s.setTask i (.regCas r st way old))
      else some (s.setTask i (.regLoad r st (way + 1)))
  | some (.regCas r st way old) =>
      if s.table (s.stateSet st) way = old then
        some ((s.setTable (s.stateSet st) way st).finish i r)
      else some (s.setTask i (.regLoad r st (way + 1)))
  | some (.regMove r st) =>
      match s.table (s.stateSet st) 0 with
      | some old => some (s.setTask i (.regStore1 r st old))
      | none => some (s.setTask i (.regStore0 r st))
  | some (.regStore1 r st old) =>
      some ((s.setTable (s.stateSet st) 1 old).setTask i (.regStore0 r st))
  | some (.regStore0 r st) => some ((s.setTable (s.stateSet st) 0 st).finish i r)

end

end State

/-! ## Events -/

inductive Event (α : Type*) where
  | run (i : TaskId) (base : ℕ)
  | call (i : TaskId) (op : Op α)
  | literal (base elem : ℕ) (vs : List α)
  | nil (elem : ℕ)
  | slice (xs : Slice) (i j k : ℕ)
  | drop (xs : Slice)
  | free (o : ObjId)

namespace State

variable {α : Type*} [DecidableEq α] (zero : α) (s : State α)

/-- The values are of the element type: one of no size has the zero value only. -/
def OfSize (elem : ℕ) (vs : List α) : Prop := elem = 0 → ∀ v ∈ vs, v = zero

instance (elem : ℕ) (vs : List α) : Decidable (OfSize zero elem vs) :=
  inferInstanceAs (Decidable (elem = 0 → ∀ v ∈ vs, v = zero))

/-- The operation is on lists that are held, of one element type. -/
def Callable (op : Op α) : Prop :=
  op.ys ∈ s.held ∧
    match op.front with
    | .value x => OfSize zero op.ys.elem [x]
    | .list xs => xs ∈ s.held ∧ xs.elem = op.ys.elem

instance (op : Op α) : Decidable (s.Callable zero op) :=
  match op with
  | ⟨.value x, ys⟩ => inferInstanceAs (Decidable (ys ∈ s.held ∧ OfSize zero ys.elem [x]))
  | ⟨.list xs, ys⟩ => inferInstanceAs (Decidable (ys ∈ s.held ∧ xs ∈ s.held ∧ xs.elem = ys.elem))

def step (e : Event α) : Option (State α) :=
  match e with
  | .run i base => s.run zero i base
  | .call i op =>
      match s.tasks[i]? with
      | some .idle => if s.Callable zero op then some (s.setTask i (.start op)) else none
      | _ => none
  | .literal base elem vs =>
      let r : Slice := ⟨s.heap.length, 0, vs.length, vs.length, elem⟩
      if OfSize zero elem vs then (s.alloc base elem vs).map fun s => (s.build r).hold r else none
  | .nil elem =>
      let r : Slice := ⟨nilObj, 0, 0, 0, elem⟩
      some ((s.build r).hold r)
  | .slice xs i j k =>
      let r : Slice := ⟨xs.obj, xs.off + i, j - i, k - i, xs.elem⟩
      if xs ∈ s.held ∧ i ≤ j ∧ j ≤ xs.len ∧ j ≤ k ∧ k ≤ xs.cap then some ((s.build r).hold r)
      else none
  | .drop xs => some { s with held := s.held.erase xs }
  | .free o =>
      if o ≠ nilObj ∧ ∀ xs ∈ s.roots, xs.obj ≠ o then
        some { s with heap := s.heap.modify o fun x => { x with live := false } }
      else none

end State

end Sky.ListBlock
