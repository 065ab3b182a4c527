import Mathlib
import Sky.Library.Loop

/-! # Tasks

The representation of a `Task` and `forceTask`, its one interpreter. A value is what the
runtime can tell apart of a Go value of type `any`. How pure functions and kernel
thunks behave is a parameter; a thunk may read and change the state of the world. -/

namespace Sky.Task

open Sky.Library

inductive TaskKind where
  | taskPure
  | taskFail
  | taskLeaf
  | taskBind
  | taskMap
  | taskMapErr
  | taskCatch
  | taskBindResult
  | taskFromResult
  | taskLazy
  | taskSeq
  deriving DecidableEq

structure TaskNode (α : Type*) where
  kind : TaskKind
  val : α
  src : α
  fn : α

/-- `tag` is zero for an `Ok`. -/
structure SkyResult (α : Type*) where
  tag : ℕ
  okValue : α
  errValue : α

/-- `thunk` is a func without arguments, `func` any other func, and `task` a SkyTask,
which has no node when it is the zero one. -/
inductive Value (F D : Type*) where
  | nil
  | data (d : D)
  | list (xs : List (Value F D))
  | result (r : SkyResult (Value F D))
  | thunk (f : F)
  | func (f : F)
  | task (n : Option (TaskNode (Value F D)))

variable {F D σ : Type*}

/-- Functions: the pure ones by what they return, the thunks also by what they do. -/
structure Runtime (F D σ : Type*) where
  skyCall : Value F D → Value F D → Value F D
  callThunk : F → σ → Value F D × σ

abbrev Res (F D : Type*) := SkyResult (Value F D)

def ok (v : Value F D) : Res F D := ⟨0, v, .nil⟩

def err (e : Value F D) : Res F D := ⟨1, .nil, e⟩

/-! ## Leaves -/

def resultOf : Value F D → Res F D
  | .result r => r
  | v => ok v

/-- The elements of the list of a sequence. -/
def asList : Value F D → List (Value F D)
  | .list xs => xs
  | _ => []

def zeroTaskMsg : String := "rt.Coerce: expected a Task, got a zero SkyTask (no computation)"

def funcMsg : String :=
  "rt.Coerce: expected a Task, got a function that is not a zero-argument thunk"

def lazyMsg : String := "rt.Coerce: expected a function for Task.lazy, got a Task"

/-- A leaf: a kernel thunk, a resolved result or a bare value. -/
def forceLeaf (rt : Runtime F D σ) (w : σ) : Value F D → Except String (Res F D × σ)
  | .nil => .ok (ok .nil, w)
  | .result r => .ok (r, w)
  | .thunk f => .ok (resultOf (rt.callThunk f w).1, (rt.callThunk f w).2)
  | .func _ => .error funcMsg
  | v => .ok (resultOf v, w)

/-- The thunk of `Task.lazy`. A value that is not a function is an evaluated one. -/
def forceLazy (rt : Runtime F D σ) (w : σ) : Value F D → Except String (Value F D × σ)
  | .thunk f => .ok (rt.callThunk f w)
  | .func f => .ok (rt.skyCall (.func f) .nil, w)
  | .task _ => .error lazyMsg
  | v => .ok (v, w)

/-! ## The interpreter -/

/-- A pending continuation, with the state of its run when it is a sequence. -/
inductive TaskFrame (F D : Type*) where
  | node (n : TaskNode (Value F D))
  | seq (xs acc : List (Value F D))

/-- Either there is a value to force, or a result for the pending frames. -/
inductive Control (F D : Type*) where
  | descend (cur : Value F D)
  | unwind (res : Res F D)

structure Machine (F D σ : Type*) where
  control : Control F D
  stack : List (TaskFrame F D)
  world : σ

abbrev Answer (F D σ : Type*) := Except String (Res F D × σ)

/-- Goes on with what a leaf or a thunk gives, or panics. -/
def onLeaf (stack : List (TaskFrame F D)) (r : Except String (Res F D × σ)) :
    Round (Machine F D σ) (Answer F D σ) :=
  match r with
  | .ok (res, w) => .next ⟨.unwind res, stack, w⟩
  | .error msg => .done (.error msg)

/-- Follows the source of a node, or produces its result. -/
def descendNode (rt : Runtime F D σ) (n : TaskNode (Value F D)) (stack : List (TaskFrame F D))
    (w : σ) : Round (Machine F D σ) (Answer F D σ) :=
  match n.kind with
  | .taskPure => .next ⟨.unwind (ok n.val), stack, w⟩
  | .taskFail => .next ⟨.unwind (err n.val), stack, w⟩
  | .taskLeaf =>
      match n.val with
      | .task inner => .next ⟨.descend (.task inner), stack, w⟩
      | v => onLeaf stack (forceLeaf rt w v)
  | .taskLazy => onLeaf stack ((forceLazy rt w n.val).map fun vw => (ok vw.1, vw.2))
  | .taskFromResult => .next ⟨.unwind (resultOf n.val), stack, w⟩
  | .taskSeq =>
      match asList n.val with
      | [] => .next ⟨.unwind (ok (.list [])), stack, w⟩
      | x :: xs => .next ⟨.descend x, .seq (x :: xs) [] :: stack, w⟩
  | .taskBind | .taskMap | .taskMapErr | .taskCatch | .taskBindResult =>
      .next ⟨.descend n.src, .node n :: stack, w⟩

def descend (rt : Runtime F D σ) (cur : Value F D) (stack : List (TaskFrame F D)) (w : σ) :
    Round (Machine F D σ) (Answer F D σ) :=
  match cur with
  | .task (some n) => descendNode rt n stack w
  | .task none => .done (.error zeroTaskMsg)
  | v => onLeaf stack (forceLeaf rt w v)

/-- Feeds a result to a node: the value to force next, or the result to go on with. -/
def resume (rt : Runtime F D σ) (n : TaskNode (Value F D)) (res : Res F D) : Control F D :=
  match n.kind with
  | .taskBind => if res.tag = 0 then .descend (rt.skyCall n.fn res.okValue) else .unwind res
  | .taskCatch => if res.tag ≠ 0 then .descend (rt.skyCall n.fn res.errValue) else .unwind res
  | .taskMap => if res.tag = 0 then .unwind (ok (rt.skyCall n.fn res.okValue)) else .unwind res
  | .taskMapErr =>
      if res.tag ≠ 0 then .unwind (err (rt.skyCall n.fn res.errValue)) else .unwind res
  | .taskBindResult =>
      if res.tag = 0 then .unwind (resultOf (rt.skyCall n.fn res.okValue)) else .unwind res
  | _ => .unwind res

def unwind (rt : Runtime F D σ) (res : Res F D) (stack : List (TaskFrame F D)) (w : σ) :
    Round (Machine F D σ) (Answer F D σ) :=
  match stack with
  | [] => .done (.ok (res, w))
  | .node n :: stack => .next ⟨resume rt n res, stack, w⟩
  | .seq xs acc :: stack =>
      if res.tag = 0 then
        match xs[acc.length + 1]? with
        | some x => .next ⟨.descend x, .seq xs (acc ++ [res.okValue]) :: stack, w⟩
        | none => .next ⟨.unwind (ok (.list (acc ++ [res.okValue]))), stack, w⟩
      else .next ⟨.unwind res, stack, w⟩

def step (rt : Runtime F D σ) (m : Machine F D σ) : Round (Machine F D σ) (Answer F D σ) :=
  match m.control with
  | .descend cur => descend rt cur m.stack m.world
  | .unwind res => unwind rt res m.stack m.world

/-- Forces a task in at most so many steps. -/
def forceTask (rt : Runtime F D σ) (fuel : ℕ) (t : Value F D) (w : σ) : Option (Answer F D σ) :=
  Loop.run (step rt) fuel ⟨.descend t, [], w⟩

/-- Forces one task again and again. -/
def forceTimes (rt : Runtime F D σ) (fuel : ℕ) (t : Value F D) :
    ℕ → σ → Option (Except String (List (Res F D) × σ))
  | 0, w => some (.ok ([], w))
  | n + 1, w =>
      (forceTask rt fuel t w).bind fun
        | .error msg => some (.error msg)
        | .ok (r, w) => (forceTimes rt fuel t n w).map fun rest =>
            rest.map fun rw => (r :: rw.1, rw.2)

end Sky.Task
