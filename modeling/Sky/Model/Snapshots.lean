import Mathlib

/-! # Durable snapshots of sessions

The calls that a loop makes on its `durableCtx`, one lock acquisition, map access or store write a
step. A queued write goes on as the task of the `persist` that queued it. -/

namespace Sky.Snapshots

/-- A run id. -/
abbrev RunId := List UInt8

def fnv32a (b : List UInt8) : ℕ :=
  b.foldl (fun h x => (h ^^^ x.toNat) * 16777619 % 2 ^ 32) 2166136261

def durableStripe (id : RunId) : ℕ := fnv32a id % 64

/-- Ten minutes, in nanoseconds. -/
def durableRetiredKeep : ℤ := 600000000000

inductive Call (M : Type) where
  | boot (id : RunId)
  | persist (id : RunId) (model : M)
  | persistSync (id : RunId) (model : M)
  | retire (id : RunId)
  | rotate (oldId newId : RunId) (model : Option M)

/-- What follows a persist: nothing, or the rest of a rotation. -/
inductive Next where
  | done
  | retire (id : RunId)
  deriving DecidableEq

/-- `mark…` and `prune…` are `markRetired`; `retiring` says that `retire` called it. -/
inductive Pc (M : Type) where
  | start (c : Call M)
  | bootRestore (id : RunId)
  | bootSuspend (id : RunId)
  | persistCheck (id : RunId) (model : M) (next : Next)
  | persistLock (id : RunId) (model : M) (next : Next)
  | persistRetired (id : RunId) (model : M) (next : Next)
  | write (id : RunId) (model : M) (next : Next)
  | writeSuspend (id : RunId) (next : Next)
  | persistUnlock (id : RunId) (next : Next)
  | retireLock (id : RunId)
  | mark (id : RunId) (retiring : Bool)
  | markCount (id : RunId) (retiring : Bool) (now : ℤ)
  | prune (id : RunId) (retiring : Bool) (cut : ℤ) (seen : List RunId) (kept : ℕ)
  | pruneDelete (id : RunId) (retiring : Bool) (cut : ℤ) (seen : List RunId) (kept : ℕ) (k : RunId)
  | pruneCount (id : RunId) (retiring : Bool) (kept : ℕ)
  | retireSuspended (id : RunId)
  | discard (id : RunId)
  | retireUnlock (id : RunId) (discarded : Bool)
  | rotateSuspend (oldId newId : RunId)
  | ended

/-- `store`: the snapshots. `retired`: the time of each mark. `stripes`: which are held. -/
structure State (M : Type) where
  store : RunId → Option M
  suspended : RunId → Bool
  retired : RunId → Option ℤ
  retiredN : ℕ
  stripes : ℕ → Bool
  tasks : List (Pc M)

def State.init {M : Type} (store : RunId → Option M) : State M where
  store := store
  suspended _ := false
  retired _ := none
  retiredN := 0
  stripes _ := false
  tasks := []

inductive Wrote where
  | ok
  | err
  | panicked
  deriving DecidableEq

/-- What a step may meet: the clock, whether a restore or a discard succeeds, how a write ends,
and the next key of the map that is pruned. -/
structure Input where
  now : ℤ := 0
  restored : Bool := true
  wrote : Wrote := .ok
  discarded : Bool := true
  key : Option RunId := none

inductive Event (M : Type) where
  | call (c : Call M)
  | run (i : ℕ) (x : Input)

namespace State

variable {M : Type} (s : State M)

def setTask (i : ℕ) (pc : Pc M) : State M := { s with tasks := s.tasks.set i pc }

def setStore (id : RunId) (v : Option M) : State M :=
  { s with store := Function.update s.store id v }

def setSuspended (id : RunId) : State M :=
  { s with suspended := Function.update s.suspended id true }

def setRetired (id : RunId) (t : Option ℤ) : State M :=
  { s with retired := Function.update s.retired id t }

def setStripe (id : RunId) (held : Bool) : State M :=
  { s with stripes := Function.update s.stripes (durableStripe id) held }

def isRetired (id : RunId) : Bool := (s.retired id).isSome

end State

def Next.pc {M : Type} : Next → Pc M
  | .done => .ended
  | .retire id => .retireLock id

/-- What follows `markRetired`. -/
def afterMark {M : Type} (id : RunId) (retiring : Bool) : Pc M :=
  if retiring then .retireSuspended id else .ended

/-- The first step of a call. -/
def State.begin {M : Type} (s : State M) : Call M → Pc M
  | .boot id => if s.isRetired id then .ended else .bootRestore id
  | .persist id model => if s.suspended id then .ended else .persistLock id model .done
  | .persistSync id model => if id = [] then .ended else .persistCheck id model .done
  | .retire id => if id = [] then .ended else .retireLock id
  | .rotate oldId newId model =>
      if oldId = [] ∨ newId = [] ∨ oldId = newId then .ended
      else if s.suspended oldId then .rotateSuspend oldId newId
      else
        match model with
        | some model => .persistCheck newId model (.retire oldId)
        | none => .retireLock oldId

/-- One step of a task: the state without the task's move, and where the task gets to. -/
def State.advance {M : Type} (s : State M) (x : Input) : Pc M → Option (State M × Pc M)
  | .start c => some (s, s.begin c)
  | .bootRestore id => some (s, if x.restored then .ended else .bootSuspend id)
  | .bootSuspend id => some (s.setSuspended id, .ended)
  | .persistCheck id model next =>
      some (s, if s.suspended id then next.pc else .persistLock id model next)
  | .persistLock id model next =>
      if s.stripes (durableStripe id) then none
      else some (s.setStripe id true, .persistRetired id model next)
  | .persistRetired id model next =>
      some (s, if s.isRetired id then .persistUnlock id next else .write id model next)
  | .write id model next =>
      match x.wrote with
      | .ok => some (s.setStore id (some model), .persistUnlock id next)
      | .err => some (s, .persistUnlock id next)
      | .panicked => some (s, .writeSuspend id next)
  | .writeSuspend id next => some (s.setSuspended id, .persistUnlock id next)
  | .persistUnlock id next => some (s.setStripe id false, next.pc)
  | .retireLock id =>
      if s.stripes (durableStripe id) then none else some (s.setStripe id true, .mark id true)
  | .mark id retiring =>
      if s.isRetired id then some (s, afterMark id retiring)
      else some (s.setRetired id (some x.now), .markCount id retiring x.now)
  | .markCount id retiring now =>
      if 4096 < s.retiredN + 1 then
        some ({ s with retiredN := 0 }, .prune id retiring (now - durableRetiredKeep) [] 0)
      else some ({ s with retiredN := s.retiredN + 1 }, afterMark id retiring)
  | .prune id retiring cut seen kept =>
      match x.key with
      | none => some (s, .pruneCount id retiring kept)
      | some k =>
          match s.retired k with
          | none => none
          | some t =>
              if k ∈ seen then none
              else if t < cut then some (s, .pruneDelete id retiring cut (k :: seen) kept k)
              else some (s, .prune id retiring cut (k :: seen) (kept + 1))
  | .pruneDelete id retiring cut seen kept k =>
      some (s.setRetired k none, .prune id retiring cut seen kept)
  | .pruneCount id retiring kept =>
      some ({ s with retiredN := s.retiredN + kept }, afterMark id retiring)
  | .retireSuspended id =>
      some (s, if s.suspended id then .retireUnlock id false else .discard id)
  | .discard id =>
      if x.discarded then some (s.setStore id none, .retireUnlock id true)
      else some (s, .retireUnlock id false)
  | .retireUnlock id _ => some (s.setStripe id false, .ended)
  | .rotateSuspend oldId newId => some (s.setSuspended newId, .mark oldId false)
  | .ended => none

def State.step {M : Type} (s : State M) : Event M → Option (State M)
  | .call c => some { s with tasks := s.tasks ++ [.start c] }
  | .run i x => do
      let pc ← s.tasks[i]?
      let (t, next) ← s.advance x pc
      pure (t.setTask i next)

end Sky.Snapshots
