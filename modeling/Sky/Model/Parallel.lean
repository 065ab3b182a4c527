import Mathlib

/-! # `Task.parallel` and `Task.parallelN`

The branches of one call, the dispatcher that starts them and the caller that collects what they
come to. A section under the collector's lock is one step. -/

namespace Sky.Parallel

/-- How a task ends. -/
inductive Result (V E P : Type) where
  | ok (v : V)
  | err (e : E)
  | panicked (p : P)
  deriving DecidableEq

/-- What is left to a branch whose task has ended. -/
inductive Todo where
  | send
  | release
  | log
  deriving DecidableEq

inductive Branch (V E P : Type) where
  | idle
  | running
  | ended (r : Result V E P) (todo : List Todo)
  deriving DecidableEq

/-- How the call ends; a panic is re-raised on the caller's goroutine. -/
inductive Outcome (V E P : Type) where
  | ok (results : List (Option V))
  | err (e : E)
  | raised (i : ℕ) (p : P)
  deriving DecidableEq

inductive Caller (V E P : Type) where
  | launching (i : ℕ)
  | collecting (received : ℕ) (results : List (Option V))
  | finishing (o : Outcome V E P)
  | draining (o : Outcome V E P)
  | closing (o : Outcome V E P)
  | returned (o : Outcome V E P)
  deriving DecidableEq

/-- The dispatcher of `parallelN`. -/
inductive Dispatcher where
  | selecting (i : ℕ)
  | acquired (i : ℕ)
  | leaving
  | finished
  deriving DecidableEq

/-- `ch`, `gone`: the collector. `slots`, `stop`: the semaphore's tokens, and whether the stop
channel is closed. `started`, `taken` and `logged` are histories: the tasks in the order in which
they were started, what the caller took out of `ch`, and the panics in the log. -/
structure State (V E P : Type) where
  /-- The limit of `parallelN`. -/
  limit : Option ℕ
  branches : List (Branch V E P)
  ch : List (ℕ × Result V E P)
  gone : Bool
  slots : ℕ
  stop : Bool
  dispatcher : Dispatcher
  caller : Caller V E P
  started : List ℕ
  taken : List (ℕ × Result V E P)
  logged : List (ℕ × P)

namespace State

variable {V E P : Type}

def init (limit : Option ℕ) (n : ℕ) (caller : Caller V E P) (dispatcher : Dispatcher) :
    State V E P where
  limit := limit
  branches := List.replicate n .idle
  ch := []
  gone := false
  slots := 0
  stop := false
  dispatcher := dispatcher
  caller := caller
  started := []
  taken := []
  logged := []

/-- `Task_parallel` on `n` tasks: the caller starts them all. -/
def parallel (n : ℕ) : State V E P :=
  if n = 0 then init none 0 (.returned (.ok [])) .finished
  else init none n (.launching 0) .finished

/-- `Task_parallelN` on `n` tasks. -/
def parallelN (limit : ℤ) (n : ℕ) : State V E P :=
  let lim := if limit < 1 then 1 else limit
  if n = 0 then init (some lim.toNat) 0 (.returned (.ok [])) .finished
  else init (some lim.toNat) n (.collecting 0 (List.replicate n none)) (.selecting 0)

/-- A call on `n` tasks, with a limit or without. -/
def start (n : ℕ) : Option ℤ → State V E P
  | none => parallel n
  | some limit => parallelN limit n

variable (s : State V E P)

def setBranch (i : ℕ) (b : Branch V E P) : State V E P :=
  { s with branches := s.branches.set i b }

/-- `parallelCollector.branch`. -/
def launch (i : ℕ) : State V E P :=
  { s.setBranch i .running with started := s.started ++ [i] }

/-- What a branch does when its task has ended. `release` is deferred inside the function whose
panic is recovered, so a panic releases first. -/
def todo (r : Result V E P) : List Todo :=
  match s.limit, r with
  | none, _ => [.send]
  | some _, .panicked _ => [.release, .send]
  | some _, _ => [.send, .release]

/-- One thing that is left to a branch. -/
def act (i : ℕ) (r : Result V E P) (rest : List Todo) : Todo → Option (State V E P)
  | .send =>
      if s.gone then
        match r with
        | .panicked _ => some (s.setBranch i (.ended r (.log :: rest)))
        | _ => some (s.setBranch i (.ended r rest))
      else if s.ch.length < s.branches.length then
        some { s.setBranch i (.ended r rest) with ch := s.ch ++ [(i, r)] }
      else none
  | .release =>
      if 0 < s.slots then some { s.setBranch i (.ended r rest) with slots := s.slots - 1 }
      else none
  | .log =>
      match r with
      | .panicked p =>
          some { s.setBranch i (.ended r rest) with logged := s.logged ++ [(i, p)] }
      | _ => some (s.setBranch i (.ended r rest))

/-- `collect` after its receive. -/
def receive (received : ℕ) (results : List (Option V)) (i : ℕ) :
    Result V E P → Caller V E P
  | .panicked p => .finishing (.raised i p)
  | .err e => .finishing (.err e)
  | .ok v => .collecting (received + 1) (results.set i (some v))

def stepCaller : Option (State V E P) :=
  match s.caller with
  | .launching i =>
      if i < s.branches.length then some { s.launch i with caller := .launching (i + 1) }
      else some { s with caller := .collecting 0 (List.replicate s.branches.length none) }
  | .collecting received results =>
      if received < s.branches.length then
        match s.ch with
        | (i, r) :: ch =>
            some { s with
              ch := ch
              taken := s.taken ++ [(i, r)]
              caller := receive received results i r }
        | [] => none
      else some { s with caller := .finishing (.ok results) }
  | .finishing o => some { s with gone := true, caller := .draining o }
  | .draining o =>
      match s.ch with
      | (i, r) :: ch =>
          some { s with
            ch := ch
            taken := s.taken ++ [(i, r)]
            logged := match r with
              | .panicked p => s.logged ++ [(i, p)]
              | _ => s.logged }
      | [] =>
          some { s with caller := if s.limit.isSome then .closing o else .returned o }
  | .closing o => some { s with stop := true, caller := .returned o }
  | .returned _ => none

/-- The dispatcher; `stop` is the case that its `select` takes. -/
def stepDispatcher (stop : Bool) : Option (State V E P) :=
  match s.dispatcher with
  | .selecting i =>
      if i < s.branches.length then
        if stop then
          if s.stop then some { s with dispatcher := .finished } else none
        else if s.slots < s.limit.getD 0 then
          some { s with slots := s.slots + 1, dispatcher := .acquired i }
        else none
      else some { s with dispatcher := .finished }
  | .acquired i =>
      if s.gone then some { s with dispatcher := .leaving }
      else some { s.launch i with dispatcher := .selecting (i + 1) }
  | .leaving =>
      if 0 < s.slots then some { s with slots := s.slots - 1, dispatcher := .finished } else none
  | .finished => none

end State

/-- The caller or the dispatcher goes on; a task ends; a branch goes on. -/
inductive Event (V E P : Type) where
  | caller
  | dispatcher (stop : Bool)
  | finish (i : ℕ) (r : Result V E P)
  | branch (i : ℕ)

def State.step {V E P : Type} (s : State V E P) : Event V E P → Option (State V E P)
  | .caller => s.stepCaller
  | .dispatcher stop => s.stepDispatcher stop
  | .finish i r =>
      match s.branches[i]? with
      | some .running => some (s.setBranch i (.ended r (s.todo r)))
      | _ => none
  | .branch i =>
      match s.branches[i]? with
      | some (.ended r (a :: rest)) => s.act i r rest a
      | _ => none

end Sky.Parallel
