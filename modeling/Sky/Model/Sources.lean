import Mathlib

/-! # Source subscriptions

The runners of one source, each with its `stop` and its `done`, the claim on the source, and its
entry in `sourceClaims`. A runner is known by its place in the order in which they took the entry. -/

namespace Sky.Sources

/-- Where a runner is. `wait`: at `<-predecessor`. -/
inductive Pc where
  | wait (predecessor : ℕ)
  | check
  | claim
  | pump
  | pumped
  | release
  | forget
  | onEnd
  | close
  | done
  deriving DecidableEq

structure Runner where
  pc : Pc
  stop : Bool := false
  finished : Bool := false
  deriving DecidableEq

/-- A runner whose goroutine has not run yet. -/
def Runner.init (predecessor : Option ℕ) : Runner where
  pc := match predecessor with
    | none => .pump
    | some prev => .wait prev

/-- Where the call of `startSourceRunner` is that has locked `sourceClaims.mu`. -/
inductive Start where
  | idle
  | stopping
  | ended (prev : ℕ)
  | claim
  | go (predecessor : Option ℕ)
  deriving DecidableEq

/-- What happens to the source, and a claim at the handover that is refused. -/
inductive Act where
  | claim (i : ℕ)
  | pump (i : ℕ)
  | release (i : ℕ)
  | refused (i : ℕ)
  deriving DecidableEq

structure State where
  claimed : Bool
  holder : Option ℕ
  start : Start
  runners : List Runner
  log : List Act

def State.init : State where
  claimed := false
  holder := none
  start := .idle
  runners := []
  log := []

/-- How a pump goes on: it emits an event, which `deliver` takes or not, returns, or panics. -/
inductive Pumped where
  | event (delivered : Bool)
  | ended
  | panicked
  deriving DecidableEq

/-- `start`: a call locks the mutex. `go`: that call goes on. -/
inductive Event where
  | start
  | go
  | cancel (i : ℕ)
  | run (i : ℕ) (x : Pumped)
  deriving DecidableEq

namespace State

variable (s : State)

def setRunner (i : ℕ) (r : Runner) : State := { s with runners := s.runners.set i r }

def write (a : Act) : State := { s with log := s.log ++ [a] }

/-- The new runner becomes the holder, and the mutex is free again. -/
def take (predecessor : Option ℕ) : State :=
  { s with
    holder := some s.runners.length
    start := .idle
    runners := s.runners ++ [.init predecessor] }

/-- `startSourceRunner`, under the mutex. -/
def startStep : Option State :=
  match s.start with
  | .idle => none
  | .stopping =>
      match s.holder with
      | none => some { s with start := .claim }
      | some prev => do
          let r ← s.runners[prev]?
          pure { s with start := if r.stop then .ended prev else .claim }
  | .ended prev => do
      let r ← s.runners[prev]?
      pure { s with start := if r.pc = .done then .claim else .go (some prev) }
  | .claim =>
      if s.claimed then some { s with start := .idle }
      else some ({ s with claimed := true, start := .go none }.write (.claim s.runners.length))
  | .go predecessor => some (s.take predecessor)

/-- One step of `sourceRunner.run`: the state without the runner's move, and the runner. -/
def runStep (i : ℕ) (r : Runner) (x : Pumped) : Option (State × Runner) :=
  match r.pc with
  | .wait predecessor => do
      let prev ← s.runners[predecessor]?
      if prev.pc = .done then some (s, { r with pc := .check }) else none
  | .check => some (s, { r with pc := if r.stop then .forget else .claim })
  | .claim =>
      if s.claimed then some (s.write (.refused i), { r with pc := .forget })
      else some ({ s with claimed := true }.write (.claim i), { r with pc := .pump })
  | .pump =>
      match x with
      | .event delivered =>
          some (s.write (.pump i),
            { r with pc := if r.stop = true ∨ delivered = false then .pumped else .pump })
      | .ended => some (s, { r with pc := .pumped })
      | .panicked => some (s, { r with pc := .release })
  | .pumped => some (s, { r with pc := .release, finished := r.finished || !r.stop })
  | .release =>
      some ({ s with claimed := false }.write (.release i), { r with pc := .forget })
  | .forget =>
      if s.start = .idle then
        some ({ s with holder := if s.holder = some i then none else s.holder },
          { r with pc := .onEnd })
      else none
  | .onEnd => some (s, { r with pc := .close })
  | .close => some (s, { r with pc := .done })
  | .done => none

def step : Event → Option State
  | .start => if s.start = .idle then some { s with start := .stopping } else none
  | .go => s.startStep
  | .cancel i => do
      let r ← s.runners[i]?
      pure (s.setRunner i { r with stop := true })
  | .run i x => do
      let r ← s.runners[i]?
      let (t, r') ← s.runStep i r x
      pure (t.setRunner i r')

end State

end Sky.Sources
