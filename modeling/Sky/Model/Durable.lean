import Mathlib

/-! # Durable runs

The tables of `Std.Durable` and the calls that work on them, one SQL statement a step. A workflow
body is what it asks next, as a function of the values that its calls have returned. -/

namespace Sky.Durable

def leaseMs : ℤ := 30 * 60 * 1000

/-- The wake time of a run that waits for a signal. -/
def farFuture : ℤ := 95617584000000

def suspendMarker : String := "\x01sky.durable.suspend\x01"

structure Codec (V : Type*) where
  toJson : V → String
  fromJson : String → Except String V

/-- What a call of a body returns: a value, or nothing for `sleep`. -/
inductive Answer (V : Type*) where
  | value (v : V)
  | unit
  deriving DecidableEq

/-- What a body does next. -/
inductive Op (V : Type*) where
  | step (codec : Codec V) (stepId : String)
  | sleep (sleepId : String) (ms : ℤ)
  | awaitSignal (codec : Codec V) (name : String)
  | done (output : String)
  | fail (message : String)

abbrev Body (V : Type*) := List (Answer V) → Op V

structure RegisteredWorkflow (V : Type*) where
  name : String
  version : String
  run : String → Body V

inductive Status where
  | running
  | waiting
  | done
  | failed
  | dead
  deriving DecidableEq

/-- A row of `_sky_durable_runs`. -/
structure Row where
  workflow : String
  version : String
  status : Status
  input : String
  output : Option String
  attempts : ℕ
  wakeAt : ℤ
  waitingSignal : Option String
  lastError : String
  claimedAt : Option ℤ
  updatedAt : ℤ
  deriving DecidableEq

inductive VersionPolicy where
  | failSafe
  | pinToStart
  deriving DecidableEq

/-- A call of `pollWith`, and the time it read. -/
structure Poll (V : Type*) where
  defs : List (RegisteredWorkflow V)
  policy : VersionPolicy
  now : ℤ

structure ClaimRow where
  id : String
  workflow : String
  version : String
  input : String
  deriving DecidableEq

/-- An execution of a body: the values it has got, and the keys that were in the journal when it
began. -/
structure Execution (V : Type*) where
  run : String
  body : Body V
  answers : List (Answer V)
  before : String → Bool

/-- The statement that ends the work on a claimed run. -/
inductive Close where
  | done (output : String)
  | release
  | park
  | failed (message : String)
  | dead (message : String)
  deriving DecidableEq

/-- Where a call stands. -/
inductive Pc (V : Type*) where
  | finished
  | start (id workflow version input : String) (now : ℤ)
  | signalInsert (run name payload : String) (now : ℤ)
  | signalWake (run : String) (now : ℤ)
  | claimSelect (p : Poll V)
  | claimUpdate (p : Poll V) (row : ClaimRow)
  | body (x : Execution V)
  | stepTask (x : Execution V) (codec : Codec V) (stepId : String)
  | stepWrite (x : Execution V) (codec : Codec V) (stepId : String) (result : V)
  | sleepWrite (x : Execution V) (sleepId : String) (wake : ℤ)
  | sleepWake (x : Execution V) (wake : ℤ)
  | awaitPark (x : Execution V) (name : String)
  | close (run : String) (c : Close)
  | compactJournal (cutoff : ℤ)
  | compactSignals (cutoff : ℤ)

/-- The tables, the clock and the calls. `parked`, `histories` and `ran` are the history: the
signal that a run was last suspended for, the values of each execution as it got them, and the
step tasks that were run, with the keys that were in the journal when their execution began. -/
structure State (V : Type*) where
  ids : List String
  runs : String → Option Row
  journal : String → String → Option String
  signals : String → String → Option String
  now : ℤ
  tasks : List (Pc V)
  parked : String → Option String
  histories : List (String × List (Answer V))
  ran : List ((String → Bool) × String)

/-! ## Definitions of workflows -/

/-- A run with no version matches by name only. -/
def findDef {V : Type*} (name version : String) (defs : List (RegisteredWorkflow V)) :
    Option (RegisteredWorkflow V) :=
  (defs.filter fun d => d.name = name && (version = "" || d.version = version)).head?

def anyNamed {V : Type*} (name : String) (defs : List (RegisteredWorkflow V)) : Bool :=
  !(defs.filter fun d => d.name = name).isEmpty

/-- What a failure of the body leads to. -/
def onError (message : String) : Close :=
  if message = suspendMarker then .release else .failed message

/-- An execution goes on: with its next call, or with the statement that ends it. -/
def Execution.next {V : Type*} (x : Execution V) : Pc V :=
  match x.body x.answers with
  | .done output => .close x.run (.done output)
  | .fail message => .close x.run (onError message)
  | .step .. | .sleep .. | .awaitSignal .. => .body x

/-- No lease holds the run. -/
def Row.Free (row : Row) (now : ℤ) : Prop := ∀ c, row.claimedAt = some c → c < now - leaseMs

instance (row : Row) (now : ℤ) : Decidable (Row.Free row now) :=
  match h : row.claimedAt with
  | none => .isTrue (by simp [Row.Free, h])
  | some c => decidable_of_iff (c < now - leaseMs) (by simp [Row.Free, h])

def Row.due (row : Row) (now : ℤ) : Bool :=
  decide (row.status = .running ∨ row.status = .waiting) && decide (row.wakeAt ≤ now) &&
    decide (Row.Free row now)

def Close.apply (c : Close) (at_ : ℤ) (row : Row) : Row :=
  match c with
  | .done output =>
      { row with status := .done, output := some output, claimedAt := none, updatedAt := at_ }
  | .release => { row with claimedAt := none, updatedAt := at_ }
  | .park => { row with status := .waiting, claimedAt := none, updatedAt := at_ }
  | .failed message =>
      { row with status := .failed, lastError := message, claimedAt := none, updatedAt := at_ }
  | .dead message =>
      { row with status := .dead, lastError := message, claimedAt := none, updatedAt := at_ }

/-- The run is over. -/
def Close.ends : Close → Bool
  | .done _ | .failed _ | .dead _ => true
  | .release | .park => false

def sleepKey (sleepId : String) : String := "__sleep:" ++ sleepId

namespace State

variable {V : Type*} (s : State V)

def init (now : ℤ) : State V where
  ids := []
  runs := fun _ => none
  journal := fun _ _ => none
  signals := fun _ _ => none
  now := now
  tasks := []
  parked := fun _ => none
  histories := []
  ran := []

/-! ## Statements -/

def setTask (i : ℕ) (pc : Pc V) : State V := { s with tasks := s.tasks.set i pc }

/-- `UPDATE _sky_durable_runs SET … WHERE id = ?`. -/
def update (id : String) (f : Row → Row) : State V :=
  { s with runs := Function.update s.runs id ((s.runs id).map f) }

/-- `INSERT … ON CONFLICT (run_id, step_id) DO NOTHING`. -/
def writeJournal (run key json : String) : State V :=
  match s.journal run key with
  | some _ => s
  | none =>
      { s with journal := Function.update s.journal run (Function.update (s.journal run) key json) }

def setParked (run : String) (name : Option String) : State V :=
  { s with parked := Function.update s.parked run name }

/-- The execution gets a value, and goes on. -/
def answer (i : ℕ) (x : Execution V) (a : Answer V) : State V :=
  { s.setTask i ({ x with answers := x.answers ++ [a] } : Execution V).next with
    histories := (x.run, x.answers ++ [a]) :: s.histories }

/-! ## Start and signal -/

def runStart (i : ℕ) (id workflow version input : String) (now : ℤ) : State V :=
  match s.runs id with
  | some _ => s.setTask i .finished
  | none =>
      { s with
        ids := id :: s.ids
        runs := Function.update s.runs id (some
          { workflow := workflow, version := version, status := .running, input := input
            output := none, attempts := 0, wakeAt := now, waitingSignal := none, lastError := ""
            claimedAt := none, updatedAt := now }) }.setTask i .finished

def runSignalInsert (i : ℕ) (run name payload : String) (now : ℤ) : State V :=
  match s.signals run name with
  | some _ => s.setTask i (.signalWake run now)
  | none =>
      { s with
        signals := Function.update s.signals run
          (Function.update (s.signals run) name payload) }.setTask i (.signalWake run now)

def runSignalWake (i : ℕ) (run : String) (now : ℤ) : State V :=
  (s.update run fun row =>
    { row with wakeAt := now, waitingSignal := none, updatedAt := now }).setTask i .finished

/-! ## The claim -/

def dueRuns (now : ℤ) : List String :=
  s.ids.filter fun id => (s.runs id).any fun row => Row.due row now

def wakeOf (id : String) : ℤ := (s.runs id).elim 0 Row.wakeAt

/-- The candidate with the least wake time; `id` is the one that the database gives. -/
def runClaimSelect (i : ℕ) (id : String) (p : Poll V) : Option (State V) :=
  if s.dueRuns p.now = [] then some (s.setTask i .finished)
  else if id ∈ s.dueRuns p.now ∧ ∀ other ∈ s.dueRuns p.now, s.wakeOf id ≤ s.wakeOf other then
    (s.runs id).map fun row =>
      s.setTask i (.claimUpdate p ⟨id, row.workflow, row.version, row.input⟩)
  else none

/-- `advance`: the body of the run's definition, or what the policy says. -/
def advance (p : Poll V) (row : ClaimRow) : Pc V :=
  match findDef row.workflow row.version p.defs with
  | some d =>
      Execution.next
        { run := row.id, body := d.run row.input, answers := []
          before := fun key => (s.journal row.id key).isSome }
  | none =>
      if anyNamed row.workflow p.defs then
        match p.policy with
        | .failSafe =>
            .close row.id (.failed ("version mismatch: run version '" ++ row.version ++
              "' of workflow '" ++ row.workflow ++ "' has no registered definition"))
        | .pinToStart => .close row.id .park
      else .close row.id (.dead ("no registered workflow named " ++ row.workflow))

def runClaimUpdate (i : ℕ) (p : Poll V) (row : ClaimRow) : State V :=
  match s.runs row.id with
  | none => s.setTask i .finished
  | some r =>
      if Row.Free r p.now then
        (s.update row.id fun r =>
          { r with
            claimedAt := some p.now
            status := .running
            attempts := r.attempts + 1
            updatedAt := p.now }).setTask i (s.advance p row)
      else s.setTask i .finished

/-! ## The calls of a body -/

/-- The first statement of a call. -/
def runBody (i : ℕ) (at_ : ℤ) (x : Execution V) : State V :=
  match x.body x.answers with
  | .step codec stepId =>
      match s.journal x.run stepId with
      | some json =>
          match codec.fromJson json with
          | .ok v => s.answer i x (.value v)
          | .error e => s.setTask i (.close x.run (onError e))
      | none => s.setTask i (.stepTask x codec stepId)
  | .sleep sleepId ms =>
      match s.journal x.run (sleepKey sleepId) with
      | some _ => s.answer i x .unit
      | none => s.setTask i (.sleepWrite x sleepId (at_ + ms))
  | .awaitSignal codec name =>
      match s.signals x.run name with
      | some payload =>
          match codec.fromJson payload with
          | .ok v => s.answer i x (.value v)
          | .error e => s.setTask i (.close x.run (onError e))
      | none => s.setTask i (.awaitPark x name)
  | .done output => s.setTask i (.close x.run (.done output))
  | .fail message => s.setTask i (.close x.run (onError message))

/-- The step's task is run. -/
def runStepTask (i : ℕ) (result : Except String V) (x : Execution V) (codec : Codec V)
    (stepId : String) : State V :=
  let s := { s with ran := (x.before, stepId) :: s.ran }
  match result with
  | .ok v => s.setTask i (.stepWrite x codec stepId v)
  | .error e => s.setTask i (.close x.run (onError e))

/-- `setWake`, and the suspension. -/
def runSleepWake (i : ℕ) (at_ : ℤ) (x : Execution V) (wake : ℤ) : State V :=
  ((s.update x.run fun row => { row with wakeAt := wake, updatedAt := at_ }).setParked x.run
    none).setTask i (.close x.run .release)

/-- `setWaitingSignal`, and the suspension. -/
def runAwaitPark (i : ℕ) (at_ : ℤ) (x : Execution V) (name : String) : State V :=
  ((s.update x.run fun row =>
    { row with
      status := .waiting
      waitingSignal := some name
      wakeAt := farFuture
      updatedAt := at_ }).setParked x.run (some name)).setTask i (.close x.run .release)

/-! ## The end of an advance -/

def runClose (i : ℕ) (at_ : ℤ) (run : String) (c : Close) : State V :=
  let s := s.update run (Close.apply c at_)
  (if Close.ends c then s.setParked run none else s).setTask i .finished

/-! ## Compaction -/

def collapsed (cutoff : ℤ) (run : String) : Bool :=
  (s.runs run).any fun row =>
    decide (row.status = .done ∨ row.status = .dead ∨ row.status = .failed) &&
      decide (row.updatedAt ≤ cutoff)

def runCompactJournal (i : ℕ) (cutoff : ℤ) : State V :=
  { s with
    journal := fun run => if s.collapsed cutoff run then fun _ => none else s.journal run }.setTask i
      (.compactSignals cutoff)

def runCompactSignals (i : ℕ) (cutoff : ℤ) : State V :=
  { s with
    signals := fun run => if s.collapsed cutoff run then fun _ => none else s.signals run }.setTask i
      .finished

/-! ## Steps -/

/-- What a statement may depend on: the clock as its call read it, the row the database gives to
a claim, and the outcome of a step's task. -/
structure Input (V : Type*) where
  at_ : ℤ
  id : String
  result : Except String V

def run (i : ℕ) (a : Input V) : Option (State V) :=
  match s.tasks[i]? with
  | none | some .finished => none
  | some (.start id workflow version input now) =>
      some (s.runStart i id workflow version input now)
  | some (.signalInsert run name payload now) => some (s.runSignalInsert i run name payload now)
  | some (.signalWake run now) => some (s.runSignalWake i run now)
  | some (.claimSelect p) => s.runClaimSelect i a.id p
  | some (.claimUpdate p row) => some (s.runClaimUpdate i p row)
  | some (.body x) => some (s.runBody i a.at_ x)
  | some (.stepTask x codec stepId) => some (s.runStepTask i a.result x codec stepId)
  | some (.stepWrite x codec stepId result) =>
      some ((s.writeJournal x.run stepId (codec.toJson result)).answer i x (.value result))
  | some (.sleepWrite x sleepId wake) =>
      some ((s.writeJournal x.run (sleepKey sleepId) (toString wake)).setTask i
        (.sleepWake x wake))
  | some (.sleepWake x wake) => some (s.runSleepWake i a.at_ x wake)
  | some (.awaitPark x name) => some (s.runAwaitPark i a.at_ x name)
  | some (.close run c) => some (s.runClose i a.at_ run c)
  | some (.compactJournal cutoff) => some (s.runCompactJournal i cutoff)
  | some (.compactSignals cutoff) => some (s.runCompactSignals i cutoff)

end State

/-- A call of the module. -/
inductive Call (V : Type*) where
  | start (id workflow version input : String)
  | signal (run name payload : String)
  | poll (defs : List (RegisteredWorkflow V)) (policy : VersionPolicy)
  | compact (retentionMs : ℤ)

/-- The first statement of a call that read the clock. -/
def Call.enter {V : Type*} (now : ℤ) : Call V → Pc V
  | .start id workflow version input => .start id workflow version input now
  | .signal run name payload => .signalInsert run name payload now
  | .poll defs policy => .claimSelect ⟨defs, policy, now⟩
  | .compact retentionMs => .compactJournal (now - retentionMs)

inductive Event (V : Type*) where
  | call (c : Call V)
  | run (i : ℕ) (a : State.Input V)
  | crash (i : ℕ)
  | tick (now : ℤ)

/-- A worker, which may crash. -/
def Pc.isWorker {V : Type*} : Pc V → Bool
  | .claimSelect _ | .claimUpdate .. | .body _ | .stepTask .. | .stepWrite .. | .sleepWrite ..
  | .sleepWake .. | .awaitPark .. | .close .. => true
  | .finished | .start .. | .signalInsert .. | .signalWake .. | .compactJournal _
  | .compactSignals _ => false

/-- One step. The clock never goes back, and no call reads it ahead. -/
def State.step {V : Type*} (s : State V) (e : Event V) : Option (State V) :=
  match e with
  | .call c => some { s with tasks := s.tasks ++ [c.enter s.now] }
  | .run i a => if a.at_ ≤ s.now then s.run i a else none
  | .crash i =>
      match s.tasks[i]? with
      | some pc => if pc.isWorker then some (s.setTask i .finished) else none
      | none => none
  | .tick now => if s.now ≤ now then some { s with now := now } else none

end Sky.Durable
