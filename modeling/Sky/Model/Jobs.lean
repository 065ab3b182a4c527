import Mathlib

/-! # Background jobs

The two job stores and the worker. Times are nanoseconds since the epoch, and SQL
statements are read as operations on the rows of a table: which of the rows with the
least `next_run_at` an `ORDER BY … LIMIT 1` takes is a parameter. -/

namespace Sky.Jobs

abbrev JobID := ℕ

abbrev Time := ℤ

/-- Go's zero time, the first of January of year 1. -/
def zeroTime : Time := -62135596800 * 10 ^ 9

structure JobRecord where
  id : JobID := 0
  queue : String
  name : String
  payload : List UInt8 := []
  attempts : ℕ := 0
  nextRunAt : Time := zeroTime
  enqueuedAt : Time := zeroTime
  lastError : String := ""
  deriving DecidableEq

/-- What a call to a store returns. -/
inductive Answer where
  | enqueued (id : JobID)
  | job (rec : JobRecord)
  | depth (n : ℕ)
  | done
  | errNoJob
  | errJobNotFound
  | errStorage
  deriving DecidableEq

/-- The times that a record gets when it has none. -/
def JobRecord.stamped (rec : JobRecord) (now : Time) : JobRecord :=
  { rec with
    enqueuedAt := if rec.enqueuedAt = zeroTime then now else rec.enqueuedAt
    nextRunAt := if rec.nextRunAt = zeroTime then now else rec.nextRunAt }

/-! ## The memory store -/

structure MemoryStore where
  nextID : ℕ := 0
  queue : List JobRecord := []
  deriving DecidableEq

namespace MemoryStore

variable (m : MemoryStore)

def enqueue (now : Time) (rec : JobRecord) : MemoryStore × Answer :=
  ({ nextID := m.nextID + 1, queue := m.queue ++ [{ rec with id := m.nextID + 1 }.stamped now] },
    .enqueued (m.nextID + 1))

/-- A job that a claim can take. -/
def ready (queue : String) (now : Time) (r : JobRecord) : Bool :=
  r.queue = queue && r.nextRunAt ≤ now

def claim (queue : String) (now : Time) : MemoryStore × Answer :=
  match m.queue.find? (ready queue now) with
  | some r => ({ m with queue := m.queue.eraseP (ready queue now) }, .job r)
  | none => (m, .errNoJob)

def complete (_ : JobID) : MemoryStore × Answer := (m, .done)

def reschedule (rec : JobRecord) : MemoryStore × Answer :=
  ({ m with queue := m.queue ++ [rec] }, .done)

def deadLetter (_ : JobID) (_ : String) : MemoryStore × Answer := (m, .done)

def cancel (id : JobID) : MemoryStore × Answer :=
  if m.queue.any (·.id = id) then ({ m with queue := m.queue.eraseP (·.id = id) }, .done)
  else (m, .errJobNotFound)

def queueDepth (queue : String) : MemoryStore × Answer :=
  (m, .depth (m.queue.countP (·.queue = queue)))

end MemoryStore

/-! ## The SQLite store -/

/-- A row of `_sky_jobs`. `claimedAt` is zero while no worker has the job. -/
structure Row where
  job : JobRecord
  claimedAt : Time := 0
  deriving DecidableEq

/-- A row of `_sky_jobs_dead`. -/
structure DeadRow where
  id : JobID
  queue : String
  name : String
  payload : List UInt8
  attempts : ℕ
  enqueuedAt : Time
  diedAt : Time
  finalError : String
  deriving DecidableEq

structure SqliteStore where
  sequence : ℕ := 0
  jobs : List Row := []
  dead : List DeadRow := []
  deriving DecidableEq

/-- The database engine: a row with the least `next_run_at`. -/
structure Engine where
  first : List Row → Option Row
  mem : ∀ rows r, first rows = some r → r ∈ rows
  least : ∀ rows r, first rows = some r → ∀ r' ∈ rows, r.job.nextRunAt ≤ r'.job.nextRunAt
  some : ∀ rows, rows ≠ [] → (first rows).isSome

def lease : Time := 30 * 60 * 10 ^ 9

namespace SqliteStore

variable (s : SqliteStore)

def enqueue (now : Time) (rec : JobRecord) : SqliteStore × Answer :=
  ({ s with
      sequence := s.sequence + 1
      jobs := s.jobs ++ [⟨{ rec with id := s.sequence + 1 }.stamped now, 0⟩] },
    .enqueued (s.sequence + 1))

/-- The `WHERE` clause of a claim. -/
def claimable (queue : String) (now : Time) (r : Row) : Bool :=
  r.job.queue = queue && r.job.nextRunAt ≤ now && (r.claimedAt = 0 || r.claimedAt < now - lease)

def claim (engine : Engine) (queue : String) (now : Time) : SqliteStore × Answer :=
  match engine.first (s.jobs.filter (claimable queue now)) with
  | some r =>
      ({ s with jobs := s.jobs.map fun r' =>
          if r'.job.id = r.job.id then { r' with claimedAt := now } else r' }, .job r.job)
  | none => (s, .errNoJob)

def complete (id : JobID) : SqliteStore × Answer :=
  ({ s with jobs := s.jobs.filter (·.job.id ≠ id) }, .done)

def reschedule (rec : JobRecord) : SqliteStore × Answer :=
  ({ s with jobs := s.jobs.map fun r =>
      if r.job.id = rec.id then
        ⟨{ r.job with
          attempts := rec.attempts
          nextRunAt := rec.nextRunAt
          lastError := rec.lastError }, 0⟩
      else r }, .done)

/-- The dead-letter table takes one row for each id. -/
def deadLetter (now : Time) (id : JobID) (finalError : String) : SqliteStore × Answer :=
  match s.jobs.find? (·.job.id = id) with
  | none => (s, .done)
  | some r =>
      if s.dead.any (·.id = id) then (s, .errStorage)
      else
        let combinedError :=
          if r.job.lastError ≠ "" then finalError ++ " (last attempt: " ++ r.job.lastError ++ ")"
          else finalError
        ({ s with
            jobs := s.jobs.filter (·.job.id ≠ id)
            dead := s.dead ++ [⟨id, r.job.queue, r.job.name, r.job.payload, r.job.attempts,
              r.job.enqueuedAt, now, combinedError⟩] }, .done)

def cancel (id : JobID) : SqliteStore × Answer :=
  let cancelled (r : Row) : Bool := r.job.id = id && r.claimedAt = 0
  ({ s with jobs := s.jobs.filter fun r => !cancelled r },
    if s.jobs.any cancelled then .done else .errJobNotFound)

def queueDepth (queue : String) : SqliteStore × Answer :=
  (s, .depth (s.jobs.countP (·.job.queue = queue)))

end SqliteStore

/-! ## Calls -/

inductive Call where
  | enqueue (rec : JobRecord)
  | claim (queue : String)
  | complete (id : JobID)
  | reschedule (rec : JobRecord)
  | deadLetter (id : JobID) (finalError : String)
  | cancel (id : JobID)
  | queueDepth (queue : String)
  deriving DecidableEq

def MemoryStore.call (m : MemoryStore) (now : Time) : Call → MemoryStore × Answer
  | .enqueue rec => m.enqueue now rec
  | .claim queue => m.claim queue now
  | .complete id => m.complete id
  | .reschedule rec => m.reschedule rec
  | .deadLetter id finalError => m.deadLetter id finalError
  | .cancel id => m.cancel id
  | .queueDepth queue => m.queueDepth queue

def SqliteStore.call (engine : Engine) (s : SqliteStore) (now : Time) : Call → SqliteStore × Answer
  | .enqueue rec => s.enqueue now rec
  | .claim queue => s.claim engine queue now
  | .complete id => s.complete id
  | .reschedule rec => s.reschedule rec
  | .deadLetter id finalError => s.deadLetter now id finalError
  | .cancel id => s.cancel id
  | .queueDepth queue => s.queueDepth queue

/-! ## The worker -/

def maxAttempts : ℕ := 10

/-- The wait before a retry: `2 ^ (attempt - 1)` seconds, at most an hour, and up to a
quarter of it more. `rand` draws a number below its bound. -/
def backoffFor (attempt : ℕ) (rand : ℤ → ℤ) : ℤ :=
  let exp := min (2 ^ min (max attempt 1 - 1) 31 * 10 ^ 9) (3600 * 10 ^ 9)
  if exp / 4 ≤ 0 then exp else exp + rand (exp / 4)

/-- What `dispatch` does with the record of a job whose handler has returned: the call to
the store. -/
def outcome (rec : JobRecord) (error : Option String) (now : Time) (rand : ℤ → ℤ) : Call :=
  match error with
  | none => .complete rec.id
  | some e =>
      let attempts := rec.attempts + 1
      if maxAttempts ≤ attempts then
        .deadLetter rec.id ("max attempts (" ++ toString maxAttempts ++ ") reached: " ++ e)
      else
        .reschedule { rec with
          attempts := attempts
          nextRunAt := now + backoffFor attempts rand
          lastError := e }

/-- Where a worker is with its job. -/
inductive Phase where
  | idle
  | claimed (rec : JobRecord)
  | running (rec : JobRecord)
  | ran (rec : JobRecord) (error : Option String)
  deriving DecidableEq

/-- The workers over one memory store. -/
structure System where
  store : MemoryStore := {}
  workers : List Phase
  deriving DecidableEq

/-- What happened to a job. -/
inductive Event where
  | enqueued (id : JobID)
  | claimed (id : JobID)
  | started (id : JobID)
  | succeeded (id : JobID)
  | failed (id : JobID)
  | unhandled (id : JobID)
  | completed (id : JobID)
  | rescheduled (id : JobID)
  | deadLettered (id : JobID)
  | cancelled (id : JobID)
  | refused
  deriving DecidableEq

/-- The event of a worker's last call about its job. -/
def Call.event : Call → Event
  | .complete id => .completed id
  | .deadLetter id _ => .deadLettered id
  | .reschedule rec => .rescheduled rec.id
  | _ => .refused

/-- One step of the workers or of the users of the store. A job is enqueued without
attempts, and the error of a handler that panics is the text of the panic. -/
inductive Step : System → Event → System → Prop where
  | enqueue {s} (queue name payload nextRunAt now) :
      Step s (.enqueued (s.store.nextID + 1))
        { s with store := (s.store.enqueue now { queue, name, payload, nextRunAt }).1 }
  | claim {s : System} {i store rec} (queue now) (idle : s.workers[i]? = some .idle)
      (job : s.store.claim queue now = (store, .job rec)) :
      Step s (.claimed rec.id) { store := store, workers := s.workers.set i (.claimed rec) }
  | noJob {s : System} {i : ℕ} (queue now) (idle : s.workers[i]? = some .idle)
      (empty : s.store.claim queue now = (s.store, .errNoJob)) : Step s .refused s
  | unhandled {s : System} {i rec} (claimed : s.workers[i]? = some (.claimed rec)) :
      Step s (.unhandled rec.id)
        { store := (s.store.deadLetter rec.id ("no handler registered for " ++ rec.name)).1
          workers := s.workers.set i .idle }
  | start {s : System} {i rec} (claimed : s.workers[i]? = some (.claimed rec)) :
      Step s (.started rec.id) { s with workers := s.workers.set i (.running rec) }
  | succeed {s : System} {i rec} (running : s.workers[i]? = some (.running rec)) :
      Step s (.succeeded rec.id) { s with workers := s.workers.set i (.ran rec none) }
  | fail {s : System} {i rec} (error) (running : s.workers[i]? = some (.running rec)) :
      Step s (.failed rec.id) { s with workers := s.workers.set i (.ran rec (some error)) }
  | settle {s : System} {i rec error} (now rand) (ran : s.workers[i]? = some (.ran rec error)) :
      Step s (outcome rec error now rand).event
        { store := (s.store.call now (outcome rec error now rand)).1
          workers := s.workers.set i .idle }
  | cancel {s : System} {store} (id) (found : s.store.cancel id = (store, .done)) :
      Step s (.cancelled id) { s with store := store }
  | cancelMiss {s : System} {store} (id) (missing : s.store.cancel id = (store, .errJobNotFound)) :
      Step s .refused { s with store := store }

end Sky.Jobs
