import Mathlib

/-! # `Std.Sync` queues

A bounded queue that any number of tasks use. A call works under the queue's lock in one step; a
call that has to wait takes the current `changed` channel with it and waits for that channel to be
closed. Every change closes the channel and makes a new one. -/

namespace Sky.Sync

/-- `changed` numbers the channels: those before it are closed. -/
structure SyncQueue (V : Type) where
  items : List V
  cap : ℕ
  closed : Bool
  changed : ℕ
  deriving DecidableEq

def newQueue {V : Type} (c : ℤ) : Except String (SyncQueue V) :=
  if c < 1 then
    .error ("Sync.newQueue: capacity " ++ toString c ++ ", want 1 or more")
  else .ok { items := [], cap := c.toNat, closed := false, changed := 0 }

/-- `timeout` is in nanoseconds; a negative one waits without limit. -/
inductive Call (V : Type) where
  | push (v : V)
  | syncPop (timeout : ℤ) (op : String)
  | close
  | size
  deriving DecidableEq

def Call.pop {V : Type} : Call V := .syncPop (-1) "Sync.pop"

/-- The nanoseconds are an `int64`. -/
def Call.popWithin {V : Type} (ms : ℤ) : Call V :=
  .syncPop ((max ms 0 * 1000000).bmod (2 ^ 64)) "Sync.popWithin"

inductive SyncError where
  | unavailable (message : String)
  | timeout (message : String)
  deriving DecidableEq

inductive Answer (V : Type) where
  | unit
  | item (v : Option V)
  | size (n : ℕ)
  deriving DecidableEq

abbrev Outcome (V : Type) := Except SyncError (Answer V)

namespace SyncQueue

variable {V : Type} (q : SyncQueue V)

def signalLocked : SyncQueue V := { q with changed := q.changed + 1 }

/-- What a call does under the lock, and how it ends if it need not wait. -/
def enter : Call V → SyncQueue V × Option (Outcome V)
  | .push v =>
      if q.closed then (q, some (.error (.unavailable "Sync.push: the queue is closed")))
      else if q.items.length < q.cap then
        ({ q with items := q.items ++ [v] }.signalLocked, some (.ok .unit))
      else (q, none)
  | .syncPop _ _ =>
      match q.items with
      | v :: rest => ({ q with items := rest }.signalLocked, some (.ok (.item (some v))))
      | [] => if q.closed then (q, some (.ok (.item none))) else (q, none)
  | .close => (if q.closed then q else { q with closed := true }.signalLocked, some (.ok .unit))
  | .size => (q, some (.ok (.size q.items.length)))

end SyncQueue

def timeoutMessage (timeout : ℤ) (op : String) : String :=
  op ++ ": nothing arrived within " ++ toString (timeout.tdiv 1000000) ++ " ms"

inductive Pc (V : Type) where
  | ready (c : Call V)
  | waiting (c : Call V) (ch : ℕ)
  | ended (c : Call V) (r : Outcome V)
  deriving DecidableEq

/-- The queue and its calls; which call pushed and which popped which value, in that order. -/
structure State (V : Type) where
  q : SyncQueue V
  tasks : List (Pc V)
  pushed : List (ℕ × V)
  popped : List (ℕ × V)

/-- A call is made, goes on, or is timed out. -/
inductive Event (V : Type) where
  | call (c : Call V)
  | run (i : ℕ)
  | timeout (i : ℕ)

namespace State

variable {V : Type} (s : State V)

def init (q : SyncQueue V) : State V := { q := q, tasks := [], pushed := [], popped := [] }

def setTask (i : ℕ) (pc : Pc V) : State V := { s with tasks := s.tasks.set i pc }

/-- What a call that ends has pushed or popped. -/
def record (i : ℕ) : Call V → Outcome V → State V
  | .push v, .ok _ => { s with pushed := s.pushed ++ [(i, v)] }
  | .syncPop _ _, .ok (.item (some v)) => { s with popped := s.popped ++ [(i, v)] }
  | _, _ => s

/-- The lock is held from here to the end or to the wait. -/
def enter (i : ℕ) (c : Call V) : State V :=
  match s.q.enter c with
  | (q, some r) => ({ s with q := q }.record i c r).setTask i (.ended c r)
  | (q, none) => { s with q := q }.setTask i (.waiting c q.changed)

def step : Event V → Option (State V)
  | .call c => some { s with tasks := s.tasks ++ [.ready c] }
  | .run i =>
      match s.tasks[i]? with
      | some (.ready c) => some (s.enter i c)
      | some (.waiting c ch) => if ch < s.q.changed then some (s.setTask i (.ready c)) else none
      | some (.ended _ _) | none => none
  | .timeout i =>
      match s.tasks[i]? with
      | some (.waiting (.syncPop timeout op) _) =>
          if 0 ≤ timeout then
            some (s.setTask i (.ended (.syncPop timeout op)
              (.error (.timeout (timeoutMessage timeout op)))))
          else none
      | _ => none

end State

end Sky.Sync
