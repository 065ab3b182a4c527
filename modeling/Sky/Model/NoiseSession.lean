import Sky.Model.Noise

/-! # Sessions

An initiator and a responder, each with guards of its own, exchange the two handshake messages.
What each then sends is processed at the other end in the order in which it was sent. The calls of
one session may be concurrent: a call claims its guard in one step, and works, stores into its
guard and returns in another. -/

namespace Sky.Noise

open Library

/-! ## The two ends of a session -/

section

/-! ## The handshake -/

/-- An end after the handshake, and the payload that it read. -/
structure Peer where
  transport : Transport
  guards : List UInt64
  payload : Bytes

/-- The two ends; the initiator is `true`. -/
abbrev Ends := Bool → Peer

variable (prim : Primitives)

def establish (suite : Suite) (si ei sr er prologue payload payload' : Bytes) :
    Except String Ends := do
  let a := noiseNewSuite prim suite true si (prim.kxPublic sr) prologue ei 0
  let b := noiseNewSuite prim suite false sr [] prologue er 0
  let (first, guardsA) := (a.writeMessage prim payload).exec [0]
  let (a, message) ← first
  let (first, guardsB) := (b.readMessage prim message).exec [0]
  let (b, readB) ← first
  let (second, guardsB) := (b.writeMessage prim payload').exec guardsB
  let (b, message) ← second
  let (second, guardsA) := (a.readMessage prim message).exec guardsA
  let (a, readA) ← second
  let (last, guardsA) := a.split.exec guardsA
  let transportA ← last
  let (last, guardsB) := b.split.exec guardsB
  let transportB ← last
  pure fun initiator =>
    if initiator then ⟨transportA, guardsA, readA⟩ else ⟨transportB, guardsB, readB⟩

/-! ## Messages and rekeys -/

/-- A message, or the point where the sender has changed its key. -/
inductive Parcel where
  | message (ct : Bytes)
  | rekey

/-- The two ends and, for each of them, what it has sent that the other end has not processed, the
plaintexts and rekeys that it has sent, and what the other end made of them. -/
structure Session where
  ends : Ends
  inFlight : Bool → List Parcel
  sent : Bool → List (Option Bytes)
  processed : Bool → List (Except String (Option Bytes))

def Session.init (ends : Ends) : Session where
  ends := ends
  inFlight _ := []
  sent _ := []
  processed _ := []

/-- An end seals a message or changes its sending key; or the other end processes what comes
next from it. -/
inductive Exchange where
  | encrypt (e : Bool) (pt : Bytes)
  | rekeySend (e : Bool)
  | process (e : Bool)

namespace Session

variable (s : Session)

def setPeer (e : Bool) (t : Transport) (guards : List UInt64) : Session :=
  { s with ends := Function.update s.ends e { s.ends e with transport := t, guards := guards } }

/-- A call that fails returns no transport: the end keeps the one that it has. -/
def setGuards (e : Bool) (guards : List UInt64) : Session :=
  s.setPeer e (s.ends e).transport guards

def send (e : Bool) (p : Parcel) (pt : Option Bytes) : Session :=
  { s with
    inFlight := Function.update s.inFlight e (s.inFlight e ++ [p])
    sent := Function.update s.sent e (s.sent e ++ [pt]) }

def receive (e : Bool) (rest : List Parcel) (r : Except String (Option Bytes)) : Session :=
  { s with
    inFlight := Function.update s.inFlight e rest
    processed := Function.update s.processed e (s.processed e ++ [r]) }

def step : Exchange → Session
  | .encrypt e pt =>
      let (r, guards) := ((s.ends e).transport.encrypt prim pt).exec (s.ends e).guards
      match r with
      | .ok (t, ct) => (s.setPeer e t guards).send e (.message ct) (some pt)
      | .error _ => s.setGuards e guards
  | .rekeySend e =>
      let (r, guards) := ((s.ends e).transport.rekeySend prim).exec (s.ends e).guards
      match r with
      | .ok t => (s.setPeer e t guards).send e .rekey none
      | .error _ => s.setGuards e guards
  | .process e =>
      match s.inFlight e with
      | [] => s
      | .message ct :: rest =>
          let (r, guards) := ((s.ends !e).transport.decrypt prim ct).exec (s.ends !e).guards
          match r with
          | .ok (t, pt) => (s.setPeer (!e) t guards).receive e rest (.ok (some pt))
          | .error message => (s.setGuards (!e) guards).receive e rest (.error message)
      | .rekey :: rest =>
          let (r, guards) := ((s.ends !e).transport.rekeyReceive prim).exec (s.ends !e).guards
          match r with
          | .ok t => (s.setPeer (!e) t guards).receive e rest (.ok none)
          | .error message => (s.setGuards (!e) guards).receive e rest (.error message)

def run (xs : List Exchange) : Session := xs.foldl (step prim) s

end Session

end

/-! ## Concurrent calls of one session -/

/-- A call of the module, and the state value that it is made on. -/
inductive Call where
  | writeMessage (hs : Handshake) (payload : Bytes)
  | readMessage (hs : Handshake) (msg : Bytes)
  | split (hs : Handshake)
  | encrypt (t : Transport) (pt : Bytes)
  | decrypt (t : Transport) (ct : Bytes)
  | rekeySend (t : Transport)
  | rekeyReceive (t : Transport)

/-- The state value that a call returns. -/
inductive Value where
  | handshake (hs : Handshake)
  | transport (t : Transport)

def Attempt.map {α β : Type} (f : α → β) (a : Attempt α) : Attempt β where
  check := a.check
  guard := a.guard
  pos := a.pos
  allocates := a.allocates
  body next := do
    let x ← a.body next
    pure (f x)

def Call.attempt (prim : Primitives) : Call → Attempt Value
  | .writeMessage hs payload => (hs.writeMessage prim payload).map fun r => .handshake r.1
  | .readMessage hs msg => (hs.readMessage prim msg).map fun r => .handshake r.1
  | .split hs => hs.split.map .transport
  | .encrypt t pt => (t.encrypt prim pt).map fun r => .transport r.1
  | .decrypt t ct => (t.decrypt prim ct).map fun r => .transport r.1
  | .rekeySend t => (t.rekeySend prim).map .transport
  | .rekeyReceive t => (t.rekeyReceive prim).map .transport

inductive Pc where
  | start (c : Call)
  | claimed (c : Call)
  | finished

/-- The guards, the state values that were returned so far, the calls, and the log of them all. -/
structure State where
  guards : List UInt64
  handshakes : List Handshake
  transports : List Transport
  tasks : List Pc
  log : List Entry

def State.init (prim : Primitives) (suite : Suite) (initiator : Bool) (s rs prologue e : Bytes) :
    State where
  guards := [0]
  handshakes := [noiseNewSuite prim suite initiator s rs prologue e 0]
  transports := []
  tasks := []
  log := []

/-- A call on the value with the given number. -/
inductive Request where
  | writeMessage (i : ℕ) (payload : Bytes)
  | readMessage (i : ℕ) (msg : Bytes)
  | split (i : ℕ)
  | encrypt (i : ℕ) (pt : Bytes)
  | decrypt (i : ℕ) (ct : Bytes)
  | rekeySend (i : ℕ)
  | rekeyReceive (i : ℕ)

inductive Event where
  | call (r : Request)
  | run (i : ℕ)

namespace State

variable (prim : Primitives) (s : State)

def find : Request → Option Call
  | .writeMessage i payload => s.handshakes[i]?.map fun hs => .writeMessage hs payload
  | .readMessage i msg => s.handshakes[i]?.map fun hs => .readMessage hs msg
  | .split i => s.handshakes[i]?.map .split
  | .encrypt i pt => s.transports[i]?.map fun t => .encrypt t pt
  | .decrypt i ct => s.transports[i]?.map fun t => .decrypt t ct
  | .rekeySend i => s.transports[i]?.map .rekeySend
  | .rekeyReceive i => s.transports[i]?.map .rekeyReceive

def setTask (i : ℕ) (pc : Pc) : State := { s with tasks := s.tasks.set i pc }

/-- `noiseGuard.claim`, after what the call checks first. -/
def claim (i : ℕ) (c : Call) : State :=
  let a := c.attempt prim
  match a.check with
  | some _ => s.setTask i .finished
  | none =>
      if s.guards[a.guard]? = some a.pos then
        { s with guards := s.guards.set a.guard (a.pos + 1) }.setTask i (.claimed c)
      else s.setTask i .finished

def addValue : Except Failure Value → State
  | .ok (.handshake hs) => { s with handshakes := s.handshakes ++ [hs] }
  | .ok (.transport t) => { s with transports := s.transports ++ [t] }
  | .error _ => s

/-- The rest of a call. -/
def finish (i : ℕ) (c : Call) : State :=
  let a := c.attempt prim
  let done := a.body s.guards.length
  { s.addValue done.result with
    guards := a.settle done.result s.guards
    log := s.log ++ done.log }.setTask i .finished

def step (e : Event) : Option State :=
  match e with
  | .call r => (s.find r).map fun c => { s with tasks := s.tasks ++ [.start c] }
  | .run i =>
      match s.tasks[i]? with
      | some (.start c) => some (s.claim prim i c)
      | some (.claimed c) => some (s.finish prim i c)
      | some .finished | none => none

end State

end Sky.Noise
