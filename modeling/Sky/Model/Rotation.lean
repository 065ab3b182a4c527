import Mathlib

/-! # Rotation of session ids

The memory store with its aliases, and the page requests, the event requests and the rotations
that run against it, one shared access a step. -/

namespace Sky.Rotation

abbrev Sid := ℕ
abbrev Tab := ℕ
abbrev SessId := ℕ
abbrev TaskId := ℕ

/-- What the store keeps under a retired id. -/
structure SessionAlias where
  new : Option Sid
  tab : Option Tab
  graceUntil : ℕ
  deriving DecidableEq

def SessionAlias.inGrace (a : SessionAlias) (now : ℕ) : Bool :=
  a.new.isSome && decide (now < a.graceUntil)

/-- Every hop is in its grace window and was started by the tab. -/
def aliasChainAllows (hops : List SessionAlias) (tab : Option Tab) (now : ℕ) : Bool :=
  match tab with
  | none => false
  | some tab => !hops.isEmpty && hops.all fun h => h.inGrace now && decide (h.tab = some tab)

structure LiveSession where
  sid : Sid
  evicted : Bool
  mu : Option TaskId
  storeMu : Option TaskId
  deriving DecidableEq

inductive Kind where
  | page
  | event
  deriving DecidableEq

/-- A request: the id it presents, if of the right shape, its tab, and the id its body claims. -/
structure Request where
  kind : Kind
  val : Option Sid
  tab : Option Tab
  claimed : Option Sid
  deriving DecidableEq

/-- How a request came to its session id. -/
inductive Via where
  | presented
  | hops (hops : List SessionAlias) (now : ℕ)
  | minted
  deriving DecidableEq

/-- A request that has settled on a session id. -/
structure Resolved where
  request : Request
  sid : Sid
  via : Via
  deriving DecidableEq

/-- Whose alias chain is followed: the presented id's, or that of the id the body claims. -/
inductive Goal where
  | presented
  | claimed
  deriving DecidableEq

/-- A task with a session: a request, or work that a request started. `held` is the id whose
lock it took. -/
structure Worker where
  sess : SessId
  tab : Option Tab
  held : Option Sid
  deriving DecidableEq

/-- Where a task stands. -/
inductive Pc where
  | finished
  | lookup (r : Request) (val : Sid)
  | getAlias (r : Request) (val : Sid) (goal : Goal) (cur : Sid) (hops : List SessionAlias)
  | getNew (r : Request) (val : Sid) (goal : Goal) (hops : List SessionAlias) (new : Sid)
  | getEnd (r : Request) (val : Sid) (goal : Goal) (cur : Sid) (hops : List SessionAlias)
  | lockSid (b : Resolved)
  | getSession (b : Resolved)
  | adopt (b : Resolved) (sess : SessId)
  | bound (w : Worker)
  | persistLock (w : Worker)
  | persistSet (w : Worker)
  | rotateLock (w : Worker)
  | rekeyLock (w : Worker) (old : Sid)
  | rekey (w : Worker) (old : Sid)
  | setSid (w : Worker) (old new : Sid)
  | putAlias (w : Worker) (old new : Sid)
  | endAlias (w : Worker) (sid : Sid)
  | endDelete (w : Worker)
  deriving DecidableEq

/-- A request that got its session. -/
structure Binding where
  resolved : Resolved
  sess : SessId
  deriving DecidableEq

/-- The store, the sessions and the tasks. `used`, `put`, `retired` and `bindings` are the
history: the ids that were seen, the aliases that were written, the ids a rotation moved a
session from (with the end of the alias, once it is written) and the bindings so far. -/
structure State where
  sessions : Sid → Option SessId
  aliases : Sid → Option (SessionAlias × ℕ)
  objects : List LiveSession
  locker : Sid → Option TaskId
  tasks : List Pc
  now : ℕ
  used : List Sid
  put : List (Sid × SessionAlias)
  retired : Sid → Option (Option ℕ)
  bindings : List Binding

namespace State

def init : State where
  sessions := fun _ => none
  aliases := fun _ => none
  objects := []
  locker := fun _ => none
  tasks := []
  now := 0
  used := []
  put := []
  retired := fun _ => none
  bindings := []

variable (s : State)

/-! ## The store -/

def setTask (i : TaskId) (pc : Pc) : State := { s with tasks := s.tasks.set i pc }

def push (pc : Pc) : State := { s with tasks := s.tasks ++ [pc] }

def setSession (sid : Sid) (x : Option SessId) : State :=
  { s with sessions := Function.update s.sessions sid x }

def setObject (x : SessId) (o : LiveSession) : State := { s with objects := s.objects.set x o }

def setLocker (sid : Sid) (i : Option TaskId) : State :=
  { s with locker := Function.update s.locker sid i }

def use (sids : List Sid) : State := { s with used := sids ++ s.used }

def bind (b : Binding) : State := { s with bindings := b :: s.bindings }

/-- An alias that has not expired. -/
def lookupAlias (sid : Sid) : Option SessionAlias :=
  match s.aliases sid with
  | some (a, exp) => if s.now ≤ exp then some a else none
  | none => none

/-- The memory store does not take a session that was evicted. -/
def set (sid : Sid) (x : SessId) (o : LiveSession) : State :=
  if o.evicted then s else s.setSession sid (some x)

def setAlias (sid : Sid) (a : SessionAlias) (exp : ℕ) : State :=
  { s with
    aliases := Function.update s.aliases sid (some (a, exp))
    put := (sid, a) :: s.put }

def retire (sid : Sid) (exp : Option ℕ) : State :=
  { s with retired := Function.update s.retired sid (some exp) }

/-- `rekeySession`: the session leaves its old id and is stored under the new one. -/
def rekeySession (old new : Sid) (x : SessId) (o : LiveSession) : State :=
  let s := if s.sessions old = some x then s.setSession old none else s
  s.set new x o

/-! ## Requests -/

/-- The answer of `followAlias` to a request that waits for it: `pageSessionID` and
`resolveBoundSession`. -/
def followed (i : TaskId) (fresh : Sid) (r : Request) (val : Sid) (goal : Goal)
    (hops : List SessionAlias) (final : Option Sid) : State :=
  let answer (sid : Sid) (via : Via) : Pc :=
    match r.kind with
    | .page => .lockSid ⟨r, sid, via⟩
    | .event => .getSession ⟨r, sid, via⟩
  match goal with
  | .claimed => s.setTask i (if final = some val then answer val .presented else .finished)
  | .presented =>
      match hops with
      | [] => s.setTask i (answer val .presented)
      | hop :: _ =>
          match final, hop.inGrace s.now with
          | some sid, true =>
              let agrees := r.kind = .page ∨ r.claimed = none ∨ r.claimed = some val ∨
                r.claimed = some sid
              s.setTask i
                (if aliasChainAllows hops r.tab s.now ∧ agrees then answer sid (.hops hops s.now)
                else .finished)
          | _, _ =>
              match r.kind with
              | .page => (s.use [fresh]).setTask i (answer fresh .minted)
              | .event => s.setTask i .finished

/-- The first look at the presented id. -/
def runLookup (i : TaskId) (r : Request) (val : Sid) : State :=
  match s.sessions val, r.kind with
  | none, _ => s.setTask i (.getAlias r val .presented val [])
  | some _, .page => s.setTask i (.lockSid ⟨r, val, .presented⟩)
  | some _, .event =>
      match r.claimed with
      | none => s.setTask i (.getSession ⟨r, val, .presented⟩)
      | some claimed =>
          if claimed = val then s.setTask i (.getSession ⟨r, val, .presented⟩)
          else s.setTask i (.getAlias r val .claimed claimed [])

/-- One turn of the loop of `followAlias`, which follows four aliases at most. -/
def runGetAlias (i : TaskId) (fresh : Sid) (r : Request) (val : Sid) (goal : Goal) (cur : Sid)
    (hops : List SessionAlias) : State :=
  if 4 ≤ hops.length then s.followed i fresh r val goal hops none
  else
    match s.lookupAlias cur with
    | none =>
        if hops = [] then s.followed i fresh r val goal [] none
        else s.setTask i (.getEnd r val goal cur hops)
    | some a =>
        match a.new with
        | none => s.followed i fresh r val goal (hops ++ [a]) none
        | some new => s.setTask i (.getNew r val goal (hops ++ [a]) new)

def runGetNew (i : TaskId) (fresh : Sid) (r : Request) (val : Sid) (goal : Goal)
    (hops : List SessionAlias) (new : Sid) : State :=
  if (s.sessions new).isSome then s.followed i fresh r val goal hops (some new)
  else s.setTask i (.getAlias r val goal new hops)

def runGetEnd (i : TaskId) (fresh : Sid) (r : Request) (val : Sid) (goal : Goal) (cur : Sid)
    (hops : List SessionAlias) : State :=
  s.followed i fresh r val goal hops (if (s.sessions cur).isSome then some cur else none)

/-- The session of the id; a page request makes one where there is none. -/
def runGetSession (i : TaskId) (b : Resolved) : State :=
  match b.request.kind, s.sessions b.sid with
  | .page, some x => (s.setTask i (.adopt b x)).bind ⟨b, x⟩
  | .page, none =>
      let o : LiveSession := { sid := b.sid, evicted := false, mu := none, storeMu := none }
      ({ s with objects := s.objects ++ [o] }.setTask i (.adopt b s.objects.length)).bind
        ⟨b, s.objects.length⟩
  | .event, some x => (s.setTask i (.bound ⟨x, b.request.tab, none⟩)).bind ⟨b, x⟩
  | .event, none => s.setTask i .finished

/-- `handleInitial` sets the id of a session that is known under another one. -/
def runAdopt (i : TaskId) (b : Resolved) (x : SessId) (o : LiveSession) : State :=
  let s := if o.sid ≠ b.sid then s.setObject x { o with sid := b.sid } else s
  s.setTask i (.bound ⟨x, b.request.tab, some b.sid⟩)

/-! ## Rotations -/

section

-- the grace window, and how long an alias is kept
variable (grace ttl : ℕ)

/-- `rotateSessionLocked` under the session's lock. -/
def runRotateLock (i : TaskId) (w : Worker) (o : LiveSession) : Option State :=
  if o.mu ≠ none then none
  else if o.evicted then some (s.setTask i (.bound w))
  else some ((s.setObject w.sess { o with mu := some i }).setTask i (.rekeyLock w o.sid))

def runRekey (i : TaskId) (fresh : Sid) (w : Worker) (old : Sid) (o : LiveSession) : State :=
  (((s.rekeySession old fresh w.sess o).use [fresh, old]).retire old none).setTask i
    (.setSid w old fresh)

def runPutAlias (i : TaskId) (w : Worker) (old new : Sid) (o : LiveSession) : State :=
  (((s.setAlias old ⟨some new, w.tab, s.now + grace⟩ (s.now + ttl)).retire old
    (some (s.now + ttl))).setObject w.sess { o with mu := none }).setTask i (.bound w)

/-! ## Steps -/

/-- One step of a task. `fresh` is the id that it mints, if it mints one. -/
def run (i : TaskId) (fresh : Sid) : Option State :=
  match s.tasks[i]? with
  | none | some .finished | some (.bound _) => none
  | some (.lookup r val) => some (s.runLookup i r val)
  | some (.getAlias r val goal cur hops) => some (s.runGetAlias i fresh r val goal cur hops)
  | some (.getNew r val goal hops new) => some (s.runGetNew i fresh r val goal hops new)
  | some (.getEnd r val goal cur hops) => some (s.runGetEnd i fresh r val goal cur hops)
  | some (.lockSid b) =>
      if s.locker b.sid = none then
        some ((s.setLocker b.sid (some i)).setTask i (.getSession b))
      else none
  | some (.getSession b) => some (s.runGetSession i b)
  | some (.adopt b x) => s.objects[x]?.map (s.runAdopt i b x)
  | some (.persistLock w) =>
      s.objects[w.sess]?.bind fun o =>
        if o.storeMu = none then
          some ((s.setObject w.sess { o with storeMu := some i }).setTask i (.persistSet w))
        else none
  | some (.persistSet w) =>
      s.objects[w.sess]?.map fun o =>
        ((s.set o.sid w.sess o).setObject w.sess { o with storeMu := none }).setTask i (.bound w)
  | some (.rotateLock w) => s.objects[w.sess]?.bind (s.runRotateLock i w)
  | some (.rekeyLock w old) =>
      s.objects[w.sess]?.bind fun o =>
        if o.storeMu = none then
          some ((s.setObject w.sess { o with storeMu := some i }).setTask i (.rekey w old))
        else none
  | some (.rekey w old) => s.objects[w.sess]?.map (s.runRekey i fresh w old)
  | some (.setSid w old new) =>
      s.objects[w.sess]?.map fun o =>
        (s.setObject w.sess { o with sid := new, storeMu := none }).setTask i (.putAlias w old new)
  | some (.putAlias w old new) => s.objects[w.sess]?.map (s.runPutAlias grace ttl i w old new)
  | some (.endAlias w sid) =>
      some ((s.setAlias sid ⟨none, none, 0⟩ (s.now + ttl)).setTask i (.endDelete w))
  | some (.endDelete w) =>
      s.objects[w.sess]?.map fun o => (s.setSession o.sid none).setTask i (.bound w)

end

/-- What a task with a session does next. -/
inductive Action where
  | persist
  | rotate
  | endSession
  | spawn
  | leave
  deriving DecidableEq

def act (i : TaskId) (w : Worker) (o : LiveSession) : Action → State
  | .persist => s.setTask i (if o.evicted then .bound w else .persistLock w)
  | .rotate => s.setTask i (.rotateLock w)
  | .endSession =>
      if o.evicted then s
      else (s.setObject w.sess { o with evicted := true }).setTask i (.endAlias w o.sid)
  | .spawn => s.push (.bound { w with held := none })
  | .leave =>
      match w.held with
      | none => s.setTask i .finished
      | some sid => (s.setLocker sid none).setTask i .finished

end State

inductive Event where
  | request (r : Request) (fresh : Sid)
  | run (i : TaskId) (fresh : Sid)
  | act (i : TaskId) (a : State.Action)
  | tick
  | expire (sid : Sid)
  | reap (sid : Sid)
  deriving DecidableEq

namespace State

variable (grace ttl : ℕ) (s : State)

/-- A request with no id of the right shape gets a fresh one for a page, and nothing else. -/
def accept (r : Request) (fresh : Sid) : State :=
  match r.val, r.kind with
  | some val, _ =>
      (s.use (val :: r.claimed.toList)).push (.lookup r val)
  | none, .page => (s.use [fresh]).push (.lockSid ⟨r, fresh, .minted⟩)
  | none, .event => s

/-- A minted id is one that nobody has seen and no session has. -/
def Unseen (fresh : Sid) : Prop := fresh ∉ s.used ∧ ∀ o ∈ s.objects, o.sid ≠ fresh

instance (fresh : Sid) : Decidable (s.Unseen fresh) :=
  inferInstanceAs (Decidable (fresh ∉ s.used ∧ ∀ o ∈ s.objects, o.sid ≠ fresh))

def step (e : Event) : Option State :=
  match e with
  | .request r fresh => if s.Unseen fresh then some (s.accept r fresh) else none
  | .run i fresh => if s.Unseen fresh then s.run grace ttl i fresh else none
  | .act i a =>
      match s.tasks[i]? with
      | some (.bound w) => s.objects[w.sess]?.map fun o => s.act i w o a
      | _ => none
  | .tick => some { s with now := s.now + 1 }
  | .expire sid => some (s.setSession sid none)
  | .reap sid =>
      match s.aliases sid with
      | some (_, exp) =>
          if exp < s.now then some { s with aliases := Function.update s.aliases sid none }
          else none
      | none => none

end State

end Sky.Rotation
