import Mathlib

/-! # The retry coordinator

The requests of a client that have failed for a while wait in a queue and are sent again,
the head first. The clock stands still while a handler holds the lock. A timer that has
fired calls its function some time later, and by then it can no longer be stopped. -/

namespace Sky.Retry

/-- Nanoseconds. -/
abbrev Time := ℤ

def second : Time := 10 ^ 9

def spaRetryBase : Time := second
def spaRetryCap : Time := 30 * second
def spaRetryMaxAttempts : ℕ := 8
def spaRetryBudget : Time := 60 * second
def spaFetchTimeout : Time := 30 * second
def spaThrottleWindow : Time := 120 * second
def spaThrottleMaxEvents : ℕ := 4096
def spaReconnectGrace : Time := 3 * second
def spaSuspendGap : Time := 5 * second

/-- What the coordinator computes in `float64`: the levels of a token bucket, and what
becomes of a random draw. -/
structure Floats (β δ : Type) where
  bucketMax : β
  /-- A tenth of a token more, up to the maximum. -/
  refund : β → β
  /-- A token less, down to zero. -/
  spend : β → β
  /-- Less than five tokens. -/
  low : β → Bool
  /-- The draw is below the throttling probability of so many requests and accepts. -/
  refuses : ℕ → ℕ → δ → Bool
  /-- The drawn part of a duration. -/
  scale : Time → δ → Time

/-! ## Outcomes -/

inductive OutcomeKind where
  | ok
  | transient
  | final
  deriving DecidableEq

structure Outcome where
  kind : OutcomeKind
  status : ℕ := 0
  retryAfter : Option Time := none
  refused : Bool := false
  deriving DecidableEq

def spaOverloadStatus (status : ℕ) : Bool := status = 429 || status = 503

structure ThrottleEvent where
  time : Time
  accepted : Bool := false
  overload : Bool := false
  deriving DecidableEq

/-! ## The coordinator -/

structure Request where
  origin : String := ""
  start : Time := 0
  attempt : ℕ := 0
  queued : Bool := false
  forced : Bool := false
  sent : Bool := false
  giveUp : Bool := false
  paced : Bool := false
  attemptAt : Option Time := none
  resumed : Bool := false
  /-- The wake channel holds its one token. -/
  wake : Bool := false
  deriving DecidableEq

/-- A timer that has been armed and whose function has not been called. -/
structure Timer (κ : Type) where
  id : ℕ
  due : Time
  fired : Bool := false
  call : κ
  deriving DecidableEq

/-- A timer that has fired cannot be stopped. -/
def disarm {κ : Type} (timers : List (Timer κ)) : Option ℕ → List (Timer κ)
  | none => timers
  | some id => timers.filter fun t => t.id ≠ id || t.fired

/-- What the function of a retry timer holds. -/
structure RetryCall where
  head : ℕ
  giveUp : Bool
  deriving DecidableEq

/-- What happened, as the history records it. -/
inductive Event where
  | began (r : ℕ) (now : Time)
  | resumed (now : Time)
  | failed (r : ℕ)
  | joined (r : ℕ)
  | left (r : ℕ)
  | gaveUp (r : ℕ) (now : Time) (hidden : Bool)
  | returned (r : ℕ)
  deriving DecidableEq

/-- The timers that are not yet done are part of the state, and `log` is the history, the
latest event first. -/
structure Coord (β : Type) where
  request : ℕ → Request := fun _ => {}
  queue : List ℕ := []
  outageStart : Option Time := none
  lastFail : Option Time := none
  graceCancel : Option ℕ := none
  graceProven : Bool := false
  cancel : Option ℕ := none
  buckets : String → Option β := fun _ => none
  events : List ThrottleEvent := []
  live : List ℕ := []
  hidden : Bool := false
  timers : List (Timer RetryCall) := []
  graces : List (Timer Time) := []
  nextTimer : ℕ := 0
  log : List Event := []

variable {β δ : Type} (fl : Floats β δ)

def spaFullJitter (attempt : ℕ) (draw : δ) : Time :=
  let n := max attempt 1 - 1
  fl.scale (if n < 30 then min (spaRetryBase * 2 ^ n) spaRetryCap else spaRetryCap) draw

namespace Coord

variable (c : Coord β)

def tokens (origin : String) : β := (c.buckets origin).getD fl.bucketMax

def modify (r : ℕ) (f : Request → Request) : Coord β :=
  { c with request := Function.update c.request r (f (c.request r)) }

def record (e : Event) : Coord β := { c with log := e :: c.log }

def begin (r : ℕ) (origin : String) (now : Time) : Coord β :=
  { c with
    request := Function.update c.request r { origin := origin, start := now }
    live := r :: c.live
    log := .began r now :: c.log }

/-- The `end` of a request. -/
def forget (r : ℕ) : Coord β := { c with live := c.live.erase r }

def spent (r : ℕ) (now : Time) : Bool :=
  !c.hidden && (spaRetryMaxAttempts ≤ (c.request r).attempt ||
    spaRetryBudget ≤ now - (c.request r).start)

/-- The grace timer of the outage that started at `start`. -/
def armGrace (start now : Time) : Coord β :=
  { c with
    graces := ⟨c.nextTimer, now + spaReconnectGrace, false, start⟩ ::
      disarm c.graces c.graceCancel
    graceCancel := some c.nextTimer
    nextTimer := c.nextTimer + 1 }

def endOutage : Coord β :=
  { c with
    outageStart := none
    lastFail := none
    graceProven := false
    graces := disarm c.graces c.graceCancel
    graceCancel := none }

/-- A fresh budget for every request that is tracked. -/
def refresh (now : Time) (onWire : Bool) : Coord β :=
  { c with
    request := fun r =>
      if r ∈ c.live then
        { c.request r with
          attempt := 0
          start := now
          giveUp := false
          resumed := (onWire && !(c.request r).queued) || (c.request r).resumed }
      else c.request r
    log := .resumed now :: c.log }

def resume (now : Time) : Coord β :=
  let c := c.refresh now true
  if c.outageStart = none then c
  else
    { c with outageStart := some now, lastFail := some now, graceProven := false }.armGrace now now

def wake (r : ℕ) : Coord β := c.modify r fun q => { q with wake := true }

/-- How long the head waits, and whether it is the server that asks for it; nothing when only
a return to the page moves it on. -/
def pause (h : ℕ) (last : Outcome) (remaining : Time) (draw : δ) : Option (Time × Bool) :=
  if fl.low (c.tokens fl (c.request h).origin) then
    if c.hidden then none else some (remaining, false)
  else
    match last.retryAfter with
    | some d => some (d, true)
    | none => some (spaFullJitter fl (c.request h).attempt draw, false)

def arm (h : ℕ) (due : Time) (giveUp : Bool) : Coord β :=
  { c with
    timers := ⟨c.nextTimer, due, false, ⟨h, giveUp⟩⟩ :: c.timers
    cancel := some c.nextTimer
    nextTimer := c.nextTimer + 1 }

def stop : Coord β := { c with timers := disarm c.timers c.cancel, cancel := none }

/-- The next try of the head. -/
def schedule (h : ℕ) (last : Outcome) (now : Time) (draw : δ) : Coord β :=
  let c := c.stop.modify h fun q => { q with paced := false }
  if (c.request h).forced then (c.modify h fun q => { q with forced := false }).wake h
  else
    let remaining := (c.request h).start + spaRetryBudget - now
    if remaining ≤ 0 && !c.hidden then (c.modify h fun q => { q with giveUp := true }).wake h
    else
      match c.pause fl h last remaining draw with
      | none => c
      | some (delay, paced) =>
          let giveUp := remaining ≤ delay && !c.hidden
          (c.modify h fun q => { q with paced := paced }).arm h
            (now + if giveUp then remaining else delay) giveUp

def force (h : ℕ) (now : Time) (draw : δ) : Coord β :=
  (c.modify h fun q => { q with forced := true }).schedule fl h { kind := .transient } now draw

def dequeue (r : ℕ) : Coord β :=
  { c.modify r fun q => { q with queued := false } with
    queue := c.queue.erase r
    log := .left r :: c.log }

def enqueue (r : ℕ) : Coord β :=
  { c.modify r fun q => { q with queued := true } with
    queue := c.queue ++ [r]
    log := .joined r :: c.log }

def remove (r : ℕ) (succeeded : Bool) (now : Time) (draw : δ) : Coord β :=
  if !(c.request r).queued then c
  else
    let wasHead := c.queue.head? = some r
    let c := c.dequeue r
    if !wasHead then (if c.queue = [] then c.endOutage else c)
    else
      let c := c.stop
      match c.queue with
      | [] => c.endOutage
      | next :: _ =>
          if succeeded then c.force fl next now draw
          else c.schedule fl next { kind := .transient } now draw

/-! ## Handlers -/

def setHidden (hidden : Bool) (now : Time) (draw : δ) : Coord β :=
  if hidden || !c.hidden then { c with hidden := hidden }
  else
    let c := { c with hidden := hidden }.resume now
    match c.queue with
    | [] => c
    | h :: _ => c.force fl h now draw

def throttled (now : Time) (draw : δ) : Coord β × Bool :=
  let events := c.events.dropWhile fun e => e.time < now - spaThrottleWindow
  ({ c with events := events },
    events.any (·.overload) && fl.refuses events.length (events.countP (·.accepted)) draw)

def recordThrottle (e : ThrottleEvent) : Coord β :=
  let events := c.events ++ [e]
  { c with events := events.drop (events.length - spaThrottleMaxEvents) }

/-- The source's `admit`: whether the next attempt goes to the network. -/
def admits (r : ℕ) (now : Time) (draw : δ) : Coord β × Bool :=
  let first := !(c.request r).sent
  let c := c.modify r fun q => { q with attemptAt := some now, sent := true }
  if !first then (c, true)
  else
    let (c, refused) := c.throttled fl now draw
    if refused then (c.recordThrottle { time := now }, false) else (c, true)

/-- The attempt outlived its abort timer: the page could not run. -/
def suspended (r : ℕ) (now : Time) : Bool :=
  !c.hidden && (c.request r).attemptAt.any fun started =>
    decide (spaFetchTimeout + spaSuspendGap ≤ now - started)

/-- What every outcome does first, and whether the page came back during the attempt. -/
def heard (r : ℕ) (o : Outcome) (now : Time) : Coord β × Bool :=
  let c := c.modify r fun q => { q with wake := false }
  let c := if c.suspended r now then c.resume now else c
  let resumed := (c.request r).resumed
  let c := c.modify r fun q => { q with resumed := false }
  (if !o.refused && 0 < o.status then
      c.recordThrottle ⟨now, !spaOverloadStatus o.status, spaOverloadStatus o.status⟩
    else c, resumed)

def refundToken (origin : String) : Coord β :=
  { c with buckets := Function.update c.buckets origin (some (fl.refund (c.tokens fl origin))) }

def spendToken (origin : String) : Coord β :=
  { c with buckets := Function.update c.buckets origin (some (fl.spend (c.tokens fl origin))) }

/-- The books of a transient failure, before what follows from it. -/
def fail (r : ℕ) (o : Outcome) (now : Time) : Coord β :=
  let c := if o.refused then c else c.spendToken fl (c.request r).origin
  let c := (c.modify r fun q => { q with attempt := q.attempt + 1 }).record (.failed r)
  if o.refused then c
  else
    let c := if c.outageStart = none then
        { c with outageStart := some now }.armGrace now now
      else c
    { c with lastFail := some now }

/-- A failed request waits for its next try. -/
def join (r : ℕ) (o : Outcome) (resumed : Bool) (now : Time) (draw : δ) : Coord β :=
  let c := if (c.request r).queued then c else c.enqueue r
  if c.queue.head? = some r then
    (c.modify r fun q => { q with forced := q.forced || resumed }).schedule fl r o now draw
  else c

def giveUp (r : ℕ) (now : Time) (draw : δ) : Coord β :=
  (c.remove fl r false now draw).record (.gaveUp r now c.hidden)

/-- The outcome of an attempt, and whether the request is sent again. -/
def done (r : ℕ) (o : Outcome) (now : Time) (draw : δ) : Coord β × Bool :=
  let (c, resumed) := c.heard r o now
  match o.kind with
  | .ok | .final => ((c.refundToken fl (c.request r).origin).remove fl r true now draw, false)
  | .transient =>
      let c := c.fail fl r o now
      if c.spent r now then (c.giveUp fl r now draw, false)
      else (c.join fl r o resumed now draw, true)

/-- After the wait: whether the request is sent again. -/
def proceed (r : ℕ) (now : Time) (draw : δ) : Coord β × Bool :=
  if !(c.request r).giveUp then (c, true)
  else (c.giveUp fl r now draw, false)

/-- A recovery signal. -/
def recover (now : Time) (draw : δ) : Coord β :=
  match c.queue with
  | [] => c
  | h :: _ => (c.refresh now false).force fl h now draw

/-- The timer fired so much later than it was due that the page could not run. -/
def late (due now : Time) : Bool := !c.hidden && spaSuspendGap ≤ now - due

/-- The function of a retry timer. -/
def retry (t : Timer RetryCall) (now : Time) : Coord β :=
  let c := { c with timers := c.timers.erase t }
  if c.queue.head? = some t.call.head then
    let late := c.late t.due now
    let c := if late then c.resume now else c
    let giveUp := t.call.giveUp && !late && !c.hidden
    { (c.modify t.call.head fun q => { q with giveUp := q.giveUp || giveUp, paced := false }) with
      cancel := none }.wake t.call.head
  else c

/-- The function of a grace timer. -/
def grace (t : Timer Time) (now : Time) (draw : δ) : Coord β :=
  let c := { c with graces := c.graces.erase t }
  match c.queue with
  | [] => c
  | h :: _ =>
      if c.outageStart ≠ some t.call then c
      else
        let c := { c with graceCancel := none }
        if c.late t.due now then (c.resume now).force fl h now draw
        else if (c.request h).giveUp then c
        else if (c.request h).paced then { c with graceProven := true }
        else c.force fl h now draw

end Coord

/-! ## The loops of the requests -/

/-- Where `spaRetryLoop` is with a request. -/
inductive Phase where
  | ready
  | sending (refused : Bool)
  | waiting
  | woken
  | returned
  | ended
  deriving DecidableEq

structure System (β : Type) where
  coord : Coord β := {}
  phase : ℕ → Option Phase := fun _ => none
  begun : ℕ := 0
  clock : Time := 0

/-- One move of a loop, a timer or the page. -/
inductive Action (δ : Type) where
  | begin (origin : String)
  | admits (r : ℕ) (draw : δ)
  | done (r : ℕ) (o : Outcome) (draw : δ)
  | wait (r : ℕ)
  | proceed (r : ℕ) (draw : δ)
  | forget (r : ℕ)
  | fire (id : ℕ)
  | fireGrace (id : ℕ)
  | retry (t : Timer RetryCall)
  | grace (t : Timer Time) (draw : δ)
  | setHidden (hidden : Bool) (draw : δ)
  | recover (draw : δ)
  deriving DecidableEq

/-- The timers with this id that are due fire. -/
def fireDue {κ : Type} (timers : List (Timer κ)) (id : ℕ) (now : Time) : List (Timer κ) :=
  timers.map fun t => if t.id = id && t.due ≤ now then { t with fired := true } else t

namespace System

variable (s : System β)

def setPhase (r : ℕ) (p : Phase) : System β := { s with phase := Function.update s.phase r (some p) }

/-- The request is sent again, or its result is returned. -/
def settle (r : ℕ) (again : Phase) : Coord β × Bool → System β
  | (c, true) => { s with coord := c }.setPhase r again
  | (c, false) => { s with coord := c.record (.returned r) }.setPhase r .returned

def act (now : Time) : Action δ → Option (System β)
  | .begin origin =>
      some ({ s with coord := s.coord.begin s.begun origin now, begun := s.begun + 1 }.setPhase
        s.begun .ready)
  | .admits r draw =>
      if s.phase r = some .ready then
        let (c, admitted) := s.coord.admits fl r now draw
        some ({ s with coord := c }.setPhase r (.sending !admitted))
      else none
  | .done r o draw =>
      match s.phase r with
      | some (.sending refused) =>
          if o.refused = refused && (!refused || o = { kind := .transient, refused := true }) then
            some (s.settle r .waiting (s.coord.done fl r o now draw))
          else none
      | _ => none
  | .wait r =>
      if s.phase r = some .waiting && (s.coord.request r).wake then
        some ({ s with coord := s.coord.modify r fun q => { q with wake := false } }.setPhase r
          .woken)
      else none
  | .proceed r draw =>
      if s.phase r = some .woken then some (s.settle r .ready (s.coord.proceed fl r now draw)) else none
  | .forget r =>
      if s.phase r = some .returned then some ({ s with coord := s.coord.forget r }.setPhase r .ended)
      else none
  | .fire id => some { s with coord := { s.coord with timers := fireDue s.coord.timers id now } }
  | .fireGrace id =>
      some { s with coord := { s.coord with graces := fireDue s.coord.graces id now } }
  | .retry t =>
      if t ∈ s.coord.timers && t.fired then some { s with coord := s.coord.retry t now } else none
  | .grace t draw =>
      if t ∈ s.coord.graces && t.fired then some { s with coord := s.coord.grace fl t now draw }
      else none
  | .setHidden hidden draw => some { s with coord := s.coord.setHidden fl hidden now draw }
  | .recover draw => some { s with coord := s.coord.recover fl now draw }

/-- An action at a time that the clock has not passed. -/
def step (a : Time × Action δ) : Option (System β) :=
  if s.clock ≤ a.1 then (s.act fl a.1 a.2).map fun t => { t with clock := a.1 } else none

end System

end Sky.Retry
