import Mathlib

/-! # The client Msg scheduler of Sky.Spa

The queue operations of `spaSched`, one definition for each method, followed by
the control points of `drain`: the browser is single-threaded, so a call is made
either between two runs of the loop or from inside the run callback. -/

namespace Sky.Spa

/-- One server-branch RPC in flight. -/
structure SpaRpcJob where
  hold : Bool
  name : String
  rid : String
  tick : ℤ
  deriving DecidableEq

/-- One Msg waiting to run. An urgent one runs ahead of a hold. -/
structure SpaQueued (Msg Src : Type*) where
  msg : Msg
  urgent : Bool := false
  tick : ℤ := 0
  src : Option Src := none
  deriving DecidableEq

/-- The per-client scheduler. `holdFree` lists the pairs of a hold branch and an
input Msg that commute; `tickNet` counts each interval's unsettled work. -/
structure SpaSched (Msg Src : Type*) where
  queue : List (SpaQueued Msg Src)
  hold : Option SpaRpcJob
  running : Bool
  inflight : List SpaRpcJob
  nonce : String
  seq : ℕ
  curTick : ℤ
  tickNet : ℤ → ℤ
  curMsg : Option Msg
  holdFree : List (String × String)

variable {Msg Src : Type*}

def newSpaSched (nonce : String) (holdFree : List (String × String)) : SpaSched Msg Src where
  queue := []
  hold := none
  running := false
  inflight := []
  nonce := nonce
  seq := 0
  curTick := 0
  tickNet := fun _ => 0
  curMsg := none
  holdFree := holdFree

namespace SpaSched

/-! ## The queue operations

Each definition is its method up to the call of `drain`. -/

def dispatch (s : SpaSched Msg Src) (msg : Msg) : SpaSched Msg Src :=
  { s with queue := s.queue ++ [{ msg := msg }] }

/-- Whether an input Msg may run although a hold RPC is in flight: the split
listed the pair, no step runs, and nothing ordinary waits ahead of it. -/
def holdFreeNow (ctor : Msg → String) (s : SpaSched Msg Src) (msg : Msg) : Bool :=
  match s.hold with
  | none => false
  | some hold =>
      if s.running || hold.name == "" || s.holdFree.isEmpty then false
      else if s.queue.any (fun q => !q.urgent) then false
      else ctor msg != "" && s.holdFree.contains (hold.name, ctor msg)

def dispatchFrom (ctor : Msg → String) (s : SpaSched Msg Src) (msg : Msg) (src : Src) :
    SpaSched Msg Src :=
  { s with queue := s.queue ++ [{ msg := msg, urgent := s.holdFreeNow ctor msg, src := some src }] }

def dispatchFirst (s : SpaSched Msg Src) (msgs : List Msg) : SpaSched Msg Src :=
  { s with queue := msgs.map (fun m => { msg := m }) ++ s.queue }

def dispatchTick (s : SpaSched Msg Src) (msg : Msg) (ms : ℤ) : SpaSched Msg Src :=
  { s with queue := s.queue ++ [{ msg := msg, tick := ms }] }

/-- The Msg goes after the urgent Msgs already queued, before the first other. -/
def dispatchUrgent (s : SpaSched Msg Src) (msg : Msg) : SpaSched Msg Src :=
  { s with queue := s.queue.takeWhile (·.urgent) ++
      { msg := msg, urgent := true } :: s.queue.dropWhile (·.urgent) }

def tickNetBegin (s : SpaSched Msg Src) (ms : ℤ) : SpaSched Msg Src :=
  { s with tickNet := Function.update s.tickNet ms (s.tickNet ms + 1) }

def tickNetEnd (s : SpaSched Msg Src) (ms : ℤ) : SpaSched Msg Src :=
  if s.tickNet ms ≤ 1 then { s with tickNet := Function.update s.tickNet ms 0 }
  else { s with tickNet := Function.update s.tickNet ms (s.tickNet ms - 1) }

/-- The job that `issue` builds for the running step. -/
def newJob (ctor : Msg → String) (s : SpaSched Msg Src) (hold : Bool) : SpaRpcJob where
  hold := hold
  name := match s.curMsg with
    | some msg => ctor msg
    | none => ""
  rid := s.nonce ++ "-" ++ toString (s.seq + 1)
  tick := if 0 < s.curTick then s.curTick else 0

def issue (ctor : Msg → String) (s : SpaSched Msg Src) (hold : Bool) : SpaSched Msg Src :=
  let j := s.newJob ctor hold
  let s := { s with seq := s.seq + 1 }
  let s := if 0 < s.curTick then s.tickNetBegin s.curTick else s
  let s := { s with inflight := j :: s.inflight.filter (fun i => i.rid != j.rid) }
  if hold && s.hold.isNone then { s with hold := some j } else s

/-- An async result joins the queue; the held call's result goes first and
releases the hold. -/
def settle (s : SpaSched Msg Src) (j : SpaRpcJob) (resultMsg : Msg) : SpaSched Msg Src :=
  let s :=
    if s.inflight.any (fun i => i.rid == j.rid) && decide (0 < j.tick) then s.tickNetEnd j.tick
    else s
  let s := { s with inflight := s.inflight.filter (fun i => i.rid != j.rid) }
  if s.hold = some j then
    { s with hold := none, queue := { msg := resultMsg, urgent := true } :: s.queue }
  else { s with queue := s.queue ++ [{ msg := resultMsg }] }

/-- The transport error of a call that stays in flight. -/
def report (s : SpaSched Msg Src) (j : SpaRpcJob) (errMsg : Msg) : SpaSched Msg Src :=
  if s.hold = some j then { s with queue := { msg := errMsg, urgent := true } :: s.queue }
  else { s with queue := s.queue ++ [{ msg := errMsg }] }

/-- Whether any server-branch RPC is in flight. -/
def pending (s : SpaSched Msg Src) : Bool := !s.inflight.isEmpty

/-- Whether a hold RPC is in flight. -/
def held (s : SpaSched Msg Src) : Bool := s.hold.isSome

/-- The controls whose value the model has not caught up with yet. -/
def typingSources (s : SpaSched Msg Src) : List Src := s.queue.filterMap (·.src)

/-- The loop condition of `drain`: the entry it runs next, unless the queue is
empty or a hold blocks its head. -/
def nextRun (s : SpaSched Msg Src) : Option (SpaQueued Msg Src) :=
  match s.queue with
  | [] => none
  | q :: _ => if s.hold.isSome && !q.urgent then none else some q

end SpaSched

/-! ## Control

`drain` is not re-entrant, so the scheduler is at one of three points: no `drain`
runs, the outermost `drain` is at the head of its loop, or it is inside the run
callback. -/

inductive Phase where
  | idle
  | loop
  | step
  deriving DecidableEq

/-- A call of a scheduler method. -/
inductive Call (Msg Src : Type*) where
  | dispatch (msg : Msg)
  | dispatchFrom (msg : Msg) (src : Src)
  | dispatchFirst (msgs : List Msg)
  | dispatchTick (msg : Msg) (ms : ℤ)
  | dispatchUrgent (msg : Msg)
  | issue (hold : Bool)
  | settle (j : SpaRpcJob) (resultMsg : Msg)
  | report (j : SpaRpcJob) (errMsg : Msg)
  deriving DecidableEq

/-- A method call, one iteration of the `drain` loop, and the two ways the run
callback ends (a panic unwinds through `drain`, whose `defer` clears `running`). -/
inductive Event (Msg Src : Type*) where
  | call (c : Call Msg Src)
  | iterate
  | stepReturns
  | stepPanics
  deriving DecidableEq

/-- The method body up to its call of `drain`. -/
def Call.apply (ctor : Msg → String) (s : SpaSched Msg Src) : Call Msg Src → SpaSched Msg Src
  | .dispatch msg => s.dispatch msg
  | .dispatchFrom msg src => s.dispatchFrom ctor msg src
  | .dispatchFirst msgs => s.dispatchFirst msgs
  | .dispatchTick msg ms => s.dispatchTick msg ms
  | .dispatchUrgent msg => s.dispatchUrgent msg
  | .issue hold => s.issue ctor hold
  | .settle j resultMsg => s.settle j resultMsg
  | .report j errMsg => s.report j errMsg

/-- Whether the method ends in a call of `drain`. -/
def Call.drains : Call Msg Src → Bool
  | .issue _ => false
  | .dispatchFirst msgs => !msgs.isEmpty
  | _ => true

/-- A scheduler at a control point. -/
structure Machine (Msg Src : Type*) where
  sched : SpaSched Msg Src
  phase : Phase

namespace Machine

def init (nonce : String) (holdFree : List (String × String)) : Machine Msg Src :=
  ⟨newSpaSched nonce holdFree, .idle⟩

/-- One event. A call from inside the callback finds `running` set, so its
`drain` returns at once and the outer loop goes on. -/
def step (ctor : Msg → String) (m : Machine Msg Src) : Event Msg Src → Option (Machine Msg Src)
  | .call c =>
      match m.phase with
      | .loop => none
      | .step => some { m with sched := c.apply ctor m.sched }
      | .idle =>
          let s := c.apply ctor m.sched
          if c.drains then some ⟨{ s with running := true }, .loop⟩ else some ⟨s, .idle⟩
  | .iterate =>
      match m.phase with
      | .loop =>
          match m.sched.nextRun with
          | none => some ⟨{ m.sched with running := false }, .idle⟩
          | some q =>
              some ⟨{ m.sched with
                queue := m.sched.queue.tail, curTick := q.tick, curMsg := some q.msg }, .step⟩
      | _ => none
  | .stepReturns =>
      match m.phase with
      | .step => some ⟨{ m.sched with curMsg := none, curTick := 0 }, .loop⟩
      | _ => none
  | .stepPanics =>
      match m.phase with
      | .step => some ⟨{ m.sched with running := false }, .idle⟩
      | _ => none

end Machine

end Sky.Spa
