import Mathlib

/-! # The RPC dedupe cache and the requests over it

`spaRpcDedupeCache` with its heap of entries: an entry is shared by the map, the
eviction order and the requests that hold it, so it is named by a reference.
Times and durations are nanoseconds; the clock readings of a method are its
arguments.

`spaRpcDedupeWith` as a transition system: each request is a goroutine that
claims its key and then either runs the handler or waits for the first run. A
handler takes any time, and requests interleave between their steps. -/

namespace Sky.Spa

/-! ## The cache -/

/-- A reference to a cache entry. -/
abbrev EntryRef := ℕ

/-- The answer of a request: status, header and body. -/
structure Answer where
  status : ℤ
  header : List (String × List String)
  body : List UInt8
  deriving DecidableEq

/-- One claimed key. `done` stands for the closed channel; the answer is
meaningful once it is set. -/
structure SpaRpcDedupeEntry where
  key : String
  done : Bool
  at_ : ℤ
  answer : Answer
  deriving DecidableEq

structure SpaRpcDedupeSlot where
  key : String
  e : EntryRef
  deriving DecidableEq

structure SpaRpcDedupeCache where
  heap : EntryRef → SpaRpcDedupeEntry
  fresh : EntryRef
  m : AList fun _ : String => EntryRef
  order : List SpaRpcDedupeSlot
  cap : ℕ
  bytes : ℤ
  maxBytes : ℕ
  ttl : ℤ

/-- An entry before its first run has answered. -/
def newEntry (key : String) (now : ℤ) : SpaRpcDedupeEntry :=
  ⟨key, false, now, ⟨0, [], []⟩⟩

def newSpaRpcDedupeCache (capacity maxBytes : ℕ) (ttl : ℤ) : SpaRpcDedupeCache where
  heap := fun _ => newEntry "" 0
  fresh := 0
  m := ∅
  order := []
  cap := capacity
  bytes := 0
  maxBytes := maxBytes
  ttl := ttl

/-- The deployed limits: 4096 entries, 16 MiB of answers, ten minutes. -/
def spaRpcDedupeCap : ℕ := 4096
def spaRpcDedupeMaxBytes : ℕ := 16 * 2 ^ 20
def spaRpcDedupeTTL : ℤ := 10 * 60 * 10 ^ 9

/-- How long a duplicate waits for the first run. -/
def spaRpcDedupeWait : ℤ := 2 * 60 * 10 ^ 9

namespace SpaRpcDedupeCache

/-! ## Eviction -/

/-- What one pass over the eviction order leaves: the map, the byte counter and
the slots kept. -/
structure Sweep where
  m : AList fun _ : String => EntryRef
  bytes : ℤ
  kept : List SpaRpcDedupeSlot

/-- The loop of `evict`. A slot whose key was claimed again is dropped; a
finished entry goes when the cache is over a limit or the entry has expired; an
entry still being filled stays. -/
def sweep (c : SpaRpcDedupeCache) (now : ℤ) (m : AList fun _ : String => EntryRef)
    (bytes excess : ℤ) :
    List SpaRpcDedupeSlot → Sweep
  | [] => ⟨m, bytes, []⟩
  | s :: slots =>
      if m.lookup s.key ≠ some s.e then c.sweep now m bytes (excess - 1) slots
      else if (c.heap s.e).done ∧
          (0 < excess ∨ (c.maxBytes : ℤ) < bytes ∨ c.ttl ≤ now - (c.heap s.e).at_) then
        c.sweep now (m.erase s.key) (bytes - (c.heap s.e).answer.body.length) (excess - 1) slots
      else
        let rest := c.sweep now m bytes excess slots
        { rest with kept := s :: rest.kept }

def evict (c : SpaRpcDedupeCache) (now : ℤ) : SpaRpcDedupeCache :=
  let swept := c.sweep now c.m c.bytes (c.order.length - c.cap) c.order
  { c with m := swept.m, bytes := swept.bytes, order := swept.kept }

/-! ## Claim and fill -/

/-- The entry of a live claim of `key`, if there is one. -/
def live (c : SpaRpcDedupeCache) (key : String) (now : ℤ) : Option EntryRef :=
  (c.m.lookup key).filter fun e => decide (now - (c.heap e).at_ < c.ttl)

/-- The entry for `key`, and whether the caller is the first request with it. The
clock is read once for the entry and once more by `evict`. -/
def claim (c : SpaRpcDedupeCache) (key : String) (now nowEvict : ℤ) :
    SpaRpcDedupeCache × EntryRef × Bool :=
  match c.live key now with
  | some e => (c, e, false)
  | none =>
      let e := c.fresh
      let c := { c with
        heap := Function.update c.heap e (newEntry key now)
        fresh := e + 1
        m := c.m.insert key e
        order := c.order ++ [({ key := key, e := e } : SpaRpcDedupeSlot)] }
      (c.evict nowEvict, e, true)

/-- Completes `e` with the first run's answer. -/
def fill (c : SpaRpcDedupeCache) (e : EntryRef) (answer : Answer) (now : ℤ) : SpaRpcDedupeCache :=
  let c := { c with
    heap := Function.update c.heap e { c.heap e with done := true, answer := answer } }
  if c.m.lookup (c.heap e).key = some e then
    { c with bytes := c.bytes + answer.body.length }.evict now
  else c

end SpaRpcDedupeCache

/-! ## The dedupe key -/

/-- What the dedupe key reads of a request: `rid` is its query parameter. -/
structure HttpRequest where
  method : String
  path : String
  rid : String
  cookies : List (String × String)
  deriving DecidableEq

def spaSessionCookieName : String := "sky_spa"
def spaLegacySessionCookieName : String := "sky_sid"

/-- The part of the key that one session cookie contributes. -/
def HttpRequest.cookiePart (r : HttpRequest) (name : String) : String :=
  match r.cookies.lookup name with
  | some value => value ++ "\x00"
  | none => ""

/-- The cache key of a request, empty for a request that bypasses the cache. -/
def spaRpcDedupeKey (r : HttpRequest) : String :=
  if r.method ≠ "POST" ∨ ¬ "/_rpc/".toList.isPrefixOf r.path.toList then ""
  else if r.rid = "" ∨ 128 < r.rid.utf8ByteSize then ""
  else
    let sid := r.cookiePart spaSessionCookieName ++ r.cookiePart spaLegacySessionCookieName
    sid ++ "\x00" ++ r.path ++ "\x00" ++ r.rid

/-! ## Answers -/

abbrev Header := List (String × List String)

def Header.add : Header → String → String → Header
  | [], k, v => [(k, [v])]
  | (k', vs) :: h, k, v => if k' = k then (k', vs ++ [v]) :: h else (k', vs) :: Header.add h k v

def Header.set : Header → String → String → Header
  | [], k, v => [(k, [v])]
  | (k', vs) :: h, k, v => if k' = k then (k', [v]) :: h else (k', vs) :: Header.set h k v

/-- The response a duplicate gets from the recorded answer. -/
def replay (answer : Answer) : Answer :=
  let header := answer.header.foldl (fun h p => p.2.foldl (fun h v => Header.add h p.1 v) h) []
  { answer with header := Header.set header "X-Sky-Rpc-Replayed" "1" }

/-- The response to a duplicate that has waited too long. -/
def stillRunning : Answer where
  status := 503
  header := [("Content-Type", ["text/plain; charset=utf-8"]),
    ("X-Content-Type-Options", ["nosniff"])]
  body := "duplicate request still running\n".toUTF8.toList

/-- The copy that the recorder keeps: a status of 0 means nothing was written. -/
structure SpaRpcRecorder where
  status : ℤ := 0
  buf : List UInt8 := []
  deriving DecidableEq

/-- The answer that the deferred `fill` records: a handler that wrote nothing
answered 200 if it returned and 500 if it panicked. -/
def SpaRpcRecorder.recorded (rec : SpaRpcRecorder) (header : Header) (returned : Bool) :
    Answer where
  status := if rec.status ≠ 0 then rec.status else if returned then 200 else 500
  header := header
  body := rec.buf

/-! ## The server -/

/-- Where a request stands. The first request of an entry goes from `claimed` to
`finished`, every other one starts at `waiting`. -/
inductive Stage where
  | claimed
  | running
  | finished (answer : Answer)
  | waiting
  | replayed (answer : Answer)
  | refused (answer : Answer)
  deriving DecidableEq

/-- The request claimed its entry and its handler has not ended. -/
def Stage.holds : Stage → Bool
  | .claimed | .running => true
  | _ => false

/-- The request is the first one of its entry. -/
def Stage.first : Stage → Bool
  | .claimed | .running | .finished _ => true
  | _ => false

/-- A tagged request: its key, the entry it got and the time of its claim. -/
structure Request where
  key : String
  e : EntryRef
  at_ : ℤ
  stage : Stage
  deriving DecidableEq

structure Server where
  cache : SpaRpcDedupeCache
  clock : ℤ
  requests : List Request

def Server.init (cache : SpaRpcDedupeCache) (clock : ℤ) : Server :=
  ⟨cache, clock, []⟩

/-- What can happen next. Requests are named by their order of arrival, and `now`
is the clock when it happens. -/
inductive ServerEvent where
  | arrive (r : HttpRequest) (now nowEvict : ℤ)
  | start (i : ℕ)
  | finish (i : ℕ) (rec : SpaRpcRecorder) (header : Header) (returned : Bool) (now : ℤ)
  | wake (i : ℕ)
  | timeout (i : ℕ) (now : ℤ)

namespace Server

def setStage (s : Server) (i : ℕ) (r : Request) (stage : Stage) : Server :=
  { s with requests := s.requests.set i { r with stage := stage } }

/-- `claim` under the lock, and the branch that its result selects. -/
def receive (s : Server) (key : String) (now nowEvict : ℤ) : Server :=
  let (cache, e, first) := s.cache.claim key now nowEvict
  { cache := cache
    clock := nowEvict
    requests := s.requests ++ [⟨key, e, now, if first then .claimed else .waiting⟩] }

/-- One step. The clock never goes back; a duplicate may be answered once the
entry is done, and may give up once it has waited `spaRpcDedupeWait`. -/
def step (s : Server) : ServerEvent → Option Server
  | .arrive r now nowEvict =>
      if s.clock ≤ now ∧ now ≤ nowEvict then
        if spaRpcDedupeKey r = "" then some { s with clock := nowEvict }
        else some (s.receive (spaRpcDedupeKey r) now nowEvict)
      else none
  | .start i => do
      let r ← s.requests[i]?
      if r.stage = .claimed then some (s.setStage i r .running) else none
  | .finish i rec header returned now => do
      let r ← s.requests[i]?
      let answer := rec.recorded header returned
      if r.stage = .running ∧ s.clock ≤ now then
        some { s.setStage i r (.finished answer) with
          cache := s.cache.fill r.e answer now, clock := now }
      else none
  | .wake i => do
      let r ← s.requests[i]?
      let entry := s.cache.heap r.e
      if r.stage = .waiting ∧ entry.done then
        some (s.setStage i r (.replayed (replay entry.answer)))
      else none
  | .timeout i now => do
      let r ← s.requests[i]?
      if r.stage = .waiting ∧ s.clock ≤ now ∧ r.at_ + spaRpcDedupeWait ≤ now then
        some { s.setStage i r (.refused stillRunning) with clock := now }
      else none

end Server

end Sky.Spa
