import Mathlib

/-! # The handlers of past views

The handler maps that a live session keeps for the bodies it rendered last, and the
lookup of a click in the map of the view that it was made on. The checksum of a body
is a parameter. Times are nanoseconds. -/

namespace Sky.Live

variable {Msg : Type*}

abbrev Handlers (Msg : Type*) := AList fun _ : String => Msg

def liveHandlerHistory : ℕ := 16

def liveHandlerRecent : ℤ := 30 * 10 ^ 9

def liveHandlerCap : ℕ := 256

/-- The handler map of one distinct body. -/
structure HandlerGen (Msg : Type*) where
  view : String
  handlers : Handlers Msg
  time : ℤ

/-- The part of a session that clicks are resolved with. -/
structure LiveSession (Msg : Type*) where
  handlers : Handlers Msg := ∅
  lastComputedBody : String := ""
  viewID : String := ""
  handlerGens : List (HandlerGen Msg) := []

/-- The content id of a body: its checksum in base 36, and its length. -/
def liveViewID (crc : String → ℕ) (body : String) : String :=
  String.ofList (Nat.toDigits 36 (crc body)) ++ "-" ++ toString body.utf8ByteSize

namespace LiveSession

/-- The older maps that stay when `view` is rendered, after `n` that stay already. -/
def retained (view : String) (now : ℤ) : ℕ → List (HandlerGen Msg) → List (HandlerGen Msg)
  | _, [] => []
  | n, g :: gs =>
      if g.view = view then retained view now n gs
      else if liveHandlerCap ≤ n then []
      else if liveHandlerHistory ≤ n ∧ liveHandlerRecent < now - g.time then []
      else g :: retained view now (n + 1) gs

def recordRenderGeneration (s : LiveSession Msg) (view : String) (now : ℤ) : LiveSession Msg :=
  { s with handlerGens := ⟨view, s.handlers, now⟩ :: retained view now 1 s.handlerGens }

def commitRender (crc : String → ℕ) (s : LiveSession Msg) (body : String) (now : ℤ) :
    LiveSession Msg :=
  { s with lastComputedBody := body, viewID := liveViewID crc body }.recordRenderGeneration
    (liveViewID crc body) now

/-- A render: a new map, which the rendering of the body fills, and the commit. -/
def render (crc : String → ℕ) (s : LiveSession Msg) (handlers : Handlers Msg) (body : String)
    (now : ℤ) : LiveSession Msg :=
  { s with handlers := handlers }.commitRender crc body now

/-- A dispatch that panics, with the map as it was then, after its own commit if it came
that far. The view from before it is committed again. -/
def dispatchPanics (crc : String → ℕ) (s : LiveSession Msg) (handlers : Handlers Msg)
    (committed : Option (String × ℤ)) (now : ℤ) : LiveSession Msg :=
  let failed : LiveSession Msg := { s with handlers := handlers }
  let failed := committed.elim failed fun c => failed.commitRender crc c.1 c.2
  { failed with handlers := s.handlers, handlerGens := s.handlerGens }.commitRender crc
    s.lastComputedBody now

/-- The message that a click on handler `hid` of the view `view` stands for. -/
def resolveHandler (s : LiveSession Msg) (view hid : String) : Option Msg :=
  if view = "" then s.handlers.lookup hid
  else (s.handlerGens.find? fun g => g.view = view).bind fun g => g.handlers.lookup hid

end LiveSession

end Sky.Live
