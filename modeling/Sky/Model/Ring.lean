import Sky.Library.Circular

/-! # The output ring of a child process -/

namespace Sky.Process

open Circular

def defaultProcessRingBytes : ℕ := 2 ^ 20

def maxProcessChunkBytes : ℕ := 64 * 2 ^ 10

/-- The ring: `start` and `stop` are the absolute offsets of the bytes it keeps. -/
structure OutRing where
  buf : List UInt8 := []
  limit : ℕ
  start : ℕ := 0
  stop : ℕ := 0
  eof : Bool := false
  deriving DecidableEq

def newOutRing (limit : ℤ) : OutRing :=
  { limit := if limit ≤ 0 then defaultProcessRingBytes else limit.toNat }

/-- One read's result. -/
structure RingChunk where
  data : List UInt8
  origin : ℕ
  next : ℕ
  dropped : Bool
  eof : Bool
  deriving DecidableEq

/-- Double a size until it holds `need` bytes. -/
def doubleTo : ℕ → ℕ → ℕ → ℕ
  | 0, size, _ => size
  | fuel + 1, size, need => if size < need then doubleTo fuel (size * 2) need else size

/-- Copy `p` to its place, a run up to the end of the buffer at a time. -/
def copyIn : ℕ → List UInt8 → ℕ → List UInt8 → List UInt8 × ℕ
  | 0, buf, stop, _ => (buf, stop)
  | _ + 1, buf, stop, [] => (buf, stop)
  | fuel + 1, buf, stop, p =>
      let pos := stop % buf.length
      let n := min (buf.length - pos) p.length
      copyIn fuel (overwrite buf pos (p.take n)) (stop + n) (p.drop n)

/-- Copy `n` bytes from offset `origin` on, a run up to the end of the buffer at a time. -/
def copyOut : ℕ → List UInt8 → ℕ → ℕ → List UInt8 → List UInt8
  | 0, _, _, _, data => data
  | fuel + 1, buf, origin, n, data =>
      if data.length < n then
        let pos := (origin + data.length) % buf.length
        copyOut fuel buf origin n (data ++ (buf.drop pos).take (n - data.length))
      else data

namespace OutRing

variable (r : OutRing)

def grow (need : ℕ) : OutRing :=
  if need ≤ r.buf.length then r
  else
    let size := r.buf.length * 2
    let size := if size < 4096 then 4096 else size
    let size := doubleTo need size need
    let size := if r.limit < size then r.limit else size
    let nb := List.replicate size 0
    { r with
      buf := if 0 < r.buf.length then relayout r.buf 0 r.start (r.stop - r.start) nb else nb }

/-- Append bytes that fit in the ring. -/
def append (p : List UInt8) : OutRing :=
  let retained := r.stop + p.length - r.start
  let retained := if r.limit < retained then r.limit else retained
  let r := r.grow retained
  let (buf, stop) := copyIn p.length r.buf r.stop p
  let r := { r with buf := buf, stop := stop }
  if r.buf.length < r.stop - r.start then { r with start := r.stop - r.buf.length } else r

/-- Append bytes. Only the last of an oversized write survive; the rest are counted. -/
def write (p : List UInt8) : OutRing :=
  if p.isEmpty then r
  else if r.limit < p.length then
    let skip := p.length - r.limit
    { r with stop := r.stop + skip, start := r.stop + skip }.append (p.drop skip)
  else r.append p

def closeEOF : OutRing := { r with eof := true }

/-- Up to `max` bytes from an offset on. A negative offset stands for the oldest byte kept. -/
def read (offset max : ℤ) : RingChunk :=
  let max := if max ≤ 0 then maxProcessChunkBytes else max.toNat
  let dropped := decide (0 ≤ offset ∧ offset < r.start)
  let origin := if offset < r.start then r.start else offset.toNat
  let origin := if r.stop < origin then r.stop else origin
  let n := if max < r.stop - origin then max else r.stop - origin
  { data := copyOut n r.buf origin n []
    origin := origin
    next := origin + n
    dropped := dropped
    eof := r.eof && decide (origin + n = r.stop) }

/-- Whether a reader at an offset has something to read, or the end to see. -/
def ready (offset : ℤ) : Bool :=
  decide (offset < r.start) || decide (offset < r.stop) || r.eof

end OutRing

/-! ## Runs -/

/-- A call of the ring: of the pump, of some reader, or of the reader that resumes. -/
inductive Op where
  | write (p : List UInt8)
  | closeEOF
  | read (offset max : ℤ)
  | resume (max : ℤ)
  deriving DecidableEq

/-- The ring with a reader that resumes from the offset of its last read. -/
structure System where
  ring : OutRing
  cursor : ℤ
  chunks : List RingChunk := []

def System.step (s : System) : Op → System
  | .write p => { s with ring := s.ring.write p }
  | .closeEOF => { s with ring := s.ring.closeEOF }
  | .read _ _ => s
  | .resume max =>
      let c := s.ring.read s.cursor max
      { s with cursor := c.next, chunks := s.chunks ++ [c] }

/-- The calls one after another on a new ring, with a reader that starts at an offset. -/
def run (limit cursor : ℤ) (ops : List Op) : System :=
  ops.foldl System.step { ring := newOutRing limit, cursor := cursor }

/-- The bytes that the calls write. -/
def stream (ops : List Op) : List UInt8 :=
  ops.flatMap fun
    | .write p => p
    | _ => []

end Sky.Process
