import Sky.Library.SortedKeys

/-! # The spilling set of seen keys

What `dedupeBy` remembers of a dataset: the digests of the keys with the rows where they were first
seen, in a map while they are few and then in sorted run files of 40-byte records. `none` is a file
operation that fails; a run file's name is its number. -/

namespace Sky.AiDedupe

open Library

abbrev Bytes := List UInt8

/-- `aiDedupeMaxRuns` -/
def maxRuns : ℕ := 8

/-- `aiDedupeKey`: the SHA-256 of a key. -/
abbrev Key := { d : Bytes // d.length = 32 }

/-- `aiDedupeRecord`: a digest and its row. -/
def recordSize : ℕ := 32 + 8

/-- The record of a digest, as `spill` writes it. -/
def record (d : Key) (row : ℕ) : Bytes := d.1 ++ putBytes 8 row

structure DedupeSet where
  limit : ℕ
  mem : AList fun _ : Key => ℕ
  runs : List ℕ
  count : ℕ
  seq : ℕ
  peak : ℕ
  /-- The files of the work directory. -/
  files : ℕ → Option Bytes

/-- `newAiDedupeSet` -/
def newSet (limit : ℤ) : DedupeSet where
  limit := (if limit < 1 then 1 else limit).toNat
  mem := ∅
  runs := []
  count := 0
  seq := 0
  peak := 0
  files := fun _ => none

/-! ## Lookups -/

/-- `f.ReadAt` of record `i` -/
def recordAt (file : Bytes) (i : ℕ) : Bytes := (file.drop (i * recordSize)).take recordSize

/-- `aiDedupeSearch`, over the contents of the run file -/
def searchRun (file : Bytes) (d : Key) : Option ℕ :=
  let n := file.length / recordSize
  let i := search n fun i => !decide ((recordAt file i).take 32 < d.1)
  if n ≤ i then none
  else if (recordAt file i).take 32 = d.1 then some (ofBytes ((recordAt file i).drop 32))
  else none

/-- `inRuns`: what stands for a digest in the run files, the first of them first. -/
def inRuns (s : DedupeSet) (d : Key) : List ℕ → Option (Option ℕ)
  | [] => some none
  | path :: paths => do
      match searchRun (← s.files path) d with
      | some row => some (some row)
      | none => inRuns s d paths

/-! ## Merging -/

/-- A run that is being read: what follows, and the record that was read last while there is one. -/
structure Head where
  r : Bytes
  cur : Option Bytes

/-- `next` -/
def Head.next (h : Head) : Option Head :=
  if h.r = [] then some { h with cur := none }
  else if h.r.length < recordSize then none
  else some { r := h.r.drop recordSize, cur := some (h.r.take recordSize) }

/-- `min` after the head of that number, where `cur` is its record while it has one. -/
def lesser (best : Option (ℕ × Bytes)) (i : ℕ) (cur : Option Bytes) : Option (ℕ × Bytes) :=
  match cur, best with
  | none, _ => best
  | some cur, none => some (i, cur)
  | some cur, some (j, least) =>
      if cur.take 32 < least.take 32 then some (i, cur) else some (j, least)

/-- The loop of `merge` that looks for the least head, the first of equals. -/
def minHead (best : Option (ℕ × Bytes)) (i : ℕ) : List Head → Option (ℕ × Bytes)
  | [] => best
  | h :: heads => minHead (lesser best i h.cur) (i + 1) heads

/-- The loop of `merge` that writes; `last` is `none` until something is written. -/
def mergeLoop : ℕ → List Head → Bytes → Option Bytes → Option Bytes
  | 0, _, _, _ => none
  | fuel + 1, heads, out, last =>
      match minHead none 0 heads with
      | none => some out
      | some (i, cur) => do
          let out := if last = some (cur.take 32) then out else out ++ cur
          let h ← (← heads[i]?).next
          mergeLoop fuel (heads.set i h) out (some (cur.take 32))

def openHead (s : DedupeSet) (path : ℕ) : Option Head := do
  Head.next { r := ← s.files path, cur := none }

/-- Create a file that is not there yet, and write it. -/
def create (s : DedupeSet) (path : ℕ) (data : Bytes) : Option DedupeSet :=
  if (s.files path).isSome then none
  else some { s with files := Function.update s.files path (some data) }

def remove (s : DedupeSet) (path : ℕ) : DedupeSet :=
  { s with files := Function.update s.files path none }

def merge (s : DedupeSet) : Option DedupeSet := do
  let heads ← s.runs.mapM (openHead s)
  let fuel := (heads.map fun h => h.r.length + 1).sum + 1
  let path := s.seq
  let s := { s with seq := s.seq + 1 }
  let s ← create s path (← mergeLoop fuel heads [] none)
  some { s.runs.foldl remove s with runs := [path] }

/-! ## Adding keys -/

/-- The digests of the map, sorted. -/
def sortedKeys (mem : AList fun _ : Key => ℕ) : List Key :=
  mem.keys.insertionSort fun a b => a.1 ≤ b.1

def spill (s : DedupeSet) : Option DedupeSet := do
  let path := s.seq
  let s := { s with seq := s.seq + 1 }
  let s ← create s path ((sortedKeys s.mem).flatMap fun k => record k ((s.mem.lookup k).getD 0))
  let s := { s with runs := s.runs ++ [path], mem := ∅ }
  if maxRuns < s.runs.length then merge s else some s

/-- `aiDedupeSeenRow` -/
def seenRow (row : ℕ) : ℕ := if row = 0 then 1 else row

/-- The round of `first` for one key: the answer, and the set after it. -/
def firstKey (sum256 : Bytes → Key) (s : DedupeSet) (row : ℕ) (k : Bytes) :
    Option (ℕ × DedupeSet) :=
  let d := sum256 k
  match s.mem.lookup d with
  | some prev => some (seenRow prev, s)
  | none => do
      match ← inRuns s d s.runs with
      | some prev => some (seenRow prev, s)
      | none =>
          let s := { s with mem := s.mem.insert d row, count := s.count + 1 }
          let s := { s with peak := max s.peak s.mem.keys.length }
          if s.limit ≤ s.mem.keys.length then do
            let s ← spill s
            some (0, s)
          else some (0, s)

/-- `first`, from key `i` on. -/
def firstFrom (sum256 : Bytes → Key) (start : ℤ) (s : DedupeSet) (i : ℕ) :
    List Bytes → Option (List ℕ × DedupeSet)
  | [] => some ([], s)
  | k :: keys => do
      let row := if 0 < start then (start + i).toNat % 2 ^ 64 else 0
      let (answer, s) ← firstKey sum256 s row k
      let (out, s) ← firstFrom sum256 start s (i + 1) keys
      some (answer :: out, s)

def first (sum256 : Bytes → Key) (s : DedupeSet) (start : ℤ) (keys : List Bytes) :
    Option (List ℕ × DedupeSet) :=
  firstFrom sum256 start s 0 keys

end Sky.AiDedupe
