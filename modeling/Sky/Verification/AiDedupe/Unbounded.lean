import Sky.Verification.AiDedupe.Set

/-! # The set is an unbounded map

Whatever the limit, the answers are those of a map from each key to the row that first carried it. -/

namespace Sky.AiDedupe

open Library

/-! ## The unbounded map -/

abbrev Seen := AList fun _ : Bytes => ℕ

namespace Seen

/-- The row that first carried the key, or 0 for a new one. -/
def firstKey (seen : Seen) (row : ℕ) (k : Bytes) : ℕ × Seen :=
  match seen.lookup k with
  | some prev => (prev, seen)
  | none => (0, seen.insert k row)

def firstFrom (start : ℕ) (seen : Seen) (i : ℕ) : List Bytes → List ℕ × Seen
  | [] => ([], seen)
  | k :: keys =>
      let (answer, seen) := seen.firstKey (start + i) k
      let (out, seen) := firstFrom start seen (i + 1) keys
      (answer :: out, seen)

end Seen

/-! ## Batches -/

/-- Keys of consecutive rows, which count from 1; a row and the number of keys are Go ints. -/
structure Batch where
  start : ℕ
  keys : List Bytes
  pos : 1 ≤ start
  start_lt : start < 2 ^ 63
  length_lt : keys.length < 2 ^ 63

def firstAll (sum256 : Bytes → Key) (s : DedupeSet) : List Batch → Option (List (List ℕ) × DedupeSet)
  | [] => some ([], s)
  | b :: bs => do
      let (out, s) ← first sum256 s b.start b.keys
      let (outs, s) ← firstAll sum256 s bs
      some (out :: outs, s)

def Seen.firstAll (seen : Seen) : List Batch → List (List ℕ) × Seen
  | [] => ([], seen)
  | b :: bs =>
      let (out, seen) := seen.firstFrom b.start 0 b.keys
      let (outs, seen) := firstAll seen bs
      (out :: outs, seen)

/-! ## Refinement -/

variable {sum256 : Bytes → Key} {s : DedupeSet} {ls : List Entries} {seen : Seen} {k : Bytes}
  {row : ℕ}

/-- What the set has seen are the digests of the keys of the map, with their rows. -/
structure Refines (sum256 : Bytes → Key) (s : DedupeSet) (ls : List Entries) (seen : Seen) : Prop where
  holds : Holds s ls
  table : (s.table ls).Perm (seen.entries.map fun e => (sum256 e.1, e.2))
  pos : ∀ e ∈ seen.entries, 0 < e.2
  mem : s.mem.keys.length < s.limit
  runs : s.runs.length ≤ maxRuns
  count : s.count = seen.keys.length
  peak : s.peak ≤ s.limit

/-- The digest of a key is in the table of the set where the map has the key. -/
theorem Refines.mem_table (h : Refines sum256 s ls seen)
    (hinj : ∀ k' ∈ seen.keys, sum256 k' = sum256 k → k' = k) :
    (sum256 k, row) ∈ s.table ls ↔ seen.lookup k = some row := by
  rw [h.table.mem_iff, List.mem_map]
  constructor
  · rintro ⟨⟨k', row'⟩, he, heq⟩
    obtain ⟨hsum, rfl⟩ := Prod.mk.inj heq
    obtain rfl := hinj k' (List.mem_map.2 ⟨_, he, rfl⟩) hsum
    exact AList.mem_lookup_iff.2 he
  · intro hk
    exact ⟨⟨k, row⟩, AList.mem_lookup_iff.1 hk, rfl⟩

/-- What the lookups of `first` find. -/
theorem Refines.lookup (h : Refines sum256 s ls seen)
    (hinj : ∀ k' ∈ seen.keys, sum256 k' = sum256 k → k' = k) :
    (∃ prev, s.mem.lookup (sum256 k) = some prev ∧ seen.lookup k = some prev) ∨
      s.mem.lookup (sum256 k) = none ∧ inRuns s (sum256 k) s.runs = some (seen.lookup k) := by
  cases hmem : s.mem.lookup (sum256 k) with
  | some prev =>
      refine .inl ⟨prev, rfl, (h.mem_table hinj).1 ?_⟩
      exact List.mem_append_left _ (mem_entriesOf.2 hmem)
  | none =>
      refine .inr ⟨rfl, ?_⟩
      obtain ⟨found, hfound, hin, hout⟩ := inRuns_spec (sum256 k) h.holds.files h.holds.sorted
      rw [hfound]
      congr 1
      cases found with
      | some prev =>
          exact ((h.mem_table hinj).1 (List.mem_append_right _ (hin prev rfl))).symm
      | none =>
          symm
          by_contra hne
          obtain ⟨prev, hprev⟩ := Option.ne_none_iff_exists'.1 hne
          rcases List.mem_append.1 ((h.mem_table hinj).2 hprev) with hm | hm
          · rw [mem_entriesOf.1 hm] at hmem
            cases hmem
          · exact hout rfl prev hm

theorem seenRow_pos (h : 0 < row) : seenRow row = row := by
  rw [seenRow, if_neg (by omega)]

theorem length_keys_insert {κ : Type} [DecidableEq κ] {m : AList fun _ : κ => ℕ} {k : κ} {v : ℕ}
    (h : k ∉ m) : (m.insert k v).keys.length = m.keys.length + 1 := by
  rw [AList.keys, AList.entries_insert_of_notMem h]
  rfl

/-- A new key. -/
theorem Refines.insert (h : Refines sum256 s ls seen)
    (hinj : ∀ k' ∈ seen.keys, sum256 k' = sum256 k → k' = k) (hk : seen.lookup k = none)
    (hpos : 0 < row) (hrow : row < 2 ^ 64) (s₁ : DedupeSet)
    (hs₁ : s₁ = { s with mem := s.mem.insert (sum256 k) row, count := s.count + 1, peak := s₁.peak }) :
    Holds s₁ ls ∧ (s₁.table ls).Perm ((seen.insert k row).entries.map fun e => (sum256 e.1, e.2)) ∧
      (∀ e ∈ (seen.insert k row).entries, 0 < e.2) ∧ s₁.mem.keys.length = s.mem.keys.length + 1 ∧
      s₁.count = (seen.insert k row).keys.length := by
  have hnew : k ∉ seen := AList.lookup_eq_none.1 hk
  have hfresh : sum256 k ∉ s.mem := by
    intro hmem
    obtain ⟨prev, hprev⟩ := Option.isSome_iff_exists.1 (AList.lookup_isSome.2 hmem)
    rw [(h.mem_table hinj).1 (List.mem_append_left _ (mem_entriesOf.2 hprev))] at hk
    cases hk
  have hentries : (seen.insert k row).entries = ⟨k, row⟩ :: seen.entries :=
    AList.entries_insert_of_notMem hnew
  have htable : s₁.table ls = (sum256 k, row) :: s.table ls := by
    rw [hs₁, DedupeSet.table, entriesOf, AList.entries_insert_of_notMem hfresh]
    rfl
  have hperm : (s₁.table ls).Perm
      ((seen.insert k row).entries.map fun e => (sum256 e.1, e.2)) := by
    rw [htable, hentries, List.map_cons]
    exact h.table.cons _
  refine ⟨⟨?_, ?_, h.holds.sorted, ?_, ?_⟩, hperm, ?_, ?_, ?_⟩
  · rw [hs₁]
    exact h.holds.files
  · rw [hs₁]
    exact h.holds.fresh
  · intro e he
    rw [hs₁, entriesOf, AList.entries_insert_of_notMem hfresh, List.map_cons] at he
    rcases List.mem_cons.1 he with rfl | he
    · exact hrow
    · exact h.holds.rows e he
  · rw [htable, List.map_cons, List.nodup_cons]
    refine ⟨fun hmem => ?_, h.holds.nodup⟩
    obtain ⟨⟨d, prev⟩, hprev, rfl⟩ := List.mem_map.1 hmem
    rw [(h.mem_table hinj).1 hprev] at hk
    cases hk
  · intro e he
    rw [hentries] at he
    rcases List.mem_cons.1 he with rfl | he
    · exact hpos
    · exact h.pos e he
  · rw [hs₁, length_keys_insert hfresh]
  · rw [hs₁, length_keys_insert hnew, ← h.count]

/-- One key. -/
theorem Refines.firstKey (h : Refines sum256 s ls seen)
    (hinj : ∀ k' ∈ seen.keys, sum256 k' = sum256 k → k' = k) (row : ℕ) (hpos : 0 < row)
    (hrow : row < 2 ^ 64) :
    ∃ s' ls', firstKey sum256 s row k = some ((seen.firstKey row k).1, s') ∧
      Refines sum256 s' ls' (seen.firstKey row k).2 ∧ s'.limit = s.limit := by
  have hseen : ∀ prev, seen.lookup k = some prev → seenRow prev = prev := by
    intro prev hprev
    exact seenRow_pos (h.pos ⟨k, prev⟩ (AList.mem_lookup_iff.1 hprev))
  rw [AiDedupe.firstKey, Seen.firstKey]
  rcases h.lookup hinj with ⟨prev, hmem, hprev⟩ | ⟨hmem, hruns⟩
  · simp only [hmem, hprev]
    exact ⟨s, ls, by rw [hseen prev hprev], h, rfl⟩
  · simp only [hmem, hruns]
    cases hk : seen.lookup k with
    | some prev => exact ⟨s, ls, by simp [hseen prev hk], h, rfl⟩
    | none =>
        let s₁ : DedupeSet := { s with
          mem := s.mem.insert (sum256 k) row
          count := s.count + 1
          peak := max s.peak (s.mem.insert (sum256 k) row).keys.length }
        obtain ⟨hholds, hperm, hpos', hlength, hcount⟩ := h.insert hinj hk hpos hrow s₁ rfl
        have hpeak : s₁.peak ≤ s₁.limit := by
          change max s.peak s₁.mem.keys.length ≤ s.limit
          have hm := h.mem
          have hp := h.peak
          omega
        change ∃ s' ls', (if s₁.limit ≤ s₁.mem.keys.length then do
            let s ← spill s₁
            some (0, s)
          else some (0, s₁)) = _ ∧ Refines sum256 s' ls' _ ∧ _
        split
        · obtain ⟨s', ls', hspill, hspilled⟩ := spill_spec hholds
          refine ⟨s', ls', by rw [hspill]; rfl, ?_, hspilled.limit⟩
          refine ⟨hspilled.holds, hspilled.perm.trans hperm, hpos', ?_, hspilled.runs, ?_, ?_⟩
          · rw [hspilled.mem, hspilled.limit]
            have hm := h.mem
            exact Nat.lt_of_le_of_lt (Nat.zero_le _) hm
          · rw [hspilled.count, hcount]
          · rw [hspilled.peak, hspilled.limit]
            exact hpeak
        · rename_i hlt
          exact ⟨s₁, ls, rfl, ⟨hholds, hperm, hpos', not_le.1 hlt, h.runs, hcount, hpeak⟩, rfl⟩

/-! ## Whole runs -/

theorem Seen.firstKey_keys (seen : Seen) (row : ℕ) (k k' : Bytes) :
    k' ∈ (seen.firstKey row k).2.keys ↔ k' = k ∨ k' ∈ seen.keys := by
  rw [Seen.firstKey]
  cases hk : seen.lookup k with
  | some prev =>
      refine ⟨.inr, ?_⟩
      rintro (rfl | hmem)
      · exact AList.lookup_isSome.1 (by rw [hk]; rfl)
      · exact hmem
  | none => exact AList.mem_insert seen

theorem Seen.firstFrom_keys {start : ℕ} {keys : List Bytes} {i : ℕ} {k' : Bytes} :
    k' ∈ (seen.firstFrom start i keys).2.keys ↔ k' ∈ seen.keys ∨ k' ∈ keys := by
  induction keys generalizing seen i with
  | nil => simp [Seen.firstFrom]
  | cons k keys ih =>
      rw [Seen.firstFrom]
      simp only
      rw [ih, Seen.firstKey_keys, List.mem_cons]
      tauto

theorem Seen.firstAll_keys {bs : List Batch} {k' : Bytes} :
    k' ∈ (seen.firstAll bs).2.keys ↔ k' ∈ seen.keys ∨ ∃ b ∈ bs, k' ∈ b.keys := by
  induction bs generalizing seen with
  | nil => simp [Seen.firstAll]
  | cons b bs ih =>
      rw [Seen.firstAll]
      simp only
      rw [ih, Seen.firstFrom_keys, List.exists_mem_cons_iff]
      tauto

/-- One batch. -/
theorem Refines.firstFrom {start i : ℕ} (keys : List Bytes) (h : Refines sum256 s ls seen)
    (hinj : Set.InjOn sum256 {k | k ∈ seen.keys ∨ k ∈ keys}) (hpos : 1 ≤ start)
    (hrow : start + i + keys.length ≤ 2 ^ 64) :
    ∃ s' ls', firstFrom sum256 start s i keys = some ((seen.firstFrom start i keys).1, s') ∧
      Refines sum256 s' ls' (seen.firstFrom start i keys).2 ∧ s'.limit = s.limit := by
  induction keys generalizing s ls seen i with
  | nil => exact ⟨s, ls, rfl, h, rfl⟩
  | cons k keys ih =>
      rw [List.length_cons] at hrow
      obtain ⟨s₁, ls₁, hfirst, h₁, hlimit₁⟩ := h.firstKey (k := k)
        (fun k' hk' heq => hinj (.inl hk') (.inr (.head _)) heq) (start + i) (by omega) (by omega)
      have hinj₁ : Set.InjOn sum256 {k' | k' ∈ (seen.firstKey (start + i) k).2.keys ∨ k' ∈ keys} := by
        refine hinj.mono ?_
        rintro k' (hk' | hk')
        · rcases (Seen.firstKey_keys ..).1 hk' with rfl | hk'
          · exact .inr (.head _)
          · exact .inl hk'
        · exact .inr (.tail _ hk')
      obtain ⟨s₂, ls₂, hrest, h₂, hlimit₂⟩ := ih h₁ hinj₁ (i := i + 1) (by omega)
      have hrowEq : (if (0 : ℤ) < start then ((start : ℤ) + i).toNat % 2 ^ 64 else 0) = start + i := by
        rw [if_pos (by omega), show ((start : ℤ) + i).toNat = start + i by omega]
        exact Nat.mod_eq_of_lt (by omega)
      refine ⟨s₂, ls₂, ?_, h₂, hlimit₂.trans hlimit₁⟩
      rw [AiDedupe.firstFrom]
      simp only [hrowEq, hfirst, Option.bind_eq_bind, Option.bind_some, hrest]
      rfl

theorem Refines.firstAll (bs : List Batch) (h : Refines sum256 s ls seen)
    (hinj : Set.InjOn sum256 {k | k ∈ seen.keys ∨ ∃ b ∈ bs, k ∈ b.keys}) :
    ∃ s' ls', firstAll sum256 s bs = some ((seen.firstAll bs).1, s') ∧
      Refines sum256 s' ls' (seen.firstAll bs).2 ∧ s'.limit = s.limit := by
  induction bs generalizing s ls seen with
  | nil => exact ⟨s, ls, rfl, h, rfl⟩
  | cons b bs ih =>
      have hlt := b.start_lt
      have hlength := b.length_lt
      obtain ⟨s₁, ls₁, hfirst, h₁, hlimit₁⟩ := h.firstFrom (i := 0) b.keys
        (hinj.mono fun k' hk' => hk'.imp_right fun hk' => ⟨b, .head _, hk'⟩) b.pos (by omega)
      obtain ⟨s₂, ls₂, hrest, h₂, hlimit₂⟩ := ih h₁ (hinj.mono (by
        rintro k' (hk' | ⟨b', hb', hk'⟩)
        · rcases Seen.firstFrom_keys.1 hk' with hk' | hk'
          · exact .inl hk'
          · exact .inr ⟨b, .head _, hk'⟩
        · exact .inr ⟨b', .tail _ hb', hk'⟩))
      refine ⟨s₂, ls₂, ?_, h₂, hlimit₂.trans hlimit₁⟩
      rw [AiDedupe.firstAll]
      simp only [first, hfirst, Option.bind_eq_bind, Option.bind_some, hrest]
      rfl

/-! ## Where the digests are -/

/-- The digests of a run file. -/
def digestsOf (file : Bytes) : List Bytes :=
  (List.range (file.length / recordSize)).map fun i => (recordAt file i).take 32

/-- Every place of a digest: the map, and the records of the run files. -/
def DedupeSet.digests (s : DedupeSet) : List Bytes :=
  s.mem.keys.map Subtype.val ++ s.runs.flatMap fun path => (s.files path).elim [] digestsOf

theorem digestsOf_encode (l : Entries) : digestsOf (encode l) = l.map fun e => e.1.1 := by
  rw [digestsOf, length_encode, Nat.mul_div_cancel _ (by decide)]
  apply List.ext_getElem?
  intro i
  rw [List.getElem?_map, List.getElem?_map]
  rcases Nat.lt_or_ge i l.length with hi | hi
  · rw [List.getElem?_range hi, List.getElem?_eq_getElem hi]
    refine congrArg some ?_
    simp only
    rw [recordAt_encode (List.getElem?_eq_getElem hi), take_record]
  · rw [List.getElem?_eq_none (by simpa using hi), List.getElem?_eq_none hi]
    rfl

theorem Holds.digests_eq (h : Holds s ls) : s.digests = (s.table ls).map fun e => e.1.1 := by
  rw [DedupeSet.digests, DedupeSet.table, List.map_append, ← keys_entriesOf, List.map_map]
  congr 1
  have hfiles := h.files
  clear h
  generalize s.runs = paths at hfiles
  induction hfiles with
  | nil => rfl
  | cons hfile _ ih =>
      rw [List.flatMap_cons, List.flatten_cons, List.map_append]
      rw [ih, hfile, Option.elim_some, digestsOf_encode]

theorem Refines.newSet {limit : ℤ} (hlimit : 1 ≤ limit) : Refines sum256 (newSet limit) [] ∅ where
  holds := ⟨.nil, fun _ h => absurd rfl h, by simp, by simp [AiDedupe.newSet, entriesOf], .nil⟩
  table := .nil
  pos := by simp
  mem := by
    rw [AiDedupe.newSet]
    simp only
    rw [if_neg (by omega)]
    simp
    omega
  runs := Nat.zero_le _
  count := rfl
  peak := Nat.zero_le _

/-- After any batches the answers have been those of the unbounded map and the count is the number
of distinct keys. Each digest seen is in one place, the runs are strictly sorted, and the map and
the number of runs keep to their limits. -/
theorem first_eq_unbounded (sum256 : Bytes → Key) {limit : ℤ} (hlimit : 1 ≤ limit)
    (bs : List Batch) (hinj : Set.InjOn sum256 {k | ∃ b ∈ bs, k ∈ b.keys}) :
    ∃ s, firstAll sum256 (newSet limit) bs = some ((Seen.firstAll ∅ bs).1, s) ∧
      s.count = (bs.flatMap Batch.keys).dedup.length ∧
      s.digests.Nodup ∧
      (∀ d, d ∈ s.digests ↔ ∃ b ∈ bs, ∃ k ∈ b.keys, (sum256 k).1 = d) ∧
      (∀ path ∈ s.runs, ∃ file, s.files path = some file ∧ (digestsOf file).Pairwise (· < ·)) ∧
      (s.mem.keys.length : ℤ) ≤ limit ∧ (s.peak : ℤ) ≤ limit ∧ s.runs.length ≤ maxRuns := by
  have hstart : Refines sum256 (newSet limit) [] ∅ := .newSet hlimit
  obtain ⟨s, ls, hfirst, h, hlimit'⟩ := hstart.firstAll bs (hinj.mono (by simp))
  have hvalue : (s.limit : ℤ) = limit := by
    rw [hlimit', newSet]
    simp only
    rw [if_neg (by omega)]
    omega
  have hkeys : ∀ k, k ∈ (Seen.firstAll ∅ bs).2.keys ↔ ∃ b ∈ bs, k ∈ b.keys := by
    intro k
    simp [Seen.firstAll_keys]
  refine ⟨s, hfirst, ?_, ?_, ?_, ?_, ?_, ?_, h.runs⟩
  · rw [h.count]
    refine ((List.perm_ext_iff_of_nodup (AList.keys_nodup _) (List.nodup_dedup _)).2 ?_).length_eq
    intro k
    rw [hkeys, List.mem_dedup, List.mem_flatMap]
  · have hnodup := h.holds.nodup
    rw [h.holds.digests_eq]
    have hmap := hnodup.map Subtype.val_injective
    rwa [List.map_map] at hmap
  · intro d
    rw [h.holds.digests_eq, List.mem_map]
    constructor
    · rintro ⟨e, he, rfl⟩
      obtain ⟨e', he', rfl⟩ := List.mem_map.1 (h.table.mem_iff.1 he)
      obtain ⟨b, hb, hk⟩ := (hkeys e'.1).1 (List.mem_map.2 ⟨e', he', rfl⟩)
      exact ⟨b, hb, e'.1, hk, rfl⟩
    · rintro ⟨b, hb, k, hk, rfl⟩
      obtain ⟨e', he', rfl⟩ := List.mem_map.1 ((hkeys k).2 ⟨b, hb, hk⟩)
      exact ⟨_, h.table.mem_iff.2 (List.mem_map.2 ⟨e', he', rfl⟩), rfl⟩
  · intro path hpath
    obtain ⟨i, hi, rfl⟩ := List.mem_iff_getElem.1 hpath
    obtain ⟨hlength, hall⟩ := List.forall₂_iff_get.1 h.holds.files
    refine ⟨_, hall i hi (hlength ▸ hi), ?_⟩
    rw [digestsOf_encode, List.pairwise_map]
    exact (h.holds.sorted _ (List.get_mem _ _)).lt
  · have hm := h.mem
    omega
  · have hp := h.peak
    omega

/-- The SHA-256 of two keys. -/
def sumSample (k : Bytes) : Key :=
  if k = [0x61] then ⟨[
    0xCA, 0x97, 0x81, 0x12, 0xCA, 0x1B, 0xBD, 0xCA, 0xFA, 0xC2, 0x31, 0xB3, 0x9A, 0x23, 0xDC, 0x4D,
    0xA7, 0x86, 0xEF, 0xF8, 0x14, 0x7C, 0x4E, 0x72, 0xB9, 0x80, 0x77, 0x85, 0xAF, 0xEE, 0x48, 0xBB], rfl⟩
  else ⟨[
    0x3E, 0x23, 0xE8, 0x16, 0x00, 0x39, 0x59, 0x4A, 0x33, 0x89, 0x4F, 0x65, 0x64, 0xE1, 0xB1, 0x34,
    0x8B, 0xBD, 0x7A, 0x00, 0x88, 0xD4, 0x2C, 0x4A, 0xCB, 0x73, 0xEE, 0xAE, 0xD5, 0x9C, 0x00, 0x9D], rfl⟩

def sampleBatches : List Batch :=
  [⟨1, [[0x61], [0x62], [0x61]], by decide, by decide, by decide⟩,
    ⟨4, [[0x62]], by decide, by decide, by decide⟩]

theorem first_eq_unbounded_sample : (Seen.firstAll ∅ sampleBatches).1 = [[0, 0, 1], [2]] ∧
    ∃ s, firstAll sumSample (newSet 1) sampleBatches = some ((Seen.firstAll ∅ sampleBatches).1, s) ∧
      s.count = 2 := by
  refine ⟨by decide, ?_⟩
  obtain ⟨s, hfirst, hcount, -⟩ := first_eq_unbounded sumSample (le_refl (1 : ℤ)) sampleBatches (by
    have hcases : ∀ k ∈ sampleBatches.flatMap Batch.keys, k = [0x61] ∨ k = [0x62] := by decide
    rintro k ⟨b, hb, hk⟩ k' ⟨b', hb', hk'⟩ heq
    rcases hcases k (List.mem_flatMap.2 ⟨b, hb, hk⟩) with rfl | rfl <;>
      rcases hcases k' (List.mem_flatMap.2 ⟨b', hb', hk'⟩) with rfl | rfl
    · rfl
    · exact absurd heq (by decide)
    · exact absurd heq (by decide)
    · rfl)
  exact ⟨s, hfirst, hcount.trans (by decide)⟩

end Sky.AiDedupe
