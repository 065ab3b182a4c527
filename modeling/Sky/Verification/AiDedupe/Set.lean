import Sky.Verification.AiDedupe.Merge

/-! # What a set holds

The digests of a set are in its map and its runs, and a spill or a merge only moves them. -/

namespace Sky.AiDedupe

open Library

variable {s : DedupeSet} {ls : List Entries} {l : Entries} {path : ℕ}

def entriesOf (m : AList fun _ : Key => ℕ) : Entries := m.entries.map fun e => (e.1, e.2)

/-- All that the set has seen, where its runs are `ls`. -/
def DedupeSet.table (s : DedupeSet) (ls : List Entries) : Entries := entriesOf s.mem ++ ls.flatten

/-- The run files of the set are `ls`. -/
structure Holds (s : DedupeSet) (ls : List Entries) : Prop where
  files : List.Forall₂ (fun path l => s.files path = some (encode l)) s.runs ls
  fresh : ∀ path, s.files path ≠ none → path < s.seq
  sorted : ∀ l ∈ ls, Sorted l
  rows : ∀ e ∈ entriesOf s.mem, e.2 < 2 ^ 64
  nodup : ((s.table ls).map Prod.fst).Nodup

theorem Holds.not_mem_seq (h : Holds s ls) : s.files s.seq = none := by
  by_contra hne
  exact lt_irrefl _ (h.fresh _ hne)

theorem Holds.runs_fresh (h : Holds s ls) (hpath : path ∈ s.runs) : path < s.seq := by
  apply h.fresh
  obtain ⟨i, hi, rfl⟩ := List.mem_iff_getElem.1 hpath
  obtain ⟨hlength, hall⟩ := List.forall₂_iff_get.1 h.files
  have hfile := hall i hi (hlength ▸ hi)
  rw [List.get_eq_getElem] at hfile
  rw [hfile]
  exact Option.some_ne_none _

/-! ## Lookups -/

theorem mem_entriesOf {m : AList fun _ : Key => ℕ} {d : Key} {row : ℕ} :
    (d, row) ∈ entriesOf m ↔ m.lookup d = some row := by
  rw [entriesOf, List.mem_map]
  constructor
  · rintro ⟨e, he, heq⟩
    obtain ⟨rfl, rfl⟩ := Prod.mk.inj heq
    exact AList.mem_lookup_iff.2 he
  · intro h
    exact ⟨⟨d, row⟩, AList.mem_lookup_iff.1 h, rfl⟩

theorem inRuns_spec {paths : List ℕ} (d : Key)
    (hfiles : List.Forall₂ (fun path l => s.files path = some (encode l)) paths ls)
    (hsorted : ∀ l ∈ ls, Sorted l) :
    ∃ found, inRuns s d paths = some found ∧ (∀ row, found = some row → (d, row) ∈ ls.flatten) ∧
      (found = none → ∀ row, (d, row) ∉ ls.flatten) := by
  induction hfiles with
  | nil => exact ⟨none, rfl, by simp, by simp⟩
  | @cons path l paths ls hfile _ ih =>
      obtain ⟨hl, hsorted⟩ := List.forall_mem_cons.1 hsorted
      obtain ⟨hsome, hnone⟩ := searchRun_encode hl d
      obtain ⟨found, hfound, hin, hout⟩ := ih hsorted
      rw [inRuns, hfile]
      cases hsearch : searchRun (encode l) d with
      | some row =>
          refine ⟨some row, by simp [hsearch], fun row' hrow => ?_, by simp⟩
          obtain rfl := Option.some.inj hrow
          exact List.mem_append_left _ (hsome _ hsearch)
      | none =>
          refine ⟨found, by simp [hsearch, hfound], fun row hrow => ?_, fun hrow row hmem => ?_⟩
          · exact List.mem_append_right _ (hin row hrow)
          · rcases List.mem_append.1 hmem with hmem | hmem
            · exact hnone hsearch row hmem
            · exact hout hrow row hmem

/-! ## Merging -/

theorem openHeads {paths : List ℕ}
    (hfiles : List.Forall₂ (fun path l => s.files path = some (encode l)) paths ls) :
    ∃ heads, paths.mapM (openHead s) = some heads ∧ List.Forall₂ Reads heads ls := by
  induction hfiles with
  | nil => exact ⟨[], rfl, .nil⟩
  | @cons path l paths ls hfile _ ih =>
      obtain ⟨heads, hheads, hreads⟩ := ih
      obtain ⟨h, hnext, hread⟩ := next_reads (h := ⟨encode l, none⟩) (l := l) rfl
      have hopen : openHead s path = some h := by simp [openHead, hfile, hnext]
      exact ⟨h :: heads, by simp [List.mapM_cons, hopen, hheads], .cons hread hreads⟩

theorem length_le_fuel {heads : List Head} (hreads : List.Forall₂ Reads heads ls) :
    ls.flatten.length ≤ (heads.map fun h => h.r.length + 1).sum := by
  induction hreads with
  | nil => simp
  | @cons h l heads ls hread _ ih =>
      rw [List.flatten_cons, List.length_append, List.map_cons, List.sum_cons, hread.r,
        length_encode, List.length_tail, recordSize]
      omega

theorem files_foldl_remove (paths : List ℕ) (s : DedupeSet) :
    (paths.foldl remove s).files = fun path => if path ∈ paths then none else s.files path := by
  induction paths generalizing s with
  | nil => simp
  | cons p paths ih =>
      rw [List.foldl_cons, ih]
      funext path
      by_cases hp : path = p
      · simp [hp, remove]
      · simp [hp, remove]

/-- Removing files leaves the rest of the set. -/
theorem foldl_remove (paths : List ℕ) (s : DedupeSet) :
    paths.foldl remove s = { s with files := (paths.foldl remove s).files } := by
  induction paths generalizing s with
  | nil => rfl
  | cons p paths ih =>
      rw [List.foldl_cons, ih]
      rfl

theorem merge_spec (h : Holds s ls) : ∃ files l,
    merge s = some { s with files := files, runs := [s.seq], seq := s.seq + 1 } ∧
      Holds { s with files := files, runs := [s.seq], seq := s.seq + 1 } [l] ∧
      l.Perm ls.flatten := by
  obtain ⟨heads, hheads, hreads⟩ := openHeads h.files
  have hnodup : (ls.flatten.map Prod.fst).Nodup := by
    have hall := h.nodup
    rw [DedupeSet.table, List.map_append] at hall
    exact hall.of_append_right
  have hfuel := Nat.lt_succ_of_le (length_le_fuel hreads)
  have hlast : ∀ d, (none : Option Bytes) = some d → ∃ o ∈ ([] : Entries), o.1.1 = d := by simp
  obtain ⟨l, hmerge, hsorted, hperm⟩ := mergeLoop_spec hreads hfuel h.sorted hnodup Sorted.nil
    (fun o ho => by cases ho) hlast
  rw [List.nil_append] at hperm
  have hfree := h.not_mem_seq
  let written : DedupeSet :=
    { s with seq := s.seq + 1, files := Function.update s.files s.seq (some (encode l)) }
  have hcreate : create { s with seq := s.seq + 1 } s.seq (encode l) = some written := by
    rw [create, if_neg (by simp [hfree])]
  have hfiles := files_foldl_remove s.runs written
  have hseq : s.seq ∉ s.runs := fun hmem => lt_irrefl _ (h.runs_fresh hmem)
  refine ⟨(s.runs.foldl remove written).files, l, ?_, ⟨?_, ?_, ?_, h.rows, ?_⟩, hperm⟩
  · rw [encode_nil] at hmerge
    simp only [merge, hheads, hmerge, hcreate, Option.bind_eq_bind, Option.bind_some]
    rw [foldl_remove]
  · refine .cons ?_ .nil
    rw [hfiles]
    simp only [if_neg hseq]
    exact Function.update_self ..
  · intro path hpath
    rw [hfiles] at hpath
    rcases eq_or_ne path s.seq with rfl | hne
    · exact Nat.lt_succ_self _
    · apply Nat.lt_succ_of_lt
      apply h.fresh
      intro hnone
      refine hpath ?_
      simp only
      split
      · rfl
      · exact (Function.update_of_ne hne ..).trans hnone
  · simpa using hsorted
  · have htable : DedupeSet.table { s with
        files := (s.runs.foldl remove written).files, runs := [s.seq], seq := s.seq + 1 } [l] =
        entriesOf s.mem ++ l := by
      rw [DedupeSet.table, List.flatten_singleton]
    rw [htable, ((hperm.append_left _).map Prod.fst).nodup_iff]
    exact h.nodup

/-! ## Spilling -/

theorem keys_entriesOf (m : AList fun _ : Key => ℕ) : (entriesOf m).map Prod.fst = m.keys := by
  rw [entriesOf, List.map_map]
  rfl

/-- The run that a spill writes. -/
def spilled (m : AList fun _ : Key => ℕ) : Entries :=
  (sortedKeys m).map fun k => (k, (m.lookup k).getD 0)

theorem sortedKeys_perm (m : AList fun _ : Key => ℕ) : (sortedKeys m).Perm m.keys :=
  List.perm_insertionSort ..

theorem spilled_perm (m : AList fun _ : Key => ℕ) : (spilled m).Perm (entriesOf m) := by
  refine ((sortedKeys_perm m).map _).trans (List.Perm.of_eq ?_)
  rw [← keys_entriesOf, List.map_map]
  refine (List.map_congr_left fun e he => ?_).trans (List.map_id _)
  obtain ⟨d, row⟩ := e
  simp [mem_entriesOf.1 he]

theorem sortedKeys_lt (m : AList fun _ : Key => ℕ) :
    (sortedKeys m).Pairwise fun a b => a.1 < b.1 := by
  have hnodup : (sortedKeys m).Nodup := (sortedKeys_perm m).nodup_iff.2 m.keys_nodup
  have htotal : Std.Total fun a b : Key => a.1 ≤ b.1 := ⟨fun a b => List.le_total a.1 b.1⟩
  have htrans : IsTrans Key fun a b => a.1 ≤ b.1 := ⟨fun a b c => List.le_trans⟩
  have hle : (sortedKeys m).Pairwise fun a b => a.1 ≤ b.1 := List.pairwise_insertionSort ..
  refine (hle.and hnodup).imp fun {a b} ⟨hab, hne⟩ => ?_
  exact bytes_lt_of_not_lt (List.not_lt.2 hab) fun heq => hne (Subtype.ext heq)

theorem spilled_sorted {m : AList fun _ : Key => ℕ} (hrows : ∀ e ∈ entriesOf m, e.2 < 2 ^ 64) :
    Sorted (spilled m) where
  lt := List.pairwise_map.2 (sortedKeys_lt m)
  rows e he := hrows e ((spilled_perm m).mem_iff.1 he)

theorem encode_spilled (m : AList fun _ : Key => ℕ) :
    ((sortedKeys m).flatMap fun k => record k ((m.lookup k).getD 0)) = encode (spilled m) := by
  rw [encode, spilled, List.flatMap_map]

theorem entriesOf_empty : entriesOf ∅ = [] := rfl

/-- What changes by a spill: the map is empty and what it held is in the runs. -/
structure Spilled (s s' : DedupeSet) (ls ls' : List Entries) : Prop where
  holds : Holds s' ls'
  perm : (s'.table ls').Perm (s.table ls)
  mem : s'.mem = ∅
  runs : s'.runs.length ≤ maxRuns
  limit : s'.limit = s.limit
  count : s'.count = s.count
  peak : s'.peak = s.peak

theorem Holds.files_update (h : Holds s ls) (data : Bytes) : List.Forall₂
    (fun path l => Function.update s.files s.seq (some data) path = some (encode l)) s.runs ls := by
  obtain ⟨hlength, hall⟩ := List.forall₂_iff_get.1 h.files
  refine List.forall₂_iff_get.2 ⟨hlength, fun i hi hi' => ?_⟩
  have hne : s.runs.get ⟨i, hi⟩ ≠ s.seq := (h.runs_fresh (List.get_mem _ _)).ne
  rw [Function.update_of_ne hne]
  exact hall i hi hi'

theorem spill_spec (h : Holds s ls) :
    ∃ s' ls', spill s = some s' ∧ Spilled s s' ls ls' := by
  let s₁ : DedupeSet := { s with
    seq := s.seq + 1
    files := Function.update s.files s.seq (some (encode (spilled s.mem)))
    runs := s.runs ++ [s.seq]
    mem := ∅ }
  have hfree := h.not_mem_seq
  have hperm : (s₁.table (ls ++ [spilled s.mem])).Perm (s.table ls) := by
    rw [DedupeSet.table, entriesOf_empty, List.nil_append, List.flatten_append,
      List.flatten_singleton]
    exact List.perm_append_comm.trans ((spilled_perm s.mem).append_right _)
  have h₁ : Holds s₁ (ls ++ [spilled s.mem]) := by
    refine ⟨?_, ?_, ?_, ?_, ?_⟩
    · exact List.rel_append (h.files_update _) (.cons (Function.update_self ..) .nil)
    · intro path hpath
      rcases eq_or_ne path s.seq with rfl | hne
      · exact Nat.lt_succ_self _
      · apply Nat.lt_succ_of_lt
        apply h.fresh
        rwa [← Function.update_of_ne hne (some (encode (spilled s.mem))) s.files]
    · intro l hl
      rcases List.mem_append.1 hl with hl | hl
      · exact h.sorted l hl
      · obtain rfl := List.mem_singleton.1 hl
        exact spilled_sorted h.rows
    · intro e he
      cases he
    · rw [(hperm.map Prod.fst).nodup_iff]
      exact h.nodup
  have hspill : spill s = if maxRuns < s₁.runs.length then merge s₁ else some s₁ := by
    simp only [spill, encode_spilled]
    rw [create, if_neg (by simp [hfree])]
    rfl
  rw [hspill]
  split
  · obtain ⟨files, l, hmerge, hholds, hmerged⟩ := merge_spec h₁
    refine ⟨_, [l], hmerge, hholds, ?_, rfl, by simp [maxRuns], rfl, rfl, rfl⟩
    refine List.Perm.trans ?_ hperm
    rw [DedupeSet.table, DedupeSet.table, List.flatten_singleton]
    exact hmerged.append_left _
  · exact ⟨s₁, _, rfl, h₁, hperm, rfl, by omega, rfl, rfl, rfl⟩

end Sky.AiDedupe
