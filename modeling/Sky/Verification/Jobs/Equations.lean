import Mathlib
import Sky.Model.Jobs

/-! # What a call does to a store

Each change of a list of jobs or rows is stated as a split of the list around the one entry
that it is about. -/

namespace Sky.Jobs

theorem exists_split_of_getElem? {α : Type*} {l : List α} {i : ℕ} {a : α} (h : l[i]? = some a) :
    ∃ l₁ l₂, l = l₁ ++ a :: l₂ ∧ l₁.length = i ∧ ∀ b, l.set i b = l₁ ++ b :: l₂ := by
  obtain ⟨hi, rfl⟩ := List.getElem?_eq_some_iff.mp h
  refine ⟨l.take i, l.drop (i + 1), ?_, ?_, ?_⟩
  · rw [List.cons_getElem_drop_succ, List.take_append_drop]
  · exact List.length_take_of_le hi.le
  · intro b
    exact List.set_eq_take_append_cons_drop.trans (if_pos hi)

/-! ## The memory store -/

theorem claim_job {m store : MemoryStore} {queue : String} {now : Time} {rec : JobRecord}
    (h : m.claim queue now = (store, .job rec)) :
    ∃ q₁ q₂, m.queue = q₁ ++ rec :: q₂ ∧ store = { m with queue := q₁ ++ q₂ } := by
  unfold MemoryStore.claim at h
  split at h
  next r hfind =>
      obtain ⟨rfl, hrec⟩ := Prod.mk.inj h
      cases hrec
      obtain ⟨hready, q₁, q₂, hq, hbefore⟩ := List.find?_eq_some_iff_append.mp hfind
      refine ⟨q₁, q₂, hq, ?_⟩
      rw [hq, List.eraseP_append_right _ (by simpa using hbefore),
        List.eraseP_cons_of_pos hready]
  next => cases (Prod.mk.inj h).2

theorem cancel_of_mem {m : MemoryStore} {id : JobID} (h : ∃ r ∈ m.queue, r.id = id) :
    ∃ q₁ rec q₂, m.queue = q₁ ++ rec :: q₂ ∧ rec.id = id ∧
      m.cancel id = ({ m with queue := q₁ ++ q₂ }, .done) := by
  have hany : m.queue.any (·.id = id) := by simpa using h
  obtain ⟨r, hr, hid⟩ := h
  obtain ⟨rec, q₁, q₂, -, hrec, hqueue, herase⟩ :=
    List.exists_of_eraseP (p := fun r => decide (r.id = id)) hr (by simpa using hid)
  refine ⟨q₁, rec, q₂, hqueue, of_decide_eq_true hrec, ?_⟩
  rw [MemoryStore.cancel, if_pos hany, herase]

theorem cancel_of_not_mem {m : MemoryStore} {id : JobID} (h : ∀ r ∈ m.queue, r.id ≠ id) :
    m.cancel id = (m, .errJobNotFound) :=
  if_neg (by simpa using h)

theorem cancel_done {m store : MemoryStore} {id : JobID} (h : m.cancel id = (store, .done)) :
    ∃ q₁ rec q₂, m.queue = q₁ ++ rec :: q₂ ∧ rec.id = id ∧
      store = { m with queue := q₁ ++ q₂ } := by
  by_cases hmem : ∃ r ∈ m.queue, r.id = id
  · obtain ⟨q₁, rec, q₂, hqueue, hid, hcancel⟩ := cancel_of_mem hmem
    exact ⟨q₁, rec, q₂, hqueue, hid, (congrArg Prod.fst (h.symm.trans hcancel))⟩
  · rw [cancel_of_not_mem fun r hr hid => hmem ⟨r, hr, hid⟩] at h
    cases (Prod.mk.inj h).2

theorem cancel_miss {m store : MemoryStore} {id : JobID}
    (h : m.cancel id = (store, .errJobNotFound)) : store = m := by
  unfold MemoryStore.cancel at h
  split at h
  · cases (Prod.mk.inj h).2
  · exact (Prod.mk.inj h).1.symm

theorem claim_none {m : MemoryStore} {queue : String} {now : Time}
    (h : m.queue.find? (MemoryStore.ready queue now) = none) :
    m.claim queue now = (m, .errNoJob) := by
  rw [MemoryStore.claim, h]

/-! ## The rows of the SQLite store -/

/-- Each job has one row. -/
def Keyed (rows : List Row) : Prop := (rows.map (·.job.id)).Nodup

theorem Keyed.split {rows : List Row} {r : Row} (h : Keyed rows) (hr : r ∈ rows) :
    ∃ rows₁ rows₂, rows = rows₁ ++ r :: rows₂ ∧ ∀ r' ∈ rows₁ ++ rows₂, r'.job.id ≠ r.job.id := by
  obtain ⟨rows₁, rows₂, rfl⟩ := List.append_of_mem hr
  refine ⟨rows₁, rows₂, rfl, fun r' hr' hid => ?_⟩
  have hperm : (r :: (rows₁ ++ rows₂)).Perm (rows₁ ++ r :: rows₂) := List.perm_middle.symm
  have hnodup := (hperm.map fun r : Row => r.job.id).nodup_iff.mpr h
  rw [List.map_cons, List.nodup_cons] at hnodup
  exact hnodup.1 (List.mem_map.mpr ⟨r', hr', hid⟩)

theorem Keyed.eq {rows : List Row} {r r' : Row} (h : Keyed rows) (hr : r ∈ rows) (hr' : r' ∈ rows)
    (hid : r'.job.id = r.job.id) : r' = r :=
  List.inj_on_of_nodup_map h hr' hr hid

/-- An update of the row of one job. -/
theorem map_update {rows₁ rows₂ : List Row} {r : Row} (f : Row → Row)
    (h : ∀ r' ∈ rows₁ ++ rows₂, r'.job.id ≠ r.job.id) :
    (rows₁ ++ r :: rows₂).map (fun r' => if r'.job.id = r.job.id then f r' else r') =
      rows₁ ++ f r :: rows₂ := by
  have hsame : ∀ rows : List Row, (∀ r' ∈ rows, r'.job.id ≠ r.job.id) →
      rows.map (fun r' => if r'.job.id = r.job.id then f r' else r') = rows := by
    intro rows hrows
    rw [List.map_congr_left fun r' hr' => if_neg (hrows r' hr')]
    exact List.map_id' rows
  rw [List.map_append, List.map_cons, if_pos rfl,
    hsame rows₁ fun r' hr' => h r' (List.mem_append_left _ hr'),
    hsame rows₂ fun r' hr' => h r' (List.mem_append_right _ hr')]

theorem cancel_row {s : SqliteStore} {rows₁ rows₂ : List Row} {r : Row}
    (hrows : s.jobs = rows₁ ++ r :: rows₂) (hothers : ∀ r' ∈ rows₁ ++ rows₂, r'.job.id ≠ r.job.id)
    (hfree : r.claimedAt = 0) : s.cancel r.job.id = ({ s with jobs := rows₁ ++ rows₂ }, .done) := by
  have hkept : ∀ rows : List Row, (∀ r' ∈ rows, r'.job.id ≠ r.job.id) →
      rows.filter (fun r' => !(decide (r'.job.id = r.job.id) && decide (r'.claimedAt = 0))) =
        rows :=
    fun rows hne => List.filter_eq_self.mpr fun r' hr' => by simp [hne r' hr']
  have hany : s.jobs.any (fun r' => decide (r'.job.id = r.job.id) && decide (r'.claimedAt = 0)) :=
    List.any_eq_true.mpr ⟨r, hrows ▸ List.mem_append_cons_self, by simp [hfree]⟩
  simp only [SqliteStore.cancel, if_pos hany]
  rw [hrows, List.filter_append, List.filter_cons_of_neg (by simp [hfree]),
    hkept rows₁ fun r' hr' => hothers r' (List.mem_append_left _ hr'),
    hkept rows₂ fun r' hr' => hothers r' (List.mem_append_right _ hr')]

theorem cancel_no_row {s : SqliteStore} {id : JobID}
    (h : ∀ r ∈ s.jobs, r.job.id = id → r.claimedAt ≠ 0) : s.cancel id = (s, .errJobNotFound) := by
  have hkept : s.jobs.filter
      (fun r => !(decide (r.job.id = id) && decide (r.claimedAt = 0))) = s.jobs :=
    List.filter_eq_self.mpr fun r hr => by
      by_cases hid : r.job.id = id <;> simp [hid, h r hr]
  have hany : ¬s.jobs.any (fun r => decide (r.job.id = id) && decide (r.claimedAt = 0)) := by
    simpa using h
  simp only [SqliteStore.cancel, hkept, if_neg hany]

end Sky.Jobs
