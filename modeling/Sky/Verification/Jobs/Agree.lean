import Mathlib
import Sky.Library.Run
import Sky.Verification.Jobs.Equations

/-! # When the two stores agree

The memory store forgets a job that a worker claims and keeps the waiting ones in the order
they came; the SQLite store keeps a row for each job that is not settled. The stores answer
alike as long as no call can tell the difference. -/

namespace Sky.Jobs

open Library

/-! ## Both stores under the same calls -/

structure Called where
  now : Time
  call : Call
  memory : Answer
  sqlite : Answer
  deriving DecidableEq

def Joint (engine : Engine) (x : MemoryStore × SqliteStore) (e : Called)
    (y : MemoryStore × SqliteStore) : Prop :=
  y = ((x.1.call e.now e.call).1, (x.2.call engine e.now e.call).1) ∧
    e.memory = (x.1.call e.now e.call).2 ∧ e.sqlite = (x.2.call engine e.now e.call).2

/-- No worker has had a job for longer than the lease. -/
def LeasesHold (s : SqliteStore) (now : Time) : Prop :=
  ∀ r ∈ s.jobs, r.claimedAt = 0 ∨ now - lease ≤ r.claimedAt

/-- The calls that see no difference. -/
def Alike (m : MemoryStore) (s : SqliteStore) (now : Time) : Call → Prop
  | .enqueue _ | .cancel _ => True
  | .claim queue =>
      now ≠ 0 ∧ ∀ r ∈ m.queue.find? (MemoryStore.ready queue now), ∀ r' ∈ m.queue,
        MemoryStore.ready queue now r' → r'.id ≠ r.id → r.nextRunAt < r'.nextRunAt
  | .complete id | .deadLetter id _ => ∀ r ∈ m.queue, r.id ≠ id
  | .reschedule rec =>
      ∃ r ∈ s.jobs, r.claimedAt ≠ 0 ∧
        rec = { r.job with
          attempts := rec.attempts, nextRunAt := rec.nextRunAt, lastError := rec.lastError }
  | .queueDepth queue => ∀ r ∈ s.jobs, r.claimedAt ≠ 0 → r.job.queue ≠ queue

instance (s : SqliteStore) (now : Time) : Decidable (LeasesHold s now) :=
  inferInstanceAs (Decidable (∀ r ∈ s.jobs, r.claimedAt = 0 ∨ now - lease ≤ r.claimedAt))

instance (m : MemoryStore) (s : SqliteStore) (now : Time) : ∀ c, Decidable (Alike m s now c)
  | .enqueue _ | .cancel _ => inferInstanceAs (Decidable True)
  | .claim queue =>
      inferInstanceAs (Decidable (now ≠ 0 ∧
        ∀ r ∈ m.queue.find? (MemoryStore.ready queue now), ∀ r' ∈ m.queue,
          MemoryStore.ready queue now r' → r'.id ≠ r.id → r.nextRunAt < r'.nextRunAt))
  | .complete id | .deadLetter id _ => inferInstanceAs (Decidable (∀ r ∈ m.queue, r.id ≠ id))
  | .reschedule rec =>
      inferInstanceAs (Decidable (∃ r ∈ s.jobs, r.claimedAt ≠ 0 ∧
        rec = { r.job with
          attempts := rec.attempts, nextRunAt := rec.nextRunAt, lastError := rec.lastError }))
  | .queueDepth queue =>
      inferInstanceAs (Decidable (∀ r ∈ s.jobs, r.claimedAt ≠ 0 → r.job.queue ≠ queue))

/-! ## The simulation -/

/-- The records of the jobs that no worker has. -/
def waiting (rows : List Row) : List JobRecord := (rows.filter (·.claimedAt = 0)).map (·.job)

structure Agree (m : MemoryStore) (s : SqliteStore) : Prop where
  sequence : s.sequence = m.nextID
  queue : m.queue.Perm (waiting s.jobs)
  keyed : Keyed s.jobs
  jobs_le : ∀ r ∈ s.jobs, r.job.id ≤ s.sequence
  dead_le : ∀ d ∈ s.dead, d.id ≤ s.sequence
  dead_ne : ∀ d ∈ s.dead, ∀ r ∈ s.jobs, r.job.id ≠ d.id

theorem waiting_append (rows₁ rows₂ : List Row) :
    waiting (rows₁ ++ rows₂) = waiting rows₁ ++ waiting rows₂ := by
  simp [waiting]

theorem waiting_cons_claimed {r : Row} (h : r.claimedAt ≠ 0) (rows : List Row) :
    waiting (r :: rows) = waiting rows := by
  simp [waiting, h]

theorem waiting_cons_free {r : Row} (h : r.claimedAt = 0) (rows : List Row) :
    waiting (r :: rows) = r.job :: waiting rows := by
  simp [waiting, h]

theorem mem_waiting {rows : List Row} {rec : JobRecord} :
    rec ∈ waiting rows ↔ ∃ r ∈ rows, r.claimedAt = 0 ∧ r.job = rec := by
  simp [waiting, and_assoc]

namespace Agree

variable {m : MemoryStore} {s : SqliteStore} {now : Time} {engine : Engine}

theorem mem_queue (h : Agree m s) {rec : JobRecord} :
    rec ∈ m.queue ↔ ∃ r ∈ s.jobs, r.claimedAt = 0 ∧ r.job = rec :=
  h.queue.mem_iff.trans mem_waiting

theorem init : Agree {} {} where
  sequence := rfl
  queue := .nil
  keyed := List.nodup_nil
  jobs_le := by simp
  dead_le := by simp
  dead_ne := by simp

/-- The rows of some jobs change and those of others go, but none is added. -/
theorem of_rows (h : Agree m s) {queue : List JobRecord} {rows : List Row}
    (hqueue : queue.Perm (waiting rows))
    (hrows : (rows.map (·.job.id)).Sublist (s.jobs.map (·.job.id))) :
    Agree { m with queue := queue } { s with jobs := rows } := by
  have hold : ∀ r ∈ rows, ∃ r' ∈ s.jobs, r'.job.id = r.job.id := by
    intro r hr
    exact List.mem_map.mp (hrows.subset (List.mem_map_of_mem hr))
  constructor
  case sequence => exact h.sequence
  case queue => exact hqueue
  case keyed => exact h.keyed.sublist hrows
  case jobs_le =>
      intro r hr
      obtain ⟨r', hr', hid⟩ := hold r hr
      exact hid ▸ h.jobs_le r' hr'
  case dead_le => exact h.dead_le
  case dead_ne =>
      intro d hd r hr
      obtain ⟨r', hr', hid⟩ := hold r hr
      exact hid ▸ h.dead_ne d hd r' hr'

theorem enqueue (h : Agree m s) (rec : JobRecord) :
    (m.enqueue now rec).2 = (s.enqueue now rec).2 ∧
      Agree (m.enqueue now rec).1 (s.enqueue now rec).1 := by
  refine ⟨by simp [MemoryStore.enqueue, SqliteStore.enqueue, h.sequence], ?_⟩
  constructor
  case sequence => simp [MemoryStore.enqueue, SqliteStore.enqueue, h.sequence]
  case queue =>
      simp only [MemoryStore.enqueue, SqliteStore.enqueue, h.sequence, waiting_append]
      exact h.queue.append_right _
  case keyed =>
      simp only [SqliteStore.enqueue, Keyed, List.map_append, List.map_cons, List.map_nil]
      refine List.nodup_append.mpr ⟨h.keyed, List.nodup_singleton _, ?_⟩
      intro id hid id' hid'
      obtain ⟨r, hr, rfl⟩ := List.mem_map.mp hid
      rw [List.mem_singleton.mp hid']
      exact Nat.ne_of_lt (Nat.lt_succ_of_le (h.jobs_le r hr))
  case jobs_le =>
      intro r hr
      rcases List.mem_append.mp hr with hr | hr
      · exact (h.jobs_le r hr).trans (Nat.le_succ _)
      · obtain rfl := List.mem_singleton.mp hr
        exact le_rfl
  case dead_le => exact fun d hd => (h.dead_le d hd).trans (Nat.le_succ _)
  case dead_ne =>
      intro d hd r hr
      rcases List.mem_append.mp hr with hr | hr
      · exact h.dead_ne d hd r hr
      · obtain rfl := List.mem_singleton.mp hr
        exact Nat.ne_of_gt (Nat.lt_succ_of_le (h.dead_le d hd))

theorem claimable_iff (hleases : LeasesHold s now) {queue : String} {r : Row} (hr : r ∈ s.jobs) :
    SqliteStore.claimable queue now r ↔
      MemoryStore.ready queue now r.job ∧ r.claimedAt = 0 := by
  have hlease : r.claimedAt = 0 ∨ r.claimedAt < now - lease ↔ r.claimedAt = 0 :=
    ⟨fun hfree => hfree.elim id fun hlt => (hleases r hr).elim id fun hle => absurd hlt hle.not_gt,
      .inl⟩
  simp [SqliteStore.claimable, MemoryStore.ready, hlease]

theorem claim_first (h : Agree m s) (hleases : LeasesHold s now) {queue : String} {rec : JobRecord}
    (hfind : m.queue.find? (MemoryStore.ready queue now) = some rec)
    (hfirst : ∀ r' ∈ m.queue, MemoryStore.ready queue now r' → r'.id ≠ rec.id →
      rec.nextRunAt < r'.nextRunAt) :
    ∃ r ∈ s.jobs, r.claimedAt = 0 ∧ r.job = rec ∧
      engine.first (s.jobs.filter (SqliteStore.claimable queue now)) = some r := by
  obtain ⟨r, hr, hfree, rfl⟩ := h.mem_queue.mp (List.mem_of_find?_eq_some hfind)
  have hready := List.find?_some hfind
  have hclaimable : r ∈ s.jobs.filter (SqliteStore.claimable queue now) :=
    List.mem_filter.mpr ⟨hr, (claimable_iff hleases hr).mpr ⟨hready, hfree⟩⟩
  obtain ⟨r', hr'⟩ := Option.isSome_iff_exists.mp
    (engine.some _ (List.ne_nil_of_mem hclaimable))
  obtain ⟨hmem, hclaimable'⟩ := List.mem_filter.mp (engine.mem _ _ hr')
  obtain ⟨hready', hfree'⟩ := (claimable_iff hleases hmem).mp hclaimable'
  have hid : r'.job.id = r.job.id := by
    by_contra hne
    have hlt := hfirst r'.job (h.mem_queue.mpr ⟨r', hmem, hfree', rfl⟩) hready' hne
    exact absurd (engine.least _ _ hr' r hclaimable) hlt.not_ge
  exact ⟨r, hr, hfree, rfl, h.keyed.eq hr hmem hid ▸ hr'⟩

theorem claim_none_ready (h : Agree m s) (hleases : LeasesHold s now) {queue : String}
    (hfind : m.queue.find? (MemoryStore.ready queue now) = none) :
    engine.first (s.jobs.filter (SqliteStore.claimable queue now)) = none := by
  cases hfirst : engine.first (s.jobs.filter (SqliteStore.claimable queue now)) with
  | none => rfl
  | some r =>
      obtain ⟨hr, hclaimable⟩ := List.mem_filter.mp (engine.mem _ _ hfirst)
      obtain ⟨hready, hfree⟩ := (claimable_iff hleases hr).mp hclaimable
      have hnone := List.find?_eq_none.mp hfind r.job (h.mem_queue.mpr ⟨r, hr, hfree, rfl⟩)
      exact absurd hready hnone

theorem claim (h : Agree m s) (hleases : LeasesHold s now) {queue : String}
    (halike : Alike m s now (.claim queue)) :
    (m.claim queue now).2 = (s.claim engine queue now).2 ∧
      Agree (m.claim queue now).1 (s.claim engine queue now).1 := by
  cases hfind : m.queue.find? (MemoryStore.ready queue now) with
  | none =>
      rw [claim_none hfind, SqliteStore.claim, h.claim_none_ready hleases hfind]
      exact ⟨rfl, h⟩
  | some rec =>
      obtain ⟨r, hr, hfree, rfl, hfirst⟩ :=
        @claim_first _ _ _ engine h hleases _ _ hfind (halike.2 rec hfind)
      have hclaim : m.claim queue now =
          ({ m with queue := m.queue.eraseP (MemoryStore.ready queue now) }, .job r.job) := by
        rw [MemoryStore.claim, hfind]
      obtain ⟨q₁, q₂, hqueue, hstore⟩ := claim_job hclaim
      obtain ⟨rows₁, rows₂, hrows, hothers⟩ := h.keyed.split hr
      rw [SqliteStore.claim, hfirst, hclaim, hstore]
      refine ⟨rfl, ?_⟩
      simp only [hrows, map_update (fun r => { r with claimedAt := now }) hothers]
      refine h.of_rows ?_ (by simp [hrows])
      have hperm := h.queue
      rw [hqueue, hrows, waiting_append, waiting_cons_free hfree] at hperm
      rw [waiting_append, waiting_cons_claimed halike.1]
      exact (List.perm_middle.symm.trans (hperm.trans List.perm_middle)).cons_inv

theorem waiting_filter {rows : List Row} {p : Row → Bool}
    (h : ∀ r ∈ rows, r.claimedAt = 0 → p r) : waiting (rows.filter p) = waiting rows := by
  rw [waiting, waiting, List.filter_filter]
  refine congrArg _ (List.filter_congr fun r hr => ?_)
  by_cases hfree : r.claimedAt = 0 <;> simp [hfree, h r hr]

/-- A job that does not wait leaves. -/
theorem settle (h : Agree m s) {id : JobID} (hid : ∀ r ∈ m.queue, r.id ≠ id) :
    Agree m { s with jobs := s.jobs.filter (·.job.id ≠ id) } := by
  refine h.of_rows ?_ (List.filter_sublist.map _)
  rw [waiting_filter fun r hr hfree => by
    simpa using hid r.job (h.mem_queue.mpr ⟨r, hr, hfree, rfl⟩)]
  exact h.queue

theorem deadLetter (h : Agree m s) {id : JobID} (hid : ∀ r ∈ m.queue, r.id ≠ id)
    (finalError : String) :
    (m.deadLetter id finalError).2 = (s.deadLetter now id finalError).2 ∧
      Agree (m.deadLetter id finalError).1 (s.deadLetter now id finalError).1 := by
  unfold SqliteStore.deadLetter MemoryStore.deadLetter
  cases hfind : s.jobs.find? (·.job.id = id) with
  | none => exact ⟨rfl, h⟩
  | some r =>
      have hr := List.mem_of_find?_eq_some hfind
      have hrid : r.job.id = id := by simpa using List.find?_some hfind
      have hdead : ¬s.dead.any (·.id = id) := by
        intro hany
        obtain ⟨d, hd, hdid⟩ := List.any_eq_true.mp hany
        exact h.dead_ne d hd r hr (hrid.trans (of_decide_eq_true hdid).symm)
      simp only [if_neg hdead]
      have hsettled := h.settle hid
      refine ⟨trivial, hsettled.sequence, hsettled.queue, hsettled.keyed, hsettled.jobs_le, ?_, ?_⟩
      · intro d hd
        rcases List.mem_append.mp hd with hd | hd
        · exact h.dead_le d hd
        · obtain rfl := List.mem_singleton.mp hd
          exact hrid ▸ h.jobs_le r hr
      · intro d hd r' hr'
        rcases List.mem_append.mp hd with hd | hd
        · exact hsettled.dead_ne d hd r' hr'
        · obtain rfl := List.mem_singleton.mp hd
          simpa using (List.mem_filter.mp hr').2

theorem reschedule (h : Agree m s) {rec : JobRecord} (halike : Alike m s now (.reschedule rec)) :
    Agree (m.reschedule rec).1 (s.reschedule rec).1 := by
  obtain ⟨r, hr, hclaimed, hrec⟩ := halike
  obtain ⟨rows₁, rows₂, hrows, hothers⟩ := h.keyed.split hr
  have hid : rec.id = r.job.id := by rw [hrec]
  simp only [MemoryStore.reschedule, SqliteStore.reschedule, hid, hrows]
  rw [map_update _ hothers]
  simp only [← hrec]
  refine h.of_rows ?_ (by simp [hrows, hid])
  have hperm := h.queue
  rw [hrows, waiting_append, waiting_cons_claimed hclaimed] at hperm
  rw [waiting_append, waiting_cons_free rfl]
  exact ((hperm.append_right [rec]).trans (List.perm_append_singleton _ _)).trans
    List.perm_middle.symm

theorem cancel (h : Agree m s) (id : JobID) :
    (m.cancel id).2 = (s.cancel id).2 ∧ Agree (m.cancel id).1 (s.cancel id).1 := by
  by_cases hwaits : ∃ rec ∈ m.queue, rec.id = id
  · obtain ⟨q₁, rec, q₂, hqueue, rfl, hmemory⟩ := cancel_of_mem hwaits
    obtain ⟨r, hr, hfree, rfl⟩ := h.mem_queue.mp (hqueue ▸ List.mem_append_cons_self)
    obtain ⟨rows₁, rows₂, hrows, hothers⟩ := h.keyed.split hr
    rw [hmemory, cancel_row hrows hothers hfree]
    refine ⟨rfl, h.of_rows ?_ (by simp [hrows])⟩
    have hperm := h.queue
    rw [hqueue, hrows, waiting_append, waiting_cons_free hfree] at hperm
    rw [waiting_append]
    exact (List.perm_middle.symm.trans (hperm.trans List.perm_middle)).cons_inv
  · have hmemory := cancel_of_not_mem fun rec hrec hid => hwaits ⟨rec, hrec, hid⟩
    have hsqlite : s.cancel id = (s, .errJobNotFound) :=
      cancel_no_row fun r hr hid hfree =>
        hwaits ⟨r.job, h.mem_queue.mpr ⟨r, hr, hfree, rfl⟩, hid⟩
    rw [hmemory, hsqlite]
    exact ⟨rfl, h⟩

theorem queueDepth (h : Agree m s) {queue : String} (halike : Alike m s now (.queueDepth queue)) :
    (m.queueDepth queue).2 = (s.queueDepth queue).2 := by
  simp only [MemoryStore.queueDepth, SqliteStore.queueDepth, h.queue.countP_eq, waiting,
    List.countP_map, List.countP_filter]
  refine congrArg _ (List.countP_congr fun r hr => ?_)
  by_cases hfree : r.claimedAt = 0
  · simp [hfree]
  · simp [hfree, halike r hr hfree]

theorem call (h : Agree m s) (hleases : LeasesHold s now) {c : Call} (halike : Alike m s now c) :
    (m.call now c).2 = (s.call engine now c).2 ∧
      Agree (m.call now c).1 (s.call engine now c).1 := by
  cases c with
  | enqueue rec => exact h.enqueue rec
  | claim queue => exact h.claim hleases halike
  | complete id => exact ⟨rfl, h.settle halike⟩
  | reschedule rec => exact ⟨rfl, h.reschedule halike⟩
  | deadLetter id finalError => exact h.deadLetter halike finalError
  | cancel id => exact h.cancel id
  | queueDepth queue => exact ⟨h.queueDepth halike, h⟩

end Agree

/-! ## Agreement over runs -/

/-- The first of the rows with the least time. -/
def earliestRow : List Row → Option Row
  | [] => none
  | r :: rows =>
      match earliestRow rows with
      | none => some r
      | some r' => if r.job.nextRunAt ≤ r'.job.nextRunAt then some r else some r'

theorem earliestRow_spec (rows : List Row) (hrows : rows ≠ []) :
    ∃ r, earliestRow rows = some r ∧ r ∈ rows ∧
      ∀ r' ∈ rows, r.job.nextRunAt ≤ r'.job.nextRunAt := by
  induction rows with
  | nil => exact absurd rfl hrows
  | cons r rows ih =>
      rw [earliestRow]
      cases rows with
      | nil => exact ⟨r, rfl, by simp, by simp⟩
      | cons r₁ rows =>
          obtain ⟨r', hr', hmem, hleast⟩ := ih (by simp)
          rw [hr']
          by_cases hle : r.job.nextRunAt ≤ r'.job.nextRunAt
          · refine ⟨r, if_pos hle, by simp, fun r'' hr'' => ?_⟩
            rcases List.mem_cons.mp hr'' with rfl | hr''
            · exact le_rfl
            · exact hle.trans (hleast r'' hr'')
          · refine ⟨r', if_neg hle, List.mem_cons_of_mem _ hmem, fun r'' hr'' => ?_⟩
            rcases List.mem_cons.mp hr'' with rfl | hr''
            · exact (not_le.mp hle).le
            · exact hleast r'' hr''

theorem earliestRow_some {rows : List Row} {r : Row} (h : earliestRow rows = some r) :
    r ∈ rows ∧ ∀ r' ∈ rows, r.job.nextRunAt ≤ r'.job.nextRunAt := by
  have hrows : rows ≠ [] := by
    rintro rfl
    cases h
  obtain ⟨r', hr', hspec⟩ := earliestRow_spec rows hrows
  obtain rfl : r = r' := Option.some.inj (h.symm.trans hr')
  exact hspec

def earliest : Engine where
  first := earliestRow
  mem := fun _ _ h => (earliestRow_some h).1
  least := fun _ _ h => (earliestRow_some h).2
  some := fun rows hrows => by
    obtain ⟨r, hr, -⟩ := earliestRow_spec rows hrows
    simp [hr]

def waitingMail : JobRecord := { queue := "mail", name := "send" }

def claimedMail : JobRecord := { waitingMail with id := 1, nextRunAt := 1, enqueuedAt := 1 }

def retriedMail : JobRecord := { claimedMail with attempts := 1, nextRunAt := 9, lastError := "down" }

/-- A job that fails once and is then sent. -/
def sentMail : List Called :=
  [⟨1, .enqueue waitingMail, .enqueued 1, .enqueued 1⟩,
    ⟨2, .queueDepth "mail", .depth 1, .depth 1⟩,
    ⟨3, .claim "mail", .job claimedMail, .job claimedMail⟩,
    ⟨4, .reschedule retriedMail, .done, .done⟩,
    ⟨5, .claim "mail", .errNoJob, .errNoJob⟩,
    ⟨9, .claim "mail", .job retriedMail, .job retriedMail⟩,
    ⟨10, .complete 1, .done, .done⟩,
    ⟨11, .cancel 1, .errJobNotFound, .errJobNotFound⟩]

/-- The depth of the queue while its one job is claimed. -/
def depthWhileClaimed : List Called :=
  [⟨1, .enqueue waitingMail, .enqueued 1, .enqueued 1⟩,
    ⟨2, .claim "mail", .job claimedMail, .job claimedMail⟩,
    ⟨3, .queueDepth "mail", .depth 0, .depth 1⟩]

end Sky.Jobs
