import Mathlib
import Sky.Library.Run
import Sky.Verification.Jobs.Equations

/-! # No job is lost or run twice

Every job that was enqueued waits, is held by one worker, or has left the store in one
way, at every moment of every run of the workers over a memory store. -/

namespace Sky.Jobs

open Library

/-! ## The states of a job -/

inductive JobState where
  | pending
  | claimed
  | completed
  | deadLettered
  | cancelled
  deriving DecidableEq

/-- The job that a worker has. -/
def Phase.job : Phase → Option JobRecord
  | .idle => none
  | .claimed rec | .running rec | .ran rec _ => some rec

def Phase.has (p : Phase) (id : JobID) : Bool := p.job.any (·.id = id)

@[simp] theorem Phase.has_idle (id : JobID) : Phase.idle.has id = false := rfl

theorem Phase.has_of_job {p : Phase} {rec : JobRecord} (h : p.job = some rec) (id : JobID) :
    p.has id = decide (rec.id = id) := by
  simp [Phase.has, h]

/-- Worker `i` has the job. -/
def System.Holds (s : System) (i : ℕ) (rec : JobRecord) : Prop :=
  ∃ p, s.workers[i]? = some p ∧ p.job = some rec

def System.InState (s : System) (es : List Event) (id : JobID) : JobState → Prop
  | .pending => ∃ rec ∈ s.store.queue, rec.id = id
  | .claimed => ∃ i rec, s.Holds i rec ∧ rec.id = id
  | .completed => .completed id ∈ es
  | .deadLettered => .deadLettered id ∈ es ∨ .unhandled id ∈ es
  | .cancelled => .cancelled id ∈ es

/-- In how many places a job is. -/
def System.places (s : System) (es : List Event) (id : JobID) : ℕ :=
  s.store.queue.countP (·.id = id) + s.workers.countP (·.has id) + es.count (.completed id) +
    (es.count (.deadLettered id) + es.count (.unhandled id)) + es.count (.cancelled id)

/-- The handler of the job was started and failed so many times. -/
def Tally (es : List Event) (id : JobID) (started failed : ℕ) : Prop :=
  es.count (.started id) = started ∧ es.count (.failed id) = failed

/-- The attempts of the record agree with what happened. -/
def Phase.Tallied (es : List Event) : Phase → Prop
  | .idle => True
  | .claimed rec => rec.attempts < maxAttempts ∧ Tally es rec.id rec.attempts rec.attempts
  | .running rec | .ran rec none =>
      rec.attempts < maxAttempts ∧ Tally es rec.id (rec.attempts + 1) rec.attempts
  | .ran rec (some _) =>
      rec.attempts < maxAttempts ∧ Tally es rec.id (rec.attempts + 1) (rec.attempts + 1)

structure Books (es : List Event) (s : System) : Prop where
  places : ∀ id, s.places es id = if 1 ≤ id ∧ id ≤ s.store.nextID then 1 else 0
  enqueued : ∀ id, .enqueued id ∈ es → 1 ≤ id ∧ id ≤ s.store.nextID
  waiting : ∀ rec ∈ s.store.queue, Phase.Tallied es (.claimed rec)
  held : ∀ p ∈ s.workers, p.Tallied es
  fresh : ∀ id, s.store.nextID < id → Tally es id 0 0
  starts : ∀ id, es.count (.started id) ≤ maxAttempts
  dead : ∀ id, .deadLettered id ∈ es → es.count (.failed id) = maxAttempts

/-! ## Counting -/

/-- An event that is not about a run of a handler. -/
def Event.Quiet (e : Event) : Prop := ∀ id, e ≠ .started id ∧ e ≠ .failed id

theorem Tally.append {es : List Event} {e : Event} {id : JobID} {a b : ℕ}
    (he : e ≠ .started id ∧ e ≠ .failed id) (h : Tally es id a b) : Tally (es ++ [e]) id a b := by
  simpa [Tally, List.count_append, List.count_singleton, he.1, he.2] using h

theorem Phase.Tallied.append {es : List Event} {e : Event} {p : Phase} (h : p.Tallied es)
    (he : ∀ rec, p.job = some rec → e ≠ .started rec.id ∧ e ≠ .failed rec.id) :
    p.Tallied (es ++ [e]) := by
  cases p with
  | idle => trivial
  | claimed rec => exact ⟨h.1, h.2.append (he rec rfl)⟩
  | running rec => exact ⟨h.1, h.2.append (he rec rfl)⟩
  | ran rec error =>
      cases error with
      | none => exact ⟨h.1, h.2.append (he rec rfl)⟩
      | some error => exact ⟨h.1, h.2.append (he rec rfl)⟩

namespace Books

variable {es : List Event} {e : Event} {s t : System} {i : ℕ} {p q : Phase} {rec : JobRecord}
variable {ps₁ ps₂ : List Phase}

theorem places_le_one (h : Books es s) (id : JobID) : s.places es id ≤ 1 := by
  rw [h.places]
  split <;> omega

/-- No waiting job is held by a worker. -/
theorem alone_in_queue (h : Books es s) (hs : s.workers = ps₁ ++ p :: ps₂) (hp : p.job = some rec)
    {r : JobRecord} (hr : r ∈ s.store.queue) : r.id ≠ rec.id := by
  intro hid
  have hone := h.places_le_one rec.id
  have hqueue : 0 < s.store.queue.countP (·.id = rec.id) :=
    List.countP_pos_iff.mpr ⟨r, hr, by simpa using hid⟩
  have hheld : 0 < s.workers.countP (·.has rec.id) :=
    List.countP_pos_iff.mpr ⟨p, by simp [hs], by simp [Phase.has_of_job hp]⟩
  unfold System.places at hone
  omega

/-- No two workers hold one job. -/
theorem alone_in_hand (h : Books es s) (hs : s.workers = ps₁ ++ p :: ps₂) (hp : p.job = some rec)
    (hq : q ∈ ps₁ ++ ps₂) {r : JobRecord} (hr : q.job = some r) : r.id ≠ rec.id := by
  intro hid
  have hone := h.places_le_one rec.id
  have hothers : 0 < (ps₁ ++ ps₂).countP (·.has rec.id) :=
    List.countP_pos_iff.mpr ⟨q, hq, by simp [Phase.has_of_job hr, hid]⟩
  have hself : p.has rec.id = true := by simp [Phase.has_of_job hp]
  have hcount : s.workers.countP (·.has rec.id) = (ps₁ ++ ps₂).countP (·.has rec.id) + 1 := by
    simp only [hs, List.countP_append, List.countP_cons, hself, if_true]
    omega
  unfold System.places at hone
  omega

/-- A job that a worker holds has not left the store. -/
theorem not_settled (h : Books es s) (hs : s.workers = ps₁ ++ p :: ps₂) (hp : p.job = some rec) :
    .deadLettered rec.id ∉ es := by
  intro hdead
  have hone := h.places_le_one rec.id
  have hheld : 0 < s.workers.countP (·.has rec.id) :=
    List.countP_pos_iff.mpr ⟨p, by simp [hs], by simp [Phase.has_of_job hp]⟩
  have hcount := List.count_pos_iff.mpr hdead
  unfold System.places at hone
  omega

theorem tally_of_held (h : Books es s) (hs : s.workers = ps₁ ++ p :: ps₂) : p.Tallied es :=
  h.held p (by simp [hs])

/-- A worker's job has been enqueued. -/
theorem held_id (h : Books es s) (hs : s.workers = ps₁ ++ p :: ps₂) (hp : p.job = some rec) :
    1 ≤ rec.id ∧ rec.id ≤ s.store.nextID := by
  by_contra hid
  have hone := h.places rec.id
  have hheld : 0 < s.workers.countP (·.has rec.id) :=
    List.countP_pos_iff.mpr ⟨p, by simp [hs], by simp [Phase.has_of_job hp]⟩
  rw [if_neg hid] at hone
  unfold System.places at hone
  omega

/-- A step that runs no handler. -/
theorem quiet_step (h : Books es s) (he : e.Quiet)
    (hplaces : ∀ id, t.places (es ++ [e]) id = if 1 ≤ id ∧ id ≤ t.store.nextID then 1 else 0)
    (henqueued : ∀ id, e = .enqueued id → 1 ≤ id ∧ id ≤ t.store.nextID)
    (hnext : s.store.nextID ≤ t.store.nextID)
    (hwaiting : ∀ rec ∈ t.store.queue, Phase.Tallied es (.claimed rec))
    (hheld : ∀ p ∈ t.workers, p.Tallied es)
    (hdead : ∀ id, e = .deadLettered id → es.count (.failed id) = maxAttempts) :
    Books (es ++ [e]) t where
  places := hplaces
  enqueued := by
    intro id hmem
    rcases List.mem_append.mp hmem with hmem | hmem
    · have hid := h.enqueued id hmem
      exact ⟨hid.1, hid.2.trans hnext⟩
    · exact henqueued id (List.mem_singleton.mp hmem).symm
  waiting := fun rec hrec => (hwaiting rec hrec).append fun _ _ => he _
  held := fun p hp => (hheld p hp).append fun _ _ => he _
  fresh := fun id hid => (h.fresh id (hnext.trans_lt hid)).append (he id)
  starts := by
    intro id
    simpa [List.count_append, List.count_singleton, (he id).1] using h.starts id
  dead := by
    intro id hmem
    have hfailed : (es ++ [e]).count (.failed id) = es.count (.failed id) := by
      simp [List.count_append, (he id).2]
    rw [hfailed]
    rcases List.mem_append.mp hmem with hmem | hmem
    · exact h.dead id hmem
    · exact hdead id (List.mem_singleton.mp hmem).symm

/-- The start or the failure of a handler: the worker goes on with the same job. -/
theorem loud_step (h : Books es s) (hs : s.workers = ps₁ ++ p :: ps₂) (hp : p.job = some rec)
    (hq : q.job = some rec) (he : e = .started rec.id ∨ e = .failed rec.id)
    (hstarts : (es ++ [e]).count (.started rec.id) ≤ maxAttempts)
    (htallied : q.Tallied (es ++ [e])) :
    Books (es ++ [e]) { s with workers := ps₁ ++ q :: ps₂ } := by
  have hother : ∀ id, id ≠ rec.id → e ≠ .started id ∧ e ≠ .failed id := by
    intro id hid
    rcases he with rfl | rfl <;> simp [Ne.symm hid]
  have hheld : ∀ r ∈ ps₁ ++ ps₂, r ∈ s.workers := by
    intro r hr
    rw [hs]
    rcases List.mem_append.mp hr with hr | hr <;> simp [hr]
  constructor
  case places =>
      intro id
      have hid := h.places id
      have hhas : q.has id = p.has id := by rw [Phase.has_of_job hp, Phase.has_of_job hq]
      have hworkers : (ps₁ ++ q :: ps₂).countP (·.has id) = s.workers.countP (·.has id) := by
        rw [hs]
        simp only [List.countP_append, List.countP_cons, hhas]
      rw [← hid]
      rcases he with rfl | rfl <;>
        simp [System.places, hworkers, List.count_append]
  case enqueued =>
      intro id hmem
      have hmem : .enqueued id ∈ es := by
        rcases he with rfl | rfl <;> simpa using hmem
      exact h.enqueued id hmem
  case waiting =>
      intro r hr
      refine (h.waiting r hr).append fun r' hr' => hother _ ?_
      cases hr'
      exact h.alone_in_queue hs hp hr
  case held =>
      intro r hr
      rcases List.mem_append.mp hr with hr | hr
      · refine (h.held r (hheld r (by simp [hr]))).append fun r' hr' => hother _ ?_
        exact h.alone_in_hand hs hp (by simp [hr]) hr'
      · rcases List.mem_cons.mp hr with rfl | hr
        · exact htallied
        · refine (h.held r (hheld r (by simp [hr]))).append fun r' hr' => hother _ ?_
          exact h.alone_in_hand hs hp (by simp [hr]) hr'
  case fresh =>
      intro id hid
      refine (h.fresh id hid).append (hother id ?_)
      rintro rfl
      exact absurd (h.held_id hs hp).2 (by simpa using hid)
  case starts =>
      intro id
      by_cases hid : id = rec.id
      · exact hid ▸ hstarts
      · simpa [List.count_append, List.count_singleton, (hother id hid).1] using h.starts id
  case dead =>
      intro id hmem
      have hmem : .deadLettered id ∈ es := by
        rcases he with rfl | rfl <;> simpa using hmem
      have hid : id ≠ rec.id := by
        rintro rfl
        exact h.not_settled hs hp hmem
      simpa [List.count_append, List.count_singleton, (hother id hid).2] using h.dead id hmem

/-- A step that only changes what one worker does, and the store. -/
theorem hand_step (h : Books es s) (he : e.Quiet) {store : MemoryStore}
    (hs : s.workers = ps₁ ++ p :: ps₂) (hnext : store.nextID = s.store.nextID)
    (hplaces : ∀ id, System.places ⟨store, ps₁ ++ q :: ps₂⟩ (es ++ [e]) id = s.places es id)
    (henqueued : ∀ id, e ≠ .enqueued id)
    (hwaiting : ∀ rec ∈ store.queue, Phase.Tallied es (.claimed rec)) (hq : q.Tallied es)
    (hdead : ∀ id, e = .deadLettered id → es.count (.failed id) = maxAttempts) :
    Books (es ++ [e]) ⟨store, ps₁ ++ q :: ps₂⟩ := by
  refine h.quiet_step he (fun id => ?_) (fun id hid => absurd hid (henqueued id))
    hnext.ge hwaiting ?_ hdead
  · rw [hplaces, h.places]
    simp only [hnext]
  · intro r hr
    rcases List.mem_append.mp hr with hr | hr
    · exact h.held r (by simp [hs, hr])
    · rcases List.mem_cons.mp hr with rfl | hr
      · exact hq
      · exact h.held r (by simp [hs, hr])

theorem one_more_id (n id : ℕ) :
    (if 1 ≤ id ∧ id ≤ n then 1 else 0) + (if n + 1 = id then 1 else 0) =
      if 1 ≤ id ∧ id ≤ n + 1 then 1 else 0 := by
  split_ifs <;> omega

theorem enqueue (h : Books es s) (queue name : String) (payload : List UInt8)
    (nextRunAt now : Time) :
    Books (es ++ [.enqueued (s.store.nextID + 1)])
      { s with store := (s.store.enqueue now { queue, name, payload, nextRunAt }).1 } := by
  refine h.quiet_step (fun id => by simp) ?_ ?_ (Nat.le_succ _) ?_ h.held (fun id hid => by cases hid)
  · intro id
    have hplaces : System.places
        { s with store := (s.store.enqueue now { queue, name, payload, nextRunAt }).1 }
        (es ++ [.enqueued (s.store.nextID + 1)]) id =
          s.places es id + if s.store.nextID + 1 = id then 1 else 0 := by
      simp [System.places, MemoryStore.enqueue, JobRecord.stamped, List.countP_append,
        List.countP_cons, List.count_append]
      omega
    rw [hplaces, h.places id]
    exact one_more_id s.store.nextID id
  · rintro id hid
    cases hid
    exact ⟨Nat.succ_pos _, le_rfl⟩
  · intro rec hrec
    rcases List.mem_append.mp hrec with hrec | hrec
    · exact h.waiting rec hrec
    · obtain rfl := List.mem_singleton.mp hrec
      exact ⟨Nat.zero_lt_succ 9, h.fresh _ (Nat.lt_succ_self _)⟩

theorem cancel (h : Books es s) {id : JobID} {store : MemoryStore}
    (hcancel : s.store.cancel id = (store, .done)) :
    Books (es ++ [.cancelled id]) { s with store := store } := by
  obtain ⟨q₁, rec, q₂, hqueue, rfl, rfl⟩ := cancel_done hcancel
  refine h.quiet_step (fun id => by simp) ?_ (fun id hid => by cases hid) le_rfl ?_ h.held
    (fun id hid => by cases hid)
  · intro id
    rw [← h.places id]
    by_cases hid : rec.id = id <;>
      simp [System.places, hqueue, List.countP_append, List.count_append, hid]
    omega
  · intro r hr
    refine h.waiting r ?_
    rw [hqueue]
    rcases List.mem_append.mp hr with hr | hr <;> simp [hr]

theorem refused (h : Books es s) : Books (es ++ [.refused]) s := by
  refine h.quiet_step (fun id => by simp) (fun id => ?_) (fun id hid => by cases hid) le_rfl
    h.waiting h.held (fun id hid => by cases hid)
  rw [← h.places id]
  simp [System.places]

theorem claim (h : Books es s) {store : MemoryStore} {queue : String} {now : Time}
    (hs : s.workers = ps₁ ++ .idle :: ps₂) (hclaim : s.store.claim queue now = (store, .job rec)) :
    Books (es ++ [.claimed rec.id]) ⟨store, ps₁ ++ .claimed rec :: ps₂⟩ := by
  obtain ⟨q₁, q₂, hqueue, rfl⟩ := claim_job hclaim
  refine h.hand_step (fun id => by simp) hs rfl ?_ (fun id hid => by cases hid) ?_ ?_
    (fun id hid => by cases hid)
  · intro id
    by_cases hid : rec.id = id <;>
      simp [System.places, hqueue, hs, List.countP_append, List.count_append, hid,
        @Phase.has_of_job (.claimed rec) rec rfl]
    omega
  · intro r hr
    refine h.waiting r ?_
    rw [hqueue]
    rcases List.mem_append.mp hr with hr | hr <;> simp [hr]
  · exact h.waiting rec (by simp [hqueue])

/-- The worker gives its job up: the job leaves the store by the event. -/
theorem leave (h : Books es s) (hs : s.workers = ps₁ ++ p :: ps₂) (hp : p.job = some rec)
    (he : e = .completed rec.id ∨ e = .deadLettered rec.id ∨ e = .unhandled rec.id)
    (hdead : e = .deadLettered rec.id → es.count (.failed rec.id) = maxAttempts) :
    Books (es ++ [e]) ⟨s.store, ps₁ ++ .idle :: ps₂⟩ := by
  refine h.hand_step (fun id => ?_) hs rfl ?_ (fun id => ?_) h.waiting trivial ?_
  · rcases he with rfl | rfl | rfl <;> simp
  · intro id
    rcases he with rfl | rfl | rfl <;> by_cases hid : rec.id = id <;>
      simp [System.places, hs, List.countP_append, List.count_append, hid,
        Phase.has_of_job hp] <;>
      omega
  · rcases he with rfl | rfl | rfl <;> simp
  · intro id hid
    rcases he with rfl | rfl | rfl <;> cases hid
    exact hdead rfl

/-- The worker puts its job back. -/
theorem putBack (h : Books es s) (hs : s.workers = ps₁ ++ p :: ps₂) (hp : p.job = some rec)
    {r : JobRecord} (hid : r.id = rec.id) (hr : Phase.Tallied es (.claimed r)) :
    Books (es ++ [.rescheduled r.id]) ⟨(s.store.reschedule r).1, ps₁ ++ .idle :: ps₂⟩ := by
  refine h.hand_step (fun id => by simp) hs rfl ?_ (fun id hid => by cases hid) ?_ trivial
    (fun id hid => by cases hid)
  · intro id
    by_cases hrec : rec.id = id <;>
      simp [System.places, MemoryStore.reschedule, hs, List.countP_append, List.count_append, hrec,
        hid, Phase.has_of_job hp]
    all_goals omega
  · intro r' hr'
    rcases List.mem_append.mp hr' with hr' | hr'
    · exact h.waiting r' hr'
    · exact List.mem_singleton.mp hr' ▸ hr

theorem settle (h : Books es s) {error : Option String} (hs : s.workers = ps₁ ++ .ran rec error :: ps₂)
    (now : Time) (rand : ℤ → ℤ) :
    Books (es ++ [(outcome rec error now rand).event])
      ⟨(s.store.call now (outcome rec error now rand)).1, ps₁ ++ .idle :: ps₂⟩ := by
  have htallied := h.tally_of_held hs
  cases error with
  | none => exact h.leave hs rfl (.inl rfl) fun hdead => by cases hdead
  | some error =>
      by_cases hattempts : maxAttempts ≤ rec.attempts + 1
      · simp only [outcome, if_pos hattempts]
        refine h.leave hs rfl (.inr (.inl rfl)) fun _ => ?_
        exact htallied.2.2.trans (Nat.le_antisymm htallied.1 hattempts)
      · simp only [outcome, if_neg hattempts]
        exact h.putBack hs rfl rfl ⟨Nat.lt_of_not_le hattempts, htallied.2⟩

theorem step (h : Books es s) (hstep : Step s e t) : Books (es ++ [e]) t := by
  cases hstep with
  | enqueue queue name payload nextRunAt now => exact h.enqueue queue name payload nextRunAt now
  | claim queue now idle job =>
      obtain ⟨ps₁, ps₂, hs, -, hset⟩ := exists_split_of_getElem? idle
      rw [hset]
      exact h.claim hs job
  | noJob => exact h.refused
  | unhandled claimed =>
      obtain ⟨ps₁, ps₂, hs, -, hset⟩ := exists_split_of_getElem? claimed
      rw [hset]
      exact h.leave hs rfl (.inr (.inr rfl)) fun hdead => by cases hdead
  | start claimed =>
      obtain ⟨ps₁, ps₂, hs, -, hset⟩ := exists_split_of_getElem? claimed
      rw [hset]
      obtain ⟨hlt, hstarted, hfailed⟩ := h.tally_of_held hs
      refine h.loud_step hs rfl rfl (.inl rfl) ?_ ⟨hlt, ?_, ?_⟩
      · simpa [List.count_append, hstarted] using hlt
      · simp [List.count_append, hstarted]
      · simp [List.count_append, hfailed]
  | succeed running =>
      obtain ⟨ps₁, ps₂, hs, -, hset⟩ := exists_split_of_getElem? running
      rw [hset]
      have htallied := h.tally_of_held hs
      refine h.hand_step (fun id => by simp) hs rfl (fun id => ?_) (fun id hid => by cases hid)
        h.waiting htallied (fun id hid => by cases hid)
      simp [System.places, hs, List.countP_append, List.countP_cons, List.count_append,
        @Phase.has_of_job (.running _) _ rfl, @Phase.has_of_job (.ran _ none) _ rfl]
  | fail error running =>
      obtain ⟨ps₁, ps₂, hs, -, hset⟩ := exists_split_of_getElem? running
      rw [hset]
      obtain ⟨hlt, hstarted, hfailed⟩ := h.tally_of_held hs
      refine h.loud_step hs rfl rfl (.inr rfl) ?_ ⟨hlt, ?_, ?_⟩
      · simpa [List.count_append] using h.starts _
      · simp [List.count_append, hstarted]
      · simp [List.count_append, hfailed]
  | settle now rand ran =>
      obtain ⟨ps₁, ps₂, hs, -, hset⟩ := exists_split_of_getElem? ran
      rw [hset]
      exact h.settle hs now rand
  | cancel id found => exact h.cancel found
  | cancelMiss id missing =>
      obtain rfl := cancel_miss missing
      exact h.refused

theorem init (n : ℕ) : Books [] { workers := List.replicate n .idle } where
  places := by
    intro id
    have hidle : (List.replicate n Phase.idle).countP (·.has id) = 0 :=
      List.countP_eq_zero.mpr fun p hp => by simp [List.eq_of_mem_replicate hp]
    rw [if_neg fun hid => absurd (hid.1.trans hid.2) (Nat.not_succ_le_zero 0)]
    simp [System.places, hidle]
  enqueued := by simp
  waiting := by simp
  held := fun p hp => by rw [List.eq_of_mem_replicate hp]; trivial
  fresh := fun id _ => ⟨rfl, rfl⟩
  starts := by simp
  dead := by simp

end Books

/-! ## The worker conserves jobs -/

structure Conserved (es : List Event) (s : System) : Prop where
  one_state : ∀ id, .enqueued id ∈ es → ∃! state, s.InState es id state
  one_worker : ∀ i j rec rec', s.Holds i rec → s.Holds j rec' → rec.id = rec'.id → i = j
  starts : ∀ id, es.count (.started id) ≤ maxAttempts
  dead : ∀ id, s.InState es id .deadLettered →
    .unhandled id ∈ es ∨ es.count (.failed id) = maxAttempts

/-- How often a job is in a state. -/
def System.count (s : System) (es : List Event) (id : JobID) : JobState → ℕ
  | .pending => s.store.queue.countP (·.id = id)
  | .claimed => s.workers.countP (·.has id)
  | .completed => es.count (.completed id)
  | .deadLettered => es.count (.deadLettered id) + es.count (.unhandled id)
  | .cancelled => es.count (.cancelled id)

theorem System.inState_iff {s : System} {es : List Event} {id : JobID} {state : JobState} :
    s.InState es id state ↔ 0 < s.count es id state := by
  cases state with
  | pending => simp [InState, System.count, List.countP_pos_iff]
  | claimed =>
      simp only [InState, System.count, List.countP_pos_iff]
      constructor
      · rintro ⟨i, rec, ⟨p, hp, hrec⟩, rfl⟩
        exact ⟨p, List.mem_of_getElem? hp, by simp [Phase.has_of_job hrec]⟩
      · rintro ⟨p, hp, hhas⟩
        obtain ⟨i, hi⟩ := List.getElem?_of_mem hp
        cases hrec : p.job with
        | none => simp [Phase.has, hrec] at hhas
        | some rec => exact ⟨i, rec, ⟨p, hi, hrec⟩, by simpa [Phase.has_of_job hrec] using hhas⟩
  | completed => exact List.count_pos_iff.symm
  | deadLettered => simp [InState, System.count, List.count_pos_iff]
  | cancelled => exact List.count_pos_iff.symm

namespace Books

variable {es : List Event} {s : System}

theorem one_state (h : Books es s) {id : JobID} (hid : .enqueued id ∈ es) :
    ∃! state, s.InState es id state := by
  have hone : s.count es id .pending + s.count es id .claimed + s.count es id .completed +
      s.count es id .deadLettered + s.count es id .cancelled = 1 :=
    (h.places id).trans (if_pos (h.enqueued id hid))
  obtain ⟨state, hstate⟩ : ∃ state, 0 < s.count es id state := by
    by_contra hnone
    simp only [not_exists, Nat.not_lt, Nat.le_zero] at hnone
    simp [hnone] at hone
  refine ⟨state, System.inState_iff.mpr hstate, fun other hother => ?_⟩
  have hother := System.inState_iff.mp hother
  cases state <;> cases other <;> first | rfl | omega

theorem one_worker (h : Books es s) {i j : ℕ} {rec rec' : JobRecord} (hi : s.Holds i rec)
    (hj : s.Holds j rec') (hid : rec.id = rec'.id) : i = j := by
  obtain ⟨p, hp, hrec⟩ := hi
  obtain ⟨q, hq, hrec'⟩ := hj
  obtain ⟨ps₁, ps₂, hs, rfl, -⟩ := exists_split_of_getElem? hp
  by_contra hne
  refine h.alone_in_hand hs hrec (?_ : q ∈ ps₁ ++ ps₂) hrec' hid.symm
  rw [hs] at hq
  rcases Nat.lt_or_gt_of_ne hne with hlt | hlt
  · obtain ⟨k, hk⟩ := Nat.exists_eq_add_of_lt hlt
    rw [hk, List.getElem?_append_right (by omega),
      show ps₁.length + k + 1 - ps₁.length = k + 1 by omega, List.getElem?_cons_succ] at hq
    exact List.mem_append_right _ (List.mem_of_getElem? hq)
  · rw [List.getElem?_append_left hlt] at hq
    exact List.mem_append_left _ (List.mem_of_getElem? hq)

theorem conserved (h : Books es s) : Conserved es s where
  one_state := fun _ => h.one_state
  one_worker := fun _ _ _ _ => h.one_worker
  starts := h.starts
  dead := by
    rintro id (hdead | hunhandled)
    · exact .inr (h.dead id hdead)
    · exact .inl hunhandled

end Books

theorem jobs_conserved {n : ℕ} {es : List Event} {s : System}
    (h : Run Step { workers := List.replicate n .idle } es s) : Conserved es s :=
  (h.history (fun _ _ _ _ hbooks hstep => hbooks.step hstep) (Books.init n)).conserved

/-! ### Two workers, one job that fails once -/

def mailJob : JobRecord :=
  { id := 1, queue := "mail", name := "send", nextRunAt := 5, enqueuedAt := 5 }

theorem jobs_conserved_oneFailure :
    Conserved [.enqueued 1, .claimed 1, .refused, .started 1, .failed 1, .rescheduled 1]
      { store := ⟨1, [{ mailJob with attempts := 1, nextRunAt := 1000000007, lastError := "down" }]⟩
        workers := [.idle, .idle] } := by
  refine @jobs_conserved 2 _ _ ?_
  refine .cons (.enqueue "mail" "send" [] 5 5) ?_
  refine .cons (@Step.claim _ 0 _ mailJob "mail" 5 rfl rfl) ?_
  refine .cons (@Step.noJob _ 1 "mail" 6 rfl rfl) ?_
  refine .cons (@Step.start _ 0 mailJob rfl) ?_
  refine .cons (@Step.fail _ 0 mailJob "down" rfl) ?_
  have hretry : outcome mailJob (some "down") 7 (fun _ => 0) = .reschedule
      { mailJob with attempts := 1, nextRunAt := 1000000007, lastError := "down" } := by
    simp [outcome, maxAttempts, mailJob, backoffFor]
  have hsettle := @Step.settle { store := ⟨1, []⟩, workers := [.ran mailJob (some "down"), .idle] }
    0 mailJob (some "down") 7 (fun _ => 0) rfl
  rw [hretry] at hsettle
  exact .cons hsettle (.nil _)

end Sky.Jobs
