import Sky.Library.Run
import Sky.Model.Durable

/-! # One worker, and one end

A claim holds its run by the lease that it wrote. What can still change a run that has ended is a
claim whose candidate ended before the claim took it. -/

namespace Sky.Durable

open Library

variable {V : Type*} {s t : State V} {i : ℕ} {pc : Pc V}

def Status.Ended (st : Status) : Prop := st = .done ∨ st = .failed ∨ st = .dead

instance (st : Status) : Decidable st.Ended :=
  inferInstanceAs (Decidable (st = .done ∨ st = .failed ∨ st = .dead))

/-- The run that a worker executes or ends. -/
def Pc.advancing : Pc V → Option String
  | .body x | .stepTask x .. | .stepWrite x .. | .sleepWrite x .. | .sleepWake x _
  | .awaitPark x _ => some x.run
  | .close run _ => some run
  | .finished | .start .. | .signalInsert .. | .signalWake .. | .claimSelect _ | .claimUpdate ..
  | .compactJournal _ | .compactSignals _ => none

/-- No worker's claim is older than the lease when another poll tries to take its run. -/
def State.LeaseHolds (s : State V) : Event V → Prop
  | .run i _ => ∀ p row, s.tasks[i]? = some (.claimUpdate p row) →
      ∀ pc ∈ s.tasks, pc.advancing = some row.id →
        ∀ r, s.runs row.id = some r → ∀ c, r.claimedAt = some c → p.now - leaseMs ≤ c
  | _ => True

/-- A claim takes no run that ended after the claim's candidate was selected. -/
def State.StillDue (s : State V) : Event V → Prop
  | .run i _ => ∀ p row, s.tasks[i]? = some (.claimUpdate p row) →
      ∀ r, s.runs row.id = some r → ¬r.status.Ended
  | _ => True

/-- A worker's run has a lease, which no other worker has. -/
structure Leased (s : State V) : Prop where
  held : ∀ pc ∈ s.tasks, ∀ id, pc.advancing = some id →
    ∃ row, s.runs id = some row ∧ row.claimedAt ≠ none
  unique : ∀ (i j : ℕ) (pc pc' : Pc V) (id : String), s.tasks[i]? = some pc →
    s.tasks[j]? = some pc' → pc.advancing = some id → pc'.advancing = some id → i = j

/-- A run that has ended has no lease. -/
def State.Released (s : State V) : Prop :=
  ∀ id row, s.runs id = some row → row.status.Ended → row.claimedAt = none

theorem leased_init (now : ℤ) : Leased (State.init now : State V) where
  held := by simp [State.init]
  unique := by simp [State.init]

theorem released_init (now : ℤ) : (State.init now : State V).Released := by
  simp [State.Released, State.init]

/-! ## What a step does to the leases -/

/-- The step of a task, as far as the status and the lease of a run go. -/
inductive LeaseStep (s t : State V) (i : ℕ) (pc : Pc V) : Prop where
  | stays (next : Pc V) (htasks : t.tasks = s.tasks.set i next)
      (hnext : next.advancing = none ∨ next.advancing = pc.advancing)
      (hrows : ∀ id, (t.runs id).map (fun row => (row.status, row.claimedAt)) =
        (s.runs id).map fun row => (row.status, row.claimedAt))
  | starts (id : String) (row : Row) (hnone : s.runs id = none)
      (htasks : t.tasks = s.tasks.set i .finished)
      (hruns : t.runs = Function.update s.runs id (some row)) (hstatus : row.status = .running)
  | claims (p : Poll V) (c : ClaimRow) (r row : Row) (next : Pc V) (hpc : pc = .claimUpdate p c)
      (hr : s.runs c.id = some r) (hfree : Row.Free r p.now)
      (htasks : t.tasks = s.tasks.set i next) (hnext : next.advancing = some c.id)
      (hruns : t.runs = Function.update s.runs c.id (some row)) (hstatus : row.status = .running)
      (hclaimed : row.claimedAt ≠ none)
  | parks (id : String) (next : Pc V) (f : Row → Row) (hpc : pc.advancing = some id)
      (htasks : t.tasks = s.tasks.set i next) (hnext : next.advancing = some id)
      (hruns : t.runs = Function.update s.runs id ((s.runs id).map f))
      (hstatus : ∀ row, (f row).status = .waiting)
      (hclaimed : ∀ row, (f row).claimedAt = row.claimedAt)
  | closes (id : String) (f : Row → Row) (hpc : pc.advancing = some id)
      (htasks : t.tasks = s.tasks.set i .finished)
      (hruns : t.runs = Function.update s.runs id ((s.runs id).map f))
      (hclaimed : ∀ row, (f row).claimedAt = none)

@[simp] theorem Execution.advancing_next (x : Execution V) : x.next.advancing = some x.run := by
  unfold Execution.next
  cases x.body x.answers <;> rfl

@[simp] theorem State.advancing_advance (p : Poll V) (row : ClaimRow) :
    (s.advance p row).advancing = some row.id := by
  unfold State.advance
  split
  · simp
  · split
    · split <;> rfl
    · rfl

/-- An update that leaves the status and the lease alone. -/
theorem State.lease_update (id : String) (f : Row → Row) (hstatus : ∀ row, (f row).status = row.status)
    (hclaimed : ∀ row, (f row).claimedAt = row.claimedAt) (other : String) :
    ((s.update id f).runs other).map (fun row => (row.status, row.claimedAt)) =
      (s.runs other).map fun row => (row.status, row.claimedAt) := by
  by_cases heq : other = id
  · subst heq
    cases hr : s.runs other with
    | none => simp [State.update, hr]
    | some row => simp [State.update, hr, hstatus, hclaimed]
  · simp [State.update, Function.update_of_ne heq]

theorem State.runs_writeJournal (run key json : String) :
    (s.writeJournal run key json).runs = s.runs := by
  unfold State.writeJournal
  split <;> rfl

theorem State.tasks_writeJournal (run key json : String) :
    (s.writeJournal run key json).tasks = s.tasks := by
  unfold State.writeJournal
  split <;> rfl

theorem State.runs_runClose (at_ : ℤ) (run : String) (c : Close) :
    (s.runClose i at_ run c).runs = (s.update run (Close.apply c at_)).runs := by
  unfold State.runClose
  cases Close.ends c <;> rfl

theorem State.tasks_runClose (at_ : ℤ) (run : String) (c : Close) :
    (s.runClose i at_ run c).tasks = s.tasks.set i .finished := by
  unfold State.runClose
  cases Close.ends c <;> rfl

theorem Close.claimedAt_apply (c : Close) (at_ : ℤ) (row : Row) :
    (Close.apply c at_ row).claimedAt = none := by
  cases c <;> rfl

theorem State.lease_runStart {pc : Pc V} (id workflow version input : String) (now : ℤ) :
    LeaseStep s (s.runStart i id workflow version input now) i pc := by
  unfold State.runStart
  split
  · exact .stays .finished rfl (.inl rfl) (fun _ => rfl)
  · next hnone => exact .starts id _ hnone rfl rfl rfl

theorem State.lease_runSignalInsert {pc : Pc V} (run name payload : String) (now : ℤ) :
    LeaseStep s (s.runSignalInsert i run name payload now) i pc := by
  unfold State.runSignalInsert
  split <;> exact .stays (.signalWake run now) rfl (.inl rfl) (fun _ => rfl)

theorem State.lease_runClaimSelect {p : Poll V} {id : String}
    (h : s.runClaimSelect i id p = some t) : LeaseStep s t i pc := by
  unfold State.runClaimSelect at h
  split at h
  · obtain rfl := Option.some.inj h
    exact .stays .finished rfl (.inl rfl) (fun _ => rfl)
  · split at h
    · obtain ⟨row, _, rfl⟩ := Option.map_eq_some_iff.1 h
      exact .stays (.claimUpdate p _) rfl (.inl rfl) (fun _ => rfl)
    · cases h

theorem State.lease_runClaimUpdate (p : Poll V) (c : ClaimRow) :
    LeaseStep s (s.runClaimUpdate i p c) i (.claimUpdate p c) := by
  unfold State.runClaimUpdate
  split
  · exact .stays .finished rfl (.inl rfl) (fun _ => rfl)
  · next r hr =>
      split
      · next hfree =>
          refine .claims p c r _ (s.advance p c) rfl hr hfree rfl (State.advancing_advance p c)
            (by simp only [State.setTask, State.update, hr, Option.map_some]; rfl) rfl ?_
          simp
      · exact .stays .finished rfl (.inl rfl) (fun _ => rfl)

theorem State.lease_answer {s' : State V} (x : Execution V) (a : Answer V)
    (hpc : pc.advancing = some x.run) (hruns : s'.runs = s.runs) (htasks : s'.tasks = s.tasks) :
    LeaseStep s (s'.answer i x a) i pc := by
  refine .stays ({ x with answers := x.answers ++ [a] } : Execution V).next ?_ (.inr ?_) ?_
  · simp [State.answer, State.setTask, htasks]
  · simp [hpc]
  · simp [State.answer, State.setTask, hruns]

theorem State.lease_runBody (at_ : ℤ) (x : Execution V) :
    LeaseStep s (s.runBody i at_ x) i (.body x) := by
  unfold State.runBody
  split
  · split
    · split
      · exact State.lease_answer x _ rfl rfl rfl
      · exact .stays _ rfl (.inr rfl) (fun _ => rfl)
    · exact .stays _ rfl (.inr rfl) (fun _ => rfl)
  · split
    · exact State.lease_answer x _ rfl rfl rfl
    · exact .stays _ rfl (.inr rfl) (fun _ => rfl)
  · split
    · split
      · exact State.lease_answer x _ rfl rfl rfl
      · exact .stays _ rfl (.inr rfl) (fun _ => rfl)
    · exact .stays _ rfl (.inr rfl) (fun _ => rfl)
  · exact .stays _ rfl (.inr rfl) (fun _ => rfl)
  · exact .stays _ rfl (.inr rfl) (fun _ => rfl)

theorem State.lease_run {a : State.Input V} (hi : s.tasks[i]? = some pc)
    (h : s.run i a = some t) : LeaseStep s t i pc := by
  unfold State.run at h
  rw [hi] at h
  cases pc with
  | finished => cases h
  | start id workflow version input now =>
      obtain rfl := Option.some.inj h
      exact State.lease_runStart ..
  | signalInsert run name payload now =>
      obtain rfl := Option.some.inj h
      exact State.lease_runSignalInsert ..
  | signalWake run now =>
      obtain rfl := Option.some.inj h
      exact .stays .finished rfl (.inl rfl)
        (State.lease_update run _ (fun _ => rfl) (fun _ => rfl))
  | claimSelect p => exact State.lease_runClaimSelect h
  | claimUpdate p c =>
      obtain rfl := Option.some.inj h
      exact State.lease_runClaimUpdate p c
  | body x =>
      obtain rfl := Option.some.inj h
      exact State.lease_runBody ..
  | stepTask x codec stepId =>
      obtain rfl := Option.some.inj h
      unfold State.runStepTask
      cases a.result with
      | ok v => exact .stays (.stepWrite x codec stepId v) rfl (.inr rfl) (fun _ => rfl)
      | error e => exact .stays (.close x.run (onError e)) rfl (.inr rfl) (fun _ => rfl)
  | stepWrite x codec stepId result =>
      obtain rfl := Option.some.inj h
      exact State.lease_answer x _ rfl (State.runs_writeJournal ..) (State.tasks_writeJournal ..)
  | sleepWrite x sleepId wake =>
      obtain rfl := Option.some.inj h
      refine .stays (.sleepWake x wake) ?_ (.inr rfl) ?_
      · simp [State.setTask, State.tasks_writeJournal]
      · simp [State.setTask, State.runs_writeJournal]
  | sleepWake x wake =>
      obtain rfl := Option.some.inj h
      exact .stays (.close x.run .release) rfl (.inr rfl)
        (State.lease_update x.run _ (fun _ => rfl) (fun _ => rfl))
  | awaitPark x name =>
      obtain rfl := Option.some.inj h
      exact .parks x.run (.close x.run .release) _ rfl rfl rfl rfl (fun _ => rfl) (fun _ => rfl)
  | close run c =>
      obtain rfl := Option.some.inj h
      exact .closes run (Close.apply c a.at_) rfl (State.tasks_runClose ..)
        (State.runs_runClose ..) (Close.claimedAt_apply c a.at_)
  | compactJournal cutoff =>
      obtain rfl := Option.some.inj h
      exact .stays (.compactSignals cutoff) rfl (.inl rfl) (fun _ => rfl)
  | compactSignals cutoff =>
      obtain rfl := Option.some.inj h
      exact .stays .finished rfl (.inl rfl) (fun _ => rfl)

end Sky.Durable
