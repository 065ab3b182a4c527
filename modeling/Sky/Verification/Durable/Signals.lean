import Sky.Verification.Durable.Ends

/-! # Signals wake the runs that wait for them

A run that is parked for a signal is claimable once the signal's row is there and the call that
wrote it has woken the run. -/

namespace Sky.Durable

open Library

variable {V : Type*} {s t : State V} {i : ℕ} {pc : Pc V} {e : Event V}

/-- A signal call that has still to wake the run. -/
def State.Waking (s : State V) (id : String) : Prop :=
  ∃ now, Pc.signalWake id now ∈ s.tasks

/-- A run is parked for a signal only while the signal's row is missing, or while a signal call
has still to wake the run. -/
def State.ParksInTime (s : State V) : Event V → Prop
  | .run i _ => ∀ x name, s.tasks[i]? = some (.awaitPark x name) →
      s.signals x.run name = none ∨ s.Waking x.run
  | _ => True

/-- The time with which a signal call will wake its run. -/
def Pc.wakes : Pc V → Option ℤ
  | .signalInsert _ _ _ now | .signalWake _ now => some now
  | _ => none

def Row.Claimable (row : Row) (now : ℤ) : Prop :=
  (row.status = .running ∨ row.status = .waiting) ∧ row.wakeAt ≤ now

/-- A run that is parked for a signal: when the signal's row is there, the run is due, or a signal
call has still to wake it. -/
def State.Awake (s : State V) (id name : String) : Prop :=
  ∃ row, s.runs id = some row ∧ (row.status = .running ∨ row.status = .waiting) ∧
    (s.signals id name ≠ none → row.wakeAt ≤ s.now ∨ s.Waking id)

structure Wakeful (s : State V) : Prop where
  rows : ∀ pc ∈ s.tasks, ∀ id, pc.advancing = some id → ∃ row, s.runs id = some row
  past : ∀ pc ∈ s.tasks, ∀ now, pc.wakes = some now → now ≤ s.now
  parked : ∀ id name, s.parked id = some name → s.Awake id name

theorem wakeful_init (now : ℤ) : Wakeful (State.init now : State V) where
  rows := by simp [State.init]
  past := by simp [State.init]
  parked := by simp [State.init]

/-! ## Waking and parking -/

@[simp] theorem Execution.wakes_next (x : Execution V) : x.next.wakes = none := by
  unfold Execution.next
  cases x.body x.answers <;> rfl

@[simp] theorem State.wakes_advance (p : Poll V) (row : ClaimRow) :
    (s.advance p row).wakes = none := by
  unfold State.advance
  split
  · exact Execution.wakes_next _
  · split
    · split <;> rfl
    · rfl

/-- The calls that have still to wake a run are the others' and the task's own. -/
theorem State.Waking.set (hi : s.tasks[i]? = some pc) {q : Pc V}
    (htasks : t.tasks = s.tasks.set i q) {id : String} (hpc : ∀ now, pc ≠ .signalWake id now)
    (h : s.Waking id) : t.Waking id := by
  obtain ⟨now, hmem⟩ := h
  exact ⟨now, htasks ▸ mem_set_of_ne hi hmem (Ne.symm (hpc now))⟩

/-- A parked run stays so while its wake time, its signals and the calls that wake it stay. -/
theorem State.Awake.stays {id name : String} (h : s.Awake id name)
    (hrow : ∀ row, s.runs id = some row → ∃ row', t.runs id = some row' ∧
      (row'.status = row.status ∨ row'.status = .running ∨ row'.status = .waiting) ∧
      row'.wakeAt = row.wakeAt)
    (hsignals : t.signals id name ≠ none → s.signals id name ≠ none)
    (hwaking : s.Waking id → t.Waking id) (hnow : s.now ≤ t.now) : t.Awake id name := by
  obtain ⟨row, hr, hstatus, hwake⟩ := h
  obtain ⟨row', hr', hstatus', hsame⟩ := hrow row hr
  refine ⟨row', hr', ?_, ?_⟩
  · rcases hstatus' with heq | hnew
    · exact heq.symm ▸ hstatus
    · exact hnew
  · intro hsignal
    rcases hwake (hsignals hsignal) with hdue | hcall
    · exact .inl (hsame ▸ hdue.trans hnow)
    · exact .inr (hwaking hcall)

/-- A step of a task keeps what it does not say about the parked runs. -/
theorem Wakeful.step_task (h : Wakeful s) (hi : s.tasks[i]? = some pc) {q : Pc V}
    (htasks : t.tasks = s.tasks.set i q) (hnow : t.now = s.now)
    (hadv : ∀ id, q.advancing = some id → ∃ row, s.runs id = some row)
    (hwakes : q.wakes = none ∨ q.wakes = pc.wakes)
    (hrows : ∀ id row, s.runs id = some row → ∃ row', t.runs id = some row')
    (hparked : ∀ id name, t.parked id = some name → t.Awake id name) : Wakeful t where
  rows := by
    intro r hr id hid
    obtain ⟨row, hrow⟩ : ∃ row, s.runs id = some row := by
      rcases mem_set_cases (htasks ▸ hr) with rfl | ⟨j, _, hj⟩
      · exact hadv id hid
      · exact h.rows r (List.mem_of_getElem? hj) id hid
    exact hrows id row hrow
  past := by
    intro r hr now hwake
    rw [hnow]
    rcases mem_set_cases (htasks ▸ hr) with rfl | ⟨j, _, hj⟩
    · rcases hwakes with hnone | hsame
      · rw [hnone] at hwake
        cases hwake
      · exact h.past pc (List.mem_of_getElem? hi) now (hsame ▸ hwake)
    · exact h.past r (List.mem_of_getElem? hj) now hwake
  parked := hparked

/-- A step that leaves the runs, the signals and the parked runs alone. -/
theorem Wakeful.frame (h : Wakeful s) (hi : s.tasks[i]? = some pc) {q : Pc V}
    (htasks : t.tasks = s.tasks.set i q) (hnow : t.now = s.now)
    (hadv : q.advancing = none ∨ q.advancing = pc.advancing)
    (hwakes : q.wakes = none ∨ q.wakes = pc.wakes) (hpc : pc.wakes = none)
    (hruns : t.runs = s.runs) (hsignals : t.signals = s.signals) (hparked : t.parked = s.parked) :
    Wakeful t := by
  refine h.step_task hi htasks hnow ?_ hwakes ?_ ?_
  · intro id hid
    rcases hadv with hnone | hsame
    · rw [hnone] at hid
      cases hid
    · exact h.rows pc (List.mem_of_getElem? hi) id (hsame ▸ hid)
  · intro id row hrow
    exact ⟨row, hruns ▸ hrow⟩
  · intro id name hname
    refine (h.parked id name (hparked ▸ hname)).stays ?_ (fun h => hsignals ▸ h) ?_ hnow.ge
    · intro row hrow
      exact ⟨row, hruns ▸ hrow, .inl rfl, rfl⟩
    · refine State.Waking.set hi htasks ?_
      rintro now rfl
      cases hpc

/-! ## The statements -/

theorem State.exists_update {id : String} {f : Row → Row} {other : String} {row : Row}
    (h : s.runs other = some row) : ∃ row', (s.update id f).runs other = some row' := by
  by_cases hid : other = id
  · subst hid
    exact ⟨f row, by simp [State.update, h]⟩
  · exact ⟨row, by simp [State.update, Function.update_of_ne hid, h]⟩

/-- A row after an update of the rows: it was updated, or it is another's. -/
theorem State.update_cases (id : String) (f : Row → Row) {other : String} {row : Row}
    (h : s.runs other = some row) :
    other = id ∧ (s.update id f).runs other = some (f row) ∨
      other ≠ id ∧ (s.update id f).runs other = some row := by
  by_cases hid : other = id
  · subst hid
    exact .inl ⟨rfl, by simp [State.update, h]⟩
  · exact .inr ⟨hid, by simp [State.update, Function.update_of_ne hid, h]⟩

theorem Wakeful.runStart (h : Wakeful s) {id workflow version text : String} {now : ℤ}
    (hi : s.tasks[i]? = some (.start id workflow version text now)) :
    Wakeful (s.runStart i id workflow version text now) := by
  unfold State.runStart
  split
  · exact h.frame hi rfl rfl (.inl rfl) (.inl rfl) rfl rfl rfl rfl
  · next hnone =>
      have hkept : ∀ other row row', s.runs other = some row →
          Function.update s.runs id (some row') other = some row := by
        intro other row row' hrow
        rw [Function.update_of_ne, hrow]
        rintro rfl
        rw [hnone] at hrow
        cases hrow
      refine h.step_task hi rfl rfl (fun _ hadv => by cases hadv) (.inl rfl) ?_ ?_
      · intro other row hrow
        exact ⟨row, hkept other row _ hrow⟩
      · intro other name hname
        refine (h.parked other name hname).stays ?_ (fun h => h) ?_ le_rfl
        · intro row hrow
          exact ⟨row, hkept other row _ hrow, .inl rfl, rfl⟩
        · exact State.Waking.set hi rfl (by rintro now ⟨⟩)

theorem Wakeful.runSignalInsert (h : Wakeful s) {run name payload : String} {now : ℤ}
    (hi : s.tasks[i]? = some (.signalInsert run name payload now)) :
    Wakeful (s.runSignalInsert i run name payload now) := by
  unfold State.runSignalInsert
  split
  · refine h.step_task hi rfl rfl (fun _ hadv => by cases hadv) (.inr rfl)
      (fun id row hrow => ⟨row, hrow⟩) ?_
    intro id other hparked
    exact (h.parked id other hparked).stays (fun row hrow => ⟨row, hrow, .inl rfl, rfl⟩) (fun h => h)
      (State.Waking.set hi rfl (by rintro now ⟨⟩)) le_rfl
  · refine h.step_task hi rfl rfl (fun _ hadv => by cases hadv) (.inr rfl)
      (fun id row hrow => ⟨row, hrow⟩) ?_
    intro id other hparked
    by_cases hid : id = run
    · subst hid
      obtain ⟨row, hrow, hstatus, _⟩ := h.parked id other hparked
      have hlt : i < s.tasks.length := (List.getElem?_eq_some_iff.1 hi).1
      exact ⟨row, hrow, hstatus, fun _ => .inr ⟨now, List.mem_set hlt _⟩⟩
    · refine (h.parked id other hparked).stays (fun row hrow => ⟨row, hrow, .inl rfl, rfl⟩) ?_
        (State.Waking.set hi rfl (by rintro now ⟨⟩)) le_rfl
      simp [State.setTask, Function.update_of_ne hid]

theorem Wakeful.runSignalWake (h : Wakeful s) {run : String} {now : ℤ}
    (hi : s.tasks[i]? = some (.signalWake run now)) : Wakeful (s.runSignalWake i run now) := by
  have hpast : now ≤ s.now := h.past _ (List.mem_of_getElem? hi) now rfl
  refine h.step_task hi rfl rfl (fun _ hadv => by cases hadv) (.inl rfl)
    (fun id row hrow => State.exists_update hrow) ?_
  intro id name hparked
  have hawake := h.parked id name hparked
  by_cases hid : id = run
  · subst hid
    obtain ⟨row, hrow, hstatus, _⟩ := hawake
    refine ⟨{ row with wakeAt := now, waitingSignal := none, updatedAt := now }, ?_, hstatus,
      fun _ => .inl hpast⟩
    simp [State.runSignalWake, State.setTask, State.update, hrow]
  · refine hawake.stays ?_ (fun h => h) (State.Waking.set hi rfl ?_) le_rfl
    · intro row hrow
      exact ⟨row, by simp [State.runSignalWake, State.setTask, State.update,
        Function.update_of_ne hid, hrow], .inl rfl, rfl⟩
    · rintro other heq
      injection heq with hrun
      exact hid hrun.symm

theorem Wakeful.runClaimSelect (h : Wakeful s) {p : Poll V} {id : String}
    (hi : s.tasks[i]? = some (.claimSelect p)) (hstep : s.runClaimSelect i id p = some t) :
    Wakeful t := by
  unfold State.runClaimSelect at hstep
  split at hstep
  · obtain rfl := Option.some.inj hstep
    exact h.frame hi rfl rfl (.inl rfl) (.inl rfl) rfl rfl rfl rfl
  · split at hstep
    · obtain ⟨row, _, rfl⟩ := Option.map_eq_some_iff.1 hstep
      exact h.frame hi rfl rfl (.inl rfl) (.inl rfl) rfl rfl rfl rfl
    · cases hstep

theorem Wakeful.runClaimUpdate (h : Wakeful s) {p : Poll V} {c : ClaimRow}
    (hi : s.tasks[i]? = some (.claimUpdate p c)) : Wakeful (s.runClaimUpdate i p c) := by
  unfold State.runClaimUpdate
  split
  · exact h.frame hi rfl rfl (.inl rfl) (.inl rfl) rfl rfl rfl rfl
  · next r hr =>
      split
      · refine h.step_task hi rfl rfl ?_ (.inl (State.wakes_advance p c))
          (fun id row hrow => State.exists_update hrow) ?_
        · intro id hadv
          rw [State.advancing_advance] at hadv
          obtain rfl := Option.some.inj hadv
          exact ⟨r, hr⟩
        · intro id name hparked
          refine (h.parked id name hparked).stays ?_ (fun h => h)
            (State.Waking.set hi rfl (by rintro now ⟨⟩)) le_rfl
          intro row hrow
          rcases State.update_cases c.id (fun r => { r with
            claimedAt := some p.now, status := .running, attempts := r.attempts + 1
            updatedAt := p.now }) hrow with ⟨_, hnew⟩ | ⟨_, hold⟩
          · exact ⟨_, hnew, .inr (.inl rfl), rfl⟩
          · exact ⟨row, hold, .inl rfl, rfl⟩
      · exact h.frame hi rfl rfl (.inl rfl) (.inl rfl) rfl rfl rfl rfl

theorem Wakeful.answer (h : Wakeful s) (hi : s.tasks[i]? = some pc) (x : Execution V) (a : Answer V)
    (hadv : pc.advancing = some x.run) (hpc : pc.wakes = none) {s' : State V}
    (hs : ∃ journal, s' = { s with journal := journal }) : Wakeful (s'.answer i x a) := by
  obtain ⟨journal, rfl⟩ := hs
  refine h.frame hi (q := ({ x with answers := x.answers ++ [a] } : Execution V).next) rfl rfl
    (.inr ?_) (.inl (Execution.wakes_next _)) hpc rfl rfl rfl
  simp [hadv]

theorem Wakeful.runBody (h : Wakeful s) {x : Execution V} (hi : s.tasks[i]? = some (.body x))
    (at_ : ℤ) : Wakeful (s.runBody i at_ x) := by
  unfold State.runBody
  split
  · split
    · split
      · exact h.answer hi x _ rfl rfl ⟨s.journal, rfl⟩
      · exact h.frame hi rfl rfl (.inr rfl) (.inl rfl) rfl rfl rfl rfl
    · exact h.frame hi rfl rfl (.inr rfl) (.inl rfl) rfl rfl rfl rfl
  · split
    · exact h.answer hi x _ rfl rfl ⟨s.journal, rfl⟩
    · exact h.frame hi rfl rfl (.inr rfl) (.inl rfl) rfl rfl rfl rfl
  · split
    · split
      · exact h.answer hi x _ rfl rfl ⟨s.journal, rfl⟩
      · exact h.frame hi rfl rfl (.inr rfl) (.inl rfl) rfl rfl rfl rfl
    · exact h.frame hi rfl rfl (.inr rfl) (.inl rfl) rfl rfl rfl rfl
  · exact h.frame hi rfl rfl (.inr rfl) (.inl rfl) rfl rfl rfl rfl
  · exact h.frame hi rfl rfl (.inr rfl) (.inl rfl) rfl rfl rfl rfl

theorem State.writeJournal_eq (run key json : String) :
    ∃ journal, s.writeJournal run key json = { s with journal := journal } := by
  unfold State.writeJournal
  split
  · exact ⟨s.journal, rfl⟩
  · exact ⟨_, rfl⟩

theorem Wakeful.runSleepWake (h : Wakeful s) {x : Execution V} {wake : ℤ}
    (hi : s.tasks[i]? = some (.sleepWake x wake)) (at_ : ℤ) :
    Wakeful (s.runSleepWake i at_ x wake) := by
  refine h.step_task hi rfl rfl ?_ (.inl rfl) (fun id row hrow => State.exists_update hrow) ?_
  · intro id hadv
    exact h.rows _ (List.mem_of_getElem? hi) id hadv
  · intro id name hparked
    have hid : id ≠ x.run := by
      rintro rfl
      simp [State.runSleepWake, State.setTask, State.setParked] at hparked
    have hold : s.parked id = some name := by
      simpa [State.runSleepWake, State.setTask, State.setParked, State.update,
        Function.update_of_ne hid] using hparked
    refine (h.parked id name hold).stays ?_ (fun h => h)
      (State.Waking.set hi rfl (by rintro now ⟨⟩)) le_rfl
    intro row hrow
    exact ⟨row, by simp [State.runSleepWake, State.setTask, State.setParked, State.update,
      Function.update_of_ne hid, hrow], .inl rfl, rfl⟩

theorem Wakeful.runAwaitPark (h : Wakeful s) {x : Execution V} {name : String}
    (hi : s.tasks[i]? = some (.awaitPark x name))
    (htime : s.signals x.run name = none ∨ s.Waking x.run) (at_ : ℤ) :
    Wakeful (s.runAwaitPark i at_ x name) := by
  refine h.step_task hi rfl rfl ?_ (.inl rfl) (fun id row hrow => State.exists_update hrow) ?_
  · intro id hadv
    exact h.rows _ (List.mem_of_getElem? hi) id hadv
  · intro id other hparked
    have hwaking : ∀ {id}, s.Waking id → (s.runAwaitPark i at_ x name).Waking id :=
      fun h => h.set hi rfl (by rintro now ⟨⟩)
    by_cases hid : id = x.run
    · subst hid
      obtain rfl : name = other := by
        simpa [State.runAwaitPark, State.setTask, State.setParked] using hparked
      obtain ⟨row, hrow⟩ := h.rows _ (List.mem_of_getElem? hi) x.run rfl
      refine ⟨{ row with
        status := .waiting, waitingSignal := some name, wakeAt := farFuture
        updatedAt := at_ }, ?_, .inr rfl, ?_⟩
      · simp [State.runAwaitPark, State.setTask, State.setParked, State.update, hrow]
      · intro hsignal
        exact .inr (hwaking (htime.resolve_left hsignal))
    · have hold : s.parked id = some other := by
        simpa [State.runAwaitPark, State.setTask, State.setParked, State.update,
          Function.update_of_ne hid] using hparked
      refine (h.parked id other hold).stays ?_ (fun h => h) hwaking le_rfl
      intro row hrow
      exact ⟨row, by simp [State.runAwaitPark, State.setTask, State.setParked, State.update,
        Function.update_of_ne hid, hrow], .inl rfl, rfl⟩

theorem Close.apply_wakeAt (c : Close) (at_ : ℤ) (row : Row) :
    (Close.apply c at_ row).wakeAt = row.wakeAt := by
  cases c <;> rfl

theorem Close.apply_status {c : Close} (hc : Close.ends c = false) (at_ : ℤ) (row : Row) :
    (Close.apply c at_ row).status = row.status ∨ (Close.apply c at_ row).status = .waiting := by
  cases c with
  | release => exact .inl rfl
  | park => exact .inr rfl
  | done => cases hc
  | failed => cases hc
  | dead => cases hc

theorem Wakeful.runClose (h : Wakeful s) {run : String} {c : Close}
    (hi : s.tasks[i]? = some (.close run c)) (at_ : ℤ) : Wakeful (s.runClose i at_ run c) := by
  have htasks := State.tasks_runClose (s := s) (i := i) at_ run c
  have hruns := State.runs_runClose (s := s) (i := i) at_ run c
  have hnow : (s.runClose i at_ run c).now = s.now := by
    unfold State.runClose
    cases Close.ends c <;> rfl
  have hsignals : (s.runClose i at_ run c).signals = s.signals := by
    unfold State.runClose
    cases Close.ends c <;> rfl
  refine h.step_task hi htasks hnow (fun _ hadv => by cases hadv) (.inl rfl) ?_ ?_
  · intro id row hrow
    rw [hruns]
    exact State.exists_update hrow
  · intro id name hparked
    -- a run that ends is no longer parked
    have hold : s.parked id = some name ∧ (id = run → Close.ends c = false) := by
      unfold State.runClose at hparked
      cases hc : Close.ends c with
      | false => exact ⟨by simpa [hc, State.setTask, State.update] using hparked, fun _ => rfl⟩
      | true =>
          by_cases hid : id = run
          · subst hid
            simp [hc, State.setTask, State.setParked] at hparked
          · refine ⟨?_, fun heq => absurd heq hid⟩
            simpa [hc, State.setTask, State.setParked, State.update,
              Function.update_of_ne hid] using hparked
    refine (h.parked id name hold.1).stays ?_ (fun h => hsignals ▸ h)
      (State.Waking.set hi htasks (by rintro now ⟨⟩)) hnow.ge
    intro row hrow
    rw [hruns]
    rcases State.update_cases run (Close.apply c at_) hrow with ⟨hid, hnew⟩ | ⟨_, hsame⟩
    · refine ⟨_, hnew, ?_, Close.apply_wakeAt c at_ row⟩
      rcases Close.apply_status (hold.2 hid) at_ row with hstatus | hstatus
      · exact .inl hstatus
      · exact .inr (.inr hstatus)
    · exact ⟨row, hsame, .inl rfl, rfl⟩

theorem Wakeful.runCompactSignals (h : Wakeful s) {cutoff : ℤ}
    (hi : s.tasks[i]? = some (.compactSignals cutoff)) :
    Wakeful (s.runCompactSignals i cutoff) := by
  refine h.step_task hi rfl rfl (fun _ hadv => by cases hadv) (.inl rfl)
    (fun id row hrow => ⟨row, hrow⟩) ?_
  intro id name hparked
  refine (h.parked id name hparked).stays (fun row hrow => ⟨row, hrow, .inl rfl, rfl⟩) ?_
    (State.Waking.set hi rfl (by rintro now ⟨⟩)) le_rfl
  simp only [State.runCompactSignals, State.setTask]
  split
  · intro hnone
    exact absurd rfl hnone
  · exact fun h => h

theorem Wakeful.run (h : Wakeful s) {a : State.Input V} (htime : s.ParksInTime (.run i a))
    (hstep : s.run i a = some t) : Wakeful t := by
  unfold State.run at hstep
  split at hstep
  · cases hstep
  · cases hstep
  · next hi =>
      obtain rfl := Option.some.inj hstep
      exact h.runStart hi
  · next hi =>
      obtain rfl := Option.some.inj hstep
      exact h.runSignalInsert hi
  · next hi =>
      obtain rfl := Option.some.inj hstep
      exact h.runSignalWake hi
  · next hi => exact h.runClaimSelect hi hstep
  · next hi =>
      obtain rfl := Option.some.inj hstep
      exact h.runClaimUpdate hi
  · next hi =>
      obtain rfl := Option.some.inj hstep
      exact h.runBody hi a.at_
  · next x codec stepId hi =>
      obtain rfl := Option.some.inj hstep
      unfold State.runStepTask
      cases a.result with
      | ok v => exact h.frame hi rfl rfl (.inr rfl) (.inl rfl) rfl rfl rfl rfl
      | error e => exact h.frame hi rfl rfl (.inr rfl) (.inl rfl) rfl rfl rfl rfl
  · next x codec stepId result hi =>
      obtain rfl := Option.some.inj hstep
      exact h.answer hi x _ rfl rfl (State.writeJournal_eq ..)
  · next x sleepId wake hi =>
      obtain rfl := Option.some.inj hstep
      obtain ⟨journal, hj⟩ := State.writeJournal_eq (s := s) x.run (sleepKey sleepId) (toString wake)
      rw [hj]
      exact h.frame hi rfl rfl (.inr rfl) (.inl rfl) rfl rfl rfl rfl
  · next hi =>
      obtain rfl := Option.some.inj hstep
      exact h.runSleepWake hi a.at_
  · next x name hi =>
      obtain rfl := Option.some.inj hstep
      exact h.runAwaitPark hi (htime x name hi) a.at_
  · next hi =>
      obtain rfl := Option.some.inj hstep
      exact h.runClose hi a.at_
  · next hi =>
      obtain rfl := Option.some.inj hstep
      exact h.frame hi rfl rfl (.inl rfl) (.inl rfl) rfl rfl rfl rfl
  · next hi =>
      obtain rfl := Option.some.inj hstep
      exact h.runCompactSignals hi

theorem Call.wakes_enter {c : Call V} {now at_ : ℤ} (h : (c.enter now).wakes = some at_) :
    at_ = now := by
  cases c <;> simp_all [Call.enter, Pc.wakes]

theorem Wakeful.step (h : Wakeful s) (htime : s.ParksInTime e) (hstep : s.step e = some t) :
    Wakeful t := by
  rcases State.step_cases hstep with ⟨c, rfl, rfl⟩ | ⟨i, a, rfl, _, hrun⟩ |
    ⟨i, pc, rfl, hi, hworker, rfl⟩ | ⟨now, rfl, hnow, rfl⟩
  · refine ⟨?_, ?_, ?_⟩
    · intro pc hpc id hadv
      rcases List.mem_append.1 hpc with hold | hnew
      · exact h.rows pc hold id hadv
      · obtain rfl := List.mem_singleton.1 hnew
        rw [Call.advancing_enter] at hadv
        cases hadv
    · intro pc hpc now hwake
      rcases List.mem_append.1 hpc with hold | hnew
      · exact h.past pc hold now hwake
      · obtain rfl := List.mem_singleton.1 hnew
        exact (Call.wakes_enter hwake).le
    · intro id name hparked
      refine (h.parked id name hparked).stays (fun row hrow => ⟨row, hrow, .inl rfl, rfl⟩)
        (fun h => h) ?_ le_rfl
      rintro ⟨now, hmem⟩
      exact ⟨now, List.mem_append_left _ hmem⟩
  · exact h.run htime hrun
  · have hpc : pc.wakes = none := by
      cases pc <;> first | rfl | cases hworker
    exact h.frame hi rfl rfl (.inl rfl) (.inl rfl) hpc rfl rfl rfl
  · refine ⟨h.rows, fun pc hpc at_ hwake => (h.past pc hpc at_ hwake).trans hnow, ?_⟩
    intro id name hparked
    exact (h.parked id name hparked).stays (fun row hrow => ⟨row, hrow, .inl rfl, rfl⟩)
      (fun h => h) (fun h => h) hnow

/-! ## Runs -/

/-- A step that parks no run whose signal has come and gone. -/
def TimelyStep (a : State V) (e : Event V) (b : State V) : Prop :=
  a.ParksInTime e ∧ a.step e = some b

/-- A parked run whose signal is there, with no call left to wake it, is claimable. -/
theorem signal_kept {now : ℤ} {es : List (Event V)}
    (hrun : Run TimelyStep (State.init now) es s) :
    ∀ id name, s.parked id = some name → s.signals id name ≠ none → ¬s.Waking id →
      ∃ row, s.runs id = some row ∧ row.Claimable s.now := by
  intro id name hparked hsignal hcalls
  have hwakeful : Wakeful s :=
    hrun.invariant (fun _ _ _ ha hstep => ha.step hstep.1 hstep.2) (wakeful_init now)
  obtain ⟨row, hrow, hstatus, hwake⟩ := hwakeful.parked id name hparked
  exact ⟨row, hrow, hstatus, (hwake hsignal).resolve_right hcalls⟩

/-! A run waits for a signal, and is parked before the signal is there. -/

def waits : RegisteredWorkflow String where
  name := "w"
  version := "1"
  run := fun _ answers =>
    match answers with
    | [.value v] => .done v
    | _ => .awaitSignal text "go"

def untilRead : List (Event String) :=
  [.call (.start "r" "w" "1" ""), .run 0 input, .call (.poll [waits] .failSafe),
    .run 1 input, .run 1 input, .run 1 input]

def park : List (Event String) := [.run 1 input, .run 1 input]

def deliver : List (Event String) := [.call (.signal "r" "go" "v"), .run 2 input, .run 2 input]

/-- The condition, where it can be computed. -/
def State.parksInTime (s : State String) : Event String → Bool
  | .run i _ =>
      match s.tasks[i]? with
      | some (.awaitPark x name) => (s.signals x.run name).isNone
      | _ => true
  | _ => true

theorem timelyStep_of_parksInTime {s t : State String} {e : Event String}
    (h : s.parksInTime e = true) (hstep : s.step e = some t) : TimelyStep s e t := by
  refine ⟨?_, hstep⟩
  cases e with
  | run i a =>
      intro x name hi
      simp only [State.parksInTime, hi] at h
      exact .inl (Option.isNone_iff_eq_none.1 h)
  | call => trivial
  | crash => trivial
  | tick => trivial

/-- No call is left that would wake a run, and no worker. -/
def State.quiet (s : State String) : Bool :=
  s.tasks.all fun pc => pc.wakes.isNone && pc.advancing.isNone

theorem State.not_waking_of_quiet {s : State String} (h : s.quiet = true) (id : String) :
    ¬s.Waking id := by
  rintro ⟨now, hmem⟩
  have hboth := List.all_eq_true.1 h _ hmem
  simp [Pc.wakes] at hboth

theorem parked_then_signalled :
    ((untilRead ++ park ++ deliver).foldlM State.step (State.init 0)).map
      (fun s => (s.runs "r").map fun row => decide (row.wakeAt ≤ s.now)) = some (some true) := by
  have hrun : ((untilRead ++ park ++ deliver).foldlM
      (fun (s : State String) e => if s.parksInTime e then s.step e else none) (State.init 0)).map
      (fun s => (s.parked "r", s.signals "r" "go", s.quiet)) =
        some (some "go", some "v", true) := by decide +kernel
  obtain ⟨s, hs, hfields⟩ := Option.map_eq_some_iff.1 hrun
  simp only [Prod.mk.injEq] at hfields
  obtain ⟨hparked, hsignal, hquiet⟩ := hfields
  have htimely : Run TimelyStep (State.init 0) (untilRead ++ park ++ deliver) s := by
    refine (Run.iff_foldlM.2 hs).mono ?_
    intro a e b hab
    split at hab
    · next htime => exact timelyStep_of_parksInTime htime hab
    · cases hab
  obtain ⟨row, hrow, _, hwake⟩ := signal_kept htimely "r" "go" hparked (by simp [hsignal])
    (State.not_waking_of_quiet hquiet "r")
  have hsteps : (untilRead ++ park ++ deliver).foldlM State.step (State.init 0) = some s :=
    Run.iff_foldlM.1 (htimely.mono fun _ _ _ hab => hab.2)
  rw [hsteps]
  simp [hrow, hwake]

/-- The run is parked after its signal has been delivered. -/
theorem signalled_then_parked :
    ((untilRead ++ deliver ++ park).foldlM State.step (State.init 0)).map
      (fun s => (s.parked "r", s.signals "r" "go", s.quiet, s.now,
        (s.runs "r").map Row.wakeAt)) =
          some (some "go", some "v", true, 0, some farFuture) := by
  decide +kernel

end Sky.Durable
