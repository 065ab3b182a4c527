import Sky.Library.Tasks
import Sky.Verification.Durable.Lease

/-! # Runs end once and have one worker -/

namespace Sky.Durable

open Library

variable {V : Type*} {s t : State V} {i : ℕ} {pc : Pc V} {e : Event V}

/-! ## The lease -/

/-- A task that had its run, or has none, and the leases of the runs with a worker. -/
theorem Leased.setTask (h : Leased s) (hi : s.tasks[i]? = some pc) {q : Pc V}
    (htasks : t.tasks = s.tasks.set i q) (hq : q.advancing = none ∨ q.advancing = pc.advancing)
    (hrows : ∀ id, (∃ r ∈ t.tasks, r.advancing = some id) → ∀ row, s.runs id = some row →
      row.claimedAt ≠ none → ∃ row', t.runs id = some row' ∧ row'.claimedAt ≠ none) : Leased t where
  held := by
    intro r hr id hadv
    obtain ⟨row, hrow, hclaimed⟩ : ∃ row, s.runs id = some row ∧ row.claimedAt ≠ none := by
      rcases mem_set_cases (htasks ▸ hr) with rfl | ⟨j, _, hj⟩
      · rcases hq with hq | hq
        · rw [hq] at hadv
          cases hadv
        · exact h.held pc (List.mem_of_getElem? hi) id (hq ▸ hadv)
      · exact h.held r (List.mem_of_getElem? hj) id hadv
    exact hrows id ⟨r, hr, hadv⟩ row hrow hclaimed
  unique := by
    have hold : ∀ (j : ℕ) (r : Pc V) (id : String), t.tasks[j]? = some r → r.advancing = some id →
        ∃ r', s.tasks[j]? = some r' ∧ r'.advancing = some id := by
      intro j r id hj hadv
      rcases getElem?_set_cases (htasks ▸ hj) with ⟨rfl, rfl⟩ | ⟨_, hj⟩
      · rcases hq with hq | hq
        · rw [hq] at hadv
          cases hadv
        · exact ⟨pc, hi, hq ▸ hadv⟩
      · exact ⟨r, hj, hadv⟩
    intro j k r r' id hj hk hr hr'
    obtain ⟨q, hq, hqadv⟩ := hold j r id hj hr
    obtain ⟨q', hq', hqadv'⟩ := hold k r' id hk hr'
    exact h.unique j k q q' id hq hq' hqadv hqadv'

theorem Leased.run (h : Leased s) {a : State.Input V} (hlease : s.LeaseHolds (.run i a))
    (hstep : s.run i a = some t) : Leased t := by
  obtain ⟨pc, hi⟩ : ∃ pc, s.tasks[i]? = some pc := by
    cases hi : s.tasks[i]? with
    | none => simp [State.run, hi] at hstep
    | some pc => exact ⟨pc, rfl⟩
  cases State.lease_run hi hstep with
  | stays q htasks hq hrows =>
      refine h.setTask hi htasks hq ?_
      intro id _ row hrow hclaimed
      have hsame := hrows id
      rw [hrow] at hsame
      obtain ⟨row', hrow', heq⟩ := Option.map_eq_some_iff.1 hsame
      have hclaim : row'.claimedAt = row.claimedAt := congrArg Prod.snd heq
      exact ⟨row', hrow', hclaim ▸ hclaimed⟩
  | starts id row hnone htasks hruns =>
      refine h.setTask hi htasks (.inl rfl) ?_
      intro other _ row' hrow' hclaimed
      refine ⟨row', ?_, hclaimed⟩
      rw [hruns, Function.update_of_ne, hrow']
      rintro rfl
      rw [hnone] at hrow'
      cases hrow'
  | claims p c r row q hpc hr hfree htasks hq hruns _ hclaimed =>
      subst hpc
      -- nobody has the run: the lease of a worker would have kept the claim away
      have hnobody : ∀ q ∈ s.tasks, q.advancing ≠ some c.id := by
        intro q hq hadv
        obtain ⟨r', hr', hsome⟩ := h.held q hq c.id hadv
        obtain rfl := Option.some.inj (hr.symm.trans hr')
        obtain ⟨at_, hat⟩ := Option.ne_none_iff_exists'.1 hsome
        exact absurd (hfree at_ hat) (not_lt.2 (hlease p c hi q hq hadv r hr at_ hat))
      refine ⟨?_, ?_⟩
      · intro pc hpc id hadv
        by_cases hid : id = c.id
        · exact ⟨row, by rw [hruns, hid, Function.update_self], hclaimed⟩
        · obtain ⟨row', hrow', hsome⟩ : ∃ row, s.runs id = some row ∧ row.claimedAt ≠ none := by
            rcases mem_set_cases (htasks ▸ hpc) with rfl | ⟨j, _, hj⟩
            · exact absurd (Option.some.inj (hadv.symm.trans hq)) hid
            · exact h.held pc (List.mem_of_getElem? hj) id hadv
          exact ⟨row', by rw [hruns, Function.update_of_ne hid, hrow'], hsome⟩
      · intro j k pc pc' id hj hk hadv hadv'
        rcases getElem?_set_cases (htasks ▸ hj) with ⟨hij, rfl⟩ | ⟨_, hj⟩ <;>
          rcases getElem?_set_cases (htasks ▸ hk) with ⟨hik, rfl⟩ | ⟨_, hk⟩
        · exact hij.symm.trans hik
        · obtain rfl := Option.some.inj (hq.symm.trans hadv)
          exact absurd hadv' (hnobody pc' (List.mem_of_getElem? hk))
        · obtain rfl := Option.some.inj (hq.symm.trans hadv')
          exact absurd hadv (hnobody pc (List.mem_of_getElem? hj))
        · exact h.unique j k pc pc' id hj hk hadv hadv'
  | parks id q f hpc htasks hq hruns _ hclaimed =>
      refine h.setTask hi htasks (.inr (hq.trans hpc.symm)) ?_
      intro other _ row hrow hsome
      by_cases hid : other = id
      · subst hid
        exact ⟨f row, by rw [hruns, Function.update_self, hrow, Option.map_some],
          (hclaimed row).symm ▸ hsome⟩
      · exact ⟨row, by rw [hruns, Function.update_of_ne hid, hrow], hsome⟩
  | closes id f hpc htasks hruns _ =>
      refine h.setTask hi htasks (.inl rfl) ?_
      rintro other ⟨q, hq, hadv⟩ row hrow hsome
      refine ⟨row, ?_, hsome⟩
      rw [hruns, Function.update_of_ne, hrow]
      -- the run that is closed has no other worker
      rintro rfl
      rcases mem_set_cases (htasks ▸ hq) with rfl | ⟨j, hij, hj⟩
      · cases hadv
      · exact hij (h.unique i j pc q other hi hj hpc hadv)

/-- A step that changes no row, and leaves each task or finishes it. -/
theorem Leased.finish (h : Leased s) (hi : s.tasks[i]? = some pc) :
    Leased (s.setTask i .finished) :=
  h.setTask hi rfl (.inl rfl) fun _ _ row hrow hsome => ⟨row, hrow, hsome⟩

theorem Call.advancing_enter (c : Call V) (now : ℤ) : (c.enter now).advancing = none := by
  cases c <;> rfl

theorem Leased.call (h : Leased s) (c : Call V) :
    Leased { s with tasks := s.tasks ++ [c.enter s.now] } where
  held := by
    intro pc hpc id hadv
    rcases List.mem_append.1 hpc with hold | hnew
    · exact h.held pc hold id hadv
    · obtain rfl := List.mem_singleton.1 hnew
      rw [Call.advancing_enter] at hadv
      cases hadv
  unique := by
    intro j k pc pc' id hj hk hadv hadv'
    rcases getElem?_concat_cases hj with ⟨_, rfl⟩ | hj
    · rw [Call.advancing_enter] at hadv
      cases hadv
    · rcases getElem?_concat_cases hk with ⟨_, rfl⟩ | hk
      · rw [Call.advancing_enter] at hadv'
        cases hadv'
      · exact h.unique j k pc pc' id hj hk hadv hadv'

theorem State.step_cases (h : s.step e = some t) :
    (∃ c, e = .call c ∧ t = { s with tasks := s.tasks ++ [c.enter s.now] }) ∨
      (∃ i a, e = .run i a ∧ a.at_ ≤ s.now ∧ s.run i a = some t) ∨
      (∃ i pc, e = .crash i ∧ s.tasks[i]? = some pc ∧ pc.isWorker = true ∧
        t = s.setTask i .finished) ∨
      ∃ now, e = .tick now ∧ s.now ≤ now ∧ t = { s with now := now } := by
  cases e with
  | call c => exact .inl ⟨c, rfl, (Option.some.inj h).symm⟩
  | run i a =>
      simp only [State.step] at h
      split at h
      · next hat => exact .inr (.inl ⟨i, a, rfl, hat, h⟩)
      · cases h
  | crash i =>
      simp only [State.step] at h
      split at h
      · next pc hi =>
          split at h
          · next hworker =>
              exact .inr (.inr (.inl ⟨i, pc, rfl, hi, hworker, (Option.some.inj h).symm⟩))
          · cases h
      · cases h
  | tick now =>
      simp only [State.step] at h
      split at h
      · next hnow => exact .inr (.inr (.inr ⟨now, rfl, hnow, (Option.some.inj h).symm⟩))
      · cases h

theorem Leased.step (h : Leased s) (hlease : s.LeaseHolds e) (hstep : s.step e = some t) :
    Leased t := by
  rcases State.step_cases hstep with ⟨c, rfl, rfl⟩ | ⟨i, a, rfl, _, hrun⟩ |
    ⟨i, pc, rfl, hi, _, rfl⟩ | ⟨now, rfl, _, rfl⟩
  · exact h.call c
  · exact h.run hlease hrun
  · exact h.finish hi
  · exact ⟨h.held, h.unique⟩

/-! ## The end -/

/-- What a step does to a run: nothing, or a change of a run that has not ended. -/
theorem Leased.status_kept (h : Leased s) (hreleased : s.Released) (hdue : s.StillDue e)
    (hstep : s.step e = some t) {id : String} {row : Row} (hrow : s.runs id = some row)
    (hended : row.status.Ended) :
    ∃ row', t.runs id = some row' ∧ row'.status = row.status ∧ row'.claimedAt = none := by
  have hfree : row.claimedAt = none := hreleased id row hrow hended
  have hidle : ∀ pc ∈ s.tasks, pc.advancing ≠ some id := by
    intro pc hpc hadv
    obtain ⟨row', hrow', hsome⟩ := h.held pc hpc id hadv
    obtain rfl := Option.some.inj (hrow.symm.trans hrow')
    exact hsome hfree
  rcases State.step_cases hstep with ⟨c, rfl, rfl⟩ | ⟨i, a, rfl, _, hrun⟩ |
    ⟨i, pc, rfl, hi, _, rfl⟩ | ⟨now, rfl, _, rfl⟩
  · exact ⟨row, hrow, rfl, hfree⟩
  · obtain ⟨pc, hi⟩ : ∃ pc, s.tasks[i]? = some pc := by
      cases hi : s.tasks[i]? with
      | none => simp [State.run, hi] at hrun
      | some pc => exact ⟨pc, rfl⟩
    have hother : ∀ other, pc.advancing = some other → id ≠ other := by
      rintro other hpc rfl
      exact hidle pc (List.mem_of_getElem? hi) hpc
    cases State.lease_run hi hrun with
    | stays q _ _ hrows =>
        have hsame := hrows id
        rw [hrow] at hsame
        obtain ⟨row', hrow', heq⟩ := Option.map_eq_some_iff.1 hsame
        exact ⟨row', hrow', congrArg Prod.fst heq, (congrArg Prod.snd heq).trans hfree⟩
    | starts other row' hnone _ hruns _ =>
        refine ⟨row, ?_, rfl, hfree⟩
        rw [hruns, Function.update_of_ne, hrow]
        rintro rfl
        rw [hnone] at hrow
        cases hrow
    | claims p c r row' q hpc hr _ _ _ hruns _ _ =>
        subst hpc
        refine ⟨row, ?_, rfl, hfree⟩
        rw [hruns, Function.update_of_ne, hrow]
        rintro rfl
        exact hdue p c hi row hrow hended
    | parks other q f hpc _ _ hruns _ _ =>
        exact ⟨row, by rw [hruns, Function.update_of_ne (hother other hpc), hrow], rfl, hfree⟩
    | closes other f hpc _ hruns _ =>
        exact ⟨row, by rw [hruns, Function.update_of_ne (hother other hpc), hrow], rfl, hfree⟩
  · exact ⟨row, hrow, rfl, hfree⟩
  · exact ⟨row, hrow, rfl, hfree⟩

theorem Status.not_ended_of_running {st : Status} (h : st = .running) : ¬st.Ended := by
  subst h
  decide

theorem Status.not_ended_of_waiting {st : Status} (h : st = .waiting) : ¬st.Ended := by
  subst h
  decide

theorem State.Released.run (h : s.Released) {a : State.Input V} (hstep : s.run i a = some t) :
    t.Released := by
  obtain ⟨pc, hi⟩ : ∃ pc, s.tasks[i]? = some pc := by
    cases hi : s.tasks[i]? with
    | none => simp [State.run, hi] at hstep
    | some pc => exact ⟨pc, rfl⟩
  intro id row hrow hended
  cases State.lease_run hi hstep with
  | stays q _ _ hrows =>
      have hsame := hrows id
      rw [hrow] at hsame
      obtain ⟨row', hrow', heq⟩ := Option.map_eq_some_iff.1 hsame.symm
      have hstatus : row'.status = row.status := congrArg Prod.fst heq
      have hclaim : row'.claimedAt = row.claimedAt := congrArg Prod.snd heq
      exact hclaim.symm.trans (h id row' hrow' (hstatus ▸ hended))
  | starts other row' _ _ hruns hstatus =>
      rw [hruns] at hrow
      by_cases hid : id = other
      · subst hid
        obtain rfl : row' = row := by simpa using hrow
        exact absurd hended (Status.not_ended_of_running hstatus)
      · exact h id row (by rwa [Function.update_of_ne hid] at hrow) hended
  | claims p c r row' q _ _ _ _ _ hruns hstatus _ =>
      rw [hruns] at hrow
      by_cases hid : id = c.id
      · subst hid
        obtain rfl : row' = row := by simpa using hrow
        exact absurd hended (Status.not_ended_of_running hstatus)
      · exact h id row (by rwa [Function.update_of_ne hid] at hrow) hended
  | parks other q f _ _ _ hruns hstatus _ =>
      rw [hruns] at hrow
      by_cases hid : id = other
      · subst hid
        rw [Function.update_self] at hrow
        obtain ⟨row', _, rfl⟩ := Option.map_eq_some_iff.1 hrow
        exact absurd hended (Status.not_ended_of_waiting (hstatus row'))
      · exact h id row (by rwa [Function.update_of_ne hid] at hrow) hended
  | closes other f _ _ hruns hclaimed =>
      rw [hruns] at hrow
      by_cases hid : id = other
      · subst hid
        rw [Function.update_self] at hrow
        obtain ⟨row', _, rfl⟩ := Option.map_eq_some_iff.1 hrow
        exact hclaimed row'
      · exact h id row (by rwa [Function.update_of_ne hid] at hrow) hended

theorem State.Released.step (h : s.Released) (hstep : s.step e = some t) : t.Released := by
  rcases State.step_cases hstep with ⟨c, rfl, rfl⟩ | ⟨i, a, rfl, _, hrun⟩ |
    ⟨i, pc, rfl, hi, _, rfl⟩ | ⟨now, rfl, _, rfl⟩
  · exact h
  · exact h.run hrun
  · exact h
  · exact h

/-! ## Runs -/

/-- A step that finds every worker's lease in force. -/
def LeasedStep (a : State V) (e : Event V) (b : State V) : Prop :=
  a.LeaseHolds e ∧ a.step e = some b

/-- And takes no run that has ended. -/
def DueStep (a : State V) (e : Event V) (b : State V) : Prop :=
  a.StillDue e ∧ LeasedStep a e b

/-- While no claim gets older than the lease, no two workers have one run. While no claim takes a
run that ended after its candidate was selected, a run that has ended keeps its status, and no
worker executes it again. -/
theorem ends_once {now : ℤ} {es fs : List (Event V)} :
    (Run LeasedStep (State.init now) es s → ∀ (i j : ℕ) (pc pc' : Pc V) (id : String),
      s.tasks[i]? = some pc → s.tasks[j]? = some pc' → pc.advancing = some id →
        pc'.advancing = some id → i = j) ∧
      (Run DueStep (State.init now) es s → Run DueStep s fs t →
        ∀ id row, s.runs id = some row → row.status.Ended →
          (∃ row', t.runs id = some row' ∧ row'.status = row.status) ∧
            ∀ pc ∈ t.tasks, pc.advancing ≠ some id) := by
  have hleased : ∀ {u : State V} {gs}, Run LeasedStep (State.init now) gs u → Leased u := by
    intro u gs hrun
    exact hrun.invariant (fun _ _ _ ha hstep => ha.step hstep.1 hstep.2) (leased_init now)
  refine ⟨fun hrun => (hleased hrun).unique, ?_⟩
  intro hrun hmore id row hrow hended
  have hboth : ∀ {u : State V} {gs}, Run DueStep (State.init now) gs u → Leased u ∧ u.Released := by
    intro u gs hrun
    refine hrun.invariant (P := fun u => Leased u ∧ u.Released) ?_
      ⟨leased_init now, released_init now⟩
    intro a e b ha hstep
    exact ⟨ha.1.step hstep.2.1 hstep.2.2, ha.2.step hstep.2.2⟩
  have hkept : (Leased t ∧ t.Released) ∧
      ∃ row', t.runs id = some row' ∧ row'.status = row.status := by
    refine hmore.invariant (P := fun u => (Leased u ∧ u.Released) ∧
      ∃ row', u.runs id = some row' ∧ row'.status = row.status) ?_ ⟨hboth hrun, row, hrow, rfl⟩
    rintro a e b ⟨ha, row', hrow', hstatus⟩ hstep
    obtain ⟨row'', hrow'', hsame, _⟩ :=
      ha.1.status_kept ha.2 hstep.1 hstep.2.2 hrow' (hstatus ▸ hended)
    exact ⟨⟨ha.1.step hstep.2.1 hstep.2.2, ha.2.step hstep.2.2⟩, row'', hrow'',
      hsame.trans hstatus⟩
  obtain ⟨⟨hlease, hreleased⟩, row', hrow', hstatus⟩ := hkept
  refine ⟨⟨row', hrow', hstatus⟩, ?_⟩
  intro pc hpc hadv
  obtain ⟨row'', hrow'', hsome⟩ := hlease.held pc hpc id hadv
  obtain rfl := Option.some.inj (hrow'.symm.trans hrow'')
  exact hsome (hreleased id row' hrow' (hstatus ▸ hended))

/-! A run of one step: it is executed once, and then a late claim starts it again. -/

def text : Codec String := ⟨id, .ok⟩

def oneStep : RegisteredWorkflow String where
  name := "w"
  version := "1"
  run := fun _ answers =>
    match answers with
    | [.value v] => .done v
    | _ => .step text "k"

def input : State.Input String := ⟨0, "r", .ok "v"⟩

def execute : List (Event String) :=
  [.call (.start "r" "w" "1" ""), .run 0 input, .call (.poll [oneStep] .failSafe),
    .run 1 input, .run 1 input, .run 1 input, .run 1 input, .run 1 input, .run 1 input]

/-- The conditions, where they can be computed. -/
def State.due (s : State String) : Event String → Bool
  | .run i _ =>
      match s.tasks[i]? with
      | some (.claimUpdate p row) =>
          (s.runs row.id).all fun r =>
            !decide r.status.Ended && r.claimedAt.all fun c => decide (p.now - leaseMs ≤ c)
      | _ => true
  | _ => true

theorem dueStep_of_due {s t : State String} {e : Event String} (h : s.due e = true)
    (hstep : s.step e = some t) : DueStep s e t := by
  cases e with
  | run i a =>
      refine ⟨?_, ?_, hstep⟩
      · intro p row hi r hr
        simp only [State.due, hi, hr, Option.all_some, Bool.and_eq_true] at h
        simpa using h.1
      · intro p row hi pc _ _ r hr c hc
        simp only [State.due, hi, hr, Option.all_some, Bool.and_eq_true, hc] at h
        simpa using h.2
  | call => exact ⟨trivial, trivial, hstep⟩
  | crash => exact ⟨trivial, trivial, hstep⟩
  | tick => exact ⟨trivial, trivial, hstep⟩

theorem run_of_due {s t : State String} {es : List (Event String)}
    (h : es.foldlM (fun (s : State String) e => if s.due e then s.step e else none) s = some t) :
    Run DueStep s es t := by
  refine (Run.iff_foldlM.2 h).mono ?_
  intro a e b hab
  split at hab
  · next hdue => exact dueStep_of_due hdue hab
  · cases hab

def pollAgain : List (Event String) := [.call (.poll [oneStep] .failSafe), .run 2 input]

theorem execute_ends :
    ((execute ++ pollAgain).foldlM State.step (State.init 0)).map
      (fun s => (s.runs "r").map Row.status) = some (some .done) := by
  have hfirst : (execute.foldlM (fun (s : State String) e => if s.due e then s.step e else none)
      (State.init 0)).map (fun s => (s.runs "r").map Row.status) = some (some .done) := by
    decide +kernel
  obtain ⟨s, hs, hdone⟩ := Option.map_eq_some_iff.1 hfirst
  obtain ⟨row, hrow, hstatus⟩ := Option.map_eq_some_iff.1 hdone
  have hboth : ((execute ++ pollAgain).foldlM
      (fun (s : State String) e => if s.due e then s.step e else none)
      (State.init 0)).map (fun s => s.tasks.length) = some 3 := by decide +kernel
  obtain ⟨t, ht, _⟩ := Option.map_eq_some_iff.1 hboth
  have hmore : pollAgain.foldlM
      (fun (s : State String) e => if s.due e then s.step e else none) s = some t := by
    simpa [List.foldlM_append, hs] using ht
  obtain ⟨⟨row', hrow', hsame⟩, _⟩ := ends_once.2 (run_of_due hs) (run_of_due hmore) "r" row hrow
    (.inl hstatus)
  have hsteps : (execute ++ pollAgain).foldlM State.step (State.init 0) = some t :=
    Run.iff_foldlM.1 ((run_of_due ht).mono fun _ _ _ hab => hab.2.2)
  simp [hsteps, hrow', hsame.trans hstatus]

/-- Two polls select the run. The first to take it executes it to its end. -/
def execute₂ : List (Event String) :=
  [.call (.start "r" "w" "1" ""), .run 0 input, .call (.poll [oneStep] .failSafe),
    .call (.poll [oneStep] .failSafe), .run 1 input, .run 2 input, .run 2 input, .run 2 input,
    .run 2 input, .run 2 input, .run 2 input]

def lateClaim : List (Event String) := [.run 1 input]

/-- The second takes it from its end, and executes it again. -/
theorem late_claim_revives :
    (execute₂.foldlM State.step (State.init 0)).map
        (fun s => (s.runs "r").map Row.status) = some (some .done) ∧
      ((execute₂ ++ lateClaim).foldlM State.step (State.init 0)).map
        (fun s => ((s.runs "r").map Row.status, s.tasks.map Pc.advancing)) =
          some (some .running, [none, some "r", none]) := by
  constructor <;> decide +kernel

end Sky.Durable
