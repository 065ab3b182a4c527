import Sky.Verification.Durable.Signals

/-! # A sleep lasts until its wake time

The wake time that a sleep returns after is the `wake_at` of its run, which a claim compares. The
sleep itself only looks for its key in the journal. -/

namespace Sky.Durable

open Library

variable {V : Type*} {s t : State V} {i : ℕ} {pc : Pc V} {e : Event V}

/-- Each wake time recorded for the run has come. -/
def State.Elapsed (s : State V) (run : String) : Prop :=
  ∀ sleepId, ∀ wake : ℤ, s.journal run (sleepKey sleepId) = some (toString wake) → wake ≤ s.now

/-- The run whose body the task goes on with. -/
def Pc.continuing : Pc V → Option String
  | .body x | .stepTask x .. | .stepWrite x .. => some x.run
  | _ => none

/-- A claim takes a run only after its sleeps, a sleep is recorded only while no other worker goes on
with the body of its run, and no step writes a wake time that is to come. -/
def State.LetsSleep (s : State V) : Event V → Prop
  | .run i _ =>
      match s.tasks[i]? with
      | some (.claimUpdate p c) => ∀ row, s.runs c.id = some row → Row.Free row p.now → s.Elapsed c.id
      | some (.sleepWrite x sleepId wake) =>
          s.journal x.run (sleepKey sleepId) = none →
            wake ≤ s.now ∨ ∀ other ∈ s.tasks, other.continuing ≠ some x.run
      | some (.stepWrite x codec stepId result) =>
          s.journal x.run stepId = none → ∀ sleepId, ∀ wake : ℤ, stepId = sleepKey sleepId →
            codec.toJson result = toString wake → wake ≤ s.now
      | _ => True
  | _ => True

/-- No worker goes on with the body of a run that is to sleep. -/
def State.Rested (s : State V) : Prop :=
  ∀ run, s.Elapsed run ∨ ∀ pc ∈ s.tasks, pc.continuing ≠ some run

theorem rested_init (now : ℤ) : (State.init now : State V).Rested := by
  intro run
  refine .inl fun sleepId wake h => ?_
  cases h

/-! ## Steps -/

theorem State.Elapsed.of_journal {run : String} (h : s.Elapsed run) (hnow : s.now ≤ t.now)
    (hjournal : ∀ key json, t.journal run key = some json → s.journal run key = some json) :
    t.Elapsed run :=
  fun sleepId wake hwake => (h sleepId wake (hjournal _ _ hwake)).trans hnow

/-- A step that records nothing, and whose task goes on with no other body. -/
theorem State.Rested.frame (h : s.Rested) (hi : s.tasks[i]? = some pc) {q : Pc V}
    (htasks : t.tasks = s.tasks.set i q) (hq : q.continuing = none ∨ q.continuing = pc.continuing)
    (hnow : s.now ≤ t.now)
    (hjournal : ∀ run key json, t.journal run key = some json → s.journal run key = some json) :
    t.Rested := by
  intro run
  rcases h run with helapsed | hidle
  · exact .inl (helapsed.of_journal hnow (hjournal run))
  · refine .inr fun other hother => ?_
    rw [htasks] at hother
    rcases mem_set_cases hother with rfl | ⟨j, _, hj⟩
    · rcases hq with hq | hq
      · simp [hq]
      · rw [hq]
        exact hidle pc (List.mem_of_getElem? hi)
    · exact hidle other (List.mem_of_getElem? hj)

theorem Execution.continuing_next (x : Execution V) :
    x.next.continuing = none ∨ x.next.continuing = some x.run := by
  unfold Execution.next
  cases x.body x.answers with
  | done output => exact .inl rfl
  | fail message => exact .inl rfl
  | step codec stepId => exact .inr rfl
  | sleep sleepId ms => exact .inr rfl
  | awaitSignal codec name => exact .inr rfl

theorem State.continuing_advance (p : Poll V) (c : ClaimRow) :
    (s.advance p c).continuing = none ∨ (s.advance p c).continuing = some c.id := by
  unfold State.advance
  split
  · exact Execution.continuing_next _
  · split
    · split <;> exact .inl rfl
    · exact .inl rfl

/-- A task that gets a value. -/
theorem State.Rested.answer (h : s.Rested) (hi : s.tasks[i]? = some pc) {x : Execution V}
    (hpc : pc.continuing = some x.run) {s' : State V} (a : Answer V) (htasks : s'.tasks = s.tasks)
    (hnow : s'.now = s.now)
    (hjournal : ∀ run key json, s'.journal run key = some json → s.journal run key = some json) :
    (s'.answer i x a).Rested := by
  refine h.frame hi (q := ({ x with answers := x.answers ++ [a] } : Execution V).next) ?_ ?_
    hnow.ge hjournal
  · simp [State.answer, State.setTask, htasks]
  · rw [hpc]
    exact Execution.continuing_next _

theorem State.Rested.runBody (h : s.Rested) {x : Execution V} (hi : s.tasks[i]? = some (.body x))
    (at_ : ℤ) : (s.runBody i at_ x).Rested := by
  unfold State.runBody
  split
  · split
    · split
      · exact h.answer hi rfl _ rfl rfl fun _ _ _ hjson => hjson
      · exact h.frame hi rfl (.inl rfl) le_rfl fun _ _ _ hjson => hjson
    · exact h.frame hi rfl (.inr rfl) le_rfl fun _ _ _ hjson => hjson
  · split
    · exact h.answer hi rfl _ rfl rfl fun _ _ _ hjson => hjson
    · exact h.frame hi rfl (.inl rfl) le_rfl fun _ _ _ hjson => hjson
  · split
    · split
      · exact h.answer hi rfl _ rfl rfl fun _ _ _ hjson => hjson
      · exact h.frame hi rfl (.inl rfl) le_rfl fun _ _ _ hjson => hjson
    · exact h.frame hi rfl (.inl rfl) le_rfl fun _ _ _ hjson => hjson
  · exact h.frame hi rfl (.inl rfl) le_rfl fun _ _ _ hjson => hjson
  · exact h.frame hi rfl (.inl rfl) le_rfl fun _ _ _ hjson => hjson

theorem State.Rested.runClaimUpdate (h : s.Rested) {p : Poll V} {c : ClaimRow}
    (hi : s.tasks[i]? = some (.claimUpdate p c))
    (hsleeps : ∀ row, s.runs c.id = some row → Row.Free row p.now → s.Elapsed c.id) :
    (s.runClaimUpdate i p c).Rested := by
  unfold State.runClaimUpdate
  split
  · exact h.frame hi rfl (.inl rfl) le_rfl fun _ _ _ hjson => hjson
  · next row hrow =>
      split
      · next hfree =>
          intro run
          by_cases heq : run = c.id
          · subst heq
            exact .inl (hsleeps row hrow hfree)
          · rcases h run with helapsed | hidle
            · exact .inl helapsed
            · refine .inr fun other hother => ?_
              rcases mem_set_cases hother with rfl | ⟨j, _, hj⟩
              · rcases State.continuing_advance (s := s) p c with hq | hq
                · simp [hq]
                · rw [hq]
                  exact fun hsome => heq (Option.some.inj hsome).symm
              · exact hidle other (List.mem_of_getElem? hj)
      · exact h.frame hi rfl (.inl rfl) le_rfl fun _ _ _ hjson => hjson

/-- What the journal has after a write: what it had, or the new text under a key without one. -/
theorem State.journal_cases {run key json run' key' json' : String}
    (h : (s.writeJournal run key json).journal run' key' = some json') :
    s.journal run' key' = some json' ∨
      run' = run ∧ key' = key ∧ json' = json ∧ s.journal run key = none := by
  unfold State.writeJournal at h
  split at h
  · exact .inl h
  · next hnone =>
      by_cases hrun : run' = run
      · subst hrun
        by_cases hkey : key' = key
        · subst hkey
          refine .inr ⟨rfl, rfl, ?_, hnone⟩
          simpa using h.symm
        · exact .inl (by simpa [Function.update_of_ne hkey] using h)
      · exact .inl (by simpa [Function.update_of_ne hrun] using h)

theorem State.now_writeJournal (run key json : String) :
    (s.writeJournal run key json).now = s.now := by
  unfold State.writeJournal
  split <;> rfl

/-- A write of a wake time that has come, or of no wake time. -/
theorem State.Elapsed.write {run key json other : String} (h : s.Elapsed other)
    (hnew : s.journal run key = none → ∀ sleepId, ∀ wake : ℤ, key = sleepKey sleepId →
      json = toString wake → wake ≤ s.now) : (s.writeJournal run key json).Elapsed other := by
  intro sleepId wake hwake
  rw [State.now_writeJournal]
  rcases State.journal_cases hwake with hold | ⟨_, hkey, hjson, hnone⟩
  · exact h sleepId wake hold
  · exact hnew hnone sleepId wake hkey.symm hjson.symm

theorem State.Rested.sleepWrite (h : s.Rested) {x : Execution V} {sleepId : String} {wake : ℤ}
    (hsleeps : s.journal x.run (sleepKey sleepId) = none →
      wake ≤ s.now ∨ ∀ other ∈ s.tasks, other.continuing ≠ some x.run) :
    ((s.writeJournal x.run (sleepKey sleepId) (toString wake)).setTask i
      (.sleepWake x wake)).Rested := by
  -- The tasks that go on with a body are those from before.
  have hidle : ∀ run, (∀ other ∈ s.tasks, other.continuing ≠ some run) →
      ∀ other ∈ ((s.writeJournal x.run (sleepKey sleepId) (toString wake)).setTask i
        (.sleepWake x wake)).tasks, other.continuing ≠ some run := by
    intro run hidle other hother
    simp only [State.setTask, State.tasks_writeJournal] at hother
    rcases mem_set_cases hother with rfl | ⟨j, _, hj⟩
    · intro hsome
      cases hsome
    · exact hidle other (List.mem_of_getElem? hj)
  intro run
  rcases h run with helapsed | hothers
  · by_cases hrun : run = x.run
    · subst hrun
      by_cases hpast : wake ≤ s.now
      · refine .inl (helapsed.write fun _ _ wake' _ heq => ?_)
        rwa [← Int.repr_injective heq]
      · by_cases hnone : s.journal x.run (sleepKey sleepId) = none
        · exact .inr (hidle x.run ((hsleeps hnone).resolve_left hpast))
        · exact .inl (helapsed.write fun habsent => absurd habsent hnone)
    · refine .inl fun sleepId' wake' hwake => ?_
      rcases State.journal_cases hwake with hold | ⟨heq, _⟩
      · exact (helapsed sleepId' wake' hold).trans (State.now_writeJournal ..).ge
      · exact absurd heq hrun
  · exact .inr (hidle run hothers)

theorem State.Rested.stepWrite (h : s.Rested) {x : Execution V} {codec : Codec V} {stepId : String}
    {result : V} (hi : s.tasks[i]? = some (.stepWrite x codec stepId result))
    (hsleeps : s.journal x.run stepId = none → ∀ sleepId, ∀ wake : ℤ, stepId = sleepKey sleepId →
      codec.toJson result = toString wake → wake ≤ s.now) :
    ((s.writeJournal x.run stepId (codec.toJson result)).answer i x (.value result)).Rested := by
  intro run
  rcases h run with helapsed | hothers
  · exact .inl (helapsed.write hsleeps)
  · have hrun : run ≠ x.run := by
      rintro rfl
      exact hothers _ (List.mem_of_getElem? hi) rfl
    refine .inr fun other hother => ?_
    simp only [State.answer, State.setTask, State.tasks_writeJournal] at hother
    rcases mem_set_cases hother with rfl | ⟨j, _, hj⟩
    · rcases Execution.continuing_next { x with answers := x.answers ++ [.value result] } with hq | hq
      · simp [hq]
      · rw [hq]
        exact fun hsome => hrun (Option.some.inj hsome).symm
    · exact hothers other (List.mem_of_getElem? hj)

theorem State.Rested.run (h : s.Rested) {a : State.Input V} (hsleeps : s.LetsSleep (.run i a))
    (hstep : s.run i a = some t) : t.Rested := by
  unfold State.run at hstep
  simp only [State.LetsSleep] at hsleeps
  cases hi : s.tasks[i]? with
  | none => simp [hi] at hstep
  | some pc =>
      rw [hi] at hstep hsleeps
      cases pc with
      | finished => cases hstep
      | start id workflow version input now =>
          obtain rfl := Option.some.inj hstep
          unfold State.runStart
          split <;> exact h.frame hi rfl (.inl rfl) le_rfl fun _ _ _ hjson => hjson
      | signalInsert run name payload now =>
          obtain rfl := Option.some.inj hstep
          unfold State.runSignalInsert
          split <;> exact h.frame hi rfl (.inl rfl) le_rfl fun _ _ _ hjson => hjson
      | signalWake run now =>
          obtain rfl := Option.some.inj hstep
          exact h.frame hi rfl (.inl rfl) le_rfl fun _ _ _ hjson => hjson
      | claimSelect p =>
          simp only [State.runClaimSelect] at hstep
          split at hstep
          · obtain rfl := Option.some.inj hstep
            exact h.frame hi rfl (.inl rfl) le_rfl fun _ _ _ hjson => hjson
          · split at hstep
            · obtain ⟨row, _, rfl⟩ := Option.map_eq_some_iff.1 hstep
              exact h.frame hi rfl (.inl rfl) le_rfl fun _ _ _ hjson => hjson
            · cases hstep
      | claimUpdate p c =>
          obtain rfl := Option.some.inj hstep
          exact h.runClaimUpdate hi hsleeps
      | body x =>
          obtain rfl := Option.some.inj hstep
          exact h.runBody hi a.at_
      | stepTask x codec stepId =>
          obtain rfl := Option.some.inj hstep
          unfold State.runStepTask
          cases a.result with
          | ok v => exact h.frame hi rfl (.inr rfl) le_rfl fun _ _ _ hjson => hjson
          | error e => exact h.frame hi rfl (.inl rfl) le_rfl fun _ _ _ hjson => hjson
      | stepWrite x codec stepId result =>
          obtain rfl := Option.some.inj hstep
          exact h.stepWrite hi hsleeps
      | sleepWrite x sleepId wake =>
          obtain rfl := Option.some.inj hstep
          exact h.sleepWrite hsleeps
      | sleepWake x wake =>
          obtain rfl := Option.some.inj hstep
          exact h.frame hi rfl (.inl rfl) le_rfl fun _ _ _ hjson => hjson
      | awaitPark x name =>
          obtain rfl := Option.some.inj hstep
          exact h.frame hi rfl (.inl rfl) le_rfl fun _ _ _ hjson => hjson
      | close run c =>
          obtain rfl := Option.some.inj hstep
          unfold State.runClose
          split <;> exact h.frame hi rfl (.inl rfl) le_rfl fun _ _ _ hjson => hjson
      | compactJournal cutoff =>
          obtain rfl := Option.some.inj hstep
          refine h.frame hi rfl (.inl rfl) le_rfl fun run key json hjson => ?_
          simp only [State.runCompactJournal, State.setTask] at hjson
          split at hjson
          · cases hjson
          · exact hjson
      | compactSignals cutoff =>
          obtain rfl := Option.some.inj hstep
          exact h.frame hi rfl (.inl rfl) le_rfl fun _ _ _ hjson => hjson

theorem State.Rested.step (h : s.Rested) (hsleeps : s.LetsSleep e) (hstep : s.step e = some t) :
    t.Rested := by
  rcases State.step_cases hstep with ⟨c, rfl, rfl⟩ | ⟨i, a, rfl, _, hrun⟩ |
    ⟨i, pc, rfl, hi, _, rfl⟩ | ⟨now, rfl, hnow, rfl⟩
  · intro run
    rcases h run with helapsed | hidle
    · exact .inl helapsed
    · refine .inr fun other hother => ?_
      rcases List.mem_append.1 hother with hother | hother
      · exact hidle other hother
      · obtain rfl := List.mem_singleton.1 hother
        cases c <;> exact fun hsome => nomatch hsome
  · exact h.run hsleeps hrun
  · exact h.frame hi rfl (.inl rfl) le_rfl fun _ _ _ hjson => hjson
  · exact fun run => (h run).imp_left fun helapsed =>
      helapsed.of_journal hnow fun _ _ hjson => hjson

/-! ## Runs -/

def SleepingStep (a : State V) (e : Event V) (b : State V) : Prop :=
  a.step e = some b ∧ a.LetsSleep e

/-- In every run whose claims let their run sleep, a worker that goes on from a sleep does so no
earlier than the wake time that the journal has for it. -/
theorem sleep_lasts {now : ℤ} {es : List (Event V)} (hrun : Run SleepingStep (State.init now) es s) :
    ∀ i x sleepId ms, s.tasks[i]? = some (.body x) → x.body x.answers = .sleep sleepId ms →
      ∀ a, s.run i a = some (s.answer i x .unit) →
        ∀ wake : ℤ, s.journal x.run (sleepKey sleepId) = some (toString wake) → wake ≤ s.now := by
  intro i x sleepId ms hi _ a _ wake hwake
  have hrested : s.Rested := hrun.invariant (fun _ _ _ h hstep => h.step hstep.2 hstep.1)
    (rested_init now)
  rcases hrested x.run with helapsed | hidle
  · exact helapsed sleepId wake hwake
  · exact absurd rfl (hidle _ (List.mem_of_getElem? hi))

/-- A workflow that sleeps an hour. -/
def naps : RegisteredWorkflow String where
  name := "w"
  version := "1"
  run _ as := if as = [] then .sleep "nap" 3600000 else .done ""

def goToSleep : List (Event String) :=
  [.call (.start "r" "w" "1" ""), .run 0 input, .call (.poll [naps] .failSafe), .run 1 input,
    .run 1 input, .run 1 input, .run 1 input, .run 1 input, .run 1 input]

def getUp : List (Event String) := [.tick 3600000, .call (.poll [naps] .failSafe), .run 2 input, .run 2 input]

theorem nap_elapsed {sleepId : String} {wake : ℤ}
    (h : Function.update (fun _ => none) (sleepKey "nap") (some (toString (3600000 : ℤ)))
      (sleepKey sleepId) = some (toString wake)) : wake ≤ 3600000 := by
  by_cases heq : sleepKey sleepId = sleepKey "nap"
  · rw [heq, Function.update_self] at h
    exact (Int.repr_injective (Option.some.inj h)).ge
  · rw [Function.update_of_ne heq] at h
    cases h

/-- The worker that polls an hour later goes on from the sleep. -/
theorem sleep_lasts_hour : ∃ s : State String, Run SleepingStep (State.init 0) (goToSleep ++ getUp) s ∧
    (∃ x, s.tasks[2]? = some (.body x) ∧ x.body x.answers = .sleep "nap" 3600000 ∧
      s.run 2 input = some (s.answer 2 x .unit)) ∧ 3600000 ≤ s.now := by
  have hrun : ∃ (s : State String) (x : Execution String),
      Run SleepingStep (State.init 0) (goToSleep ++ getUp) s ∧
      s.tasks[2]? = some (.body x) ∧ x.body x.answers = .sleep "nap" 3600000 ∧
      s.run 2 input = some (s.answer 2 x .unit) ∧
      s.journal x.run (sleepKey "nap") = some (toString (3600000 : ℤ)) := by
    refine ⟨_, _, .cons ⟨rfl, trivial⟩ (.cons ⟨rfl, trivial⟩ (.cons ⟨rfl, trivial⟩
      (.cons ⟨rfl, trivial⟩ (.cons ⟨rfl, fun _ _ _ _ _ h => nomatch h⟩ (.cons ⟨rfl, trivial⟩
      (.cons ⟨rfl, fun _ => .inr (by decide +kernel)⟩ (.cons ⟨rfl, trivial⟩ (.cons ⟨rfl, trivial⟩
      (.cons ⟨rfl, trivial⟩ (.cons ⟨rfl, trivial⟩ (.cons ⟨rfl, trivial⟩
      (.cons ⟨rfl, fun _ _ _ sleepId wake h => ?_⟩ (.nil _))))))))))))), rfl, rfl, rfl, rfl⟩
    exact nap_elapsed h
  obtain ⟨s, x, hrun, hi, hop, hstep, hwake⟩ := hrun
  exact ⟨s, hrun, ⟨x, hi, hop, hstep⟩,
    sleep_lasts hrun 2 x "nap" 3600000 hi hop input hstep 3600000 hwake⟩

/-- A signal to the run that sleeps, and a poll. -/
def wakeUp : List (Event String) :=
  [.call (.signal "r" "go" "v"), .run 2 input, .run 2 input, .call (.poll [naps] .failSafe),
    .run 3 input, .run 3 input]

/-- The sleep of an hour returns at once. -/
theorem signal_ends_sleep : ∃ (s : State String) (x : Execution String),
    Run (fun a e b => a.step e = some b) (State.init 0) (goToSleep ++ wakeUp) s ∧
      s.tasks[3]? = some (.body x) ∧ x.body x.answers = .sleep "nap" 3600000 ∧
      s.run 3 input = some (s.answer 3 x .unit) ∧
      s.journal x.run (sleepKey "nap") = some (toString (3600000 : ℤ)) ∧ s.now = 0 :=
  ⟨_, _, Run.iff_foldlM.2 rfl, rfl, rfl, rfl, rfl, rfl⟩

end Sky.Durable
