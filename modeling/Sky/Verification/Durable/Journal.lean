import Sky.Library.Replay
import Sky.Verification.Durable.Signals

/-! # The journal

What the executions of a run have got is what the journal and the signals answer, so that they
agree as far as each has come. -/

namespace Sky.Durable

open Library

variable {V : Type*} {s t : State V} {i : ℕ} {pc : Pc V} {e : Event V}

/-- The body of each workflow, for each version and input. -/
abbrev Code (V : Type*) := String → String → String → Body V

/-- A worker's definitions are those of the code. -/
def Agrees (code : Code V) (defs : List (RegisteredWorkflow V)) : Prop :=
  ∀ name version d, findDef name version defs = some d → d.run = code name version

/-- Decoding undoes encoding, for every step of the code. -/
def Lawful (code : Code V) : Prop :=
  ∀ name version text as codec stepId, code name version text as = .step codec stepId →
    ∀ v, codec.fromJson (codec.toJson v) = .ok v

/-- What the tables answer to a call of a run's body. -/
def State.answered (s : State V) (run : String) : Op V → Answer V → Prop
  | .step codec stepId, .value v => ∃ json, s.journal run stepId = some json ∧
      codec.fromJson json = .ok v
  | .sleep sleepId _, .unit => s.journal run (sleepKey sleepId) ≠ none
  | .awaitSignal codec name, .value v => ∃ payload, s.signals run name = some payload ∧
      codec.fromJson payload = .ok v
  | _, _ => False

theorem State.answered_unique {run : String} {q : Op V} {a a' : Answer V}
    (h : s.answered run q a) (h' : s.answered run q a') : a = a' := by
  cases q <;> cases a <;> cases a' <;> simp only [State.answered] at h h'
  case step.value.value codec stepId v v' =>
    obtain ⟨json, hjson, hv⟩ := h
    obtain ⟨json', hjson', hv'⟩ := h'
    obtain rfl := Option.some.inj (hjson.symm.trans hjson')
    exact congrArg Answer.value (Except.ok.inj (hv.symm.trans hv'))
  case awaitSignal.value.value codec name v v' =>
    obtain ⟨json, hjson, hv⟩ := h
    obtain ⟨json', hjson', hv'⟩ := h'
    obtain rfl := Option.some.inj (hjson.symm.trans hjson')
    exact congrArg Answer.value (Except.ok.inj (hv.symm.trans hv'))
  case sleep.unit.unit => rfl

/-- The body of a row, which never changes. -/
def Row.body (code : Code V) (row : Row) : Body V := code row.workflow row.version row.input

/-- The values came from the tables, in the order of the body. -/
def State.Replayed (code : Code V) (s : State V) (run : String) (as : List (Answer V)) : Prop :=
  ∃ row, s.runs run = some row ∧ Replays (s.answered run) (Row.body code row) as

/-- An execution is one of the body of its run. -/
def State.Executes (code : Code V) (s : State V) (x : Execution V) : Prop :=
  (∃ row, s.runs x.run = some row ∧ x.body = Row.body code row) ∧
    s.Replayed code x.run x.answers ∧
    ∀ key, x.before key = true → s.journal x.run key ≠ none

/-- The run's body gives this output for the values of the tables. -/
def State.Outputs (code : Code V) (s : State V) (run output : String) : Prop :=
  ∃ row as, s.runs run = some row ∧ Replays (s.answered run) (Row.body code row) as ∧
    Row.body code row as = .done output

/-- What a task knows. -/
def Pc.Replaying (code : Code V) (s : State V) : Pc V → Prop
  | .claimSelect p => Agrees code p.defs
  | .claimUpdate p c => Agrees code p.defs ∧ ∃ row, s.runs c.id = some row ∧
      row.workflow = c.workflow ∧ row.version = c.version ∧ row.input = c.input
  | .body x | .sleepWrite x _ _ | .sleepWake x _ | .awaitPark x _ => s.Executes code x
  | .stepTask x codec stepId => s.Executes code x ∧ x.body x.answers = .step codec stepId ∧
      x.before stepId = false
  | .stepWrite x codec stepId _ => s.Executes code x ∧ x.body x.answers = .step codec stepId
  | .close run c => ∀ output, c = .done output → s.Outputs code run output
  | .finished | .start .. | .signalInsert .. | .signalWake .. => True
  | .compactJournal _ | .compactSignals _ => False

structure Replaying (code : Code V) (s : State V) : Prop where
  tasks : ∀ pc ∈ s.tasks, pc.Replaying code s
  histories : ∀ p ∈ s.histories, s.Replayed code p.1 p.2
  ran : ∀ p ∈ s.ran, p.1 p.2 = false
  done : ∀ run row, s.runs run = some row → row.status = .done →
    ∃ output, row.output = some output ∧ s.Outputs code run output

/-- Rows keep their workflow, their version and their input, and the tables grow. -/
structure Grows (s t : State V) : Prop where
  rows : ∀ run row, s.runs run = some row → ∃ row', t.runs run = some row' ∧
    row'.workflow = row.workflow ∧ row'.version = row.version ∧ row'.input = row.input
  journal : ∀ run key json, s.journal run key = some json → t.journal run key = some json
  signals : ∀ run name payload, s.signals run name = some payload →
    t.signals run name = some payload

theorem Grows.answered (h : Grows s t) {run : String} {q : Op V} {a : Answer V}
    (ha : s.answered run q a) : t.answered run q a := by
  cases q <;> cases a <;> simp only [State.answered] at ha ⊢
  case step.value codec stepId v =>
    obtain ⟨json, hjson, hv⟩ := ha
    exact ⟨json, h.journal _ _ _ hjson, hv⟩
  case awaitSignal.value codec name v =>
    obtain ⟨json, hjson, hv⟩ := ha
    exact ⟨json, h.signals _ _ _ hjson, hv⟩
  case sleep.unit sleepId ms =>
    obtain ⟨json, hjson⟩ := Option.ne_none_iff_exists'.1 ha
    exact fun hnone => by simp [h.journal _ _ _ hjson] at hnone

theorem Grows.body (h : Grows s t) (code : Code V) {run : String} {row : Row}
    (hrow : s.runs run = some row) :
    ∃ row', t.runs run = some row' ∧ Row.body code row' = Row.body code row := by
  obtain ⟨row', hrow', hw, hv, hi⟩ := h.rows run row hrow
  exact ⟨row', hrow', by simp [Row.body, hw, hv, hi]⟩

theorem Grows.replayed (h : Grows s t) {code : Code V} {run : String} {as : List (Answer V)}
    (hr : s.Replayed code run as) : t.Replayed code run as := by
  obtain ⟨row, hrow, hreplays⟩ := hr
  obtain ⟨row', hrow', hbody⟩ := h.body code hrow
  exact ⟨row', hrow', hbody ▸ hreplays.mono fun q a => h.answered⟩

theorem Grows.executes (h : Grows s t) {code : Code V} {x : Execution V}
    (hx : s.Executes code x) : t.Executes code x := by
  obtain ⟨⟨row, hrow, hbody⟩, hreplayed, hbefore⟩ := hx
  obtain ⟨row', hrow', hbody'⟩ := h.body code hrow
  refine ⟨⟨row', hrow', hbody.trans hbody'.symm⟩, h.replayed hreplayed, ?_⟩
  intro key hkey
  obtain ⟨json, hjson⟩ := Option.ne_none_iff_exists'.1 (hbefore key hkey)
  simp [h.journal _ _ _ hjson]

theorem Grows.outputs (h : Grows s t) {code : Code V} {run output : String}
    (ho : s.Outputs code run output) : t.Outputs code run output := by
  obtain ⟨row, as, hrow, hreplays, hdone⟩ := ho
  obtain ⟨row', hrow', hbody⟩ := h.body code hrow
  exact ⟨row', as, hrow', hbody ▸ hreplays.mono fun q a => h.answered, hbody ▸ hdone⟩

theorem Grows.replaying (h : Grows s t) {code : Code V} (hpc : pc.Replaying code s) :
    pc.Replaying code t := by
  cases pc with
  | claimSelect p => exact hpc
  | claimUpdate p c =>
      obtain ⟨hdefs, row, hrow, hw, hv, hi⟩ := hpc
      obtain ⟨row', hrow', hw', hv', hi'⟩ := h.rows _ _ hrow
      exact ⟨hdefs, row', hrow', hw'.trans hw, hv'.trans hv, hi'.trans hi⟩
  | body x => exact h.executes hpc
  | stepTask x codec stepId => exact ⟨h.executes hpc.1, hpc.2⟩
  | stepWrite x codec stepId result => exact ⟨h.executes hpc.1, hpc.2⟩
  | sleepWrite x sleepId wake => exact h.executes hpc
  | sleepWake x wake => exact h.executes hpc
  | awaitPark x name => exact h.executes hpc
  | close run c => exact fun output hc => h.outputs (hpc output hc)
  | finished => trivial
  | start => trivial
  | signalInsert => trivial
  | signalWake => trivial
  | compactJournal => exact hpc
  | compactSignals => exact hpc

theorem Grows.refl (s : State V) : Grows s s :=
  ⟨fun _ row hrow => ⟨row, hrow, rfl, rfl, rfl⟩, fun _ _ _ h => h, fun _ _ _ h => h⟩

/-- A step that grows the tables, moves one task and adds to the histories what it may. -/
theorem Replaying.step_task {code : Code V} (h : Replaying code s) (hgrows : Grows s t) {q : Pc V}
    (htasks : t.tasks = s.tasks.set i q) (hq : q.Replaying code t)
    (hhistories : ∀ p ∈ t.histories, p ∈ s.histories ∨ t.Replayed code p.1 p.2)
    (hran : ∀ p ∈ t.ran, p ∈ s.ran ∨ p.1 p.2 = false)
    (hdone : ∀ run row, t.runs run = some row → row.status = .done →
      (∃ row', s.runs run = some row' ∧ row'.status = .done ∧ row'.output = row.output) ∨
        ∃ output, row.output = some output ∧ t.Outputs code run output) : Replaying code t where
  tasks := by
    intro pc hpc
    rcases mem_set_cases (htasks ▸ hpc) with rfl | ⟨j, _, hj⟩
    · exact hq
    · exact hgrows.replaying (h.tasks pc (List.mem_of_getElem? hj))
  histories := by
    intro p hp
    rcases hhistories p hp with hold | hnew
    · exact hgrows.replayed (h.histories p hold)
    · exact hnew
  ran := by
    intro p hp
    rcases hran p hp with hold | hnew
    · exact h.ran p hold
    · exact hnew
  done := by
    intro run row hrow hstatus
    rcases hdone run row hrow hstatus with ⟨row', hrow', hstatus', houtput⟩ | hnew
    · obtain ⟨output, ho, houtputs⟩ := h.done run row' hrow' hstatus'
      exact ⟨output, houtput ▸ ho, hgrows.outputs houtputs⟩
    · exact hnew

/-! ## The statements -/

/-- An update that leaves what the body depends on alone. -/
theorem Grows.of_update {id : String} {f : Row → Row} (hruns : t.runs = (s.update id f).runs)
    (hjournal : t.journal = s.journal) (hsignals : t.signals = s.signals)
    (hf : ∀ row, (f row).workflow = row.workflow ∧ (f row).version = row.version ∧
      (f row).input = row.input) : Grows s t where
  rows := by
    intro run row hrow
    rw [hruns]
    rcases State.update_cases id f hrow with ⟨_, hnew⟩ | ⟨_, hold⟩
    · exact ⟨f row, hnew, hf row⟩
    · exact ⟨row, hold, rfl, rfl, rfl⟩
  journal := fun _ _ _ h => hjournal ▸ h
  signals := fun _ _ _ h => hsignals ▸ h

theorem Grows.of_journal (hruns : t.runs = s.runs) (hsignals : t.signals = s.signals)
    (hjournal : ∀ run key json, s.journal run key = some json →
      t.journal run key = some json) : Grows s t where
  rows := fun _ row hrow => ⟨row, hruns ▸ hrow, rfl, rfl, rfl⟩
  journal := hjournal
  signals := fun _ _ _ h => hsignals ▸ h

/-- A row that is done after an update was done before it, if the update says so. -/
theorem State.done_update {id : String} {f : Row → Row}
    (hf : ∀ row, (f row).status = .done → row.status = .done ∧ (f row).output = row.output)
    {run : String} {row : Row} (hrow : (s.update id f).runs run = some row)
    (hdone : row.status = .done) :
    ∃ row', s.runs run = some row' ∧ row'.status = .done ∧ row'.output = row.output := by
  by_cases hid : run = id
  · subst hid
    obtain ⟨row', hrow', rfl⟩ : ∃ row', s.runs run = some row' ∧ f row' = row := by
      simpa [State.update] using hrow
    exact ⟨row', hrow', (hf row' hdone).1, (hf row' hdone).2.symm⟩
  · exact ⟨row, by simpa [State.update, Function.update_of_ne hid] using hrow, hdone, rfl⟩

/-- A step that changes a task and nothing else that counts here. -/
theorem Replaying.frame {code : Code V} (h : Replaying code s) {q : Pc V}
    (htasks : t.tasks = s.tasks.set i q) (hruns : t.runs = s.runs)
    (hjournal : t.journal = s.journal) (hsignals : t.signals = s.signals)
    (hhistories : t.histories = s.histories) (hran : t.ran = s.ran) (hq : q.Replaying code t) :
    Replaying code t := by
  refine h.step_task (.of_journal hruns hsignals fun _ _ _ h => hjournal ▸ h) htasks hq
    (fun p hp => .inl (hhistories ▸ hp)) (fun p hp => .inl (hran ▸ hp)) ?_
  intro run row hrow hdone
  exact .inl ⟨row, hruns ▸ hrow, hdone, rfl⟩

theorem replaying_onError {code : Code V} (run message : String) :
    (Pc.close run (onError message) : Pc V).Replaying code s := by
  intro output hc
  unfold onError at hc
  split at hc <;> cases hc

/-- An execution goes on as one of its body. -/
theorem State.Executes.next {code : Code V} {x : Execution V} (h : s.Executes code x) :
    x.next.Replaying code s := by
  obtain ⟨⟨row, hrow, hbody⟩, ⟨row', hrow', hreplays⟩, _⟩ := id h
  obtain rfl := Option.some.inj (hrow.symm.trans hrow')
  unfold Execution.next
  split
  · next output hop =>
      intro output' hc
      obtain rfl : output = output' := by simpa using hc
      exact ⟨row, x.answers, hrow, hreplays, hbody ▸ hop⟩
  · exact replaying_onError _ _
  · exact h
  · exact h
  · exact h

theorem State.Executes.answered {code : Code V} {x : Execution V} (h : s.Executes code x)
    {a : Answer V} (ha : s.answered x.run (x.body x.answers) a) :
    s.Executes code { x with answers := x.answers ++ [a] } := by
  obtain ⟨⟨row, hrow, hbody⟩, ⟨row', hrow', hreplays⟩, hbefore⟩ := h
  obtain rfl := Option.some.inj (hrow.symm.trans hrow')
  exact ⟨⟨row, hrow, hbody⟩, ⟨row, hrow, .snoc hreplays (hbody ▸ ha)⟩, hbefore⟩

theorem State.writeJournal_self (run key json : String) :
    (s.writeJournal run key json).journal run key = some ((s.journal run key).getD json) := by
  unfold State.writeJournal
  split
  · next old hold => simp [hold]
  · next hnone => simp [hnone]

theorem State.grows_writeJournal (run key json : String) :
    Grows s (s.writeJournal run key json) := by
  refine .of_journal (State.runs_writeJournal ..) ?_ ?_
  · unfold State.writeJournal
    split <;> rfl
  · intro other key' json' hold
    unfold State.writeJournal
    split
    · exact hold
    · next hnone =>
        by_cases hother : other = run
        · subst hother
          by_cases hkey : key' = key
          · subst hkey
            rw [hnone] at hold
            cases hold
          · simpa [Function.update_of_ne hkey] using hold
        · simpa [Function.update_of_ne hother] using hold

/-- An execution gets a value that the tables have. -/
theorem Replaying.answer {code : Code V} (h : Replaying code s) {x : Execution V}
    (hx : s.Executes code x) {s' : State V} {a : Answer V} (hgrows : Grows s s')
    (htasks : s'.tasks = s.tasks) (hruns : s'.runs = s.runs)
    (hhistories : s'.histories = s.histories) (hran : s'.ran = s.ran)
    (ha : s'.answered x.run (x.body x.answers) a) : Replaying code (s'.answer i x a) := by
  have hnew : s'.Executes code { x with answers := x.answers ++ [a] } :=
    (hgrows.executes hx).answered ha
  have hsame : Grows s' (s'.answer i x a) := .of_journal rfl rfl fun _ _ _ h => h
  refine h.step_task (i := i) (t := s'.answer i x a) ⟨?_, ?_, ?_⟩ ?_ (hsame.replaying hnew.next) ?_ ?_ ?_
  · exact hgrows.rows
  · exact hgrows.journal
  · exact hgrows.signals
  · simp [State.answer, State.setTask, htasks]
  · intro p hp
    rcases List.mem_cons.1 hp with rfl | hold
    · exact .inr (hsame.replayed hnew.2.1)
    · exact .inl (hhistories ▸ hold)
  · exact fun p hp => .inl (hran ▸ hp)
  · intro run row hrow hdone
    exact .inl ⟨row, hruns ▸ hrow, hdone, rfl⟩

theorem Replaying.runBody {code : Code V} (h : Replaying code s) {x : Execution V}
    (hi : s.tasks[i]? = some (.body x)) (at_ : ℤ) : Replaying code (s.runBody i at_ x) := by
  have hx : s.Executes code x := h.tasks _ (List.mem_of_getElem? hi)
  have hgot : ∀ a, s.answered x.run (x.body x.answers) a → Replaying code (s.answer i x a) :=
    fun a ha => h.answer hx (.refl s) rfl rfl rfl rfl ha
  unfold State.runBody
  split
  · next codec stepId hop =>
      split
      · next json hjson =>
          split
          · next v hv => exact hgot _ (by simp [hop, State.answered, hjson, hv])
          · exact h.frame rfl rfl rfl rfl rfl rfl (replaying_onError _ _)
      · next hnone =>
          refine h.frame (q := .stepTask x codec stepId) rfl rfl rfl rfl rfl rfl ⟨hx, hop, ?_⟩
          exact Bool.eq_false_iff.2 fun hbefore => hx.2.2 stepId hbefore hnone
  · next sleepId ms hop =>
      split
      · next json hjson => exact hgot _ (by simp [hop, State.answered, hjson])
      · exact h.frame (q := .sleepWrite x sleepId (at_ + ms)) rfl rfl rfl rfl rfl rfl hx
  · next codec name hop =>
      split
      · next payload hpayload =>
          split
          · next v hv => exact hgot _ (by simp [hop, State.answered, hpayload, hv])
          · exact h.frame rfl rfl rfl rfl rfl rfl (replaying_onError _ _)
      · exact h.frame (q := .awaitPark x name) rfl rfl rfl rfl rfl rfl hx
  · next output hop =>
      refine h.frame (q := .close x.run (.done output)) rfl rfl rfl rfl rfl rfl ?_
      have hnext := hx.next
      rwa [Execution.next, hop] at hnext
  · exact h.frame rfl rfl rfl rfl rfl rfl (replaying_onError _ _)

theorem Replaying.runClaimSelect {code : Code V} (h : Replaying code s) {p : Poll V} {id : String}
    (hi : s.tasks[i]? = some (.claimSelect p)) (hstep : s.runClaimSelect i id p = some t) :
    Replaying code t := by
  have hdefs : Agrees code p.defs := h.tasks _ (List.mem_of_getElem? hi)
  unfold State.runClaimSelect at hstep
  split at hstep
  · obtain rfl := Option.some.inj hstep
    exact h.frame (q := .finished) rfl rfl rfl rfl rfl rfl trivial
  · split at hstep
    · obtain ⟨row, hrow, rfl⟩ := Option.map_eq_some_iff.1 hstep
      exact h.frame (q := .claimUpdate p ⟨id, row.workflow, row.version, row.input⟩) rfl rfl rfl rfl
        rfl rfl ⟨hdefs, row, hrow, rfl, rfl, rfl⟩
    · cases hstep

/-- What a claim starts is an execution of the run's body, from its beginning. -/
theorem State.replaying_advance {code : Code V} {p : Poll V} {c : ClaimRow} {row : Row}
    (hdefs : Agrees code p.defs) (hrow : s.runs c.id = some row)
    (hfields : row.workflow = c.workflow ∧ row.version = c.version ∧ row.input = c.input) :
    (s.advance p c).Replaying code s := by
  obtain ⟨hworkflow, hversion, hinput⟩ := hfields
  unfold State.advance
  split
  · next d hd =>
      refine State.Executes.next ⟨⟨row, hrow, ?_⟩, ⟨row, hrow, .nil⟩, ?_⟩
      · simp [Row.body, hdefs _ _ d hd, hworkflow, hversion, hinput]
      · intro key hkey
        exact Option.isSome_iff_ne_none.1 hkey
  · split
    · split
      · intro output hc
        cases hc
      · intro output hc
        cases hc
    · intro output hc
      cases hc

theorem Replaying.runClaimUpdate {code : Code V} (h : Replaying code s) {p : Poll V} {c : ClaimRow}
    (hi : s.tasks[i]? = some (.claimUpdate p c)) : Replaying code (s.runClaimUpdate i p c) := by
  obtain ⟨hdefs, row, hrow, hfields⟩ := h.tasks _ (List.mem_of_getElem? hi)
  unfold State.runClaimUpdate
  split
  · exact h.frame (q := .finished) rfl rfl rfl rfl rfl rfl trivial
  · next r hr =>
      obtain rfl := Option.some.inj (hrow.symm.trans hr)
      split
      · refine h.step_task (q := s.advance p c) (.of_update rfl rfl rfl fun _ => ⟨rfl, rfl, rfl⟩) rfl
          ?_ (fun p hp => .inl hp) (fun p hp => .inl hp) ?_
        · refine Grows.replaying ?_ (State.replaying_advance hdefs hrow hfields)
          exact .of_update rfl rfl rfl fun _ => ⟨rfl, rfl, rfl⟩
        · intro run row' hrow' hdone
          refine .inl (State.done_update ?_ hrow' hdone)
          intro _ hstatus
          cases hstatus
      · exact h.frame (q := .finished) rfl rfl rfl rfl rfl rfl trivial

theorem Replaying.runClose {code : Code V} (h : Replaying code s) {run : String} {c : Close}
    (hi : s.tasks[i]? = some (.close run c)) (at_ : ℤ) :
    Replaying code (s.runClose i at_ run c) := by
  have hclose : ∀ output, c = .done output → s.Outputs code run output :=
    h.tasks _ (List.mem_of_getElem? hi)
  have hruns := State.runs_runClose (s := s) (i := i) at_ run c
  have hgrows : Grows s (s.runClose i at_ run c) := by
    refine .of_update hruns ?_ ?_ ?_
    · unfold State.runClose
      cases Close.ends c <;> rfl
    · unfold State.runClose
      cases Close.ends c <;> rfl
    · intro row
      cases c <;> exact ⟨rfl, rfl, rfl⟩
  refine h.step_task (q := .finished) hgrows (State.tasks_runClose ..) trivial ?_ ?_ ?_
  · intro p hp
    unfold State.runClose at hp
    cases hc : Close.ends c <;> simp only [hc] at hp <;> exact .inl hp
  · intro p hp
    unfold State.runClose at hp
    cases hc : Close.ends c <;> simp only [hc] at hp <;> exact .inl hp
  · intro other row hrow hdone
    rw [hruns] at hrow
    cases c with
    | done output =>
        by_cases hid : other = run
        · subst hid
          obtain ⟨row', _, rfl⟩ : ∃ row', s.runs other = some row' ∧
              Close.apply (.done output) at_ row' = row := by simpa [State.update] using hrow
          exact .inr ⟨output, rfl, hgrows.outputs (hclose output rfl)⟩
        · exact .inl ⟨row, by simpa [State.update, Function.update_of_ne hid] using hrow, hdone,
            rfl⟩
    | release =>
        exact .inl (State.done_update (f := Close.apply .release at_) (fun _ hstatus => ⟨hstatus, rfl⟩) hrow
          hdone)
    | park =>
        exact .inl (State.done_update (f := Close.apply .park at_) (fun _ hstatus => by cases hstatus) hrow
          hdone)
    | failed message =>
        exact .inl (State.done_update (f := Close.apply (.failed message) at_)
          (fun _ hstatus => by cases hstatus) hrow hdone)
    | dead message =>
        exact .inl (State.done_update (f := Close.apply (.dead message) at_)
          (fun _ hstatus => by cases hstatus) hrow hdone)

/-- A step's result is written where the journal has no row, or one that decodes to it. -/
def State.WritesFresh (s : State V) : Event V → Prop
  | .run i _ => ∀ x codec stepId result, s.tasks[i]? = some (.stepWrite x codec stepId result) →
      ∀ json, s.journal x.run stepId = some json → codec.fromJson json = .ok result
  | _ => True

/-- The events of the journal's story: claims by workers that have the code, and no compaction. -/
def Event.Plain (code : Code V) : Event V → Prop
  | .call (.poll defs _) => Agrees code defs
  | .call (.compact _) => False
  | _ => True

theorem Replaying.runStart {code : Code V} (h : Replaying code s)
    (id workflow version text : String) (now : ℤ) :
    Replaying code (s.runStart i id workflow version text now) := by
  unfold State.runStart
  split
  · exact h.frame (q := .finished) rfl rfl rfl rfl rfl rfl trivial
  · next hnone =>
      refine h.step_task (q := .finished) ⟨?_, fun _ _ _ h => h, fun _ _ _ h => h⟩ rfl trivial
        (fun p hp => .inl hp) (fun p hp => .inl hp) ?_
      · intro run row hrow
        refine ⟨row, ?_, rfl, rfl, rfl⟩
        simp only [State.setTask]
        rw [Function.update_of_ne, hrow]
        rintro rfl
        rw [hnone] at hrow
        cases hrow
      · intro run row hrow hdone
        by_cases hid : run = id
        · subst hid
          obtain rfl : _ = row := by simpa [State.setTask] using hrow
          cases hdone
        · exact .inl ⟨row, by simpa [State.setTask, Function.update_of_ne hid] using hrow, hdone,
            rfl⟩

theorem Replaying.runSignalInsert {code : Code V} (h : Replaying code s)
    (run name payload : String) (now : ℤ) :
    Replaying code (s.runSignalInsert i run name payload now) := by
  unfold State.runSignalInsert
  split
  · exact h.frame (q := .signalWake run now) rfl rfl rfl rfl rfl rfl trivial
  · next hnone =>
      refine h.step_task (q := .signalWake run now) ⟨?_, fun _ _ _ h => h, ?_⟩ rfl trivial
        (fun p hp => .inl hp) (fun p hp => .inl hp) ?_
      · exact fun _ row hrow => ⟨row, hrow, rfl, rfl, rfl⟩
      · intro other name' payload' hold
        simp only [State.setTask]
        by_cases hrun : other = run
        · subst hrun
          rw [Function.update_self, Function.update_of_ne, hold]
          rintro rfl
          rw [hnone] at hold
          cases hold
        · rw [Function.update_of_ne hrun, hold]
      · exact fun _ row hrow hdone => .inl ⟨row, hrow, hdone, rfl⟩

/-- A step that updates a row that is not done, and ends nothing. -/
theorem Replaying.update {code : Code V} (h : Replaying code s) {q : Pc V} {id : String}
    {f : Row → Row} (htasks : t.tasks = s.tasks.set i q) (hruns : t.runs = (s.update id f).runs)
    (hjournal : t.journal = s.journal) (hsignals : t.signals = s.signals)
    (hhistories : t.histories = s.histories) (hran : t.ran = s.ran)
    (hsame : ∀ row, (f row).workflow = row.workflow ∧ (f row).version = row.version ∧
      (f row).input = row.input)
    (hf : ∀ row, (f row).status = .done → row.status = .done ∧ (f row).output = row.output)
    (hq : ∀ output, q ≠ .close id (.done output)) (hclose : ∃ c, q = .close id c ∨ q = .finished) :
    Replaying code t := by
  refine h.step_task (.of_update hruns hjournal hsignals hsame) htasks ?_
    (fun p hp => .inl (hhistories ▸ hp)) (fun p hp => .inl (hran ▸ hp)) ?_
  · obtain ⟨c, rfl | rfl⟩ := hclose
    · rintro output rfl
      exact absurd rfl (hq output)
    · trivial
  · intro run row hrow hdone
    exact .inl (State.done_update hf (hruns ▸ hrow) hdone)

theorem Replaying.run {code : Code V} (hlawful : Lawful code) (h : Replaying code s)
    {a : State.Input V} (hfresh : s.WritesFresh (.run i a)) (hstep : s.run i a = some t) : Replaying code t := by
  unfold State.run at hstep
  split at hstep
  · cases hstep
  · cases hstep
  · obtain rfl := Option.some.inj hstep
    exact h.runStart ..
  · obtain rfl := Option.some.inj hstep
    exact h.runSignalInsert ..
  · obtain rfl := Option.some.inj hstep
    exact h.update rfl rfl rfl rfl rfl rfl (fun _ => ⟨rfl, rfl, rfl⟩) (fun _ hdone => ⟨hdone, rfl⟩)
      (by rintro output ⟨⟩) ⟨.release, .inr rfl⟩
  · next hi => exact h.runClaimSelect hi hstep
  · next hi =>
      obtain rfl := Option.some.inj hstep
      exact h.runClaimUpdate hi
  · next hi =>
      obtain rfl := Option.some.inj hstep
      exact h.runBody hi a.at_
  · next x codec stepId hi =>
      obtain rfl := Option.some.inj hstep
      obtain ⟨hx, hop, hbefore⟩ := h.tasks _ (List.mem_of_getElem? hi)
      unfold State.runStepTask
      have hran : ∀ p ∈ (x.before, stepId) :: s.ran, p ∈ s.ran ∨ p.1 p.2 = false := by
        intro p hp
        rcases List.mem_cons.1 hp with rfl | hold
        · exact .inr hbefore
        · exact .inl hold
      cases a.result with
      | ok v =>
          exact h.step_task (q := .stepWrite x codec stepId v) (.of_journal rfl rfl fun _ _ _ h => h)
            rfl ⟨hx, hop⟩ (fun p hp => .inl hp) hran
            (fun _ row hrow hdone => .inl ⟨row, hrow, hdone, rfl⟩)
      | error e =>
          exact h.step_task (q := .close x.run (onError e)) (.of_journal rfl rfl fun _ _ _ h => h)
            rfl (replaying_onError _ _) (fun p hp => .inl hp) hran
            (fun _ row hrow hdone => .inl ⟨row, hrow, hdone, rfl⟩)
  · next x codec stepId result hi =>
      obtain rfl := Option.some.inj hstep
      obtain ⟨hx, hop⟩ := h.tasks _ (List.mem_of_getElem? hi)
      obtain ⟨⟨row, _, hbody⟩, _⟩ := id hx
      have hlaw : codec.fromJson (codec.toJson result) = .ok result :=
        hlawful row.workflow row.version row.input x.answers codec stepId
          (by rw [← hop, hbody]; rfl) result
      obtain ⟨journal, hj⟩ := State.writeJournal_eq (s := s) x.run stepId (codec.toJson result)
      have hself := State.writeJournal_self (s := s) x.run stepId (codec.toJson result)
      refine h.answer hx (State.grows_writeJournal ..) (State.tasks_writeJournal ..)
        (State.runs_writeJournal ..) (by rw [hj]) (by rw [hj]) ?_
      rw [hop]
      refine ⟨_, hself, ?_⟩
      cases hold : s.journal x.run stepId with
      | none => exact hlaw
      | some json => exact hfresh x codec stepId result hi json hold
  · next x sleepId wake hi =>
      obtain rfl := Option.some.inj hstep
      have hx : s.Executes code x := h.tasks _ (List.mem_of_getElem? hi)
      have hgrows := State.grows_writeJournal (s := s) x.run (sleepKey sleepId) (toString wake)
      obtain ⟨journal, hj⟩ :=
        State.writeJournal_eq (s := s) x.run (sleepKey sleepId) (toString wake)
      rw [hj] at hgrows ⊢
      exact h.step_task (q := .sleepWake x wake) ⟨hgrows.rows, hgrows.journal, hgrows.signals⟩ rfl
        (Grows.executes ⟨hgrows.rows, hgrows.journal, hgrows.signals⟩ hx) (fun p hp => .inl hp)
        (fun p hp => .inl hp) (fun _ row hrow hdone => .inl ⟨row, hrow, hdone, rfl⟩)
  · next x wake hi =>
      obtain rfl := Option.some.inj hstep
      exact h.update (q := .close x.run .release) rfl rfl rfl rfl rfl rfl
        (fun _ => ⟨rfl, rfl, rfl⟩) (fun _ hdone => ⟨hdone, rfl⟩) (by rintro output ⟨⟩)
        ⟨_, .inl rfl⟩
  · next x name hi =>
      obtain rfl := Option.some.inj hstep
      exact h.update (q := .close x.run .release) rfl rfl rfl rfl rfl rfl
        (fun _ => ⟨rfl, rfl, rfl⟩) (fun _ hdone => by cases hdone) (by rintro output ⟨⟩)
        ⟨_, .inl rfl⟩
  · next hi =>
      obtain rfl := Option.some.inj hstep
      exact h.runClose hi a.at_
  · next hi => exact (h.tasks _ (List.mem_of_getElem? hi)).elim
  · next hi => exact (h.tasks _ (List.mem_of_getElem? hi)).elim

end Sky.Durable
