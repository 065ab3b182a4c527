import Sky.Verification.Durable.Journal

/-! # The executions of a run agree -/

namespace Sky.Durable

open Library

variable {V : Type*} {s t : State V} {e : Event V} {code : Code V}

theorem Replaying.step (hlawful : Lawful code) (h : Replaying code s) (hplain : e.Plain code)
    (hfresh : s.WritesFresh e) (hstep : s.step e = some t) : Replaying code t := by
  rcases State.step_cases hstep with ⟨c, rfl, rfl⟩ | ⟨i, a, rfl, _, hrun⟩ |
    ⟨i, pc, rfl, hi, _, rfl⟩ | ⟨now, rfl, _, rfl⟩
  · have hsame : Grows s { s with tasks := s.tasks ++ [c.enter s.now] } :=
      .of_journal rfl rfl fun _ _ _ h => h
    refine ⟨?_, fun p hp => hsame.replayed (h.histories p hp), h.ran, ?_⟩
    · intro pc hpc
      rcases List.mem_append.1 hpc with hold | hnew
      · exact hsame.replaying (h.tasks pc hold)
      · obtain rfl := List.mem_singleton.1 hnew
        cases c with
        | start => trivial
        | signal => trivial
        | poll defs policy => exact hplain
        | compact => exact hplain.elim
    · intro run row hrow hdone
      obtain ⟨output, houtput, hgives⟩ := h.done run row hrow hdone
      exact ⟨output, houtput, hsame.outputs hgives⟩
  · exact h.run hlawful hfresh hrun
  · exact h.frame (q := .finished) rfl rfl rfl rfl rfl rfl trivial
  · have hsame : Grows s { s with now := now } := .of_journal rfl rfl fun _ _ _ h => h
    refine ⟨fun pc hpc => hsame.replaying (h.tasks pc hpc),
      fun p hp => hsame.replayed (h.histories p hp), h.ran, ?_⟩
    intro run row hrow hdone
    obtain ⟨output, houtput, hgives⟩ := h.done run row hrow hdone
    exact ⟨output, houtput, hsame.outputs hgives⟩

theorem replaying_init (code : Code V) (now : ℤ) : Replaying code (State.init now) where
  tasks := by simp [State.init]
  histories := by simp [State.init]
  ran := by simp [State.init]
  done := by simp [State.init]

/-- A step that writes no result beside another. -/
def FreshStep (a : State V) (e : Event V) (b : State V) : Prop :=
  a.WritesFresh e ∧ a.step e = some b

theorem replaying_of_run {now : ℤ} {es : List (Event V)} (hlawful : Lawful code)
    (hplain : ∀ e ∈ es, e.Plain code) (hrun : Run FreshStep (State.init now) es s) :
    Replaying code s := by
  have hboth : ∀ {a b : State V} {es : List (Event V)}, Run FreshStep a es b →
      (∀ e ∈ es, e.Plain code) → Replaying code a → Replaying code b := by
    intro a b es hrun
    induction hrun with
    | nil => exact fun _ h => h
    | cons hstep _ ih =>
        intro hplain ha
        refine ih (fun e he => hplain e (List.mem_cons_of_mem _ he)) ?_
        exact ha.step hlawful (hplain _ List.mem_cons_self) hstep.1 hstep.2
  exact hboth hrun hplain (replaying_init code now)

/-- In every run whose steps write no result beside another, the executions of a run agree as far
as each has come, and what each got for a step is what the journal has; a step's task is not run by
an execution that began with the step in the journal; and the output of a run that is done is what
its body gives for what the tables answer. -/
theorem executions_agree {now : ℤ} {es : List (Event V)} (hlawful : Lawful code)
    (hplain : ∀ e ∈ es, e.Plain code) (hrun : Run FreshStep (State.init now) es s) :
    (∀ run h h', (run, h) ∈ s.histories → (run, h') ∈ s.histories → h <+: h' ∨ h' <+: h) ∧
      (∀ run row h h', s.runs run = some row → (run, h) ∈ s.histories → (run, h') ∈ s.histories →
        ∀ as as' codec codec' stepId v v', as ++ [.value v] <+: h → as' ++ [.value v'] <+: h' →
          Row.body code row as = .step codec stepId →
          Row.body code row as' = .step codec' stepId →
          (codec = codec' → v = v') ∧ ∃ json, s.journal run stepId = some json ∧
            codec.fromJson json = .ok v ∧ codec'.fromJson json = .ok v') ∧
      (∀ p ∈ s.ran, p.1 p.2 = false) ∧
      ∀ run row, s.runs run = some row → row.status = .done →
        ∃ output as, row.output = some output ∧
          Replays (s.answered run) (Row.body code row) as ∧ Row.body code row as = .done output := by
  have hreplaying : Replaying code s := replaying_of_run hlawful hplain hrun
  have hreplays : ∀ {run row h}, s.runs run = some row → (run, h) ∈ s.histories →
      Replays (s.answered run) (Row.body code row) h := by
    intro run row h hrow hmem
    obtain ⟨row', hrow', hr⟩ := hreplaying.histories _ hmem
    obtain rfl := Option.some.inj (hrow.symm.trans hrow')
    exact hr
  refine ⟨?_, ?_, hreplaying.ran, ?_⟩
  · intro run h h' hmem hmem'
    obtain ⟨row, hrow, hr⟩ := hreplaying.histories _ hmem
    have hone : ∀ q a a', s.answered run q a → s.answered run q a' → a = a' :=
      fun _ _ _ ha ha' => State.answered_unique ha ha'
    exact Replays.comparable hone hr (hreplays hrow hmem')
  · intro run row h h' hrow hmem hmem' as as' codec codec' stepId v v' hpre hpre' hop hop'
    have hgot := (hreplays hrow hmem).answered_of_front hpre
    have hgot' := (hreplays hrow hmem').answered_of_front hpre'
    rw [hop] at hgot
    rw [hop'] at hgot'
    obtain ⟨json, hjson, hv⟩ := hgot
    obtain ⟨json', hjson', hv'⟩ := hgot'
    obtain rfl := Option.some.inj (hjson.symm.trans hjson')
    refine ⟨?_, json, hjson, hv, hv'⟩
    rintro rfl
    exact Except.ok.inj (hv.symm.trans hv')
  · intro run row hrow hdone
    obtain ⟨output, houtput, row', as, hrow', hr, hgives⟩ := hreplaying.done run row hrow hdone
    obtain rfl := Option.some.inj (hrow.symm.trans hrow')
    exact ⟨output, as, houtput, hr, hgives⟩

/-! The run of one step that is executed once. -/

def oneStepCode : Code String := fun _ _ => oneStep.run

theorem agrees_oneStep : Agrees oneStepCode [oneStep] := by
  intro name version d hd
  have hmem : d ∈ [oneStep] := List.mem_of_mem_filter (List.mem_of_mem_head? hd)
  obtain rfl := List.mem_singleton.1 hmem
  rfl

theorem lawful_oneStep : Lawful oneStepCode := by
  intro name version input as codec stepId hop v
  have hcodec : codec = text := by
    simp only [oneStepCode, oneStep] at hop
    split at hop
    · cases hop
    · exact (Op.step.inj hop).1.symm
  subst hcodec
  rfl

/-- The condition, where it can be computed. -/
def State.writesFresh (s : State String) : Event String → Bool
  | .run i _ =>
      match s.tasks[i]? with
      | some (.stepWrite x _ stepId _) => (s.journal x.run stepId).isNone
      | _ => true
  | _ => true

theorem freshStep_of_writesFresh {s t : State String} {e : Event String}
    (h : s.writesFresh e = true) (hstep : s.step e = some t) : FreshStep s e t := by
  refine ⟨?_, hstep⟩
  cases e with
  | run i a =>
      intro x codec stepId result hi json hjson
      simp [State.writesFresh, hi, hjson] at h
  | call => trivial
  | crash => trivial
  | tick => trivial

theorem execute_agrees :
    ∃ s : State String, execute.foldlM State.step (State.init 0) = some s ∧
      s.journal "r" "k" = some "v" ∧
      ∃ output as, (s.runs "r").bind Row.output = some output ∧
        Replays (s.answered "r") (oneStep.run "") as ∧ oneStep.run "" as = .done output := by
  have hrun : (execute.foldlM (fun (s : State String) e => if s.writesFresh e then s.step e else none)
      (State.init 0)).map (fun s => (s.journal "r" "k",
        (s.runs "r").map fun row => (row.status, row.input))) =
        some (some "v", some (.done, "")) := by decide +kernel
  obtain ⟨s, hs, hfields⟩ := Option.map_eq_some_iff.1 hrun
  simp only [Prod.mk.injEq] at hfields
  obtain ⟨hjournal, hrow⟩ := hfields
  obtain ⟨row, hrow, hfields⟩ := Option.map_eq_some_iff.1 hrow
  obtain ⟨hdone, hinput⟩ := Prod.mk.inj hfields
  have hfresh : Run FreshStep (State.init 0) execute s := by
    refine (Run.iff_foldlM.2 hs).mono ?_
    intro a e b hab
    split at hab
    · next hok => exact freshStep_of_writesFresh hok hab
    · cases hab
  have hplain : ∀ e ∈ execute, e.Plain oneStepCode := by
    intro e he
    simp only [execute, List.mem_cons, List.not_mem_nil, or_false] at he
    rcases he with rfl | rfl | rfl | rfl | rfl | rfl | rfl | rfl | rfl
    · trivial
    · trivial
    · exact agrees_oneStep
    all_goals trivial
  obtain ⟨_, _, _, hout⟩ := executions_agree lawful_oneStep hplain hfresh
  obtain ⟨output, as, houtput, hr, hgives⟩ := hout "r" row hrow hdone
  refine ⟨s, Run.iff_foldlM.1 (hfresh.mono fun _ _ _ hab => hab.2), hjournal, output, as, ?_, ?_, ?_⟩
  · simp [hrow, houtput]
  · simpa [Row.body, oneStepCode, hinput] using hr
  · simpa [Row.body, oneStepCode, hinput] using hgives

/-! A second worker takes the run after the first one's lease, and both run the step's task. -/

def first : State.Input String := ⟨0, "r", .ok "a"⟩

def second : State.Input String := ⟨0, "r", .ok "b"⟩

def overtaken : List (Event String) :=
  [.call (.start "r" "w" "1" ""), .run 0 first, .call (.poll [oneStep] .failSafe), .run 1 first,
    .run 1 first, .run 1 first, .run 1 first, .tick (leaseMs + 1),
    .call (.poll [oneStep] .failSafe), .run 2 second, .run 2 second, .run 2 second, .run 2 second,
    .run 2 second, .run 2 second, .run 1 first]

/-- The first worker goes on with its own result, which the journal does not have. -/
theorem overtaken_differs :
    (overtaken.foldlM State.step (State.init 0)).map
      (fun s => (s.histories, s.journal "r" "k", (s.runs "r").bind Row.output)) =
        some ([("r", [.value "a"]), ("r", [.value "b"])], some "b", some "b") := by
  decide +kernel

end Sky.Durable
