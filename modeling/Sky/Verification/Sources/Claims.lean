import Sky.Library.Run
import Sky.Library.Tasks
import Sky.Model.Sources

/-! # Steps and claims of the runners of a source -/

namespace Sky.Sources

open Library

/-! ## What one step does -/

section

variable {s t : State} {i : ℕ} {r r' : Runner} {x : Pumped}

/-- How a call of `startSourceRunner` goes on. -/
inductive Started (s : State) : State → Prop where
  | lock (hstart : s.start = .idle) : Started s { s with start := .stopping }
  | vacant (hstart : s.start = .stopping) : Started s { s with start := .claim }
  | stopping (prev : ℕ) (r : Runner) (hstart : s.start = .stopping) (hholder : s.holder = some prev)
      (hprev : s.runners[prev]? = some r) : Started s { s with start := .ended prev }
  | ended (prev : ℕ) (hstart : s.start = .ended prev) : Started s { s with start := .claim }
  | leaving (prev : ℕ) (r : Runner) (hstart : s.start = .ended prev)
      (hprev : s.runners[prev]? = some r) : Started s { s with start := .go (some prev) }
  | refused (hstart : s.start = .claim) (hclaimed : s.claimed = true) :
      Started s { s with start := .idle }
  | claimed (hstart : s.start = .claim) (hclaimed : s.claimed = false) :
      Started s ({ s with claimed := true, start := .go none }.write (.claim s.runners.length))
  | took (predecessor : Option ℕ) (hstart : s.start = .go predecessor) :
      Started s (s.take predecessor)

/-- How a runner goes on: what it leaves of the state, and how the runner is then. -/
inductive Ran (s : State) (i : ℕ) (r : Runner) : State → Runner → Prop where
  | wake (prev : ℕ) (q : Runner) (hpc : r.pc = .wait prev) (hprev : s.runners[prev]? = some q)
      (hdone : q.pc = .done) : Ran s i r s { r with pc := .check }
  | dropped (hpc : r.pc = .check) (hstop : r.stop = true) : Ran s i r s { r with pc := .forget }
  | kept (hpc : r.pc = .check) (hstop : r.stop = false) : Ran s i r s { r with pc := .claim }
  | refused (hpc : r.pc = .claim) (hclaimed : s.claimed = true) :
      Ran s i r (s.write (.refused i)) { r with pc := .forget }
  | claimed (hpc : r.pc = .claim) (hclaimed : s.claimed = false) :
      Ran s i r ({ s with claimed := true }.write (.claim i)) { r with pc := .pump }
  | event (pc : Pc) (hpc : r.pc = .pump) (hnext : pc = .pump ∨ pc = .pumped) :
      Ran s i r (s.write (.pump i)) { r with pc := pc }
  | returned (pc : Pc) (hpc : r.pc = .pump) (hnext : pc = .pumped ∨ pc = .release) :
      Ran s i r s { r with pc := pc }
  | pumped (finished : Bool) (hpc : r.pc = .pumped) :
      Ran s i r s { r with pc := .release, finished := finished }
  | released (hpc : r.pc = .release) :
      Ran s i r ({ s with claimed := false }.write (.release i)) { r with pc := .forget }
  | forgot (hpc : r.pc = .forget) (hstart : s.start = .idle) (hholder : s.holder = some i) :
      Ran s i r { s with holder := none } { r with pc := .onEnd }
  | overtaken (hpc : r.pc = .forget) (hstart : s.start = .idle) :
      Ran s i r s { r with pc := .onEnd }
  | onEnd (hpc : r.pc = .onEnd) : Ran s i r s { r with pc := .close }
  | close (hpc : r.pc = .close) : Ran s i r s { r with pc := .done }

theorem State.startStep_cases (h : s.startStep = some t) : Started s t := by
  cases hstart : s.start with
  | idle => simp [State.startStep, hstart] at h
  | stopping =>
      simp only [State.startStep, hstart] at h
      split at h
      · obtain rfl := Option.some.inj h
        exact .vacant hstart
      · next prev hholder =>
          simp only [Option.bind_eq_bind, Option.bind_eq_some_iff] at h
          obtain ⟨r, hprev, ht⟩ := h
          obtain rfl := Option.some.inj ht
          split
          · exact .stopping prev r hstart hholder hprev
          · exact .vacant hstart
  | ended prev =>
      simp only [State.startStep, hstart, Option.bind_eq_bind, Option.bind_eq_some_iff] at h
      obtain ⟨r, hprev, ht⟩ := h
      obtain rfl := Option.some.inj ht
      split
      · exact .ended prev hstart
      · exact .leaving prev r hstart hprev
  | claim =>
      simp only [State.startStep, hstart] at h
      split at h
      · next hclaimed =>
          obtain rfl := Option.some.inj h
          exact .refused hstart hclaimed
      · next hclaimed =>
          obtain rfl := Option.some.inj h
          exact .claimed hstart (by simpa using hclaimed)
  | go predecessor =>
      simp only [State.startStep, hstart] at h
      obtain rfl := Option.some.inj h
      exact .took predecessor hstart

theorem State.runStep_cases (h : s.runStep i r x = some (t, r')) : Ran s i r t r' := by
  cases hpc : r.pc with
  | wait prev =>
      simp only [State.runStep, hpc, Option.bind_eq_bind, Option.bind_eq_some_iff] at h
      obtain ⟨q, hprev, hq⟩ := h
      split at hq
      · next hdone =>
          obtain ⟨rfl, rfl⟩ := Prod.mk.inj (Option.some.inj hq)
          exact .wake prev q hpc hprev hdone
      · cases hq
  | check =>
      simp only [State.runStep, hpc] at h
      obtain ⟨rfl, rfl⟩ := Prod.mk.inj (Option.some.inj h)
      split
      · next hstop => exact .dropped hpc hstop
      · next hstop => exact .kept hpc (by simpa using hstop)
  | claim =>
      simp only [State.runStep, hpc] at h
      split at h
      · next hclaimed =>
          obtain ⟨rfl, rfl⟩ := Prod.mk.inj (Option.some.inj h)
          exact .refused hpc hclaimed
      · next hclaimed =>
          obtain ⟨rfl, rfl⟩ := Prod.mk.inj (Option.some.inj h)
          exact .claimed hpc (by simpa using hclaimed)
  | pump =>
      simp only [State.runStep, hpc] at h
      cases x with
      | event delivered =>
          obtain ⟨rfl, rfl⟩ := Prod.mk.inj (Option.some.inj h)
          refine .event _ hpc ?_
          split
          · exact .inr rfl
          · exact .inl rfl
      | ended =>
          obtain ⟨rfl, rfl⟩ := Prod.mk.inj (Option.some.inj h)
          exact .returned _ hpc (.inl rfl)
      | panicked =>
          obtain ⟨rfl, rfl⟩ := Prod.mk.inj (Option.some.inj h)
          exact .returned _ hpc (.inr rfl)
  | pumped =>
      simp only [State.runStep, hpc] at h
      obtain ⟨rfl, rfl⟩ := Prod.mk.inj (Option.some.inj h)
      exact .pumped _ hpc
  | release =>
      simp only [State.runStep, hpc] at h
      obtain ⟨rfl, rfl⟩ := Prod.mk.inj (Option.some.inj h)
      exact .released hpc
  | forget =>
      simp only [State.runStep, hpc] at h
      split at h
      · next hstart =>
          obtain ⟨rfl, rfl⟩ := Prod.mk.inj (Option.some.inj h)
          by_cases hholder : s.holder = some i
          · simpa only [if_pos hholder] using Ran.forgot hpc hstart hholder
          · simpa only [if_neg hholder] using Ran.overtaken hpc hstart
      · cases h
  | onEnd =>
      simp only [State.runStep, hpc] at h
      obtain ⟨rfl, rfl⟩ := Prod.mk.inj (Option.some.inj h)
      exact .onEnd hpc
  | close =>
      simp only [State.runStep, hpc] at h
      obtain ⟨rfl, rfl⟩ := Prod.mk.inj (Option.some.inj h)
      exact .close hpc
  | done => simp [State.runStep, hpc] at h

inductive Stepped (s : State) : State → Prop where
  | start (t : State) (h : Started s t) : Stepped s t
  | cancel (i : ℕ) (r : Runner) (hi : s.runners[i]? = some r) :
      Stepped s (s.setRunner i { r with stop := true })
  | run (i : ℕ) (r : Runner) (base : State) (r' : Runner) (hi : s.runners[i]? = some r)
      (h : Ran s i r base r') : Stepped s (base.setRunner i r')

theorem State.step_cases {e : Event} (h : s.step e = some t) : Stepped s t := by
  cases e with
  | start =>
      simp only [State.step] at h
      split at h
      · next hstart =>
          obtain rfl := Option.some.inj h
          exact .start _ (.lock hstart)
      · cases h
  | go => exact .start t (State.startStep_cases h)
  | cancel i =>
      simp only [State.step, Option.bind_eq_bind, Option.bind_eq_some_iff] at h
      obtain ⟨r, hi, ht⟩ := h
      obtain rfl := Option.some.inj ht
      exact .cancel i r hi
  | run i x =>
      simp only [State.step, Option.bind_eq_bind, Option.bind_eq_some_iff] at h
      obtain ⟨r, hi, ⟨base, r'⟩, hrun, ht⟩ := h
      obtain rfl := Option.some.inj ht
      exact .run i r base r' hi (State.runStep_cases hrun)

theorem Ran.runners {base : State} (h : Ran s i r base r') : base.runners = s.runners := by
  cases h <;> rfl

theorem Ran.start {base : State} (h : Ran s i r base r') : base.start = s.start := by
  cases h <;> rfl

end

/-! ## Claims -/

variable {s t : State} {i : ℕ} {r r' : Runner}

/-! ## Stages -/

/-- Whether a runner has claimed, and released. -/
inductive Stage where
  | before
  | holding
  | after
  deriving DecidableEq

def Pc.stage : Pc → Stage
  | .wait _ | .check | .claim => .before
  | .pump | .pumped | .release => .holding
  | .forget | .onEnd | .close | .done => .after

/-- A call that has claimed is the runner that it is about to start. -/
def State.stage (s : State) (i : ℕ) : Stage :=
  match s.runners[i]? with
  | some r => r.pc.stage
  | none => if s.start = .go none ∧ i = s.runners.length then .holding else .before

theorem State.stage_of_runner (hi : s.runners[i]? = some r) : s.stage i = r.pc.stage := by
  simp only [State.stage, hi]

theorem State.stage_length (h : s.start = .go none) : s.stage s.runners.length = .holding := by
  have hnone : s.runners[s.runners.length]? = none := List.getElem?_eq_none le_rfl
  simp only [State.stage, hnone, h, and_self, if_true]

/-- What the stages depend on. -/
theorem State.stage_congr (hrunners : t.runners = s.runners)
    (hstart : t.start = .go none ↔ s.start = .go none) : t.stage = s.stage := by
  funext i
  simp only [State.stage, hrunners, hstart]

theorem State.stage_setRunner (hi : s.runners[i]? = some r) :
    (s.setRunner i r').stage = Function.update s.stage i r'.pc.stage := by
  have hlt : i < s.runners.length := (List.getElem?_eq_some_iff.1 hi).1
  funext j
  by_cases hij : j = i
  · subst hij
    rw [Function.update_self]
    apply State.stage_of_runner
    simp only [State.setRunner, List.getElem?_set, if_true, hlt]
  · rw [Function.update_of_ne hij]
    simp only [State.stage, State.setRunner, List.getElem?_set_ne (Ne.symm hij), List.length_set]

theorem State.stage_take {predecessor : Option ℕ} (h : s.start = .go predecessor) :
    (s.take predecessor).stage = s.stage := by
  funext j
  rcases Nat.lt_trichotomy j s.runners.length with hlt | heq | hgt
  · simp only [State.stage, State.take, List.getElem?_append_left hlt, List.getElem?_eq_getElem hlt]
  · subst heq
    have hnone : s.runners[s.runners.length]? = none := List.getElem?_eq_none le_rfl
    cases predecessor with
    | none =>
        rw [State.stage_length h]
        simp [State.stage, State.take, Runner.init, Pc.stage]
    | some prev => simp [State.stage, State.take, Runner.init, Pc.stage, h]
  · have hnone : s.runners[j]? = none := List.getElem?_eq_none hgt.le
    have hnone' : (s.runners ++ [Runner.init predecessor])[j]? = none := by
      apply List.getElem?_eq_none
      simp
      omega
    simp [State.stage, State.take, hnone, hnone', Nat.ne_of_gt hgt]

/-! ## Moves -/

/-- The claims and releases of a runner. -/
def State.claims (s : State) (i : ℕ) : ℕ := s.log.count (.claim i)

def State.releases (s : State) (i : ℕ) : ℕ := s.log.count (.release i)

/-- What a step does to the claim. -/
inductive Move (s t : State) : Prop where
  | keep (hstage : t.stage = s.stage) (hclaimed : t.claimed = s.claimed)
      (hclaims : t.claims = s.claims) (hreleases : t.releases = s.releases)
  | claim (i : ℕ) (hi : s.stage i = .before) (hfree : s.claimed = false)
      (hstage : t.stage = Function.update s.stage i .holding) (hclaimed : t.claimed = true)
      (hclaims : t.claims = Function.update s.claims i (s.claims i + 1))
      (hreleases : t.releases = s.releases)
  | release (i : ℕ) (hi : s.stage i = .holding)
      (hstage : t.stage = Function.update s.stage i .after) (hclaimed : t.claimed = false)
      (hclaims : t.claims = s.claims)
      (hreleases : t.releases = Function.update s.releases i (s.releases i + 1))
  | drop (i : ℕ) (hi : s.stage i = .before) (hstage : t.stage = Function.update s.stage i .after)
      (hclaimed : t.claimed = s.claimed) (hclaims : t.claims = s.claims)
      (hreleases : t.releases = s.releases)

theorem State.claims_concat (h : t.log = s.log ++ [.claim i]) :
    t.claims = Function.update s.claims i (s.claims i + 1) := by
  funext j
  by_cases hij : j = i
  · subst hij
    simp [State.claims, h]
  · simp [State.claims, h, Function.update_of_ne hij, List.count_singleton, Ne.symm hij]

theorem State.releases_concat (h : t.log = s.log ++ [.release i]) :
    t.releases = Function.update s.releases i (s.releases i + 1) := by
  funext j
  by_cases hij : j = i
  · subst hij
    simp [State.releases, h]
  · simp [State.releases, h, Function.update_of_ne hij, List.count_singleton, Ne.symm hij]

theorem State.claims_other {a : Act} (h : t.log = s.log ++ [a]) (ha : ∀ i, a ≠ .claim i) :
    t.claims = s.claims := by
  funext j
  simp [State.claims, h, List.count_singleton, ha j]

theorem State.releases_other {a : Act} (h : t.log = s.log ++ [a]) (ha : ∀ i, a ≠ .release i) :
    t.releases = s.releases := by
  funext j
  simp [State.releases, h, List.count_singleton, ha j]

theorem Started.move (h : Started s t) : Move s t := by
  have hkeep : ∀ start : Start, start ≠ .go none → s.start ≠ .go none →
      Move s { s with start := start } := by
    intro start hne hne'
    refine .keep (State.stage_congr rfl ?_) rfl rfl rfl
    exact ⟨fun h => absurd h hne, fun h => absurd h hne'⟩
  cases h with
  | lock hstart => exact hkeep _ (by simp) (by simp [hstart])
  | vacant hstart => exact hkeep _ (by simp) (by simp [hstart])
  | stopping prev r hstart hholder hprev => exact hkeep _ (by simp) (by simp [hstart])
  | ended prev hstart => exact hkeep _ (by simp) (by simp [hstart])
  | leaving prev r hstart hprev => exact hkeep _ (by simp) (by simp [hstart])
  | refused hstart hclaimed => exact hkeep _ (by simp) (by simp [hstart])
  | claimed hstart hclaimed =>
      have hnone : s.runners[s.runners.length]? = none := List.getElem?_eq_none le_rfl
      refine .claim s.runners.length ?_ hclaimed ?_ rfl (State.claims_concat rfl)
        (State.releases_other rfl (by simp))
      · simp [State.stage, hstart]
      · funext j
        by_cases hj : j = s.runners.length
        · subst hj
          rw [Function.update_self]
          exact State.stage_length rfl
        · rw [Function.update_of_ne hj]
          simp [State.stage, State.write, hj]
  | took predecessor hstart => exact .keep (State.stage_take hstart) rfl rfl rfl

theorem Ran.move {base : State} (hi : s.runners[i]? = some r) (h : Ran s i r base r') :
    Move s (base.setRunner i r') := by
  have hstage : (base.setRunner i r').stage = Function.update s.stage i r'.pc.stage := by
    have hsame : base.stage = s.stage := State.stage_congr h.runners (by rw [h.start])
    rw [State.stage_setRunner (h.runners ▸ hi), hsame]
  have hpc : s.stage i = r.pc.stage := State.stage_of_runner hi
  have hkeep : r'.pc.stage = r.pc.stage → (base.setRunner i r').stage = s.stage := by
    intro heq
    rw [hstage, heq, ← hpc, Function.update_eq_self]
  cases h with
  | wake prev q hr hprev hdone => exact .keep (hkeep (by simp [hr, Pc.stage])) rfl rfl rfl
  | dropped hr hstop => exact .drop i (by simp [hpc, hr, Pc.stage]) hstage rfl rfl rfl
  | kept hr hstop => exact .keep (hkeep (by simp [hr, Pc.stage])) rfl rfl rfl
  | refused hr hclaimed =>
      exact .drop i (by simp [hpc, hr, Pc.stage]) hstage rfl (State.claims_other rfl (by simp))
        (State.releases_other rfl (by simp))
  | claimed hr hclaimed =>
      exact .claim i (by simp [hpc, hr, Pc.stage]) hclaimed hstage rfl (State.claims_concat rfl)
        (State.releases_other rfl (by simp))
  | event pc hr hnext =>
      refine .keep (hkeep ?_) rfl (State.claims_other rfl (by simp))
        (State.releases_other rfl (by simp))
      rcases hnext with rfl | rfl <;> simp [hr, Pc.stage]
  | returned pc hr hnext =>
      refine .keep (hkeep ?_) rfl rfl rfl
      rcases hnext with rfl | rfl <;> simp [hr, Pc.stage]
  | pumped finished hr => exact .keep (hkeep (by simp [hr, Pc.stage])) rfl rfl rfl
  | released hr =>
      exact .release i (by simp [hpc, hr, Pc.stage]) hstage rfl (State.claims_other rfl (by simp))
        (State.releases_concat rfl)
  | forgot hr hstart hholder => exact .keep (hkeep (by simp [hr, Pc.stage])) rfl rfl rfl
  | overtaken hr hstart => exact .keep (hkeep (by simp [hr, Pc.stage])) rfl rfl rfl
  | onEnd hr => exact .keep (hkeep (by simp [hr, Pc.stage])) rfl rfl rfl
  | close hr => exact .keep (hkeep (by simp [hr, Pc.stage])) rfl rfl rfl

theorem Stepped.move (h : Stepped s t) : Move s t := by
  cases h with
  | start t h => exact h.move
  | cancel i r hi =>
      refine .keep ?_ rfl rfl rfl
      rw [State.stage_setRunner hi, ← State.stage_of_runner hi, Function.update_eq_self]
  | run i r base r' hi h => exact h.move hi

/-! ## The claim -/

/-- The source is claimed while one runner has it, and each runner has claimed and released as its
stage says. -/
structure Owned (s : State) : Prop where
  claimed : s.claimed = true ↔ ∃ i, s.stage i = .holding
  alone : ∀ i j, s.stage i = .holding → s.stage j = .holding → i = j
  before : ∀ i, s.stage i = .before → s.claims i = 0 ∧ s.releases i = 0
  holding : ∀ i, s.stage i = .holding → s.claims i = 1 ∧ s.releases i = 0
  after : ∀ i, s.stage i = .after → s.claims i = s.releases i ∧ s.claims i ≤ 1

theorem Owned.init : Owned State.init where
  claimed := by simp [State.init, State.stage]
  alone := by simp [State.init, State.stage]
  before := by simp [State.init, State.claims, State.releases]
  holding := by simp [State.init, State.stage]
  after := by simp [State.init, State.stage]

theorem Owned.claim (h : Owned s) {i : ℕ} (hi : s.stage i = .before) (hfree : s.claimed = false)
    (hstage : t.stage = Function.update s.stage i .holding) (hclaimed : t.claimed = true)
    (hclaims : t.claims = Function.update s.claims i (s.claims i + 1))
    (hreleases : t.releases = s.releases) : Owned t := by
  have hnone : ∀ j, s.stage j ≠ .holding := by
    intro j hj
    have hheld := h.claimed.2 ⟨j, hj⟩
    simp [hfree] at hheld
  have hother : ∀ j, j ≠ i → t.stage j = s.stage j ∧ t.claims j = s.claims j := by
    intro j hj
    rw [hstage, hclaims, Function.update_of_ne hj, Function.update_of_ne hj]
    exact ⟨rfl, rfl⟩
  have hself : t.stage i = .holding := by rw [hstage, Function.update_self]
  have hclaim : t.claims i = 1 := by rw [hclaims, Function.update_self, (h.before i hi).1]
  have honly : ∀ j, t.stage j = .holding → j = i := by
    intro j hj
    by_contra hne
    exact hnone j ((hother j hne).1 ▸ hj)
  constructor
  · exact ⟨fun _ => ⟨i, hself⟩, fun _ => hclaimed⟩
  · intro j k hj hk
    rw [honly j hj, honly k hk]
  · intro j hj
    have hne : j ≠ i := by
      rintro rfl
      simp [hself] at hj
    rw [(hother j hne).2, hreleases]
    exact h.before j ((hother j hne).1 ▸ hj)
  · intro j hj
    obtain rfl := honly j hj
    rw [hreleases]
    exact ⟨hclaim, (h.before j hi).2⟩
  · intro j hj
    have hne : j ≠ i := by
      rintro rfl
      simp [hself] at hj
    rw [(hother j hne).2, hreleases]
    exact h.after j ((hother j hne).1 ▸ hj)

theorem Owned.release (h : Owned s) {i : ℕ} (hi : s.stage i = .holding)
    (hstage : t.stage = Function.update s.stage i .after) (hclaimed : t.claimed = false)
    (hclaims : t.claims = s.claims)
    (hreleases : t.releases = Function.update s.releases i (s.releases i + 1)) : Owned t := by
  have hother : ∀ j, j ≠ i → t.stage j = s.stage j ∧ t.releases j = s.releases j := by
    intro j hj
    rw [hstage, hreleases, Function.update_of_ne hj, Function.update_of_ne hj]
    exact ⟨rfl, rfl⟩
  have hself : t.stage i = .after := by rw [hstage, Function.update_self]
  have hne : ∀ j, t.stage j ≠ .after → j ≠ i := by
    rintro j hj rfl
    exact hj hself
  have hnone : ∀ j, t.stage j ≠ .holding := by
    intro j hj
    have hji := hne j (by simp [hj])
    exact hji (h.alone j i ((hother j hji).1 ▸ hj) hi)
  constructor
  · simp [hclaimed, hnone]
  · intro j k hj hk
    exact absurd hj (hnone j)
  · intro j hj
    have hji := hne j (by simp [hj])
    rw [hclaims, (hother j hji).2]
    exact h.before j ((hother j hji).1 ▸ hj)
  · intro j hj
    exact absurd hj (hnone j)
  · intro j hj
    by_cases hji : j = i
    · subst hji
      obtain ⟨hclaim, hrelease⟩ := h.holding j hi
      rw [hclaims, hreleases, Function.update_self, hclaim, hrelease]
      exact ⟨rfl, le_rfl⟩
    · rw [hclaims, (hother j hji).2]
      exact h.after j ((hother j hji).1 ▸ hj)

theorem Owned.drop (h : Owned s) {i : ℕ} (hi : s.stage i = .before)
    (hstage : t.stage = Function.update s.stage i .after) (hclaimed : t.claimed = s.claimed)
    (hclaims : t.claims = s.claims) (hreleases : t.releases = s.releases) : Owned t := by
  have hother : ∀ j, j ≠ i → t.stage j = s.stage j := by
    intro j hj
    rw [hstage, Function.update_of_ne hj]
  have hself : t.stage i = .after := by rw [hstage, Function.update_self]
  have hne : ∀ j, t.stage j ≠ .after → j ≠ i := by
    rintro j hj rfl
    exact hj hself
  have hholding : ∀ j, t.stage j = .holding ↔ s.stage j = .holding := by
    intro j
    by_cases hji : j = i
    · subst hji
      simp [hself, hi]
    · rw [hother j hji]
  constructor
  · simp only [hclaimed, hholding]
    exact h.claimed
  · intro j k hj hk
    exact h.alone j k ((hholding j).1 hj) ((hholding k).1 hk)
  · intro j hj
    rw [hclaims, hreleases]
    exact h.before j (hother j (hne j (by simp [hj])) ▸ hj)
  · intro j hj
    rw [hclaims, hreleases]
    exact h.holding j ((hholding j).1 hj)
  · intro j hj
    rw [hclaims, hreleases]
    by_cases hji : j = i
    · subst hji
      obtain ⟨hclaim, hrelease⟩ := h.before j hi
      rw [hclaim, hrelease]
      exact ⟨rfl, zero_le_one⟩
    · exact h.after j (hother j hji ▸ hj)

theorem Owned.step (h : Owned s) (hstep : Stepped s t) : Owned t := by
  cases hstep.move with
  | keep hstage hclaimed hclaims hreleases =>
      constructor
      · rw [hclaimed, hstage]
        exact h.claimed
      · rw [hstage]
        exact h.alone
      · rw [hstage, hclaims, hreleases]
        exact h.before
      · rw [hstage, hclaims, hreleases]
        exact h.holding
      · rw [hstage, hclaims, hreleases]
        exact h.after
  | claim i hi hfree hstage hclaimed hclaims hreleases =>
      exact h.claim hi hfree hstage hclaimed hclaims hreleases
  | release i hi hstage hclaimed hclaims hreleases =>
      exact h.release hi hstage hclaimed hclaims hreleases
  | drop i hi hstage hclaimed hclaims hreleases =>
      exact h.drop hi hstage hclaimed hclaims hreleases

theorem Owned.claims_le (h : Owned s) (i : ℕ) : s.claims i ≤ 1 := by
  cases hi : s.stage i with
  | before => simp [(h.before i hi).1]
  | holding => simp [(h.holding i hi).1]
  | after => exact (h.after i hi).2

theorem Owned.releases_le (h : Owned s) (i : ℕ) : s.releases i ≤ s.claims i := by
  cases hi : s.stage i with
  | before => simp [(h.before i hi).2]
  | holding => simp [(h.holding i hi).2]
  | after => exact (h.after i hi).1.ge

/-! ## Pumping -/

/-- Only a runner that has the claim pumps. -/
theorem Stepped.log (h : Stepped s t) :
    t.log = s.log ∨ ∃ a, t.log = s.log ++ [a] ∧ ∀ i, a = .pump i → s.stage i = .holding := by
  cases h with
  | start t h =>
      cases h with
      | claimed hstart hclaimed => exact .inr ⟨_, rfl, by simp⟩
      | _ => exact .inl rfl
  | cancel i r hi => exact .inl rfl
  | run i r base r' hi h =>
      cases h with
      | refused hpc hclaimed => exact .inr ⟨_, rfl, by simp⟩
      | claimed hpc hclaimed => exact .inr ⟨_, rfl, by simp⟩
      | released hpc => exact .inr ⟨_, rfl, by simp⟩
      | event pc hpc hnext =>
          refine .inr ⟨_, rfl, ?_⟩
          intro j hj
          obtain rfl : i = j := by simpa using hj
          rw [State.stage_of_runner hi, hpc]
          rfl
      | _ => exact .inl rfl

/-- A refusal at the handover is of a claim of a source that is claimed. -/
theorem Stepped.refused {k : ℕ} (h : Stepped s t) (hk : Act.refused k ∈ t.log) :
    Act.refused k ∈ s.log ∨
      ∃ (i : ℕ) (r : Runner), s.runners[i]? = some r ∧ r.pc = .claim ∧ s.claimed = true := by
  cases h with
  | start t h =>
      cases h with
      | claimed hstart hclaimed => exact .inl (by simpa [State.write] using hk)
      | _ => exact .inl hk
  | cancel i r hi => exact .inl hk
  | run i r base r' hi h =>
      cases h with
      | refused hpc hclaimed => exact .inr ⟨i, r, hi, hpc, hclaimed⟩
      | claimed hpc hclaimed => exact .inl (by simpa [State.setRunner, State.write] using hk)
      | event pc hpc hnext => exact .inl (by simpa [State.setRunner, State.write] using hk)
      | released hpc => exact .inl (by simpa [State.setRunner, State.write] using hk)
      | _ => exact .inl hk

/-- No runner pumps after its release. -/
def Stopped (s : State) : Prop := ∀ i, ¬[Act.release i, Act.pump i].Sublist s.log

theorem Stopped.step (h : Stopped s) (howned : Owned s) (hstep : Stepped s t) : Stopped t := by
  intro i hsublist
  rcases hstep.log with hlog | ⟨a, hlog, ha⟩
  · rw [hlog] at hsublist
    exact h i hsublist
  · rw [hlog] at hsublist
    rcases pair_sublist_concat hsublist with hold | ⟨hmem, heq⟩
    · exact h i hold
    · have hreleases := (howned.holding i (ha i heq.symm)).2
      exact List.count_eq_zero.1 hreleases hmem

end Sky.Sources
