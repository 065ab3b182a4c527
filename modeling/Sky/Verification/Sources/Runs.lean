import Sky.Verification.Sources.Claims

/-! # Handover -/

namespace Sky.Sources

open Library

variable {s t : State} {i j : ℕ} {r r' q : Runner} {e : Event}

/-! ## Who is still to claim -/

/-- The runner is to claim at its handover: a cancel that comes before its check prevents that. -/
def Runner.bound (r : Runner) : Bool :=
  match r.pc with
  | .wait _ | .check => !r.stop
  | .claim => true
  | _ => false

/-- The runner has the claim or is to have it. -/
def Runner.active (r : Runner) : Bool := r.bound || r.pc.stage == .holding

/-- No call claims a free source at once while a runner is still to claim it at its handover. -/
def Event.orderly (s : State) : Event → Prop
  | .go => s.start = .claim → s.claimed = false → ∀ r ∈ s.runners, r.bound = false
  | _ => True

def Step (s : State) (e : Event) (t : State) : Prop := s.step e = some t

def OrderlyStep (s : State) (e : Event) (t : State) : Prop := s.step e = some t ∧ e.orderly s

theorem Ran.active {base : State} (h : Ran s i r base r') (hr' : r'.active = true) :
    r.active = true := by
  cases h with
  | wake prev q hpc hprev hdone =>
      simpa [Runner.active, Runner.bound, hpc, Pc.stage] using hr'
  | kept hpc hstop => simp [Runner.active, Runner.bound, hpc, hstop, Pc.stage]
  | claimed hpc hclaimed => simp [Runner.active, Runner.bound, hpc]
  | event pc hpc hnext => simp [Runner.active, hpc, Pc.stage]
  | returned pc hpc hnext => simp [Runner.active, hpc, Pc.stage]
  | pumped finished hpc => simp [Runner.active, hpc, Pc.stage]
  | _ => simp [Runner.active, Runner.bound, Pc.stage] at hr'

theorem Runner.active_of_stop (h : Runner.active { r with stop := true } = true) :
    r.active = true := by
  cases hpc : r.pc <;> simp_all [Runner.active, Runner.bound, Pc.stage]

/-! ## The chain of runners -/

/-- The active runners before one that waits are its predecessor and those before that one; before
one that does not wait there are none. The holder is the last of them. -/
structure Chain (s : State) : Prop where
  below : ∀ (i j : ℕ) (r q : Runner), s.runners[i]? = some r → s.runners[j]? = some q → i < j →
    r.active = true → ∃ p, q.pc = .wait p ∧ i ≤ p
  entry : ∀ (i : ℕ) (r : Runner), s.runners[i]? = some r → r.active = true →
    ∃ h, s.holder = some h ∧ i ≤ h
  waits : ∀ (j : ℕ) (q : Runner) (p : ℕ), s.runners[j]? = some q → q.pc = .wait p → p < j
  direct : s.start = .go none → ∀ r ∈ s.runners, r.active = false
  handover : ∀ p, s.start = .go (some p) → s.holder = some p ∧ p < s.runners.length
  ended : ∀ p, s.start = .ended p → s.holder = some p

theorem Chain.init : Chain State.init := by
  constructor <;> simp [State.init]

/-- A change of the call under the mutex alone. -/
theorem Chain.setStart (h : Chain s) {start : Start} (hdirect : start ≠ .go none)
    (hhandover : ∀ p, start = .go (some p) → s.holder = some p ∧ p < s.runners.length)
    (hended : ∀ p, start = .ended p → s.holder = some p) : Chain { s with start := start } where
  below := h.below
  entry := h.entry
  waits := h.waits
  direct hstart := absurd hstart hdirect
  handover := hhandover
  ended := hended

/-- A call that claims at once finds nobody active. -/
theorem Chain.claim (h : Chain s) (howned : Owned s) (hclaimed : s.claimed = false)
    (hbound : ∀ r ∈ s.runners, r.bound = false) :
    Chain ({ s with claimed := true, start := .go none }.write (.claim s.runners.length)) where
  below := h.below
  entry := h.entry
  waits := h.waits
  direct _ r hr := by
    obtain ⟨i, hi⟩ := List.mem_iff_getElem?.1 hr
    change s.runners[i]? = some r at hi
    have hstage : r.pc.stage ≠ .holding := by
      intro hholding
      have hheld := howned.claimed.2 ⟨i, (State.stage_of_runner hi).trans hholding⟩
      simp [hclaimed] at hheld
    simp [Runner.active, hbound r hr, hstage]
  handover p hp := by cases hp
  ended p hp := by cases hp

theorem Chain.take (h : Chain s) {predecessor : Option ℕ} (hstart : s.start = .go predecessor) :
    Chain (s.take predecessor) where
  below i j r q hi hj hij hactive := by
    rcases getElem?_concat_cases hj with ⟨rfl, rfl⟩ | hj
    · have hold : s.runners[i]? = some r := by
        rcases getElem?_concat_cases hi with ⟨rfl, _⟩ | hi
        · exact absurd hij (lt_irrefl _)
        · exact hi
      cases predecessor with
      | none =>
          have hnone := h.direct hstart r (List.mem_of_getElem? hold)
          simp [hactive] at hnone
      | some p =>
          obtain ⟨k, hk, hle⟩ := h.entry i r hold hactive
          obtain rfl : k = p := Option.some.inj (hk.symm.trans (h.handover p hstart).1)
          exact ⟨k, rfl, hle⟩
    · rcases getElem?_concat_cases hi with ⟨rfl, _⟩ | hi
      · have hlt := (List.getElem?_eq_some_iff.1 hj).1
        omega
      · exact h.below i j r q hi hj hij hactive
  entry i r hi _ := by
    refine ⟨s.runners.length, rfl, ?_⟩
    rcases getElem?_concat_cases hi with ⟨rfl, _⟩ | hi
    · exact le_rfl
    · exact (List.getElem?_eq_some_iff.1 hi).1.le
  waits j q p hj hp := by
    rcases getElem?_concat_cases hj with ⟨rfl, rfl⟩ | hj
    · cases predecessor with
      | none => cases hp
      | some prev =>
          obtain rfl := Pc.wait.inj hp
          exact (h.handover prev hstart).2
    · exact h.waits j q p hj hp
  direct hgo := by cases hgo
  handover p hp := by cases hp
  ended p hp := by cases hp

theorem Chain.start (h : Chain s) (howned : Owned s) (hstep : Started s t)
    (horderly : s.start = .claim → s.claimed = false → ∀ r ∈ s.runners, r.bound = false) :
    Chain t := by
  cases hstep with
  | lock hstart => exact h.setStart (by simp) (by simp) (by simp)
  | vacant hstart => exact h.setStart (by simp) (by simp) (by simp)
  | stopping prev r hstart hholder hprev =>
      refine h.setStart (by simp) (by simp) ?_
      rintro p ⟨⟩
      exact hholder
  | ended prev hstart => exact h.setStart (by simp) (by simp) (by simp)
  | leaving prev r hstart hprev =>
      refine h.setStart (by simp) ?_ (by simp)
      rintro p ⟨⟩
      exact ⟨h.ended prev hstart, (List.getElem?_eq_some_iff.1 hprev).1⟩
  | refused hstart hclaimed => exact h.setStart (by simp) (by simp) (by simp)
  | claimed hstart hclaimed => exact h.claim howned hclaimed (horderly hstart hclaimed)
  | took predecessor hstart => exact h.take hstart

/-- A runner that goes on as it stood in the chain, the rest of the state being the same. -/
theorem Chain.set (h : Chain s) (hi : s.runners[i]? = some r)
    (hactive : r'.active = true → r.active = true)
    (hbelow : ∀ (k : ℕ) (p : Runner), s.runners[k]? = some p → k < i → p.active = true →
      r'.pc = r.pc)
    (hwaits : ∀ p, r'.pc = .wait p → r.pc = .wait p)
    (hrunners : t.runners = s.runners.set i r') (hholder : t.holder = s.holder)
    (hstart : t.start = s.start) : Chain t where
  below k j p q hk hj hkj hp := by
    rw [hrunners] at hk hj
    have hold : ∃ p', s.runners[k]? = some p' ∧ p'.active = true := by
      rcases getElem?_set_cases hk with ⟨rfl, rfl⟩ | ⟨_, hk⟩
      · exact ⟨r, hi, hactive hp⟩
      · exact ⟨p, hk, hp⟩
    obtain ⟨p', hk', hp'⟩ := hold
    rcases getElem?_set_cases hj with ⟨rfl, rfl⟩ | ⟨_, hj⟩
    · rw [hbelow k p' hk' hkj hp']
      exact h.below k i p' r hk' hi hkj hp'
    · exact h.below k j p' q hk' hj hkj hp'
  entry k p hk hp := by
    rw [hrunners] at hk
    rw [hholder]
    rcases getElem?_set_cases hk with ⟨rfl, rfl⟩ | ⟨_, hk⟩
    · exact h.entry i r hi (hactive hp)
    · exact h.entry k p hk hp
  waits j q p hj hp := by
    rw [hrunners] at hj
    rcases getElem?_set_cases hj with ⟨rfl, rfl⟩ | ⟨_, hj⟩
    · exact h.waits i r p hi (hwaits p hp)
    · exact h.waits j q p hj hp
  direct hgo p hp := by
    rw [hrunners] at hp
    have hnone := h.direct (hstart ▸ hgo)
    rcases mem_set_cases hp with rfl | ⟨j, _, hj⟩
    · have hr := hnone r (List.mem_of_getElem? hi)
      by_contra htrue
      simp [hactive (by simpa using htrue)] at hr
    · exact hnone p (List.mem_of_getElem? hj)
  handover p hp := by
    rw [hrunners, hholder, List.length_set]
    exact h.handover p (hstart ▸ hp)
  ended p hp := by
    rw [hholder]
    exact h.ended p (hstart ▸ hp)

/-- The holder forgets its claim when nobody is active. -/
theorem Chain.forget (h : Chain s) (hi : s.runners[i]? = some r) (hpc : r.pc = .forget)
    (hholder : s.holder = some i) (hstart : s.start = .idle) : Chain { s with holder := none } where
  below := h.below
  entry k p hk hp := by
    obtain ⟨_, heq, hle⟩ := h.entry k p hk hp
    obtain rfl := Option.some.inj (hholder.symm.trans heq)
    rcases hle.lt_or_eq with hlt | rfl
    · obtain ⟨_, hwait, _⟩ := h.below k i p r hk hi hlt hp
      cases hpc.symm.trans hwait
    · obtain rfl := Option.some.inj (hi.symm.trans hk)
      simp [Runner.active, Runner.bound, hpc, Pc.stage] at hp
  waits := h.waits
  direct hgo := by cases hstart.symm.trans hgo
  handover p hp := by cases hstart.symm.trans hp
  ended p hp := by cases hstart.symm.trans hp

/-- Nobody before a runner is active once its predecessor is done. -/
theorem Chain.woken (h : Chain s) {prev k : ℕ} {p : Runner} (hi : s.runners[i]? = some r)
    (hpc : r.pc = .wait prev) (hprev : s.runners[prev]? = some q) (hdone : q.pc = .done)
    (hk : s.runners[k]? = some p) (hlt : k < i) : p.active = false := by
  by_contra htrue
  have hactive : p.active = true := by simpa using htrue
  obtain ⟨prev', hwait, hle⟩ := h.below k i p r hk hi hlt hactive
  obtain rfl : prev = prev' := Pc.wait.inj (hpc.symm.trans hwait)
  rcases hle.lt_or_eq with hlt | rfl
  · obtain ⟨_, hwait, _⟩ := h.below k prev p q hk hprev hlt hactive
    cases hdone.symm.trans hwait
  · obtain rfl := Option.some.inj (hprev.symm.trans hk)
    simp [Runner.active, Runner.bound, hdone, Pc.stage] at hactive

theorem Chain.run {base : State} (h : Chain s) (hi : s.runners[i]? = some r)
    (hran : Ran s i r base r') : Chain (base.setRunner i r') := by
  -- A runner that does not wait has nobody active before it, so only a wake needs an argument.
  have hfirst : (∀ p, r.pc ≠ .wait p) → ∀ (k : ℕ) (p : Runner), s.runners[k]? = some p → k < i →
      p.active = true → r'.pc = r.pc := by
    intro hpc k p hk hlt hp
    obtain ⟨_, hwait, _⟩ := h.below k i p r hk hi hlt hp
    exact absurd hwait (hpc _)
  have hwaits : ∀ p, r'.pc = .wait p → r.pc = .wait p := by
    intro p hp
    cases hran with
    | event pc hpc hnext => rcases hnext with rfl | rfl <;> cases hp
    | returned pc hpc hnext => rcases hnext with rfl | rfl <;> cases hp
    | _ => cases hp
  have hrunners : (base.setRunner i r').runners = s.runners.set i r' := by
    rw [State.setRunner, hran.runners]
  have hactive := hran.active
  have hset := h.set (t := base.setRunner i r') hi hactive
  cases hran with
  | wake prev q hpc hprev hdone =>
      refine hset ?_ hwaits hrunners rfl rfl
      intro k p hk hlt hp
      simp [h.woken hi hpc hprev hdone hk hlt] at hp
  | forgot hpc hstart hholder =>
      refine (h.forget hi hpc hholder hstart).set hi hactive ?_ hwaits hrunners rfl rfl
      exact hfirst (by simp [hpc])
  | dropped hpc hstop => exact hset (hfirst (by simp [hpc])) hwaits hrunners rfl rfl
  | kept hpc hstop => exact hset (hfirst (by simp [hpc])) hwaits hrunners rfl rfl
  | refused hpc hclaimed => exact hset (hfirst (by simp [hpc])) hwaits hrunners rfl rfl
  | claimed hpc hclaimed => exact hset (hfirst (by simp [hpc])) hwaits hrunners rfl rfl
  | event pc hpc hnext => exact hset (hfirst (by simp [hpc])) hwaits hrunners rfl rfl
  | returned pc hpc hnext => exact hset (hfirst (by simp [hpc])) hwaits hrunners rfl rfl
  | pumped finished hpc => exact hset (hfirst (by simp [hpc])) hwaits hrunners rfl rfl
  | released hpc => exact hset (hfirst (by simp [hpc])) hwaits hrunners rfl rfl
  | overtaken hpc hstart => exact hset (hfirst (by simp [hpc])) hwaits hrunners rfl rfl
  | onEnd hpc => exact hset (hfirst (by simp [hpc])) hwaits hrunners rfl rfl
  | close hpc => exact hset (hfirst (by simp [hpc])) hwaits hrunners rfl rfl

theorem Chain.cancel (h : Chain s) (hi : s.runners[i]? = some r) :
    Chain (s.setRunner i { r with stop := true }) :=
  h.set hi Runner.active_of_stop (fun _ _ _ _ _ => rfl) (fun _ hp => hp) rfl rfl rfl

/-- A runner that claims at its handover finds the source free. -/
theorem Chain.free (h : Chain s) (howned : Owned s) (hi : s.runners[i]? = some r)
    (hpc : r.pc = .claim) : s.claimed = false := by
  have hactive : r.active = true := by simp [Runner.active, Runner.bound, hpc]
  by_contra htrue
  obtain ⟨j, hj⟩ := howned.claimed.1 (by simpa using htrue)
  simp only [State.stage] at hj
  split at hj
  · next q hq =>
      have hholding : q.active = true := by simp [Runner.active, hj]
      rcases Nat.lt_trichotomy i j with hlt | rfl | hgt
      · obtain ⟨_, hwait, _⟩ := h.below i j r q hi hq hlt hactive
        simp [hwait, Pc.stage] at hj
      · obtain rfl := Option.some.inj (hi.symm.trans hq)
        simp [hpc, Pc.stage] at hj
      · obtain ⟨_, hwait, _⟩ := h.below j i q r hq hi hgt hholding
        cases hpc.symm.trans hwait
  · split at hj
    · next hgo =>
        have hnone := h.direct hgo.1 r (List.mem_of_getElem? hi)
        simp [hactive] at hnone
    · cases hj

/-! ## Every run -/

/-- What every state keeps that orderly steps reach. -/
structure Sound (s : State) : Prop where
  owned : Owned s
  chain : Chain s
  admitted : ∀ i, Act.refused i ∉ s.log

theorem Sound.init : Sound State.init where
  owned := .init
  chain := .init
  admitted := by simp [State.init]

theorem Sound.step (h : Sound s) (hstep : OrderlyStep s e t) : Sound t := by
  obtain ⟨hstep, horderly⟩ := hstep
  refine ⟨h.owned.step (State.step_cases hstep), ?_, ?_⟩
  · cases e with
    | start =>
        simp only [State.step] at hstep
        split at hstep
        · obtain rfl := Option.some.inj hstep
          exact h.chain.setStart (by simp) (by simp) (by simp)
        · cases hstep
    | go => exact h.chain.start h.owned (State.startStep_cases hstep) horderly
    | cancel i =>
        simp only [State.step, Option.bind_eq_bind, Option.bind_eq_some_iff] at hstep
        obtain ⟨r, hi, ht⟩ := hstep
        obtain rfl := Option.some.inj ht
        exact h.chain.cancel hi
    | run i x =>
        simp only [State.step, Option.bind_eq_bind, Option.bind_eq_some_iff] at hstep
        obtain ⟨r, hi, ⟨base, r'⟩, hrun, ht⟩ := hstep
        obtain rfl := Option.some.inj ht
        exact h.chain.run hi (State.runStep_cases hrun)
  · intro k hk
    rcases (State.step_cases hstep).refused hk with hold | ⟨i, r, hi, hpc, hclaimed⟩
    · exact h.admitted k hold
    · simp [h.chain.free h.owned hi hpc] at hclaimed

theorem State.step_wake {p : ℕ} (hi : s.runners[i]? = some r) (hpc : r.pc = .wait p)
    (hp : s.runners[p]? = some q) (hdone : q.pc = .done) (x : Pumped) :
    s.step (.run i x) = some (s.setRunner i { r with pc := .check }) := by
  simp [State.step, State.runStep, hi, hpc, hp, hdone]

theorem State.step_check (hi : s.runners[i]? = some r) (hpc : r.pc = .check)
    (hstop : r.stop = false) (x : Pumped) :
    s.step (.run i x) = some (s.setRunner i { r with pc := .claim }) := by
  simp [State.step, State.runStep, hi, hpc, hstop]

theorem State.step_claim (hi : s.runners[i]? = some r) (hpc : r.pc = .claim)
    (hclaimed : s.claimed = false) (x : Pumped) :
    s.step (.run i x) =
      some (({ s with claimed := true }.write (.claim i)).setRunner i { r with pc := .pump }) := by
  simp [State.step, State.runStep, hi, hpc, hclaimed]

theorem State.getElem?_setRunner (hi : s.runners[i]? = some r) (r' : Runner) :
    (s.setRunner i r').runners[i]? = some r' := by
  have hlt : i < s.runners.length := (List.getElem?_eq_some_iff.1 hi).1
  simp [State.setRunner, hlt]

/-- A runner that was not cancelled claims in three steps once its predecessor is done. -/
theorem Sound.claims (h : Sound s) {p : ℕ} {pred : Runner} (hj : s.runners[j]? = some r)
    (hpc : r.pc = .wait p) (hstop : r.stop = false) (hp : s.runners[p]? = some pred)
    (hdone : pred.pc = .done) (x : Pumped) :
    ∃ t, Run Step s [.run j x, .run j x, .run j x] t ∧ Act.claim j ∈ t.log := by
  have hwake := State.step_wake hj hpc hp hdone x
  have hj' := State.getElem?_setRunner hj { r with pc := .check }
  have hcheck := State.step_check hj' rfl hstop x
  have hj'' := State.getElem?_setRunner hj' { r with pc := .claim }
  have hsound := (h.step ⟨hwake, trivial⟩).step ⟨hcheck, trivial⟩
  have hclaim := State.step_claim hj'' rfl (hsound.chain.free hsound.owned hj'' rfl) x
  refine ⟨_, .cons hwake (.cons hcheck (.cons hclaim (.nil _))), ?_⟩
  simp [State.setRunner, State.write]

/-- At most one runner pumps, none after its release, and each releases what it claimed. In orderly
runs no claim at a handover is refused, and a runner whose predecessor is done gets its claim. -/
theorem handover {es : List Event} (hrun : Run Step State.init es s) :
    (∀ (i j : ℕ) (r q : Runner), s.runners[i]? = some r → s.runners[j]? = some q →
      r.pc = .pump → q.pc = .pump → i = j) ∧
    (∀ i, ¬[Act.release i, Act.pump i].Sublist s.log) ∧
    (∀ i, s.log.count (.release i) ≤ s.log.count (.claim i) ∧ s.log.count (.claim i) ≤ 1 ∧
      ∀ r : Runner, s.runners[i]? = some r → r.pc = .done →
        s.log.count (.release i) = s.log.count (.claim i)) ∧
    (Run OrderlyStep State.init es s → (∀ i, Act.refused i ∉ s.log) ∧
      ∀ (j p : ℕ) (r pred : Runner) (x : Pumped), s.runners[j]? = some r → r.pc = .wait p →
        r.stop = false → s.runners[p]? = some pred → pred.pc = .done →
        ∃ t, Run Step s [.run j x, .run j x, .run j x] t ∧ Act.claim j ∈ t.log) := by
  have hboth : Owned s ∧ Stopped s := by
    refine hrun.invariant (P := fun u => Owned u ∧ Stopped u) ?_
      ⟨.init, by simp [Stopped, State.init]⟩
    intro a e b hab hstep
    obtain ⟨howned, hstopped⟩ := hab
    have hcases := State.step_cases hstep
    exact ⟨howned.step hcases, hstopped.step howned hcases⟩
  obtain ⟨howned, hstopped⟩ := hboth
  refine ⟨?_, hstopped, ?_, ?_⟩
  · intro i j r q hi hj hr hq
    apply howned.alone
    · rw [State.stage_of_runner hi, hr]
      rfl
    · rw [State.stage_of_runner hj, hq]
      rfl
  · intro i
    refine ⟨howned.releases_le i, howned.claims_le i, ?_⟩
    intro r hi hdone
    have hafter : s.stage i = .after := by
      rw [State.stage_of_runner hi, hdone]
      rfl
    exact (howned.after i hafter).1.symm
  · intro horderly
    have hsound : Sound s := horderly.invariant (fun _ _ _ h hstep => h.step hstep) .init
    refine ⟨hsound.admitted, ?_⟩
    intro j p r pred x hj hpc hstop hp hdone
    exact hsound.claims hj hpc hstop hp hdone x

/-- A dropped subscription is asked for again, and the new runner claims when the old one is
done. -/
theorem retaken_claims : ∃ s t : State,
    Run OrderlyStep State.init
      [.start, .go, .go, .go, .cancel 0, .run 0 .ended, .start, .go, .go, .go, .run 0 .ended,
        .run 0 .ended, .run 0 .ended, .run 0 .ended, .run 0 .ended] s ∧
      s.runners = [⟨.done, true, false⟩, ⟨.wait 0, false, false⟩] ∧
      (∀ i, Act.refused i ∉ s.log) ∧
      Run Step s [.run 1 .ended, .run 1 .ended, .run 1 .ended] t ∧ Act.claim 1 ∈ t.log := by
  have hrun : ∃ s : State, Run OrderlyStep State.init
      [.start, .go, .go, .go, .cancel 0, .run 0 .ended, .start, .go, .go, .go, .run 0 .ended,
        .run 0 .ended, .run 0 .ended, .run 0 .ended, .run 0 .ended] s ∧
      s.runners = [⟨.done, true, false⟩, ⟨.wait 0, false, false⟩] := by
    refine ⟨_, .cons ⟨rfl, trivial⟩ (.cons ⟨rfl, ?_⟩ (.cons ⟨rfl, ?_⟩ (.cons ⟨rfl, ?_⟩
      (.cons ⟨rfl, trivial⟩ (.cons ⟨rfl, trivial⟩ (.cons ⟨rfl, trivial⟩ (.cons ⟨rfl, ?_⟩
      (.cons ⟨rfl, ?_⟩ (.cons ⟨rfl, ?_⟩ (.cons ⟨rfl, trivial⟩ (.cons ⟨rfl, trivial⟩
      (.cons ⟨rfl, trivial⟩ (.cons ⟨rfl, trivial⟩ (.cons ⟨rfl, trivial⟩
      (.nil _))))))))))))))), rfl⟩
    · simp [Event.orderly, State.init]
    · simp [Event.orderly, State.init]
    · simp [Event.orderly, State.write]
    · simp [Event.orderly, State.take]
    · simp [Event.orderly, State.take]
    · simp [Event.orderly, State.take]
  obtain ⟨s, hrun, hrunners⟩ := hrun
  obtain ⟨_, _, _, horderly⟩ := handover (hrun.mono fun _ _ _ h => h.1)
  obtain ⟨hadmitted, hclaims⟩ := horderly hrun
  obtain ⟨t, ht, hclaim⟩ := hclaims 1 0 ⟨.wait 0, false, false⟩ ⟨.done, true, false⟩ .ended
    (by simp [hrunners]) rfl rfl (by simp [hrunners]) rfl
  exact ⟨s, t, hrun, hrunners, hadmitted, ht, hclaim⟩

/-- A third subscriber claims between the release of the first and the claim of the second, which
is then refused. -/
theorem overtaken_refused : ∃ s : State,
    Run Step State.init
      [.start, .go, .go, .go, .cancel 0, .run 0 .ended, .start, .go, .go, .go, .run 0 .ended,
        .run 0 .ended, .start, .go, .go, .go, .run 0 .ended, .run 0 .ended, .run 0 .ended,
        .run 1 .ended, .run 1 .ended, .run 1 .ended] s ∧
      s.runners[1]? = some ⟨.forget, false, false⟩ ∧ Act.refused 1 ∈ s.log :=
  ⟨_, Run.iff_foldlM.2 rfl, rfl, by decide⟩

end Sky.Sources
