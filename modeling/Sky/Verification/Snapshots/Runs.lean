import Sky.Verification.Snapshots.Steps

/-! # Suspended and retired snapshots stay put -/

namespace Sky.Snapshots

open Library

variable {M : Type} {s t : State M} {i : ℕ} {x : Input} {e : Event M} {id : RunId}

/-! ## Suspended snapshots -/

/-- No task that passed the suspension check of an id is still to write or discard when the id is
marked. -/
def Event.quiet (s : State M) : Event M → Prop
  | .call _ => True
  | .run i _ => ∀ pc, s.tasks[i]? = some pc → ∀ id, pc.suspends = some id →
      ∀ other ∈ s.tasks, ¬other.passed id

def QuietStep (s : State M) (e : Event M) (t : State M) : Prop := s.step e = some t ∧ e.quiet s

theorem Event.quiet_of_none {pc : Pc M} (hi : s.tasks[i]? = some pc) (h : pc.suspends = none) :
    Event.quiet s (.run i x) := by
  intro pc' hpc' id hid
  obtain rfl := Option.some.inj (hi.symm.trans hpc')
  cases h.symm.trans hid

/-- A suspended id has no write or discard to come. -/
def Settled (s : State M) : Prop := ∀ id, s.suspended id = true → ∀ pc ∈ s.tasks, ¬pc.passed id

theorem Settled.init (store : RunId → Option M) : Settled (State.init store) := by
  intro id h
  cases h

theorem Settled.call (h : Settled s) (c : Call M) :
    Settled { s with tasks := s.tasks ++ [.start c] } := by
  intro id hid pc hpc
  rcases List.mem_append.1 hpc with hpc | hpc
  · exact h id hid pc hpc
  · obtain rfl := List.mem_singleton.1 hpc
    exact not_false

theorem Settled.run {pc next : Pc M} {base : State M} (h : Settled s)
    (hi : s.tasks[i]? = some pc) (hadv : Advanced s pc base next)
    (hquiet : ∀ id, pc.suspends = some id → ∀ other ∈ s.tasks, ¬other.passed id) :
    Settled (base.setTask i next) := by
  intro id hid other hother
  have hmem : other = next ∨ other ∈ s.tasks := by
    simp only [State.setTask, hadv.tasks] at hother
    rcases mem_set_cases hother with heq | ⟨j, _, hj⟩
    · exact .inl heq
    · exact .inr (List.mem_of_getElem? hj)
  change base.suspended id = true at hid
  rcases hadv.suspended with ⟨_, hsame⟩ | ⟨id', hsuspends, hmark, hnext⟩
  · rw [hsame] at hid
    rcases hmem with rfl | hmem
    · intro hpassed
      rcases hadv.passed hpassed with hpc | hfalse
      · exact h id hid pc (List.mem_of_getElem? hi) hpc
      · simp [hid] at hfalse
    · exact h id hid other hmem
  · rcases hmem with rfl | hmem
    · exact hnext id
    · by_cases heq : id = id'
      · subst heq
        exact hquiet id hsuspends other hmem
      · rw [hmark, Function.update_of_ne heq] at hid
        exact h id hid other hmem

theorem Settled.step (h : Settled s) (hstep : QuietStep s e t) : Settled t := by
  obtain ⟨hstep, hquiet⟩ := hstep
  cases e with
  | call c =>
      obtain rfl := Option.some.inj hstep
      exact h.call c
  | run i x =>
      simp only [State.step, Option.bind_eq_bind, Option.bind_eq_some_iff] at hstep
      obtain ⟨pc, hpc, ⟨base, next⟩, hadvance, ht⟩ := hstep
      obtain rfl := Option.some.inj ht
      exact h.run hpc (State.advance_cases hadvance) (hquiet pc hpc)

/-- Any step leaves a suspended snapshot as it is. -/
theorem Settled.store (h : Settled s) (hid : s.suspended id = true) (hstep : Stepped s t) :
    t.store id = s.store id := by
  cases hstep with
  | call c => rfl
  | run i pc base next hi hadv => exact hadv.store_eq (h id hid pc (List.mem_of_getElem? hi))

theorem Stepped.suspended (h : Stepped s t) (hid : s.suspended id = true) :
    t.suspended id = true := by
  cases h with
  | call c => exact hid
  | run i pc base next hi hadv =>
      change base.suspended id = true
      rcases hadv.suspended with ⟨_, hsame⟩ | ⟨id', _, hmark, _⟩
      · rw [hsame]
        exact hid
      · rw [hmark, Function.update_apply]
        split
        · rfl
        · exact hid

theorem Settled.keeps {es : List (Event M)} (h : Settled s) (hid : s.suspended id = true)
    (hrun : Run QuietStep s es t) : t.store id = s.store id := by
  have hkept : Settled t ∧ t.suspended id = true ∧ t.store id = s.store id := by
    refine hrun.invariant (P := fun u =>
      Settled u ∧ u.suspended id = true ∧ u.store id = s.store id) ?_ ⟨h, hid, rfl⟩
    intro a e b ⟨hsettled, hsuspended, hstore⟩ hstep
    have hcases := State.step_cases hstep.1
    exact ⟨hsettled.step hstep, hcases.suspended hsuspended,
      (hsettled.store hsuspended hcases).trans hstore⟩
  exact hkept.2.2

/-! ## Locks -/

/-- A held stripe is marked, and has one holder. -/
structure Locked (s : State M) : Prop where
  held : ∀ (i : ℕ) (pc : Pc M) (k : ℕ), s.tasks[i]? = some pc → pc.holds = some k → s.stripes k = true
  alone : ∀ (i j : ℕ) (pc pc' : Pc M) (k : ℕ), s.tasks[i]? = some pc →
    s.tasks[j]? = some pc' → pc.holds = some k → pc'.holds = some k → i = j

theorem Locked.call (h : Locked s) (c : Call M) :
    Locked { s with tasks := s.tasks ++ [.start c] } where
  held i pc k hi hk := by
    rcases getElem?_concat_cases hi with ⟨_, rfl⟩ | hi
    · cases hk
    · exact h.held i pc k hi hk
  alone i j pc pc' k hi hj hk hk' := by
    rcases getElem?_concat_cases hi with ⟨_, rfl⟩ | hi
    · cases hk
    · rcases getElem?_concat_cases hj with ⟨_, rfl⟩ | hj
      · cases hk'
      · exact h.alone i j pc pc' k hi hj hk hk'

theorem Locked.run {pc next : Pc M} {base : State M} (h : Locked s)
    (hi : s.tasks[i]? = some pc) (hadv : Advanced s pc base next) :
    Locked (base.setTask i next) := by
  have htasks : (base.setTask i next).tasks = s.tasks.set i next := by
    rw [State.setTask, hadv.tasks]
  -- No other task holds the stripe that this one holds after its step.
  have hother : ∀ j pc' k, i ≠ j → s.tasks[j]? = some pc' → next.holds = some k →
      pc'.holds ≠ some k := by
    intro j pc' k hij hj hk hk'
    cases hadv.stripes with
    | keep hholds hstripes => exact hij (h.alone i j pc pc' k hi hj (hholds ▸ hk) hk')
    | acquire k' hpc hnext hfree hstripes =>
        obtain rfl : k' = k := Option.some.inj (hnext.symm.trans hk)
        exact absurd (h.held j pc' k' hj hk') (by simp [hfree])
    | release k' hpc hnext hstripes => cases hnext.symm.trans hk
  constructor
  · intro j pc' k hj hk
    rw [htasks] at hj
    change base.stripes k = true
    rcases getElem?_set_cases hj with ⟨_, rfl⟩ | ⟨hij, hj⟩
    · cases hadv.stripes with
      | keep hholds hstripes =>
          rw [hstripes]
          exact h.held i pc k hi (hholds ▸ hk)
      | acquire k' hpc hnext hfree hstripes =>
          obtain rfl : k' = k := Option.some.inj (hnext.symm.trans hk)
          simp [hstripes]
      | release k' hpc hnext hstripes => cases hnext.symm.trans hk
    · cases hadv.stripes with
      | keep hholds hstripes =>
          rw [hstripes]
          exact h.held j pc' k hj hk
      | acquire k' hpc hnext hfree hstripes =>
          rw [hstripes, Function.update_apply]
          split
          · rfl
          · exact h.held j pc' k hj hk
      | release k' hpc hnext hstripes =>
          have hne : k ≠ k' := by
            rintro rfl
            exact hij (h.alone i j pc pc' k hi hj hpc hk)
          rw [hstripes, Function.update_of_ne hne]
          exact h.held j pc' k hj hk
  · intro j j' pc' pc'' k hj hj' hk hk'
    rw [htasks] at hj hj'
    rcases getElem?_set_cases hj with ⟨hij, hpc'⟩ | ⟨hij, hj⟩
    · rcases getElem?_set_cases hj' with ⟨hij', _⟩ | ⟨hij', hold'⟩
      · exact hij.symm.trans hij'
      · rw [hpc'] at hk
        exact absurd hk' (hother j' pc'' k hij' hold' hk)
    · rcases getElem?_set_cases hj' with ⟨_, hpc''⟩ | ⟨_, hold'⟩
      · rw [hpc''] at hk'
        exact absurd hk (hother j pc' k hij hj hk')
      · exact h.alone j j' pc' pc'' k hj hold' hk hk'

/-! ## Retired snapshots -/

/-- While a retire that has discarded still holds the lock, nothing is stored. -/
def Discarded (s : State M) : Prop :=
  ∀ id, .retireUnlock id true ∈ s.tasks → s.store id = none

/-- What every state that the calls reach keeps. -/
structure Sound (s : State M) : Prop where
  locked : Locked s
  discarded : Discarded s

theorem Sound.init (store : RunId → Option M) : Sound (State.init store) where
  locked := { held := by simp [State.init], alone := by simp [State.init] }
  discarded := by simp [Discarded, State.init]

theorem Discarded.run {pc next : Pc M} {base : State M} (h : Discarded s) (hlocked : Locked s)
    (hi : s.tasks[i]? = some pc) (hadv : Advanced s pc base next) :
    Discarded (base.setTask i next) := by
  intro id hmem
  change base.store id = none
  simp only [State.setTask, hadv.tasks] at hmem
  rcases mem_set_cases hmem with hnext | ⟨j, hij, hj⟩
  · exact hadv.discards hnext.symm
  · rcases hadv.store id with heq | hnone | hwrites
    · rw [heq]
      exact h id (List.mem_of_getElem? hj)
    · exact hnone
    · exact absurd (hlocked.alone i j pc _ _ hi hj (Pc.holds_of_writes hwrites) rfl) hij

theorem Sound.step (h : Sound s) (hstep : Stepped s t) : Sound t := by
  cases hstep with
  | call c =>
      refine ⟨h.locked.call c, ?_⟩
      intro id hmem
      rcases List.mem_append.1 hmem with hmem | hmem
      · exact h.discarded id hmem
      · cases List.mem_singleton.1 hmem
  | run i pc base next hi hadv =>
      exact ⟨h.locked.run hi hadv, h.discarded.run h.locked hi hadv⟩

/-- Nothing is stored for the id, and no write of it is about to come. -/
structure Gone (id : RunId) (s : State M) : Prop where
  retired : s.isRetired id = true
  store : s.store id = none
  idle : ∀ pc ∈ s.tasks, ¬pc.writes id

/-- A step after which the id still has its retired mark. -/
def KeptStep (id : RunId) (s : State M) (e : Event M) (t : State M) : Prop :=
  s.step e = some t ∧ t.isRetired id = true

theorem Gone.step (h : Gone id s) (hstep : KeptStep id s e t) : Gone id t := by
  refine ⟨hstep.2, ?_, ?_⟩
  · cases State.step_cases hstep.1 with
    | call c => exact h.store
    | run i pc base next hi hadv =>
        rcases hadv.store id with heq | hnone | hwrites
        · exact heq.trans h.store
        · exact hnone
        · exact absurd hwrites (h.idle pc (List.mem_of_getElem? hi))
  · intro other hother
    cases State.step_cases hstep.1 with
    | call c =>
        rcases List.mem_append.1 hother with hother | hother
        · exact h.idle other hother
        · obtain rfl := List.mem_singleton.1 hother
          exact not_false
    | run i pc base next hi hadv =>
        simp only [State.setTask, hadv.tasks] at hother
        rcases mem_set_cases hother with rfl | ⟨j, _, hj⟩
        · intro hwrites
          exact absurd (hadv.writes hwrites) (by simp [h.retired])
        · exact h.idle other (List.mem_of_getElem? hj)

/-- A retire that has discarded leaves nothing behind when it returns. -/
theorem Sound.gone (h : Sound s) (hi : s.tasks[i]? = some (.retireUnlock id true))
    (hstep : s.step (.run i x) = some t) (hretired : t.isRetired id = true) : Gone id t := by
  simp only [State.step, hi, State.advance, Option.bind_eq_bind, Option.bind_some,
    Option.pure_def, Option.some.injEq] at hstep
  subst hstep
  refine ⟨hretired, h.discarded id (List.mem_of_getElem? hi), ?_⟩
  intro pc hpc hwrites
  rcases mem_set_cases hpc with rfl | ⟨j, hij, hj⟩
  · exact hwrites.elim
  · exact hij (h.locked.alone i j _ pc _ hi hj rfl (Pc.holds_of_writes hwrites))

/-! ## Every run -/

def Step (s : State M) (e : Event M) (t : State M) : Prop := s.step e = some t

/-- A suspended snapshot stays as it is in every run of quiet steps, and a discarded one does not
come back in any run that keeps its mark. -/
theorem snapshots_stay (store : RunId → Option M) :
    (∀ es s, Run QuietStep (State.init store) es s → ∀ id, s.suspended id = true →
      ∀ fs t, Run QuietStep s fs t → t.store id = s.store id) ∧
    (∀ es s, Run Step (State.init store) es s → ∀ i x id t,
      s.tasks[i]? = some (.retireUnlock id true) → s.step (.run i x) = some t →
      t.isRetired id = true → ∀ fs u, Run (KeptStep id) t fs u → u.store id = none) := by
  constructor
  · intro es s hrun id hid fs t hafter
    have hsettled : Settled s :=
      hrun.invariant (fun _ _ _ h hstep => h.step hstep) (Settled.init store)
    exact hsettled.keeps hid hafter
  · intro es s hrun i x id t hi hstep hretired fs u hafter
    have hsound : Sound s :=
      hrun.invariant (fun _ _ _ h hstep => h.step (State.step_cases hstep)) (Sound.init store)
    have hgone : Gone id u :=
      hafter.invariant (fun _ _ _ h hstep => h.step hstep) (hsound.gone hi hstep hretired)
    exact hgone.store

/-- The restore of `[1]` fails, and a later persist is refused. `[2]` is retired. -/
theorem suspendedAndRetired_stay : ∃ s t u v : State ℕ,
    (Run QuietStep (State.init fun _ => some 0)
      [.call (.boot [1]), .run 0 {}, .run 0 { restored := false }, .run 0 {}] s ∧
      s.suspended [1] = true ∧ Run QuietStep s [.call (.persist [1] 7), .run 1 {}] t ∧
      t.store [1] = s.store [1]) ∧
    (Run Step (State.init fun _ => some 0)
      [.call (.retire [2]), .run 0 {}, .run 0 {}, .run 0 {}, .run 0 {}, .run 0 {}, .run 0 {}] u ∧
      u.step (.run 0 {}) = some v ∧ v.isRetired [2] = true ∧ v.store [2] = none) := by
  have hquiet : ∃ s t : State ℕ, Run QuietStep (State.init fun _ => some 0)
      [.call (.boot [1]), .run 0 {}, .run 0 { restored := false }, .run 0 {}] s ∧
      s.suspended [1] = true ∧ Run QuietStep s [.call (.persist [1] 7), .run 1 {}] t := by
    have hmark : ∀ s : State ℕ, s.tasks = [.bootSuspend [1]] → Event.quiet s (.run 0 {}) := by
      intro s hs pc hpc id _ other hother
      rw [hs] at hother
      obtain rfl := List.mem_singleton.1 hother
      exact not_false
    exact ⟨_, _, .cons ⟨rfl, trivial⟩ (.cons ⟨rfl, Event.quiet_of_none rfl rfl⟩
      (.cons ⟨rfl, Event.quiet_of_none rfl rfl⟩ (.cons ⟨rfl, hmark _ rfl⟩ (.nil _)))), rfl,
      .cons ⟨rfl, trivial⟩ (.cons ⟨rfl, Event.quiet_of_none rfl rfl⟩ (.nil _))⟩
  obtain ⟨s, t, hrun, hid, hafter⟩ := hquiet
  have hretire : ∃ u v : State ℕ, Run Step (State.init fun _ => some 0)
      [.call (.retire [2]), .run 0 {}, .run 0 {}, .run 0 {}, .run 0 {}, .run 0 {}, .run 0 {}] u ∧
      u.tasks[0]? = some (.retireUnlock [2] true) ∧
      u.step (.run 0 {}) = some v ∧ v.isRetired [2] = true :=
    ⟨_, _, Run.iff_foldlM.2 rfl, rfl, rfl, rfl⟩
  obtain ⟨u, v, hrun', hi, hstep, hretired⟩ := hretire
  exact ⟨s, t, u, v,
    ⟨hrun, hid, hafter, (snapshots_stay _).1 _ s hrun [1] hid _ t hafter⟩,
    hrun', hstep, hretired, (snapshots_stay _).2 _ u hrun' 0 _ [2] v hi hstep hretired [] v (.nil v)⟩

/-- A persist of `[1]` is queued before the restore of `[1]` fails, and writes after it. -/
theorem queued_write_replaces : ∃ s t : State ℕ,
    Run Step (State.init fun _ => some 0)
      [.call (.persist [1] 7), .run 0 {}, .call (.boot [1]), .run 1 {}, .run 1 { restored := false },
        .run 1 {}] s ∧
      s.suspended [1] = true ∧ s.store [1] = some 0 ∧
      Run Step s [.run 0 {}, .run 0 {}, .run 0 {}] t ∧ t.store [1] = some 7 :=
  ⟨_, _, Run.iff_foldlM.2 rfl, rfl, rfl, Run.iff_foldlM.2 rfl, rfl⟩

end Sky.Snapshots
