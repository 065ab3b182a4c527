import Sky.Verification.Rotation.Updates

/-! # Moving a session to a new id -/

namespace Sky.Rotation

open Library

variable {ttl : ℕ} {s : State} {i : TaskId}

theorem Inv.sound_of (h : Inv ttl s) {pc : Pc} (hpc : pc ∈ s.tasks) :
    ∃ j, s.tasks[j]? = some pc ∧ pc.Sound s j := by
  obtain ⟨j, hj⟩ := List.mem_iff_getElem?.1 hpc
  exact ⟨j, hj, h.sound j pc hj⟩

/-- A task that moves a session has both of its locks, and the session has one of the two ids. -/
theorem Inv.mover (h : Inv ttl s) {pc : Pc} (hpc : pc ∈ s.tasks) {x : SessId} {k : Sid}
    (hm : pc.moves = some (x, k)) : ∃ (j : TaskId) (w : Worker) (old : Sid) (o : LiveSession),
      pc = .setSid w old k ∧ w.sess = x ∧ s.tasks[j]? = some pc ∧ s.objects[x]? = some o ∧
      o.mu = some j ∧ o.storeMu = some j ∧ (o.sid = old ∨ o.sid = k) ∧ s.retired old = some none := by
  obtain ⟨j, hj, hsound⟩ := h.sound_of hpc
  cases pc with
  | setSid w old new =>
      obtain ⟨rfl, rfl⟩ : w.sess = x ∧ new = k := by simpa [Pc.moves] using hm
      obtain ⟨o, ho, hmu, hstoreMu, hsid⟩ := hsound
      exact ⟨j, w, old, o, rfl, rfl, hj, ho, hmu, hstoreMu, hsid, h.leaving _ hpc old rfl⟩
  | _ => simp [Pc.moves] at hm

theorem State.Retired.of_pending {k : Sid} (h : s.retired k = some none) : s.Retired k :=
  ⟨none, h, by simp⟩

/-- A session with a retired id is on its way to another. -/
theorem Inv.moved_of_retired (h : Inv ttl s) {x : SessId} {o : LiveSession}
    (ho : s.objects[x]? = some o) (hx : s.Held x) (hretired : s.Retired o.sid) :
    ∃ j w old k, s.tasks[j]? = some (.setSid w old k) ∧ w.sess = x ∧ o.mu = some j ∧
      o.storeMu = some j := by
  obtain ⟨pc, hpc, k, hm⟩ := h.current x o ho hx hretired
  obtain ⟨j, w, old, o', rfl, hw, hj, ho', hmu, hstoreMu, _⟩ := h.mover hpc hm
  obtain rfl : o = o' := Option.some.inj (ho.symm.trans ho')
  exact ⟨j, w, old, k, hj, hw, hmu, hstoreMu⟩

theorem State.held_of_task {pc : Pc} {x : SessId} (hi : s.tasks[i]? = some pc)
    (hx : pc.sess = some x) : s.Held x :=
  .inr ⟨pc, List.mem_of_getElem? hi, hx⟩

/-! ## The re-key -/

/-- `s.Unseen`, as the invariant uses it. -/
theorem Inv.not_retired_of_unseen (h : Inv ttl s) {k : Sid} (hk : s.Unseen k) : ¬s.Retired k := by
  rintro ⟨exp, hexp, _⟩
  exact hk.1 (h.seen k (by simp [hexp]))

theorem State.rekeySession_cases {old new : Sid} {x : SessId} {o : LiveSession} {k : Sid}
    {y : SessId} (h : (s.rekeySession old new x o).sessions k = some y) :
    k = new ∧ y = x ∨ s.sessions k = some y ∧ ¬(k = old ∧ y = x) := by
  unfold State.rekeySession State.set at h
  simp only at h
  have hrest : (if s.sessions old = some x then s.setSession old none else s).sessions k = some y →
      s.sessions k = some y ∧ ¬(k = old ∧ y = x) := by
    intro hk
    split at hk
    · by_cases hold : k = old
      · simp [State.setSession, hold] at hk
      · exact ⟨(Function.update_of_ne hold _ _).symm.trans hk, fun hand => hold hand.1⟩
    · next hne =>
        refine ⟨hk, ?_⟩
        rintro ⟨rfl, rfl⟩
        exact hne hk
  split at h
  · exact .inr (hrest h)
  · by_cases hnew : k = new
    · subst hnew
      obtain rfl : x = y := by simpa [State.setSession] using h
      exact .inl ⟨rfl, rfl⟩
    · exact .inr (hrest ((Function.update_of_ne hnew _ _).symm.trans h))

theorem State.rekeySession_fields (old new : Sid) (x : SessId) (o : LiveSession) :
    ∃ f, s.rekeySession old new x o = { s with sessions := f } := by
  unfold State.rekeySession State.set
  simp only
  split <;> split <;> exact ⟨_, rfl⟩

/-- The session leaves its id, which nobody else has and under which no page request works. -/
theorem Inv.runRekey (h : Inv ttl s) {w : Worker} {old fresh : Sid} {o : LiveSession}
    (hi : s.tasks[i]? = some (.rekey w old)) (ho : s.objects[w.sess]? = some o)
    (hunseen : s.Unseen fresh) (hpages : ∀ pc ∈ s.tasks, pc.worksUnder ≠ some old)
    (hothers : ∀ x, x ≠ w.sess → s.Held x → ¬s.Carries x old) :
    Inv ttl (s.runRekey i fresh w old o) := by
  obtain ⟨o', ho', hmu, hstoreMu, hsid⟩ := h.sound i _ hi
  obtain rfl : o = o' := Option.some.inj (ho.symm.trans ho')
  have hheld : s.Held w.sess := State.held_of_task hi rfl
  have hne : old ≠ fresh := by
    rintro rfl
    exact hunseen.2 o (List.mem_of_getElem? ho) hsid
  have hfresh : ¬s.Retired fresh := h.not_retired_of_unseen hunseen
  -- no other task moves this session
  have halone : ∀ pc ∈ s.tasks, ∀ k, pc.moves ≠ some (w.sess, k) := by
    intro pc hpc k hm
    obtain ⟨j, w', old', o', rfl, _, hj, ho', hmu', _⟩ := h.mover hpc hm
    obtain rfl : o = o' := Option.some.inj (ho.symm.trans ho')
    obtain rfl : i = j := Option.some.inj (hmu.symm.trans hmu')
    rw [hi] at hj
    cases hj
  have hcurrent : ¬s.Retired old := by
    intro hretired
    obtain ⟨pc, hpc, k, hm⟩ := h.current w.sess o ho hheld (hsid ▸ hretired)
    exact halone pc hpc k hm
  have hstore : ∀ k y, (s.runRekey i fresh w old o).sessions k = some y →
      k = fresh ∧ y = w.sess ∨ s.sessions k = some y ∧ ¬(k = old ∧ y = w.sess) := by
    intro k y hk
    exact State.rekeySession_cases hk
  obtain ⟨f, hf⟩ := State.rekeySession_fields (s := s) old fresh w.sess o
  have ht : s.runRekey i fresh w old o =
      { s with
        sessions := f
        tasks := s.tasks.set i (.setSid w old fresh)
        used := [fresh, old] ++ s.used
        retired := Function.update s.retired old (some none) } := by
    unfold State.runRekey
    rw [hf]
    rfl
  have hretired : ∀ k, (s.runRekey i fresh w old o).Retired k → k = old ∨ s.Retired k := by
    intro k hk
    by_cases hold : k = old
    · exact .inl hold
    · obtain ⟨exp, hexp, hlive⟩ := hk
      rw [ht] at hexp hlive
      exact .inr ⟨exp, (Function.update_of_ne hold _ _).symm.trans hexp, hlive⟩
  have hmem : ∀ q ∈ (s.runRekey i fresh w old o).tasks, q ∈ s.tasks ∨ q = .setSid w old fresh := by
    intro q hq
    rw [ht] at hq
    exact List.mem_or_eq_of_mem_set hq
  have hheldOf : ∀ x, (s.runRekey i fresh w old o).Held x → s.Held x := by
    rintro x (⟨k, hk⟩ | ⟨q, hq, hx⟩)
    · rcases hstore k x hk with ⟨_, rfl⟩ | ⟨hk', _⟩
      · exact hheld
      · exact .inl ⟨k, hk'⟩
    · rcases hmem q hq with hold | rfl
      · exact .inr ⟨q, hold, hx⟩
      · obtain rfl : w.sess = x := by simpa [Pc.sess] using hx
        exact hheld
  have hobjects : (s.runRekey i fresh w old o).objects = s.objects := by rw [ht]
  have hnew : .setSid w old fresh ∈ (s.runRekey i fresh w old o).tasks := by
    rw [ht]
    exact List.mem_set (List.getElem?_eq_some_iff.1 hi).1 _
  refine
    { gone := ?_, carried := ?_, current := ?_, moving := ?_, working := ?_, leaving := ?_,
      leaver := ?_, sound := ?_, aliased := ?_, written := ?_, seen := ?_, bindings := ?_ }
  · intro k hk
    refine Option.eq_none_iff_forall_ne_some.2 ?_
    intro y hy
    rcases hstore k y hy with ⟨rfl, rfl⟩ | ⟨hy', hmoved⟩
    · exact (hretired k hk).elim (fun hold => hne hold.symm) hfresh
    · rcases hretired k hk with rfl | hk'
      · have hyw : y ≠ w.sess := fun heq => hmoved ⟨rfl, heq⟩
        exact hothers y hyw (.inl ⟨_, hy'⟩) (h.carried _ y hy')
      · rw [h.gone k hk'] at hy'
        cases hy'
  · intro k y hy
    rcases hstore k y hy with ⟨rfl, rfl⟩ | ⟨hy', _⟩
    · exact .inr ⟨_, hnew, rfl⟩
    · rcases h.carried k y hy' with ⟨o', ho', hsid'⟩ | hm
      · exact .inl ⟨o', hobjects ▸ ho', hsid'⟩
      · obtain ⟨q, hq, hm⟩ := State.moves_advance (r := .setSid w old fresh)
          (l := s.objects) hi rfl hm
        rw [ht]
        exact .inr ⟨q, hq, hm⟩
  · intro y o' ho' hy hk
    rw [hobjects] at ho'
    have hy' : s.Held y := hheldOf y hy
    by_cases hyw : y = w.sess
    · exact ⟨_, hnew, fresh, by simp [Pc.moves, hyw]⟩
    · rcases hretired _ hk with hold | hk'
      · exact absurd (.inl ⟨o', ho', hold⟩) (hothers y hyw hy')
      · obtain ⟨q, hq, k, hm⟩ := h.current y o' ho' hy' hk'
        obtain ⟨q', hq', hm'⟩ := State.moves_advance (r := .setSid w old fresh)
          (l := s.objects) hi rfl ⟨q, hq, hm⟩
        rw [ht]
        exact ⟨q', hq', k, hm'⟩
  · intro q hq x k hm hk
    rcases hmem q hq with hold | rfl
    · rcases hretired k hk with rfl | hk'
      · by_cases hxw : x = w.sess
        · subst hxw
          exact halone q hold _ hm
        · refine hothers x hxw (.inr ⟨q, hold, ?_⟩) (.inr ⟨q, hold, hm⟩)
          obtain ⟨_, _, _, _, rfl, rfl, _⟩ := h.mover hold hm
          rfl
      · exact h.moving q hold x k hm hk'
    · obtain ⟨rfl, rfl⟩ : w.sess = x ∧ fresh = k := by simpa [Pc.moves] using hm
      exact (hretired _ hk).elim (fun heq => hne heq.symm) hfresh
  · intro q hq k hw hk
    rcases hmem q hq with hold | rfl
    · rcases hretired k hk with rfl | hk'
      · exact hpages q hold hw
      · exact h.working q hold k hw hk'
    · simp [Pc.worksUnder] at hw
  · intro q hq k hl
    rw [ht]
    rcases hmem q hq with hold | rfl
    · by_cases hk : k = old
      · simp [hk]
      · exact (Function.update_of_ne hk _ _).trans (h.leaving q hold k hl)
    · obtain rfl : old = k := by simpa [Pc.leaves] using hl
      simp
  · intro j l q r k hj hl hqk hrk
    rw [ht] at hj hl
    have hpending : ∀ q ∈ s.tasks, q.leaves ≠ some old := by
      intro q hq hold
      exact hcurrent (.of_pending (h.leaving q hq old hold))
    rcases getElem?_set_cases hj with ⟨hij, rfl⟩ | ⟨_, hj'⟩ <;>
      rcases getElem?_set_cases hl with ⟨hil, rfl⟩ | ⟨_, hl'⟩
    · exact hij.symm.trans hil
    · obtain rfl : old = k := by simpa [Pc.leaves] using hqk
      exact absurd hrk (hpending r (List.mem_of_getElem? hl'))
    · obtain rfl : old = k := by simpa [Pc.leaves] using hrk
      exact absurd hqk (hpending q (List.mem_of_getElem? hj'))
    · exact h.leaver j l q r k hj' hl' hqk hrk
  · intro j q hj
    rw [ht] at hj ⊢
    rcases getElem?_set_cases hj with ⟨rfl, rfl⟩ | ⟨hij, hj'⟩
    · exact ⟨o, ho, hmu, hstoreMu, .inl hsid⟩
    · exact ((h.sound j q hj').advance (r := .setSid w old fresh) hi rfl (.refl i s.objects)
        (Ne.symm hij)).mono (List.Subset.refl _) (fun _ _ hx => hx) (List.Subset.refl _)
  · intro k e hk
    rw [ht] at hk ⊢
    by_cases hold : k = old
    · simp [hold] at hk
    · exact h.aliased k e ((Function.update_of_ne hold _ _).symm.trans hk)
  · rw [ht]
    exact h.written
  · intro k hk
    rw [ht] at hk ⊢
    by_cases hold : k = old
    · simp [hold]
    · have hbefore : s.retired k ≠ none := by simpa [hold] using hk
      exact List.mem_append_right _ (h.seen k hbefore)
  · rw [ht]
    exact h.bindings

/-! ## The new id -/

/-- The sessions other than `x` are as before, and so is what the tasks know of them. -/
theorem Pc.Sound.of_other {t : State} {pc : Pc} {j : TaskId} {x : SessId} {o : LiveSession}
    (h : pc.Sound s j) (ho : s.objects[x]? = some o) (hput : s.put ⊆ t.put)
    (hobjects : ∀ (y : SessId) (o' : LiveSession), y ≠ x → s.objects[y]? = some o' →
      t.objects[y]? = some o')
    (hcarries : ∀ b, pc = .adopt b x → t.Carries x b.sid)
    (hmoves : ∀ y k, y ≠ x → (∃ q ∈ s.tasks, q.moves = some (y, k)) →
      ∃ q ∈ t.tasks, q.moves = some (y, k))
    (hlocks : pc.sess = some x → o.mu ≠ some j ∧ o.storeMu ≠ some j) : pc.Sound t j := by
  have hne : ∀ w : Worker, pc.sess = some w.sess → (∃ o', s.objects[w.sess]? = some o' ∧
      (o'.mu = some j ∨ o'.storeMu = some j)) → w.sess ≠ x := by
    rintro w hw ⟨o', ho', hlock⟩ rfl
    obtain rfl : o = o' := Option.some.inj (ho.symm.trans ho')
    exact hlock.elim (hlocks hw).1 (hlocks hw).2
  cases pc with
  | getAlias r val goal cur hops => exact ⟨h.1, fun hgoal => (h.2 hgoal).mono hput⟩
  | getNew r val goal hops cur => exact ⟨h.1, fun hgoal => (h.2.1 hgoal).mono hput, h.2.2⟩
  | getEnd r val goal cur hops => exact ⟨h.1, fun hgoal => (h.2.1 hgoal).mono hput, h.2.2⟩
  | lockSid b => exact Resolved.Sound.mono h hput
  | getSession b => exact Resolved.Sound.mono h hput
  | adopt b y =>
      refine ⟨h.1.mono hput, ?_⟩
      by_cases hy : y = x
      · subst hy
        exact hcarries b rfl
      · rcases h.2 with ⟨o', ho', hsid⟩ | hm
        · exact .inl ⟨o', hobjects y o' hy ho', hsid⟩
        · exact .inr (hmoves y b.sid hy hm)
  | persistSet w =>
      obtain ⟨o', ho', hlock⟩ := h
      exact ⟨o', hobjects _ o' (hne w rfl ⟨o', ho', .inr hlock⟩) ho', hlock⟩
  | rekeyLock w old =>
      obtain ⟨o', ho', hlock, hsid⟩ := h
      exact ⟨o', hobjects _ o' (hne w rfl ⟨o', ho', .inl hlock⟩) ho', hlock, hsid⟩
  | rekey w old =>
      obtain ⟨o', ho', hlock, hrest⟩ := h
      exact ⟨o', hobjects _ o' (hne w rfl ⟨o', ho', .inl hlock⟩) ho', hlock, hrest⟩
  | setSid w old new =>
      obtain ⟨o', ho', hlock, hrest⟩ := h
      exact ⟨o', hobjects _ o' (hne w rfl ⟨o', ho', .inl hlock⟩) ho', hlock, hrest⟩
  | putAlias w old new =>
      obtain ⟨o', ho', hlock⟩ := h
      exact ⟨o', hobjects _ o' (hne w rfl ⟨o', ho', .inl hlock⟩) ho', hlock⟩
  | finished => trivial
  | lookup r val => exact h
  | bound w => trivial
  | persistLock w => trivial
  | rotateLock w => trivial
  | endAlias w sid => trivial
  | endDelete w => trivial

/-- A page request sets the id of a session that is on its way to that id. -/
theorem Inv.adoptSid (h : Inv ttl s) {b : Resolved} {x : SessId} {o : LiveSession}
    (hi : s.tasks[i]? = some (.adopt b x)) (ho : s.objects[x]? = some o) (hne : o.sid ≠ b.sid) :
    Inv ttl (s.setObject x { o with sid := b.sid }) := by
  have hworks : ¬s.Retired b.sid := h.working _ (List.mem_of_getElem? hi) _ rfl
  obtain ⟨q, hq, hm⟩ : ∃ q ∈ s.tasks, q.moves = some (x, b.sid) := by
    rcases (h.sound i _ hi).2 with ⟨o', ho', hsid⟩ | hm
    · obtain rfl : o = o' := Option.some.inj (ho.symm.trans ho')
      exact absurd hsid hne
    · exact hm
  obtain ⟨j, w, old, o', rfl, hw, hj, ho', hmu, hstoreMu, hsid, hpending⟩ := h.mover hq hm
  obtain rfl : o = o' := Option.some.inj (ho.symm.trans ho')
  have hold : o.sid = old := hsid.resolve_right hne
  have hretired : s.Retired o.sid := .of_pending (hold ▸ hpending)
  have hself : (s.setObject x { o with sid := b.sid }).objects[x]? =
      some { o with sid := b.sid } :=
    List.getElem?_set_self (List.getElem?_eq_some_iff.1 ho).1
  have hother : ∀ (y : SessId) (o' : LiveSession), y ≠ x → s.objects[y]? = some o' →
      (s.setObject x { o with sid := b.sid }).objects[y]? = some o' := by
    intro y o' hy ho'
    exact (List.getElem?_set_ne (Ne.symm hy)).trans ho'
  exact
    { h with
      carried := by
        intro k y hk
        rcases h.carried k y hk with ⟨z, hz, hsid'⟩ | hm
        · by_cases hy : y = x
          · subst hy
            obtain rfl : o = z := Option.some.inj (ho.symm.trans hz)
            have hnone : s.sessions k = none := h.gone k (hsid' ▸ hretired)
            exact absurd (hnone.symm.trans hk) (by simp)
          · exact .inl ⟨z, hother y z hy hz, hsid'⟩
        · exact .inr hm
      current := by
        intro y o' ho' hy hk
        rcases getElem?_set_cases ho' with ⟨rfl, rfl⟩ | ⟨_, hold'⟩
        · exact absurd hk hworks
        · exact h.current y o' hold' hy hk
      sound := by
        intro l r hl
        by_cases hlj : l = j
        · subst hlj
          obtain rfl := Option.some.inj (hj.symm.trans hl)
          subst hw
          exact ⟨{ o with sid := b.sid }, hself, hmu, hstoreMu, .inr rfl⟩
        · refine (h.sound l r hl).of_other ho (List.Subset.refl _) hother ?_ (fun _ _ _ hm => hm) ?_
          · rintro b' rfl
            rcases (h.sound l _ hl).2 with ⟨o', ho', hsid'⟩ | hm'
            · obtain rfl : o = o' := Option.some.inj (ho.symm.trans ho')
              exact absurd (hsid' ▸ hretired) (h.working _ (List.mem_of_getElem? hl) _ rfl)
            · exact .inr hm'
          · intro _
            rw [hmu, hstoreMu]
            exact ⟨fun heq => hlj (Option.some.inj heq).symm,
              fun heq => hlj (Option.some.inj heq).symm⟩ }

/-- The session takes its new id. -/
theorem Inv.setSid (h : Inv ttl s) {w : Worker} {old new : Sid} {o : LiveSession}
    (hi : s.tasks[i]? = some (.setSid w old new)) (ho : s.objects[w.sess]? = some o) :
    Inv ttl ((s.setObject w.sess { o with sid := new, storeMu := none }).setTask i
      (.putAlias w old new)) := by
  have hp := List.mem_of_getElem? hi
  obtain ⟨o', ho', hmu, hstoreMu, hsid⟩ := h.sound i _ hi
  obtain rfl : o = o' := Option.some.inj (ho.symm.trans ho')
  have hnew : ¬s.Retired new := h.moving _ hp w.sess new rfl
  have hretired : s.Retired old := .of_pending (h.leaving _ hp old rfl)
  have hheld : s.Held w.sess := State.held_of_task hi rfl
  have hself : (s.objects.set w.sess { o with sid := new, storeMu := none })[w.sess]? =
      some { o with sid := new, storeMu := none } :=
    List.getElem?_set_self (List.getElem?_eq_some_iff.1 ho).1
  have hother : ∀ (y : SessId) (o' : LiveSession), y ≠ w.sess → s.objects[y]? = some o' →
      (s.objects.set w.sess { o with sid := new, storeMu := none })[y]? = some o' := by
    intro y o' hy ho'
    exact (List.getElem?_set_ne (Ne.symm hy)).trans ho'
  -- this task is the only one that moves the session
  have halone : ∀ q ∈ s.tasks, ∀ k, q.moves = some (w.sess, k) → k = new := by
    intro q hq k hm
    obtain ⟨j, w', old', o', rfl, _, hj, ho', hmu', _⟩ := h.mover hq hm
    obtain rfl : o = o' := Option.some.inj (ho.symm.trans ho')
    obtain rfl : i = j := Option.some.inj (hmu.symm.trans hmu')
    rw [hi] at hj
    cases hj
    rfl
  have hmoves : ∀ y k, y ≠ w.sess → (∃ q ∈ s.tasks, q.moves = some (y, k)) →
      ∃ q ∈ s.tasks.set i (.putAlias w old new), q.moves = some (y, k) := by
    rintro y k hy ⟨q, hq, hm⟩
    refine ⟨q, State.mem_advance (l := s.objects) hi hq ?_, hm⟩
    rintro rfl
    exact hy (Prod.mk.inj (Option.some.inj hm)).1.symm
  have hmem : ∀ q ∈ s.tasks.set i (.putAlias w old new), q ∈ s.tasks ∨ q = .putAlias w old new :=
    fun q hq => List.mem_or_eq_of_mem_set hq
  exact
    { h with
      carried := by
        intro k y hk
        by_cases hy : y = w.sess
        · subst hy
          refine .inl ⟨_, hself, ?_⟩
          rcases h.carried k _ hk with ⟨o', ho', rfl⟩ | ⟨q, hq, hm⟩
          · obtain rfl : o = o' := Option.some.inj (ho.symm.trans ho')
            rcases hsid with hold | hnew'
            · have hnone : s.sessions o.sid = none := h.gone _ (hold ▸ hretired)
              exact absurd (hnone.symm.trans hk) (by simp)
            · exact hnew'.symm
          · exact (halone q hq k hm).symm
        · rcases h.carried k y hk with ⟨o', ho', hk'⟩ | hm
          · exact .inl ⟨o', hother y o' hy ho', hk'⟩
          · exact .inr (hmoves y k hy hm)
      current := by
        intro y o' ho' hy hk
        rcases getElem?_set_cases ho' with ⟨rfl, rfl⟩ | ⟨hyw, hold'⟩
        · exact absurd hk hnew
        · have hy' : s.Held y := by
            rcases hy with hstore | ⟨q, hq, hx⟩
            · exact .inl hstore
            · rcases hmem q hq with hq' | rfl
              · exact .inr ⟨q, hq', hx⟩
              · obtain rfl : w.sess = y := by simpa [Pc.sess] using hx
                exact hheld
          obtain ⟨q, hq, k, hm⟩ := h.current y o' hold' hy' hk
          obtain ⟨q', hq', hm'⟩ := hmoves y k (Ne.symm hyw) ⟨q, hq, hm⟩
          exact ⟨q', hq', k, hm'⟩
      moving := by
        intro q hq x k hm
        rcases hmem q hq with hq' | rfl
        · exact h.moving q hq' x k hm
        · simp [Pc.moves] at hm
      working := by
        intro q hq k hk
        rcases hmem q hq with hq' | rfl
        · exact h.working q hq' k hk
        · simp [Pc.worksUnder] at hk
      leaving := by
        intro q hq k hk
        rcases hmem q hq with hq' | rfl
        · exact h.leaving q hq' k hk
        · exact h.leaving _ hp k hk
      leaver := by
        intro j l q r k hj hl hqk hrk
        have hback : ∀ {j : TaskId} {q : Pc},
            (s.tasks.set i (.putAlias w old new))[j]? = some q → q.leaves = some k →
              ∃ q', s.tasks[j]? = some q' ∧ q'.leaves = some k := by
          intro j q hj hqk
          rcases getElem?_set_cases hj with ⟨rfl, rfl⟩ | ⟨_, hj'⟩
          · exact ⟨_, hi, hqk⟩
          · exact ⟨q, hj', hqk⟩
        obtain ⟨q', hq', hqk'⟩ := hback hj hqk
        obtain ⟨r', hr', hrk'⟩ := hback hl hrk
        exact h.leaver j l q' r' k hq' hr' hqk' hrk'
      sound := by
        intro j q hj
        rcases getElem?_set_cases hj with ⟨rfl, rfl⟩ | ⟨hij, hj'⟩
        · exact ⟨_, hself, hmu⟩
        · refine (h.sound j q hj').of_other ho (List.Subset.refl _) hother ?_ hmoves ?_
          · rintro b rfl
            refine .inl ⟨_, hself, ?_⟩
            rcases (h.sound j _ hj').2 with ⟨o', ho', hb⟩ | ⟨r, hr, hm⟩
            · obtain rfl : o = o' := Option.some.inj (ho.symm.trans ho')
              rcases hsid with hold | hnew'
              · exact absurd (hb ▸ hold ▸ hretired)
                  (h.working _ (List.mem_of_getElem? hj') _ rfl)
              · exact hnew'.symm.trans hb
            · exact (halone r hr b.sid hm).symm
          · intro _
            rw [hmu, hstoreMu]
            exact ⟨fun heq => hij (Option.some.inj heq), fun heq => hij (Option.some.inj heq)⟩ }

/-! ## The alias -/

/-- The alias of an id that a session has left is there. -/
theorem Inv.retire (h : Inv ttl s) {old : Sid} {a : SessionAlias}
    (hpending : s.retired old = some none) (hno : ∀ pc ∈ s.tasks, pc.leaves ≠ some old)
    (halias : s.aliases old = some (a, s.now + ttl)) :
    Inv ttl (s.retire old (some (s.now + ttl))) := by
  have hretired : ∀ k, (s.retire old (some (s.now + ttl))).Retired k → s.Retired k := by
    rintro k ⟨exp, hexp, hlive⟩
    by_cases hk : k = old
    · exact hk ▸ .of_pending hpending
    · exact ⟨exp, (Function.update_of_ne hk _ _).symm.trans hexp, hlive⟩
  exact
    { h with
      gone := fun k hk => h.gone k (hretired k hk)
      current := fun x o ho hx hk => h.current x o ho hx (hretired _ hk)
      moving := fun pc hpc x k hm hk => h.moving pc hpc x k hm (hretired k hk)
      working := fun pc hpc k hw hk => h.working pc hpc k hw (hretired k hk)
      leaving := by
        intro pc hpc k hk
        have hne : k ≠ old := by
          rintro rfl
          exact hno pc hpc hk
        exact (Function.update_of_ne hne _ _).trans (h.leaving pc hpc k hk)
      sound := fun j pc hj => (h.sound j pc hj).mono (List.Subset.refl _) (fun _ _ ho => ho)
        (List.Subset.refl _)
      aliased := by
        intro k e hk
        by_cases hold : k = old
        · subst hold
          obtain rfl : s.now + ttl = e := by simpa [State.retire] using hk
          exact ⟨le_rfl, fun _ => ⟨a, _, halias, le_rfl⟩⟩
        · exact h.aliased k e ((Function.update_of_ne hold _ _).symm.trans hk)
      seen := by
        intro k hk
        by_cases hold : k = old
        · exact hold ▸ h.seen old (by simp [hpending])
        · have hbefore : s.retired k ≠ none := by simpa [State.retire, hold] using hk
          exact h.seen k hbefore }

theorem Inv.runPutAlias (h : Inv ttl s) (grace : ℕ) {w : Worker} {old new : Sid} {o : LiveSession}
    (hi : s.tasks[i]? = some (.putAlias w old new)) (ho : s.objects[w.sess]? = some o) :
    Inv ttl (s.runPutAlias grace ttl i w old new o) := by
  obtain ⟨o', ho', hmu⟩ := h.sound i _ hi
  obtain rfl : o = o' := Option.some.inj (ho.symm.trans ho')
  have hkept : Kept i s.objects (s.objects.set w.sess { o with mu := none }) := by
    refine .set ho rfl ?_ fun _ _ hj => hj
    intro j hj hmuj
    exact absurd (Option.some.inj (hmuj.symm.trans hmu)) hj
  have hbound : Inv ttl ((s.setAlias old ⟨some new, w.tab, s.now + grace⟩ (s.now + ttl)).advance i
      (.bound w) (s.objects.set w.sess { o with mu := none })) := by
    refine (h.setAlias old _).advance hi rfl hkept rfl rfl ?_ (by simp [Pc.worksUnder]) trivial
    intro x hx
    exact .inl (State.held_of_task (s := s) hi hx)
  refine hbound.retire (h.leaving _ (List.mem_of_getElem? hi) old rfl) ?_
    (a := ⟨some new, w.tab, s.now + grace⟩) ?_
  · intro q hq hl
    obtain ⟨j, hj⟩ := List.mem_iff_getElem?.1 hq
    rcases getElem?_set_cases hj with ⟨_, rfl⟩ | ⟨hij, hj'⟩
    · simp [Pc.leaves] at hl
    · exact hij (h.leaver i j _ q old hi hj' rfl hl)
  · simp [State.advance, State.setAlias]

end Sky.Rotation
