import Sky.Verification.Rotation.Steps

/-! # A retired id stays retired -/

namespace Sky.Rotation

open Library

variable {grace ttl : ℕ} {s t : State}

/-- A step that meets the condition. -/
def ClearStep (grace ttl : ℕ) (a : State) (e : Event) (b : State) : Prop :=
  a.Clear e ∧ a.step grace ttl e = some b

theorem inv_of_run {es : List Event} (h : Run (ClearStep grace ttl) State.init es s) : Inv ttl s :=
  h.invariant (fun _ _ _ ha hstep => ha.step hstep.1 hstep.2) (inv_init ttl)

/-- The bindings of a step are the new one's task's. -/
theorem State.bindings_followed (i : TaskId) (fresh : Sid) (r : Request) (val : Sid) (goal : Goal)
    (hops : List SessionAlias) (final : Option Sid) :
    (s.followed i fresh r val goal hops final).bindings = s.bindings := by
  unfold State.followed
  simp only
  split
  · rfl
  · split
    · rfl
    · split
      · rfl
      · split <;> rfl

theorem State.bindings_runLookup (i : TaskId) (r : Request) (val : Sid) :
    (s.runLookup i r val).bindings = s.bindings := by
  unfold State.runLookup
  split
  · rfl
  · rfl
  · split
    · rfl
    · split <;> rfl

theorem State.bindings_runGetAlias (i : TaskId) (fresh : Sid) (r : Request) (val : Sid)
    (goal : Goal) (cur : Sid) (hops : List SessionAlias) :
    (s.runGetAlias i fresh r val goal cur hops).bindings = s.bindings := by
  unfold State.runGetAlias
  split
  · exact State.bindings_followed ..
  · split
    · split
      · exact State.bindings_followed ..
      · rfl
    · split
      · exact State.bindings_followed ..
      · rfl

theorem State.bindings_runGetNew (i : TaskId) (fresh : Sid) (r : Request) (val : Sid)
    (goal : Goal) (hops : List SessionAlias) (new : Sid) :
    (s.runGetNew i fresh r val goal hops new).bindings = s.bindings := by
  unfold State.runGetNew
  split
  · exact State.bindings_followed ..
  · rfl

theorem State.bindings_runAdopt (i : TaskId) (b : Resolved) (x : SessId) (o : LiveSession) :
    (s.runAdopt i b x o).bindings = s.bindings := by
  unfold State.runAdopt
  simp only
  split <;> rfl

theorem State.bindings_runRekey (i : TaskId) (fresh : Sid) (w : Worker) (old : Sid)
    (o : LiveSession) : (s.runRekey i fresh w old o).bindings = s.bindings := by
  obtain ⟨f, hf⟩ := State.rekeySession_fields (s := s) old fresh w.sess o
  unfold State.runRekey
  rw [hf]
  rfl

/-- A request is bound where it asks for its session. -/
def State.Binds (s t : State) : Prop :=
  ∃ (i : TaskId) (b : Resolved) (x : SessId), s.tasks[i]? = some (.getSession b) ∧
    t.bindings = ⟨b, x⟩ :: s.bindings ∧ (b.request.kind = .page ∨ (s.sessions b.sid).isSome)

theorem State.binds_runGetSession {i : TaskId} {b : Resolved}
    (hi : s.tasks[i]? = some (.getSession b)) :
    (s.runGetSession i b).bindings = s.bindings ∨ s.Binds (s.runGetSession i b) := by
  unfold State.runGetSession
  split
  · next x hkind hs => exact .inr ⟨i, b, x, hi, rfl, .inl hkind⟩
  · next hkind _ => exact .inr ⟨i, b, s.objects.length, hi, rfl, .inl hkind⟩
  · next x hkind hs => exact .inr ⟨i, b, x, hi, rfl, .inr (by simp [hs])⟩
  · exact .inl rfl

theorem State.binds_run {i : TaskId} {fresh : Sid} (h : s.run grace ttl i fresh = some t) :
    t.bindings = s.bindings ∨ s.Binds t := by
  unfold State.run at h
  split at h
  · cases h
  · cases h
  · cases h
  · obtain rfl := Option.some.inj h
    exact .inl (State.bindings_runLookup ..)
  · obtain rfl := Option.some.inj h
    exact .inl (State.bindings_runGetAlias ..)
  · obtain rfl := Option.some.inj h
    exact .inl (State.bindings_runGetNew ..)
  · obtain rfl := Option.some.inj h
    exact .inl (State.bindings_followed ..)
  · split at h
    · obtain rfl := Option.some.inj h
      exact .inl rfl
    · cases h
  · next b hi =>
      obtain rfl := Option.some.inj h
      exact State.binds_runGetSession hi
  · obtain ⟨o, _, rfl⟩ := Option.map_eq_some_iff.1 h
    exact .inl (State.bindings_runAdopt ..)
  · obtain ⟨o, _, h⟩ := Option.bind_eq_some_iff.1 h
    split at h
    · obtain rfl := Option.some.inj h
      exact .inl rfl
    · cases h
  · obtain ⟨o, _, rfl⟩ := Option.map_eq_some_iff.1 h
    unfold State.set
    split <;> exact .inl rfl
  · obtain ⟨o, _, h⟩ := Option.bind_eq_some_iff.1 h
    unfold State.runRotateLock at h
    split at h
    · cases h
    · split at h <;> obtain rfl := Option.some.inj h <;> exact .inl rfl
  · obtain ⟨o, _, h⟩ := Option.bind_eq_some_iff.1 h
    split at h
    · obtain rfl := Option.some.inj h
      exact .inl rfl
    · cases h
  · obtain ⟨o, _, rfl⟩ := Option.map_eq_some_iff.1 h
    exact .inl (State.bindings_runRekey ..)
  · obtain ⟨o, _, rfl⟩ := Option.map_eq_some_iff.1 h
    exact .inl rfl
  · obtain ⟨o, _, rfl⟩ := Option.map_eq_some_iff.1 h
    exact .inl rfl
  · obtain rfl := Option.some.inj h
    exact .inl rfl
  · obtain ⟨o, _, rfl⟩ := Option.map_eq_some_iff.1 h
    exact .inl rfl

theorem State.bindings_act (i : TaskId) (w : Worker) (o : LiveSession) (a : State.Action) :
    (s.act i w o a).bindings = s.bindings := by
  cases a with
  | endSession =>
      unfold State.act
      simp only
      split <;> rfl
  | leave =>
      unfold State.act
      simp only
      split <;> rfl
  | _ => rfl

theorem State.binds_step {e : Event} (h : s.step grace ttl e = some t) :
    t.bindings = s.bindings ∨ s.Binds t := by
  unfold State.step at h
  cases e with
  | request r fresh =>
      simp only at h
      split at h
      · obtain rfl := Option.some.inj h
        unfold State.accept
        split <;> exact .inl rfl
      · cases h
  | run i fresh =>
      simp only at h
      split at h
      · exact State.binds_run h
      · cases h
  | act i a =>
      simp only at h
      split at h
      · obtain ⟨o, _, rfl⟩ := Option.map_eq_some_iff.1 h
        exact .inl (State.bindings_act ..)
      · cases h
  | tick =>
      obtain rfl := Option.some.inj h
      exact .inl rfl
  | expire sid =>
      obtain rfl := Option.some.inj h
      exact .inl rfl
  | reap sid =>
      simp only at h
      split at h
      · split at h
        · obtain rfl := Option.some.inj h
          exact .inl rfl
        · cases h
      · cases h

/-- A request is never bound under a retired id. -/
theorem Inv.not_retired_of_binding (h : Inv ttl s) {e : Event} {b : Binding}
    (hstep : s.step grace ttl e = some t) (hb : t.bindings = b :: s.bindings) :
    ¬s.Retired b.resolved.sid := by
  rcases State.binds_step hstep with hsame | ⟨i, b', x, hi, hb', hlive⟩
  · have hlength := congrArg List.length (hsame.symm.trans hb)
    simp at hlength
  · obtain ⟨rfl, -⟩ : (⟨b', x⟩ : Binding) = b ∧ s.bindings = s.bindings := by
      simpa using hb'.symm.trans hb
    rcases hlive with hpage | hsome
    · exact h.working _ (List.mem_of_getElem? hi) b'.sid (by simp [Pc.worksUnder, hpage])
    · exact State.not_retired_of_live h hsome

/-- In every run whose steps meet the condition, no session is stored under a retired id, no
request is bound under one, and a request that is bound to a session under another id than the one
it presents has a new session, or came there by aliases that are in their grace windows and that
its tab started. -/
theorem retired_stays_retired {es : List Event} (hrun : Run (ClearStep grace ttl) State.init es s) :
    (∀ k, s.Retired k → s.sessions k = none) ∧
      (∀ e t b, s.step grace ttl e = some t → t.bindings = b :: s.bindings →
        ¬s.Retired b.resolved.sid) ∧
      ∀ b ∈ s.bindings, ∀ val, b.resolved.request.val = some val → b.resolved.sid ≠ val →
        b.resolved.via = .minted ∨ ∃ hops now, b.resolved.via = .hops hops now ∧
          Walk s.put val hops b.resolved.sid ∧
          aliasChainAllows hops b.resolved.request.tab now = true := by
  have hinv : Inv ttl s := inv_of_run hrun
  refine ⟨hinv.gone, fun e t b hstep hb => hinv.not_retired_of_binding hstep hb, ?_⟩
  intro b hb val hval hne
  have hsound : b.resolved.Sound s.put := hinv.bindings b hb
  unfold Resolved.Sound at hsound
  cases hvia : b.resolved.via with
  | presented =>
      simp only [hvia] at hsound
      exact absurd (Option.some.inj (hsound.symm.trans hval)) hne
  | minted => exact .inl rfl
  | hops hops now =>
      simp only [hvia] at hsound
      obtain ⟨val', hval', hwalk, hallows⟩ := hsound
      obtain rfl : val = val' := Option.some.inj (hval.symm.trans hval')
      exact .inr ⟨hops, now, rfl, hwalk, hallows⟩

/-! A sign-in moves the session from id 7 to id 8, and the tab that signed in follows. -/

/-- The condition, where it can be computed: all sessions and tasks stand for the held ones. -/
def State.clear (s : State) : Event → Bool
  | .run i _ =>
      match s.tasks[i]? with
      | some (.rekey w old) =>
          s.tasks.all (fun pc => decide (pc.worksUnder ≠ some old) &&
            decide (pc.moves.map Prod.snd ≠ some old)) &&
          (List.range s.objects.length).all fun x =>
            decide (x = w.sess ∨ (s.objects[x]?).map LiveSession.sid ≠ some old)
      | some (.getAlias r _ .presented cur []) =>
          decide (r.kind = .event ∨ s.retired cur ≠ some none)
      | _ => true
  | _ => true

theorem State.Clear.of_clear {e : Event} (h : s.clear e = true) : s.Clear e := by
  cases e with
  | run i fresh =>
      refine ⟨?_, ?_⟩
      · intro w old hi
        simp only [State.clear, hi, Bool.and_eq_true, List.all_eq_true, decide_eq_true_eq] at h
        obtain ⟨htasks, hobjects⟩ := h
        refine ⟨fun pc hpc => (htasks pc hpc).1, ?_⟩
        rintro x hx _ (⟨o, ho, hsid⟩ | ⟨pc, hpc, hm⟩)
        · have hlt : x < s.objects.length := (List.getElem?_eq_some_iff.1 ho).1
          rcases hobjects x (List.mem_range.2 hlt) with hself | hother
          · exact hx hself
          · exact hother (by simp [ho, hsid])
        · exact (htasks pc hpc).2 (by simp [hm])
      · intro r val cur hi hpage
        simpa [State.clear, hi, hpage] using h
  | _ => trivial

def signIn : List Event :=
  [.request ⟨.page, none, some 1, none⟩ 7, .run 0 8, .run 0 8, .run 0 8, .act 0 .persist, .run 0 8,
    .run 0 8, .act 0 .leave,
    .request ⟨.event, some 7, some 2, none⟩ 8, .run 1 8, .run 1 8,
    .act 1 .rotate, .run 1 8, .run 1 8, .run 1 8, .run 1 9, .run 1 9,
    .request ⟨.event, some 7, some 2, none⟩ 9, .run 2 9, .run 2 9, .run 2 9, .run 2 9]

theorem signIn_moves :
    (signIn.foldlM (State.step 60 3600) State.init).map
      (fun s => (s.sessions 7, s.sessions 8, s.bindings.head?.map (·.resolved.sid))) =
        some (none, some 0, some 8) := by
  have hclear : (signIn.foldlM (fun (s : State) e => if s.clear e then s.step 60 3600 e else none)
      State.init).map (fun s => (s.sessions 8, s.retired 7, s.now,
        s.bindings.head?.map (·.resolved.sid))) =
          some (some 0, some (some 3600), 0, some 8) := by decide +kernel
  obtain ⟨s, hs, hfields⟩ := Option.map_eq_some_iff.1 hclear
  have hrun : Run (ClearStep 60 3600) State.init signIn s := by
    refine (Run.iff_foldlM.2 hs).mono ?_
    intro a e b hab
    split at hab
    · next hclear => exact ⟨.of_clear hclear, hab⟩
    · cases hab
  have hsteps : signIn.foldlM (State.step 60 3600) State.init = some s :=
    Run.iff_foldlM.1 (hrun.mono fun a e b hab => hab.2)
  simp only [Prod.mk.injEq] at hfields
  obtain ⟨hnew, hretired, hnow, hlast⟩ := hfields
  have hgone : s.sessions 7 = none := by
    refine (retired_stays_retired hrun).1 7 ⟨_, hretired, ?_⟩
    rintro e he
    obtain rfl := Option.some.inj he
    simp [hnow]
  simp [hsteps, hgone, hnew, hlast]

/-! A page request that found the session under id 7 stores it there again after the sign-in. -/

def comeback : List Event :=
  [.request ⟨.page, none, some 1, none⟩ 7, .run 0 8, .run 0 8, .run 0 8, .act 0 .persist, .run 0 8,
    .run 0 8, .act 0 .leave,
    .request ⟨.event, some 7, some 2, none⟩ 8, .run 1 8, .run 1 8,
    .request ⟨.page, some 7, some 1, none⟩ 8, .run 2 8, .run 2 8, .run 2 8,
    .act 1 .rotate, .run 1 8, .run 1 8, .run 1 8, .run 1 9, .run 1 9,
    .run 2 9, .act 2 .persist, .run 2 9, .run 2 9, .act 2 .leave,
    .request ⟨.event, some 7, some 1, none⟩ 9, .run 3 9, .run 3 9]

/-- The session that signed in under id 8 is bound to a request that presents the retired id 7. -/
theorem comeback_binds :
    (comeback.foldlM (State.step 60 3600) State.init).map
      (fun s => (s.retired 7, s.now, s.sessions 8, s.bindings.head?)) =
        some (some (some 3600), 0, some 0,
          some ⟨⟨⟨.event, some 7, some 1, none⟩, 7, .presented⟩, 0⟩) := by
  decide +kernel

end Sky.Rotation
