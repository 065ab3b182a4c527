import Sky.Verification.Rotation.Moves

/-! # What each step keeps -/

namespace Sky.Rotation

open Library

variable {grace ttl : ℕ} {s t : State} {i : TaskId}

/-! ## Requests -/

theorem State.not_retired_of_live (h : Inv ttl s) {k : Sid} (hk : (s.sessions k).isSome) :
    ¬s.Retired k := by
  intro hretired
  simp [h.gone k hretired] at hk

/-- A request settles on an id. -/
theorem Inv.settle (h : Inv ttl s) {p : Pc} (hi : s.tasks[i]? = some p) (hp : p.moves = none)
    {b : Resolved} (hb : b.Sound s.put) (hclear : b.request.kind = .page → ¬s.Retired b.sid) :
    Inv ttl (s.setTask i (.lockSid b)) ∧ Inv ttl (s.setTask i (.getSession b)) := by
  have hworks : ∀ k, (if b.request.kind = .page then some b.sid else none) = some k →
      ¬s.Retired k := by
    intro k hk
    split at hk
    · next hpage =>
        obtain rfl := Option.some.inj hk
        exact hclear hpage
    · cases hk
  exact ⟨h.setTask hi hp rfl rfl (by simp [Pc.sess]) hworks hb,
    h.setTask hi hp rfl rfl (by simp [Pc.sess]) hworks hb⟩

theorem Inv.finished (h : Inv ttl s) {p : Pc} (hi : s.tasks[i]? = some p) (hp : p.moves = none) :
    Inv ttl (s.setTask i .finished) :=
  h.setTask hi hp rfl rfl (by simp [Pc.sess]) (by simp [Pc.worksUnder]) trivial

theorem Inv.follow (h : Inv ttl s) {p : Pc} (hi : s.tasks[i]? = some p) (hp : p.moves = none)
    {r : Request} {val cur : Sid} {goal : Goal} {hops : List SessionAlias}
    (hval : r.val = some val) (hwalk : goal = .presented → Walk s.put val hops cur) :
    Inv ttl (s.setTask i (.getAlias r val goal cur hops)) ∧
      (hops ≠ [] → Inv ttl (s.setTask i (.getNew r val goal hops cur)) ∧
        Inv ttl (s.setTask i (.getEnd r val goal cur hops))) := by
  refine ⟨?_, fun hhops => ⟨?_, ?_⟩⟩
  · exact h.setTask hi hp rfl rfl (by simp [Pc.sess]) (by simp [Pc.worksUnder]) ⟨hval, hwalk⟩
  · exact h.setTask hi hp rfl rfl (by simp [Pc.sess]) (by simp [Pc.worksUnder])
      ⟨hval, hwalk, hhops⟩
  · exact h.setTask hi hp rfl rfl (by simp [Pc.sess]) (by simp [Pc.worksUnder])
      ⟨hval, hwalk, hhops⟩

theorem Inv.followed (h : Inv ttl s) {p : Pc} (hi : s.tasks[i]? = some p) (hp : p.moves = none)
    {r : Request} {val fresh : Sid} {goal : Goal} {hops : List SessionAlias} {final : Option Sid}
    (hval : r.val = some val) (hunseen : s.Unseen fresh)
    (hwalk : ∀ k, goal = .presented → final = some k → Walk s.put val hops k)
    (hlive : ∀ k, final = some k → ¬s.Retired k)
    (hown : goal = .presented → hops = [] → r.kind = .page → ¬s.Retired val) :
    Inv ttl (s.followed i fresh r val goal hops final) := by
  have hfinished := h.finished hi hp
  unfold State.followed
  simp only
  cases goal with
  | claimed =>
      simp only
      split
      · next hfinal =>
          have hb := h.settle hi hp (b := ⟨r, val, .presented⟩) hval fun _ => hlive val hfinal
          cases hkind : r.kind with
          | page => exact hb.1
          | event => exact hb.2
      · exact hfinished
  | presented =>
      simp only
      cases hops with
      | nil =>
          have hb := h.settle hi hp (b := ⟨r, val, .presented⟩) hval (hown rfl rfl)
          cases hkind : r.kind with
          | page => exact hb.1
          | event => exact hb.2
      | cons hop rest =>
          simp only
          split
          · next sid hgrace =>
              split
              · next hallows =>
                  have hsound : Resolved.Sound s.put ⟨r, sid, .hops (hop :: rest) s.now⟩ :=
                    ⟨val, hval, hwalk sid rfl rfl, hallows.1⟩
                  have hb := h.settle hi hp hsound fun _ => hlive sid rfl
                  cases hkind : r.kind with
                  | page => exact hb.1
                  | event => exact hb.2
              · exact hfinished
          · cases hkind : r.kind with
            | page =>
                have hfresh : ¬s.Retired fresh := h.not_retired_of_unseen hunseen
                exact ((h.use [fresh]).settle (b := ⟨r, fresh, .minted⟩) hi hp hkind
                  fun _ => hfresh).1
            | event => exact hfinished

theorem Inv.runLookup (h : Inv ttl s) {r : Request} {val : Sid}
    (hi : s.tasks[i]? = some (.lookup r val)) : Inv ttl (s.runLookup i r val) := by
  have hval : r.val = some val := h.sound i _ hi
  unfold State.runLookup
  cases hs : s.sessions val with
  | none => exact (h.follow hi rfl hval fun _ => .nil).1
  | some x =>
      have hclear : ¬s.Retired val := State.not_retired_of_live h (by simp [hs])
      have hb := h.settle hi rfl (b := ⟨r, val, .presented⟩) hval fun _ => hclear
      cases hkind : r.kind with
      | page => exact hb.1
      | event =>
          simp only
          cases hclaimed : r.claimed with
          | none => exact hb.2
          | some claimed =>
              simp only
              split
              · exact hb.2
              · exact (h.follow hi rfl hval fun hgoal => by cases hgoal).1

theorem State.lookupAlias_put (h : Inv ttl s) {k : Sid} {a : SessionAlias}
    (ha : s.lookupAlias k = some a) : (k, a) ∈ s.put := by
  unfold State.lookupAlias at ha
  split at ha
  · next a' exp halias =>
      split at ha
      · obtain rfl := Option.some.inj ha
        exact h.written k a' exp halias
      · cases ha
  · cases ha

/-- An id without an alias is not retired, once the alias had to be there. -/
theorem Inv.not_retired_of_lookupAlias (h : Inv ttl s) {k : Sid} (hnone : s.lookupAlias k = none)
    (hpending : s.retired k ≠ some none) : ¬s.Retired k := by
  rintro ⟨exp, hexp, hlive⟩
  cases exp with
  | none => exact hpending hexp
  | some e =>
      have hnow : s.now ≤ e := hlive e rfl
      obtain ⟨a, exp, halias, hle⟩ := (h.aliased k e hexp).2 hnow
      simp [State.lookupAlias, halias, hnow.trans hle] at hnone

theorem Inv.runGetAlias (h : Inv ttl s) {r : Request} {val cur fresh : Sid} {goal : Goal}
    {hops : List SessionAlias} (hi : s.tasks[i]? = some (.getAlias r val goal cur hops))
    (hunseen : s.Unseen fresh)
    (hpending : goal = .presented → hops = [] → r.kind = .page → s.retired cur ≠ some none) :
    Inv ttl (s.runGetAlias i fresh r val goal cur hops) := by
  obtain ⟨hval, hwalk⟩ := h.sound i _ hi
  unfold State.runGetAlias
  split
  · next hlong =>
      refine h.followed hi rfl hval hunseen (by simp) (by simp) ?_
      rintro _ rfl
      simp at hlong
  · split
    · next hnone =>
        split
        · next hnil =>
            refine h.followed hi rfl hval hunseen (by simp) (by simp) ?_
            intro hgoal _ hpage
            subst hnil
            have hcur : cur = val := (hwalk hgoal).eq_of_nil
            exact hcur ▸ h.not_retired_of_lookupAlias hnone (hpending hgoal rfl hpage)
        · next hhops => exact ((h.follow hi rfl hval hwalk).2 hhops).2
    · next a halias =>
        have hput := State.lookupAlias_put h halias
        split
        · exact h.followed hi rfl hval hunseen (by simp) (by simp) (by simp)
        · next new hnew =>
            exact ((h.follow hi rfl hval fun hgoal => .snoc (hwalk hgoal) hput hnew).2
              (by simp)).1

theorem Inv.runGetNew (h : Inv ttl s) {r : Request} {val new fresh : Sid} {goal : Goal}
    {hops : List SessionAlias} (hi : s.tasks[i]? = some (.getNew r val goal hops new))
    (hunseen : s.Unseen fresh) :
    Inv ttl (s.runGetNew i fresh r val goal hops new) := by
  obtain ⟨hval, hwalk, hhops⟩ := h.sound i _ hi
  unfold State.runGetNew
  split
  · next hlive =>
      refine h.followed hi rfl hval hunseen ?_ ?_ fun _ hnil => absurd hnil hhops
      · rintro k hgoal hk
        obtain rfl := Option.some.inj hk
        exact hwalk hgoal
      · rintro k hk
        obtain rfl := Option.some.inj hk
        exact State.not_retired_of_live h hlive
  · exact (h.follow hi rfl hval hwalk).1

theorem Inv.runGetEnd (h : Inv ttl s) {r : Request} {val cur fresh : Sid} {goal : Goal}
    {hops : List SessionAlias} (hi : s.tasks[i]? = some (.getEnd r val goal cur hops))
    (hunseen : s.Unseen fresh) : Inv ttl (s.runGetEnd i fresh r val goal cur hops) := by
  obtain ⟨hval, hwalk, hhops⟩ := h.sound i _ hi
  unfold State.runGetEnd
  have hcur : ∀ k, (if (s.sessions cur).isSome then some cur else none) = some k →
      k = cur ∧ (s.sessions cur).isSome := by
    intro k hk
    split at hk
    · next hlive => exact ⟨(Option.some.inj hk).symm, hlive⟩
    · cases hk
  refine h.followed hi rfl hval hunseen ?_ ?_ fun _ hnil => absurd hnil hhops
  · intro k hgoal hk
    rw [(hcur k hk).1]
    exact hwalk hgoal
  · intro k hk
    rw [(hcur k hk).1]
    exact State.not_retired_of_live h (hcur k hk).2

theorem Inv.runGetSession (h : Inv ttl s) {b : Resolved}
    (hi : s.tasks[i]? = some (.getSession b)) : Inv ttl (s.runGetSession i b) := by
  have hb : b.Sound s.put := h.sound i _ hi
  have hworks : b.request.kind = .page → ¬s.Retired b.sid := by
    intro hpage
    exact h.working _ (List.mem_of_getElem? hi) b.sid (by simp [Pc.worksUnder, hpage])
  unfold State.runGetSession
  split
  · next x hkind hs =>
      have hadopt : Inv ttl (s.setTask i (.adopt b x)) := by
        refine h.setTask hi rfl rfl rfl ?_ ?_ ⟨hb, ?_⟩
        · rintro y hy
          obtain rfl := Option.some.inj hy
          exact .inl (.inl ⟨b.sid, hs⟩)
        · rintro k hk
          obtain rfl := Option.some.inj hk
          exact hworks hkind
        · exact (h.carried b.sid x hs).advance hi rfl (.refl i s.objects)
      exact hadopt.bind hb
  · next hkind _ =>
      have hpush : Inv ttl { s with objects := s.objects ++ [⟨b.sid, false, none, none⟩] } :=
        h.pushObject (hworks hkind)
      have hat : (s.objects ++ [(⟨b.sid, false, none, none⟩ : LiveSession)])[s.objects.length]? =
          some ⟨b.sid, false, none, none⟩ := by simp
      have hadopt := hpush.setTask (q := .adopt b s.objects.length) hi rfl rfl rfl ?_ ?_
        ⟨hb, .inl ⟨_, hat, rfl⟩⟩
      · exact hadopt.bind hb
      · rintro x hx
        obtain rfl := Option.some.inj hx
        refine .inr ?_
        intro o ho
        obtain rfl : ⟨b.sid, false, none, none⟩ = o := Option.some.inj (hat.symm.trans ho)
        exact hworks hkind
      · rintro k hk
        obtain rfl := Option.some.inj hk
        exact hworks hkind
  · next x _ hs =>
      have hbound : Inv ttl (s.setTask i (.bound ⟨x, b.request.tab, none⟩)) := by
        refine h.setTask hi rfl rfl rfl ?_ (by simp [Pc.worksUnder]) trivial
        rintro y hy
        obtain rfl := Option.some.inj hy
        exact .inl (.inl ⟨b.sid, hs⟩)
      exact hbound.bind hb
  · exact h.finished hi rfl

/-! ## Tasks with a session -/

/-- A task that has a session goes on with it. -/
theorem Inv.carryOn (h : Inv ttl s) {p pc : Pc} {x : SessId} {objects : List LiveSession}
    (hi : s.tasks[i]? = some p) (hp : p.moves = none) (hpx : p.sess = some x)
    (hkept : Kept i s.objects objects) (hmoves : pc.moves = none) (hleaves : pc.leaves = none)
    (hpcx : pc.sess = some x) (hworks : pc.worksUnder = none)
    (hsound : pc.Sound (s.advance i pc objects) i) : Inv ttl (s.advance i pc objects) := by
  refine h.advance hi hp hkept hmoves hleaves ?_ (by simp [hworks]) hsound
  intro y hy
  obtain rfl : x = y := Option.some.inj (hpcx.symm.trans hy)
  exact .inl (State.held_of_task hi hpx)

theorem Inv.runAdopt (h : Inv ttl s) {b : Resolved} {x : SessId} {o : LiveSession}
    (hi : s.tasks[i]? = some (.adopt b x)) (ho : s.objects[x]? = some o) :
    Inv ttl (s.runAdopt i b x o) := by
  unfold State.runAdopt
  simp only
  split
  · next hne => exact (h.adoptSid hi ho hne).carryOn hi rfl rfl (.refl i _) rfl rfl rfl rfl trivial
  · exact h.carryOn hi rfl rfl (.refl i _) rfl rfl rfl rfl trivial

/-- A free lock is taken. -/
theorem Kept.take {objects : List LiveSession} {x : SessId} {o o' : LiveSession}
    (ho : objects[x]? = some o) (hsid : o'.sid = o.sid) (hmu : o.mu = none ∨ o'.mu = o.mu)
    (hstoreMu : o.storeMu = none ∨ o'.storeMu = o.storeMu) :
    Kept i objects (objects.set x o') := by
  refine .set ho hsid ?_ ?_
  · intro j _ hj
    rcases hmu with hfree | hsame
    · rw [hfree] at hj
      cases hj
    · exact hsame.trans hj
  · intro j _ hj
    rcases hstoreMu with hfree | hsame
    · rw [hfree] at hj
      cases hj
    · exact hsame.trans hj

theorem State.objects_set_self {objects : List LiveSession} {x : SessId} {o : LiveSession}
    (ho : objects[x]? = some o) (o' : LiveSession) : (objects.set x o')[x]? = some o' :=
  List.getElem?_set_self (List.getElem?_eq_some_iff.1 ho).1

theorem Inv.runPersistLock (h : Inv ttl s) {w : Worker} {o : LiveSession}
    (hi : s.tasks[i]? = some (.persistLock w)) (ho : s.objects[w.sess]? = some o)
    (hfree : o.storeMu = none) :
    Inv ttl ((s.setObject w.sess { o with storeMu := some i }).setTask i (.persistSet w)) :=
  h.carryOn hi rfl rfl (.take ho rfl (.inr rfl) (.inl hfree)) rfl rfl rfl rfl
    ⟨_, State.objects_set_self ho _, rfl⟩

/-- The session is stored under its own id, which no rotation changes meanwhile. -/
theorem Inv.runPersistSet (h : Inv ttl s) {w : Worker} {o : LiveSession}
    (hi : s.tasks[i]? = some (.persistSet w)) (ho : s.objects[w.sess]? = some o) :
    Inv ttl (((s.set o.sid w.sess o).setObject w.sess { o with storeMu := none }).setTask i
      (.bound w)) := by
  obtain ⟨o', ho', hstoreMu⟩ := h.sound i _ hi
  obtain rfl : o = o' := Option.some.inj (ho.symm.trans ho')
  have hheld : s.Held w.sess := State.held_of_task hi rfl
  have hclear : ¬s.Retired o.sid := by
    intro hretired
    obtain ⟨j, w', old, k, hj, _, _, hstoreMu'⟩ := h.moved_of_retired ho hheld hretired
    obtain rfl : i = j := Option.some.inj (hstoreMu.symm.trans hstoreMu')
    rw [hi] at hj
    cases hj
  have hset : Inv ttl (s.set o.sid w.sess o) := by
    unfold State.set
    split
    · exact h
    · exact h.setSession hheld (.inl ⟨o, ho, rfl⟩) hclear
  have hfields : (s.set o.sid w.sess o).tasks = s.tasks ∧
      (s.set o.sid w.sess o).objects = s.objects := by
    unfold State.set
    split <;> exact ⟨rfl, rfl⟩
  have hkept : Kept i (s.set o.sid w.sess o).objects
      ((s.set o.sid w.sess o).objects.set w.sess { o with storeMu := none }) := by
    refine .set (o := o) (hfields.2 ▸ ho) rfl (fun _ _ hj => hj) ?_
    intro j hj hother
    exact absurd (Option.some.inj (hother.symm.trans hstoreMu)) hj
  exact hset.carryOn (hfields.1 ▸ hi) rfl rfl hkept rfl rfl rfl rfl trivial

theorem Inv.runRotateLock (h : Inv ttl s) {w : Worker} {o : LiveSession}
    (hi : s.tasks[i]? = some (.rotateLock w)) (ho : s.objects[w.sess]? = some o)
    (hstep : s.runRotateLock i w o = some t) : Inv ttl t := by
  unfold State.runRotateLock at hstep
  split at hstep
  · cases hstep
  · next hfree =>
      have hfree : o.mu = none := not_not.1 hfree
      split at hstep <;> obtain rfl := Option.some.inj hstep
      · exact h.carryOn hi rfl rfl (.refl i _) rfl rfl rfl rfl trivial
      · exact h.carryOn hi rfl rfl (.take ho rfl (.inl hfree) (.inr rfl)) rfl rfl rfl rfl
          ⟨_, State.objects_set_self ho _, rfl, rfl⟩

theorem Inv.runRekeyLock (h : Inv ttl s) {w : Worker} {old : Sid} {o : LiveSession}
    (hi : s.tasks[i]? = some (.rekeyLock w old)) (ho : s.objects[w.sess]? = some o)
    (hfree : o.storeMu = none) :
    Inv ttl ((s.setObject w.sess { o with storeMu := some i }).setTask i (.rekey w old)) := by
  obtain ⟨o', ho', hmu, hsid⟩ := h.sound i _ hi
  obtain rfl : o = o' := Option.some.inj (ho.symm.trans ho')
  exact h.carryOn hi rfl rfl (.take ho rfl (.inr rfl) (.inl hfree)) rfl rfl rfl rfl
    ⟨_, State.objects_set_self ho _, hmu, rfl, hsid⟩

/-! ## Every step -/

theorem Inv.run (h : Inv ttl s) {fresh : Sid} (hclear : s.Clear (.run i fresh))
    (hunseen : s.Unseen fresh) (hstep : s.run grace ttl i fresh = some t) : Inv ttl t := by
  unfold State.run at hstep
  split at hstep
  · cases hstep
  · cases hstep
  · cases hstep
  · next r val hi =>
      obtain rfl := Option.some.inj hstep
      exact h.runLookup hi
  · next r val goal cur hops hi =>
      obtain rfl := Option.some.inj hstep
      refine h.runGetAlias hi hunseen ?_
      rintro rfl rfl hpage
      exact hclear.2 r val cur hi hpage
  · next r val goal hops new hi =>
      obtain rfl := Option.some.inj hstep
      exact h.runGetNew hi hunseen
  · next r val goal cur hops hi =>
      obtain rfl := Option.some.inj hstep
      exact h.runGetEnd hi hunseen
  · next b hi =>
      split at hstep
      · obtain rfl := Option.some.inj hstep
        have hb := (h.setLocker b.sid (some i)).settle hi rfl (h.sound i _ hi) ?_
        · exact hb.2
        · intro hpage
          exact h.working _ (List.mem_of_getElem? hi) b.sid (by simp [Pc.worksUnder, hpage])
      · cases hstep
  · next b hi =>
      obtain rfl := Option.some.inj hstep
      exact h.runGetSession hi
  · next b x hi =>
      obtain ⟨o, ho, rfl⟩ := Option.map_eq_some_iff.1 hstep
      exact h.runAdopt hi ho
  · next w hi =>
      obtain ⟨o, ho, hstep⟩ := Option.bind_eq_some_iff.1 hstep
      split at hstep
      · next hfree =>
          obtain rfl := Option.some.inj hstep
          exact h.runPersistLock hi ho hfree
      · cases hstep
  · next w hi =>
      obtain ⟨o, ho, rfl⟩ := Option.map_eq_some_iff.1 hstep
      exact h.runPersistSet hi ho
  · next w hi =>
      obtain ⟨o, ho, hstep⟩ := Option.bind_eq_some_iff.1 hstep
      exact h.runRotateLock hi ho hstep
  · next w old hi =>
      obtain ⟨o, ho, hstep⟩ := Option.bind_eq_some_iff.1 hstep
      split at hstep
      · next hfree =>
          obtain rfl := Option.some.inj hstep
          exact h.runRekeyLock hi ho hfree
      · cases hstep
  · next w old hi =>
      obtain ⟨o, ho, rfl⟩ := Option.map_eq_some_iff.1 hstep
      obtain ⟨hpages, hothers⟩ := hclear.1 w old hi
      exact h.runRekey hi ho hunseen hpages hothers
  · next w old new hi =>
      obtain ⟨o, ho, rfl⟩ := Option.map_eq_some_iff.1 hstep
      exact h.setSid hi ho
  · next w old new hi =>
      obtain ⟨o, ho, rfl⟩ := Option.map_eq_some_iff.1 hstep
      exact h.runPutAlias grace hi ho
  · next w sid hi =>
      obtain rfl := Option.some.inj hstep
      exact (h.setAlias sid _).carryOn hi rfl rfl (.refl i _) rfl rfl rfl rfl trivial
  · next w hi =>
      obtain ⟨o, ho, rfl⟩ := Option.map_eq_some_iff.1 hstep
      exact (h.unsetSession o.sid).carryOn hi rfl rfl (.refl i _) rfl rfl rfl rfl trivial

theorem Inv.act (h : Inv ttl s) {w : Worker} {o : LiveSession} (hi : s.tasks[i]? = some (.bound w))
    (ho : s.objects[w.sess]? = some o) (a : State.Action) : Inv ttl (s.act i w o a) := by
  cases a with
  | persist =>
      have hbound : Inv ttl (s.setTask i (.bound w)) :=
        h.carryOn hi rfl rfl (.refl i _) rfl rfl rfl rfl trivial
      have hlock : Inv ttl (s.setTask i (.persistLock w)) :=
        h.carryOn hi rfl rfl (.refl i _) rfl rfl rfl rfl trivial
      unfold State.act
      simp only
      split
      · exact hbound
      · exact hlock
  | rotate => exact h.carryOn hi rfl rfl (.refl i _) rfl rfl rfl rfl trivial
  | endSession =>
      unfold State.act
      simp only
      split
      · exact h
      · exact h.carryOn hi rfl rfl (.take ho rfl (.inr rfl) (.inr rfl)) rfl rfl rfl rfl trivial
  | spawn =>
      refine h.push rfl rfl ?_ (by simp [Pc.worksUnder]) trivial
      rintro x hx
      obtain rfl := Option.some.inj hx
      exact State.held_of_task hi rfl
  | leave =>
      unfold State.act
      simp only
      split
      · exact h.finished hi rfl
      · next sid _ => exact (h.setLocker sid none).finished hi rfl

theorem Inv.accept (h : Inv ttl s) {r : Request} {fresh : Sid} (hunseen : s.Unseen fresh) :
    Inv ttl (s.accept r fresh) := by
  unfold State.accept
  split
  · next val hval =>
      exact (h.use _).push rfl rfl (by simp [Pc.sess]) (by simp [Pc.worksUnder]) hval
  · next hval hkind =>
      refine (h.use [fresh]).push rfl rfl (by simp [Pc.sess]) ?_ hkind
      intro k hk
      obtain rfl : fresh = k := by simpa [Pc.worksUnder, hkind] using hk
      exact h.not_retired_of_unseen hunseen
  · exact h

theorem Inv.step (h : Inv ttl s) {e : Event} (hclear : s.Clear e)
    (hstep : s.step grace ttl e = some t) : Inv ttl t := by
  unfold State.step at hstep
  cases e with
  | request r fresh =>
      simp only at hstep
      split at hstep
      · next hunseen =>
          obtain rfl := Option.some.inj hstep
          exact h.accept hunseen
      · cases hstep
  | run i fresh =>
      simp only at hstep
      split at hstep
      · next hunseen => exact h.run hclear hunseen hstep
      · cases hstep
  | act i a =>
      simp only at hstep
      split at hstep
      · next w hi =>
          obtain ⟨o, ho, rfl⟩ := Option.map_eq_some_iff.1 hstep
          exact h.act hi ho a
      · cases hstep
  | tick =>
      obtain rfl := Option.some.inj hstep
      exact h.tick
  | expire sid =>
      obtain rfl := Option.some.inj hstep
      exact h.unsetSession sid
  | reap sid =>
      simp only at hstep
      split at hstep
      · next a exp halias =>
          split at hstep
          · next hexp =>
              obtain rfl := Option.some.inj hstep
              exact h.reap halias hexp
          · cases hstep
      · cases hstep

end Sky.Rotation
