import Sky.Library.Run
import Sky.Model.Rotation
import Sky.Library.Tasks

/-! # What rotations keep

The condition under which an id stays retired, the invariant of the runs that meet it, and what
each update keeps. -/

namespace Sky.Rotation

open Library

/-! ## The invariant -/

/-- A session was moved away from the id, and its alias has not expired. -/
def State.Retired (s : State) (k : Sid) : Prop :=
  ∃ exp, s.retired k = some exp ∧ ∀ e, exp = some e → s.now ≤ e

/-- The session a task has. -/
def Pc.sess : Pc → Option SessId
  | .adopt _ x => some x
  | .bound w | .persistLock w | .persistSet w | .rotateLock w | .rekeyLock w _ | .rekey w _
  | .setSid w _ _ | .putAlias w _ _ | .endAlias w _ | .endDelete w => some w.sess
  | .finished | .lookup .. | .getAlias .. | .getNew .. | .getEnd .. | .lockSid _
  | .getSession _ => none

/-- The id under which a page request is about to store its session. -/
def Pc.worksUnder : Pc → Option Sid
  | .lockSid b | .getSession b => if b.request.kind = .page then some b.sid else none
  | .adopt b _ => some b.sid
  | _ => none

/-- The session and the id that a task moves a session to. -/
def Pc.moves : Pc → Option (SessId × Sid)
  | .setSid w _ new => some (w.sess, new)
  | _ => none

/-- The id whose alias a task has still to write. -/
def Pc.leaves : Pc → Option Sid
  | .setSid _ old _ | .putAlias _ old _ => some old
  | _ => none

/-- A session that the store or a task has. -/
def State.Held (s : State) (x : SessId) : Prop :=
  (∃ k, s.sessions k = some x) ∨ ∃ pc ∈ s.tasks, pc.sess = some x

/-- The session has the id, or is being moved to it. -/
def State.Carries (s : State) (x : SessId) (k : Sid) : Prop :=
  (∃ o, s.objects[x]? = some o ∧ o.sid = k) ∨ ∃ pc ∈ s.tasks, pc.moves = some (x, k)

/-- A session leaves an id only when no page request works under the id and no other session has
it; no page request asks for the alias of an id that a session has left before the alias is
there. -/
def State.Clear (s : State) : Event → Prop
  | .run i _ =>
      (∀ w old, s.tasks[i]? = some (.rekey w old) →
        (∀ pc ∈ s.tasks, pc.worksUnder ≠ some old) ∧
          ∀ x, x ≠ w.sess → s.Held x → ¬s.Carries x old) ∧
      ∀ r val cur, s.tasks[i]? = some (.getAlias r val .presented cur []) → r.kind = .page →
        s.retired cur ≠ some none
  | _ => True

/-- A chain of aliases that were written, from one id to another. -/
inductive Walk (put : List (Sid × SessionAlias)) (first : Sid) : List SessionAlias → Sid → Prop where
  | nil : Walk put first [] first
  | snoc {hops : List SessionAlias} {k u : Sid} {a : SessionAlias} (h : Walk put first hops k)
      (hput : (k, a) ∈ put) (hnew : a.new = some u) : Walk put first (hops ++ [a]) u

/-- A request has the id that it presents, a new one, or the one at the end of a chain of aliases
that its tab started and that are in their grace windows. -/
def Resolved.Sound (put : List (Sid × SessionAlias)) (b : Resolved) : Prop :=
  match b.via with
  | .presented => b.request.val = some b.sid
  | .minted => b.request.kind = .page
  | .hops hops now => ∃ val, b.request.val = some val ∧ Walk put val hops b.sid ∧
      aliasChainAllows hops b.request.tab now = true

/-- What a task knows at each point. -/
def Pc.Sound (s : State) (i : TaskId) : Pc → Prop
  | .lookup r val => r.val = some val
  | .getAlias r val goal cur hops => r.val = some val ∧ (goal = .presented → Walk s.put val hops cur)
  | .getNew r val goal hops cur | .getEnd r val goal cur hops =>
      r.val = some val ∧ (goal = .presented → Walk s.put val hops cur) ∧ hops ≠ []
  | .lockSid b | .getSession b => b.Sound s.put
  | .adopt b x => b.Sound s.put ∧ s.Carries x b.sid
  | .persistSet w => ∃ o, s.objects[w.sess]? = some o ∧ o.storeMu = some i
  | .rekeyLock w old => ∃ o, s.objects[w.sess]? = some o ∧ o.mu = some i ∧ o.sid = old
  | .rekey w old =>
      ∃ o, s.objects[w.sess]? = some o ∧ o.mu = some i ∧ o.storeMu = some i ∧ o.sid = old
  | .setSid w old new => ∃ o, s.objects[w.sess]? = some o ∧ o.mu = some i ∧ o.storeMu = some i ∧
      (o.sid = old ∨ o.sid = new)
  | .putAlias w _ _ => ∃ o, s.objects[w.sess]? = some o ∧ o.mu = some i
  | .finished | .bound _ | .persistLock _ | .rotateLock _ | .endAlias .. | .endDelete _ => True

/-- What every step that meets the condition keeps. -/
structure Inv (ttl : ℕ) (s : State) : Prop where
  gone : ∀ k, s.Retired k → s.sessions k = none
  carried : ∀ k x, s.sessions k = some x → s.Carries x k
  current : ∀ x o, s.objects[x]? = some o → s.Held x → s.Retired o.sid →
    ∃ pc ∈ s.tasks, ∃ k, pc.moves = some (x, k)
  moving : ∀ pc ∈ s.tasks, ∀ x k, pc.moves = some (x, k) → ¬s.Retired k
  working : ∀ pc ∈ s.tasks, ∀ k, pc.worksUnder = some k → ¬s.Retired k
  leaving : ∀ pc ∈ s.tasks, ∀ k, pc.leaves = some k → s.retired k = some none
  leaver : ∀ (i j : TaskId) (p q : Pc) (k : Sid), s.tasks[i]? = some p → s.tasks[j]? = some q →
    p.leaves = some k → q.leaves = some k → i = j
  sound : ∀ (i : TaskId) (pc : Pc), s.tasks[i]? = some pc → pc.Sound s i
  aliased : ∀ k e, s.retired k = some (some e) → e ≤ s.now + ttl ∧
    (s.now ≤ e → ∃ a exp, s.aliases k = some (a, exp) ∧ e ≤ exp)
  written : ∀ k a exp, s.aliases k = some (a, exp) → (k, a) ∈ s.put
  seen : ∀ k, s.retired k ≠ none → k ∈ s.used
  bindings : ∀ b ∈ s.bindings, b.resolved.Sound s.put

theorem inv_init (ttl : ℕ) : Inv ttl State.init where
  gone := by simp [State.init]
  carried := by simp [State.init]
  current := by simp [State.init]
  moving := by simp [State.init]
  working := by simp [State.init]
  leaving := by simp [State.init]
  leaver := by simp [State.init]
  sound := by simp [State.init]
  aliased := by simp [State.init]
  written := by simp [State.init]
  seen := by simp [State.init]
  bindings := by simp [State.init]

/-! ## The updates -/

variable {ttl : ℕ} {s t : State} {i : TaskId}

theorem Walk.mono {put put' : List (Sid × SessionAlias)} {v k : Sid} {hops : List SessionAlias}
    (h : Walk put v hops k) (hsub : put ⊆ put') : Walk put' v hops k := by
  induction h with
  | nil => exact .nil
  | snoc _ hput hnew ih => exact .snoc ih (hsub hput) hnew

theorem Walk.eq_of_nil {put : List (Sid × SessionAlias)} {v k : Sid} (h : Walk put v [] k) :
    k = v := by
  generalize hhops : ([] : List SessionAlias) = hops at h
  cases h with
  | nil => rfl
  | snoc => simp at hhops

theorem Resolved.Sound.mono {b : Resolved} {put put' : List (Sid × SessionAlias)}
    (h : b.Sound put) (hsub : put ⊆ put') : b.Sound put' := by
  unfold Resolved.Sound at *
  cases hvia : b.via with
  | presented => simpa [hvia] using h
  | minted => simpa [hvia] using h
  | hops hops now =>
      simp only [hvia] at h ⊢
      obtain ⟨val, hval, hwalk, hallows⟩ := h
      exact ⟨val, hval, hwalk.mono hsub, hallows⟩

/-! ## A step of one task -/

/-- The sessions keep their ids and what the other tasks have locked. -/
structure Kept (i : TaskId) (objects objects' : List LiveSession) : Prop where
  old : ∀ (x : SessId) (o : LiveSession), objects[x]? = some o → ∃ o' : LiveSession,
    objects'[x]? = some o' ∧ o'.sid = o.sid ∧
    ∀ j, j ≠ i → (o.mu = some j → o'.mu = some j) ∧ (o.storeMu = some j → o'.storeMu = some j)
  new : ∀ (x : SessId) (o' : LiveSession), objects'[x]? = some o' →
    ∃ o : LiveSession, objects[x]? = some o ∧ o.sid = o'.sid

theorem Kept.refl (i : TaskId) (objects : List LiveSession) : Kept i objects objects where
  old := fun _ o ho => ⟨o, ho, rfl, fun _ _ => ⟨id, id⟩⟩
  new := fun _ o ho => ⟨o, ho, rfl⟩

theorem Kept.set {objects : List LiveSession} {x : SessId} {o o' : LiveSession}
    (ho : objects[x]? = some o) (hsid : o'.sid = o.sid)
    (hmu : ∀ j, j ≠ i → o.mu = some j → o'.mu = some j)
    (hstoreMu : ∀ j, j ≠ i → o.storeMu = some j → o'.storeMu = some j) :
    Kept i objects (objects.set x o') where
  old := by
    intro y z hz
    by_cases hxy : x = y
    · subst hxy
      obtain rfl : o = z := Option.some.inj (ho.symm.trans hz)
      exact ⟨o', List.getElem?_set_self (List.getElem?_eq_some_iff.1 ho).1, hsid,
        fun j hj => ⟨hmu j hj, hstoreMu j hj⟩⟩
    · exact ⟨z, (List.getElem?_set_ne hxy).trans hz, rfl, fun _ _ => ⟨id, id⟩⟩
  new := by
    intro y z hz
    rcases getElem?_set_cases hz with ⟨rfl, rfl⟩ | ⟨_, hz'⟩
    · exact ⟨o, ho, hsid.symm⟩
    · exact ⟨z, hz', rfl⟩

def State.advance (s : State) (i : TaskId) (pc : Pc) (objects : List LiveSession) : State :=
  { s with tasks := s.tasks.set i pc, objects := objects }

theorem State.mem_advance {p r q : Pc} {l : List LiveSession} (hi : s.tasks[i]? = some p)
    (hq : q ∈ s.tasks) (hne : q ≠ p) : q ∈ (s.advance i r l).tasks :=
  mem_set_of_ne hi hq hne

theorem State.moves_advance {p r : Pc} {l : List LiveSession} (hi : s.tasks[i]? = some p)
    (hp : p.moves = none) {m : SessId × Sid} (h : ∃ q ∈ s.tasks, q.moves = some m) :
    ∃ q ∈ (s.advance i r l).tasks, q.moves = some m := by
  obtain ⟨q, hq, hm⟩ := h
  refine ⟨q, State.mem_advance hi hq ?_, hm⟩
  rintro rfl
  rw [hp] at hm
  cases hm

theorem State.Carries.advance {p r : Pc} {l : List LiveSession}
    (hi : s.tasks[i]? = some p) (hp : p.moves = none) (hkept : Kept i s.objects l) {x : SessId}
    {k : Sid} (h : s.Carries x k) : (s.advance i r l).Carries x k := by
  rcases h with ⟨o, ho, rfl⟩ | hmoves
  · obtain ⟨o', ho', hsid, _⟩ := hkept.old x o ho
    exact .inl ⟨o', ho', hsid⟩
  · exact .inr (State.moves_advance hi hp hmoves)

/-- What a task knows does not depend on what another task does. -/
theorem Pc.Sound.advance {p r q : Pc} {l : List LiveSession} {j : TaskId}
    (hi : s.tasks[i]? = some p) (hp : p.moves = none) (hkept : Kept i s.objects l)
    (hj : j ≠ i) (h : q.Sound s j) : q.Sound (s.advance i r l) j := by
  cases q with
  | adopt b x => exact ⟨h.1, h.2.advance hi hp hkept⟩
  | persistSet w =>
      obtain ⟨o, ho, hlock⟩ := h
      obtain ⟨o', ho', _, hlocks⟩ := hkept.old _ o ho
      exact ⟨o', ho', (hlocks j hj).2 hlock⟩
  | rekeyLock w old =>
      obtain ⟨o, ho, hlock, hsid⟩ := h
      obtain ⟨o', ho', hsid', hlocks⟩ := hkept.old _ o ho
      exact ⟨o', ho', (hlocks j hj).1 hlock, hsid'.trans hsid⟩
  | rekey w old =>
      obtain ⟨o, ho, hlock, hstore, hsid⟩ := h
      obtain ⟨o', ho', hsid', hlocks⟩ := hkept.old _ o ho
      exact ⟨o', ho', (hlocks j hj).1 hlock, (hlocks j hj).2 hstore, hsid'.trans hsid⟩
  | setSid w old new =>
      obtain ⟨o, ho, hlock, hstore, hsid⟩ := h
      obtain ⟨o', ho', hsid', hlocks⟩ := hkept.old _ o ho
      exact ⟨o', ho', (hlocks j hj).1 hlock, (hlocks j hj).2 hstore, hsid' ▸ hsid⟩
  | putAlias w old new =>
      obtain ⟨o, ho, hlock⟩ := h
      obtain ⟨o', ho', _, hlocks⟩ := hkept.old _ o ho
      exact ⟨o', ho', (hlocks j hj).1 hlock⟩
  | finished => trivial
  | lookup r val => exact h
  | getAlias r val goal cur hops => exact h
  | getNew r val goal hops cur => exact h
  | getEnd r val goal cur hops => exact h
  | lockSid b => exact h
  | getSession b => exact h
  | bound w => trivial
  | persistLock w => trivial
  | rotateLock w => trivial
  | endAlias w sid => trivial
  | endDelete w => trivial

/-- A task goes on, and takes or gives back locks of its own. -/
theorem Inv.advance (h : Inv ttl s) {p pc : Pc} {objects : List LiveSession}
    (hi : s.tasks[i]? = some p) (hp : p.moves = none) (hkept : Kept i s.objects objects)
    (hmoves : pc.moves = none) (hleaves : pc.leaves = none)
    (hsess : ∀ x, pc.sess = some x → s.Held x ∨ ∀ o, objects[x]? = some o → ¬s.Retired o.sid)
    (hworks : ∀ k, pc.worksUnder = some k → ¬s.Retired k)
    (hsound : pc.Sound (s.advance i pc objects) i) : Inv ttl (s.advance i pc objects) :=
  { h with
    carried := fun k x hk => (h.carried k x hk).advance hi hp hkept
    current := by
      intro x o ho hheld hretired
      have hheld' : s.Held x := by
        rcases hheld with hstore | ⟨q, hq, hx⟩
        · exact .inl hstore
        · rcases List.mem_or_eq_of_mem_set hq with hold | rfl
          · exact .inr ⟨q, hold, hx⟩
          · exact (hsess x hx).resolve_right fun hclear => hclear o ho hretired
      obtain ⟨o', ho', hsid⟩ := hkept.new x o ho
      rw [← hsid] at hretired
      obtain ⟨q, hq, k, hm⟩ := h.current x o' ho' hheld' hretired
      obtain ⟨q', hq', hm'⟩ := State.moves_advance hi hp ⟨q, hq, hm⟩
      exact ⟨q', hq', k, hm'⟩
    moving := by
      intro q hq x k hm
      rcases List.mem_or_eq_of_mem_set hq with hold | rfl
      · exact h.moving q hold x k hm
      · rw [hmoves] at hm
        cases hm
    working := by
      intro q hq k hk
      rcases List.mem_or_eq_of_mem_set hq with hold | rfl
      · exact h.working q hold k hk
      · exact hworks k hk
    leaving := by
      intro q hq k hk
      rcases List.mem_or_eq_of_mem_set hq with hold | rfl
      · exact h.leaving q hold k hk
      · rw [hleaves] at hk
        cases hk
    leaver := by
      intro j l q r k hj hl hqk hrk
      rcases getElem?_set_cases hj with ⟨_, rfl⟩ | ⟨_, hj'⟩
      · rw [hleaves] at hqk
        cases hqk
      · rcases getElem?_set_cases hl with ⟨_, rfl⟩ | ⟨_, hl'⟩
        · rw [hleaves] at hrk
          cases hrk
        · exact h.leaver j l q r k hj' hl' hqk hrk
    sound := by
      intro j q hj
      rcases getElem?_set_cases hj with ⟨rfl, rfl⟩ | ⟨hne, hj'⟩
      · exact hsound
      · exact (h.sound j q hj').advance hi hp hkept (Ne.symm hne) }

/-- A task goes on and locks nothing. -/
theorem Inv.setTask (h : Inv ttl s) {p q : Pc} (hi : s.tasks[i]? = some p) (hp : p.moves = none)
    (hmoves : q.moves = none) (hleaves : q.leaves = none)
    (hsess : ∀ x, q.sess = some x → s.Held x ∨ ∀ o, s.objects[x]? = some o → ¬s.Retired o.sid)
    (hworks : ∀ k, q.worksUnder = some k → ¬s.Retired k)
    (hsound : q.Sound (s.setTask i q) i) : Inv ttl (s.setTask i q) :=
  h.advance hi hp (.refl i s.objects) hmoves hleaves hsess hworks hsound

/-! ## The store and the history -/

/-- What a task knows needs the sessions, the moves and the aliases written so far. -/
theorem Pc.Sound.mono {pc : Pc} (h : pc.Sound s i) (hput : s.put ⊆ t.put)
    (hobjects : ∀ (x : SessId) (o : LiveSession), s.objects[x]? = some o → t.objects[x]? = some o)
    (htasks : s.tasks ⊆ t.tasks) : pc.Sound t i := by
  cases pc with
  | getAlias r val goal cur hops => exact ⟨h.1, fun hgoal => (h.2 hgoal).mono hput⟩
  | getNew r val goal hops cur => exact ⟨h.1, fun hgoal => (h.2.1 hgoal).mono hput, h.2.2⟩
  | getEnd r val goal cur hops => exact ⟨h.1, fun hgoal => (h.2.1 hgoal).mono hput, h.2.2⟩
  | lockSid b => exact Resolved.Sound.mono h hput
  | getSession b => exact Resolved.Sound.mono h hput
  | adopt b x =>
      refine ⟨h.1.mono hput, ?_⟩
      rcases h.2 with ⟨o, ho, hsid⟩ | ⟨q, hq, hm⟩
      · exact .inl ⟨o, hobjects x o ho, hsid⟩
      · exact .inr ⟨q, htasks hq, hm⟩
  | persistSet w =>
      obtain ⟨o, ho, hlock⟩ := h
      exact ⟨o, hobjects _ o ho, hlock⟩
  | rekeyLock w old =>
      obtain ⟨o, ho, hlock⟩ := h
      exact ⟨o, hobjects _ o ho, hlock⟩
  | rekey w old =>
      obtain ⟨o, ho, hlock⟩ := h
      exact ⟨o, hobjects _ o ho, hlock⟩
  | setSid w old new =>
      obtain ⟨o, ho, hlock⟩ := h
      exact ⟨o, hobjects _ o ho, hlock⟩
  | putAlias w old new =>
      obtain ⟨o, ho, hlock⟩ := h
      exact ⟨o, hobjects _ o ho, hlock⟩
  | finished => trivial
  | lookup r val => exact h
  | bound w => trivial
  | persistLock w => trivial
  | rotateLock w => trivial
  | endAlias w sid => trivial
  | endDelete w => trivial

theorem Inv.use (h : Inv ttl s) (sids : List Sid) : Inv ttl (s.use sids) :=
  { h with
    sound := fun j pc hj => (h.sound j pc hj).mono (List.Subset.refl _) (fun _ _ ho => ho)
      (List.Subset.refl _)
    seen := fun k hk => List.mem_append_right _ (h.seen k hk) }

theorem Inv.setLocker (h : Inv ttl s) (sid : Sid) (i : Option TaskId) :
    Inv ttl (s.setLocker sid i) :=
  { h with
    sound := fun j pc hj => (h.sound j pc hj).mono (List.Subset.refl _) (fun _ _ ho => ho)
      (List.Subset.refl _) }

theorem Inv.bind (h : Inv ttl s) {b : Binding} (hb : b.resolved.Sound s.put) :
    Inv ttl (s.bind b) :=
  { h with
    sound := fun j pc hj => (h.sound j pc hj).mono (List.Subset.refl _) (fun _ _ ho => ho)
      (List.Subset.refl _)
    bindings := by
      intro b' hb'
      rcases List.mem_cons.1 hb' with rfl | hold
      · exact hb
      · exact h.bindings b' hold }

/-- A session that is held is stored under an id that it has. -/
theorem Inv.setSession (h : Inv ttl s) {k : Sid} {x : SessId} (hheld : s.Held x)
    (hcarries : s.Carries x k) (hclear : ¬s.Retired k) : Inv ttl (s.setSession k (some x)) :=
  { h with
    gone := by
      intro k' hk'
      have hne : k' ≠ k := by
        rintro rfl
        exact hclear hk'
      exact (Function.update_of_ne hne _ _).trans (h.gone k' hk')
    carried := by
      intro k' y hy
      by_cases hk : k' = k
      · subst hk
        obtain rfl : x = y := by simpa [State.setSession] using hy
        exact hcarries
      · exact h.carried k' y ((Function.update_of_ne hk _ _).symm.trans hy)
    current := by
      intro y o ho hy hretired
      refine h.current y o ho ?_ hretired
      rcases hy with ⟨k', hk'⟩ | htask
      · by_cases hk : k' = k
        · subst hk
          obtain rfl : x = y := by simpa [State.setSession] using hk'
          exact hheld
        · exact .inl ⟨k', (Function.update_of_ne hk _ _).symm.trans hk'⟩
      · exact .inr htask
    sound := fun j pc hj => (h.sound j pc hj).mono (List.Subset.refl _) (fun _ _ ho => ho)
      (List.Subset.refl _) }

theorem Inv.unsetSession (h : Inv ttl s) (k : Sid) : Inv ttl (s.setSession k none) := by
  have hsub : ∀ k' x, (s.setSession k none).sessions k' = some x → s.sessions k' = some x := by
    intro k' x hx
    by_cases hk : k' = k
    · simp [State.setSession, hk] at hx
    · exact (Function.update_of_ne hk _ _).symm.trans hx
  exact
    { h with
      gone := by
        intro k' hk'
        refine Option.eq_none_iff_forall_ne_some.2 ?_
        intro x hx
        have hnone : s.sessions k' = none := h.gone k' hk'
        rw [hsub k' x hx] at hnone
        cases hnone
      carried := fun k' x hx => h.carried k' x (hsub k' x hx)
      current := by
        intro x o ho hx hretired
        refine h.current x o ho ?_ hretired
        rcases hx with ⟨k', hk'⟩ | htask
        · exact .inl ⟨k', hsub k' x hk'⟩
        · exact .inr htask
      sound := fun j pc hj => (h.sound j pc hj).mono (List.Subset.refl _) (fun _ _ ho => ho)
        (List.Subset.refl _) }

theorem Inv.setAlias (h : Inv ttl s) (k : Sid) (a : SessionAlias) :
    Inv ttl (s.setAlias k a (s.now + ttl)) :=
  { h with
    sound := fun j pc hj => (h.sound j pc hj).mono (List.subset_cons_self _ _)
      (fun _ _ ho => ho) (List.Subset.refl _)
    aliased := by
      intro k' e hk'
      obtain ⟨hle, hlive⟩ := h.aliased k' e hk'
      refine ⟨hle, ?_⟩
      intro hnow
      by_cases hk : k' = k
      · subst hk
        exact ⟨a, s.now + ttl, by simp [State.setAlias], hle⟩
      · obtain ⟨a', exp, halias, hexp⟩ := hlive hnow
        exact ⟨a', exp, (Function.update_of_ne hk _ _).trans halias, hexp⟩
    written := by
      intro k' a' exp halias
      by_cases hk : k' = k
      · subst hk
        obtain ⟨rfl, rfl⟩ : a = a' ∧ s.now + ttl = exp := by simpa [State.setAlias] using halias
        exact List.mem_cons_self
      · exact List.mem_cons_of_mem _
          (h.written k' a' exp ((Function.update_of_ne hk _ _).symm.trans halias))
    bindings := fun b hb => (h.bindings b hb).mono (List.subset_cons_self _ _) }

theorem Inv.reap (h : Inv ttl s) {k : Sid} {a : SessionAlias} {exp : ℕ}
    (halias : s.aliases k = some (a, exp)) (hexp : exp < s.now) :
    Inv ttl { s with aliases := Function.update s.aliases k none } :=
  { h with
    sound := fun j pc hj => (h.sound j pc hj).mono (List.Subset.refl _) (fun _ _ ho => ho)
      (List.Subset.refl _)
    aliased := by
      intro k' e hk'
      obtain ⟨hle, hlive⟩ := h.aliased k' e hk'
      refine ⟨hle, ?_⟩
      intro hnow
      obtain ⟨a', exp', halias', hexp'⟩ := hlive hnow
      have hne : k' ≠ k := by
        rintro rfl
        obtain ⟨rfl, rfl⟩ : a = a' ∧ exp = exp' := by
          simpa using halias.symm.trans halias'
        have : s.now ≤ e := hnow
        omega
      exact ⟨a', exp', (Function.update_of_ne hne _ _).trans halias', hexp'⟩
    written := by
      intro k' a' exp' halias'
      by_cases hk : k' = k
      · simp [hk] at halias'
      · exact h.written k' a' exp' ((Function.update_of_ne hk _ _).symm.trans halias') }

theorem Inv.tick (h : Inv ttl s) : Inv ttl { s with now := s.now + 1 } := by
  have hretired : ∀ k, ({ s with now := s.now + 1 } : State).Retired k → s.Retired k := by
    rintro k ⟨exp, hexp, hlive⟩
    exact ⟨exp, hexp, fun e he => (Nat.le_succ _).trans (hlive e he)⟩
  exact
    { h with
      gone := fun k hk => h.gone k (hretired k hk)
      current := fun x o ho hx hk => h.current x o ho hx (hretired _ hk)
      moving := fun pc hpc x k hm hk => h.moving pc hpc x k hm (hretired k hk)
      working := fun pc hpc k hw hk => h.working pc hpc k hw (hretired k hk)
      sound := fun j pc hj => (h.sound j pc hj).mono (List.Subset.refl _) (fun _ _ ho => ho)
        (List.Subset.refl _)
      aliased := by
        intro k e hk
        obtain ⟨hle, hlive⟩ := h.aliased k e hk
        refine ⟨by simp only; omega, ?_⟩
        intro hnow
        exact hlive ((Nat.le_succ _).trans hnow) }

/-- A new task, that moves nothing and claims nothing. -/
theorem Inv.push (h : Inv ttl s) {pc : Pc} (hmoves : pc.moves = none) (hleaves : pc.leaves = none)
    (hsess : ∀ x, pc.sess = some x → s.Held x)
    (hworks : ∀ k, pc.worksUnder = some k → ¬s.Retired k)
    (hsound : pc.Sound s s.tasks.length) : Inv ttl (s.push pc) := by
  have hsub : s.tasks ⊆ (s.push pc).tasks := List.subset_append_left _ _
  have hcases : ∀ q ∈ (s.push pc).tasks, q ∈ s.tasks ∨ q = pc := by
    intro q hq
    rcases List.mem_append.1 hq with hold | hnew
    · exact .inl hold
    · exact .inr (List.mem_singleton.1 hnew)
  have hat : ∀ j q, (s.push pc).tasks[j]? = some q →
      s.tasks[j]? = some q ∨ j = s.tasks.length ∧ q = pc := by
    intro j q hj
    rcases lt_trichotomy j s.tasks.length with hlt | rfl | hgt
    · exact .inl (by rwa [State.push, List.getElem?_append_left hlt] at hj)
    · exact .inr ⟨rfl, by simpa [State.push] using hj.symm⟩
    · rw [State.push, List.getElem?_eq_none (by simpa using hgt)] at hj
      cases hj
  exact
    { h with
      carried := by
        intro k x hk
        rcases h.carried k x hk with hobject | ⟨q, hq, hm⟩
        · exact .inl hobject
        · exact .inr ⟨q, hsub hq, hm⟩
      current := by
        intro x o ho hx hretired
        have hx' : s.Held x := by
          rcases hx with hstore | ⟨q, hq, hq'⟩
          · exact .inl hstore
          · rcases hcases q hq with hold | rfl
            · exact .inr ⟨q, hold, hq'⟩
            · exact hsess x hq'
        obtain ⟨q, hq, k, hm⟩ := h.current x o ho hx' hretired
        exact ⟨q, hsub hq, k, hm⟩
      moving := by
        intro q hq x k hm
        rcases hcases q hq with hold | rfl
        · exact h.moving q hold x k hm
        · rw [hmoves] at hm
          cases hm
      working := by
        intro q hq k hw
        rcases hcases q hq with hold | rfl
        · exact h.working q hold k hw
        · exact hworks k hw
      leaving := by
        intro q hq k hl
        rcases hcases q hq with hold | rfl
        · exact h.leaving q hold k hl
        · rw [hleaves] at hl
          cases hl
      leaver := by
        intro j l q r k hj hl hqk hrk
        rcases hat j q hj with hj' | ⟨_, rfl⟩
        · rcases hat l r hl with hl' | ⟨_, rfl⟩
          · exact h.leaver j l q r k hj' hl' hqk hrk
          · rw [hleaves] at hrk
            cases hrk
        · rw [hleaves] at hqk
          cases hqk
      sound := by
        intro j q hj
        rcases hat j q hj with hj' | ⟨rfl, rfl⟩
        · exact (h.sound j q hj').mono (List.Subset.refl _) (fun _ _ ho => ho) hsub
        · exact hsound.mono (List.Subset.refl _) (fun _ _ ho => ho) hsub }

/-- A new session, with an id that is not retired. -/
theorem Inv.pushObject (h : Inv ttl s) {o : LiveSession} (hclear : ¬s.Retired o.sid) :
    Inv ttl { s with objects := s.objects ++ [o] } := by
  have hold : ∀ (x : SessId) (o' : LiveSession), s.objects[x]? = some o' →
      (s.objects ++ [o])[x]? = some o' := by
    intro x o' hx
    rw [List.getElem?_append_left (List.getElem?_eq_some_iff.1 hx).1, hx]
  exact
    { h with
      carried := by
        intro k x hk
        rcases h.carried k x hk with ⟨o', ho', hsid⟩ | hm
        · exact .inl ⟨o', hold x o' ho', hsid⟩
        · exact .inr hm
      current := by
        intro x o' ho' hx hretired
        rcases lt_trichotomy x s.objects.length with hlt | rfl | hgt
        · exact h.current x o' (by rwa [List.getElem?_append_left hlt] at ho') hx hretired
        · obtain rfl : o = o' := by simpa using ho'
          exact absurd hretired hclear
        · rw [List.getElem?_eq_none (by simpa using hgt)] at ho'
          cases ho'
      sound := fun j pc hj => (h.sound j pc hj).mono (List.Subset.refl _) hold
        (List.Subset.refl _) }

end Sky.Rotation
