import Sky.Library.Run
import Sky.Verification.Noise.Finish

/-! # No nonce is used twice under one key -/

namespace Sky.Noise

open Library

variable {prim : Primitives} {s t : State} {i : ℕ}

/-- The keys and the ciphers of a session. A cipher at a current position is live, and no two
directions have one key. -/
structure Keyed (prim : Primitives) (s : State) : Prop where
  session : ∀ hs ∈ s.handshakes, hs.guard = 0
  transport : ∀ g p c, s.HasCipher g p c → g ≠ 0
  same : ∀ g p c c', s.HasCipher g p c → s.HasCipher g p c' → c = c'
  live : ∀ g p c, s.HasCipher g p c → s.Current prim g p → Live s.log c
  apart : ∀ g p c g' p' c', s.HasCipher g p c → s.HasCipher g' p' c' → s.Current prim g p →
    s.Current prim g' p' → g ≠ g' → c.k ≠ c'.k
  steps : ∀ p second k, Entry.derived (.mixKey p second) k ∈ s.log → ∀ q, s.Current prim 0 q → p < q
  splits : ∀ second k, Entry.derived (.split second) k ∈ s.log → ∀ q, s.Current prim 0 q → 2 < q
  sound : Sound s.log

/-- A step that keeps the values and the log, and makes no position current where one stands. -/
theorem Keyed.of_same (h : Keyed prim s)
    (hvalues : t.handshakes = s.handshakes ∧ t.transports = s.transports) (hlog : t.log = s.log)
    (hcurrent : ∀ g q, t.Current prim g q → s.Stands g q → s.Current prim g q)
    (hlower : ∀ q, t.Current prim 0 q → ∃ q', s.Current prim 0 q' ∧ q' ≤ q) : Keyed prim t := by
  have hcipher : ∀ {g p c}, t.HasCipher g p c → s.HasCipher g p c := by
    intro g p c hc
    unfold State.HasCipher at *
    rwa [hvalues.2] at hc
  have hnow : ∀ {g p c}, t.HasCipher g p c → t.Current prim g p → s.Current prim g p :=
    fun hc hcur => hcurrent _ _ hcur (.inr ⟨_, hcipher hc⟩)
  have hbelow : ∀ {p q : UInt64}, (∀ q, s.Current prim 0 q → p < q) → t.Current prim 0 q →
      p < q := by
    intro p q hs hq
    obtain ⟨q', hq', hle⟩ := hlower q hq
    exact UInt64.lt_of_lt_of_le (hs q' hq') hle
  exact
    { session := fun hs hmem => h.session hs (hvalues.1 ▸ hmem)
      transport := fun g p c hc => h.transport g p c (hcipher hc)
      same := fun g p c c' hc hc' => h.same g p c c' (hcipher hc) (hcipher hc')
      live := fun g p c hc hcur => hlog ▸ h.live g p c (hcipher hc) (hnow hc hcur)
      apart := fun g p c g' p' c' hc hc' hcur hcur' =>
        h.apart g p c g' p' c' (hcipher hc) (hcipher hc') (hnow hc hcur) (hnow hc' hcur')
      steps := fun p second k hk q hq => hbelow (h.steps p second k (hlog ▸ hk)) hq
      splits := fun second k hk q hq => hbelow (h.splits second k (hlog ▸ hk)) hq
      sound := hlog ▸ h.sound }

theorem keyed_init (suite : Suite) (initiator : Bool) (x rs prologue e : Bytes) :
    Keyed prim (State.init prim suite initiator x rs prologue e) where
  session := by
    intro hs hmem
    obtain rfl := List.mem_singleton.1 hmem
    rfl
  transport := by simp [State.HasCipher, State.init]
  same := by simp [State.HasCipher, State.init]
  live := by simp [State.HasCipher, State.init]
  apart := by simp [State.HasCipher, State.init]
  steps := by simp [State.init]
  splits := by simp [State.init]
  sound := sound_nil

theorem guarded_init (suite : Suite) (initiator : Bool) (x rs prologue e : Bytes) :
    Guarded prim (State.init prim suite initiator x rs prologue e) where
  keyed := by simp [State.HasCipher, State.init]
  known := by simp [State.init]
  bound := by
    rintro g p (⟨hs, hmem, rfl, rfl⟩ | ⟨c, t, ht, _⟩)
    · obtain rfl := List.mem_singleton.1 hmem
      exact ⟨0, rfl, UInt64.le_refl _⟩
    · simp [State.init] at ht
  held := by simp [State.init]
  unique := by simp [State.init]

/-! ## Claiming -/

theorem Keyed.setFinished (h : Keyed prim s) (i : ℕ) : Keyed prim (s.setTask i .finished) := by
  have hcurrent : ∀ g q, (s.setTask i .finished).Current prim g q → s.Current prim g q := by
    rintro g q (hguard | ⟨pc, hpc, hholds⟩)
    · exact .inl hguard
    · rcases List.mem_or_eq_of_mem_set hpc with hold | rfl
      · exact .inr ⟨pc, hold, hholds⟩
      · cases hholds
  exact h.of_same ⟨rfl, rfl⟩ rfl (fun g q hq _ => hcurrent g q hq)
    fun q hq => ⟨q, hcurrent 0 q hq, UInt64.le_refl q⟩

theorem Keyed.claim (hg : Guarded prim s) (h : Keyed prim s) {c : Call}
    (hpos : (c.attempt prim).pos ≠ maxNonce) : Keyed prim (s.claim prim i c) := by
  unfold State.claim
  simp only
  split
  · exact h.setFinished i
  · split
    · next hguard =>
        generalize hgrd : (c.attempt prim).guard = g at hguard
        generalize hp : (c.attempt prim).pos = p at hguard hpos
        have hcurrent : ∀ g' q, ({ s with guards := s.guards.set g (p + 1) }.setTask i
            (.claimed c)).Current prim g' q → s.Current prim g' q ∨ g' = g ∧ q = p + 1 := by
          rintro g' q (hq | ⟨pc, hpc, hholds⟩)
          · simp only [State.setTask, getElem?_set_guard hguard] at hq
            by_cases heq : g' = g
            · rw [if_pos heq] at hq
              exact .inr ⟨heq, (Option.some.inj hq).symm⟩
            · rw [if_neg heq] at hq
              exact .inl (.inl hq)
          · rcases List.mem_or_eq_of_mem_set hpc with hold | rfl
            · exact .inl (.inr ⟨pc, hold, hholds⟩)
            · obtain ⟨rfl, rfl⟩ : g = g' ∧ p = q := by simpa [Pc.holds, hgrd, hp] using hholds
              exact .inl (.inl hguard)
        refine h.of_same ⟨rfl, rfl⟩ rfl ?_ ?_
        · intro g' q hq hstands
          rcases hcurrent g' q hq with hold | ⟨rfl, rfl⟩
          · exact hold
          · obtain ⟨a, ha, hle⟩ := hg.bound g' _ hstands
            obtain rfl := Option.some.inj (hguard.symm.trans ha)
            exact absurd (lt_succ_self hpos) (UInt64.not_lt.2 hle)
        · intro q hq
          rcases hcurrent 0 q hq with hold | ⟨rfl, rfl⟩
          · exact ⟨q, hold, UInt64.le_refl q⟩
          · exact ⟨p, .inl hguard, UInt64.le_of_lt (lt_succ_self hpos)⟩
    · exact h.setFinished i

/-! ## Finishing -/

/-- What a call may leave of the guards. -/
def GuardsSettled (prim : Primitives) (s t : State) (c : Call) : Prop :=
  (∃ n, t.guards = s.guards ++ List.replicate n 0) ∨
    ∃ a, (a = (c.attempt prim).pos ∨ a = maxNonce) ∧
      t.guards = s.guards.set (c.attempt prim).guard a

/-- What is current when a call has finished: its guard's new position, or what was current at
another guard. -/
theorem Guarded.current_cases (h : Guarded prim s) {c : Call}
    (hi : s.tasks[i]? = some (.claimed c)) (htasks : t.tasks = s.tasks.set i .finished)
    {g : GuardId} {q : UInt64} (hq : t.Current prim g q) :
    g = (c.attempt prim).guard ∧ t.guards[g]? = some q ∨ g ≠ (c.attempt prim).guard ∧
      (t.guards[g]? = some q ∨ ∃ pc ∈ s.tasks, pc.holds prim = some (g, q)) := by
  by_cases heq : g = (c.attempt prim).guard
  · refine .inl ⟨heq, ?_⟩
    rcases hq with hguard | ⟨pc, hpc, hholds⟩
    · exact hguard
    · rcases mem_set_cases (htasks ▸ hpc) with rfl | ⟨j, hij, hj⟩
      · cases hholds
      · subst heq
        exact absurd (h.unique i j _ pc _ _ q hi hj rfl hholds) hij
  · refine .inr ⟨heq, ?_⟩
    rcases hq with hguard | ⟨pc, hpc, hholds⟩
    · exact .inl hguard
    · rcases mem_set_cases (htasks ▸ hpc) with rfl | ⟨j, _, hj⟩
      · cases hholds
      · exact .inr ⟨pc, List.mem_of_getElem? hj, hholds⟩

/-- The current positions where values stood: at another guard than the call's, which has gone on
or was released. -/
theorem Guarded.current_settled (h : Guarded prim s) {c : Call}
    (hi : s.tasks[i]? = some (.claimed c)) (htasks : t.tasks = s.tasks.set i .finished)
    (hguards : GuardsSettled prim s t c)
    {g : GuardId} {q : UInt64} (hq : t.Current prim g q) (hstands : s.Stands g q) :
    s.Current prim g q ∧ (g = (c.attempt prim).guard →
      t.guards = s.guards.set (c.attempt prim).guard (c.attempt prim).pos) := by
  have hmem := List.mem_of_getElem? hi
  obtain ⟨hguard, hpos, hbelow⟩ := h.held _ hmem _ _ rfl
  obtain ⟨a, ha, _⟩ := h.bound g q hstands
  have hlt : g < s.guards.length := (List.getElem?_eq_some_iff.1 ha).1
  rcases h.current_cases hi htasks hq with ⟨rfl, hnow⟩ | ⟨hne, hnow⟩
  · rcases hguards with ⟨n, hguards⟩ | ⟨b, hb, hguards⟩
    · rw [hguards, List.getElem?_append_left hlt, hguard] at hnow
      obtain rfl := Option.some.inj hnow
      exact absurd (lt_succ_self hpos) (UInt64.not_lt.2 (hbelow _ hstands))
    · rw [hguards, getElem?_set_guard hguard, if_pos rfl] at hnow
      obtain rfl := Option.some.inj hnow
      rcases hb with rfl | rfl
      · exact ⟨.inr ⟨_, hmem, rfl⟩, fun _ => hguards⟩
      · exact absurd (lt_maxNonce hpos) (UInt64.not_lt.2 (hbelow _ hstands))
  · refine ⟨?_, fun heq => absurd heq hne⟩
    rcases hnow with hnow | hholder
    · rcases hguards with ⟨n, hguards⟩ | ⟨b, _, hguards⟩
      · rw [hguards, List.getElem?_append_left hlt] at hnow
        exact .inl hnow
      · rw [hguards, List.getElem?_set_ne (Ne.symm hne)] at hnow
        exact .inl hnow
    · exact .inr hholder

/-- The handshake's guard only goes up. -/
theorem Guarded.current_zero (h : Guarded prim s) {c : Call}
    (hi : s.tasks[i]? = some (.claimed c)) (htasks : t.tasks = s.tasks.set i .finished)
    (hguards : GuardsSettled prim s t c)
    {q : UInt64} (hq : t.Current prim 0 q) :
    ∃ q', s.Current prim 0 q' ∧ q' ≤ q ∧ ((c.attempt prim).guard = 0 →
      q' = (c.attempt prim).pos ∧ (q' < q ∨
        t.guards = s.guards.set (c.attempt prim).guard (c.attempt prim).pos)) := by
  have hmem := List.mem_of_getElem? hi
  obtain ⟨hguard, hpos, _⟩ := h.held _ hmem _ _ rfl
  rcases h.current_cases hi htasks hq with ⟨heq, hnow⟩ | ⟨hne, hnow⟩
  · refine ⟨(c.attempt prim).pos, .inr ⟨_, hmem, by simp [Pc.holds, ← heq]⟩, ?_⟩
    rcases hguards with ⟨n, hguards⟩ | ⟨b, hb, hguards⟩
    · rw [heq, hguards,
        List.getElem?_append_left (List.getElem?_eq_some_iff.1 hguard).1, hguard] at hnow
      obtain rfl := Option.some.inj hnow
      exact ⟨UInt64.le_of_lt (lt_succ_self hpos), fun _ => ⟨rfl, .inl (lt_succ_self hpos)⟩⟩
    · rw [heq, hguards, getElem?_set_guard hguard, if_pos rfl] at hnow
      obtain rfl := Option.some.inj hnow
      rcases hb with rfl | rfl
      · exact ⟨UInt64.le_refl _, fun _ => ⟨rfl, .inr hguards⟩⟩
      · exact ⟨le_maxNonce _, fun _ => ⟨rfl, .inl (lt_maxNonce hpos)⟩⟩
  · refine ⟨q, ?_, UInt64.le_refl q, fun heq => absurd heq.symm hne⟩
    rcases hnow with hnow | hholder
    · rcases hguards with ⟨n, hguards⟩ | ⟨b, _, hguards⟩
      · have hlt : (c.attempt prim).guard < s.guards.length := (List.getElem?_eq_some_iff.1 hguard).1
        rw [hguards, List.getElem?_append_left (Nat.zero_lt_of_lt hlt)] at hnow
        exact .inl hnow
      · rw [hguards, List.getElem?_set_ne (Ne.symm hne)] at hnow
        exact .inl hnow
    · exact .inr hholder

theorem Keyed.finish_same (hg : Guarded prim s) (h : Keyed prim s) {c : Call}
    (hi : s.tasks[i]? = some (.claimed c)) (htasks : t.tasks = s.tasks.set i .finished)
    (hlog : t.log = s.log)
    (hvalues : t.handshakes = s.handshakes ∧ t.transports = s.transports) {a : UInt64}
    (ha : a = (c.attempt prim).pos ∨ a = maxNonce)
    (hguards : t.guards = s.guards.set (c.attempt prim).guard a) : Keyed prim t := by
  have hcases : GuardsSettled prim s t c := .inr ⟨a, ha, hguards⟩
  refine h.of_same hvalues hlog ?_ ?_
  · exact fun g q hq hstands => (hg.current_settled hi htasks hcases hq hstands).1
  · intro q hq
    obtain ⟨q', hq', hle, _⟩ := hg.current_zero hi htasks hcases hq
    exact ⟨q', hq', hle⟩

/-- A handshake step that was made, and its guard gone up. -/
theorem Keyed.finish_step (hg : Guarded prim s) (h : Keyed prim s) {c : Call}
    (hi : s.tasks[i]? = some (.claimed c)) (htasks : t.tasks = s.tasks.set i .finished)
    (hzero : (c.attempt prim).guard = 0) {new : List Entry} (hlog : t.log = s.log ++ new)
    (hnew : HandshakeLog (c.attempt prim).pos new) (hdistinct : Distinct t.log)
    (hts : t.transports = s.transports) (hhs : ∀ hs ∈ t.handshakes, hs.guard = 0)
    (hguards : GuardsSettled prim s t c)
    (hup : t.guards ≠ s.guards.set (c.attempt prim).guard (c.attempt prim).pos) :
    Keyed prim t := by
  have hmem := List.mem_of_getElem? hi
  have hcurrent : s.Current prim 0 (c.attempt prim).pos :=
    .inr ⟨_, hmem, by simp [Pc.holds, hzero]⟩
  have hfresh : ∀ second k, Entry.derived (.mixKey (c.attempt prim).pos second) k ∉ s.log :=
    fun second k hk => UInt64.lt_irrefl _ (h.steps _ second k hk _ hcurrent)
  have hcipher : ∀ {g p d}, t.HasCipher g p d → s.HasCipher g p d := by
    intro g p d hd
    unfold State.HasCipher at *
    rwa [hts] at hd
  have hnow : ∀ {g p d}, t.HasCipher g p d → t.Current prim g p → s.Current prim g p :=
    fun hd hq => (hg.current_settled hi htasks hguards hq (.inr ⟨_, hcipher hd⟩)).1
  have hover : ∀ {q}, t.Current prim 0 q → (c.attempt prim).pos < q := by
    intro q hq
    obtain ⟨q', _, _, hpos⟩ := hg.current_zero hi htasks hguards hq
    obtain ⟨rfl, hlt | hsame⟩ := hpos hzero
    · exact hlt
    · exact absurd hsame hup
  rw [hlog] at hdistinct
  refine ⟨hhs, ?_, ?_, ?_, ?_, ?_, ?_, hlog ▸ hnew.sound h.sound hfresh hdistinct⟩
  · exact fun g p d hd => h.transport g p d (hcipher hd)
  · exact fun g p d d' hd hd' => h.same g p d d' (hcipher hd) (hcipher hd')
  · intro g p d hd hq
    exact hlog ▸ hnew.others hfresh hdistinct (h.live g p d (hcipher hd) (hnow hd hq))
  · intro g p d g' p' d' hd hd' hq hq'
    exact h.apart g p d g' p' d' (hcipher hd) (hcipher hd') (hnow hd hq) (hnow hd' hq')
  · intro p second k hk q hq
    rcases List.mem_append.1 (hlog ▸ hk) with hold | hk
    · exact UInt64.lt_trans (h.steps p second k hold _ hcurrent) (hover hq)
    · obtain ⟨second', heq⟩ := hnew.origin hk
      obtain ⟨rfl, _⟩ : p = (c.attempt prim).pos ∧ second = second' := by simpa using heq
      exact hover hq
  · intro second k hk q hq
    rcases List.mem_append.1 (hlog ▸ hk) with hold | hk
    · exact UInt64.lt_trans (h.splits second k hold _ hcurrent) (hover hq)
    · obtain ⟨second', heq⟩ := hnew.origin hk
      cases heq

theorem Keyed.finish_split (hg : Guarded prim s) (h : Keyed prim s) {c : Call}
    (hi : s.tasks[i]? = some (.claimed c)) (htasks : t.tasks = s.tasks.set i .finished)
    (hzero : (c.attempt prim).guard = 0) (hpos : (c.attempt prim).pos = 2) {k k' : Block}
    (hlog : t.log = s.log ++ splitLog k k') (hdistinct : Distinct t.log) {x : Transport}
    (hx : SplitValue k k' s.guards.length x)
    (hvalues : t.handshakes = s.handshakes ∧ t.transports = s.transports ++ [x])
    (hguards : t.guards = s.guards ++ [0, 0]) : Keyed prim t := by
  have hmem := List.mem_of_getElem? hi
  have hcurrent : s.Current prim 0 2 := .inr ⟨_, hmem, by simp [Pc.holds, hzero, hpos]⟩
  have hfresh : ∀ second k, Entry.derived (.split second) k ∉ s.log :=
    fun second k hk => UInt64.lt_irrefl _ (h.splits second k hk _ hcurrent)
  have hcases : GuardsSettled prim s t c := .inl ⟨2, hguards⟩
  have hnow : ∀ {g p d}, s.HasCipher g p d → t.Current prim g p → s.Current prim g p :=
    fun hd hq => (hg.current_settled hi htasks hcases hq (.inr ⟨_, hd⟩)).1
  have hover : ∀ {q}, t.Current prim 0 q → 2 < q := by
    intro q hq
    obtain ⟨q', _, _, hnext⟩ := hg.current_zero hi htasks hcases hq
    obtain ⟨rfl, hlt | hsame⟩ := hnext hzero
    · exact hpos ▸ hlt
    · have hlength := congrArg List.length (hguards.symm.trans hsame)
      simp at hlength
  have hold_lt : ∀ {g p d}, s.HasCipher g p d → g < s.guards.length := by
    intro g p d hd
    obtain ⟨a, ha, _⟩ := hg.bound g p (.inr ⟨d, hd⟩)
    exact (List.getElem?_eq_some_iff.1 ha).1
  have hnew_ge : ∀ send, s.guards.length ≤ x.grd send := by
    intro send
    rcases hx.guard send with heq | heq
    · exact heq.ge
    · exact (Nat.le_succ _).trans heq.ge
  have hsend : ∀ {send other}, x.grd send = x.grd other → send = other := by
    intro send other heq
    cases send <;> cases other <;> simp_all [hx.grd.1, hx.grd.2]
  rw [hlog] at hdistinct
  have hkey : ∀ send, ¬Derived s.log (x.cipher send).k := by
    intro send
    obtain ⟨second, k'', heq, hk''⟩ := hx.cipher send
    rw [heq]
    exact splitLog_fresh hfresh hdistinct hk''
  refine ⟨fun hs hmem => h.session hs (hvalues.1 ▸ hmem), ?_, ?_, ?_, ?_, ?_, ?_,
    hlog ▸ splitLog_sound h.sound⟩
  · intro g p d hd
    rcases hd.of_append hvalues.2 with hold | ⟨send, rfl, _, _⟩
    · exact h.transport g p d hold
    · have hge := hnew_ge send
      have hlt : 0 < s.guards.length :=
        Nat.zero_lt_of_lt (List.getElem?_eq_some_iff.1 (hg.held _ hmem _ _ rfl).1).1
      exact Nat.ne_of_gt (lt_of_lt_of_le hlt hge)
  · intro g p d d' hd hd'
    rcases hd.of_append hvalues.2 with hold | ⟨send, rfl, _, rfl⟩ <;>
      rcases hd'.of_append hvalues.2 with hold' | ⟨other, heq, _, rfl⟩
    · exact h.same g p d d' hold hold'
    · exact absurd (hold_lt hold) (not_lt.2 (heq ▸ hnew_ge other))
    · exact absurd (hold_lt hold') (not_lt.2 (hnew_ge send))
    · rw [hsend heq]
  · intro g p d hd hq
    rw [hlog]
    rcases hd.of_append hvalues.2 with hold | ⟨send, _, _, rfl⟩
    · exact splitLog_others (h.live g p d hold (hnow hold hq))
    · obtain ⟨second, k'', heq, hk''⟩ := hx.cipher send
      rw [heq]
      exact splitLog_live h.sound hfresh hdistinct hk''
  · intro g p d g' p' d' hd hd' hq hq' hne
    rcases hd.of_append hvalues.2 with hold | ⟨send, rfl, _, rfl⟩ <;>
      rcases hd'.of_append hvalues.2 with hold' | ⟨other, rfl, _, rfl⟩
    · exact h.apart g p d g' p' d' hold hold' (hnow hold hq) (hnow hold' hq') hne
    · intro heq
      exact hkey other (heq ▸ (h.live g p d hold (hnow hold hq)).derived)
    · intro heq
      exact hkey send (heq ▸ (h.live g' p' d' hold' (hnow hold' hq')).derived)
    · have hapart := hx.apart (splitLog_ne hdistinct)
      cases send <;> cases other <;> first | exact hapart | exact hapart.symm | exact absurd rfl hne
  · intro p second k₁ hk₁ q hq
    rcases List.mem_append.1 (hlog ▸ hk₁) with hold | hk₁
    · exact UInt64.lt_trans (h.steps p second k₁ hold _ hcurrent) (hover hq)
    · simp [splitLog] at hk₁
  · intro second k₁ hk₁ q hq
    exact hover hq

theorem Keyed.finish_transport (hg : Guarded prim s) (h : Keyed prim s) {c : Call}
    (hi : s.tasks[i]? = some (.claimed c)) (htasks : t.tasks = s.tasks.set i .finished)
    {x : Transport} {send : Bool} {d : Cipher} {new : List Entry} (hx : x ∈ s.transports)
    (hstep : CipherStep (x.cipher send) new d) (hlog : t.log = s.log ++ new)
    (hdistinct : Distinct t.log) (hguard : (c.attempt prim).guard = x.grd send)
    (hpos : (c.attempt prim).pos = x.at_ send)
    (hvalues : t.handshakes = s.handshakes ∧ t.transports = s.transports ++ [x.advance send d])
    (hguards : t.guards = s.guards) : Keyed prim t := by
  have hmem := List.mem_of_getElem? hi
  obtain ⟨hat, hmax, hbelow⟩ := hg.held _ hmem _ _ rfl
  have hcases : GuardsSettled prim s t c := .inl ⟨0, by simpa using hguards⟩
  have hup : t.guards ≠ s.guards.set (c.attempt prim).guard (c.attempt prim).pos := by
    intro heq
    have hsame := congrArg (fun l : List UInt64 => l[(c.attempt prim).guard]?) (hguards ▸ heq)
    rw [hat, getElem?_set_guard hat, if_pos rfl] at hsame
    exact absurd (lt_succ_self hmax) (by rw [Option.some.inj hsame]; exact UInt64.lt_irrefl _)
  have hc : s.HasCipher (x.grd send) (x.at_ send) (x.cipher send) := ⟨x, hx, send, rfl, rfl, rfl⟩
  have hcurrent : s.Current prim (x.grd send) (x.at_ send) :=
    .inr ⟨_, hmem, by simp [Pc.holds, hguard, hpos]⟩
  have hlive := h.live _ _ _ hc hcurrent
  have hnow : ∀ {g p e}, s.HasCipher g p e → t.Current prim g p →
      s.Current prim g p ∧ g ≠ x.grd send := by
    intro g p e he hq
    obtain ⟨hold, hsame⟩ := hg.current_settled hi htasks hcases hq (.inr ⟨_, he⟩)
    exact ⟨hold, fun heq => hup (hsame (heq.trans hguard.symm))⟩
  rw [hlog] at hdistinct
  have hlower : ∀ {p : UInt64} {q}, (∀ q, s.Current prim 0 q → p < q) → t.Current prim 0 q →
      p < q := by
    intro p q hs hq
    obtain ⟨q', hq', hle, _⟩ := hg.current_zero hi htasks hcases hq
    exact UInt64.lt_of_lt_of_le (hs q' hq') hle
  have hkeys : ∀ {g p e}, s.HasCipher g p e → t.Current prim g p → e.k ≠ d.k := by
    intro g p e he hq
    obtain ⟨hold, hne⟩ := hnow he hq
    rcases hstep.key hlive hdistinct with heq | hnew
    · exact heq.symm ▸ h.apart _ _ _ _ _ _ he hc hold hcurrent hne
    · intro heq
      exact hnew (heq ▸ (h.live _ _ _ he hold).derived)
  refine ⟨fun hs hmem => h.session hs (hvalues.1 ▸ hmem), ?_, ?_, ?_, ?_, ?_, ?_,
    hlog ▸ hstep.sound h.sound hlive⟩
  · intro g p e he
    rcases he.of_advance hx hvalues.2 with hold | ⟨rfl, _, _⟩
    · exact h.transport g p e hold
    · exact h.transport _ _ _ hc
  · intro g p e e' he he'
    have hnot : ∀ {e}, ¬s.HasCipher (x.grd send) (x.at_ send + 1) e := by
      intro e he
      have hle := hbelow (x.at_ send + 1) (hguard ▸ .inr ⟨e, he⟩)
      rw [hpos] at hle hmax
      exact UInt64.not_lt.2 hle (lt_succ_self hmax)
    rcases he.of_advance hx hvalues.2 with hold | ⟨rfl, rfl, rfl⟩ <;>
      rcases he'.of_advance hx hvalues.2 with hold' | ⟨hg', hp', rfl⟩
    · exact h.same g p e e' hold hold'
    · exact absurd (hg' ▸ hp' ▸ hold) hnot
    · exact absurd hold' hnot
    · rfl
  · intro g p e he hq
    rw [hlog]
    rcases he.of_advance hx hvalues.2 with hold | ⟨_, _, rfl⟩
    · obtain ⟨hcur, hne⟩ := hnow hold hq
      exact hstep.others (h.live g p e hold hcur) (h.apart _ _ _ _ _ _ hold hc hcur hcurrent hne)
    · exact hstep.live h.sound hlive hdistinct
  · intro g p e g' p' e' he he' hq hq' hne
    rcases he.of_advance hx hvalues.2 with hold | ⟨rfl, rfl, rfl⟩ <;>
      rcases he'.of_advance hx hvalues.2 with hold' | ⟨rfl, rfl, rfl⟩
    · exact h.apart g p e g' p' e' hold hold' (hnow hold hq).1 (hnow hold' hq').1 hne
    · exact hkeys hold hq
    · exact (hkeys hold' hq').symm
    · exact absurd rfl hne
  · intro p second k hk q hq
    rcases List.mem_append.1 (hlog ▸ hk) with hold | hk
    · exact hlower (h.steps p second k hold) hq
    · cases hstep.origin hk
  · intro second k hk q hq
    rcases List.mem_append.1 (hlog ▸ hk) with hold | hk
    · exact hlower (h.splits second k hold) hq
    · cases hstep.origin hk

theorem State.log_finish (prim : Primitives) (s : State) (i : ℕ) (c : Call) :
    (s.finish prim i c).log = s.log ++ s.logged prim c := rfl

theorem Keyed.finish (hg : Guarded prim s) (h : Keyed prim s) {c : Call}
    (hi : s.tasks[i]? = some (.claimed c)) (hdistinct : Distinct (s.finish prim i c).log) :
    Keyed prim (s.finish prim i c) := by
  have htasks := State.tasks_finish prim s i c
  have hlog := State.log_finish prim s i c
  obtain ⟨hat, hmax, _⟩ := hg.held _ (List.mem_of_getElem? hi) _ _ rfl
  have hup : ∀ {a}, a ≠ (c.attempt prim).pos → ∀ {l : List UInt64},
      l[(c.attempt prim).guard]? = some a →
        l ≠ s.guards.set (c.attempt prim).guard (c.attempt prim).pos := by
    rintro a ha l hl rfl
    rw [getElem?_set_guard hat, if_pos rfl] at hl
    exact ha (Option.some.inj hl).symm
  cases hg.finished hi with
  | turn hempty hvalues hguards =>
      exact h.finish_same hg hi htasks (by simp [hlog, hempty]) hvalues (.inl rfl) hguards
  | exhausted hempty hvalues hguards =>
      exact h.finish_same hg hi htasks (by simp [hlog, hempty]) hvalues (.inr rfl) hguards
  | poisoned hstep hold hvalues hguards =>
      obtain ⟨hs, hmem, hguard⟩ := hold
      refine h.finish_step hg hi htasks (hguard.symm.trans (h.session hs hmem)) hlog hstep hdistinct
        hvalues.2 (fun hs hmem => h.session hs (hvalues.1 ▸ hmem)) (.inr ⟨_, .inr rfl, hguards⟩)
        (hup (Ne.symm hmax) ?_)
      rw [hguards, getElem?_set_guard hat, if_pos rfl]
  | handshake hs hstep hold hguard _ hvalues hguards =>
      obtain ⟨hs', hmem, hguard'⟩ := hold
      have hzero : (c.attempt prim).guard = 0 := hguard'.symm.trans (h.session hs' hmem)
      refine h.finish_step hg hi htasks hzero hlog hstep hdistinct hvalues.2 ?_
        (.inl ⟨0, by simpa using hguards⟩) ?_
      · intro hs'' hmem''
        rcases List.mem_append.1 (hvalues.1 ▸ hmem'') with hold | hnew
        · exact h.session hs'' hold
        · obtain rfl := List.mem_singleton.1 hnew
          exact hguard.trans hzero
      · refine hup (a := (c.attempt prim).pos + 1) ?_ (hguards ▸ hat)
        intro heq
        exact UInt64.lt_irrefl _ (heq ▸ lt_succ_self hmax)
  | split k k' x hsplit hold hpos hx hvalues hguards =>
      obtain ⟨hs, hmem, hguard⟩ := hold
      exact h.finish_split hg hi htasks (hguard.symm.trans (h.session hs hmem)) hpos
        (hsplit ▸ hlog) hdistinct hx hvalues hguards
  | transport x send d hx hstep hguard hpos hvalues hguards =>
      exact h.finish_transport hg hi htasks hx hstep hlog hdistinct hguard hpos hvalues hguards

/-! ## Runs -/

/-- No call claims a guard at its last position, from which it would start again at 0. -/
def State.Unwrapped (prim : Primitives) (s : State) : Event → Prop
  | .run i => ∀ c, s.tasks[i]? = some (.start c) → (c.attempt prim).pos ≠ maxNonce
  | .call _ => True

def UnwrappedStep (prim : Primitives) (a : State) (e : Event) (b : State) : Prop :=
  a.Unwrapped prim e ∧ a.step prim e = some b

theorem State.find_known {r : Request} {c : Call} (h : s.find r = some c) : c.Known s := by
  cases r <;> simp only [State.find] at h <;> obtain ⟨v, hv, rfl⟩ := Option.map_eq_some_iff.1 h <;>
    exact List.mem_of_getElem? hv

theorem Guarded.call (h : Guarded prim s) {c : Call} (hknown : c.Known s) :
    Guarded prim { s with tasks := s.tasks ++ [.start c] } where
  keyed := h.keyed
  known := by
    intro pc hpc
    rcases List.mem_append.1 hpc with hold | hnew
    · exact (h.known pc hold).mono (List.Subset.refl _) (List.Subset.refl _)
    · obtain rfl := List.mem_singleton.1 hnew
      exact hknown.mono (List.Subset.refl _) (List.Subset.refl _)
  bound := h.bound
  held := by
    intro pc hpc g p hholds
    rcases List.mem_append.1 hpc with hold | hnew
    · exact h.held pc hold g p hholds
    · obtain rfl := List.mem_singleton.1 hnew
      cases hholds
  unique := by
    intro j k pc pc' g p q hj hk hp hq
    rcases getElem?_concat_cases hj with ⟨_, rfl⟩ | hj
    · cases hp
    · rcases getElem?_concat_cases hk with ⟨_, rfl⟩ | hk
      · cases hq
      · exact h.unique j k pc pc' g p q hj hk hp hq

theorem Keyed.call (h : Keyed prim s) (c : Call) :
    Keyed prim { s with tasks := s.tasks ++ [.start c] } := by
  have hcurrent : ∀ g q, State.Current prim { s with tasks := s.tasks ++ [.start c] } g q →
      s.Current prim g q := by
    rintro g q (hguard | ⟨pc, hpc, hholds⟩)
    · exact .inl hguard
    · rcases List.mem_append.1 hpc with hold | hnew
      · exact .inr ⟨pc, hold, hholds⟩
      · obtain rfl := List.mem_singleton.1 hnew
        cases hholds
  exact h.of_same ⟨rfl, rfl⟩ rfl (fun g q hq _ => hcurrent g q hq)
    fun q hq => ⟨q, hcurrent 0 q hq, UInt64.le_refl q⟩

theorem State.log_claim (prim : Primitives) (s : State) (i : ℕ) (c : Call) :
    (s.claim prim i c).log = s.log := by
  unfold State.claim
  simp only
  split
  · rfl
  · split <;> rfl

theorem State.log_step {e : Event} (h : s.step prim e = some t) : s.log ⊆ t.log := by
  unfold State.step at h
  cases e with
  | call r =>
      obtain ⟨c, _, rfl⟩ := Option.map_eq_some_iff.1 h
      exact List.Subset.refl _
  | run i =>
      simp only at h
      split at h
      · obtain rfl := Option.some.inj h
        rw [State.log_claim]
        exact List.Subset.refl _
      · obtain rfl := Option.some.inj h
        exact List.subset_append_left _ _
      · cases h
      · cases h

/-- What every step that meets the condition keeps. -/
theorem keyed_step {e : Event} (hstep : UnwrappedStep prim s e t) (hdistinct : Distinct t.log)
    (h : Guarded prim s ∧ Keyed prim s) : Guarded prim t ∧ Keyed prim t := by
  obtain ⟨hunwrapped, hstep⟩ := hstep
  unfold State.step at hstep
  cases e with
  | call r =>
      obtain ⟨c, hc, rfl⟩ := Option.map_eq_some_iff.1 hstep
      exact ⟨h.1.call (State.find_known hc), h.2.call c⟩
  | run i =>
      simp only at hstep
      split at hstep
      · next c hi =>
          obtain rfl := Option.some.inj hstep
          exact ⟨h.1.claim hi (hunwrapped c hi), h.2.claim h.1 (hunwrapped c hi)⟩
      · next c hi =>
          obtain rfl := Option.some.inj hstep
          exact ⟨h.1.finish hi, h.2.finish h.1 hi hdistinct⟩
      · cases hstep
      · cases hstep

/-- In every run of calls that claim no guard at its last position, no two encryptions are made
with one key and one nonce, and the reserved nonce is used by rekeys only. -/
theorem no_nonce_reused {suite : Suite} {initiator : Bool} {x rs prologue e : Bytes}
    {es : List Event}
    (hrun : Run (UnwrappedStep prim) (State.init prim suite initiator x rs prologue e) es s)
    (hdistinct : Distinct s.log) :
    (pairs s.log).Nodup ∧
      ∀ y, Entry.sealed y ∈ s.log → y.nonce = nonce maxNonce → y.rekey = true := by
  have hkept : Distinct s.log → Guarded prim s ∧ Keyed prim s := by
    refine hrun.invariant (P := fun u => Distinct u.log → Guarded prim u ∧ Keyed prim u) ?_
      fun _ => ⟨guarded_init .., keyed_init ..⟩
    intro a e b ha hstep hb
    exact keyed_step hstep hb (ha (hb.of_sublist (State.log_step hstep.2)))
  have hsound : Sound s.log := (hkept hdistinct).2.sound
  refine ⟨hsound.nodup, ?_⟩
  intro y hy hnonce
  rcases hsound.nonces y hy with ⟨hrekey, _⟩ | ⟨_, m, hm, hm'⟩
  · exact hrekey
  · exact absurd (nonce_injective (hm'.symm.trans hnonce)) hm

/-! ## A session without an end

The guard comes round after 2^64 calls, and the first value may seal again. -/

/-- A value that has sealed so often. -/
def Transport.sent (x : Transport) (k : ℕ) : Transport :=
  { x with send := { x.send with n := .ofNat k }, sendAt := .ofNat k }

/-- The state after the handshake and so many empty messages. -/
def State.sent (u : State) (x : Transport) (k : ℕ) : State where
  guards := [3, .ofNat k, 0]
  handshakes := u.handshakes
  transports := (List.range (k + 1)).map x.sent
  tasks := List.replicate (3 + k) .finished
  log := u.log ++ (List.range k).map fun j => .sealed ⟨x.send.k, nonce (.ofNat j), [], [], false⟩

def emptyMessage (k : ℕ) : List Event := [.call (.encrypt k []), .run (3 + k), .run (3 + k)]

theorem ofNat_ne_maxNonce {k : ℕ} (hk : k + 1 < 2 ^ 64) : UInt64.ofNat k ≠ maxNonce := by
  intro heq
  have hnat := congrArg UInt64.toNat heq
  rw [toNat_maxNonce, UInt64.toNat_ofNat_of_lt' (show k < 2 ^ 64 by omega)] at hnat
  omega

theorem ofNat_succ (k : ℕ) : UInt64.ofNat k + 1 = UInt64.ofNat (k + 1) := by
  simp

/-- A call that returns a transport value. -/
theorem State.finish_eq {c : Call} {x : Transport} {new : List Entry}
    (hlog : ((c.attempt prim).body s.guards.length).log = new)
    (hresult : ((c.attempt prim).body s.guards.length).result = .ok (.transport x))
    (halloc : (c.attempt prim).allocates = 0) :
    s.finish prim i c =
      { s with
        transports := s.transports ++ [x]
        tasks := s.tasks.set i .finished
        log := s.log ++ new } := by
  simp only [State.finish, hlog, hresult, State.addValue, Attempt.settle, halloc, State.setTask,
    List.replicate_zero, List.append_nil]

/-- One more empty message. -/
theorem run_emptyMessage {u : State} {x : Transport} (hk : x.send.hasK = true) (hgrd : x.sendGrd = 1)
    {k : ℕ} (hlt : k + 1 < 2 ^ 64) :
    Run (fun a e b => State.step toy a e = some b) (u.sent x k) (emptyMessage k)
      (u.sent x (k + 1)) := by
  have hne : (x.sent k).send.n ≠ maxNonce := ofNat_ne_maxNonce hlt
  let c : Call := .encrypt (x.sent k) []
  let started : State := { u.sent x k with tasks := (u.sent x k).tasks ++ [.start c] }
  let claimed : State :=
    { u.sent x k with
      guards := [3, .ofNat (k + 1), 0]
      tasks := (u.sent x k).tasks ++ [.claimed c] }
  have hstart : (u.sent x k).step toy (.call (.encrypt k [])) = some started := by
    simp [State.step, State.find, State.sent, started, c]
  have hat : ∀ pc, ((u.sent x k).tasks ++ [pc])[3 + k]? = some pc := by
    intro pc
    simp [State.sent]
  have hclaim : started.step toy (.run (3 + k)) = some claimed := by
    have hguard : (c.attempt toy).guard = 1 := hgrd
    have hpos : (c.attempt toy).pos = .ofNat k := rfl
    have hcheck : (c.attempt toy).check = none := rfl
    have hfree : (u.sent x k).guards[1]? = some (.ofNat k) := rfl
    simp only [State.step, started, hat, State.claim, hcheck, hguard, hpos]
    rw [if_pos hfree, ofNat_succ]
    simp [State.sent, State.setTask, claimed]
  have hfinish : claimed.step toy (.run (3 + k)) = some (u.sent x (k + 1)) := by
    obtain ⟨hlog, hresult⟩ := encrypt_body toy (t := x.sent k) hk hne [] 3
    have hnext : (x.sent k).advance true { (x.sent k).send with n := (x.sent k).send.n + 1 } =
        x.sent (k + 1) := by
      simp only [Transport.sent, Transport.advance, if_true, ofNat_succ]
    rw [hnext] at hresult
    have hfinish := State.finish_eq (s := claimed) (i := 3 + k) hlog hresult rfl
    simp only [State.step, claimed, hat]
    rw [hfinish]
    simp only [claimed, State.sent, List.range_succ, List.map_append, List.map_cons, List.map_nil,
      Option.some.injEq, State.mk.injEq, List.append_assoc, true_and]
    refine ⟨?_, rfl⟩
    rw [List.set_append_right _ _ (by simp)]
    simp [← Nat.add_assoc, List.replicate_succ' (n := 3 + k)]
  exact .cons hstart (.cons hclaim (.cons hfinish (.nil _)))

def emptyMessages (k : ℕ) : List Event := (List.range k).flatMap emptyMessage

theorem run_emptyMessages {u : State} {x : Transport} (hk : x.send.hasK = true)
    (hgrd : x.sendGrd = 1) {k : ℕ} (hlt : k < 2 ^ 64) :
    Run (fun a e b => State.step toy a e = some b) (u.sent x 0) (emptyMessages k)
      (u.sent x k) := by
  induction k with
  | zero => exact .nil _
  | succ k ih =>
      have hlast := run_emptyMessage (u := u) hk hgrd hlt
      simp only [emptyMessages, List.range_succ, List.flatMap_append, List.flatMap_cons,
        List.flatMap_nil, List.append_nil]
      exact (ih (by omega)).append hlast

/-- The last position is claimed, and then the first value seals a second message. -/
def secondFirst (k : ℕ) : List Event :=
  [.call (.encrypt k []), .run (3 + k), .call (.encrypt 0 [1]), .run (4 + k), .run (4 + k)]

theorem run_secondFirst {u : State} {x : Transport} (hk : x.send.hasK = true)
    (hgrd : x.sendGrd = 1) {k : ℕ} (hlast : k + 1 = 2 ^ 64) :
    ∃ t, Run (fun a e b => State.step toy a e = some b) (u.sent x k) (secondFirst k) t ∧
      t.log = (u.sent x k).log ++ [.sealed ⟨x.send.k, nonce 0, [1], [], false⟩] := by
  let c : Call := .encrypt (x.sent k) []
  let d : Call := .encrypt (x.sent 0) [1]
  let started : State := { u.sent x k with tasks := (u.sent x k).tasks ++ [.start c] }
  let claimed : State :=
    { u.sent x k with
      guards := [3, 0, 0]
      tasks := (u.sent x k).tasks ++ [.claimed c] }
  let called : State := { claimed with tasks := claimed.tasks ++ [.start d] }
  let taken : State := { claimed with guards := [3, 1, 0], tasks := claimed.tasks ++ [.claimed d] }
  have hat : ∀ pc, ((u.sent x k).tasks ++ [pc])[3 + k]? = some pc := by
    intro pc
    simp [State.sent]
  have hlength : claimed.tasks.length = 4 + k := by
    simp [claimed, State.sent]
    omega
  have hat' : ∀ pc, (claimed.tasks ++ [pc])[4 + k]? = some pc := by
    intro pc
    rw [List.getElem?_append_right hlength.le, hlength]
    simp
  have hwrap : UInt64.ofNat k + 1 = 0 := by
    rw [ofNat_succ, hlast]
    rfl
  have hstart : (u.sent x k).step toy (.call (.encrypt k [])) = some started := by
    simp [State.step, State.find, State.sent, started, c]
  have hclaim : started.step toy (.run (3 + k)) = some claimed := by
    have hguard : (c.attempt toy).guard = 1 := hgrd
    have hpos : (c.attempt toy).pos = .ofNat k := rfl
    have hcheck : (c.attempt toy).check = none := rfl
    have hfree : (u.sent x k).guards[1]? = some (.ofNat k) := rfl
    simp only [State.step, started, hat, State.claim, hcheck, hguard, hpos]
    rw [if_pos hfree, hwrap]
    simp [State.sent, State.setTask, claimed]
  have hcall : claimed.step toy (.call (.encrypt 0 [1])) = some called := by
    have hfirst : claimed.transports[0]? = some (x.sent 0) := by simp [claimed, State.sent]
    simp only [State.step, State.find, hfirst]
    rfl
  have htake : called.step toy (.run (4 + k)) = some taken := by
    have hguard : (d.attempt toy).guard = 1 := hgrd
    have hpos : (d.attempt toy).pos = 0 := rfl
    have hcheck : (d.attempt toy).check = none := rfl
    have hfree : claimed.guards[1]? = some 0 := rfl
    simp only [State.step, called, hat', State.claim, hcheck, hguard, hpos]
    rw [if_pos hfree]
    have hset : (claimed.tasks ++ [Pc.start d]).set (4 + k) (.claimed d) =
        claimed.tasks ++ [.claimed d] := by
      rw [List.set_append_right _ _ hlength.le, hlength]
      simp
    simp only [State.setTask, hset]
    rfl
  obtain ⟨hlog, hresult⟩ := encrypt_body toy (t := x.sent 0) hk zero_ne_maxNonce [1] 3
  have hfinish := State.finish_eq (s := taken) (i := 4 + k) hlog hresult rfl
  refine ⟨taken.finish toy (4 + k) d, .cons hstart (.cons hclaim (.cons hcall (.cons htake
    (.cons ?_ (.nil _))))), ?_⟩
  · simp only [State.step, taken, hat']
  · rw [hfinish]
    rfl

/-- Seals change nothing about which keys are distinct. -/
theorem Distinct.append_seals {log : List Entry} (h : Distinct log) (xs : List Sealed) :
    Distinct (log ++ xs.map .sealed) := by
  intro o k o' k' hk hk'
  have hold : ∀ {o k}, Entry.derived o k ∈ log ++ xs.map .sealed → Entry.derived o k ∈ log := by
    intro o k hk
    rcases List.mem_append.1 hk with hold | hnew
    · exact hold
    · simp at hnew
  exact h o k o' k' (hold hk) (hold hk')

/-! ## A session on fixed inputs -/

def toyInit : State := State.init toy toySuite true [1] (toy.kxPublic [2]) [] [3]

/-- What a responder with the static key 2 writes, when it gets the first message. -/
def toyReply : Bytes :=
  let initiator := noiseNewSuite toy toySuite true [1] (toy.kxPublic [2]) [] [3] 0
  let responder := noiseNewSuite toy toySuite false [2] [] [] [4] 1
  match (initiator.writeMessage toy []).exec [0, 0] with
  | (.ok r, guards) =>
      match (responder.readMessage toy r.2).exec guards with
      | (.ok r, guards) =>
          match (r.1.writeMessage toy []).exec guards with
          | (.ok r, _) => r.2
          | (.error _, _) => []
      | (.error _, _) => []
  | (.error _, _) => []

/-- The handshake and the split of the initiator. -/
def toyHandshake : List Event :=
  [.call (.writeMessage 0 []), .run 0, .run 0, .call (.readMessage 1 toyReply), .run 1, .run 1,
    .call (.split 2), .run 2, .run 2]

def Pc.isFinished : Pc → Bool
  | .finished => true
  | .start _ | .claimed _ => false

def Entry.derivedKey : Entry → Option Block
  | .derived _ k => some k
  | .sealed _ => none

/-- The keys that a log derives. -/
def derivedKeys (log : List Entry) : List Block := log.filterMap Entry.derivedKey

theorem distinct_of_nodup {log : List Entry} (h : (derivedKeys log).Nodup) : Distinct log := by
  intro o k o' k' hk hk' hne heq
  subst heq
  induction log with
  | nil => cases hk
  | cons entry log ih =>
      have hmem : ∀ {o}, Entry.derived o k ∈ log → k ∈ derivedKeys log :=
        fun ho => List.mem_filterMap.2 ⟨_, ho, rfl⟩
      cases entry with
      | sealed x => exact ih h (by simpa using hk) (by simpa using hk')
      | derived o₁ k₁ =>
          obtain ⟨hnot, hnodup⟩ := List.nodup_cons.1 (show (k₁ :: derivedKeys log).Nodup from h)
          rcases List.mem_cons.1 hk with heq | hold <;> rcases List.mem_cons.1 hk' with heq' | hold'
          · cases heq
            cases heq'
            exact hne rfl
          · cases heq
            exact hnot (hmem hold')
          · cases heq'
            exact hnot (hmem hold)
          · exact ih hnodup hold hold'

/-- The condition, where it can be computed. -/
def State.unwrapped (s : State) : Event → Bool
  | .run i =>
      match s.tasks[i]? with
      | some (.start c) => decide ((c.attempt toy).pos ≠ maxNonce)
      | _ => true
  | .call _ => true

def toyMessage : List Event := [.call (.encrypt 0 [1]), .run 3, .run 3]

/-- One step under the condition. -/
def State.unwrappedStep (s : State) (e : Event) : Option State :=
  if s.unwrapped e then s.step toy e else none

theorem State.of_unwrappedStep {a b : State} {e : Event} (h : a.unwrappedStep e = some b) :
    UnwrappedStep toy a e b := by
  unfold State.unwrappedStep at h
  split at h
  · next hok =>
      refine ⟨?_, h⟩
      cases e with
      | call r => trivial
      | run i =>
          intro c hi
          simpa [State.unwrapped, hi] using hok
  · cases h

/-- What the handshake leaves, and what the message after it. -/
theorem toy_fields :
    (toyHandshake.foldlM State.unwrappedStep toyInit).map
      (fun s => (s.guards, s.transports.map fun x => decide (x.sendGrd = 1 ∧ x.sendAt = 0 ∧
        x.send.hasK = true ∧ x.send.n = 0),
        s.tasks.map Pc.isFinished, decide (derivedKeys s.log).Nodup)) =
        some ([3, 0, 0], [true], [true, true, true], true) ∧
    ((toyHandshake ++ toyMessage).foldlM State.unwrappedStep toyInit).map
      (fun s => (decide (derivedKeys s.log).Nodup, (pairs s.log).length)) = some (true, 3) := by
  decide +kernel

theorem toyMessage_nonces :
    ((toyHandshake ++ toyMessage).foldlM (State.step toy) toyInit).map
      (fun s => (decide (pairs s.log).Nodup, (pairs s.log).length)) = some (true, 3) := by
  obtain ⟨s, hs, hlog⟩ := Option.map_eq_some_iff.1 toy_fields.2
  obtain ⟨hkeys, hlength⟩ := Prod.mk.inj hlog
  have hrun : Run (UnwrappedStep toy) toyInit (toyHandshake ++ toyMessage) s :=
    (Run.iff_foldlM.2 hs).mono fun _ _ _ => State.of_unwrappedStep
  have hnodup : (pairs s.log).Nodup :=
    (no_nonce_reused hrun (distinct_of_nodup (of_decide_eq_true hkeys))).1
  have hsteps : (toyHandshake ++ toyMessage).foldlM (State.step toy) toyInit = some s :=
    Run.iff_foldlM.1 (hrun.mono fun _ _ _ hab => hab.2)
  rw [hsteps]
  simp [hnodup, hlength]

/-- What the handshake leaves on fixed inputs. -/
theorem toyHandshake_sent : ∃ u x, toyHandshake.foldlM (State.step toy) toyInit = some u ∧
    u.sent x 0 = u ∧ x.send.hasK = true ∧ x.sendGrd = 1 ∧ Distinct u.log := by
  obtain ⟨u, hsteps, hfields⟩ := Option.map_eq_some_iff.1 toy_fields.1
  have hu : toyHandshake.foldlM (State.step toy) toyInit = some u :=
    Run.iff_foldlM.1 ((Run.iff_foldlM.2 hsteps).mono fun _ _ _ hab => (State.of_unwrappedStep hab).2)
  simp only [Prod.mk.injEq] at hfields
  obtain ⟨hguards, htransports, htasks, hkeys⟩ := hfields
  obtain ⟨x, hts, hx⟩ := List.map_eq_singleton_iff.1 htransports
  obtain ⟨hgrd, hat, hk, hn⟩ := of_decide_eq_true hx
  have htasks' : u.tasks = List.replicate 3 .finished := by
    refine List.eq_replicate_iff.2 ⟨by simpa using congrArg List.length htasks, ?_⟩
    intro pc hpc
    have hfinished : pc.isFinished = true := by
      have hmem := List.mem_map_of_mem (f := Pc.isFinished) hpc
      rw [htasks] at hmem
      simpa using hmem
    cases pc with
    | finished => rfl
    | start c => cases hfinished
    | claimed c => cases hfinished
  refine ⟨u, x, hu, ?_, hk, hgrd, distinct_of_nodup (of_decide_eq_true hkeys)⟩
  obtain ⟨guards, handshakes, transports, tasks, log⟩ := u
  obtain ⟨⟨k, hasK, n⟩, recv, sendAt, recvAt, sendGrd, recvGrd, hash, peer⟩ := x
  simp only at hguards hts htasks' hat hn
  subst hguards hts htasks' hat hn
  simp [State.sent, Transport.sent]

/-- After 2^64 messages the first transport value seals again, with its first nonce. -/
def wrapAround : List Event :=
  toyHandshake ++ (emptyMessages (2 ^ 64 - 1) ++ secondFirst (2 ^ 64 - 1))

theorem wrapAround_reuses :
    ∃ s, Run (fun a e b => State.step toy a e = some b) toyInit wrapAround s ∧ Distinct s.log ∧
      ∃ y z, Entry.sealed y ∈ s.log ∧ Entry.sealed z ∈ s.log ∧ y.key = z.key ∧
        y.nonce = z.nonce ∧ y.plaintext ≠ z.plaintext := by
  obtain ⟨u, x, hu, hzero, hk, hgrd, hdistinct⟩ := toyHandshake_sent
  suffices h : ∀ k, k + 1 = 2 ^ 64 → ∃ s, Run (fun a e b => State.step toy a e = some b) toyInit
      (toyHandshake ++ (emptyMessages k ++ secondFirst k)) s ∧ Distinct s.log ∧
      ∃ y z, Entry.sealed y ∈ s.log ∧ Entry.sealed z ∈ s.log ∧ y.key = z.key ∧
        y.nonce = z.nonce ∧ y.plaintext ≠ z.plaintext from h (2 ^ 64 - 1) (by norm_num)
  intro k hlast
  have hmany := run_emptyMessages (u := u) hk hgrd (k := k) (by omega)
  obtain ⟨t, hsecond, hlog⟩ := run_secondFirst (u := u) hk hgrd hlast
  rw [hzero] at hmany
  refine ⟨t, (Run.iff_foldlM.2 hu).append (hmany.append hsecond), ?_, ?_⟩
  · have hsealed := hdistinct.append_seals
      ((List.range k).map (fun j => ⟨x.send.k, nonce (.ofNat j), [], [], false⟩) ++
        [⟨x.send.k, nonce 0, [1], [], false⟩])
    simpa [hlog, State.sent, Function.comp_def] using hsealed
  · refine ⟨⟨x.send.k, nonce 0, [], [], false⟩, ⟨x.send.k, nonce 0, [1], [], false⟩, ?_, ?_, rfl,
      rfl, by simp⟩
    · have hpos : 0 < k := by omega
      have hfirst : Entry.sealed ⟨x.send.k, nonce (.ofNat 0), [], [], false⟩ ∈ (u.sent x k).log :=
        List.mem_append_right _ (List.mem_map.2 ⟨0, List.mem_range.2 hpos, rfl⟩)
      exact hlog ▸ List.mem_append_left _ hfirst
    · exact hlog ▸ List.mem_append_right _ List.mem_cons_self

end Sky.Noise
