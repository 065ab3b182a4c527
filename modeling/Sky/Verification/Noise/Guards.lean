import Sky.Library.Tasks
import Sky.Verification.Noise.Keys

/-! # Positions and guards

One call at a time holds a position of a guard, and no state value stands beyond it. -/

namespace Sky.Noise

open Library

variable {prim : Primitives} {s t : State} {i : ℕ}

/-! ## What a call is made on -/

/-- The two ciphers of a split. -/
structure SplitValue (k k' : Block) (next : GuardId) (t : Transport) : Prop where
  grd : t.grd true = next ∧ t.grd false = next + 1
  at_ : ∀ send, t.at_ send = 0
  cipher : ∀ send, ∃ second k'', t.cipher send = ⟨k'', true, 0⟩ ∧
    Entry.derived (.split second) k'' ∈ splitLog k k'
  apart : k ≠ k' → (t.cipher true).k ≠ (t.cipher false).k

/-- A call of the state values. -/
def Call.Known (s : State) : Call → Prop
  | .writeMessage hs _ | .readMessage hs _ | .split hs => hs ∈ s.handshakes
  | .encrypt t _ | .decrypt t _ | .rekeySend t | .rekeyReceive t => t ∈ s.transports

/-- What a call claims, and what it does then. -/
inductive CallSpec (prim : Primitives) (c : Call) : Prop where
  | handshake (hs : Handshake) (hknown : ∀ s : State, c.Known s → hs ∈ s.handshakes)
      (hguard : (c.attempt prim).guard = hs.guard) (hpos : (c.attempt prim).pos = hs.step)
      (halloc : (c.attempt prim).allocates = 0)
      (hdone : ∀ next, HandshakeDone hs ((c.attempt prim).body next).log
        ((c.attempt prim).body next).result)
  | split (hs : Handshake) (hknown : ∀ s : State, c.Known s → hs ∈ s.handshakes)
      (hguard : (c.attempt prim).guard = hs.guard) (hpos : (c.attempt prim).pos = 2)
      (halloc : (c.attempt prim).allocates = 2)
      (hcheck : (c.attempt prim).check = none → hs.step = 2)
      (hdone : ∀ next, ∃ k k' t, ((c.attempt prim).body next).log = splitLog k k' ∧
        ((c.attempt prim).body next).result = .ok (.transport t) ∧ SplitValue k k' next t)
  | cipher (t : Transport) (send : Bool) (hknown : ∀ s : State, c.Known s → t ∈ s.transports)
      (hguard : (c.attempt prim).guard = t.grd send) (hpos : (c.attempt prim).pos = t.at_ send)
      (halloc : (c.attempt prim).allocates = 0)
      (hdone : (t.cipher send).hasK = true → ∀ next,
        TransportDone t send ((c.attempt prim).body next).log ((c.attempt prim).body next).result)

theorem Handshake.split_eq (hs : Handshake) (next : GuardId) :
    hs.split.body next =
      ⟨splitLog (hkdf2 hs.sym.suite hs.sym.ck.toList []).1 (hkdf2 hs.sym.suite hs.sym.ck.toList []).2,
        .ok {
          send := if hs.initiator then ⟨(hkdf2 hs.sym.suite hs.sym.ck.toList []).1, true, 0⟩
            else ⟨(hkdf2 hs.sym.suite hs.sym.ck.toList []).2, true, 0⟩
          recv := if hs.initiator then ⟨(hkdf2 hs.sym.suite hs.sym.ck.toList []).2, true, 0⟩
            else ⟨(hkdf2 hs.sym.suite hs.sym.ck.toList []).1, true, 0⟩
          sendAt := 0
          recvAt := 0
          sendGrd := next
          recvGrd := next + 1
          hash := hs.sym.h
          peer := hs.rs }⟩ := rfl

theorem split_done (hs : Handshake) (next : GuardId) :
    ∃ k k' t, (((Call.split hs).attempt prim).body next).log = splitLog k k' ∧
      (((Call.split hs).attempt prim).body next).result = .ok (.transport t) ∧
      SplitValue k k' next t := by
  unfold Call.attempt
  dsimp only
  rw [Attempt.result_map, Attempt.log_map, Handshake.split_eq]
  generalize hkdf2 hs.sym.suite hs.sym.ck.toList [] = r
  obtain ⟨k, k'⟩ := r
  refine ⟨k, k', _, rfl, rfl, ⟨rfl, rfl⟩, ?_, ?_, ?_⟩
  · intro send
    cases send <;> rfl
  · intro send
    cases hinit : hs.initiator <;> cases send
    · exact ⟨false, k, rfl, by simp [splitLog]⟩
    · exact ⟨true, k', rfl, by simp [splitLog]⟩
    · exact ⟨true, k', rfl, by simp [splitLog]⟩
    · exact ⟨false, k, rfl, by simp [splitLog]⟩
  · intro hne
    cases hinit : hs.initiator
    · exact hne.symm
    · exact hne

theorem Call.spec (prim : Primitives) (c : Call) : CallSpec prim c := by
  cases c with
  | writeMessage hs payload =>
      exact .handshake hs (fun _ h => h) rfl rfl rfl (writeMessage_done hs payload)
  | readMessage hs msg => exact .handshake hs (fun _ h => h) rfl rfl rfl (readMessage_done hs msg)
  | split hs =>
      refine .split hs (fun _ h => h) rfl rfl rfl ?_ (split_done hs)
      intro hcheck
      by_contra hne
      simp [Call.attempt, Attempt.map, Handshake.split, hne] at hcheck
  | encrypt t pt => exact .cipher t true (fun _ h => h) rfl rfl rfl fun hk => encrypt_done hk pt
  | decrypt t ct => exact .cipher t false (fun _ h => h) rfl rfl rfl fun hk => decrypt_done hk ct
  | rekeySend t => exact .cipher t true (fun _ h => h) rfl rfl rfl fun _ => rekeySend_done t
  | rekeyReceive t => exact .cipher t false (fun _ h => h) rfl rfl rfl fun _ => rekeyReceive_done t

/-! ## Positions -/

def State.HasCipher (s : State) (g : GuardId) (p : UInt64) (c : Cipher) : Prop :=
  ∃ t ∈ s.transports, ∃ send, t.grd send = g ∧ t.at_ send = p ∧ t.cipher send = c

/-- A state value stands at a position of a guard. -/
def State.Stands (s : State) (g : GuardId) (p : UInt64) : Prop :=
  (∃ hs ∈ s.handshakes, hs.guard = g ∧ hs.step = p) ∨ ∃ c, s.HasCipher g p c

/-- The position that a call has claimed. -/
def Pc.holds (prim : Primitives) : Pc → Option (GuardId × UInt64)
  | .claimed c => some ((c.attempt prim).guard, (c.attempt prim).pos)
  | .start _ | .finished => none

/-- The guard is at the position, or a call has claimed it there. -/
def State.Current (prim : Primitives) (s : State) (g : GuardId) (p : UInt64) : Prop :=
  s.guards[g]? = some p ∨ ∃ pc ∈ s.tasks, pc.holds prim = some (g, p)

def Pc.Known (prim : Primitives) (s : State) : Pc → Prop
  | .start c => c.Known s
  | .claimed c => c.Known s ∧ (c.attempt prim).check = none
  | .finished => True

structure Guarded (prim : Primitives) (s : State) : Prop where
  keyed : ∀ g p c, s.HasCipher g p c → c.hasK = true
  known : ∀ pc ∈ s.tasks, pc.Known prim s
  bound : ∀ g p, s.Stands g p → ∃ a, s.guards[g]? = some a ∧ p ≤ a
  held : ∀ pc ∈ s.tasks, ∀ g p, pc.holds prim = some (g, p) →
    s.guards[g]? = some (p + 1) ∧ p ≠ maxNonce ∧ ∀ q, s.Stands g q → q ≤ p
  unique : ∀ (i j : ℕ) (pc pc' : Pc) (g : GuardId) (p q : UInt64), s.tasks[i]? = some pc →
    s.tasks[j]? = some pc' → pc.holds prim = some (g, p) → pc'.holds prim = some (g, q) → i = j

/-- A call's value stands where the call claims. -/
theorem Call.stands {c : Call} (hknown : c.Known s) (hcheck : (c.attempt prim).check = none) :
    s.Stands (c.attempt prim).guard (c.attempt prim).pos := by
  cases c.spec prim with
  | handshake hs hmem hguard hpos =>
      exact .inl ⟨hs, hmem s hknown, hguard.symm, hpos.symm⟩
  | split hs hmem hguard hpos _ hstep =>
      exact .inl ⟨hs, hmem s hknown, hguard.symm, (hstep hcheck).trans hpos.symm⟩
  | cipher t send hmem hguard hpos =>
      exact .inr ⟨t.cipher send, t, hmem s hknown, send, hguard.symm, hpos.symm, rfl⟩

theorem Call.Known.mono {c : Call} (h : c.Known s) (hhs : s.handshakes ⊆ t.handshakes)
    (hts : s.transports ⊆ t.transports) : c.Known t := by
  cases c <;> first | exact hhs h | exact hts h

theorem Pc.Known.mono {pc : Pc} (h : pc.Known prim s) (hhs : s.handshakes ⊆ t.handshakes)
    (hts : s.transports ⊆ t.transports) : pc.Known prim t := by
  cases pc with
  | start c => exact Call.Known.mono h hhs hts
  | claimed c => exact ⟨h.1.mono hhs hts, h.2⟩
  | finished => trivial

theorem CipherStep.hasK {c c' : Cipher} {log : List Entry} (h : CipherStep c log c') :
    c'.hasK = c.hasK := by
  cases h <;> rfl

/-! ## Claiming -/

/-- Where the claimant stands at the guard's position, nobody holds the guard. -/
theorem Guarded.not_held (h : Guarded prim s) {g : GuardId} {p q : UInt64}
    (hguard : s.guards[g]? = some p) (hstands : s.Stands g p) {pc : Pc} (hpc : pc ∈ s.tasks) :
    pc.holds prim ≠ some (g, q) := by
  intro hholds
  obtain ⟨hnext, hq, hle⟩ := h.held pc hpc g q hholds
  obtain rfl := Option.some.inj (hguard.symm.trans hnext)
  exact UInt64.not_le.2 (lt_succ_self hq) (hle _ hstands)

/-- A call that ends without a claim. -/
theorem Guarded.setFinished (h : Guarded prim s) (i : ℕ) : Guarded prim (s.setTask i .finished) where
  keyed := h.keyed
  known := by
    intro pc hpc
    rcases List.mem_or_eq_of_mem_set hpc with hold | rfl
    · exact (h.known pc hold).mono (List.Subset.refl _) (List.Subset.refl _)
    · trivial
  bound := h.bound
  held := by
    intro pc hpc g p hholds
    rcases List.mem_or_eq_of_mem_set hpc with hold | rfl
    · exact h.held pc hold g p hholds
    · cases hholds
  unique := by
    intro j k pc pc' g p q hj hk hp hq
    rcases getElem?_set_cases hj with ⟨_, rfl⟩ | ⟨_, hj⟩
    · cases hp
    · rcases getElem?_set_cases hk with ⟨_, rfl⟩ | ⟨_, hk⟩
      · cases hq
      · exact h.unique j k pc pc' g p q hj hk hp hq

theorem getElem?_set_guard {guards : List UInt64} {g g' : GuardId} {a p : UInt64}
    (hg : guards[g]? = some p) : (guards.set g a)[g']? = if g' = g then some a else guards[g']? := by
  have hlt : g < guards.length := (List.getElem?_eq_some_iff.1 hg).1
  by_cases heq : g' = g
  · subst heq
    simp [hlt]
  · simp [heq, List.getElem?_set_ne (Ne.symm heq)]

/-- A call that takes its guard at its position. -/
theorem Guarded.take (h : Guarded prim s) {c : Call} (hi : s.tasks[i]? = some (.start c))
    (hcheck : (c.attempt prim).check = none)
    (hguard : s.guards[(c.attempt prim).guard]? = some (c.attempt prim).pos)
    (hpos : (c.attempt prim).pos ≠ maxNonce) :
    Guarded prim ({ s with
      guards := s.guards.set (c.attempt prim).guard ((c.attempt prim).pos + 1) }.setTask i
        (.claimed c)) := by
  have hknown : c.Known s := h.known _ (List.mem_of_getElem? hi)
  have hstands := Call.stands hknown hcheck
  generalize hg : (c.attempt prim).guard = g at hguard hstands
  generalize hp : (c.attempt prim).pos = p at hguard hpos hstands
  have hholds : (Pc.claimed c).holds prim = some (g, p) := by simp [Pc.holds, hg, hp]
  have hbelow : ∀ q, s.Stands g q → q ≤ p := by
    intro q hq
    obtain ⟨a, ha, hle⟩ := h.bound g q hq
    obtain rfl := Option.some.inj (hguard.symm.trans ha)
    exact hle
  refine ⟨h.keyed, ?_, ?_, ?_, ?_⟩
  · intro pc hpc
    rcases List.mem_or_eq_of_mem_set hpc with hold | rfl
    · exact (h.known pc hold).mono (List.Subset.refl _) (List.Subset.refl _)
    · exact ⟨hknown.mono (List.Subset.refl _) (List.Subset.refl _), hcheck⟩
  · intro g' q hq
    obtain ⟨a, ha, hle⟩ := h.bound g' q hq
    simp only [State.setTask, getElem?_set_guard hguard]
    by_cases heq : g' = g
    · subst heq
      rw [if_pos rfl]
      obtain rfl := Option.some.inj (hguard.symm.trans ha)
      exact ⟨_, rfl, UInt64.le_of_lt ((lt_succ_iff hpos).2 hle)⟩
    · rw [if_neg heq]
      exact ⟨a, ha, hle⟩
  · intro pc hpc g' q hq
    simp only [State.setTask, getElem?_set_guard hguard]
    rcases List.mem_or_eq_of_mem_set hpc with hold | rfl
    · have hne : g' ≠ g := by
        rintro rfl
        exact h.not_held hguard hstands hold hq
      rw [if_neg hne]
      exact h.held pc hold g' q hq
    · obtain ⟨rfl, rfl⟩ := Prod.mk.inj (Option.some.inj (hholds.symm.trans hq))
      exact ⟨by simp, hpos, hbelow⟩
  · intro j k pc pc' g' q q' hj hk hq hq'
    rcases getElem?_set_cases hj with ⟨hij, rfl⟩ | ⟨_, hj⟩ <;>
      rcases getElem?_set_cases hk with ⟨hik, rfl⟩ | ⟨_, hk⟩
    · exact hij.symm.trans hik
    · obtain ⟨rfl, rfl⟩ := Prod.mk.inj (Option.some.inj (hholds.symm.trans hq))
      exact absurd hq' (h.not_held hguard hstands (List.mem_of_getElem? hk))
    · obtain ⟨rfl, rfl⟩ := Prod.mk.inj (Option.some.inj (hholds.symm.trans hq'))
      exact absurd hq (h.not_held hguard hstands (List.mem_of_getElem? hj))
    · exact h.unique j k pc pc' g' q q' hj hk hq hq'

theorem Guarded.claim (h : Guarded prim s) {c : Call} (hi : s.tasks[i]? = some (.start c))
    (hpos : (c.attempt prim).pos ≠ maxNonce) : Guarded prim (s.claim prim i c) := by
  unfold State.claim
  simp only
  split
  · exact h.setFinished i
  · next hcheck =>
      split
      · next hguard => exact h.take hi hcheck hguard hpos
      · exact h.setFinished i

/-! ## Finishing -/

/-- What a call leaves: a value at the next position or at new guards, or its guard poisoned or
released. -/
inductive Settled (s t : State) (g : GuardId) (p : UInt64) : Prop where
  | ok (n : ℕ) (hguards : t.guards = s.guards ++ List.replicate n 0)
      (hstands : ∀ g' q, t.Stands g' q →
        s.Stands g' q ∨ g' = g ∧ q = p + 1 ∨ s.guards.length ≤ g' ∧ t.guards[g']? = some q)
  | fail (a : UInt64) (ha : a = p ∨ a = maxNonce) (hguards : t.guards = s.guards.set g a)
      (hstands : ∀ g' q, t.Stands g' q → s.Stands g' q)

theorem Guarded.settle (h : Guarded prim s) {c : Call} (hi : s.tasks[i]? = some (.claimed c))
    (htasks : t.tasks = s.tasks.set i .finished) (hhs : s.handshakes ⊆ t.handshakes)
    (hts : s.transports ⊆ t.transports)
    (hkeyed : ∀ g p c, t.HasCipher g p c → c.hasK = true)
    (hsettled : Settled s t (c.attempt prim).guard (c.attempt prim).pos) : Guarded prim t := by
  generalize hg : (c.attempt prim).guard = g at hsettled
  generalize hp : (c.attempt prim).pos = p at hsettled
  have hholds : (Pc.claimed c).holds prim = some (g, p) := by simp [Pc.holds, hg, hp]
  obtain ⟨hguard, hpos, hbelow⟩ := h.held _ (List.mem_of_getElem? hi) g p hholds
  have hother : ∀ (j : ℕ) (pc : Pc) (q : UInt64), i ≠ j → s.tasks[j]? = some pc →
      pc.holds prim ≠ some (g, q) :=
    fun j pc q hij hj hq => hij (h.unique i j _ pc g p q hi hj hholds hq)
  have hrest : ∀ (g' : GuardId) (a : UInt64), g' ≠ g → s.guards[g']? = some a →
      t.guards[g']? = some a := by
    intro g' a hne ha
    cases hsettled with
    | ok n hguards =>
        rw [hguards, List.getElem?_append_left (List.getElem?_eq_some_iff.1 ha).1, ha]
    | fail b _ hguards => rw [hguards, List.getElem?_set_ne (Ne.symm hne), ha]
  refine ⟨hkeyed, ?_, ?_, ?_, ?_⟩
  · intro pc hpc
    rcases List.mem_or_eq_of_mem_set (htasks ▸ hpc) with hold | rfl
    · exact (h.known pc hold).mono hhs hts
    · trivial
  · intro g' q hq
    cases hsettled with
    | ok n hguards hstands =>
        rcases hstands g' q hq with hold | ⟨rfl, rfl⟩ | ⟨_, hnew⟩
        · obtain ⟨a, ha, hle⟩ := h.bound g' q hold
          rw [hguards, List.getElem?_append_left (List.getElem?_eq_some_iff.1 ha).1]
          exact ⟨a, ha, hle⟩
        · rw [hguards, List.getElem?_append_left (List.getElem?_eq_some_iff.1 hguard).1]
          exact ⟨_, hguard, UInt64.le_refl _⟩
        · exact ⟨q, hnew, UInt64.le_refl q⟩
    | fail a ha hguards hstands =>
        have hold := hstands g' q hq
        rw [hguards, getElem?_set_guard hguard]
        by_cases heq : g' = g
        · subst heq
          rw [if_pos rfl]
          refine ⟨a, rfl, ?_⟩
          rcases ha with rfl | rfl
          · exact hbelow q hold
          · exact le_maxNonce q
        · rw [if_neg heq]
          exact h.bound g' q hold
  · intro pc hpc g' q hq
    rcases mem_set_cases (htasks ▸ hpc) with rfl | ⟨j, hij, hj⟩
    · cases hq
    · have hne : g' ≠ g := by
        rintro rfl
        exact hother j pc q hij hj hq
      obtain ⟨hguard', hpos', hbelow'⟩ := h.held pc (List.mem_of_getElem? hj) g' q hq
      refine ⟨hrest g' _ hne hguard', hpos', ?_⟩
      intro r hr
      cases hsettled with
      | ok n _ hstands =>
          rcases hstands g' r hr with hold | ⟨heq, _⟩ | ⟨hlen, _⟩
          · exact hbelow' r hold
          · exact absurd heq hne
          · exact absurd (List.getElem?_eq_some_iff.1 hguard').1 (not_lt.2 hlen)
      | fail a _ _ hstands => exact hbelow' r (hstands g' r hr)
  · intro j k pc pc' g' q q' hj hk hq hq'
    rcases getElem?_set_cases (htasks ▸ hj) with ⟨_, rfl⟩ | ⟨_, hj⟩
    · cases hq
    · rcases getElem?_set_cases (htasks ▸ hk) with ⟨_, rfl⟩ | ⟨_, hk⟩
      · cases hq'
      · exact h.unique j k pc pc' g' q q' hj hk hq hq'

end Sky.Noise
