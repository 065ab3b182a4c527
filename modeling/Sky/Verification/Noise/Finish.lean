import Sky.Verification.Noise.Guards

/-! # What a call leaves -/

namespace Sky.Noise

open Library

variable {prim : Primitives} {s t : State} {i : ℕ}

/-- A handshake value, and a call that returns one or none. -/
theorem State.handshakes_addValue (r : Except Failure Value) :
    s.handshakes ⊆ (s.addValue r).handshakes := by
  cases r with
  | ok v =>
      cases v with
      | handshake hs => exact List.subset_append_left _ _
      | transport t => exact List.Subset.refl _
  | error e => exact List.Subset.refl _

theorem State.transports_addValue (r : Except Failure Value) :
    s.transports ⊆ (s.addValue r).transports := by
  cases r with
  | ok v =>
      cases v with
      | handshake hs => exact List.Subset.refl _
      | transport t => exact List.subset_append_left _ _
  | error e => exact List.Subset.refl _

/-- What a call appends to the log. -/
def State.logged (prim : Primitives) (s : State) (c : Call) : List Entry :=
  ((c.attempt prim).body s.guards.length).log

/-- The value that a call adds, or the failure it ends in. -/
inductive Finished (prim : Primitives) (s t : State) (c : Call) : Prop where
  | turn (hlog : s.logged prim c = []) (hvalues : t.handshakes = s.handshakes ∧
        t.transports = s.transports)
      (hguards : t.guards = s.guards.set (c.attempt prim).guard (c.attempt prim).pos)
  | poisoned (hlog : HandshakeLog (c.attempt prim).pos (s.logged prim c))
      (hhs : ∃ hs ∈ s.handshakes, hs.guard = (c.attempt prim).guard)
      (hvalues : t.handshakes = s.handshakes ∧ t.transports = s.transports)
      (hguards : t.guards = s.guards.set (c.attempt prim).guard maxNonce)
  | exhausted (hlog : s.logged prim c = [])
      (hvalues : t.handshakes = s.handshakes ∧ t.transports = s.transports)
      (hguards : t.guards = s.guards.set (c.attempt prim).guard maxNonce)
  | handshake (hs : Handshake) (hlog : HandshakeLog (c.attempt prim).pos (s.logged prim c))
      (hold : ∃ hs ∈ s.handshakes, hs.guard = (c.attempt prim).guard)
      (hguard : hs.guard = (c.attempt prim).guard) (hstep : hs.step = (c.attempt prim).pos + 1)
      (hvalues : t.handshakes = s.handshakes ++ [hs] ∧ t.transports = s.transports)
      (hguards : t.guards = s.guards)
  | split (k k' : Block) (x : Transport) (hlog : s.logged prim c = splitLog k k')
      (hold : ∃ hs ∈ s.handshakes, hs.guard = (c.attempt prim).guard)
      (hpos : (c.attempt prim).pos = 2) (hx : SplitValue k k' s.guards.length x)
      (hvalues : t.handshakes = s.handshakes ∧ t.transports = s.transports ++ [x])
      (hguards : t.guards = s.guards ++ [0, 0])
  | transport (x : Transport) (send : Bool) (d : Cipher) (hx : x ∈ s.transports)
      (hstep : CipherStep (x.cipher send) (s.logged prim c) d)
      (hguard : (c.attempt prim).guard = x.grd send) (hpos : (c.attempt prim).pos = x.at_ send)
      (hvalues : t.handshakes = s.handshakes ∧ t.transports = s.transports ++ [x.advance send d])
      (hguards : t.guards = s.guards)

/-- The value and the guards after a call whose result is known. -/
theorem State.finish_of_result {c : Call} {r : Except Failure Value}
    (hr : ((c.attempt prim).body s.guards.length).result = r) :
    (s.finish prim i c).handshakes = (s.addValue r).handshakes ∧
      (s.finish prim i c).transports = (s.addValue r).transports ∧
      (s.finish prim i c).guards = (c.attempt prim).settle r s.guards := by
  subst hr
  exact ⟨rfl, rfl, rfl⟩

theorem Guarded.finished (h : Guarded prim s) {c : Call} (hi : s.tasks[i]? = some (.claimed c)) :
    Finished prim s (s.finish prim i c) c := by
  obtain ⟨hknown, hcheck⟩ := h.known _ (List.mem_of_getElem? hi)
  cases c.spec prim with
  | handshake hs hmem hguard hpos halloc hdone =>
      have hold : ∃ hs ∈ s.handshakes, hs.guard = (c.attempt prim).guard :=
        ⟨hs, hmem s hknown, hguard.symm⟩
      have hdone := hdone s.guards.length
      generalize hl : ((c.attempt prim).body s.guards.length).log = log at hdone
      generalize hr : ((c.attempt prim).body s.guards.length).result = r at hdone
      obtain ⟨hhs, hts, hguards⟩ := State.finish_of_result (i := i) hr
      cases hdone with
      | turn message => exact .turn hl ⟨hhs, hts⟩ hguards
      | failed _ message hlog =>
          exact .poisoned (by rw [State.logged, hl, hpos]; exact hlog) hold ⟨hhs, hts⟩ hguards
      | next _ hs' hlog hguard' hstep =>
          refine .handshake hs' (by rw [State.logged, hl, hpos]; exact hlog) hold
            (hguard'.trans hguard.symm) (by rw [hpos, hstep]) ⟨hhs, hts⟩ ?_
          simp [hguards, Attempt.settle, halloc]
  | split hs hmem hguard hpos halloc hstep hdone =>
      obtain ⟨k, k', x, hl, hr, hx⟩ := hdone s.guards.length
      obtain ⟨hhs, hts, hguards⟩ := State.finish_of_result (i := i) hr
      refine .split k k' x hl ⟨hs, hmem s hknown, hguard.symm⟩ hpos hx ⟨hhs, hts⟩ ?_
      rw [hguards, Attempt.settle, halloc]
      rfl
  | cipher x send hmem hguard hpos halloc hdone =>
      have hx : x ∈ s.transports := hmem s hknown
      have hk : (x.cipher send).hasK = true := h.keyed _ _ _ ⟨x, hx, send, rfl, rfl, rfl⟩
      have hdone := hdone hk s.guards.length
      generalize hl : ((c.attempt prim).body s.guards.length).log = log at hdone
      generalize hr : ((c.attempt prim).body s.guards.length).result = r at hdone
      obtain ⟨hhs, hts, hguards⟩ := State.finish_of_result (i := i) hr
      cases hdone with
      | failed e =>
          cases e with
          | poison message => exact .exhausted hl ⟨hhs, hts⟩ hguards
          | release message => exact .turn hl ⟨hhs, hts⟩ hguards
      | next _ d hstep =>
          refine .transport x send d hx (by rw [State.logged, hl]; exact hstep) hguard hpos
            ⟨hhs, hts⟩ ?_
          simp [hguards, Attempt.settle, halloc]

/-! ## Positions -/

theorem State.Stands.of_values (hvalues : t.handshakes = s.handshakes ∧ t.transports = s.transports)
    {g : GuardId} {p : UInt64} (h : t.Stands g p) : s.Stands g p := by
  unfold State.Stands State.HasCipher at *
  rwa [hvalues.1, hvalues.2] at h

/-- Where the ciphers of a new transport value stand. -/
theorem State.HasCipher.of_append {x : Transport} (hts : t.transports = s.transports ++ [x])
    {g : GuardId} {p : UInt64} {c : Cipher} (h : t.HasCipher g p c) :
    s.HasCipher g p c ∨ ∃ send, x.grd send = g ∧ x.at_ send = p ∧ x.cipher send = c := by
  obtain ⟨y, hy, send, hfields⟩ := h
  rcases List.mem_append.1 (hts ▸ hy) with hold | hnew
  · exact .inl ⟨y, hold, send, hfields⟩
  · obtain rfl := List.mem_singleton.1 hnew
    exact .inr ⟨send, hfields⟩

/-- The ciphers of a value that went on in one direction. -/
theorem State.HasCipher.of_advance {x : Transport} {send : Bool} {d : Cipher}
    (hx : x ∈ s.transports) (hts : t.transports = s.transports ++ [x.advance send d])
    {g : GuardId} {p : UInt64} {c : Cipher} (h : t.HasCipher g p c) :
    s.HasCipher g p c ∨ g = x.grd send ∧ p = x.at_ send + 1 ∧ c = d := by
  rcases h.of_append hts with hold | ⟨other, hg, hp, hc⟩
  · exact .inl hold
  · by_cases heq : other = send
    · subst heq
      rw [Transport.grd_advance] at hg
      rw [Transport.at_advance] at hp
      rw [Transport.cipher_advance] at hc
      exact .inr ⟨hg.symm, hp.symm, hc.symm⟩
    · rw [Transport.grd_advance] at hg
      rw [Transport.at_advance_of_ne heq] at hp
      rw [Transport.cipher_advance_of_ne heq] at hc
      exact .inl ⟨x, hx, other, hg, hp, hc⟩

theorem State.Stands.of_ciphers (hhs : t.handshakes = s.handshakes) {g : GuardId} {p : UInt64}
    (h : t.Stands g p) : s.Stands g p ∨ ∃ c, t.HasCipher g p c := by
  rcases h with ⟨hs, hmem, hfields⟩ | hcipher
  · exact .inl (.inl ⟨hs, hhs ▸ hmem, hfields⟩)
  · exact .inr hcipher

theorem SplitValue.guard {k k' : Block} {x : Transport} {n : ℕ} (hx : SplitValue k k' n x)
    (send : Bool) : x.grd send = n ∨ x.grd send = n + 1 := by
  cases send
  · exact .inr hx.grd.2
  · exact .inl hx.grd.1

theorem Finished.settled {c : Call} (h : Finished prim s t c) :
    Settled s t (c.attempt prim).guard (c.attempt prim).pos := by
  cases h with
  | turn _ hvalues hguards => exact .fail _ (.inl rfl) hguards fun g q hq => hq.of_values hvalues
  | poisoned _ _ hvalues hguards =>
      exact .fail _ (.inr rfl) hguards fun g q hq => hq.of_values hvalues
  | exhausted _ hvalues hguards =>
      exact .fail _ (.inr rfl) hguards fun g q hq => hq.of_values hvalues
  | handshake hs _ _ hguard hstep hvalues hguards =>
      refine .ok 0 (by simpa using hguards) ?_
      intro g q hq
      rcases hq with ⟨hs', hmem, hg, hp⟩ | ⟨d, hcipher⟩
      · rcases List.mem_append.1 (hvalues.1 ▸ hmem) with hold | hnew
        · exact .inl (.inl ⟨hs', hold, hg, hp⟩)
        · obtain rfl := List.mem_singleton.1 hnew
          exact .inr (.inl ⟨hg.symm.trans hguard, hp.symm.trans hstep⟩)
      · refine .inl (.inr ⟨d, ?_⟩)
        unfold State.HasCipher at *
        rwa [hvalues.2] at hcipher
  | split k k' x _ _ _ hx hvalues hguards =>
      refine .ok 2 hguards ?_
      intro g q hq
      rcases hq.of_ciphers hvalues.1 with hold | ⟨d, hcipher⟩
      · exact .inl hold
      · rcases hcipher.of_append hvalues.2 with hold | ⟨send, rfl, rfl, _⟩
        · exact .inl (.inr ⟨d, hold⟩)
        · refine .inr (.inr ?_)
          rw [hguards, hx.at_ send]
          rcases hx.guard send with hg | hg <;> rw [hg] <;> simp
  | transport x send d hx _ hguard hpos hvalues hguards =>
      refine .ok 0 (by simpa using hguards) ?_
      intro g q hq
      rcases hq.of_ciphers hvalues.1 with hold | ⟨e, hcipher⟩
      · exact .inl hold
      · rcases hcipher.of_advance hx hvalues.2 with hold | ⟨hg, hp, _⟩
        · exact .inl (.inr ⟨e, hold⟩)
        · exact .inr (.inl ⟨hg.trans hguard.symm, hp.trans (by rw [hpos])⟩)

theorem Finished.keyed {c : Call} (hs : ∀ g p c, s.HasCipher g p c → c.hasK = true)
    (h : Finished prim s t c) : ∀ g p c, t.HasCipher g p c → c.hasK = true := by
  have hsame : t.transports = s.transports → ∀ g p c, t.HasCipher g p c → c.hasK = true := by
    intro hts g p d hd
    unfold State.HasCipher at hd
    rw [hts] at hd
    exact hs g p d hd
  cases h with
  | turn _ hvalues => exact hsame hvalues.2
  | poisoned _ _ hvalues => exact hsame hvalues.2
  | exhausted _ hvalues => exact hsame hvalues.2
  | handshake _ _ _ _ _ hvalues => exact hsame hvalues.2
  | split k k' x _ _ _ hx hvalues _ =>
      intro g p d hd
      rcases hd.of_append hvalues.2 with hold | ⟨send, _, _, rfl⟩
      · exact hs g p d hold
      · obtain ⟨_, _, heq, _⟩ := hx.cipher send
        rw [heq]
  | transport x send e hx hstep _ _ hvalues _ =>
      intro g p d hd
      rcases hd.of_advance hx hvalues.2 with hold | ⟨_, _, rfl⟩
      · exact hs g p d hold
      · exact hstep.hasK.trans (hs _ _ _ ⟨x, hx, send, rfl, rfl, rfl⟩)

theorem State.tasks_finish (prim : Primitives) (s : State) (i : ℕ) (c : Call) :
    (s.finish prim i c).tasks = s.tasks.set i .finished := by
  unfold State.finish State.setTask State.addValue
  dsimp only
  split <;> rfl

theorem Guarded.finish (h : Guarded prim s) {c : Call} (hi : s.tasks[i]? = some (.claimed c)) :
    Guarded prim (s.finish prim i c) := by
  have hfinished := h.finished hi
  exact h.settle hi (State.tasks_finish ..) (State.handshakes_addValue _) (State.transports_addValue _)
    (hfinished.keyed h.keyed) hfinished.settled

end Sky.Noise
