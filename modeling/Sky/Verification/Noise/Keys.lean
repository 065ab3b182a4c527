import Sky.Verification.Noise.Bodies

/-! # Keys and nonces of a log

A key is sealed under with a growing nonce until it is changed, and never after that. -/

namespace Sky.Noise

open Library

variable {log new : List Entry} {c c' d : Cipher}

/-- A key was derived. -/
def Derived (log : List Entry) (k : Block) : Prop := ∃ o, Entry.derived o k ∈ log

/-- A cipher that may still seal: its key was not changed, and was sealed under with smaller
nonces only. -/
structure Live (log : List Entry) (c : Cipher) : Prop where
  derived : Derived log c.k
  kept : ∀ k, Entry.derived (.rekey c.k) k ∉ log
  below : ∀ x, Entry.sealed x ∈ log → x.key = c.k → ∃ m < c.n, x.nonce = nonce m

structure Sound (log : List Entry) : Prop where
  rekeys : ∀ k k', Entry.derived (.rekey k) k' ∈ log → Derived log k
  keys : ∀ x, Entry.sealed x ∈ log → Derived log x.key
  nonces : ∀ x, Entry.sealed x ∈ log → x.rekey = true ∧ x.nonce = nonce maxNonce ∨
    x.rekey = false ∧ ∃ m, m ≠ maxNonce ∧ x.nonce = nonce m
  nodup : (pairs log).Nodup

theorem sound_nil : Sound [] := by
  refine ⟨?_, ?_, ?_, ?_⟩ <;> simp

theorem Derived.append {k : Block} (h : Derived log k) (new : List Entry) :
    Derived (log ++ new) k := by
  obtain ⟨o, ho⟩ := h
  exact ⟨o, List.mem_append_left new ho⟩

/-- What a new step derives was not there before. -/
theorem Distinct.fresh (h : Distinct (log ++ new)) {o : Origin} {k : Block}
    (hnew : Entry.derived o k ∈ new) (ho : ∀ k, Entry.derived o k ∉ log) : ¬Derived log k := by
  rintro ⟨o', hold⟩
  have hne : o ≠ o' := by
    rintro rfl
    exact ho k hold
  exact h o k o' k (List.mem_append_right log hnew) (List.mem_append_left new hold) hne rfl

/-- A live cipher stays so when nothing is sealed under its key and it is not changed. -/
theorem Live.append (h : Live log d)
    (hkept : ∀ k, Entry.derived (.rekey d.k) k ∉ new)
    (hsealed : ∀ x, Entry.sealed x ∈ new → x.key ≠ d.k) : Live (log ++ new) d where
  derived := h.derived.append new
  kept := by
    intro k hk
    rcases List.mem_append.1 hk with hold | hnew
    · exact h.kept k hold
    · exact hkept k hnew
  below := by
    intro x hx hkey
    rcases List.mem_append.1 hx with hold | hnew
    · exact h.below x hold hkey
    · exact absurd hkey (hsealed x hnew)

/-- New entries are sound when what they seal was not sealed before. -/
theorem Sound.append (h : Sound log)
    (hrekeys : ∀ k k', Entry.derived (.rekey k) k' ∈ new → Derived (log ++ new) k)
    (hkeys : ∀ x, Entry.sealed x ∈ new → Derived (log ++ new) x.key)
    (hnonces : ∀ x, Entry.sealed x ∈ new → x.rekey = true ∧ x.nonce = nonce maxNonce ∨
      x.rekey = false ∧ ∃ m, m ≠ maxNonce ∧ x.nonce = nonce m)
    (hnodup : (pairs new).Nodup)
    (hfresh : ∀ x y, Entry.sealed x ∈ new → Entry.sealed y ∈ log → y.key = x.key →
      y.nonce ≠ x.nonce) : Sound (log ++ new) where
  rekeys := by
    intro k k' hk
    rcases List.mem_append.1 hk with hold | hnew
    · exact (h.rekeys k k' hold).append new
    · exact hrekeys k k' hnew
  keys := by
    intro x hx
    rcases List.mem_append.1 hx with hold | hnew
    · exact (h.keys x hold).append new
    · exact hkeys x hnew
  nonces := by
    intro x hx
    rcases List.mem_append.1 hx with hold | hnew
    · exact h.nonces x hold
    · exact hnonces x hnew
  nodup := by
    rw [pairs_append]
    refine List.nodup_append.2 ⟨h.nodup, hnodup, ?_⟩
    rintro ⟨k, n⟩ hold p hnew rfl
    obtain ⟨y, hy, rfl, rfl⟩ := mem_pairs.1 hold
    obtain ⟨x, hx, hkey, hnonce⟩ := mem_pairs.1 hnew
    exact hfresh x y hx hy hkey.symm hnonce.symm

/-! ## A cipher's step -/

/-- A live cipher's next nonce is new. -/
theorem Live.nonce_ne (h : Live log c) {n : UInt64} (hn : c.n ≤ n) {y : Sealed}
    (hy : Entry.sealed y ∈ log) (hkey : y.key = c.k) : y.nonce ≠ nonce n := by
  intro heq
  obtain ⟨m, hm, hnonce⟩ := h.below y hy hkey
  obtain rfl := nonce_injective (hnonce.symm.trans heq)
  exact UInt64.lt_irrefl m (UInt64.lt_of_lt_of_le hm hn)

theorem CipherStep.sound (hsound : Sound log) (hlive : Live log c) (h : CipherStep c new c') :
    Sound (log ++ new) := by
  cases h with
  | sealed x hx hn =>
      obtain ⟨hkey, hnonce, hrekey⟩ := hx
      refine hsound.append (by simp) ?_ ?_ (by simp) ?_
      · rintro y hy
        obtain rfl : y = x := by simpa using hy
        exact (hkey ▸ hlive.derived).append _
      · rintro y hy
        obtain rfl : y = x := by simpa using hy
        exact .inr ⟨hrekey, c.n, hn, hnonce⟩
      · rintro y z hy hz hsame
        obtain rfl : y = x := by simpa using hy
        exact hnonce ▸ hlive.nonce_ne (UInt64.le_refl _) hz (hsame.trans hkey)
  | opened => simpa using hsound
  | rekeyed x k hx =>
      obtain ⟨hkey, hnonce, hrekey⟩ := hx
      refine hsound.append ?_ ?_ ?_ (by simp) ?_
      · rintro k₁ k₂ hk
        obtain ⟨rfl, rfl⟩ : k₁ = c.k ∧ k₂ = k := by simpa using hk
        exact hlive.derived.append _
      · rintro y hy
        obtain rfl : y = x := by simpa using hy
        exact (hkey ▸ hlive.derived).append _
      · rintro y hy
        obtain rfl : y = x := by simpa using hy
        exact .inl ⟨hrekey, hnonce⟩
      · rintro y z hy hz hsame
        obtain rfl : y = x := by simpa using hy
        exact hnonce ▸ hlive.nonce_ne (le_maxNonce c.n) hz (hsame.trans hkey)

/-- The key of a cipher after a step is its own, or a new one. -/
theorem CipherStep.key (hlive : Live log c) (h : CipherStep c new c')
    (hdistinct : Distinct (log ++ new)) : c'.k = c.k ∨ ¬Derived log c'.k := by
  cases h with
  | sealed => exact .inl rfl
  | opened => exact .inl rfl
  | rekeyed x k hx => exact .inr (hdistinct.fresh (by simp) hlive.kept)

theorem CipherStep.live (hsound : Sound log) (hlive : Live log c) (h : CipherStep c new c')
    (hdistinct : Distinct (log ++ new)) : Live (log ++ new) c' := by
  cases h with
  | sealed x hx hn =>
      obtain ⟨hkey, hnonce, _⟩ := hx
      refine ⟨hlive.derived.append _, ?_, ?_⟩
      · intro k hk
        exact hlive.kept k (by simpa using hk)
      · intro y hy hsame
        rcases List.mem_append.1 hy with hold | hnew
        · obtain ⟨m, hm, hm'⟩ := hlive.below y hold hsame
          exact ⟨m, UInt64.lt_trans hm (lt_succ_self hn), hm'⟩
        · obtain rfl : y = x := by simpa using hnew
          exact ⟨c.n, lt_succ_self hn, hnonce⟩
  | opened hn =>
      rw [List.append_nil]
      refine ⟨hlive.derived, hlive.kept, ?_⟩
      intro y hy hsame
      obtain ⟨m, hm, hm'⟩ := hlive.below y hy hsame
      exact ⟨m, UInt64.lt_trans hm (lt_succ_self hn), hm'⟩
  | rekeyed x k hx =>
      have hnew : ¬Derived log k := hdistinct.fresh (by simp) hlive.kept
      have hne : c.k ≠ k := by
        rintro rfl
        exact hnew hlive.derived
      refine ⟨⟨.rekey c.k, by simp⟩, ?_, ?_⟩
      · intro k' hk'
        rcases List.mem_append.1 hk' with hold | hk'
        · exact hnew (hsound.rekeys k k' hold)
        · have heq : k = c.k ∧ k' = k := by simpa using hk'
          exact hne heq.1.symm
      · intro y hy hsame
        rcases List.mem_append.1 hy with hold | hy
        · have hkey : y.key = k := hsame
          exact absurd (hkey ▸ hsound.keys y hold) hnew
        · obtain rfl : y = x := by simpa using hy
          exact absurd (hx.1.symm.trans hsame) hne

theorem CipherStep.others (h : CipherStep c new c') (hd : Live log d) (hne : d.k ≠ c.k) :
    Live (log ++ new) d := by
  refine hd.append ?_ ?_
  · intro k hk
    cases h with
    | sealed => simp at hk
    | opened => cases hk
    | rekeyed x k' hx =>
        have heq : d.k = c.k ∧ k = k' := by simpa using hk
        exact hne heq.1
  · intro y hy
    cases h with
    | sealed x hx hn =>
        obtain rfl : y = x := by simpa using hy
        exact hx.1 ▸ hne.symm
    | opened => cases hy
    | rekeyed x k' hx =>
        obtain rfl : y = x := by simpa using hy
        exact hx.1 ▸ hne.symm

theorem CipherStep.origin (h : CipherStep c new c') {o : Origin} {k : Block}
    (hk : Entry.derived o k ∈ new) : o = .rekey c.k := by
  cases h with
  | sealed => simp at hk
  | opened => cases hk
  | rekeyed x k' hx =>
      have heq : o = .rekey c.k ∧ k = k' := by simpa using hk
      exact heq.1

/-! ## A handshake step -/

theorem HandshakeLog.sound {p : UInt64} (hsound : Sound log) (h : HandshakeLog p new)
    (hfresh : ∀ second k, Entry.derived (.mixKey p second) k ∉ log)
    (hdistinct : Distinct (log ++ new)) : Sound (log ++ new) := by
  have hkey : ∀ x, Entry.sealed x ∈ new → ¬Derived log x.key := by
    intro x hx
    obtain ⟨_, _, o, ho⟩ := h.first_seal hx
    obtain ⟨second, rfl⟩ := h.origin ho
    exact hdistinct.fresh ho (hfresh second)
  refine hsound.append ?_ ?_ ?_ (h.nodup_pairs (hdistinct.of_sublist ?_)) ?_
  · intro k k' hk
    obtain ⟨second, ho⟩ := h.origin hk
    cases ho
  · intro x hx
    obtain ⟨_, _, o, ho⟩ := h.first_seal hx
    exact ⟨o, List.mem_append_right log ho⟩
  · intro x hx
    obtain ⟨hrekey, hnonce, _⟩ := h.first_seal hx
    exact .inr ⟨hrekey, 0, zero_ne_maxNonce, hnonce⟩
  · exact List.subset_append_right log new
  · intro x y hx hy hsame
    exact absurd (hsame ▸ hsound.keys y hy) (hkey x hx)

theorem HandshakeLog.others {p : UInt64} (h : HandshakeLog p new)
    (hfresh : ∀ second k, Entry.derived (.mixKey p second) k ∉ log)
    (hdistinct : Distinct (log ++ new)) (hd : Live log d) : Live (log ++ new) d := by
  refine hd.append ?_ ?_
  · intro k hk
    obtain ⟨second, ho⟩ := h.origin hk
    cases ho
  · intro x hx hkey
    obtain ⟨_, _, o, ho⟩ := h.first_seal hx
    obtain ⟨second, rfl⟩ := h.origin ho
    exact hdistinct.fresh ho (hfresh second) (hkey ▸ hd.derived)

/-! ## The split -/

/-- The two keys of a split. -/
def splitLog (k k' : Block) : List Entry := [.derived (.split false) k, .derived (.split true) k']

theorem splitLog_sound {k k' : Block} (hsound : Sound log) : Sound (log ++ splitLog k k') :=
  hsound.append (by simp [splitLog]) (by simp [splitLog]) (by simp [splitLog]) (by simp [splitLog])
    (by simp [splitLog])

theorem splitLog_others {k k' : Block} (hd : Live log d) : Live (log ++ splitLog k k') d :=
  hd.append (by simp [splitLog]) (by simp [splitLog])

/-- A key that the split derived is new. -/
theorem splitLog_fresh {k k' k'' : Block} {second : Bool}
    (hfresh : ∀ second k, Entry.derived (.split second) k ∉ log)
    (hdistinct : Distinct (log ++ splitLog k k'))
    (hk : Entry.derived (.split second) k'' ∈ splitLog k k') : ¬Derived log k'' :=
  hdistinct.fresh hk (hfresh second)

theorem splitLog_live {k k' k'' : Block} {second : Bool} (hsound : Sound log)
    (hfresh : ∀ second k, Entry.derived (.split second) k ∉ log)
    (hdistinct : Distinct (log ++ splitLog k k'))
    (hk : Entry.derived (.split second) k'' ∈ splitLog k k') :
    Live (log ++ splitLog k k') ⟨k'', true, 0⟩ := by
  have hnew : ¬Derived log k'' := splitLog_fresh hfresh hdistinct hk
  refine ⟨⟨_, List.mem_append_right log hk⟩, ?_, ?_⟩
  · intro k₁ hk₁
    rcases List.mem_append.1 hk₁ with hold | hsplit
    · exact hnew (hsound.rekeys _ _ hold)
    · simp [splitLog] at hsplit
  · intro x hx hkey
    rcases List.mem_append.1 hx with hold | hsplit
    · have hkey' : x.key = k'' := hkey
      exact absurd (hkey' ▸ hsound.keys x hold) hnew
    · simp [splitLog] at hsplit

theorem splitLog_ne {k k' : Block} (hdistinct : Distinct (log ++ splitLog k k')) : k ≠ k' :=
  hdistinct (.split false) k (.split true) k' (by simp [splitLog]) (by simp [splitLog]) (by simp)

end Sky.Noise
