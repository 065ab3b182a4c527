import Sky.Model.NoiseSession

/-! # What each call does after its claim -/

namespace Sky.Noise

open Library

/-! ## Counters and nonces -/

theorem toNat_maxNonce : maxNonce.toNat = 2 ^ 64 - 1 := rfl

theorem toNat_succ {n : UInt64} (h : n ≠ maxNonce) : (n + 1).toNat = n.toNat + 1 := by
  have hne : n.toNat ≠ 2 ^ 64 - 1 := fun heq => h (UInt64.toNat.inj (heq.trans toNat_maxNonce.symm))
  have hlt := n.toNat_lt
  rw [UInt64.toNat_add]
  simp
  omega

theorem lt_succ_self {n : UInt64} (h : n ≠ maxNonce) : n < n + 1 := by
  rw [UInt64.lt_iff_toNat_lt, toNat_succ h]
  omega

theorem lt_succ_iff {m n : UInt64} (h : n ≠ maxNonce) : m < n + 1 ↔ m ≤ n := by
  rw [UInt64.lt_iff_toNat_lt, UInt64.le_iff_toNat_le, toNat_succ h]
  omega

theorem lt_maxNonce {n : UInt64} (h : n ≠ maxNonce) : n < maxNonce := by
  have hne : n.toNat ≠ 2 ^ 64 - 1 := fun heq => h (UInt64.toNat.inj (heq.trans toNat_maxNonce.symm))
  have hlt := n.toNat_lt
  rw [UInt64.lt_iff_toNat_lt, toNat_maxNonce]
  omega

theorem le_maxNonce (n : UInt64) : n ≤ maxNonce := by
  have hlt := n.toNat_lt
  rw [UInt64.le_iff_toNat_le, toNat_maxNonce]
  omega

/-- Two counters with the same nonce are equal. -/
theorem nonce_injective {m n : UInt64} (h : nonce m = nonce n) : m = n := by
  have hbytes := List.append_cancel_left h
  have hdigit : ∀ i < 8, m.toNat / 256 ^ i % 256 = n.toNat / 256 ^ i % 256 := by
    intro i hi
    have hi' : i < (List.range 8).length := by simpa using hi
    have heq := congrArg (fun l : List UInt8 => (l[i]?).map UInt8.toNat) hbytes
    simpa [List.getElem?_range hi] using heq
  have hlow : ∀ i ≤ 8, m.toNat % 256 ^ i = n.toNat % 256 ^ i := by
    intro i hi
    induction i with
    | zero => simp only [pow_zero, Nat.mod_one]
    | succ i ih =>
        rw [Nat.mod_pow_succ, Nat.mod_pow_succ, ih (Nat.le_of_succ_le hi), hdigit i hi]
  have hall := hlow 8 le_rfl
  rw [Nat.mod_eq_of_lt (b := 256 ^ 8) m.toNat_lt, Nat.mod_eq_of_lt (b := 256 ^ 8) n.toNat_lt] at hall
  exact UInt64.toNat.inj hall

variable {prim : Primitives}

/-! ## Cipher and symmetric states -/

theorem Cipher.encrypt_eq {c : Cipher} (hk : c.hasK = true) (hn : c.n ≠ maxNonce)
    (ad pt : Bytes) : c.encrypt prim ad pt =
      ⟨[.sealed ⟨c.k, nonce c.n, pt, ad, false⟩],
        .ok ({ c with n := c.n + 1 }, prim.aeadSeal c.k (nonce c.n) pt ad)⟩ := by
  simp only [Cipher.encrypt, hk, hn, Bool.not_true, Bool.false_eq_true, if_false]
  rfl

theorem Cipher.encrypt_exhausted {c : Cipher} (hk : c.hasK = true) (hn : c.n = maxNonce)
    (ad pt : Bytes) : c.encrypt prim ad pt =
      ⟨[], .error "the nonce counter is exhausted; rekey or start a new session"⟩ := by
  simp only [Cipher.encrypt, hk, hn, Bool.not_true, Bool.false_eq_true, if_false, if_true]
  rfl

theorem Symmetric.mixKey_eq (s : Symmetric) (origin : Origin) (ikm : Bytes) :
    s.mixKey origin ikm = ⟨[.derived origin (hkdf2 s.suite s.ck.toList ikm).2],
      .ok { s with
        ck := (hkdf2 s.suite s.ck.toList ikm).1
        cs := ⟨(hkdf2 s.suite s.ck.toList ikm).2, true, 0⟩ }⟩ := rfl

theorem Symmetric.encryptAndHash_eq {s : Symmetric} (hk : s.cs.hasK = true)
    (hn : s.cs.n ≠ maxNonce) (pt : Bytes) :
    s.encryptAndHash prim pt =
      ⟨[.sealed ⟨s.cs.k, nonce s.cs.n, pt, s.h.toList, false⟩],
        .ok ({ s with cs := { s.cs with n := s.cs.n + 1 } }.mixHash
            (prim.aeadSeal s.cs.k (nonce s.cs.n) pt s.h.toList),
          prim.aeadSeal s.cs.k (nonce s.cs.n) pt s.h.toList)⟩ := by
  rw [Symmetric.encryptAndHash, Cipher.encrypt_eq hk hn]
  rfl

theorem zero_ne_maxNonce : (0 : UInt64) ≠ maxNonce := by decide

/-- A mixed key is the cipher's, which starts with it. -/
theorem Symmetric.mixKey_cases (s : Symmetric) (origin : Origin) (ikm : Bytes) :
    ∃ k sym, s.mixKey origin ikm = ⟨[.derived origin k], .ok sym⟩ ∧ sym.cs = ⟨k, true, 0⟩ :=
  ⟨_, _, s.mixKey_eq origin ikm, rfl⟩

/-- What is sealed under a new key. -/
theorem Symmetric.encryptAndHash_cases (prim : Primitives) {s : Symmetric} {k : Block}
    (hs : s.cs = ⟨k, true, 0⟩) (pt : Bytes) : ∃ x sym ct, s.encryptAndHash prim pt = ⟨[.sealed x], .ok (sym, ct)⟩ ∧
      x.key = k ∧ x.nonce = nonce 0 ∧ x.rekey = false := by
  have hk : s.cs.hasK = true := by rw [hs]
  have hn : s.cs.n ≠ maxNonce := by
    rw [hs]
    exact zero_ne_maxNonce
  exact ⟨_, _, _, Symmetric.encryptAndHash_eq hk hn pt, by simp [hs], by simp [hs], rfl⟩

theorem Cipher.log_decrypt (prim : Primitives) (c : Cipher) (ad ct : Bytes) :
    (c.decrypt prim ad ct).log = [] := by
  unfold Cipher.decrypt
  split
  · rfl
  · split
    · rfl
    · split <;> rfl

/-- What a cipher with a key opens. -/
theorem Cipher.decrypt_cases (prim : Primitives) {c : Cipher} (hk : c.hasK = true) (ad ct : Bytes) :
    (∃ e, c.decrypt prim ad ct = ⟨[], .error e⟩) ∨
      c.n ≠ maxNonce ∧ ∃ pt, prim.aeadOpen c.k (nonce c.n) ct ad = some pt ∧
        c.decrypt prim ad ct = ⟨[], .ok ({ c with n := c.n + 1 }, pt)⟩ := by
  unfold Cipher.decrypt
  rw [if_neg (by simp [hk])]
  by_cases hn : c.n = maxNonce
  · rw [if_pos hn]
    exact .inl ⟨_, rfl⟩
  · rw [if_neg hn]
    cases hopen : prim.aeadOpen c.k (nonce c.n) ct ad with
    | some pt => exact .inr ⟨hn, pt, rfl, rfl⟩
    | none => exact .inl ⟨_, rfl⟩

theorem Symmetric.log_decryptAndHash (prim : Primitives) (s : Symmetric) (ct : Bytes) :
    (s.decryptAndHash prim ct).log = [] := by
  unfold Symmetric.decryptAndHash
  have hlog := Cipher.log_decrypt prim s.cs s.h.toList ct
  rcases Logged.log_bind_cases (s.cs.decrypt prim s.h.toList ct)
    (fun r => (pure ({ s with cs := r.1 }.mixHash ct, r.2) : Step (Symmetric × Bytes))) with
    ⟨_, _, h, _⟩ | ⟨_, _, h, _⟩
  · exact h.trans hlog
  · rw [hlog] at h
    simpa using h

/-! ## Logs -/

def Entry.pair : Entry → Option (Block × Bytes)
  | .sealed x => some (x.key, x.nonce)
  | .derived .. => none

/-- The key and the nonce of each encryption. -/
def pairs (log : List Entry) : List (Block × Bytes) := log.filterMap Entry.pair

@[simp] theorem pairs_nil : pairs [] = [] := rfl

@[simp] theorem pairs_sealed (x : Sealed) (log : List Entry) :
    pairs (.sealed x :: log) = (x.key, x.nonce) :: pairs log := rfl

@[simp] theorem pairs_derived (o : Origin) (k : Block) (log : List Entry) :
    pairs (.derived o k :: log) = pairs log := rfl

@[simp] theorem pairs_append (log log' : List Entry) :
    pairs (log ++ log') = pairs log ++ pairs log' :=
  List.filterMap_append

theorem mem_pairs {log : List Entry} {k : Block} {n : Bytes} :
    (k, n) ∈ pairs log ↔ ∃ x, Entry.sealed x ∈ log ∧ x.key = k ∧ x.nonce = n := by
  constructor
  · intro h
    obtain ⟨entry, hentry, hpair⟩ := List.mem_filterMap.1 h
    cases entry with
    | sealed x =>
        obtain ⟨rfl, rfl⟩ := Prod.mk.inj (Option.some.inj hpair)
        exact ⟨x, hentry, rfl, rfl⟩
    | derived o k => cases hpair
  · rintro ⟨x, hx, rfl, rfl⟩
    exact List.mem_filterMap.2 ⟨_, hx, rfl⟩

/-- Keys that different steps derived are different. -/
def Distinct (log : List Entry) : Prop :=
  ∀ o k o' k', Entry.derived o k ∈ log → Entry.derived o' k' ∈ log → o ≠ o' → k ≠ k'

theorem Distinct.of_sublist {log log' : List Entry} (h : Distinct log') (hsub : log ⊆ log') :
    Distinct log :=
  fun o k o' k' hk hk' => h o k o' k' (hsub hk) (hsub hk')

/-- The seal, if there is one, is the first under its key. -/
def FirstUnder (k : Block) (x : Option Sealed) : Prop :=
  ∀ y ∈ x, y.key = k ∧ y.nonce = nonce 0 ∧ y.rekey = false

/-- What a handshake step may log: one key and what is sealed under it, a second key and what is
sealed under that, as far as the step comes. -/
inductive HandshakeLog (p : UInt64) : List Entry → Prop where
  | nil : HandshakeLog p []
  | first (k : Block) (x : Option Sealed) (hx : FirstUnder k x) :
      HandshakeLog p (.derived (.mixKey p false) k :: x.toList.map .sealed)
  | second (k k' : Block) (x y : Option Sealed) (hx : FirstUnder k x) (hy : FirstUnder k' y) :
      HandshakeLog p (.derived (.mixKey p false) k :: (x.toList.map .sealed ++
        .derived (.mixKey p true) k' :: y.toList.map .sealed))

namespace HandshakeLog

variable {p : UInt64} {log : List Entry}

theorem origin (h : HandshakeLog p log) {o : Origin} {k : Block} (hk : Entry.derived o k ∈ log) :
    ∃ second, o = .mixKey p second := by
  cases h with
  | nil => cases hk
  | first k' x hx =>
      obtain ⟨rfl, _⟩ : o = .mixKey p false ∧ k = k' := by simpa using hk
      exact ⟨false, rfl⟩
  | second k' k'' x y hx hy =>
      have hk' : (o = .mixKey p false ∧ k = k') ∨ o = .mixKey p true ∧ k = k'' := by simpa using hk
      rcases hk' with ⟨rfl, _⟩ | ⟨rfl, _⟩
      · exact ⟨false, rfl⟩
      · exact ⟨true, rfl⟩

theorem first_seal (h : HandshakeLog p log) {x : Sealed} (hx : Entry.sealed x ∈ log) :
    x.rekey = false ∧ x.nonce = nonce 0 ∧ ∃ o, Entry.derived o x.key ∈ log := by
  cases h with
  | nil => cases hx
  | first k y hy =>
      have hmem : x ∈ y := by simpa using hx
      obtain ⟨hkey, hnonce, hrekey⟩ := hy x hmem
      exact ⟨hrekey, hnonce, .mixKey p false, by simp [hkey]⟩
  | second k k' y z hy hz =>
      have hmem : x ∈ y ∨ x ∈ z := by simpa using hx
      rcases hmem with hmem | hmem
      · obtain ⟨hkey, hnonce, hrekey⟩ := hy x hmem
        exact ⟨hrekey, hnonce, .mixKey p false, by simp [hkey]⟩
      · obtain ⟨hkey, hnonce, hrekey⟩ := hz x hmem
        refine ⟨hrekey, hnonce, .mixKey p true, ?_⟩
        simp [hkey]

theorem nodup_pairs (h : HandshakeLog p log) (hdistinct : Distinct log) : (pairs log).Nodup := by
  cases h with
  | nil => simp [pairs]
  | first k x hx => cases x <;> simp
  | second k k' x y hx hy =>
      have hne : k ≠ k' :=
        hdistinct (.mixKey p false) k (.mixKey p true) k' (by simp) (by simp) (by simp)
      cases x with
      | none => cases y <;> simp
      | some x =>
          cases y with
          | none => simp
          | some y =>
              have hkey : x.key = k := (hx x rfl).1
              have hkey' : y.key = k' := (hy y rfl).1
              simp [hkey, hkey', hne]

end HandshakeLog

/-! ## Handshake steps -/

/-- A handshake step on a value at some position: what it logs, and the value it returns. -/
structure HandshakeStep (hs : Handshake) (x : Step (Handshake × Bytes)) : Prop where
  log : HandshakeLog hs.step x.log
  next : ∀ r, x.result = .ok r → r.1.guard = hs.guard ∧ r.1.step = hs.step + 1

theorem noiseDH_cases (prim : Primitives) (sk pk : Bytes) :
    (∃ dh, noiseDH prim sk pk = ⟨[], .ok dh⟩) ∨ ∃ e, noiseDH prim sk pk = ⟨[], .error e⟩ := by
  unfold noiseDH
  cases prim.kxShared sk pk with
  | some dh => exact .inl ⟨dh, rfl⟩
  | none => exact .inr ⟨_, rfl⟩

/-- A payload that is written under a new key. -/
theorem writePayload_cases (prim : Primitives) (hs : Handshake) {sym : Symmetric} {k : Block}
    (hsym : sym.cs = ⟨k, true, 0⟩) (out payload : Bytes) :
    ∃ x, (x.key = k ∧ x.nonce = nonce 0 ∧ x.rekey = false) ∧
      (hs.writePayload prim sym out payload).log = [.sealed x] ∧
      ∀ r, (hs.writePayload prim sym out payload).result = .ok r →
        r.1.guard = hs.guard ∧ r.1.step = hs.step + 1 := by
  obtain ⟨x, sym', ct, heq, hx⟩ := Symmetric.encryptAndHash_cases prim hsym payload
  refine ⟨x, hx, ?_⟩
  rw [Handshake.writePayload, heq, Logged.mk_ok_bind]
  dsimp only
  split
  · refine ⟨rfl, ?_⟩
    intro r hr
    cases hr
  · refine ⟨rfl, ?_⟩
    intro r hr
    obtain rfl := Except.ok.inj hr
    exact ⟨rfl, rfl⟩

theorem firstUnder_none (k : Block) : FirstUnder k none := by
  rintro y ⟨⟩

theorem firstUnder_some {k : Block} {x : Sealed}
    (h : x.key = k ∧ x.nonce = nonce 0 ∧ x.rekey = false) : FirstUnder k (some x) := by
  rintro y ⟨⟩
  exact h

theorem writeFirst_step (hs : Handshake) (payload : Bytes) :
    HandshakeStep hs (hs.writeFirst prim payload) := by
  unfold Handshake.writeFirst
  rcases noiseDH_cases prim hs.e hs.rs with ⟨dh, hdh⟩ | ⟨e, hdh⟩
  · obtain ⟨k, sym, hmix, hsym⟩ := (hs.sym.mixHash hs.ePub).mixKey_cases (.mixKey hs.step false) dh
    obtain ⟨x, sym', ct, hseal, hx⟩ := Symmetric.encryptAndHash_cases prim hsym hs.sPub
    rw [hdh, Logged.mk_ok_bind, hmix, Logged.mk_ok_bind, hseal, Logged.mk_ok_bind]
    dsimp only
    rcases noiseDH_cases prim hs.s hs.rs with ⟨dh', hdh'⟩ | ⟨e, hdh'⟩
    · obtain ⟨k', sym'', hmix', hsym'⟩ := sym'.mixKey_cases (.mixKey hs.step true) dh'
      obtain ⟨y, hy, hlog, hnext⟩ :=
        writePayload_cases prim hs hsym' (hs.ePub ++ ct) payload
      rw [hdh', Logged.mk_ok_bind, hmix', Logged.mk_ok_bind]
      refine ⟨?_, hnext⟩
      simp only [hlog, List.nil_append]
      exact .second k k' (some x) (some y) (firstUnder_some hx) (firstUnder_some hy)
    · rw [hdh', Logged.mk_error_bind]
      exact ⟨.first k (some x) (firstUnder_some hx), fun r hr => by cases hr⟩
  · rw [hdh, Logged.mk_error_bind]
    exact ⟨.nil, fun r hr => by cases hr⟩

theorem writeSecond_step (hs : Handshake) (payload : Bytes) :
    HandshakeStep hs (hs.writeSecond prim payload) := by
  unfold Handshake.writeSecond
  rcases noiseDH_cases prim hs.e hs.re with ⟨dh, hdh⟩ | ⟨e, hdh⟩
  · obtain ⟨k, sym, hmix, _⟩ := (hs.sym.mixHash hs.ePub).mixKey_cases (.mixKey hs.step false) dh
    rw [hdh, Logged.mk_ok_bind, hmix, Logged.mk_ok_bind]
    rcases noiseDH_cases prim hs.e hs.rs with ⟨dh', hdh'⟩ | ⟨e, hdh'⟩
    · obtain ⟨k', sym', hmix', hsym'⟩ := sym.mixKey_cases (.mixKey hs.step true) dh'
      obtain ⟨y, hy, hlog, hnext⟩ := writePayload_cases prim hs hsym' hs.ePub payload
      rw [hdh', Logged.mk_ok_bind, hmix', Logged.mk_ok_bind]
      refine ⟨?_, hnext⟩
      simp only [hlog, List.nil_append]
      exact .second k k' none (some y) (firstUnder_none k) (firstUnder_some hy)
    · rw [hdh', Logged.mk_error_bind]
      exact ⟨.first k none (firstUnder_none k), fun r hr => by cases hr⟩
  · rw [hdh, Logged.mk_error_bind]
    exact ⟨.nil, fun r hr => by cases hr⟩

theorem readPayload_cases (prim : Primitives) (hs : Handshake) (sym : Symmetric)
    (re rs msg : Bytes) :
    (hs.readPayload prim sym re rs msg).log = [] ∧
      ∀ r, (hs.readPayload prim sym re rs msg).result = .ok r →
        r.1.guard = hs.guard ∧ r.1.step = hs.step + 1 := by
  unfold Handshake.readPayload
  have hlog := Symmetric.log_decryptAndHash prim sym msg
  refine ⟨?_, ?_⟩
  · rcases Logged.log_bind_cases (sym.decryptAndHash prim msg) _ with ⟨_, _, h, _⟩ | ⟨_, _, h, _⟩
    · exact h.trans hlog
    · rw [h, hlog]
      rfl
  · intro r hr
    obtain ⟨a, _, hr⟩ := Logged.bind_ok hr
    obtain rfl := Except.ok.inj hr
    exact ⟨rfl, rfl⟩

theorem readSecond_step (hs : Handshake) (msg : Bytes) :
    HandshakeStep hs (hs.readSecond prim msg) := by
  unfold Handshake.readSecond
  split
  · exact ⟨.nil, fun r hr => by cases hr⟩
  · dsimp only
    rcases noiseDH_cases prim hs.e (msg.take 32) with ⟨dh, hdh⟩ | ⟨e, hdh⟩
    · obtain ⟨k, sym, hmix, _⟩ :=
        (hs.sym.mixHash (msg.take 32)).mixKey_cases (.mixKey hs.step false) dh
      rw [hdh, Logged.mk_ok_bind, hmix, Logged.mk_ok_bind]
      rcases noiseDH_cases prim hs.s (msg.take 32) with ⟨dh', hdh'⟩ | ⟨e, hdh'⟩
      · obtain ⟨k', sym', hmix', _⟩ := sym.mixKey_cases (.mixKey hs.step true) dh'
        obtain ⟨hlog, hnext⟩ :=
          readPayload_cases prim hs sym' (msg.take 32) hs.rs (msg.drop 32)
        rw [hdh', Logged.mk_ok_bind, hmix', Logged.mk_ok_bind]
        refine ⟨?_, hnext⟩
        simp only [hlog, List.nil_append]
        exact .second k k' none none (firstUnder_none k) (firstUnder_none k')
      · rw [hdh', Logged.mk_error_bind]
        exact ⟨.first k none (firstUnder_none k), fun r hr => by cases hr⟩
    · rw [hdh, Logged.mk_error_bind]
      exact ⟨.nil, fun r hr => by cases hr⟩

theorem readFirst_step (hs : Handshake) (msg : Bytes) :
    HandshakeStep hs (hs.readFirst prim msg) := by
  unfold Handshake.readFirst
  split
  · exact ⟨.nil, fun r hr => by cases hr⟩
  · dsimp only
    rcases noiseDH_cases prim hs.s (msg.take 32) with ⟨dh, hdh⟩ | ⟨e, hdh⟩
    · obtain ⟨k, sym, hmix, _⟩ :=
        (hs.sym.mixHash (msg.take 32)).mixKey_cases (.mixKey hs.step false) dh
      rw [hdh, Logged.mk_ok_bind, hmix, Logged.mk_ok_bind]
      have hlog := Symmetric.log_decryptAndHash prim sym
        ((msg.drop 32).take (32 + tagLen))
      generalize sym.decryptAndHash prim ((msg.drop 32).take (32 + tagLen)) = d at hlog
      obtain ⟨log, result⟩ := d
      obtain rfl : log = [] := hlog
      cases result with
      | error e =>
          rw [Logged.mk_error_bind]
          exact ⟨.first k none (firstUnder_none k), fun r hr => by cases hr⟩
      | ok a =>
          obtain ⟨sym', rs⟩ := a
          rw [Logged.mk_ok_bind]
          dsimp only
          rcases noiseDH_cases prim hs.s rs with ⟨dh', hdh'⟩ | ⟨e, hdh'⟩
          · obtain ⟨k', sym'', hmix', _⟩ := sym'.mixKey_cases (.mixKey hs.step true) dh'
            obtain ⟨hlog, hnext⟩ := readPayload_cases prim hs sym'' (msg.take 32) rs
              (msg.drop (32 + 32 + tagLen))
            rw [hdh', Logged.mk_ok_bind, hmix', Logged.mk_ok_bind]
            refine ⟨?_, hnext⟩
            simp only [hlog, List.nil_append]
            exact .second k k' none none (firstUnder_none k) (firstUnder_none k')
          · rw [hdh', Logged.mk_error_bind]
            exact ⟨.first k none (firstUnder_none k), fun r hr => by cases hr⟩
    · rw [hdh, Logged.mk_error_bind]
      exact ⟨.nil, fun r hr => by cases hr⟩

/-! ## Calls -/

theorem Attempt.result_map {α β : Type} (f : α → β) (a : Attempt α) (next : GuardId) :
    ((a.map f).body next).result = (a.body next).result.map f := by
  unfold Attempt.map
  dsimp only
  rcases Logged.log_bind_cases (a.body next) (fun x => pure (f x)) with
    ⟨e, hx, _, h⟩ | ⟨x, hx, _, h⟩
  · rw [h, hx]
    rfl
  · rw [h, hx]
    rfl

theorem Attempt.log_map {α β : Type} (f : α → β) (a : Attempt α) (next : GuardId) :
    ((a.map f).body next).log = (a.body next).log := by
  unfold Attempt.map
  dsimp only
  rcases Logged.log_bind_cases (a.body next) (fun x => pure (f x)) with
    ⟨e, _, h, _⟩ | ⟨x, _, h, _⟩
  · exact h
  · rw [h]
    simp

/-- What a handshake call does: it is not its turn, or it makes a step of the handshake. -/
inductive HandshakeDone (hs : Handshake) : List Entry → Except Failure Value → Prop where
  | turn (message : String) : HandshakeDone hs [] (.error (.release message))
  | failed (log : List Entry) (message : String) (hlog : HandshakeLog hs.step log) :
      HandshakeDone hs log (.error (.poison message))
  | next (log : List Entry) (hs' : Handshake) (hlog : HandshakeLog hs.step log)
      (hguard : hs'.guard = hs.guard) (hstep : hs'.step = hs.step + 1) :
      HandshakeDone hs log (.ok (.handshake hs'))

theorem HandshakeDone.of_step {hs : Handshake} {x : Step (Handshake × Bytes)}
    (h : HandshakeStep hs x) :
    HandshakeDone hs (x.mapError Failure.poison).log
      ((x.mapError Failure.poison).result.map fun r => Value.handshake r.1) := by
  cases hx : x.result with
  | ok r =>
      obtain ⟨hguard, hstep⟩ := h.next r hx
      rw [Logged.result_mapError_of_ok hx]
      exact .next x.log r.1 h.log hguard hstep
  | error e =>
      have hmap : (x.mapError Failure.poison).result = .error (.poison e) := by
        simp [Logged.mapError, hx, Except.mapError]
      rw [hmap]
      exact .failed x.log e h.log

theorem writeMessage_done (hs : Handshake) (payload : Bytes) (next : GuardId) :
    HandshakeDone hs (((Call.writeMessage hs payload).attempt prim).body next).log
      (((Call.writeMessage hs payload).attempt prim).body next).result := by
  unfold Call.attempt
  dsimp only
  rw [Attempt.result_map, Attempt.log_map]
  unfold Handshake.writeMessage
  dsimp only
  split
  · exact .of_step (writeFirst_step hs payload)
  · split
    · exact .of_step (writeSecond_step hs payload)
    · exact .turn _

theorem readMessage_done (hs : Handshake) (msg : Bytes) (next : GuardId) :
    HandshakeDone hs (((Call.readMessage hs msg).attempt prim).body next).log
      (((Call.readMessage hs msg).attempt prim).body next).result := by
  unfold Call.attempt
  dsimp only
  rw [Attempt.result_map, Attempt.log_map]
  unfold Handshake.readMessage
  dsimp only
  split
  · exact .failed [] _ .nil
  · split
    · exact .of_step (readFirst_step hs msg)
    · split
      · exact .of_step (readSecond_step hs msg)
      · exact .turn _

/-! ## The directions of a transport -/

namespace Transport

/-- The cipher of a direction, its guard and its position. -/
def cipher (t : Transport) (send : Bool) : Cipher := if send then t.send else t.recv

def grd (t : Transport) (send : Bool) : GuardId := if send then t.sendGrd else t.recvGrd

def at_ (t : Transport) (send : Bool) : UInt64 := if send then t.sendAt else t.recvAt

/-- One direction goes on. -/
def advance (t : Transport) (send : Bool) (c : Cipher) : Transport :=
  if send then { t with send := c, sendAt := t.sendAt + 1 }
  else { t with recv := c, recvAt := t.recvAt + 1 }

variable {t : Transport} {send other : Bool} {c : Cipher}

@[simp] theorem grd_advance : (t.advance send c).grd other = t.grd other := by
  cases send <;> cases other <;> rfl

@[simp] theorem cipher_advance : (t.advance send c).cipher send = c := by
  cases send <;> rfl

@[simp] theorem at_advance : (t.advance send c).at_ send = t.at_ send + 1 := by
  cases send <;> rfl

theorem cipher_advance_of_ne (h : other ≠ send) : (t.advance send c).cipher other = t.cipher other := by
  cases send <;> cases other <;> first | rfl | exact absurd rfl h

theorem at_advance_of_ne (h : other ≠ send) : (t.advance send c).at_ other = t.at_ other := by
  cases send <;> cases other <;> first | rfl | exact absurd rfl h

end Transport

/-- What a cipher does: it seals or opens with its next nonce, or changes its key. -/
inductive CipherStep (c : Cipher) : List Entry → Cipher → Prop where
  | sealed (x : Sealed) (hx : x.key = c.k ∧ x.nonce = nonce c.n ∧ x.rekey = false)
      (hn : c.n ≠ maxNonce) : CipherStep c [.sealed x] { c with n := c.n + 1 }
  | opened (hn : c.n ≠ maxNonce) : CipherStep c [] { c with n := c.n + 1 }
  | rekeyed (x : Sealed) (k : Block)
      (hx : x.key = c.k ∧ x.nonce = nonce maxNonce ∧ x.rekey = true) :
      CipherStep c [.sealed x, .derived (.rekey c.k) k] { c with k := k }

/-- What a call on a direction of a transport does. -/
inductive TransportDone (t : Transport) (send : Bool) : List Entry → Except Failure Value → Prop where
  | failed (e : Failure) : TransportDone t send [] (.error e)
  | next (log : List Entry) (c : Cipher) (hstep : CipherStep (t.cipher send) log c) :
      TransportDone t send log (.ok (.transport (t.advance send c)))

theorem encrypt_body (prim : Primitives) {t : Transport} (hk : t.send.hasK = true)
    (hn : t.send.n ≠ maxNonce) (pt : Bytes) (next : GuardId) :
    (((Call.encrypt t pt).attempt prim).body next).log =
        [.sealed ⟨t.send.k, nonce t.send.n, pt, [], false⟩] ∧
      (((Call.encrypt t pt).attempt prim).body next).result =
        .ok (.transport (t.advance true { t.send with n := t.send.n + 1 })) := by
  unfold Call.attempt
  dsimp only
  rw [Attempt.result_map, Attempt.log_map]
  unfold Transport.encrypt
  dsimp only
  rw [Cipher.encrypt_eq hk hn]
  exact ⟨rfl, rfl⟩

theorem encrypt_done {t : Transport} (hk : t.send.hasK = true) (pt : Bytes) (next : GuardId) :
    TransportDone t true (((Call.encrypt t pt).attempt prim).body next).log
      (((Call.encrypt t pt).attempt prim).body next).result := by
  by_cases hn : t.send.n = maxNonce
  · unfold Call.attempt
    dsimp only
    rw [Attempt.result_map, Attempt.log_map]
    unfold Transport.encrypt
    dsimp only
    rw [Cipher.encrypt_exhausted hk hn]
    exact .failed _
  · obtain ⟨hlog, hresult⟩ := encrypt_body prim hk hn pt next
    rw [hlog, hresult]
    exact .next _ _ (.sealed _ ⟨rfl, rfl, rfl⟩ hn)

theorem decrypt_done {t : Transport} (hk : t.recv.hasK = true) (ct : Bytes) (next : GuardId) :
    TransportDone t false (((Call.decrypt t ct).attempt prim).body next).log
      (((Call.decrypt t ct).attempt prim).body next).result := by
  unfold Call.attempt
  dsimp only
  rw [Attempt.result_map, Attempt.log_map]
  unfold Transport.decrypt
  dsimp only
  rcases Cipher.decrypt_cases prim hk [] ct with ⟨e, heq⟩ | ⟨hn, pt, _, heq⟩
  · rw [heq]
    exact .failed _
  · rw [heq]
    exact .next [] { t.recv with n := t.recv.n + 1 } (.opened hn)

theorem rekeySend_done (t : Transport) (next : GuardId) :
    TransportDone t true (((Call.rekeySend t).attempt prim).body next).log
      (((Call.rekeySend t).attempt prim).body next).result := by
  unfold Call.attempt
  dsimp only
  rw [Attempt.result_map, Attempt.log_map]
  exact .next _ _ (.rekeyed _ _ ⟨rfl, rfl, rfl⟩)

theorem rekeyReceive_done (t : Transport) (next : GuardId) :
    TransportDone t false (((Call.rekeyReceive t).attempt prim).body next).log
      (((Call.rekeyReceive t).attempt prim).body next).result := by
  unfold Call.attempt
  dsimp only
  rw [Attempt.result_map, Attempt.log_map]
  exact .next _ _ (.rekeyed _ _ ⟨rfl, rfl, rfl⟩)

/-! ## Primitives for runs on fixed inputs -/

def toyHash (b : Bytes) : Block :=
  let digest := b.foldl (fun a x => (a * 257 + x.toNat + 1) % (2 ^ 61 - 1)) 7
  copyOf ((List.range 8).map fun i => UInt8.ofNat (digest / 256 ^ i))

def toyTag (k : Block) (nonce pt ad : Bytes) : Bytes :=
  (toyHash (k.toList ++ nonce ++ ad ++ pt)).toList.take 16

def toy : Primitives where
  kxPublic sk := (copyOf sk).toList
  kxShared sk pk := some (List.zipWith (· + ·) (copyOf sk).toList (copyOf pk).toList)
  aeadSeal k nonce pt ad := pt ++ toyTag k nonce pt ad
  aeadOpen k nonce ct ad :=
    let pt := ct.take (ct.length - 16)
    if ct.drop (ct.length - 16) = toyTag k nonce pt ad then some pt else none

def toySuite : Suite := ⟨"Noise_IK_toy", toyHash⟩

end Sky.Noise
