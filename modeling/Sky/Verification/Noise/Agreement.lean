import Sky.Model.NoiseSession
import Sky.Verification.Noise.Bodies

/-! # The two ends agree

Where one end seals, the other opens from the same symmetric state, and gets to the same one. -/

namespace Sky.Noise

open Library

/-- What the handshake needs of its primitives. -/
structure Primitives.Lawful (prim : Primitives) : Prop where
  length_kxPublic : ∀ sk : Bytes, sk.length = 32 → (prim.kxPublic sk).length = 32
  kxShared_comm : ∀ a b : Bytes, a.length = 32 → b.length = 32 →
    prim.kxShared a (prim.kxPublic b) = prim.kxShared b (prim.kxPublic a)
  kxShared_isSome : ∀ a b : Bytes, a.length = 32 → b.length = 32 →
    (prim.kxShared a (prim.kxPublic b)).isSome = true
  length_aeadSeal : ∀ k n pt ad, (prim.aeadSeal k n pt ad).length = pt.length + tagLen
  aeadOpen_aeadSeal : ∀ k n pt ad, prim.aeadOpen k n (prim.aeadSeal k n pt ad) ad = some pt

variable {prim : Primitives}

/-! ## Shared secrets and sealed parts -/

theorem noiseDH_agrees (h : prim.Lawful) {a b : Bytes} (ha : a.length = 32) (hb : b.length = 32) :
    ∃ dh, noiseDH prim a (prim.kxPublic b) = ⟨[], .ok dh⟩ ∧
      noiseDH prim b (prim.kxPublic a) = ⟨[], .ok dh⟩ := by
  obtain ⟨dh, hdh⟩ := Option.isSome_iff_exists.1 (h.kxShared_isSome a b ha hb)
  have hdh' : prim.kxShared b (prim.kxPublic a) = some dh := (h.kxShared_comm a b ha hb).symm.trans hdh
  refine ⟨dh, ?_, ?_⟩
  · rw [noiseDH, hdh]
    rfl
  · rw [noiseDH, hdh']
    rfl

theorem Cipher.decrypt_seal (h : prim.Lawful) {c : Cipher} (hk : c.hasK = true)
    (hn : c.n ≠ maxNonce) (ad pt : Bytes) :
    c.decrypt prim ad (prim.aeadSeal c.k (nonce c.n) pt ad) =
      ⟨[], .ok ({ c with n := c.n + 1 }, pt)⟩ := by
  unfold Cipher.decrypt
  rw [if_neg (by simp [hk]), if_neg hn, h.aeadOpen_aeadSeal]
  rfl

theorem Symmetric.seal_agrees (h : prim.Lawful) {s : Symmetric} {k : Block}
    (hs : s.cs = ⟨k, true, 0⟩) (pt : Bytes) :
    ∃ log sym ct, s.encryptAndHash prim pt = ⟨log, .ok (sym, ct)⟩ ∧
      s.decryptAndHash prim ct = ⟨[], .ok (sym, pt)⟩ ∧ ct.length = pt.length + tagLen := by
  have hk : s.cs.hasK = true := by rw [hs]
  have hn : s.cs.n ≠ maxNonce := by
    rw [hs]
    exact zero_ne_maxNonce
  refine ⟨_, _, _, Symmetric.encryptAndHash_eq hk hn pt, ?_, h.length_aeadSeal _ _ _ _⟩
  rw [Symmetric.decryptAndHash, Cipher.decrypt_seal h hk hn]
  rfl

/-! ## Messages -/

/-- The payload comes out of the message that it ends. -/
theorem payload_agrees (h : prim.Lawful) (a b : Handshake) {sym : Symmetric} {k : Block}
    (hsym : sym.cs = ⟨k, true, 0⟩) (out payload re rs : Bytes)
    (hfit : out.length + payload.length + tagLen ≤ maxMsg) :
    ∃ sym' ct,
      (a.writePayload prim sym out payload).result =
        .ok ({ a with sym := sym', step := a.step + 1 }, out ++ ct) ∧
      (b.readPayload prim sym re rs ct).result =
        .ok ({ b with sym := sym', re := re, rs := rs, step := b.step + 1 }, payload) ∧
      ct.length = payload.length + tagLen := by
  obtain ⟨log, sym', ct, hseal, hopen, hlen⟩ := Symmetric.seal_agrees h hsym payload
  have hle : ¬maxMsg < (out ++ ct).length := by
    rw [List.length_append, hlen]
    omega
  refine ⟨sym', ct, ?_, ?_, hlen⟩
  · rw [Handshake.writePayload, hseal, Logged.mk_ok_bind]
    simp only [if_neg hle]
    rfl
  · rw [Handshake.readPayload, hopen]
    rfl

/-- A message that would be too long is not written. -/
theorem payload_refused (h : prim.Lawful) (a : Handshake) {sym : Symmetric} {k : Block}
    (hsym : sym.cs = ⟨k, true, 0⟩) {out payload : Bytes}
    (hlong : maxMsg < out.length + payload.length + tagLen) :
    (a.writePayload prim sym out payload).result =
      .error "the handshake message is longer than 65535 bytes" := by
  obtain ⟨log, sym', ct, hseal, _, hlen⟩ := Symmetric.seal_agrees h hsym payload
  have hlt : maxMsg < (out ++ ct).length := by
    rw [List.length_append, hlen]
    omega
  rw [Handshake.writePayload, hseal, Logged.mk_ok_bind]
  simp only [if_pos hlt]
  rfl

/-- An end's own keys. -/
structure Handshake.Keyed (prim : Primitives) (hs : Handshake) : Prop where
  s : hs.s.length = 32
  e : hs.e.length = 32
  sPub : hs.sPub = prim.kxPublic hs.s
  ePub : hs.ePub = prim.kxPublic hs.e

/-- The ends are at the same point of the handshake. -/
structure Mirror (a b : Handshake) : Prop where
  initiator : a.initiator = true
  responder : b.initiator = false
  sym : a.sym = b.sym
  step : a.step = b.step

/-- `-> e, es, s, ss`. -/
theorem first_agrees (h : prim.Lawful) {a b : Handshake} (ha : a.Keyed prim) (hb : b.Keyed prim)
    (hm : Mirror a b) (hrs : a.rs = b.sPub) {payload : Bytes}
    (hfit : 96 + payload.length ≤ maxMsg) :
    ∃ sym msg,
      (a.writeFirst prim payload).result =
        .ok ({ a with sym := sym, step := a.step + 1 }, msg) ∧
      (b.readFirst prim msg).result = .ok ({ b with
        sym := sym, re := a.ePub, rs := a.sPub, step := b.step + 1 }, payload) ∧
      msg.length ≤ maxMsg := by
  have hePub : a.ePub.length = 32 := by rw [ha.ePub, h.length_kxPublic _ ha.e]
  have hsPub : a.sPub.length = 32 := by rw [ha.sPub, h.length_kxPublic _ ha.s]
  obtain ⟨dh, hes, hes'⟩ := noiseDH_agrees h ha.e hb.s
  obtain ⟨dh', hss, hss'⟩ := noiseDH_agrees h ha.s hb.s
  rw [← hb.sPub, ← hrs] at hes hss
  rw [← ha.ePub] at hes'
  rw [← ha.sPub] at hss'
  obtain ⟨k, sym, hmix, hk⟩ := (a.sym.mixHash a.ePub).mixKey_cases (.mixKey a.step false) dh
  obtain ⟨log, sym', ct, hseal, hopen, hct⟩ := Symmetric.seal_agrees h hk a.sPub
  obtain ⟨k', sym'', hmix', hk'⟩ := sym'.mixKey_cases (.mixKey a.step true) dh'
  have hfit' : (a.ePub ++ ct).length + payload.length + tagLen ≤ maxMsg := by
    rw [List.length_append, hct, hePub, hsPub]
    simp only [tagLen]
    omega
  obtain ⟨last, ct', hwrite, hread, hct'⟩ :=
    payload_agrees h a b hk' (a.ePub ++ ct) payload a.ePub a.sPub hfit'
  have hlen : (a.ePub ++ ct ++ ct').length = 96 + payload.length := by
    simp only [List.length_append, hct, hct', hePub, hsPub, tagLen]
    omega
  have htake : (a.ePub ++ ct ++ ct').take 32 = a.ePub := by simp [hePub]
  have hmiddle : ((a.ePub ++ ct ++ ct').drop 32).take (32 + tagLen) = ct := by
    rw [List.append_assoc, List.drop_left' hePub, List.take_left' (hct.trans (by rw [hsPub]))]
  have hdrop : (a.ePub ++ ct ++ ct').drop (32 + 32 + tagLen) = ct' :=
    List.drop_left' (by rw [List.length_append, hct, hePub, hsPub]; rfl)
  refine ⟨last, a.ePub ++ ct ++ ct', ?_, ?_, hlen.trans_le hfit⟩
  · rw [Handshake.writeFirst, hes, Logged.mk_ok_bind, hmix, Logged.mk_ok_bind, hseal,
      Logged.mk_ok_bind]
    dsimp only
    rw [hss, Logged.mk_ok_bind, hmix', Logged.mk_ok_bind]
    exact hwrite
  · rw [Handshake.readFirst, if_neg (by rw [hlen]; simp only [tagLen]; omega)]
    dsimp only
    rw [htake, hmiddle, hdrop, hes', Logged.mk_ok_bind, ← hm.sym, ← hm.step, hmix, Logged.mk_ok_bind,
      hopen, Logged.mk_ok_bind]
    dsimp only
    rw [hss', Logged.mk_ok_bind, hmix', Logged.mk_ok_bind]
    rw [hm.step]
    exact hread

theorem first_refused (h : prim.Lawful) {a : Handshake} (ha : a.Keyed prim) {sr : Bytes}
    (hsr : sr.length = 32) (hrs : a.rs = prim.kxPublic sr) {payload : Bytes}
    (hlong : maxMsg < 96 + payload.length) :
    (a.writeFirst prim payload).result =
      .error "the handshake message is longer than 65535 bytes" := by
  have hePub : a.ePub.length = 32 := by rw [ha.ePub, h.length_kxPublic _ ha.e]
  have hsPub : a.sPub.length = 32 := by rw [ha.sPub, h.length_kxPublic _ ha.s]
  obtain ⟨dh, hes, _⟩ := noiseDH_agrees h ha.e hsr
  obtain ⟨dh', hss, _⟩ := noiseDH_agrees h ha.s hsr
  obtain ⟨k, sym, hmix, hk⟩ := (a.sym.mixHash a.ePub).mixKey_cases (.mixKey a.step false) dh
  obtain ⟨log, sym', ct, hseal, _, hct⟩ := Symmetric.seal_agrees h hk a.sPub
  obtain ⟨k', sym'', hmix', hk'⟩ := sym'.mixKey_cases (.mixKey a.step true) dh'
  rw [Handshake.writeFirst, hrs, hes, Logged.mk_ok_bind, hmix, Logged.mk_ok_bind, hseal,
    Logged.mk_ok_bind]
  dsimp only
  rw [hss, Logged.mk_ok_bind, hmix', Logged.mk_ok_bind]
  refine payload_refused h a hk' ?_
  rw [List.length_append, hct, hePub, hsPub]
  simp only [tagLen]
  omega

/-- `<- e, ee, se`. -/
theorem second_agrees (h : prim.Lawful) {a b : Handshake} (ha : a.Keyed prim) (hb : b.Keyed prim)
    (hm : Mirror a b) (hre : b.re = a.ePub) (hrs : b.rs = a.sPub) {payload : Bytes}
    (hfit : 48 + payload.length ≤ maxMsg) :
    ∃ sym msg,
      (b.writeSecond prim payload).result =
        .ok ({ b with sym := sym, step := b.step + 1 }, msg) ∧
      (a.readSecond prim msg).result = .ok ({ a with
        sym := sym, re := b.ePub, step := a.step + 1 }, payload) ∧
      msg.length ≤ maxMsg := by
  have hePub : b.ePub.length = 32 := by rw [hb.ePub, h.length_kxPublic _ hb.e]
  obtain ⟨dh, hee, hee'⟩ := noiseDH_agrees h hb.e ha.e
  obtain ⟨dh', hse, hse'⟩ := noiseDH_agrees h hb.e ha.s
  rw [← ha.ePub, ← hre] at hee
  rw [← ha.sPub, ← hrs] at hse
  rw [← hb.ePub] at hee' hse'
  obtain ⟨k, sym, hmix, _⟩ := (b.sym.mixHash b.ePub).mixKey_cases (.mixKey b.step false) dh
  obtain ⟨k', sym', hmix', hk'⟩ := sym.mixKey_cases (.mixKey b.step true) dh'
  have hfit' : b.ePub.length + payload.length + tagLen ≤ maxMsg := by
    rw [hePub]
    simp only [tagLen]
    omega
  obtain ⟨last, ct, hwrite, hread, hct⟩ := payload_agrees h b a hk' b.ePub payload b.ePub a.rs hfit'
  have hlen : (b.ePub ++ ct).length = 48 + payload.length := by
    simp only [List.length_append, hct, hePub, tagLen]
    omega
  have htake : (b.ePub ++ ct).take 32 = b.ePub := by simp [hePub]
  have hdrop : (b.ePub ++ ct).drop 32 = ct := List.drop_left' hePub
  refine ⟨last, b.ePub ++ ct, ?_, ?_, hlen.trans_le hfit⟩
  · rw [Handshake.writeSecond, hee, Logged.mk_ok_bind, hmix, Logged.mk_ok_bind, hse,
      Logged.mk_ok_bind, hmix', Logged.mk_ok_bind]
    exact hwrite
  · rw [Handshake.readSecond, if_neg (by rw [hlen]; simp only [tagLen]; omega)]
    dsimp only
    rw [htake, hdrop, hee', Logged.mk_ok_bind, hm.sym, hm.step, hmix, Logged.mk_ok_bind, hse',
      Logged.mk_ok_bind, hmix', Logged.mk_ok_bind, ← hm.step]
    exact hread

/-! ## Calls -/

theorem Attempt.exec_of_ok {α : Type} {a : Attempt α} {guards : List UInt64} {x : α}
    (hguard : guards[a.guard]? = some a.pos) (hbody : (a.body guards.length).result = .ok x)
    (hcheck : a.check = none) :
    a.exec guards =
      (.ok x, guards.set a.guard (a.pos + 1) ++ List.replicate a.allocates 0) := by
  unfold Attempt.exec
  rw [hcheck]
  simp only [if_pos hguard, List.length_set, hbody]
  rfl

/-- A call that claims the only guard there is. -/
theorem Attempt.exec_alone {α : Type} {a : Attempt α} {p : UInt64} {x : α}
    (hcheck : a.check = none) (hguard : a.guard = 0) (hpos : a.pos = p)
    (hbody : (a.body 1).result = .ok x) :
    a.exec [p] = (.ok x, (p + 1) :: List.replicate a.allocates 0) := by
  have hclaim : ([p] : List UInt64)[a.guard]? = some a.pos := by
    rw [hguard, hpos]
    rfl
  have hbody' : (a.body ([p] : List UInt64).length).result = .ok x := hbody
  rw [Attempt.exec_of_ok hclaim hbody' hcheck, hguard, hpos]
  rfl

theorem writeMessage_initiator {hs : Handshake} {payload : Bytes} {r : Handshake × Bytes}
    (hinit : hs.initiator = true) (hstep : hs.step = 0)
    (hok : (hs.writeFirst prim payload).result = .ok r) (next : GuardId) :
    ((hs.writeMessage prim payload).body next).result = .ok r := by
  simp only [Handshake.writeMessage, hinit, hstep, decide_true, Bool.and_true, if_true]
  exact Logged.result_mapError_of_ok hok

theorem writeMessage_responder {hs : Handshake} {payload : Bytes} {r : Handshake × Bytes}
    (hinit : hs.initiator = false) (hstep : hs.step = 1)
    (hok : (hs.writeSecond prim payload).result = .ok r) (next : GuardId) :
    ((hs.writeMessage prim payload).body next).result = .ok r := by
  simp only [Handshake.writeMessage, hinit, hstep, Bool.false_and, Bool.false_eq_true, if_false,
    Bool.not_false, decide_true, Bool.and_true, if_true]
  exact Logged.result_mapError_of_ok hok

theorem readMessage_responder {hs : Handshake} {msg : Bytes} {r : Handshake × Bytes}
    (hinit : hs.initiator = false) (hstep : hs.step = 0) (hlen : msg.length ≤ maxMsg)
    (hok : (hs.readFirst prim msg).result = .ok r) (next : GuardId) :
    ((hs.readMessage prim msg).body next).result = .ok r := by
  simp only [Handshake.readMessage, hinit, hstep, if_neg (Nat.not_lt.2 hlen), Bool.not_false,
    decide_true, Bool.and_true, if_true]
  exact Logged.result_mapError_of_ok hok

theorem readMessage_initiator {hs : Handshake} {msg : Bytes} {r : Handshake × Bytes}
    (hinit : hs.initiator = true) (hstep : hs.step = 1) (hlen : msg.length ≤ maxMsg)
    (hok : (hs.readSecond prim msg).result = .ok r) (next : GuardId) :
    ((hs.readMessage prim msg).body next).result = .ok r := by
  simp only [Handshake.readMessage, hinit, hstep, if_neg (Nat.not_lt.2 hlen), Bool.not_true,
    Bool.false_and, Bool.false_eq_true, if_false, decide_true, Bool.and_true, if_true]
  exact Logged.result_mapError_of_ok hok

/-! ## The handshake -/

/-- What the ends know after the handshake. -/
structure Agreed (prim : Primitives) (si sr payload payload' : Bytes) (ends : Ends) : Prop where
  /-- Each reads the payload that the other wrote. -/
  payloads : (ends false).payload = payload ∧ (ends true).payload = payload'
  /-- Each learns the other's static key. -/
  peers : (ends false).transport.peer = prim.kxPublic si ∧
    (ends true).transport.peer = prim.kxPublic sr
  hash : (ends true).transport.hash = (ends false).transport.hash
  ciphers : ∀ e, (ends e).transport.send = (ends !e).transport.recv

/-- The transport of a new session. -/
structure Peer.Fresh (p : Peer) : Prop where
  cipher : ∀ send, (p.transport.cipher send).hasK = true
  guard : ∀ send, p.guards[p.transport.grd send]? = some (p.transport.at_ send)
  apart : p.transport.grd true ≠ p.transport.grd false

theorem mirror_start (prim : Primitives) (suite : Suite) (si ei sr er prologue : Bytes) :
    Mirror (noiseNewSuite prim suite true si (prim.kxPublic sr) prologue ei 0)
      (noiseNewSuite prim suite false sr [] prologue er 0) :=
  ⟨rfl, rfl, rfl, rfl⟩

/-- The two messages, one after the other. -/
theorem messages_agree (h : prim.Lawful) {a b : Handshake} (ha : a.Keyed prim) (hb : b.Keyed prim)
    (hm : Mirror a b) (hrs : a.rs = b.sPub) (hstep : a.step = 0) (hguard : a.guard = 0)
    (hguard' : b.guard = 0) {payload payload' : Bytes} (hfit : 96 + payload.length ≤ maxMsg)
    (hfit' : 48 + payload'.length ≤ maxMsg) :
    ∃ a₁ b₁ a₂ b₂ msg msg',
      (a.writeMessage prim payload).exec [0] = (.ok (a₁, msg), [1]) ∧
      (b.readMessage prim msg).exec [0] = (.ok (b₁, payload), [1]) ∧
      (b₁.writeMessage prim payload').exec [1] = (.ok (b₂, msg'), [2]) ∧
      (a₁.readMessage prim msg').exec [1] = (.ok (a₂, payload'), [2]) ∧
      Mirror a₂ b₂ ∧ a₂.step = 2 ∧ (a₂.guard = 0 ∧ b₂.guard = 0) ∧
      a₂.rs = b.sPub ∧ b₂.rs = a.sPub := by
  have hstep' : b.step = 0 := hm.step.symm.trans hstep
  obtain ⟨sym, msg, hwrite, hread, hlen⟩ := first_agrees h ha hb hm hrs hfit
  have hm' : Mirror { a with sym := sym, step := a.step + 1 }
      { b with sym := sym, re := a.ePub, rs := a.sPub, step := b.step + 1 } :=
    ⟨hm.initiator, hm.responder, rfl, congrArg (· + 1) hm.step⟩
  obtain ⟨sym', msg', hwrite', hread', hlen'⟩ := second_agrees h
    (a := { a with sym := sym, step := a.step + 1 })
    (b := { b with sym := sym, re := a.ePub, rs := a.sPub, step := b.step + 1 })
    ⟨ha.s, ha.e, ha.sPub, ha.ePub⟩ ⟨hb.s, hb.e, hb.sPub, hb.ePub⟩ hm' rfl rfl hfit'
  have hfirst := Attempt.exec_alone (a := a.writeMessage prim payload) rfl hguard hstep
    (writeMessage_initiator hm.initiator hstep hwrite 1)
  have hfirst' := Attempt.exec_alone (a := b.readMessage prim msg) rfl hguard' hstep'
    (readMessage_responder hm.responder hstep' hlen hread 1)
  have hnext : a.step + 1 = 1 := by
    rw [hstep]
    rfl
  have hnext' : b.step + 1 = 1 := by
    rw [hstep']
    rfl
  have hsecond := Attempt.exec_alone (p := 1) rfl hguard' hnext'
    (writeMessage_responder hm'.responder hnext' hwrite' 1)
  have hsecond' := Attempt.exec_alone (p := 1) rfl hguard hnext
    (readMessage_initiator hm'.initiator hnext hlen' hread' 1)
  refine ⟨_, _, _, _, msg, msg', hfirst, hfirst', hsecond, hsecond', ?_, ?_, ⟨hguard, hguard'⟩, hrs,
    rfl⟩
  · exact ⟨hm.initiator, hm.responder, rfl, congrArg (· + 1 + 1) hm.step⟩
  · rw [show a.step + 1 + 1 = 1 + 1 from congrArg (· + 1) hnext]
    rfl

/-- The transport that a split gives, with its guards. -/
structure SplitExec (hs : Handshake) (t : Transport) : Prop where
  exec : hs.split.exec [2] = (.ok t, [3, 0, 0])
  hash : t.hash = hs.sym.h
  peer : t.peer = hs.rs
  cipher : ∀ send, t.cipher send = ⟨if hs.initiator = send
    then (hkdf2 hs.sym.suite hs.sym.ck.toList []).1
    else (hkdf2 hs.sym.suite hs.sym.ck.toList []).2, true, 0⟩
  at_ : ∀ send, t.at_ send = 0
  grd : t.grd true = 1 ∧ t.grd false = 2

theorem split_exec {hs : Handshake} (hstep : hs.step = 2) (hguard : hs.guard = 0) :
    ∃ t, SplitExec hs t := by
  have hcheck : hs.split.check = none := by simp [Handshake.split, hstep]
  refine ⟨_, Attempt.exec_alone hcheck hguard rfl rfl, rfl, rfl, ?_, ?_, rfl, rfl⟩
  · intro send
    cases send <;> cases hs.initiator <;> rfl
  · intro send
    cases send <;> rfl

theorem SplitExec.fresh {hs : Handshake} {t : Transport} (h : SplitExec hs t) (payload : Bytes) :
    (⟨t, [3, 0, 0], payload⟩ : Peer).Fresh where
  cipher send := by rw [h.cipher send]
  guard send := by
    rw [h.at_ send]
    cases send
    · simp only [h.grd.2]
      rfl
    · simp only [h.grd.1]
      rfl
  apart := by
    rw [h.grd.1, h.grd.2]
    decide

theorem establish_agrees (h : prim.Lawful) (suite : Suite) {si ei sr er : Bytes}
    (hsi : si.length = 32) (hei : ei.length = 32) (hsr : sr.length = 32) (her : er.length = 32)
    (prologue : Bytes) {payload payload' : Bytes} (hfit : 96 + payload.length ≤ maxMsg)
    (hfit' : 48 + payload'.length ≤ maxMsg) :
    ∃ ends, establish prim suite si ei sr er prologue payload payload' = .ok ends ∧
      Agreed prim si sr payload payload' ends ∧ ∀ e, (ends e).Fresh := by
  obtain ⟨a₁, b₁, a₂, b₂, msg, msg', hwrite, hread, hwrite', hread', hm, hstep, ⟨hga, hgb⟩,
    hpeerA, hpeerB⟩ := messages_agree h ⟨hsi, hei, rfl, rfl⟩ ⟨hsr, her, rfl, rfl⟩
      (mirror_start prim suite si ei sr er prologue) rfl rfl rfl rfl hfit hfit'
  obtain ⟨ta, hta⟩ := split_exec hstep hga
  obtain ⟨tb, htb⟩ := split_exec (hm.step.symm.trans hstep) hgb
  refine ⟨fun initiator => if initiator then ⟨ta, [3, 0, 0], payload'⟩ else ⟨tb, [3, 0, 0], payload⟩,
    ?_, ⟨⟨rfl, rfl⟩, ⟨?_, ?_⟩, ?_, ?_⟩, ?_⟩
  · unfold establish
    simp only [hwrite, hread, hwrite', hread', hta.exec, htb.exec, bind, Except.bind]
    rfl
  · exact htb.peer.trans hpeerB
  · exact hta.peer.trans hpeerA
  · exact hta.hash.trans ((congrArg Symmetric.h hm.sym).trans htb.hash.symm)
  · intro e
    have hagree : ∀ send, ta.cipher send = tb.cipher !send := by
      intro send
      rw [hta.cipher, htb.cipher, hm.sym, hm.initiator, hm.responder]
      cases send <;> rfl
    cases e
    · exact (hagree false).symm
    · exact hagree true
  · intro e
    cases e
    · exact htb.fresh payload
    · exact hta.fresh payload'

/-- A first payload that is too long ends the handshake. -/
theorem establish_refused (h : prim.Lawful) (suite : Suite) {si ei sr : Bytes}
    (hsi : si.length = 32) (hei : ei.length = 32) (hsr : sr.length = 32) (er prologue : Bytes)
    {payload : Bytes} (hlong : maxMsg < 96 + payload.length) (payload' : Bytes) :
    establish prim suite si ei sr er prologue payload payload' =
      .error "the handshake message is longer than 65535 bytes" := by
  have hbody := first_refused h (a := noiseNewSuite prim suite true si (prim.kxPublic sr) prologue ei 0)
    ⟨hsi, hei, rfl, rfl⟩ hsr rfl hlong
  have hexec : ((noiseNewSuite prim suite true si (prim.kxPublic sr) prologue ei 0).writeMessage prim
      payload).exec [0] =
        (.error "the handshake message is longer than 65535 bytes", [maxNonce]) := by
    change (Except.mapError Failure.message ((Logged.mapError Failure.poison _).result),
      Attempt.settle _ (Logged.mapError Failure.poison _).result _) = _
    simp only [Logged.mapError, hbody, Except.mapError]
    rfl
  unfold establish
  simp only [hexec, bind, Except.bind]

end Sky.Noise
