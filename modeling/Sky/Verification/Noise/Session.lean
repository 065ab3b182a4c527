import Sky.Library.Run
import Sky.Verification.Noise.Agreement

/-! # Sessions deliver

The receiving cipher of an end follows the other end's sending cipher through what is in flight
between them. -/

namespace Sky.Noise

open Library

/-! ## What is sent is read -/

section

variable {prim : Primitives}

/-! ## What a receiving cipher makes of a parcel -/

def Cipher.accept (prim : Primitives) (c : Cipher) : Parcel → Option (Cipher × Option Bytes)
  | .message ct =>
      if ct.length ≤ maxMsg then
        (c.decrypt prim [] ct).result.toOption.map fun r => (r.1, some r.2)
      else none
  | .rekey => (c.rekey prim).result.toOption.map fun c' => (c', none)

/-- A cipher after a rekey. -/
def Cipher.rekeyed (prim : Primitives) (c : Cipher) : Cipher :=
  { c with k := copyOf ((prim.aeadSeal c.k (nonce maxNonce) (List.replicate 32 0) []).take 32) }

@[simp] theorem Cipher.hasK_rekeyed (c : Cipher) : (c.rekeyed prim).hasK = c.hasK := by
  simp only [Cipher.rekeyed]

theorem Cipher.accept_rekey (c : Cipher) :
    c.accept prim .rekey = some (c.rekeyed prim, none) := rfl

theorem Cipher.accept_seal (h : prim.Lawful) {c : Cipher} (hk : c.hasK = true)
    (hn : c.n ≠ maxNonce) {pt : Bytes} (hlen : pt.length + tagLen ≤ maxMsg) :
    c.accept prim (.message (prim.aeadSeal c.k (nonce c.n) pt [])) =
      some ({ c with n := c.n + 1 }, some pt) := by
  have hle : (prim.aeadSeal c.k (nonce c.n) pt []).length ≤ maxMsg := by
    rw [h.length_aeadSeal]
    exact hlen
  simp [Cipher.accept, hle, Cipher.decrypt_seal h hk hn, Except.toOption]

theorem Cipher.of_accept_message {c c' : Cipher} {ct : Bytes} {out : Option Bytes}
    (h : c.accept prim (.message ct) = some (c', out)) :
    ct.length ≤ maxMsg ∧ ∃ pt, out = some pt ∧ (c.decrypt prim [] ct).result = .ok (c', pt) := by
  simp only [Cipher.accept] at h
  split at h
  · next hle =>
      refine ⟨hle, ?_⟩
      cases hresult : (c.decrypt prim [] ct).result with
      | error e =>
          rw [hresult] at h
          cases h
      | ok r =>
          rw [hresult] at h
          obtain ⟨rfl, rfl⟩ := Prod.mk.inj (Option.some.inj h)
          exact ⟨r.2, rfl, rfl⟩
  · cases h

/-! ## Calls on a transport -/

theorem Attempt.exec_stale {α : Type} {a : Attempt α} {guards : List UInt64}
    (hcheck : a.check = none) (hguard : guards[a.guard]? ≠ some a.pos) :
    a.exec guards = (.error stale, guards) := by
  unfold Attempt.exec
  rw [hcheck]
  simp only [if_neg hguard]

theorem Attempt.exec_checked {α : Type} {a : Attempt α} {message : String}
    (hcheck : a.check = some message) (guards : List UInt64) :
    a.exec guards = (.error message, guards) := by
  unfold Attempt.exec
  rw [hcheck]

theorem Attempt.exec_poisoned {α : Type} {a : Attempt α} {guards : List UInt64} {message : String}
    (hguard : guards[a.guard]? = some a.pos)
    (hbody : (a.body guards.length).result = .error (.poison message)) (hcheck : a.check = none) :
    a.exec guards = (.error message, guards.set a.guard maxNonce) := by
  unfold Attempt.exec
  rw [hcheck]
  simp only [if_pos hguard, List.length_set, hbody, Attempt.settle, List.set_set]
  rfl

namespace Transport

variable {t : Transport} {guards : List UInt64}

theorem encrypt_exec (hk : t.send.hasK = true) (hn : t.send.n ≠ maxNonce) {pt : Bytes}
    (hlen : pt.length + tagLen ≤ maxMsg) (hguard : guards[t.sendGrd]? = some t.sendAt) :
    (t.encrypt prim pt).exec guards =
      (.ok (t.advance true { t.send with n := t.send.n + 1 },
        prim.aeadSeal t.send.k (nonce t.send.n) pt []), guards.set t.sendGrd (t.sendAt + 1)) := by
  have hcheck : (t.encrypt prim pt).check = none := if_neg (Nat.not_lt.2 hlen)
  have hbody : ((t.encrypt prim pt).body guards.length).result =
      .ok (t.advance true { t.send with n := t.send.n + 1 },
        prim.aeadSeal t.send.k (nonce t.send.n) pt []) := by
    unfold Transport.encrypt
    dsimp only
    rw [Cipher.encrypt_eq hk hn]
    rfl
  rw [Attempt.exec_of_ok hguard hbody hcheck]
  exact congrArg _ (List.append_nil _)

theorem encrypt_exhausted (hk : t.send.hasK = true) (hn : t.send.n = maxNonce) {pt : Bytes}
    (hlen : pt.length + tagLen ≤ maxMsg) :
    ∃ message guards', (t.encrypt prim pt).exec guards = (.error message, guards') ∧
      ∀ g ≠ t.sendGrd, guards'[g]? = guards[g]? := by
  have hcheck : (t.encrypt prim pt).check = none := if_neg (Nat.not_lt.2 hlen)
  by_cases hguard : guards[t.sendGrd]? = some t.sendAt
  · have hbody : ((t.encrypt prim pt).body guards.length).result = .error (.poison
        "the nonce counter is exhausted; rekey or start a new session") := by
      unfold Transport.encrypt
      dsimp only
      rw [Cipher.encrypt_exhausted hk hn]
      rfl
    exact ⟨_, _, Attempt.exec_poisoned hguard hbody hcheck, fun g hg =>
      List.getElem?_set_ne (Ne.symm hg)⟩
  · exact ⟨_, _, Attempt.exec_stale hcheck hguard, fun g _ => rfl⟩

theorem rekeySend_exec (hguard : guards[t.sendGrd]? = some t.sendAt) :
    (t.rekeySend prim).exec guards =
      (.ok (t.advance true (t.send.rekeyed prim)), guards.set t.sendGrd (t.sendAt + 1)) := by
  have hbody : ((t.rekeySend prim).body guards.length).result =
    .ok (t.advance true (t.send.rekeyed prim)) := rfl
  rw [Attempt.exec_of_ok hguard hbody rfl]
  exact congrArg _ (List.append_nil _)

theorem decrypt_exec {ct pt : Bytes} {c : Cipher} (hlen : ct.length ≤ maxMsg)
    (hopen : (t.recv.decrypt prim [] ct).result = .ok (c, pt))
    (hguard : guards[t.recvGrd]? = some t.recvAt) :
    (t.decrypt prim ct).exec guards =
      (.ok (t.advance false c, pt), guards.set t.recvGrd (t.recvAt + 1)) := by
  have hcheck : (t.decrypt prim ct).check = none := if_neg (Nat.not_lt.2 hlen)
  have hbody : ((t.decrypt prim ct).body guards.length).result = .ok (t.advance false c, pt) :=
    Logged.result_mapError_of_ok (Logged.result_bind_of_ok hopen)
  rw [Attempt.exec_of_ok hguard hbody hcheck]
  exact congrArg _ (List.append_nil _)

theorem rekeyReceive_exec (hguard : guards[t.recvGrd]? = some t.recvAt) :
    (t.rekeyReceive prim).exec guards =
      (.ok (t.advance false (t.recv.rekeyed prim)), guards.set t.recvGrd (t.recvAt + 1)) := by
  have hbody : ((t.rekeyReceive prim).body guards.length).result =
    .ok (t.advance false (t.recv.rekeyed prim)) := rfl
  rw [Attempt.exec_of_ok hguard hbody rfl]
  exact congrArg _ (List.append_nil _)

end Transport

end

/-! ## Whole sessions -/

variable {prim : Primitives} {s : Session} {e : Bool}

/-- Where an end stands, and that it can send until its nonces are used up. -/
structure Peer.Sound (x : Peer) : Prop where
  apart : x.transport.sendGrd ≠ x.transport.recvGrd
  keyed : x.transport.send.hasK = true
  ready : x.transport.send.n ≠ maxNonce →
    x.guards[x.transport.sendGrd]? = some x.transport.sendAt
  guard : x.guards[x.transport.recvGrd]? = some x.transport.recvAt

/-- Both directions of a session. -/
structure Session.Linked (prim : Primitives) (s : Session) : Prop where
  sound : ∀ e, (s.ends e).Sound
  /-- What is in flight takes the receiver to where the sender is. -/
  delivers : ∀ e, ∃ done pending, s.sent e = done ++ pending ∧ s.processed e = done.map .ok ∧
    Transduces (Cipher.accept prim) (s.ends !e).transport.recv (s.inFlight e) pending
      (s.ends e).transport.send

theorem Session.linked_init {ends : Ends} (hfresh : ∀ e, (ends e).Fresh)
    (hciphers : ∀ e, (ends e).transport.send = (ends !e).transport.recv) :
    (Session.init ends).Linked prim where
  sound e := ⟨(hfresh e).apart, (hfresh e).cipher true, fun _ => (hfresh e).guard true,
    (hfresh e).guard false⟩
  delivers e := by
    refine ⟨[], [], rfl, rfl, ?_⟩
    change Transduces _ (ends !e).transport.recv [] [] (ends e).transport.send
    rw [hciphers e]
    exact .nil _

/-! ## Ends -/

namespace Session

variable {t : Transport} {guards : List UInt64}

theorem ends_setPeer_self :
    (s.setPeer e t guards).ends e = { s.ends e with transport := t, guards := guards } :=
  Function.update_self ..

theorem ends_setPeer_not : (s.setPeer e t guards).ends (!e) = s.ends !e :=
  Function.update_of_ne (Bool.not_ne_self e) ..

/-! What a call's outcome makes of the session. -/

theorem step_encrypt_ok {pt ct : Bytes}
    (h : ((s.ends e).transport.encrypt prim pt).exec (s.ends e).guards = (.ok (t, ct), guards)) :
    s.step prim (.encrypt e pt) = (s.setPeer e t guards).send e (.message ct) (some pt) := by
  simp only [Session.step, h]

theorem step_encrypt_error {pt : Bytes} {message : String}
    (h : ((s.ends e).transport.encrypt prim pt).exec (s.ends e).guards =
      (.error message, guards)) : s.step prim (.encrypt e pt) = s.setGuards e guards := by
  simp only [Session.step, h]

theorem step_rekeySend_ok
    (h : ((s.ends e).transport.rekeySend prim).exec (s.ends e).guards = (.ok t, guards)) :
    s.step prim (.rekeySend e) = (s.setPeer e t guards).send e .rekey none := by
  simp only [Session.step, h]

theorem step_rekeySend_error {message : String}
    (h : ((s.ends e).transport.rekeySend prim).exec (s.ends e).guards =
      (.error message, guards)) : s.step prim (.rekeySend e) = s.setGuards e guards := by
  simp only [Session.step, h]

theorem step_process_nil (h : s.inFlight e = []) : s.step prim (.process e) = s := by
  simp only [Session.step, h]

theorem step_process_message {ct pt : Bytes} {rest : List Parcel}
    (hhead : s.inFlight e = .message ct :: rest)
    (h : ((s.ends !e).transport.decrypt prim ct).exec (s.ends !e).guards = (.ok (t, pt), guards)) :
    s.step prim (.process e) =
      (s.setPeer (!e) t guards).receive e rest (.ok (some pt)) := by
  simp only [Session.step, hhead, h]

theorem step_process_rekey {rest : List Parcel} (hhead : s.inFlight e = .rekey :: rest)
    (h : ((s.ends !e).transport.rekeyReceive prim).exec (s.ends !e).guards = (.ok t, guards)) :
    s.step prim (.process e) = (s.setPeer (!e) t guards).receive e rest (.ok none) := by
  simp only [Session.step, hhead, h]

/-- A fact about an end, when only one of them changes. -/
theorem forall_setPeer {P : Peer → Prop} (h : ∀ e, P (s.ends e))
    (hnew : P { s.ends e with transport := t, guards := guards }) (d : Bool) :
    P ((s.setPeer e t guards).ends d) := by
  rcases Bool.eq_or_eq_not d e with rfl | rfl
  · rw [ends_setPeer_self]
    exact hnew
  · rw [ends_setPeer_not]
    exact h _

end Session

namespace Session.Linked

/-! ## Sending -/

/-- An end seals or rekeys. -/
theorem send (h : s.Linked prim) (e : Bool) {c : Cipher} {p : Parcel} {out : Option Bytes}
    {guards : List UInt64} (hkeyed : c.hasK = true)
    (haccept : (s.ends e).transport.send.accept prim p = some (c, out))
    (hguards : guards =
      (s.ends e).guards.set (s.ends e).transport.sendGrd ((s.ends e).transport.sendAt + 1))
    (hclaimed : (s.ends e).guards[(s.ends e).transport.sendGrd]? =
      some (s.ends e).transport.sendAt) :
    ((s.setPeer e ((s.ends e).transport.advance true c) guards).send e p out).Linked prim := by
  subst hguards
  have hlt := (List.getElem?_eq_some_iff.1 hclaimed).1
  have hx := h.sound e
  refine ⟨forall_setPeer h.sound ⟨hx.apart, hkeyed, ?_, ?_⟩, ?_⟩
  · intro _
    exact List.getElem?_set_self hlt
  · exact (List.getElem?_set_ne hx.apart).trans hx.guard
  · intro d
    obtain ⟨done, pending, hsent, hprocessed, hrun⟩ := h.delivers d
    rcases Bool.eq_or_eq_not d e with rfl | rfl
    · refine ⟨done, pending ++ [out], ?_, hprocessed, ?_⟩
      · simp [Session.send, Session.setPeer, hsent]
      · have hnext := hrun.snoc haccept
        simpa [Session.send, Session.setPeer, Transport.advance] using hnext
    · refine ⟨done, pending, ?_, hprocessed, ?_⟩
      · simp [Session.send, Session.setPeer, hsent]
      · simpa [Session.send, Session.setPeer, Transport.advance] using hrun

/-- An end cannot send. -/
theorem refuse (h : s.Linked prim) (e : Bool) {guards : List UInt64}
    (hsame : ∀ g ≠ (s.ends e).transport.sendGrd, guards[g]? = (s.ends e).guards[g]?)
    (hready : (s.ends e).transport.send.n ≠ maxNonce →
      guards[(s.ends e).transport.sendGrd]? = some (s.ends e).transport.sendAt) :
    (s.setGuards e guards).Linked prim := by
  have hx := h.sound e
  refine ⟨forall_setPeer h.sound ⟨hx.apart, hx.keyed, hready, ?_⟩, ?_⟩
  · exact (hsame _ hx.apart.symm).trans hx.guard
  · intro d
    obtain ⟨done, pending, hsent, hprocessed, hrun⟩ := h.delivers d
    refine ⟨done, pending, hsent, hprocessed, ?_⟩
    rcases Bool.eq_or_eq_not d e with rfl | rfl
    · simpa [Session.setGuards, Session.setPeer] using hrun
    · simpa [Session.setGuards, Session.setPeer] using hrun

/-! ## Receiving -/

/-- The other end processes what comes next. -/
theorem process (h : s.Linked prim) (e : Bool) {p : Parcel} {rest : List Parcel}
    (hhead : s.inFlight e = p :: rest) :
    ∃ c out, (s.ends !e).transport.recv.accept prim p = some (c, out) ∧
      ((s.setPeer (!e) ((s.ends !e).transport.advance false c)
        ((s.ends !e).guards.set (s.ends !e).transport.recvGrd
          ((s.ends !e).transport.recvAt + 1))).receive e rest (.ok out)).Linked prim := by
  obtain ⟨done, pending, hsent, hprocessed, hrun⟩ := h.delivers e
  rw [hhead] at hrun
  obtain ⟨c, out, pending', rfl, haccept, htail⟩ := hrun.of_cons
  have hx := h.sound !e
  have hlt := (List.getElem?_eq_some_iff.1 hx.guard).1
  refine ⟨c, out, haccept, forall_setPeer h.sound ⟨hx.apart, hx.keyed, ?_, ?_⟩, ?_⟩
  · intro hn
    exact (List.getElem?_set_ne hx.apart.symm).trans (hx.ready hn)
  · exact List.getElem?_set_self hlt
  · intro d
    rcases Bool.eq_or_eq_not d e with rfl | rfl
    · refine ⟨done ++ [out], pending', ?_, ?_, ?_⟩
      · simp [Session.receive, Session.setPeer, hsent]
      · simp [Session.receive, Session.setPeer, hprocessed]
      · simpa [Session.receive, Session.setPeer, Transport.advance] using htail
    · obtain ⟨done, pending, hsent, hprocessed, hrun⟩ := h.delivers !e
      refine ⟨done, pending, ?_, ?_, ?_⟩
      · simp [Session.receive, Session.setPeer, hsent]
      · simp [Session.receive, Session.setPeer, hprocessed]
      · simpa [Session.receive, Session.setPeer, Transport.advance] using hrun

/-! ## Steps -/

theorem step_encrypt (hprim : prim.Lawful) (h : s.Linked prim) (e : Bool) (pt : Bytes) :
    (s.step prim (.encrypt e pt)).Linked prim := by
  have hx := h.sound e
  by_cases hlen : pt.length + tagLen ≤ maxMsg
  · by_cases hn : (s.ends e).transport.send.n = maxNonce
    · obtain ⟨message, guards, hexec, hsame⟩ := Transport.encrypt_exhausted hx.keyed hn hlen
      rw [step_encrypt_error hexec]
      exact h.refuse e hsame fun hne => absurd hn hne
    · rw [step_encrypt_ok (Transport.encrypt_exec hx.keyed hn hlen (hx.ready hn))]
      exact h.send e hx.keyed (Cipher.accept_seal hprim hx.keyed hn hlen) rfl (hx.ready hn)
  · have hcheck : ((s.ends e).transport.encrypt prim pt).check =
      some "the message is longer than 65535 bytes with its tag" := if_pos (Nat.lt_of_not_le hlen)
    rw [step_encrypt_error (Attempt.exec_checked hcheck _)]
    exact h.refuse e (fun _ _ => rfl) hx.ready

theorem step_rekeySend (h : s.Linked prim) (e : Bool) :
    (s.step prim (.rekeySend e)).Linked prim := by
  have hx := h.sound e
  by_cases hguard : (s.ends e).guards[(s.ends e).transport.sendGrd]? =
      some (s.ends e).transport.sendAt
  · rw [step_rekeySend_ok (Transport.rekeySend_exec hguard)]
    have hkeyed : ((s.ends e).transport.send.rekeyed prim).hasK = true := by
      simpa using hx.keyed
    exact h.send e hkeyed (Cipher.accept_rekey _) rfl hguard
  · have hexec : ((s.ends e).transport.rekeySend prim).exec (s.ends e).guards =
      (.error stale, (s.ends e).guards) := Attempt.exec_stale rfl hguard
    rw [step_rekeySend_error hexec]
    exact h.refuse e (fun _ _ => rfl) hx.ready

theorem step_process (h : s.Linked prim) (e : Bool) :
    (s.step prim (.process e)).Linked prim := by
  have hx := h.sound !e
  cases hhead : s.inFlight e with
  | nil =>
      rw [step_process_nil hhead]
      exact h
  | cons p rest =>
      obtain ⟨c, out, haccept, hnext⟩ := h.process e hhead
      cases p with
      | message ct =>
          obtain ⟨hlen, pt, rfl, hopen⟩ := Cipher.of_accept_message haccept
          rw [step_process_message hhead (Transport.decrypt_exec hlen hopen hx.guard)]
          exact hnext
      | rekey =>
          obtain ⟨rfl, rfl⟩ := Prod.mk.inj (Option.some.inj ((Cipher.accept_rekey _).symm.trans haccept))
          rw [step_process_rekey hhead (Transport.rekeyReceive_exec hx.guard)]
          exact hnext

theorem step (hprim : prim.Lawful) (h : s.Linked prim) (x : Exchange) :
    (s.step prim x).Linked prim := by
  cases x with
  | encrypt e pt => exact h.step_encrypt hprim e pt
  | rekeySend e => exact h.step_rekeySend e
  | process e => exact h.step_process e

theorem run (hprim : prim.Lawful) (h : s.Linked prim) (xs : List Exchange) :
    (s.run prim xs).Linked prim := by
  induction xs generalizing s with
  | nil => exact h
  | cons x xs ih => exact ih (h.step hprim x)

/-! ## What the ends see -/

/-- What was processed so far is what was sent first. -/
theorem processed_eq (h : s.Linked prim) (e : Bool) :
    s.processed e = ((s.sent e).take (s.processed e).length).map .ok := by
  obtain ⟨done, pending, hsent, hprocessed, _⟩ := h.delivers e
  rw [hsent, hprocessed]
  simp

/-- Nothing is lost on the way. -/
theorem length_sent (h : s.Linked prim) (e : Bool) :
    (s.sent e).length = (s.processed e).length + (s.inFlight e).length := by
  obtain ⟨done, pending, hsent, hprocessed, hrun⟩ := h.delivers e
  rw [hsent, hprocessed, List.length_append, hrun.length_eq]
  simp

/-- A message that fits is sent. -/
theorem sent_encrypt (h : s.Linked prim) {e : Bool} {pt : Bytes}
    (hlen : pt.length + tagLen ≤ maxMsg) (hn : (s.ends e).transport.send.n ≠ maxNonce) :
    (s.step prim (.encrypt e pt)).sent e = s.sent e ++ [some pt] := by
  have hx := h.sound e
  rw [step_encrypt_ok (Transport.encrypt_exec hx.keyed hn hlen (hx.ready hn))]
  exact Function.update_self ..

theorem sent_rekeySend (h : s.Linked prim) {e : Bool}
    (hn : (s.ends e).transport.send.n ≠ maxNonce) :
    (s.step prim (.rekeySend e)).sent e = s.sent e ++ [none] := by
  rw [step_rekeySend_ok (Transport.rekeySend_exec ((h.sound e).ready hn))]
  exact Function.update_self ..

end Session.Linked

/-! ## The handshake and the session -/

/-- The handshake of two ends that share suite and prologue, where the initiator knows the
responder's static key and both payloads fit into their messages; and every run of the session
after it. -/
theorem ends_agree (h : prim.Lawful) (suite : Suite) (si ei sr er : Bytes)
    (hsi : si.length = 32) (hei : ei.length = 32) (hsr : sr.length = 32) (her : er.length = 32)
    (prologue payload payload' : Bytes) (hfit : payload.length ≤ 65439)
    (hfit' : payload'.length ≤ 65487) :
    ∃ ends, establish prim suite si ei sr er prologue payload payload' = .ok ends ∧
      Agreed prim si sr payload payload' ends ∧
      ∀ (xs : List Exchange) (e : Bool),
        let s := (Session.init ends).run prim xs
        s.processed e = ((s.sent e).take (s.processed e).length).map .ok ∧
        (s.sent e).length = (s.processed e).length + (s.inFlight e).length ∧
        ((s.ends e).transport.send.n ≠ maxNonce →
          (s.step prim (.rekeySend e)).sent e = s.sent e ++ [none] ∧
          ∀ pt : Bytes, pt.length + tagLen ≤ maxMsg →
            (s.step prim (.encrypt e pt)).sent e = s.sent e ++ [some pt]) := by
  have hfits : 96 + payload.length ≤ maxMsg := by
    simp only [maxMsg]
    omega
  have hfits' : 48 + payload'.length ≤ maxMsg := by
    simp only [maxMsg]
    omega
  obtain ⟨ends, hends, hagreed, hfresh⟩ :=
    establish_agrees h suite hsi hei hsr her prologue hfits hfits'
  refine ⟨ends, hends, hagreed, ?_⟩
  intro xs e
  have hlinked := (Session.linked_init hfresh hagreed.ciphers).run h xs
  refine ⟨hlinked.processed_eq e, hlinked.length_sent e, ?_⟩
  intro hn
  exact ⟨hlinked.sent_rekeySend hn, fun pt hlen => hlinked.sent_encrypt hlen hn⟩

/-! ### Fixed primitives -/

theorem toList_copyOf (k : Block) : copyOf k.toList = k := by
  apply Vector.ext
  intro i hi
  simp [copyOf]

theorem length_toyTag (k : Block) (n pt ad : Bytes) : (toyTag k n pt ad).length = 16 := by
  simp [toyTag]

theorem toy_kxShared_comm (a b : Bytes) :
    toy.kxShared a (toy.kxPublic b) = toy.kxShared b (toy.kxPublic a) := by
  have hcomm : ∀ x y : Bytes, List.zipWith (· + ·) x y = List.zipWith (· + ·) y x := by
    intro x y
    rw [List.zipWith_comm]
    simp only [UInt8.add_comm]
  simp only [toy, toList_copyOf]
  rw [hcomm]

theorem toy_aeadOpen_aeadSeal (k : Block) (n pt ad : Bytes) :
    toy.aeadOpen k n (toy.aeadSeal k n pt ad) ad = some pt := by
  simp only [toy, List.length_append, length_toyTag, Nat.add_sub_cancel, List.drop_left,
    List.take_left, if_true]

theorem toy_lawful : toy.Lawful where
  length_kxPublic sk _ := by simp only [toy, Vector.length_toList]
  kxShared_comm a b _ _ := toy_kxShared_comm a b
  kxShared_isSome _ _ _ _ := by simp only [toy, Option.isSome_some]
  length_aeadSeal k n pt ad := by simp only [toy, List.length_append, length_toyTag, tagLen]
  aeadOpen_aeadSeal := toy_aeadOpen_aeadSeal

/-- Three sendings of the initiator, of which the responder has processed two. -/
def toyExchanges : List Exchange :=
  [.encrypt true [1], .rekeySend true, .process true, .encrypt true [2], .process true]

theorem toy_ends_agree :
    ∃ ends, establish toy toySuite (List.replicate 32 1) (List.replicate 32 2) (List.replicate 32 3)
        (List.replicate 32 4) [7] [8, 9] [10] = .ok ends ∧ (ends true).payload = [10] ∧
      ((Session.init ends).run toy toyExchanges).sent true = [some [1], none, some [2]] ∧
      ((Session.init ends).run toy toyExchanges).processed true = [.ok (some [1]), .ok none] := by
  obtain ⟨ends, hends, hagreed, hrun⟩ := ends_agree toy_lawful toySuite (List.replicate 32 1)
    (List.replicate 32 2) (List.replicate 32 3) (List.replicate 32 4) List.length_replicate
    List.length_replicate List.length_replicate List.length_replicate [7] [8, 9] [10]
    (by decide) (by decide)
  have hfields : (establish toy toySuite (List.replicate 32 1) (List.replicate 32 2)
      (List.replicate 32 3) (List.replicate 32 4) [7] [8, 9] [10]).toOption.map (fun ends =>
        (((Session.init ends).run toy toyExchanges).sent true,
          (((Session.init ends).run toy toyExchanges).processed true).length)) =
      some ([some [1], none, some [2]], 2) := by
    decide +kernel
  rw [hends] at hfields
  obtain ⟨hsent, hlength⟩ := Prod.mk.inj (Option.some.inj hfields)
  refine ⟨ends, hends, hagreed.payloads.2, hsent, ?_⟩
  have hprocessed := (hrun toyExchanges true).1
  rw [hsent, hlength] at hprocessed
  exact hprocessed

/-- A first payload of 65440 bytes does not fit. -/
theorem long_payload_refused :
    toy.Lawful ∧ establish toy toySuite (List.replicate 32 1) (List.replicate 32 2)
        (List.replicate 32 3) (List.replicate 32 4) [] (List.replicate 65440 0) [] =
      .error "the handshake message is longer than 65535 bytes" := by
  refine ⟨toy_lawful, establish_refused toy_lawful toySuite List.length_replicate
    List.length_replicate List.length_replicate _ _ ?_ _⟩
  rw [List.length_replicate]
  decide

end Sky.Noise
