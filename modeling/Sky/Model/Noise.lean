import Sky.Library.Logged

/-! # Noise sessions

The `Noise_IK` handshake and its transport over any Diffie-Hellman function, AEAD and hash. Each
step hands out a new state value; a shared counter, the guard, says which value is the latest. -/

namespace Sky.Noise

open Library

abbrev Bytes := List UInt8

abbrev Block := Vector UInt8 32

/-- A block that a slice was copied into. -/
def copyOf (b : Bytes) : Block := Vector.ofFn fun i => b.getD i 0

/-- X25519 and ChaCha20-Poly1305. -/
structure Primitives where
  kxPublic : Bytes → Bytes
  kxShared : Bytes → Bytes → Option Bytes
  aeadSeal : Block → (nonce plaintext additionalData : Bytes) → Bytes
  aeadOpen : Block → (nonce ciphertext additionalData : Bytes) → Option Bytes

structure Suite where
  name : String
  newHash : Bytes → Block

def maxMsg : ℕ := 65535

def tagLen : ℕ := 16

/-- Reserved for rekey. -/
def maxNonce : UInt64 := 0xffffffffffffffff

/-! ## The log -/

/-- The step that derived a key. -/
inductive Origin where
  | mixKey (step : UInt64) (second : Bool)
  | split (second : Bool)
  | rekey (k : Block)
  deriving DecidableEq

structure Sealed where
  key : Block
  nonce : Bytes
  plaintext : Bytes
  additionalData : Bytes
  rekey : Bool
  deriving DecidableEq

/-- An encryption that was made, or a key that was derived. -/
inductive Entry where
  | sealed (x : Sealed)
  | derived (origin : Origin) (key : Block)
  deriving DecidableEq

abbrev Step := Logged Entry String

/-! ## CipherState -/

structure Cipher where
  k : Block
  hasK : Bool
  n : UInt64
  deriving DecidableEq

def nonce (n : UInt64) : Bytes :=
  [0, 0, 0, 0] ++ (List.range 8).map fun i => UInt8.ofNat (n.toNat / 256 ^ i)

namespace Cipher

variable (prim : Primitives) (c : Cipher)

def encrypt (ad pt : Bytes) : Step (Cipher × Bytes) :=
  if !c.hasK then pure (c, pt)
  else if c.n = maxNonce then
    .fail "the nonce counter is exhausted; rekey or start a new session"
  else do
    .tell (.sealed ⟨c.k, nonce c.n, pt, ad, false⟩)
    pure ({ c with n := c.n + 1 }, prim.aeadSeal c.k (nonce c.n) pt ad)

def decrypt (ad ct : Bytes) : Step (Cipher × Bytes) :=
  if !c.hasK then pure (c, ct)
  else if c.n = maxNonce then
    .fail "the nonce counter is exhausted; rekey or start a new session"
  else
    match prim.aeadOpen c.k (nonce c.n) ct ad with
    | some pt => pure ({ c with n := c.n + 1 }, pt)
    | none => .fail "authentication failed (wrong key or a tampered message)"

def rekey : Step Cipher := do
  let zeros := List.replicate 32 0
  .tell (.sealed ⟨c.k, nonce maxNonce, zeros, [], true⟩)
  let k := copyOf ((prim.aeadSeal c.k (nonce maxNonce) zeros []).take 32)
  .tell (.derived (.rekey c.k) k)
  pure { c with k := k }

end Cipher

/-! ## SymmetricState -/

structure Symmetric where
  suite : Suite
  cs : Cipher
  ck : Block
  h : Block

/-- HMAC of the suite's hash, whose block length is 64. -/
def hmac (suite : Suite) (key : Bytes) (parts : List Bytes) : Block :=
  let key := if 64 < key.length then (suite.newHash key).toList else key
  let pad (b : UInt8) : Bytes := (List.range 64).map fun i => key.getD i 0 ^^^ b
  suite.newHash (pad 0x5c ++ (suite.newHash (pad 0x36 ++ parts.flatten)).toList)

def hkdf2 (suite : Suite) (ck ikm : Bytes) : Block × Block :=
  let tmp := hmac suite ck [ikm]
  let o1 := hmac suite tmp.toList [[1]]
  let o2 := hmac suite tmp.toList [o1.toList, [2]]
  (o1, o2)

namespace Symmetric

variable (prim : Primitives) (s : Symmetric)

def mixHash (data : Bytes) : Symmetric :=
  { s with h := s.suite.newHash (s.h.toList ++ data) }

def mixKey (origin : Origin) (ikm : Bytes) : Step Symmetric := do
  let ⟨ck, k⟩ := hkdf2 s.suite s.ck.toList ikm
  .tell (.derived origin k)
  pure { s with ck := ck, cs := ⟨k, true, 0⟩ }

def encryptAndHash (pt : Bytes) : Step (Symmetric × Bytes) := do
  let (cs, ct) ← s.cs.encrypt prim s.h.toList pt
  pure ({ s with cs := cs }.mixHash ct, ct)

def decryptAndHash (ct : Bytes) : Step (Symmetric × Bytes) := do
  let (cs, pt) ← s.cs.decrypt prim s.h.toList ct
  pure ({ s with cs := cs }.mixHash ct, pt)

end Symmetric

def noiseDH (prim : Primitives) (sk pk : Bytes) : Step Bytes :=
  match prim.kxShared sk pk with
  | some out => pure out
  | none =>
      .fail "the peer sent a low-order public key (the shared secret would be all zeros)"

/-! ## Guards -/

/-- The address of a guard. -/
abbrev GuardId := ℕ

/-- What a failed call leaves in its guard: a poisoned session, or the position that it claimed. -/
inductive Failure where
  | poison (message : String)
  | release (message : String)

/-- A call: what it checks first, the guard and the position that it claims, and what it does
then. `next` is the address of the next guard that is allocated. -/
structure Attempt (α : Type*) where
  check : Option String
  guard : GuardId
  pos : UInt64
  allocates : ℕ
  body : GuardId → Logged Entry Failure α

def stale : String :=
  "this state value was already used (a newer one exists); " ++
    "use the value the last step returned — reusing an old one would reuse a nonce"

def Failure.message : Failure → String
  | .poison message | .release message => message

/-- What a call leaves of the guards after its claim. -/
def Attempt.settle {α : Type*} (a : Attempt α) (r : Except Failure α) (guards : List UInt64) :
    List UInt64 :=
  match r with
  | .ok _ => guards ++ List.replicate a.allocates 0
  | .error (.poison _) => guards.set a.guard maxNonce
  | .error (.release _) => guards.set a.guard a.pos

/-- A call with nothing beside it. -/
def Attempt.exec {α : Type*} (a : Attempt α) (guards : List UInt64) :
    Except String α × List UInt64 :=
  match a.check with
  | some message => (.error message, guards)
  | none =>
      if guards[a.guard]? = some a.pos then
        let guards := guards.set a.guard (a.pos + 1)
        let r := (a.body guards.length).result
        (r.mapError Failure.message, a.settle r guards)
      else (.error stale, guards)

/-! ## The handshake -/

structure Handshake where
  initiator : Bool
  /-- 0: before message 1, 1: before message 2, 2: complete, 3: split -/
  step : UInt64
  sym : Symmetric
  s : Bytes
  sPub : Bytes
  e : Bytes
  ePub : Bytes
  rs : Bytes
  re : Bytes
  guard : GuardId

structure Transport where
  send : Cipher
  recv : Cipher
  sendAt : UInt64
  recvAt : UInt64
  sendGrd : GuardId
  recvGrd : GuardId
  hash : Block
  peer : Bytes
  deriving DecidableEq

def noiseNewSuite (prim : Primitives) (suite : Suite) (initiator : Bool)
    (s rs prologue e : Bytes) (guard : GuardId) : Handshake :=
  let name : Bytes := suite.name.toUTF8.toList
  let h := if name.length ≤ 32 then copyOf name else suite.newHash name
  let sym : Symmetric := { suite := suite, cs := ⟨copyOf [], false, 0⟩, ck := h, h := h }
  let sym := sym.mixHash prologue
  let sym := if initiator then sym.mixHash rs else sym.mixHash (prim.kxPublic s)
  { initiator := initiator, step := 0, sym := sym, s := s, sPub := prim.kxPublic s, e := e
    ePub := prim.kxPublic e, rs := rs, re := [], guard := guard }

namespace Handshake

variable (prim : Primitives) (hs : Handshake)

/-- The payload ends a message. -/
def writePayload (sym : Symmetric) (out payload : Bytes) : Step (Handshake × Bytes) := do
  let (sym, ct) ← sym.encryptAndHash prim payload
  if maxMsg < (out ++ ct).length then
    .fail "the handshake message is longer than 65535 bytes"
  else pure ({ hs with sym := sym, step := hs.step + 1 }, out ++ ct)

/-- `-> e, es, s, ss`. -/
def writeFirst (payload : Bytes) : Step (Handshake × Bytes) := do
  let sym := hs.sym.mixHash hs.ePub
  let dh ← noiseDH prim hs.e hs.rs
  let sym ← sym.mixKey (.mixKey hs.step false) dh
  let (sym, ct) ← sym.encryptAndHash prim hs.sPub
  let dh ← noiseDH prim hs.s hs.rs
  let sym ← sym.mixKey (.mixKey hs.step true) dh
  hs.writePayload prim sym (hs.ePub ++ ct) payload

/-- `<- e, ee, se`. -/
def writeSecond (payload : Bytes) : Step (Handshake × Bytes) := do
  let sym := hs.sym.mixHash hs.ePub
  let dh ← noiseDH prim hs.e hs.re
  let sym ← sym.mixKey (.mixKey hs.step false) dh
  let dh ← noiseDH prim hs.e hs.rs
  let sym ← sym.mixKey (.mixKey hs.step true) dh
  hs.writePayload prim sym hs.ePub payload

def writeMessage (payload : Bytes) : Attempt (Handshake × Bytes) where
  check := none
  guard := hs.guard
  pos := hs.step
  allocates := 0
  body _ :=
    if hs.initiator && hs.step = 0 then (hs.writeFirst prim payload).mapError .poison
    else if !hs.initiator && hs.step = 1 then (hs.writeSecond prim payload).mapError .poison
    else .fail (.release "it is not this side's turn to write a handshake message")

/-- The payload ends a message. -/
def readPayload (sym : Symmetric) (re rs msg : Bytes) : Step (Handshake × Bytes) := do
  let (sym, pt) ← sym.decryptAndHash prim msg
  pure ({ hs with sym := sym, re := re, rs := rs, step := hs.step + 1 }, pt)

/-- `-> e, es, s, ss`. -/
def readFirst (msg : Bytes) : Step (Handshake × Bytes) :=
  if msg.length < 32 + 32 + tagLen + tagLen then
    .fail "the first handshake message is too short"
  else do
    let re := msg.take 32
    let sym := hs.sym.mixHash re
    let dh ← noiseDH prim hs.s re
    let sym ← sym.mixKey (.mixKey hs.step false) dh
    let (sym, rs) ← sym.decryptAndHash prim ((msg.drop 32).take (32 + tagLen))
    let dh ← noiseDH prim hs.s rs
    let sym ← sym.mixKey (.mixKey hs.step true) dh
    hs.readPayload prim sym re rs (msg.drop (32 + 32 + tagLen))

/-- `<- e, ee, se`. -/
def readSecond (msg : Bytes) : Step (Handshake × Bytes) :=
  if msg.length < 32 + tagLen then .fail "the second handshake message is too short"
  else do
    let re := msg.take 32
    let sym := hs.sym.mixHash re
    let dh ← noiseDH prim hs.e re
    let sym ← sym.mixKey (.mixKey hs.step false) dh
    let dh ← noiseDH prim hs.s re
    let sym ← sym.mixKey (.mixKey hs.step true) dh
    hs.readPayload prim sym re hs.rs (msg.drop 32)

def readMessage (msg : Bytes) : Attempt (Handshake × Bytes) where
  check := none
  guard := hs.guard
  pos := hs.step
  allocates := 0
  body _ :=
    if maxMsg < msg.length then
      .fail (.poison "the handshake message is longer than 65535 bytes")
    else if !hs.initiator && hs.step = 0 then (hs.readFirst prim msg).mapError .poison
    else if hs.initiator && hs.step = 1 then (hs.readSecond prim msg).mapError .poison
    else .fail (.release "it is not this side's turn to read a handshake message")

def split : Attempt Transport where
  check :=
    if hs.step ≠ 2 then some "the handshake is not complete (two messages are needed)" else none
  guard := hs.guard
  pos := 2
  allocates := 2
  body next := do
    let ⟨k1, k2⟩ := hkdf2 hs.sym.suite hs.sym.ck.toList []
    .tell (.derived (.split false) k1)
    .tell (.derived (.split true) k2)
    let c1 : Cipher := ⟨k1, true, 0⟩
    let c2 : Cipher := ⟨k2, true, 0⟩
    pure
      { send := if hs.initiator then c1 else c2
        recv := if hs.initiator then c2 else c1
        sendAt := 0
        recvAt := 0
        sendGrd := next
        recvGrd := next + 1
        hash := hs.sym.h
        peer := hs.rs }

end Handshake

/-! ## The transport -/

namespace Transport

variable (prim : Primitives) (t : Transport)

def encrypt (pt : Bytes) : Attempt (Transport × Bytes) where
  check :=
    if maxMsg < pt.length + tagLen then
      some "the message is longer than 65535 bytes with its tag"
    else none
  guard := t.sendGrd
  pos := t.sendAt
  allocates := 0
  body _ := Logged.mapError .poison do
    let (send, ct) ← t.send.encrypt prim [] pt
    pure ({ t with send := send, sendAt := t.sendAt + 1 }, ct)

/-- A failed decrypt leaves the position, so that the same value may try the next message. -/
def decrypt (ct : Bytes) : Attempt (Transport × Bytes) where
  check :=
    if maxMsg < ct.length then some "the message is longer than 65535 bytes" else none
  guard := t.recvGrd
  pos := t.recvAt
  allocates := 0
  body _ := Logged.mapError .release do
    let (recv, pt) ← t.recv.decrypt prim [] ct
    pure ({ t with recv := recv, recvAt := t.recvAt + 1 }, pt)

def rekeySend : Attempt Transport where
  check := none
  guard := t.sendGrd
  pos := t.sendAt
  allocates := 0
  body _ := Logged.mapError .poison do
    let send ← t.send.rekey prim
    pure { t with send := send, sendAt := t.sendAt + 1 }

def rekeyReceive : Attempt Transport where
  check := none
  guard := t.recvGrd
  pos := t.recvAt
  allocates := 0
  body _ := Logged.mapError .poison do
    let recv ← t.recv.rekey prim
    pure { t with recv := recv, recvAt := t.recvAt + 1 }

end Transport

end Sky.Noise
