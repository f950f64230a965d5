import Gnunet.Util
import Mathlib.Data.BitVec

/-!
# The key exchange of the core service

`gnunet-service-core_kx.c`, and what it uses of `gnunet-service-core_sessions.c`.
Peers are numbers, and a peer's identity is the public key of the secret with its
number.  The record of a peer is in `kxs`, and `kxList` is the doubly linked list
with its head first.  Tasks are flags, and a random number is an argument of the
function that draws it.  `none` is a failing assertion.  Monitors, statistics and
the queues of a session are left out.
-/

namespace Gnunet.Core

open Protocol

/-! ## Data -/

def rekeyFrequency : Nat := 43200000000

def rekeyTolerance : Nat := 300000000

def maxMessageAge : Nat := 86400000000

def idleConnectionTimeout : Nat := 300000000

/-- `enum GNUNET_CORE_KxState`, without the values that no record has. -/
inductive KxState where
  | down
  | keySent
  | keyReceived
  | up
  | rekeySent
  deriving DecidableEq, Repr

/-- `senderStatus` is `none` for a number that is not a state. -/
structure EphemeralKeyMessage (D : Type) where
  senderStatus : Option KxState
  signature : Bytes D
  purposeSize : Nat
  creationTime : Nat
  expirationTime : Nat
  ephemeralKey : Bytes D
  originIdentity : Nat
  deriving DecidableEq, Repr

structure PingMessage (D : Type) where
  ivSeed : Nat
  body : Bytes D
  deriving DecidableEq, Repr

structure PongMessage (D : Type) where
  ivSeed : Nat
  body : Bytes D
  deriving DecidableEq, Repr

structure EncryptedMessage (D : Type) where
  ivSeed : Nat
  hmac : Bytes D
  body : Bytes D
  deriving DecidableEq, Repr

inductive CoreMessage (D : Type) where
  | ephemeralKey (m : EphemeralKeyMessage D)
  | ping (m : PingMessage D)
  | pong (m : PongMessage D)
  | encrypted (m : EncryptedMessage D)
  deriving DecidableEq, Repr

structure Plaintext (D : Type) where
  sequenceNumber : Nat
  timestamp : Nat
  payload : D
  deriving DecidableEq, Repr

/-- A message in a payload, as far as `deliver_message` tells it apart: a type
map, `none` if it is malformed, a confirmation with whether its hash is the
one of our type map, and any other message with its type and size. -/
inductive Inbound where
  | typeMap (types : Option (List Nat))
  | confirmTypeMap (current : Bool)
  | other (type size : Nat)
  deriving DecidableEq, Repr

structure KeyExchangeInfo (D : Type) where
  status : KxState
  ping : PingMessage D
  otherEphemeralKey : Bytes D
  encryptKey : Bytes D
  decryptKey : Bytes D
  foreignKeyExpires : Nat
  timeout : Nat
  retrySetKeyTask : Bool
  keepAliveTask : Bool
  lastPacketsBitmap : BitVec 32
  lastSequenceNumberReceived : Nat
  lastSequenceNumberSent : Nat
  pingChallenge : Nat
  deriving DecidableEq, Repr

structure Session where
  tmap : List Nat
  typemapTask : Bool
  deriving DecidableEq, Repr

/-- A message passed to the tokenizer, with the key that decrypted it, and
whether its number was higher than all before. -/
structure Delivery (D : Type) where
  peer : Nat
  decryptKey : Bytes D
  message : EncryptedMessage D
  sequenceNumber : Nat
  highest : Bool
  deriving DecidableEq, Repr

/-- The state of the service.  `fresh` is the next private key, `outbox` and
`deliveries` list what was sent and what was passed to the tokenizer. -/
structure Service (D : Type) where
  myEphemeralKey : Bytes D
  currentEkm : EphemeralKeyMessage D
  kxList : List Nat
  kxs : Nat → Option (KeyExchangeInfo D)
  sessions : Nat → Option Session
  fresh : Nat
  outbox : List (Nat × CoreMessage D)
  deliveries : List (Delivery D)

/-- `identityHash` is the hash of an identity as a number, `tokenize` what
`GNUNET_SERVER_mst_receive` makes of a payload, and `garbled` what bytes read
as that are no plaintext. -/
structure CoreEnv (D : Type) where
  me : Nat
  identityHash : Nat → Nat
  useEphemeralKeys : Bool
  tokenize : D → List Inbound
  garbled : Bytes D → Plaintext D

structure Nonce where
  challenge : Nat
  ivSeed : Nat

variable {D : Type}

def EphemeralKeyMessage.signed (m : EphemeralKeyMessage D) : Bytes D :=
  .pair (.num m.purposeSize) (.pair (.num m.creationTime) (.pair (.num m.expirationTime)
      (.pair m.ephemeralKey (.num m.originIdentity))))

def Plaintext.bytes (plaintext : Plaintext D) : Bytes D :=
  .pair (.num plaintext.sequenceNumber) (.pair (.num plaintext.timestamp) (.data plaintext.payload))

def CoreEnv.readPlaintext (env : CoreEnv D) : Bytes D → Plaintext D
  | .pair (.num sequenceNumber) (.pair (.num timestamp) (.data payload)) =>
      ⟨sequenceNumber % 2 ^ 32, timestamp, payload⟩
  | bytes =>
      let plaintext := env.garbled bytes
      { plaintext with
        sequenceNumber := plaintext.sequenceNumber % 2 ^ 32 }

def deriveAuthKey (skey : Bytes D) (seed : Nat) : Bytes D :=
  cryptoKdf .authenticationKey 0 (.pair (.num seed) skey)

def deriveIv (skey : Bytes D) (seed identity : Nat) : Bytes D :=
  cryptoKdf .initializationVector 0 (.pair (.num seed) (.pair skey (.num identity)))

def derivePongIv (skey : Bytes D) (seed challenge identity : Nat) : Bytes D :=
  cryptoKdf .pongInitializationVector 0
    (.pair (.num seed) (.pair skey (.pair (.num identity) (.num challenge))))

def deriveAesKey (sender receiver : Nat) (keyMaterial : Bytes D) : Bytes D :=
  cryptoKdf .aesKeyGeneration 0 (.pair keyMaterial (.pair (.num sender) (.num receiver)))

namespace Service

def setKx (s : Service D) (peer : Nat) (kx : KeyExchangeInfo D) : Service D :=
  { s with kxs := Function.update s.kxs peer (some kx) }

def setSession (s : Service D) (peer : Nat) (session : Option Session) : Service D :=
  { s with sessions := Function.update s.sessions peer session }

def mqSend (s : Service D) (peer : Nat) (m : CoreMessage D) : Service D :=
  { s with outbox := s.outbox ++ [(peer, m)] }

def gscSessionsEnd (s : Service D) (peer : Nat) : Service D :=
  s.setSession peer none

def gscSessionsCreate (s : Service D) (peer : Nat) : Option (Service D) :=
  if (s.sessions peer).isSome then none
  else some (s.setSession peer (some ⟨[], true⟩))

def gscSessionsReinit (s : Service D) (peer : Nat) : Service D :=
  s.setSession peer ((s.sessions peer).map fun session =>
      { session with typemapTask := true })

def gscSessionsSetTypemap (s : Service D) (peer : Nat) (types : Option (List Nat)) : Service D :=
  match types with
  | none => s
  | some types =>
      s.setSession peer
        ((s.sessions peer).map fun session => { session with tmap := types })

def gscSessionsConfirmTypemap (s : Service D) (peer : Nat) (current : Bool) : Service D :=
  if current then
    s.setSession peer ((s.sessions peer).map fun session =>
        { session with typemapTask := false })
  else s

def gscSessionsAddToTypemap (env : CoreEnv D) (s : Service D)
    (peer type : Nat) : Option (Service D) :=
  if peer = env.me then some s
  else
    (s.sessions peer).map fun session =>
      if type ∈ session.tmap then s
      else s.setSession peer
        (some { session with tmap := type :: session.tmap })

/-- The part of the function that touches the session; the size is the one of
the message for the client, with its header of 36 bytes. -/
def gscClientsDeliverMessage (env : CoreEnv D) (s : Service D)
    (peer type msize : Nat) (wanted : Bool) : Option (Service D) :=
  if 65536 ≤ msize + 36 then some s
  else if wanted then s.gscSessionsAddToTypemap env peer type
  else some s

/-- `headers` says whether some client wants the headers of inbound
messages. -/
def deliverMessage (env : CoreEnv D) (headers : Bool) (peer : Nat)
    (s : Service D) (m : Inbound) : Option (Service D) :=
  if (s.kxs peer).any (fun kx => kx.status ≠ .up) then some s
  else
    match m with
    | .typeMap types => some (s.gscSessionsSetTypemap peer types)
    | .confirmTypeMap current =>
        some (s.gscSessionsConfirmTypemap peer current)
    | .other type size =>
        (s.gscClientsDeliverMessage env peer type size true).bind fun s =>
          s.gscClientsDeliverMessage env peer type 4 headers

def sendKey (s : Service D) (peer : Nat) (kx : KeyExchangeInfo D) : Option (Service D) :=
  if kx.status = .down then none
  else
    let ekm := { s.currentEkm with senderStatus := some kx.status }
    let s := { s with currentEkm := ekm }.mqSend peer (.ephemeralKey ekm)
    let s := if kx.status = .keySent then s else s.mqSend peer (.ping kx.ping)
    some (s.setKx peer { kx with retrySetKeyTask := true })

def setKeyRetryTask (s : Service D) (peer : Nat) (kx : KeyExchangeInfo D) : Option (Service D) :=
  let kx := { kx with retrySetKeyTask := false }
  if kx.status = .down then none else s.sendKey peer kx

def confirmKey (s : Service D) (peer : Nat) (kx : KeyExchangeInfo D)
    (senderStatus : Option KxState) : Option (Service D) :=
  if senderStatus = some .keySent then s.sendKey peer kx
  else some ((s.setKx peer kx).mqSend peer (.ping kx.ping))

end Service

def KeyExchangeInfo.setupFreshPing (kx : KeyExchangeInfo D) (peer : Nat)
    (nonce : Nonce) : KeyExchangeInfo D :=
  { kx with
    pingChallenge := nonce.challenge
    ping :=
      { ivSeed := nonce.ivSeed
        body := cryptoSymmetricEncrypt
          (.pair (.num peer) (.num nonce.challenge)) kx.encryptKey
          (deriveIv kx.encryptKey nonce.ivSeed peer) } }

/-- `derive_session_keys`; nothing changes when the other key is no point. -/
def KeyExchangeInfo.deriveSessionKeys (kx : KeyExchangeInfo D)
    (me peer : Nat) (myEphemeralKey : Bytes D) (nonce : Nonce) : KeyExchangeInfo D :=
  match Term.ecdh? myEphemeralKey kx.otherEphemeralKey with
  | none => kx
  | some keyMaterial =>
      { kx with
        encryptKey := deriveAesKey me peer keyMaterial
        decryptKey := deriveAesKey peer me keyMaterial
        lastSequenceNumberReceived := 0
        lastPacketsBitmap := 0 }.setupFreshPing peer nonce

def KeyExchangeInfo.updateTimeout (kx : KeyExchangeInfo D) (now : Nat) : KeyExchangeInfo D :=
  { kx with
    timeout := timeRelativeToAbsolute now idleConnectionTimeout
    keepAliveTask := true }

namespace Service

def newKx : KeyExchangeInfo D where
  status := .keySent
  ping := ⟨0, .zero⟩
  otherEphemeralKey := .zero
  encryptKey := .zero
  decryptKey := .zero
  foreignKeyExpires := 0
  timeout := 0
  retrySetKeyTask := false
  keepAliveTask := false
  lastPacketsBitmap := 0
  lastSequenceNumberReceived := 0
  lastSequenceNumberSent := 0
  pingChallenge := 0

def handleTransportNotifyConnect (env : CoreEnv D) (s : Service D)
    (peer : Nat) : Option (Service D) :=
  let s := { s with kxList := peer :: s.kxList }
  if env.identityHash env.me < env.identityHash peer then
    s.sendKey peer newKx
  else some (s.setKx peer { newKx with retrySetKeyTask := true })

def handleTransportNotifyDisconnect (s : Service D) (peer : Nat) : Service D :=
  let s := s.gscSessionsEnd peer
  { s with
    kxList := s.kxList.erase peer
    kxs := Function.update s.kxs peer none }

variable [DecidableEq D]

def acceptsEphemeralKey (peer : Nat) (kx : KeyExchangeInfo D) (now : Nat)
    (m : EphemeralKeyMessage D) : Bool :=
  decide (¬ (kx.status ∈ [.keyReceived, .up, .rekeySent] ∧
      m.expirationTime < kx.foreignKeyExpires) ∧
    m.originIdentity = peer ∧ m.purposeSize = 88 ∧
    m.signature = .sign (.secret m.originIdentity) m.signed ∧
    timeAbsoluteSubtract now rekeyTolerance ≤ m.expirationTime ∧
    m.creationTime ≤ timeAbsoluteAdd now rekeyTolerance)

def handleEphemeralKey (env : CoreEnv D) (s : Service D) (peer : Nat)
    (kx : KeyExchangeInfo D) (now : Nat) (nonce : Nonce)
    (m : EphemeralKeyMessage D) : Option (Service D) :=
  if acceptsEphemeralKey peer kx now m then
    let kx := { kx with
      otherEphemeralKey := m.ephemeralKey
      foreignKeyExpires := m.expirationTime }
    let kx := kx.deriveSessionKeys env.me peer s.myEphemeralKey nonce
    let s :=
      if m.senderStatus ∈ [some .keySent, some .keyReceived] then
        s.gscSessionsReinit peer
      else s
    match kx.status with
    | .down | .keySent | .keyReceived =>
        if kx.keepAliveTask then none
        else s.confirmKey peer { kx with status := .keyReceived }
          m.senderStatus
    | .up | .rekeySent =>
        s.confirmKey peer { kx with status := .rekeySent } m.senderStatus
  else some s

def handlePing (env : CoreEnv D) (s : Service D) (peer : Nat)
    (kx : KeyExchangeInfo D) (seed : Nat) (m : PingMessage D) : Service D :=
  if kx.status ∈ [.keyReceived, .up, .rekeySent] then
    match cryptoSymmetricDecrypt m.body kx.decryptKey
        (deriveIv kx.decryptKey m.ivSeed env.me) with
    | .pair (.num target) (.num challenge) =>
        if target = env.me then
          s.mqSend peer (.pong
            { ivSeed := seed
              body := cryptoSymmetricEncrypt
                (.pair (.num challenge) (.pair (.num 0) (.num target)))
                kx.encryptKey
                (derivePongIv kx.encryptKey seed challenge peer) })
        else s
    | _ => s
  else s

/-- The PONG decrypts under the current keys to the current challenge and the
identity of the peer. -/
def validPong (env : CoreEnv D) (peer : Nat) (kx : KeyExchangeInfo D) (m : PongMessage D) : Bool :=
  match cryptoSymmetricDecrypt m.body kx.decryptKey
      (derivePongIv kx.decryptKey m.ivSeed kx.pingChallenge env.me) with
  | .pair (.num challenge) (.pair _ (.num target)) =>
      decide (target = peer ∧ kx.pingChallenge = challenge)
  | _ => false

def handlePong (env : CoreEnv D) (s : Service D) (peer : Nat)
    (kx : KeyExchangeInfo D) (now : Nat) (m : PongMessage D) : Option (Service D) :=
  if kx.status ∈ [.down, .keySent] then some s
  else if validPong env peer kx m then
    let kx := { kx with retrySetKeyTask := false }
    match kx.status with
    | .down | .keySent => none
    | .keyReceived =>
        (s.gscSessionsCreate peer).bind fun s =>
          if kx.keepAliveTask then none
          else some
            (s.setKx peer ({ kx with status := .up }.updateTimeout now))
    | .up => some (s.setKx peer (kx.updateTimeout now))
    | .rekeySent =>
        some (s.setKx peer ({ kx with status := .up }.updateTimeout now))
  else some s

def sendKeepAlive (s : Service D) (peer : Nat) (kx : KeyExchangeInfo D)
    (now : Nat) (nonce : Nonce) : Option (Service D) :=
  let kx := { kx with keepAliveTask := false }
  if timeAbsoluteGetRemaining now kx.timeout = 0 then
    (s.gscSessionsEnd peer).sendKey peer { kx with status := .keySent }
  else
    let kx := kx.setupFreshPing peer nonce
    some ((s.mqSend peer (.ping kx.ping)).setKx peer { kx with keepAliveTask := true })

def gscKxEncryptAndTransmit (s : Service D) (peer : Nat)
    (kx : KeyExchangeInfo D) (now seed : Nat) (payload : D) : Service D :=
  let kx := { kx with
    lastSequenceNumberSent := (kx.lastSequenceNumberSent + 1) % 2 ^ 32 }
  let plaintext : Plaintext D := ⟨kx.lastSequenceNumberSent, now, payload⟩
  let body := cryptoSymmetricEncrypt plaintext.bytes kx.encryptKey
    (deriveIv kx.encryptKey seed peer)
  (s.setKx peer kx).mqSend peer (.encrypted
    { ivSeed := seed
      hmac := cryptoHmac (deriveAuthKey kx.encryptKey seed) body
      body := body })

end Service

/-- The block "validate sequence number" of `handle_encrypted`, `none` for a
message that is ignored. -/
def KeyExchangeInfo.checkSequenceNumber (kx : KeyExchangeInfo D)
    (snum : Nat) : Option (KeyExchangeInfo D) :=
  let last := kx.lastSequenceNumberReceived
  if last = snum then none
  else if snum < last ∧ 32 < last - snum then none
  else if snum < last then
    let rotbit : BitVec 32 := 1#32 <<< (last - snum - 1)
    if kx.lastPacketsBitmap &&& rotbit ≠ 0 then none
    else some { kx with
      lastPacketsBitmap := kx.lastPacketsBitmap ||| rotbit }
  else
    let shift := snum - last
    some { kx with
      lastPacketsBitmap :=
        if 32 ≤ shift then 0 else kx.lastPacketsBitmap <<< shift
      lastSequenceNumberReceived := snum }

namespace Service

variable [DecidableEq D]

def hmacValid (kx : KeyExchangeInfo D) (m : EncryptedMessage D) : Bool :=
  decide (cryptoHmac (deriveAuthKey kx.decryptKey m.ivSeed) m.body = m.hmac)

def decryptMessage (env : CoreEnv D) (kx : KeyExchangeInfo D)
    (m : EncryptedMessage D) : Plaintext D :=
  env.readPlaintext (cryptoSymmetricDecrypt m.body kx.decryptKey
    (deriveIv kx.decryptKey m.ivSeed env.me))

def mstReceive (env : CoreEnv D) (s : Service D) (peer : Nat)
    (kx kx' : KeyExchangeInfo D) (headers : Bool) (m : EncryptedMessage D) : Option (Service D) :=
  let plaintext := decryptMessage env kx m
  let s := s.setKx peer kx'
  let s := { s with
    deliveries := s.deliveries ++
      [{ peer := peer
         decryptKey := kx.decryptKey
         message := m
         sequenceNumber := plaintext.sequenceNumber
         highest := decide
          (kx.lastSequenceNumberReceived < plaintext.sequenceNumber) }] }
  (env.tokenize plaintext.payload).foldlM (deliverMessage env headers peer) s

def handleEncrypted (env : CoreEnv D) (s : Service D) (peer : Nat)
    (kx : KeyExchangeInfo D) (now : Nat) (headers : Bool)
    (m : EncryptedMessage D) : Option (Service D) :=
  if kx.status ≠ .up then some s
  else if timeAbsoluteGetRemaining now kx.foreignKeyExpires = 0 then
    (s.gscSessionsEnd peer).sendKey peer
      { kx with keepAliveTask := false, status := .keySent }
  else if hmacValid kx m then
    let plaintext := decryptMessage env kx m
    match kx.checkSequenceNumber plaintext.sequenceNumber with
    | none => some s
    | some kx' =>
        if maxMessageAge < timeAbsoluteGetDuration now plaintext.timestamp then
          some (s.setKx peer kx')
        else s.mstReceive env peer kx (kx'.updateTimeout now) headers m
  else some s

def signEphemeralKey (env : CoreEnv D) (s : Service D) (now : Nat) : Service D :=
  let ekm : EphemeralKeyMessage D :=
    { senderStatus := some .down
      signature := .zero
      purposeSize := 88
      creationTime := now
      expirationTime :=
        if env.useEphemeralKeys then
          timeRelativeToAbsolute now (rekeyFrequency + rekeyTolerance)
        else timeForever
      ephemeralKey := s.myEphemeralKey.publicKey
      originIdentity := env.me }
  { s with currentEkm :=
    { ekm with signature := .sign (.secret env.me) ekm.signed } }

def rekeyKx (env : CoreEnv D) (nonce : Nat → Nonce) (s : Service D)
    (peer : Nat) : Option (Service D) :=
  (s.kxs peer).bind fun kx =>
    let kx :=
      if kx.status = .up then
        { kx with status := .rekeySent }.deriveSessionKeys env.me peer
          s.myEphemeralKey (nonce peer)
      else kx
    let kx := if kx.status = .down then { kx with status := .keySent } else kx
    s.sendKey peer kx

def doRekey (env : CoreEnv D) (s : Service D) (now : Nat)
    (nonce : Nat → Nonce) : Option (Service D) :=
  let s := { s with myEphemeralKey := .secret s.fresh, fresh := s.fresh + 1 }
  let s := s.signEphemeralKey env now
  s.kxList.foldlM (rekeyKx env nonce) s

def gscKxInit (env : CoreEnv D) (now fresh : Nat) : Service D :=
  let s : Service D :=
    { myEphemeralKey := .secret fresh
      currentEkm := ⟨none, .zero, 0, 0, 0, .zero, 0⟩
      kxList := []
      kxs := fun _ => none
      sessions := fun _ => none
      fresh := fresh + 1
      outbox := []
      deliveries := [] }
  s.signEphemeralKey env now

end Service

inductive CoreEvent (D : Type) where
  | connect (peer : Nat)
  | disconnect (peer : Nat)
  | ephemeralKey (peer now : Nat) (nonce : Nonce) (m : EphemeralKeyMessage D)
  | ping (peer seed : Nat) (m : PingMessage D)
  | pong (peer now : Nat) (m : PongMessage D)
  | encrypted (peer now : Nat) (headers : Bool) (m : EncryptedMessage D)
  | setKeyRetry (peer : Nat)
  | keepAlive (peer now : Nat) (nonce : Nonce)
  | rekey (now : Nat) (nonce : Nat → Nonce)
  | transmitTypemap (peer now seed : Nat) (typemap : D)
  | transmit (peer now seed : Nat) (payload : D)

/-- The events that can happen: the transport service reports a peer as
connected once and gives the messages of connected peers, a task runs while it
is scheduled, and payload is sent while there is a session. -/
def Enabled (s : Service D) : CoreEvent D → Prop
  | .connect peer => s.kxs peer = none
  | .disconnect peer | .ephemeralKey peer _ _ _ | .ping peer _ _
  | .pong peer _ _ | .encrypted peer _ _ _ => (s.kxs peer).isSome
  | .setKeyRetry peer => (s.kxs peer).any fun kx => kx.retrySetKeyTask
  | .keepAlive peer _ _ => (s.kxs peer).any fun kx => kx.keepAliveTask
  | .rekey _ _ => True
  | .transmitTypemap peer _ _ _ =>
      (s.sessions peer).any fun session => session.typemapTask
  | .transmit peer _ _ _ => (s.sessions peer).isSome

instance (s : Service D) : DecidablePred (Enabled s) := fun event => by
  cases event <;> unfold Enabled <;> infer_instance

def Service.step [DecidableEq D] (env : CoreEnv D) (s : Service D) :
    CoreEvent D → Option (Service D)
  | .connect peer => s.handleTransportNotifyConnect env peer
  | .disconnect peer => some (s.handleTransportNotifyDisconnect peer)
  | .ephemeralKey peer now nonce m =>
      (s.kxs peer).bind fun kx =>
        s.handleEphemeralKey env peer kx now nonce m
  | .ping peer seed m =>
      (s.kxs peer).map fun kx => s.handlePing env peer kx seed m
  | .pong peer now m =>
      (s.kxs peer).bind fun kx => s.handlePong env peer kx now m
  | .encrypted peer now headers m =>
      (s.kxs peer).bind fun kx => s.handleEncrypted env peer kx now headers m
  | .setKeyRetry peer =>
      (s.kxs peer).bind fun kx => s.setKeyRetryTask peer kx
  | .keepAlive peer now nonce =>
      (s.kxs peer).bind fun kx => s.sendKeepAlive peer kx now nonce
  | .rekey now nonce => s.doRekey env now nonce
  | .transmitTypemap peer now seed payload | .transmit peer now seed payload =>
      (s.kxs peer).map fun kx =>
        s.gscKxEncryptAndTransmit peer kx now seed payload

end Gnunet.Core
