import Gnunet.Util
import Mathlib.Data.List.Sort

/-!
# The data path of a CADET channel

A channel hands the payloads of a local client to the tunnel, keeps the reliable
ones until they are acknowledged, and passes the payloads that arrive through the
tunnel to its client: at once, in order or from a queue of early messages, as its
options say.  `none` is a failing assertion or an access to a null pointer.
`keyOk` says whether the tunnel is in `CADET_TUNNEL_KEY_OK`.
-/

namespace Gnunet.Cadet

variable {P : Type}

def cadetInitialRetransmitTime : Nat := 250000

def minRttDelay : Nat := 75000

structure ChannelAppDataMessage (P : Type) where
  mid : BitVec 32
  payload : P
  deriving DecidableEq, Repr

structure ChannelDataAckMessage where
  mid : BitVec 32
  futures : BitVec 64
  deriving DecidableEq, Repr

/-- `struct CadetReliableMessage`; `qe` says whether the tunnel has a queue
entry for the message. -/
structure ReliableMessage (P : Type) where
  qe : Bool
  dataMessage : ChannelAppDataMessage P
  nextRetry : Nat
  retryDelay : Nat
  deriving DecidableEq, Repr

structure OutOfOrderMessage (P : Type) where
  mid : BitVec 32
  env : P
  deriving DecidableEq, Repr

/-- `struct CadetChannelClient`; `localData` are the payloads that the client
was given, oldest first. -/
structure ChannelClient (P : Type) where
  ccn : Nat
  headRecv : List (OutOfOrderMessage P)
  clientReady : Bool
  localData : List P
  deriving DecidableEq, Repr

structure ChannelOptions where
  nobuffer : Bool
  reliable : Bool
  outOfOrder : Bool
  deriving DecidableEq, Repr

/-- `struct CadetChannel`.  `retryDataTask` is the time the task is due at.
`localAcks` are the `LOCAL_ACK` messages for the clients, true for one to the
owner; `destroySent` and `freed` tell that a `CHANNEL_DESTROY` was sent and
that the channel is gone. -/
structure Channel (P : Type) where
  owner : Option (ChannelClient P)
  dest : Option (ChannelClient P)
  lastControlQe : Option ChannelDataAckMessage
  headSent : List (ReliableMessage P)
  retryDataTask : Option Nat
  retryTime : Nat
  midFutures : BitVec 64
  midRecv : BitVec 32
  midSend : BitVec 32
  pendingMessages : Nat
  maxPendingMessages : Nat
  options : ChannelOptions
  isLoopback : Bool
  destroy : Bool
  localAcks : List Bool
  destroySent : Bool
  freed : Bool
  deriving DecidableEq, Repr

/-- A distance over `INT_MAX` means that the identifiers wrapped around. -/
def isBefore (v1 v2 : BitVec 32) : Bool :=
  decide ((v2 - v1).toNat ≤ 2 ^ 31 - 1)

def OutOfOrderMessage.Before (m1 m2 : OutOfOrderMessage P) : Prop :=
  isBefore m1.mid m2.mid = true

instance : DecidableRel (OutOfOrderMessage.Before (P := P)) :=
  fun m1 m2 => inferInstanceAs (Decidable (isBefore m1.mid m2.mid = true))

/-- The flag that `is_before` leaves behind: the search for the place of a
message stopped at one with the same identifier. -/
def sawDuplicate (mid : BitVec 32) (queue : List (OutOfOrderMessage P)) : Bool :=
  (queue.find? fun pos => isBefore mid pos.mid).any fun pos => pos.mid == mid

def cmpCrmByNextRetry (crm1 crm2 : ReliableMessage P) : Prop :=
  crm1.nextRetry < crm2.nextRetry

instance : DecidableRel (cmpCrmByNextRetry (P := P)) :=
  fun crm1 crm2 => inferInstanceAs (Decidable (crm1.nextRetry < crm2.nextRetry))

/-- The test of `GCCH_handle_channel_plaintext_data_ack` whether a `DATA_ACK`
counts for a message: a distance close to `UINT_MAX` means that the message is
a bit in the past, otherwise its bit must be set. -/
def ChannelDataAckMessage.covers (maxPendingMessages : Nat)
    (ack : ChannelDataAckMessage) (mid : BitVec 32) : Bool :=
  let delta := mid - ack.mid
  decide (2 ^ 32 - 1 - maxPendingMessages ≤ delta.toNat) ||
    (decide ((delta - 1).toNat < 64) && ack.futures.getLsbD (delta - 1).toNat)

def ChannelClient.gscSendToClient (ccc : ChannelClient P) (payload : P) : ChannelClient P :=
  { ccc with localData := ccc.localData ++ [payload] }

namespace Channel

/-- `GCCH_channel_local_new` for a remote destination, up to the identifier
that the first message is expected to have: the `OPEN_ACK` counts as message
0. -/
def gcchChannelLocalNew (options : ChannelOptions) (ccn : Nat) : Channel P where
  owner := some
    { ccn := ccn, headRecv := [], clientReady := true, localData := [] }
  dest := none
  lastControlQe := none
  headSent := []
  retryDataTask := none
  retryTime := cadetInitialRetransmitTime
  midFutures := 0
  midRecv := 1
  midSend := 0
  pendingMessages := 0
  maxPendingMessages := if options.nobuffer then 1 else 4
  options := options
  isLoopback := false
  destroy := false
  localAcks := []
  destroySent := false
  freed := false

def gcchChannelIncomingNew (options : ChannelOptions) : Channel P where
  owner := none
  dest := none
  lastControlQe := none
  headSent := []
  retryDataTask := none
  retryTime := cadetInitialRetransmitTime
  midFutures := 0
  midRecv := 0
  midSend := 0
  pendingMessages := 0
  maxPendingMessages := if options.nobuffer then 1 else 4
  options := options
  isLoopback := false
  destroy := false
  localAcks := []
  destroySent := false
  freed := false

def client (ch : Channel P) (isOwner : Bool) : Option (ChannelClient P) :=
  if isOwner then ch.owner else ch.dest

def setClient (ch : Channel P) (isOwner : Bool) (ccc : ChannelClient P) : Channel P :=
  if isOwner then { ch with owner := some ccc } else { ch with dest := some ccc }

def receiver (ch : Channel P) : Option (ChannelClient P) :=
  ch.client ch.owner.isSome

def sendAckToClient (ch : Channel P) (toOwner : Bool) : Option (Channel P) :=
  match ch.client toOwner with
  | none => if ch.destroy then some ch else none
  | some _ => some { ch with localAcks := ch.localAcks ++ [toOwner] }

/-- `GCCH_bind` on a channel that came in through the tunnel. -/
def gcchBind (ch : Channel P) (ccn : Nat) : Option (Channel P) :=
  if ch.dest.isSome then none
  else
    (List.replicate ch.maxPendingMessages false).foldlM sendAckToClient { ch with
        dest := some
          { ccn := ccn, headRecv := [], clientReady := true, localData := [] }
        midRecv := 1 }

def sendChannelDataAck (keyOk : Bool) (ch : Channel P) : Channel P :=
  if ch.options.reliable then
    { ch with
      lastControlQe :=
        if keyOk then some { mid := ch.midRecv, futures := ch.midFutures }
        else none }
  else ch

def sendAckCb (ch : Channel P) : Option (Channel P) :=
  if ch.lastControlQe.isNone then none
  else some { ch with lastControlQe := none }

/-- The tests of `GCCH_handle_channel_plaintext_data` on a reliable channel:
`none` drops the message, otherwise the bits for the messages that came early
are returned, with the bit of this one set if it has one. -/
def markFutures (ch : Channel P) (midMsg : BitVec 32) : Option (BitVec 64) :=
  let midMin := ch.midRecv
  let midMax := midMin + BitVec.ofNat 32 ch.maxPendingMessages
  if ch.maxPendingMessages < (midMsg - midMin).toNat ∨
      ch.maxPendingMessages < (midMax - midMsg).toNat then
    none
  else
    let delta := (midMsg - midMin - 1).toNat
    if delta < 64 then
      if ch.midFutures.getLsbD delta then none
      else some (ch.midFutures ||| BitVec.twoPow 64 delta)
    else some ch.midFutures

def insertSorted (ccc : ChannelClient P) (com : OutOfOrderMessage P) : ChannelClient P :=
  if sawDuplicate com.mid ccc.headRecv then ccc
  else
    { ccc with
      headRecv := ccc.headRecv.orderedInsert OutOfOrderMessage.Before com }

def dropOldest (ch : Channel P) (ccc : ChannelClient P) : ChannelClient P :=
  if ch.maxPendingMessages ≤ ccc.headRecv.length then
    { ccc with headRecv := ccc.headRecv.tail }
  else ccc

def receiveData (keyOk : Bool) (ch : Channel P) (isOwner : Bool)
    (ccc : ChannelClient P) (msg : ChannelAppDataMessage P) : Channel P :=
  let com : OutOfOrderMessage P := { mid := msg.mid, env := msg.payload }
  if ccc.clientReady && (ch.options.outOfOrder || msg.mid == ch.midRecv) then
    let ccc := { ccc with clientReady := false }.gscSendToClient msg.payload
    let ch := ch.setClient isOwner ccc
    { ch with
      midRecv := ch.midRecv + 1
      midFutures := ch.midFutures >>> 1 }.sendChannelDataAck keyOk
  else if ch.options.reliable then
    match ch.markFutures msg.mid with
    | none => ch.sendChannelDataAck keyOk
    | some futures =>
        let ch := ch.setClient isOwner (insertSorted ccc com)
        { ch with midFutures := futures }.sendChannelDataAck keyOk
  else
    (ch.setClient isOwner (insertSorted (ch.dropOldest ccc) com)).sendChannelDataAck keyOk

def gcchHandleChannelPlaintextData (keyOk : Bool) (ch : Channel P)
    (msg : ChannelAppDataMessage P) : Option (Channel P) :=
  if ch.isLoopback then none
  else if ch.destroy && ch.owner.isNone && ch.dest.isNone then
    some { ch with destroySent := true }
  else
    ch.receiver.map fun ccc => ch.receiveData keyOk ch.owner.isSome ccc msg

def retryTransmission (keyOk : Bool) (ch : Channel P) : Option (Channel P) :=
  match ch.headSent with
  | [] => none
  | crm :: rest =>
      if crm.qe then none
      else
        some { ch with
          headSent := { crm with qe := keyOk } :: rest
          retryDataTask := none }

def decrementPending (ch : Channel P) : Channel P :=
  { ch with pendingMessages := (ch.pendingMessages + 2 ^ 32 - 1) % 2 ^ 32 }

def handleMatchingAck (ch : Channel P) : Option (Channel P) :=
  let ch := ch.decrementPending
  if ch.pendingMessages < ch.maxPendingMessages then
    ch.sendAckToClient ch.owner.isSome
  else none

def ackRound (ack : ChannelDataAckMessage) (ch : Channel P)
    (crm : ReliableMessage P) : Option (Channel P) :=
  if ack.covers ch.maxPendingMessages crm.dataMessage.mid then
    ch.handleMatchingAck
  else some { ch with headSent := ch.headSent ++ [crm] }

def retryAt (ch : Channel P) (otherwise : Option Nat) : Option Nat :=
  match ch.headSent with
  | [] => otherwise
  | crm :: _ => if crm.qe then otherwise else some crm.nextRetry

def gcchHandleChannelPlaintextDataAck (ch : Channel P)
    (ack : ChannelDataAckMessage) : Option (Channel P) :=
  if ch.options.reliable then
    let found := ch.headSent.any fun crm =>
      ack.covers ch.maxPendingMessages crm.dataMessage.mid
    (ch.headSent.foldlM (ackRound ack) { ch with headSent := [] }).map fun ch =>
      if found then { ch with retryDataTask := ch.retryAt none } else ch
  else some ch

/-- The next value of `retry_delay`; `cid` is the connection that the message
took, if any, by its aged latency, if it is still known. -/
def nextRetryDelay (ch : Channel P) (cid : Option (Option Nat)) (retryDelay : Nat) : Nat :=
  let initial := match retryDelay, cid with
    | 0, some latency => latency.getD ch.retryTime
    | delay, _ => delay
  max (timeStdBackoff initial) minRttDelay

def dataSentCb (now : Nat) (cid : Option (Option Nat)) (ch : Channel P)
    (i : Nat) : Option (Channel P) :=
  match ch.headSent[i]? with
  | none => none
  | some crm =>
      if ch.isLoopback || !crm.qe then none
      else
        let rest := ch.headSent.eraseIdx i
        if ch.options.reliable then
          let retryDelay := ch.nextRetryDelay cid crm.retryDelay
          let crm :=
            { crm with
              qe := false
              retryDelay := retryDelay
              nextRetry := timeRelativeToAbsolute now retryDelay }
          let ch := { ch with headSent := rest.orderedInsert cmpCrmByNextRetry crm }
          some { ch with retryDataTask := ch.retryAt ch.retryDataTask }
        else
          let ch := { ch with headSent := rest }.decrementPending
          ch.sendAckToClient ch.owner.isSome

def clientByCcn (ch : Channel P) (ccn : Nat) : Option (Bool × ChannelClient P) :=
  match ch.owner.filter (fun ccc => ccc.ccn == ccn) with
  | some ccc => some (true, ccc)
  | none => (ch.dest.filter (fun ccc => ccc.ccn == ccn)).map fun ccc => (false, ccc)

def loopbackData (ch : Channel P) (senderCcn : Nat) (buf : P) : Option (Bool × Channel P) :=
  match ch.clientByCcn senderCcn with
  | none => some (false, ch)
  | some (ackToOwner, _) =>
      match ch.client (!ackToOwner) with
      | none => none
      | some receiver =>
          if receiver.clientReady then
            let ch := ch.decrementPending
            let ch := ch.setClient (!ackToOwner) (receiver.gscSendToClient buf)
            (ch.sendAckToClient ackToOwner).map fun ch => (true, ch)
          else
            let oom : OutOfOrderMessage P := { mid := 0, env := buf }
            some (true, ch.setClient (!ackToOwner)
              { receiver with headRecv := receiver.headRecv ++ [oom] })

/-- `GCCH_handle_local_data`; the flag is false for `GNUNET_SYSERR`. -/
def gcchHandleLocalData (keyOk : Bool) (ch : Channel P) (senderCcn : Nat)
    (buf : P) : Option (Bool × Channel P) :=
  if ch.maxPendingMessages < ch.pendingMessages then some (false, ch)
  else if ch.destroy then some (true, ch)
  else
    let ch := { ch with pendingMessages := (ch.pendingMessages + 1) % 2 ^ 32 }
    if ch.isLoopback then ch.loopbackData senderCcn buf
    else
      let midSend := ch.midSend + 1
      let crm : ReliableMessage P :=
        { qe := keyOk
          dataMessage := { mid := midSend, payload := buf }
          nextRetry := 0
          retryDelay := 0 }
      some (true, { ch with
        midSend := midSend
        headSent := ch.headSent ++ [crm]
        retryDataTask := none })

def loopbackAck (ch : Channel P) (isOwner : Bool) (ccc : ChannelClient P)
    (com : OutOfOrderMessage P) (rest : List (OutOfOrderMessage P)) : Option (Channel P) :=
  let ccc := { ccc with headRecv := rest }.gscSendToClient com.env
  let ch := ch.setClient isOwner ccc
  match ch.owner with
  | none => none
  | some owner =>
      if ccc.ccn == owner.ccn then ch.sendAckToClient false
      else if ch.dest.any (fun dest => dest.ccn == ccc.ccn) then
        ch.sendAckToClient true
      else none

def passNext (keyOk : Bool) (ch : Channel P) (isOwner : Bool)
    (ccc : ChannelClient P) (com : OutOfOrderMessage P)
    (rest : List (OutOfOrderMessage P)) : Channel P :=
  let ccc :=
    { ccc with headRecv := rest, clientReady := false }.gscSendToClient com.env
  let ch := ch.setClient isOwner ccc
  let ch :=
    { ch with
      midRecv := com.mid + 1
      midFutures := ch.midFutures >>> 1 }.sendChannelDataAck keyOk
  if rest.isEmpty && ch.destroy then
    { ch with destroySent := true, freed := true }
  else ch

def gcchHandleLocalAck (keyOk : Bool) (ch : Channel P) (clientCcn : Nat) : Option (Channel P) :=
  match ch.clientByCcn clientCcn with
  | none => none
  | some (isOwner, ccc) =>
      let ccc := { ccc with clientReady := true }
      match ccc.headRecv with
      | [] => some (ch.setClient isOwner ccc)
      | com :: rest =>
          if ch.isLoopback then ch.loopbackAck isOwner ccc com rest
          else if com.mid != ch.midRecv && !ch.options.outOfOrder &&
              ch.options.reliable then
            some (ch.setClient isOwner ccc)
          else some (ch.passNext keyOk isOwner ccc com rest)

end Channel

end Gnunet.Cadet
