import Gnunet.CadetChannel
import Gnunet.GuardedRun

/-!
# The two ends of a CADET channel and the tunnel between them

Both ends send and receive.  A data message and a `DATA_ACK` that the tunnel has
transmitted may arrive at the other end at any later time and any number of times.
Data messages are numbered from 0 by the order in which their payloads were
accepted, so that the message `n` has the identifier `n + 1`, wrapped to 32 bits.
-/

namespace Gnunet.Cadet

open Protocol

variable {P : Type}

/-- The end that opened the channel and the end with the port. -/
inductive Side where
  | owner
  | dest
  deriving DecidableEq, Repr

def Side.other : Side → Side
  | .owner => .dest
  | .dest => .owner

@[simp] theorem Side.other_other (p : Side) : p.other.other = p := by
  cases p <;> rfl

@[simp] theorem Side.other_ne (p : Side) : p.other ≠ p := by
  cases p <;> simp [Side.other]

theorem Side.eq_or_eq_other (p q : Side) : q = p ∨ q = p.other := by
  cases p <;> cases q <;> simp [Side.other]

def Channel.handed (ch : Channel P) : List P :=
  (ch.receiver.map ChannelClient.localData).getD []

def Channel.queue (ch : Channel P) : List (OutOfOrderMessage P) :=
  (ch.receiver.map ChannelClient.headRecv).getD []

def Channel.ccn (ch : Channel P) : Nat :=
  (ch.receiver.map ChannelClient.ccn).getD 0

/-- Both ends of a channel, with logs for each side: the payloads it accepted,
the data messages and the `DATA_ACK`s that its tunnel transmitted, each of the
latter with the number of payloads handed over so far, and the numbers of the
messages that arrived and were handed over or queued. -/
structure Link (P : Type) where
  channel : Side → Channel P
  sent : Side → List P
  transmitted : Side → List (ChannelAppDataMessage P)
  acks : Side → List (Nat × ChannelDataAckMessage)
  kept : Side → List Nat

inductive LinkEvent (P : Type) where
  | localData (keyOk : Bool) (buf : P)
  | localAck (keyOk : Bool)
  | retryTransmission (keyOk : Bool)
  | dataSent (i now : Nat) (latency : Option Nat)
  | ackSent
  | dataArrives (keyOk : Bool) (n : Nat)
  | ackArrives (i : Nat)

def midOf (n : Nat) : BitVec 32 :=
  BitVec.ofNat 32 (n + 1)

def messageOf (sent : List P) (n : Nat) : Option (ChannelAppDataMessage P) :=
  sent[n]?.map fun payload => { mid := midOf n, payload := payload }

namespace Link

def opened (options : ChannelOptions) (ownerCcn destCcn : Nat) : Option (Link P) :=
  ((Channel.gcchChannelIncomingNew options).gcchBind destCcn).map fun dest =>
    { channel := fun
        | .owner => Channel.gcchChannelLocalNew options ownerCcn
        | .dest => dest
      sent := fun _ => []
      transmitted := fun _ => []
      acks := fun _ => []
      kept := fun _ => [] }

def setChannel (link : Link P) (p : Side) (ch : Channel P) : Link P :=
  { link with channel := Function.update link.channel p ch }

def localData (link : Link P) (p : Side) (keyOk : Bool) (buf : P) : Option (Link P) :=
  let ch := link.channel p
  match ch.gcchHandleLocalData keyOk ch.ccn buf with
  | some (true, ch) =>
      some { link.setChannel p ch with
        sent := Function.update link.sent p (link.sent p ++ [buf]) }
  | _ => none

def dataSent (link : Link P) (p : Side) (i now : Nat) (latency : Option Nat) :
    Option (Link P) := do
  let crm ← (link.channel p).headSent[i]?
  let ch ← (link.channel p).dataSentCb now (some latency) i
  some { link.setChannel p ch with
    transmitted := Function.update link.transmitted p
      (link.transmitted p ++ [crm.dataMessage]) }

def ackSent (link : Link P) (p : Side) : Option (Link P) := do
  let ack ← (link.channel p).lastControlQe
  let ch ← (link.channel p).sendAckCb
  some { link.setChannel p ch with
    acks := Function.update link.acks p
      (link.acks p ++ [((link.channel p).handed.length, ack)]) }

/-- A message that arrived was kept if the payloads handed over and queued
became more. -/
def keeps (before after : Channel P) : Bool :=
  decide (before.handed.length + before.queue.length < after.handed.length + after.queue.length)

def dataArrives [DecidableEq P] (link : Link P) (p : Side) (keyOk : Bool)
    (n : Nat) : Option (Link P) := do
  let msg ← messageOf (link.sent p.other) n
  if msg ∈ link.transmitted p.other then
    let ch ← (link.channel p).gcchHandleChannelPlaintextData keyOk msg
    some { link.setChannel p ch with
      kept := if keeps (link.channel p) ch then
          Function.update link.kept p (link.kept p ++ [n])
        else link.kept }
  else none

def step [DecidableEq P] (link : Link P) : Side × LinkEvent P → Option (Link P)
  | (p, .localData keyOk buf) => link.localData p keyOk buf
  | (p, .localAck keyOk) =>
      ((link.channel p).gcchHandleLocalAck keyOk (link.channel p).ccn).map (link.setChannel p)
  | (p, .retryTransmission keyOk) =>
      if (link.channel p).retryDataTask.isSome then
        ((link.channel p).retryTransmission keyOk).map (link.setChannel p)
      else none
  | (p, .dataSent i now latency) => link.dataSent p i now latency
  | (p, .ackSent) => link.ackSent p
  | (p, .dataArrives keyOk n) => link.dataArrives p keyOk n
  | (p, .ackArrives i) => do
      let (_, ack) ← (link.acks p.other)[i]?
      ((link.channel p).gcchHandleChannelPlaintextDataAck ack).map (link.setChannel p)

end Link

end Gnunet.Cadet
