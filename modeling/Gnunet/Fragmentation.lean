import Gnunet.BigEndian
import Gnunet.Common
import Gnunet.WordSet

/-!
# Fragmentation of a message

`fragmentation.c`.  A message is as long as its size field says.  The fragments
that are still to be sent are the bits of a word; when the next fragment is
sent is left to the caller, and so is whether the bandwidth tracker delays it.
A failing assertion is `none`.
-/

namespace Gnunet.Fragmentation

open BigEndian

def sizeofFragmentHeader : Nat := 12

def sizeofFragmentAcknowledgement : Nat := 16

def messageTypeFragment : Nat := 18

def messageTypeFragmentAck : Nat := 19

def payloadSize (mtu : Nat) : Nat :=
  mtu - sizeofFragmentHeader

def numFragments (mtu size : Nat) : Nat :=
  (size + mtu - sizeofFragmentHeader - 1) / payloadSize mtu

structure FragmentContext where
  mtu : Nat
  msg : List UInt8
  fragmentId : UInt32
  acks : BitVec 64
  acksMask : BitVec 64
  task : Bool
  nextTransmission : Nat
  procBusy : Bool
  deriving DecidableEq, Repr

/-- `GNUNET_FRAGMENT_context_create` with the identifier that it chooses. -/
def contextCreate (mtu : Nat) (msg : List UInt8) (fragmentId : UInt32) : Option FragmentContext :=
  if 1024 + sizeofFragmentHeader ≤ mtu ∧ sizeofMessageHeader ≤ msg.length ∧
      numFragments mtu msg.length ≤ 64 then
    some
      { mtu, msg, fragmentId
        acks := WordSet.below 64 (numFragments mtu msg.length)
        acksMask := WordSet.below 64 (numFragments mtu msg.length)
        task := true
        nextTransmission := 0
        procBusy := false }
  else none

def advance (acks : BitVec 64) : Nat → Nat → Option Nat
  | 0, _ => none
  | fuel + 1, next =>
      if WordSet.contains acks next then some next
      else advance acks fuel ((next + 1) % 64)

def fragmentSize (mtu size bit : Nat) : Nat :=
  if bit = size / payloadSize mtu then size % payloadSize mtu + sizeofFragmentHeader
  else mtu

def fragment (mtu : Nat) (msg : List UInt8) (fragmentId : UInt32) (bit : Nat) : List UInt8 :=
  let fsize := fragmentSize mtu msg.length bit
  encode 2 fsize ++ (encode 2 messageTypeFragment ++ (encode 4 fragmentId.toNat ++
    (encode 2 msg.length ++ (encode 2 (payloadSize mtu * bit) ++
      (msg.drop (bit * payloadSize mtu)).take (fsize - sizeofFragmentHeader)))))

def transmitNext (fc : FragmentContext) (delayed : Bool) :
    Option (FragmentContext × Option (List UInt8)) :=
  if fc.procBusy then none
  else if fc.acks = 0 then some ({ fc with task := false }, none)
  else
    (advance fc.acks 64 fc.nextTransmission).bind fun bit =>
      if delayed then some ({ fc with task := true, nextTransmission := bit }, none)
      else
        (advance fc.acks 64 ((bit + 1) % 64)).map fun next =>
          ({ fc with task := false, nextTransmission := next, procBusy := true },
            some (fragment fc.mtu fc.msg fc.fragmentId bit))

def contextTransmissionDone (fc : FragmentContext) : Option FragmentContext :=
  if fc.procBusy = true ∧ fc.task = false then
    some { fc with procBusy := false, task := true }
  else none

def acknowledgement (fragmentId : UInt32) (bits : BitVec 64) : List UInt8 :=
  encode 2 sizeofFragmentAcknowledgement ++ (encode 2 messageTypeFragmentAck ++
    (encode 4 fragmentId.toNat ++ encode 8 bits.toNat))

def processAck (fc : FragmentContext) (msg : List UInt8) : Option (Result × FragmentContext) :=
  if msg.length ≠ sizeofFragmentAcknowledgement then some (.syserr, fc)
  else if field msg 4 4 ≠ fc.fragmentId.toNat then some (.syserr, fc)
  else
    let fc := { fc with acks := BitVec.ofNat 64 (field msg 8 8) &&& fc.acksMask }
    if fc.acks ≠ 0 then
      if fc.task ∨ fc.procBusy then some (.no, fc) else none
    else some (.ok, { fc with task := false })

end Gnunet.Fragmentation
