import Gnunet.InvertibleBloomFilter
import Gnunet.SetElement

/-!
# The union operation

`gnunet-service-set_union.c`.  An operation is driven by the messages of the other
peer; what it sends and what it tells its client are appended to queues.  A strata
estimator is the difference that its receiver computes from it, and every message
that cannot be parsed is `malformed`.  What the operation asks of the set is a
view: the entries of the content in some order, and for each of them whether it
belongs to the operation.  `none` is a failing assertion.
-/

namespace Gnunet.SetService

open Ibf

inductive UnionOperationPhase where
  | expectSe
  | expectIbf
  | expectIbfCont
  | inventoryActive
  | inventoryPassive
  | finishClosing
  | finishWaiting
  | done
  | fullSending
  deriving DecidableEq, Repr

inductive ResultMode where
  | full
  | symmetric
  | removed
  | added
  deriving DecidableEq, Repr

structure KeyEntry where
  element : Element
  received : Bool
  deriving DecidableEq, Repr

structure IBFMessage where
  order : Nat
  offset : Nat
  salt : BitVec 32
  buckets : List Bucket
  /-- Whether the buckets fill the message. -/
  whole : Bool
  deriving DecidableEq, Repr

inductive P2PMessage where
  | strataEstimator (diff : Nat)
  | ibf (msg : IBFMessage)
  | elements (emsg : ElementMessage)
  | fullElement (emsg : ElementMessage)
  | inquiry (salt : BitVec 32) (keys : List (BitVec 64))
  | offer (hashes : List Element)
  | demand (hashes : List Element)
  | done
  | fullDone
  | malformed
  deriving DecidableEq, Repr

/-- The host, and the functions that are not modelled. -/
structure UnionEnv where
  host : ByteOrder
  hashing : Hashing
  getIbfKey : Element → BitVec 64
  /-- Whether the memory suffices for a filter of this size. -/
  allocates : Nat → Bool

structure OperationView where
  elements : List Element
  isElementOfOperation : Element → Option Bool

/-- `struct OperationState`, with the queues of the operation. -/
structure UnionOperation where
  clientRequestId : Nat
  resultMode : ResultMode
  phase : UnionOperationPhase
  keyToElement : List KeyEntry
  demandedHashes : List Element
  remoteIbf : Option InvertibleBloomFilter
  localIbf : Option InvertibleBloomFilter
  ibfBucketsReceived : Nat
  saltSend : BitVec 32
  saltReceive : BitVec 32
  receivedFresh : Nat
  receivedTotal : Nat
  mq : List P2PMessage
  clientMq : List ResultMessage
  /-- The elements behind the messages in `mq`. -/
  transmitted : List Element
  destroyed : Bool
  deriving DecidableEq, Repr

def seIbfHashNum : Nat := 4

def maxBucketsPerMessage : Nat := 2 ^ 15 / 13

def maxIbfOrder : Nat := 20

def ibfAlpha : Nat := 4

def saltKey (key : BitVec 64) (salt : BitVec 32) : BitVec 64 :=
  key.rotateRight (salt.toNat % 64)

def unsaltKey (key : BitVec 64) (salt : BitVec 32) : BitVec 64 :=
  key.rotateLeft (salt.toNat % 64)

/-- `none` if no shift of an `int` is large enough. -/
def getOrderFromDifference (diff : Nat) : Option Nat :=
  let order := (List.range' 2 29).find? fun order =>
    decide (ibfAlpha * diff % 2 ^ 32 ≤ 2 ^ order) && decide (seIbfHashNum ≤ 2 ^ order)
  order.map (min maxIbfOrder)

namespace UnionOperation

variable (env : UnionEnv) (view : OperationView) (op : UnionOperation)

def send (messages : List P2PMessage) : UnionOperation :=
  { op with mq := op.mq ++ messages }

def transmit (elements : List Element) (message : Element → P2PMessage) : UnionOperation :=
  { op with
    mq := op.mq ++ elements.map message
    transmitted := op.transmitted ++ elements }

def sendClient (msg : ResultMessage) : UnionOperation :=
  { op with clientMq := op.clientMq ++ [msg] }

def failUnionOperation : UnionOperation :=
  { op with
    clientMq := op.clientMq ++ [⟨op.clientRequestId, .failure, 0, []⟩]
    destroyed := true }

def sendDoneAndDestroy : UnionOperation :=
  { op with
    clientMq := op.clientMq ++ [⟨op.clientRequestId, .done, 0, []⟩]
    destroyed := true }

def opRegisterElement (element : Element) (received : Bool) : UnionOperation :=
  { op with keyToElement := op.keyToElement ++ [⟨element, received⟩] }

def opGetElement (element : Element) : Option KeyEntry :=
  op.keyToElement.find? fun ke => ke.element = element

def markReceived (element : Element) : List KeyEntry → List KeyEntry
  | [] => []
  | ke :: rest =>
      if ke.element = element then { ke with received := true } :: rest
      else ke :: markReceived element rest

theorem map_element_markReceived :
    (markReceived element entries).map (·.element) = entries.map (·.element) := by
  induction entries with
  | nil => rfl
  | cons ke rest ih =>
    unfold markReceived
    split
    · rfl
    · rw [List.map_cons, ih, List.map_cons]

def initializeKeyToElement : List Element → Option (List KeyEntry)
  | [] => some []
  | element :: rest =>
      (view.isElementOfOperation element).bind fun present =>
        (initializeKeyToElement rest).map fun entries =>
          if present then ⟨element, false⟩ :: entries else entries

def prepareIbf (size : Nat) : Option (Option InvertibleBloomFilter) :=
  (InvertibleBloomFilter.create size seIbfHashNum).bind fun ibf =>
    if env.allocates size then
      (op.keyToElement.foldlM (fun (ibf : InvertibleBloomFilter) ke =>
          ibf.insert env.hashing (saltKey (env.getIbfKey ke.element) op.saltSend))
        ibf).map some
    else some none

def ibfMessages (ibfOrder : Nat) (salt : BitVec 32) (ibf : InvertibleBloomFilter) :
    List P2PMessage :=
  (ibf.buckets.toChunks maxBucketsPerMessage).zipIdx.map fun chunk =>
    .ibf ⟨ibfOrder, chunk.2 * maxBucketsPerMessage, salt, chunk.1, true⟩

def sendIbf (ibfOrder : Nat) : Option UnionOperation :=
  (op.prepareIbf env (2 ^ ibfOrder)).map fun ibf? =>
    match ibf? with
    | none => op.failUnionOperation
    | some ibf =>
        { op with
          localIbf := some ibf
          mq := op.mq ++ ibfMessages ibfOrder op.saltSend ibf
          phase := .inventoryPassive }

def sendFullSet : UnionOperation :=
  (({ op with phase := .fullSending } : UnionOperation).transmit view.elements
    fun element => .fullElement (sendElementIterator env.host element)).send [.fullDone]

def sendOffersForKey (ibfKey : BitVec 64) : UnionOperation :=
  op.send <| (op.keyToElement.filter
    fun ke => env.getIbfKey ke.element == ibfKey).map fun ke => .offer [ke.element]

def retryIbf (size : Nat) : Option UnionOperation :=
  let nextOrder := Nat.clog 2 size + 1
  if nextOrder ≤ maxIbfOrder then
    ({ op with saltSend := op.saltSend + 1 } : UnionOperation).sendIbf env nextOrder
  else some op.failUnionOperation

/-- The loop of `decode_and_send`.  It ends after as many keys as the filter has
buckets, and when a key comes twice in a row. -/
def decodeLoop : Nat → InvertibleBloomFilter → Option (BitVec 64) → UnionOperation →
    Option UnionOperation
  | fuel, diffIbf, lastKey, op =>
      match diffIbf.decode env.hashing with
      | .failed => op.retryIbf env diffIbf.size
      | .empty => some (op.send [.done])
      | .key side key rest =>
          match fuel with
          | 0 => op.retryIbf env diffIbf.size
          | fuel + 1 =>
              if lastKey = some key then op.retryIbf env diffIbf.size
              else if side = 1 then
                decodeLoop fuel rest (some key)
                  (op.sendOffersForKey env (unsaltKey key op.saltReceive))
              else if side = -1 then
                decodeLoop fuel rest (some key) (op.send [.inquiry op.saltReceive [key]])
              else none

def decodeAndSend : Option UnionOperation := do
  let remoteIbf ← op.remoteIbf
  let localIbf? ← op.prepareIbf env remoteIbf.size
  match localIbf? with
  | none => some op.failUnionOperation
  | some localIbf =>
      let diffIbf ← localIbf.subtract remoteIbf
      decodeLoop env diffIbf.size diffIbf none
        { op with localIbf := some localIbf, remoteIbf := none }

/-! ## Messages of the other peer -/

def handleP2pStrataEstimator (diff : Nat) : Option UnionOperation :=
  if op.phase ≠ .expectSe then some op.failUnionOperation
  else if view.elements.length / 2 < diff then some (op.sendFullSet env view)
  else (getOrderFromDifference diff).bind fun order => op.sendIbf env order

def receiveBuckets (msg : IBFMessage) : Option UnionOperation :=
  if msg.buckets = [] ∨ msg.whole = false then some op.failUnionOperation
  else
    op.remoteIbf.bind fun ibf =>
      (ibf.readSlice msg.buckets op.ibfBucketsReceived).bind fun ibf =>
        let op :=
          { op with
            remoteIbf := some ibf
            ibfBucketsReceived := op.ibfBucketsReceived + msg.buckets.length }
        if op.ibfBucketsReceived = ibf.size then
          ({ op with phase := .inventoryActive } : UnionOperation).decodeAndSend env
        else some op

/-- A filter of `2 ^ 31` or more buckets is not a shift of an `int`. -/
def handleP2pIbf (msg : IBFMessage) : Option UnionOperation :=
  if op.phase = .inventoryPassive ∨ op.phase = .expectIbf then
    if op.remoteIbf.isSome ∨ 31 ≤ msg.order then none
    else if env.allocates (2 ^ msg.order) = false ∨ msg.offset ≠ 0 then
      some op.failUnionOperation
    else
      (InvertibleBloomFilter.create (2 ^ msg.order) seIbfHashNum).bind fun ibf =>
        receiveBuckets env { op with
            phase := .expectIbfCont
            remoteIbf := some ibf
            saltReceive := msg.salt
            ibfBucketsReceived := 0 } msg
  else if op.phase = .expectIbfCont then
    if msg.offset ≠ op.ibfBucketsReceived then some op.failUnionOperation
    else if 31 ≤ msg.order then none
    else
      op.remoteIbf.bind fun ibf =>
        if 2 ^ msg.order ≠ ibf.size ∨ msg.salt ≠ op.saltReceive then
          some op.failUnionOperation
        else op.receiveBuckets env msg
  else none

def maybeFinish : UnionOperation :=
  if op.phase = .finishWaiting ∧ op.demandedHashes = [] then
    ({ op with phase := .done } : UnionOperation).send [.done]
  else if op.phase = .finishClosing ∧ op.demandedHashes = [] then
    ({ op with phase := .done } : UnionOperation).sendDoneAndDestroy
  else op

def sendClientAdded (element : Element) : UnionOperation :=
  match op.resultMode with
  | .added =>
      op.sendClient (sendClientElement env.host op.clientRequestId element .ok)
  | .symmetric =>
      op.sendClient (sendClientElement env.host op.clientRequestId element .addLocal)
  | .full | .removed => op

/-- The part that `handle_p2p_elements` and `handle_p2p_full_element` share. -/
def receiveElement (element : Element) : UnionOperation :=
  let op := { op with receivedTotal := (op.receivedTotal + 1) % 2 ^ 32 }
  if (op.opGetElement element).isSome then
    { op with keyToElement := markReceived element op.keyToElement }
  else
    let op := { op with receivedFresh := (op.receivedFresh + 1) % 2 ^ 32 }
    (op.opRegisterElement element true).sendClientAdded env element

def tooManyOld : Prop :=
  8 < op.receivedTotal ∧ op.receivedFresh < op.receivedTotal / 3

instance : Decidable op.tooManyOld :=
  inferInstanceAs (Decidable (_ ∧ _))

def handleP2pElements (emsg : ElementMessage) : UnionOperation :=
  let element := elementOfMessage env.host emsg
  if op.demandedHashes = [] ∨ element ∉ op.demandedHashes then op.failUnionOperation
  else
    let op := { op with demandedHashes := op.demandedHashes.erase element }
    let op := op.receiveElement env element
    if op.tooManyOld then op.failUnionOperation else op.maybeFinish

def handleP2pFullElement (emsg : ElementMessage) : UnionOperation :=
  let op := op.receiveElement env (elementOfMessage env.host emsg)
  if op.tooManyOld then op.failUnionOperation else op

def handleP2pInquiry (salt : BitVec 32) (keys : List (BitVec 64)) : UnionOperation :=
  if op.phase ≠ .inventoryPassive then op.failUnionOperation
  else keys.foldl (fun op key => op.sendOffersForKey env (unsaltKey key salt)) op

def sendMissingElements : UnionOperation :=
  op.transmit ((op.keyToElement.filter fun ke => !ke.received).map (·.element))
    fun element => .fullElement (sendMissingElement env.host element)

def handleP2pFullDone : UnionOperation :=
  if op.phase = .expectIbf then
    { (op.sendMissingElements env).send [.fullDone] with phase := .done }
  else if op.phase = .fullSending then
    ({ op with phase := .done } : UnionOperation).sendDoneAndDestroy
  else op.failUnionOperation

def handleP2pDemand : List Element → UnionOperation → Option UnionOperation
  | [], op => some op
  | hash :: rest, op =>
      if hash ∉ view.elements then some op.failUnionOperation
      else
        (view.isElementOfOperation hash).bind fun present =>
          if present = false then some op.failUnionOperation
          else
            let op := op.transmit [hash] fun element =>
              .elements (sendDemandedElement env.host element)
            handleP2pDemand rest (if op.resultMode = .symmetric then
                op.sendClient (sendClientElement env.host op.clientRequestId hash .addRemote)
              else op)

def demandOffered (hash : Element) : Option UnionOperation :=
  let present? := if hash ∈ view.elements then view.isElementOfOperation hash
    else some false
  present?.map fun present =>
    if present = true ∨ hash ∈ op.demandedHashes then op
    else
      ({ op with demandedHashes := hash :: op.demandedHashes } : UnionOperation).send
        [.demand [hash]]

def handleP2pOffer (hashes : List Element) : Option UnionOperation :=
  if op.phase ≠ .inventoryPassive ∧ op.phase ≠ .inventoryActive then
    some op.failUnionOperation
  else hashes.foldlM (fun op hash => op.demandOffered view hash) op

def handleP2pDone : UnionOperation :=
  if op.phase = .inventoryPassive then
    ({ op with phase := .finishWaiting } : UnionOperation).maybeFinish
  else if op.phase = .inventoryActive then
    ({ op with phase := .finishClosing } : UnionOperation).maybeFinish
  else op.failUnionOperation

/-- Messages for an operation that has been destroyed are lost. -/
def unionHandleP2pMessage (message : P2PMessage) : Option UnionOperation :=
  if op.destroyed then some op
  else
    match message with
    | .strataEstimator diff => op.handleP2pStrataEstimator env view diff
    | .ibf msg => op.handleP2pIbf env msg
    | .elements emsg => some (op.handleP2pElements env emsg)
    | .fullElement emsg => some (op.handleP2pFullElement env emsg)
    | .inquiry salt keys => some (op.handleP2pInquiry env salt keys)
    | .offer hashes => op.handleP2pOffer view hashes
    | .demand hashes => handleP2pDemand env view hashes op
    | .done => some op.handleP2pDone
    | .fullDone => some (op.handleP2pFullDone env)
    | .malformed => some op.failUnionOperation

def unionPeerDisconnect : UnionOperation :=
  if op.destroyed then op
  else if op.phase = .done then op.sendDoneAndDestroy
  else op.failUnionOperation

def initial (clientRequestId : Nat) (resultMode : ResultMode)
    (keyToElement : List KeyEntry) : UnionOperation where
  clientRequestId := clientRequestId
  resultMode := resultMode
  phase := .expectSe
  keyToElement := keyToElement
  demandedHashes := []
  remoteIbf := none
  localIbf := none
  ibfBucketsReceived := 0
  saltSend := 42
  saltReceive := 42
  receivedFresh := 0
  receivedTotal := 0
  mq := []
  clientMq := []
  transmitted := []
  destroyed := false

def unionEvaluate (clientRequestId : Nat) (resultMode : ResultMode) : Option UnionOperation :=
  (initializeKeyToElement view view.elements).map (initial clientRequestId resultMode)

/-- `diff` is what the other peer will compute from the strata estimator. -/
def unionAccept (clientRequestId : Nat) (resultMode : ResultMode) (diff : Nat) :
    Option UnionOperation :=
  (initializeKeyToElement view view.elements).map fun entries =>
    { (initial clientRequestId resultMode entries).send [.strataEstimator diff] with
      phase := .expectIbf }

end UnionOperation

end Gnunet.SetService
