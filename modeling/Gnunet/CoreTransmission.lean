import Gnunet.GuardedRun

/-!
# The transmission queue of a core session

A session has a queue of messages that are ready for encryption and a list of
requests of clients that want to send.  `try_transmission` either asks clients for
more messages or passes the first messages of the queue, as one plaintext, to the
key exchange.  Asking a client may drop its request, and dropping a request tries
a transmission again, so that the two functions call each other.
-/

namespace Gnunet.Core

namespace Priority

def background : Nat := 0

def bestEffort : Nat := 1

def criticalControl : Nat := 3

end Priority

open Priority

def maxEncryptedMessageSize : Nat := 63 * 1024

def maxEncryptedMessageQueueSize : Nat := 4

def maxCorkDelay : Nat := 1000000

def foreverAbs : Nat := 2 ^ 64 - 1

/-- Who queued a message: `GSC_SESSIONS_transmit`, or one of the two places that set
`is_typemap` and `is_typemap_confirm`. -/
inductive EntryKind where
  | client
  | typemap
  | typemapConfirm
  deriving DecidableEq

/-- `struct SessionMessageEntry`; `id` numbers the messages in the order they are queued. -/
structure SessionMessageEntry where
  id : Nat
  priority : Nat
  kind : EntryKind
  deadline : Nat
  payload : List UInt8

def SessionMessageEntry.size (entry : SessionMessageEntry) : Nat :=
  entry.payload.length

/-- `struct GSC_ClientActiveRequest`; `registered` says whether it is still in the map of
requests of its client. -/
structure ClientActiveRequest where
  client : Nat
  msize : Nat
  priority : Nat
  wasSolicited : Bool
  registered : Bool

structure PlaintextBuffer where
  bytes : List UInt8
  entries : List SessionMessageEntry

/-- What a call of `try_transmission` finds outside of the session. -/
structure Link where
  queueLength : Nat
  excess : Bool
  now : Nat
  /-- Is the neighbour in the `connectmap` of the client? -/
  knows : Nat → Bool

inductive Abort where
  | tryTransmission
  | rejectRequest
  | outOfFuel
  deriving DecidableEq

/-- `struct Session`, with what was queued and passed on so far. -/
structure TransmissionSession where
  requests : List ClientActiveRequest
  queue : List SessionMessageEntry
  readyToTransmit : Bool
  corkTask : Option Nat
  queued : List SessionMessageEntry
  plaintexts : List PlaintextBuffer
  refreshes : List (List UInt8)

namespace TransmissionSession

def start : TransmissionSession :=
  ⟨[], [], false, none, [], [], []⟩

def collect : List SessionMessageEntry → Nat → Nat → Nat → Option (Nat × Nat × Nat)
  | [], msize, maxp, minDeadline => some (msize, maxp, minDeadline)
  | pos :: rest, msize, maxp, minDeadline =>
    if msize + pos.size ≤ maxEncryptedMessageSize then
      if pos.size < maxEncryptedMessageSize then
        collect rest (msize + pos.size) (max maxp pos.priority) (min minDeadline pos.deadline)
      else none
    else some (msize, maxp, minDeadline)

def extract (msize : Nat) : List UInt8 → List SessionMessageEntry →
      List UInt8 × List SessionMessageEntry × List SessionMessageEntry
  | pbuf, [] => (pbuf, [], [])
  | pbuf, pos :: rest =>
    if pbuf.length + pos.size ≤ msize then
      let (pbuf, batch, rest) := extract msize (pbuf ++ pos.payload) rest
      (pbuf, pos :: batch, rest)
    else (pbuf, [], pos :: rest)

def transmitBatch (s : TransmissionSession) (msize : Nat) : TransmissionSession :=
  let (pbuf, batch, rest) := extract msize [] s.queue
  { s with
    queue := rest
    readyToTransmit := false
    plaintexts := s.plaintexts ++ [⟨pbuf, batch⟩] }

def maxUnsolicited (requests : List ClientActiveRequest) (base : Nat) : Nat :=
  requests.foldl (fun maxpc car => if car.wasSolicited then maxpc else max maxpc car.priority) base

def nextToSolicit (pmax : Nat) : Nat → List ClientActiveRequest → Option ClientActiveRequest
  | _, [] => none
  | soSize, car :: rest =>
    if car.priority < pmax then nextToSolicit pmax soSize rest
    else if maxEncryptedMessageSize < soSize + car.msize then none
    else if car.wasSolicited then nextToSolicit pmax (soSize + car.msize) rest
    else some car

def markSolicited (s : TransmissionSession) (client : Nat) : TransmissionSession :=
  { s with requests := s.requests.map fun car =>
      if car.client = client then { car with wasSolicited := true } else car }

def removeRequest (s : TransmissionSession) (client : Nat) : TransmissionSession :=
  { s with requests := s.requests.filter fun car => car.client ≠ client }

def tryTransmissionWith (solicit : Nat → TransmissionSession → Except Abort TransmissionSession)
    (link : Link) (s : TransmissionSession) : Except Abort TransmissionSession :=
  if s.readyToTransmit = false then .ok s
  else if maxEncryptedMessageQueueSize ≤ link.queueLength then .ok s
  else
    let base := if link.excess then background else bestEffort
    match collect s.queue 0 base foreverAbs with
    | none => .error .tryTransmission
    | some (msize, maxp, minDeadline) =>
      let critical := criticalControl ≤ maxp
      let excess := if critical then false else link.excess
      let maxpc := if critical then background else maxUnsolicited s.requests base
      if ¬ critical ∧ maxp < maxpc then solicit 0 s
      else if (excess = true ∨ bestEffort ≤ maxpc) ∧
          (msize = 0 ∨ (msize < maxEncryptedMessageSize / 2 ∧ link.now < minDeadline)) then
        (solicit msize s).map fun s =>
          if 0 < msize then { s with corkTask := some minDeadline } else s
      else .ok (s.transmitBatch msize)

/-- The loop of `solicit_messages`.  A client that no longer knows the neighbour has its
request dequeued, which tries a transmission, and rejected, which asserts that the client
still has it. -/
def solicitLoop (link : Nat → Link) :
    Nat → Nat → Nat → TransmissionSession → Except Abort TransmissionSession
  | 0, pmax, msize, s =>
    match nextToSolicit pmax msize s.requests with
    | none => .ok s
    | some _ => .error .outOfFuel
  | fuel + 1, pmax, msize, s =>
    match nextToSolicit pmax msize s.requests with
    | none => .ok s
    | some car =>
      let s := s.markSolicited car.client
      if (link fuel).knows car.client then solicitLoop link fuel pmax msize s
      else
        match tryTransmissionWith
            (fun msize s => solicitLoop link fuel (maxUnsolicited s.requests background) msize s)
            (link fuel) (s.removeRequest car.client) with
        | .error abort => .error abort
        | .ok s =>
          if car.registered then solicitLoop link fuel pmax msize s
          else .error .rejectRequest

def unsolicited (s : TransmissionSession) : Nat :=
  s.requests.countP fun car => ¬ car.wasSolicited

def tryTransmission (link : Nat → Link) (s : TransmissionSession) :
    Except Abort TransmissionSession :=
  tryTransmissionWith
    (fun msize s => solicitLoop link s.unsolicited (maxUnsolicited s.requests background) msize s)
    (link s.unsolicited) s

/-- The position `GSC_SESSIONS_transmit` searches: before the first message of lower priority. -/
def insertByPriority (sme : SessionMessageEntry) :
    List SessionMessageEntry → List SessionMessageEntry
  | [] => [sme]
  | pos :: rest =>
    if sme.priority ≤ pos.priority then pos :: insertByPriority sme rest else sme :: pos :: rest

def enqueue (s : TransmissionSession) (priority deadline : Nat) (msg : List UInt8) :
    TransmissionSession :=
  let sme : SessionMessageEntry := ⟨s.queued.length, priority, .client, deadline, msg⟩
  { s with queue := insertByPriority sme s.queue, queued := s.queued ++ [sme] }

/-- `do_restart_typemap_message` and `GSC_SESSIONS_set_typemap` replace the message of their
kind at the head of the queue. -/
def replaceControl (s : TransmissionSession) (kind : EntryKind) (deadline : Nat)
    (msg : List UInt8) : TransmissionSession :=
  let sme : SessionMessageEntry :=
    ⟨s.queued.length, criticalControl, kind, deadline, msg⟩
  { s with
    queue := sme :: s.queue.eraseP fun pos => pos.kind = kind
    queued := s.queued ++ [sme] }

def dequeueRequest (link : Nat → Link) (s : TransmissionSession) (client : Nat) :
    Except Abort TransmissionSession :=
  (s.removeRequest client).tryTransmission link

def dropRequest (link : Nat → Link) (s : TransmissionSession) (client : Nat) :
    Except Abort TransmissionSession :=
  if s.requests.any (fun car => car.client = client) then s.dequeueRequest link client else .ok s

/-- `GSC_SESSIONS_queue_request`; a request that is too large is rejected with its client. -/
def queueRequest (link : Nat → Link) (s : TransmissionSession) (car : ClientActiveRequest) :
    Except Abort TransmissionSession :=
  if maxEncryptedMessageSize < car.msize then .ok s
  else ({ s with requests := s.requests ++ [car] } : TransmissionSession).tryTransmission link

def handleClientSendRequest (link : Nat → Nat → Link) (s : TransmissionSession)
    (client msize priority : Nat) : Except Abort TransmissionSession :=
  if (link 0 0).knows client = false then .ok s
  else s.dropRequest (link 0) client >>= fun s =>
    s.queueRequest (link 1) ⟨client, msize, priority, false, true⟩

def transmitAll (link : Nat → Nat → Link) (priority : Nat) (cork : Bool) :
    Nat → List (List UInt8) → TransmissionSession → Except Abort TransmissionSession
  | _, [], s => .ok s
  | call, msg :: msgs, s => do
    let deadline := if cork then (link call 0).now + maxCorkDelay else 0
    let s ← (s.enqueue priority deadline msg).tryTransmission (link call)
    transmitAll link priority cork (call + 1) msgs s

/-- `handle_client_send`: without a request the message is discarded. -/
def handleClientSend (link : Nat → Nat → Link) (s : TransmissionSession)
    (client priority : Nat) (cork : Bool) (msgs : List (List UInt8)) :
    Except Abort TransmissionSession :=
  if s.requests.any (fun car => car.client = client) then do
    let s : TransmissionSession := { s with requests := s.requests.map fun car =>
        if car.client = client then { car with registered := false } else car }
    let s ← transmitAll link priority cork 0 msgs s
    s.dequeueRequest (link msgs.length) client
  else .ok s

inductive Event where
  | sendRequest (client msize priority : Nat)
  | send (client priority : Nat) (cork : Bool) (msgs : List (List UInt8))
  | clientDisconnect (client : Nat)
  | broadcastTypemap (hdr : List UInt8)
  | setTypemap (confirmation : List UInt8)
  | typemapTask (hdr : List UInt8)
  | solicit
  | popCork
  | restart

def step (s : TransmissionSession) (input : (Nat → Nat → Link) × Event) :
    Except Abort TransmissionSession :=
  let link := input.1
  match input.2 with
  | .sendRequest client msize priority => s.handleClientSendRequest link client msize priority
  | .send client priority cork msgs => s.handleClientSend link client priority cork msgs
  | .clientDisconnect client => s.dropRequest (link 0) client
  | .broadcastTypemap hdr => (s.replaceControl .typemap 0 hdr).tryTransmission (link 0)
  | .setTypemap confirmation =>
    (s.replaceControl .typemapConfirm (link 0 0).now confirmation).tryTransmission (link 0)
  | .typemapTask hdr => .ok { s with refreshes := s.refreshes ++ [hdr] }
  | .solicit => ({ s with readyToTransmit := true } : TransmissionSession).tryTransmission (link 0)
  | .popCork => ({ s with corkTask := none } : TransmissionSession).tryTransmission (link 0)
  | .restart => .ok { s with requests := [], queue := [], readyToTransmit := false, corkTask := none }

/-- What the tokenizer and the makers of control messages let through: a message has a header,
all messages of one `SEND` fit into it, a type map message has at most 8192 bytes after its
header, and a confirmation is `struct TypeMapConfirmationMessage`. -/
def Allowed (_ : TransmissionSession) (input : (Nat → Nat → Link) × Event) : Prop :=
  match input.2 with
  | .send _ _ _ msgs => (∀ msg ∈ msgs, 4 ≤ msg.length) ∧ (msgs.map List.length).sum ≤ 65535 - 56
  | .broadcastTypemap hdr => 4 < hdr.length ∧ hdr.length ≤ 4 + 8192
  | .typemapTask hdr => 4 < hdr.length ∧ hdr.length ≤ 4 + 8192
  | .setTypemap confirmation => confirmation.length = 72
  | _ => True

instance (s : TransmissionSession) (input : (Nat → Nat → Link) × Event) :
    Decidable (s.Allowed input) := by
  unfold Allowed
  split <;> infer_instance

/-- The condition: no message of a client has exactly the maximal size, and the priority is one
of the enumeration. -/
def Meets (_ : TransmissionSession) (input : (Nat → Nat → Link) × Event) : Prop :=
  match input.2 with
  | .send _ priority _ msgs =>
    priority ≤ criticalControl ∧ ∀ msg ∈ msgs, msg.length ≠ maxEncryptedMessageSize
  | _ => True

instance (s : TransmissionSession) (input : (Nat → Nat → Link) × Event) :
    Decidable (s.Meets input) := by
  unfold Meets
  split <;> infer_instance

def sent (s : TransmissionSession) : List SessionMessageEntry :=
  s.plaintexts.flatMap PlaintextBuffer.entries

/-- Two messages of clients with equal priority are in the order they were queued. -/
def InOrder (a b : SessionMessageEntry) : Prop :=
  a.kind = .client → b.kind = .client → a.priority = b.priority → a.id < b.id

structure Sound (s : TransmissionSession) : Prop where
  /-- A plaintext is the concatenation of messages and has a permitted size. -/
  plaintext : ∀ p ∈ s.plaintexts, p.bytes = p.entries.flatMap SessionMessageEntry.payload ∧
    1 ≤ p.bytes.length ∧ p.bytes.length ≤ maxEncryptedMessageSize
  refresh : ∀ bytes ∈ s.refreshes, 1 ≤ bytes.length ∧ bytes.length ≤ maxEncryptedMessageSize
  /-- The messages are those that were queued, by their numbers. -/
  wasQueued : ∀ entry ∈ s.sent, s.queued[entry.id]? = some entry
  once : (s.sent.map SessionMessageEntry.id).Nodup
  inOrder : s.sent.Pairwise InOrder

/-- A client sends although its request was not solicited and it no longer knows the
neighbour; then `GSC_CLIENTS_reject_request` may find the request gone. -/
def Premature (s : TransmissionSession) (input : (Nat → Nat → Link) × Event) : Prop :=
  match input.2 with
  | .send client _ _ _ =>
    (∃ car ∈ s.requests, car.client = client ∧ car.wasSolicited = false) ∧
      ∃ call fuel, (input.1 call fuel).knows client = false
  | _ => False

end TransmissionSession

end Gnunet.Core
