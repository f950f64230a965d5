import Mathlib.Tactic

/-!
# Elements in messages

The 16 bit type of an element crosses every message of the set service as two
bytes: from a client to its service, between services in three places of the
union protocol, and back to a client.  A field of a message is here the number
that its bytes are in network byte order; `store` and `load` are the accesses
of a host to it.  The data of an element fits into a message.
-/

namespace Gnunet.SetService

inductive ByteOrder where
  | little
  | big
  deriving DecidableEq, Repr

def byteSwap16 (x : BitVec 16) : BitVec 16 :=
  x.extractLsb' 0 8 ++ x.extractLsb' 8 8

def byteSwap32 (x : BitVec 32) : BitVec 32 :=
  x.extractLsb' 0 8 ++ x.extractLsb' 8 8 ++ x.extractLsb' 16 8 ++ x.extractLsb' 24 8

namespace ByteOrder

def htons : ByteOrder → BitVec 16 → BitVec 16
  | little, x => byteSwap16 x
  | big, x => x

def ntohs : ByteOrder → BitVec 16 → BitVec 16
  | little, x => byteSwap16 x
  | big, x => x

def htonl : ByteOrder → BitVec 32 → BitVec 32
  | little, x => byteSwap32 x
  | big, x => x

/-- The bytes of the field after the host has assigned `x` to it. -/
def store : ByteOrder → BitVec 16 → BitVec 16
  | little, x => byteSwap16 x
  | big, x => x

def load : ByteOrder → BitVec 16 → BitVec 16
  | little, bytes => byteSwap16 bytes
  | big, bytes => bytes

end ByteOrder

@[ext] structure Element where
  elementType : BitVec 16
  data : List (BitVec 8)
  deriving DecidableEq, Repr

structure ElementMessage where
  elementType : BitVec 16
  data : List (BitVec 8)
  deriving DecidableEq, Repr

inductive SetStatus where
  | ok
  | failure
  | done
  | addLocal
  | addRemote
  deriving DecidableEq, Repr

structure ResultMessage where
  requestId : Nat
  resultStatus : SetStatus
  elementType : BitVec 16
  data : List (BitVec 8)
  deriving DecidableEq, Repr

def addElement (host : ByteOrder) (element : Element) : ElementMessage where
  elementType := host.store (host.htons element.elementType)
  data := element.data

def elementOfMessage (host : ByteOrder) (emsg : ElementMessage) : Element where
  elementType := host.ntohs (host.load emsg.elementType)
  data := emsg.data

/-- The type is converted as if it had 32 bits. -/
def sendElementIterator (host : ByteOrder) (el : Element) : ElementMessage where
  elementType := host.store ((host.htonl (el.elementType.setWidth 32)).setWidth 16)
  data := el.data

def sendMissingElement (host : ByteOrder) (element : Element) : ElementMessage where
  elementType := host.store (host.htons element.elementType)
  data := element.data

def sendDemandedElement (host : ByteOrder) (element : Element) : ElementMessage where
  elementType := host.store (host.htons element.elementType)
  data := element.data

/-- `send_client_element` of the union operation: the type is not converted. -/
def sendClientElement (host : ByteOrder) (requestId : Nat) (element : Element)
    (status : SetStatus) : ResultMessage where
  requestId := requestId
  resultStatus := status
  elementType := host.store element.elementType
  data := element.data

/-- `handle_result` of the client library: an element, or nothing for a final
status. -/
def handleResult (host : ByteOrder) (msg : ResultMessage) : Option Element :=
  match msg.resultStatus with
  | .ok | .addLocal | .addRemote =>
      some ⟨host.ntohs (host.load msg.elementType), msg.data⟩
  | .failure | .done => none

/-! ## There and back -/

theorem byteSwap16_byteSwap16 (x : BitVec 16) : byteSwap16 (byteSwap16 x) = x := by
  unfold byteSwap16
  apply BitVec.eq_of_getLsbD_eq
  intro i hi
  grind

theorem setWidth_byteSwap32 (x : BitVec 16) : (byteSwap32 (x.setWidth 32)).setWidth 16 = 0 := by
  unfold byteSwap32
  apply BitVec.eq_of_getLsbD_eq
  intro i hi
  simp only [BitVec.getLsbD_append, BitVec.getLsbD_extractLsb', BitVec.getLsbD_setWidth,
    BitVec.ofNat_eq_ofNat, BitVec.getLsbD_zero]
  grind

namespace ByteOrder

variable (host : ByteOrder) (x : BitVec 16)

@[simp] theorem store_htons : host.store (host.htons x) = x := by
  cases host with
  | little => exact byteSwap16_byteSwap16 x
  | big => rfl

@[simp] theorem ntohs_load : host.ntohs (host.load x) = x := by
  cases host with
  | little => exact byteSwap16_byteSwap16 x
  | big => rfl

/-- Types that read the same in both byte orders. -/
def Palindromic : ByteOrder → BitVec 16 → Prop
  | little, x => byteSwap16 x = x
  | big, _ => True

/-- Types that survive the conversion of a longer number. -/
def Short : ByteOrder → BitVec 16 → Prop
  | little, x => x = 0
  | big, _ => True

instance : Decidable (host.Palindromic x) := by
  cases host <;> unfold Palindromic <;> infer_instance

instance : Decidable (host.Short x) := by
  cases host <;> unfold Short <;> infer_instance

variable {host x}

theorem store_eq_iff : host.store x = x ↔ host.Palindromic x := by
  cases host with
  | little => exact Iff.rfl
  | big => exact iff_of_true rfl trivial

theorem store_htonl_eq_iff :
    host.store ((host.htonl (x.setWidth 32)).setWidth 16) = x ↔ host.Short x := by
  cases host with
  | little =>
    rw [htonl, setWidth_byteSwap32]
    exact eq_comm
  | big => simp [store, htonl, Short]

theorem Short.palindromic (h : host.Short x) : host.Palindromic x := by
  cases host with
  | little =>
    cases h
    decide
  | big => trivial

end ByteOrder

variable {host : ByteOrder} {element : Element}

@[simp] theorem elementOfMessage_addElement :
    elementOfMessage receiver (addElement host element) = element := by
  simp [elementOfMessage, addElement]

@[simp] theorem elementOfMessage_sendMissingElement (receiver : ByteOrder) :
    elementOfMessage receiver (sendMissingElement host element) = element := by
  simp [elementOfMessage, sendMissingElement]

@[simp] theorem elementOfMessage_sendDemandedElement :
    elementOfMessage receiver (sendDemandedElement host element) = element := by
  simp [elementOfMessage, sendDemandedElement]

theorem elementOfMessage_sendElementIterator (receiver : ByteOrder) :
    elementOfMessage receiver (sendElementIterator host element) = element ↔
      host.Short element.elementType := by
  rw [← ByteOrder.store_htonl_eq_iff]
  simp [elementOfMessage, sendElementIterator, Element.ext_iff]

theorem handleResult_sendClientElement (requestId : Nat)
    (hstatus : status = .ok ∨ status = .addLocal ∨ status = .addRemote) :
    handleResult host (sendClientElement host requestId element status) = some element ↔
      host.Palindromic element.elementType := by
  rw [← ByteOrder.store_eq_iff]
  rcases hstatus with rfl | rfl | rfl <;>
    simp [handleResult, sendClientElement, Element.ext_iff]

inductive TransmissionPath where
  | elements
  | fullSet
  | missingElements
  deriving DecidableEq, Repr

namespace TransmissionPath

def send (path : TransmissionPath) (host : ByteOrder) (element : Element) : ElementMessage :=
  match path with
  | elements => sendDemandedElement host element
  | fullSet => sendElementIterator host element
  | missingElements => sendMissingElement host element

def Carries (path : TransmissionPath) (host : ByteOrder) (element : Element) : Prop :=
  match path with
  | elements | missingElements => host.Palindromic element.elementType
  | fullSet => host.Short element.elementType

end TransmissionPath

/-- From one client to the other, between two little-endian hosts: the services and the client have
the same element exactly if its type survives the conversions on the path. -/
theorem element_delivered_intact_iff (path : TransmissionPath) (element : Element)
    (requestId : Nat) (status : SetStatus)
    (hstatus : status = .ok ∨ status = .addLocal ∨ status = .addRemote) :
    let stored := elementOfMessage .little (addElement .little element)
    let received := elementOfMessage .little (path.send .little stored)
    (received = element ∧
        handleResult .little (sendClientElement .little requestId received status) =
          some element) ↔ path.Carries .little element := by
  dsimp only
  rw [elementOfMessage_addElement]
  cases path with
  | elements | missingElements =>
    simp [TransmissionPath.send, handleResult_sendClientElement requestId hstatus,
      TransmissionPath.Carries]
  | fullSet =>
    refine Iff.trans (and_iff_left_of_imp fun hreceived => ?_) (elementOfMessage_sendElementIterator _)
    rw [hreceived, handleResult_sendClientElement requestId hstatus]
    exact ((elementOfMessage_sendElementIterator _).mp hreceived).palindromic

theorem element_delivered_intact_palindromic :
    let element : Element := ⟨257, [1, 2]⟩
    let received := elementOfMessage .little
      (TransmissionPath.elements.send .little
        (elementOfMessage .little (addElement .little element)))
    received = element ∧
      handleResult .little (sendClientElement .little 5 received .ok) = some element := by
  have hpalindromic : ByteOrder.little.Palindromic 257 := by decide
  exact (element_delivered_intact_iff .elements ⟨257, [1, 2]⟩ 5 .ok (.inl rfl)).mpr hpalindromic

/-- With type 1 the full set arrives with type 0, and on the other ways the
client is told type 256. -/
theorem element_type_mangled :
    elementOfMessage .little (TransmissionPath.fullSet.send .little ⟨1, [7]⟩) =
        ⟨0, [7]⟩ ∧
      ∀ path ∈ [TransmissionPath.elements, TransmissionPath.missingElements],
        handleResult .little (sendClientElement .little 5
            (elementOfMessage .little (path.send .little ⟨1, [7]⟩)) .ok) =
          some ⟨256, [7]⟩ := by
  decide

end Gnunet.SetService
