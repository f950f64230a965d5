import Gnunet.WordSet
import Gnunet.GuardedRun

/-!
# Type maps and the clients of the core service

The service counts the listings of each message type and keeps the bits of
its own type map by these counters.  A client is told about a neighbour exactly
while the type map of the neighbour's session matches the types of the client; its
`connectmap` records what it was told.  An assertion that fails is `none`.
-/

namespace Gnunet.Core

open Function

structure TypeMap where
  bits : Nat → BitVec 32

namespace TypeMap

def create : TypeMap :=
  ⟨fun _ => 0#32⟩

def setBit (tmap : TypeMap) (type : UInt16) : TypeMap :=
  ⟨update tmap.bits (type.toNat / 32)
    (WordSet.insert (tmap.bits (type.toNat / 32)) (type.toNat % 32))⟩

def clearBit (tmap : TypeMap) (type : UInt16) : TypeMap :=
  ⟨update tmap.bits (type.toNat / 32)
    (WordSet.clear (tmap.bits (type.toNat / 32)) (type.toNat % 32))⟩

def bit (tmap : TypeMap) (type : UInt16) : Bool :=
  WordSet.contains (tmap.bits (type.toNat / 32)) (type.toNat % 32)

/-- `GSC_TYPEMAP_extend`; there is no map to extend when the pointer is `NULL`. -/
def extend (tmap : Option TypeMap) (types : List UInt16) : TypeMap :=
  types.foldl setBit (tmap.getD create)

def testMatch (tmap : Option TypeMap) (types : List UInt16) : Bool :=
  match tmap with
  | none => false
  | some tmap => types.isEmpty || types.any tmap.bit

theorem eq_iff_word_and_bit {type other : UInt16} : other = type ↔
      other.toNat / 32 = type.toNat / 32 ∧ other.toNat % 32 = type.toNat % 32 := by
  rw [← UInt16.toNat_inj]
  omega

theorem bit_setBit (tmap : TypeMap) (type other : UInt16) :
    (tmap.setBit type).bit other = (tmap.bit other || decide (other = type)) := by
  rw [bit, bit, setBit]
  dsimp only
  by_cases hword : other.toNat / 32 = type.toNat / 32
  · rw [hword, update_self, WordSet.contains_insert _ (Nat.mod_lt _ (by decide))]
    simp [eq_iff_word_and_bit, hword]
  · simp [eq_iff_word_and_bit, hword]

theorem bit_clearBit (tmap : TypeMap) :
    (tmap.clearBit type).bit other = (tmap.bit other && decide (other ≠ type)) := by
  rw [bit, bit, clearBit]
  dsimp only
  by_cases hword : other.toNat / 32 = type.toNat / 32
  · rw [hword, update_self, WordSet.contains_clear]
    simp [eq_iff_word_and_bit, hword]
  · simp [eq_iff_word_and_bit, hword]

end TypeMap

structure OwnTypeMap where
  myTypeMap : TypeMap
  mapCounters : UInt16 → UInt8
  /-- How often the map was broadcast: "# updates to my type map". -/
  updates : Nat

namespace OwnTypeMap

def initial : OwnTypeMap :=
  ⟨TypeMap.create, fun _ => 0, 0⟩

def addType (loop : OwnTypeMap × Bool) (type : UInt16) : OwnTypeMap × Bool :=
  let counter := loop.1.mapCounters type
  let mapCounters := update loop.1.mapCounters type (counter + 1)
  if counter = 0 then
    ({ loop.1 with mapCounters, myTypeMap := loop.1.myTypeMap.setBit type }, true)
  else ({ loop.1 with mapCounters }, loop.2)

/-- One round of the loop of `GSC_TYPEMAP_remove`: the counter is lowered before it is compared. -/
def removeType (loop : OwnTypeMap × Bool) (type : UInt16) : OwnTypeMap × Bool :=
  let counter := loop.1.mapCounters type - 1
  let mapCounters := update loop.1.mapCounters type counter
  if counter = 0 then
    ({ loop.1 with mapCounters, myTypeMap := loop.1.myTypeMap.clearBit type }, true)
  else ({ loop.1 with mapCounters }, loop.2)

def broadcastIfChanged (loop : OwnTypeMap × Bool) : OwnTypeMap :=
  if loop.2 then { loop.1 with updates := loop.1.updates + 1 } else loop.1

def add (own : OwnTypeMap) (types : List UInt16) : OwnTypeMap :=
  broadcastIfChanged (types.foldl addType (own, false))

def remove (own : OwnTypeMap) (types : List UInt16) : OwnTypeMap :=
  broadcastIfChanged (types.foldl removeType (own, false))

end OwnTypeMap

/-! ## Clients and sessions -/

inductive ClientMessage (Peer : Type) where
  | initReply (myIdentity : Peer)
  | notifyConnect (peer : Peer)
  | notifyDisconnect (peer : Peer)
  deriving DecidableEq

structure GscClient (Peer : Type) where
  client : Nat
  types : List UInt16
  gotInit : Bool
  connectmap : Finset Peer
  sent : List (ClientMessage Peer)

variable {Peer : Type} [DecidableEq Peer]

def GscClient.notifyAboutNeighbour (c : GscClient Peer) (neighbour : Peer)
    (tmapOld tmapNew : Option TypeMap) : Option (GscClient Peer) :=
  let oldMatch := TypeMap.testMatch tmapOld c.types
  let newMatch := TypeMap.testMatch tmapNew c.types
  if c.gotInit = false then some c
  else if oldMatch = newMatch then
    if oldMatch = decide (neighbour ∈ c.connectmap) then some c else none
  else if oldMatch = false then
    if neighbour ∈ c.connectmap then none
    else some { c with
      connectmap := insert neighbour c.connectmap
      sent := c.sent ++ [.notifyConnect neighbour] }
  else
    if neighbour ∈ c.connectmap then
      some { c with
        connectmap := c.connectmap.erase neighbour
        sent := c.sent ++ [.notifyDisconnect neighbour] }
    else none

structure ClientService (Peer : Type) where
  myIdentity : Peer
  clients : List (GscClient Peer)
  sessions : List (Peer × TypeMap)
  own : OwnTypeMap

namespace ClientService

def start (myIdentity : Peer) : ClientService Peer :=
  ⟨myIdentity, [], [], OwnTypeMap.initial⟩

def tmapOf (sessions : List (Peer × TypeMap)) (peer : Peer) : Option TypeMap :=
  (sessions.find? fun session => session.1 = peer).map Prod.snd

def notifyClients (s : ClientService Peer) (neighbour : Peer)
    (tmapOld tmapNew : Option TypeMap) : Option (ClientService Peer) :=
  (s.clients.mapM fun (c : GscClient Peer) =>
    c.notifyAboutNeighbour neighbour tmapOld tmapNew).map fun clients =>
    { s with clients }

def clientConnectCb (s : ClientService Peer) (client : Nat) : ClientService Peer :=
  { s with clients := ⟨client, [], false, ∅, []⟩ :: s.clients }

def replaceClient (c : GscClient Peer) (clients : List (GscClient Peer)) : List (GscClient Peer) :=
  clients.map fun other => if other.client = c.client then c else other

/-- `handle_client_init`; the identity of this peer must not be in the `connectmap` yet. -/
def handleClientInit (s : ClientService Peer) (client : Nat) (types : List UInt16) :
    Option (ClientService Peer) :=
  match s.clients.find? fun c => c.client = client with
  | none => none
  | some c =>
    if s.myIdentity ∈ c.connectmap then none
    else
      let c : GscClient Peer := { c with
        types
        gotInit := true
        connectmap := insert s.myIdentity c.connectmap
        sent := c.sent ++ [.initReply s.myIdentity] }
      (s.sessions.foldlM (fun (c : GscClient Peer) session =>
        c.notifyAboutNeighbour session.1 none (some session.2)) c).map fun c =>
          { s with own := s.own.add types, clients := replaceClient c s.clients }

def clientDisconnectCb (s : ClientService Peer) (client : Nat) : Option (ClientService Peer) :=
  match s.clients.find? fun c => c.client = client with
  | none => none
  | some c => some { s with
      clients := s.clients.filter fun other => other.client ≠ client
      own := s.own.remove c.types }

def sessionsCreate (s : ClientService Peer) (peer : Peer) : Option (ClientService Peer) :=
  match tmapOf s.sessions peer with
  | some _ => none
  | none =>
    ({ s with sessions := (peer, TypeMap.create) :: s.sessions } : ClientService Peer).notifyClients
      peer none (some TypeMap.create)

def sessionsEnd (s : ClientService Peer) (peer : Peer) : Option (ClientService Peer) :=
  match tmapOf s.sessions peer with
  | none => some s
  | some tmap => (s.notifyClients peer (some tmap) none).map fun s =>
      { s with sessions := s.sessions.filter fun session => session.1 ≠ peer }

def replaceTypeMap (s : ClientService Peer) (peer : Peer) (tmap nmap : TypeMap) :
    Option (ClientService Peer) :=
  (s.notifyClients peer (some tmap) (some nmap)).map fun s =>
    { s with sessions := s.sessions.map fun session =>
        if session.1 = peer then (peer, nmap) else session }

def setTypemap (s : ClientService Peer) (peer : Peer) (nmap : Option TypeMap) :
    Option (ClientService Peer) :=
  match nmap, tmapOf s.sessions peer with
  | some nmap, some tmap => s.replaceTypeMap peer tmap nmap
  | _, _ => some s

def addToTypemap (s : ClientService Peer) (peer : Peer) (type : UInt16) :
    Option (ClientService Peer) :=
  if peer = s.myIdentity then some s
  else match tmapOf s.sessions peer with
    | none => none
    | some tmap =>
      if TypeMap.testMatch (some tmap) [type] then some s
      else s.replaceTypeMap peer tmap (TypeMap.extend (some tmap) [type])

inductive Event (Peer : Type) where
  | connect (client : Nat)
  | init (client : Nat) (types : List UInt16)
  | disconnect (client : Nat)
  | create (peer : Peer)
  | end (peer : Peer)
  | setTypemap (peer : Peer) (nmap : Option TypeMap)
  | messageType (peer : Peer) (type : UInt16)

def step (s : ClientService Peer) : Event Peer → Option (ClientService Peer)
  | .connect client => some (s.clientConnectCb client)
  | .init client types => s.handleClientInit client types
  | .disconnect client => s.clientDisconnectCb client
  | .create peer => s.sessionsCreate peer
  | .end peer => s.sessionsEnd peer
  | .setTypemap peer nmap => s.setTypemap peer nmap
  | .messageType peer type => s.addToTypemap peer type

/-- What can happen: a connection is new, messages come from connected clients,
the key exchange completes only without a session and never with this peer
itself, and messages of neighbours come through a session. -/
def Allowed (s : ClientService Peer) : Event Peer → Prop
  | .connect client => ∀ c ∈ s.clients, c.client ≠ client
  | .init client _ => ∃ c ∈ s.clients, c.client = client
  | .disconnect client => ∃ c ∈ s.clients, c.client = client
  | .create peer => peer ≠ s.myIdentity ∧ tmapOf s.sessions peer = none
  | .end _ => True
  | .setTypemap _ _ => True
  | .messageType peer _ => peer = s.myIdentity ∨ (tmapOf s.sessions peer).isSome

instance (s : ClientService Peer) (event : Event Peer) : Decidable (s.Allowed event) := by
  cases event <;> unfold Allowed <;> infer_instance

def listings (clients : List (GscClient Peer)) (type : UInt16) : Nat :=
  (clients.map fun c => c.types.count type).sum

/-- The bits of the map are the listed types, and a client knows a neighbour
exactly when the type map of the session matches. -/
structure Exact (s : ClientService Peer) : Prop where
  bit_iff (type : UInt16) : s.own.myTypeMap.bit type = true ↔ ∃ c ∈ s.clients, type ∈ c.types
  known_iff (c : GscClient Peer) (hc : c ∈ s.clients) (hinit : c.gotInit = true)
    (peer : Peer) (tmap : TypeMap) (hsession : tmapOf s.sessions peer = some tmap) :
    peer ∈ c.connectmap ↔ TypeMap.testMatch (some tmap) c.types = true

/-- The condition: no second `INIT`, and a client that leaves does not take the
number of listings of a type that others list down to or past a multiple of 256. -/
def Meets (s : ClientService Peer) : Event Peer → Prop
  | .init client _ => ∀ c ∈ s.clients, c.client = client → c.gotInit = false
  | .disconnect client => ∀ type m,
      let others := listings (s.clients.filter fun c => c.client ≠ client) type
      0 < others → others ≤ m → m < listings s.clients type → ¬ 256 ∣ m
  | _ => True

end ClientService

end Gnunet.Core
