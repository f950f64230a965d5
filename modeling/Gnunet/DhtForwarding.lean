import Gnunet.BloomFilterMemory
import Gnunet.DhtRouting

/-!
# Forwarding of DHT requests

How `gnunet-service-dht_neighbours.c` routes PUT and GET requests: the peers that
`get_target_peers` selects, the messages that `GDS_NEIGHBOURS_handle_put` and
`GDS_NEIGHBOURS_handle_get` queue, and a network of peers that exchange them.  Of a
message there is the key, the hop count and the Bloom filter; what depends on the rest
(the payload, random numbers, floating point numbers and the lengths of queues) is in
the choices that come with each event.
-/

namespace Gnunet.Dht

open Container (BloomFilter HashCode Platform)

def dhtBloomSize : Nat := 128

def constantsBloomfilterK : UInt32 := 16

inductive RequestKind where
  | put
  | get
  deriving DecidableEq, Repr

structure RequestMessage where
  kind : RequestKind
  hopCount : UInt32
  bloomfilter : List UInt8
  key : HashCode
  deriving DecidableEq, Repr

structure Choices (Peer : Type) where
  /-- The block is accepted, and the request not answered completely. -/
  accepted : Bool
  /-- The result of `get_forward_count`. -/
  forwardCount : Nat
  /-- `hops >= GDS_NSE_get ()`. -/
  greedy : Bool
  /-- The random number for a target, below a bound. -/
  random : Nat → Nat → Nat
  /-- The message is not too large. -/
  fits : Bool
  /-- The queue of a target is not full. -/
  hasRoom : Peer → Bool

structure Network (Peer : Type) where
  platform : Platform
  hashOf : Peer → HashCode
  service : Peer → Service Peer
  myIdentity : ∀ peer, (service peer).myIdentity = peer
  hash : ∀ peer, (service peer).hashOf = hashOf

variable {Peer : Type} [DecidableEq Peer]

section

variable (platform : Platform) (service : Service Peer) (table : RoutingTable Peer)
  (key : HashCode) (choices : Choices Peer)

def targetLoop : Nat → Nat → BloomFilter → Option (List (PeerInfo Peer) × BloomFilter)
  | 0, _, bloom => some ([], bloom)
  | rounds + 1, off, bloom =>
    (selectPeer service (bloom.test platform) key table choices.greedy
      (choices.random off)).bind fun nxt =>
      match nxt with
      | none => some ([], bloom)
      | some nxt =>
        (bloom.add platform nxt.phash).bind fun bloom =>
          (targetLoop rounds (off + 1) bloom).map fun (targets, bloom) => (nxt :: targets, bloom)

def getTargetPeers (bloom : BloomFilter) : Option (List (PeerInfo Peer) × BloomFilter) :=
  targetLoop platform service table key choices choices.forwardCount 0 bloom

def queueMessages (kind : RequestKind) (hopCount : UInt32) (targets : List (PeerInfo Peer))
    (bf : BloomFilter) : Option (List (Peer × RequestMessage)) :=
  if targets = [] ∨ choices.fits = false then some []
  else if bf.bitArraySize ≠ dhtBloomSize then none
  else some ((targets.filter fun target => choices.hasRoom target.id).map fun target =>
    (target.id, ⟨kind, hopCount + 1, bf.bitArray, key⟩))

def neighboursHandlePut (hopCount : UInt32) (bf : BloomFilter) :
    Option (List (Peer × RequestMessage)) :=
  (bf.add platform (service.hashOf service.myIdentity)).bind fun bf =>
    (getTargetPeers platform service table key choices bf).bind fun (targets, bf) =>
      queueMessages key choices .put hopCount targets bf

def neighboursHandleGet (hopCount : UInt32) (peerBf : BloomFilter) :
    Option (List (Peer × RequestMessage)) :=
  (getTargetPeers platform service table key choices peerBf).bind fun (targets, peerBf) =>
    (peerBf.add platform (service.hashOf service.myIdentity)).bind fun peerBf =>
      queueMessages key choices .get hopCount targets peerBf

def neighboursHandle : RequestKind → UInt32 → BloomFilter → Option (List (Peer × RequestMessage))
  | .put => neighboursHandlePut platform service table key choices
  | .get => neighboursHandleGet platform service table key choices

def handleClient (kind : RequestKind) : Option (List (Peer × RequestMessage)) :=
  (BloomFilter.init platform none dhtBloomSize constantsBloomfilterK).bind
    (neighboursHandle platform service table key choices kind 0)

def handleP2p (message : RequestMessage) : Option (List (Peer × RequestMessage)) :=
  if choices.accepted then
    (BloomFilter.init platform (some message.bloomfilter) dhtBloomSize constantsBloomfilterK).bind
        (neighboursHandle platform service table message.key choices message.kind message.hopCount)
  else some []

end

/-- A message that was queued for `target`, and the peers that its request has visited,
from the first to the one that queued the message. -/
structure Flight (Peer : Type) where
  path : List Peer
  target : Peer
  message : RequestMessage
  deriving DecidableEq, Repr

structure Hop (Peer : Type) where
  path : List Peer
  targets : List Peer
  deriving DecidableEq, Repr

structure NetworkState (Peer : Type) where
  tables : Peer → RoutingTable Peer
  flights : List (Flight Peer)
  hops : List (Hop Peer)

inductive NetworkEvent (Peer : Type) where
  | core (peer : Peer) (event : CoreEvent Peer)
  | client (peer : Peer) (kind : RequestKind) (key : HashCode) (choices : Choices Peer)
  | deliver (i : Nat) (choices : Choices Peer)

namespace NetworkState

def start (Peer : Type) : NetworkState Peer :=
  ⟨fun _ => .empty Peer, [], []⟩

def forward (state : NetworkState Peer) (path : List Peer)
    (messages : List (Peer × RequestMessage)) : NetworkState Peer where
  tables := state.tables
  flights := state.flights ++ messages.map fun (target, message) => ⟨path, target, message⟩
  hops := state.hops ++ [⟨path, messages.map Prod.fst⟩]

def handleCore (service : Service Peer) (table : RoutingTable Peer) :
    CoreEvent Peer → Option (RoutingTable Peer)
  | .connect other => table.handleCoreConnect service other
  | .disconnect other => table.handleCoreDisconnect service other

/-- A message stays after its delivery, so that it may arrive late, again or never. -/
def step (network : Network Peer) (state : NetworkState Peer) :
    NetworkEvent Peer → Option (NetworkState Peer)
  | .core peer event =>
    (handleCore (network.service peer) (state.tables peer) event).map fun table =>
      ⟨Function.update state.tables peer table, state.flights, state.hops⟩
  | .client peer kind key choices =>
    (handleClient network.platform (network.service peer) (state.tables peer) key choices
      kind).map (state.forward [peer])
  | .deliver i choices =>
    state.flights[i]?.bind fun flight =>
      (handleP2p network.platform (network.service flight.target) (state.tables flight.target)
        choices flight.message).map (state.forward (flight.path ++ [flight.target]))

end NetworkState

end Gnunet.Dht
