import Mathlib.Data.List.AList
import Gnunet.GuardedRun
import Gnunet.BloomFilter

/-!
# The routing table of the DHT

The buckets of `gnunet-service-dht_neighbours.c`: what `handle_core_connect` and
`handle_core_disconnect` do to them, and how `select_peer` chooses a peer.  `none`
is a failing assertion.

A floating point number is never computed: whether `hops >= GDS_NSE_get ()` and
the random number are arguments.
-/

namespace Gnunet.Dht

open Container (HashCode)

/-- What is fixed for the DHT service of a peer: its identity, the hash of an identity,
the bytes of a hash code, `bucket_size` and `disable_try_connect`. -/
structure Service (Peer : Type) where
  myIdentity : Peer
  hashOf : Peer → HashCode
  byteAt : HashCode → Nat → UInt8
  bucketSize : UInt32
  disableTryConnect : Bool

structure PeerInfo (Peer : Type) where
  id : Peer
  phash : HashCode
  peerBucket : Nat
  deriving DecidableEq, Repr

structure PeerBucket (Peer : Type) where
  peers : List (PeerInfo Peer)
  peersSize : UInt32
  deriving DecidableEq, Repr

def maxBuckets : Nat := 64 * 8

/-- The static variables `k_buckets`, `closest_bucket` and `all_connected_peers`, and
whether there is a `find_peer_task`. -/
structure RoutingTable (Peer : Type) where
  kBuckets : Nat → PeerBucket Peer
  closestBucket : Nat
  allConnectedPeers : AList fun _ : Peer => PeerInfo Peer
  findPeerTask : Bool

def RoutingTable.empty (Peer : Type) : RoutingTable Peer where
  kBuckets _ := ⟨[], 0⟩
  closestBucket := 0
  allConnectedPeers := ∅
  findPeerTask := false

variable {Peer : Type} [DecidableEq Peer] (service : Service Peer)

def hashGetBit (code : HashCode) (bit : Nat) : Bool :=
  (service.byteAt code (bit >>> 3)).toNat &&& (1 <<< (bit &&& 7)) > 0

def hashMatchingLoop (first second : HashCode) : Nat → Nat → Nat
  | 0, i => i
  | rounds + 1, i =>
    if hashGetBit service first i != hashGetBit service second i then i
    else hashMatchingLoop first second rounds (i + 1)

def hashMatchingBits (first second : HashCode) : Nat :=
  hashMatchingLoop service first second (64 * 8) 0

def findBucket (hc : HashCode) : Option Nat :=
  let bits := hashMatchingBits service (service.hashOf service.myIdentity) hc
  if bits = maxBuckets then none else some (maxBuckets - bits - 1)

namespace RoutingTable

def handleCoreConnect (table : RoutingTable Peer) (peer : Peer) : Option (RoutingTable Peer) :=
  if service.myIdentity = peer then some table
  else if (table.allConnectedPeers.lookup peer).isSome then none
  else
    (findBucket service (service.hashOf peer)).bind fun bucket =>
      let pi : PeerInfo Peer := ⟨peer, service.hashOf peer, bucket⟩
      let old := table.kBuckets bucket
      let connected := table.allConnectedPeers.insert peer pi
      let first := connected.keys.length = 1 ∧ service.disableTryConnect = false
      if first ∧ table.findPeerTask = true then none
      else some
        { kBuckets := Function.update table.kBuckets bucket
            ⟨old.peers ++ [pi], old.peersSize + 1⟩
          closestBucket := max table.closestBucket bucket
          allConnectedPeers := connected
          findPeerTask := if first then true else table.findPeerTask }

/-- The loop at the end of `handle_core_disconnect`, which looks at the bucket that a
peer was removed from, from the value of `closest_bucket` on. -/
def lowerClosest (peersSize : UInt32) : Nat → Nat
  | 0 => 0
  | closest + 1 => if peersSize = 0 then lowerClosest peersSize closest else closest + 1

/-- `handle_core_disconnect`.  CORE hands back what `handle_core_connect` returned for
the peer, `NULL` for ourselves. -/
def handleCoreDisconnect (table : RoutingTable Peer) (peer : Peer) : Option (RoutingTable Peer) :=
  match table.allConnectedPeers.lookup peer with
  | none => some table
  | some toRemove =>
    let connected := table.allConnectedPeers.erase peer
    let old := table.kBuckets toRemove.peerBucket
    if old.peersSize > 0 then
      let peersSize := old.peersSize - 1
      some
        { kBuckets := Function.update table.kBuckets toRemove.peerBucket
            ⟨old.peers.erase toRemove, peersSize⟩
          closestBucket := lowerClosest peersSize table.closestBucket
          allConnectedPeers := connected
          findPeerTask :=
            if connected.keys.length = 0 ∧ service.disableTryConnect = false then false
            else table.findPeerTask }
    else none

end RoutingTable

def distanceLoop (target have' : HashCode) (bucket : Nat) : Nat → Nat → UInt32 → UInt32
  | 0, _, lsb => lsb
  | rounds + 1, i, lsb =>
    if i < 64 * 8 ∧ i < bucket + 1 + 32 - 9 then
      distanceLoop target have' bucket rounds (i + 1)
        (if hashGetBit service target i != hashGetBit service have' i then
          lsb ||| UInt32.ofNat (1 <<< (bucket + 32 - 9 - i))
        else lsb)
    else lsb

def getDistance (target have' : HashCode) : UInt32 :=
  let bucket := hashMatchingBits service target have'
  if bucket = 512 then 0
  else if bucket = 0 then 0 - 1
  else
    UInt32.ofNat ((512 - bucket) <<< (32 - 9)) |||
      distanceLoop service target have' bucket (32 - 9) (bucket + 1) 0

section

variable (test : HashCode → Option Bool) (key : HashCode)

def greedyBucket : List (PeerInfo Peer) → Nat → Option (PeerInfo Peer) × UInt32 →
    Option (Option (PeerInfo Peer) × UInt32)
  | [], _, best => some best
  | pos :: rest, count, (chosen, smallest) =>
    if count < service.bucketSize.toNat then
      (test pos.phash).bind fun filtered =>
        let dist := getDistance service key pos.phash
        greedyBucket rest (count + 1)
          (if dist < smallest then (if filtered then none else some pos, dist)
          else (chosen, smallest))
    else some (chosen, smallest)

def countBucket : List (PeerInfo Peer) → Nat → Option Nat
  | [], count => some count
  | pos :: rest, count =>
    if count < service.bucketSize.toNat then
      (test pos.phash).bind fun filtered =>
        countBucket rest (if filtered then count else count + 1)
    else some count

def chooseBucket : List (PeerInfo Peer) → Nat → Option (PeerInfo Peer ⊕ Nat)
  | [], selected => some (.inr selected)
  | pos :: rest, selected =>
    -- `count` stays zero in this loop
    if 0 < service.bucketSize.toNat then
      (test pos.phash).bind fun filtered =>
        if filtered then chooseBucket rest selected
        else if selected = 0 then some (.inl pos)
        else chooseBucket rest (selected - 1)
    else some (.inr selected)

def chooseLoop (kBuckets : Nat → PeerBucket Peer) : List Nat → Nat → Option (Option (PeerInfo Peer))
  | [], _ => some none
  | bc :: rest, selected =>
    (chooseBucket service test (kBuckets bc).peers selected).bind fun result =>
      match result with
      | .inl pos => some (some pos)
      | .inr selected => chooseLoop kBuckets rest selected

/-- `select_peer`; `greedy` is whether `hops >= GDS_NSE_get ()` and `random` gives the
random number below its argument. -/
def selectPeer (table : RoutingTable Peer) (greedy : Bool) (random : Nat → Nat) :
    Option (Option (PeerInfo Peer)) :=
  let range := List.range (table.closestBucket + 1)
  if greedy then
    (range.foldlM (fun best bc =>
      greedyBucket service test key (table.kBuckets bc).peers 0 best) (none, 0 - 1)).map Prod.fst
  else
    (range.foldlM (fun count bc =>
      countBucket service test (table.kBuckets bc).peers count) 0).bind fun count =>
      if count = 0 then some none
      else chooseLoop service test table.kBuckets range (random count % count)

end

/-- A routing table, and the peers that CORE is connected to. -/
structure TableSession (Peer : Type) where
  table : RoutingTable Peer
  connected : Finset Peer

inductive CoreEvent (Peer : Type) where
  | connect (peer : Peer)
  | disconnect (peer : Peer)
  deriving DecidableEq, Repr

namespace TableSession

def step (session : TableSession Peer) : CoreEvent Peer → Option (TableSession Peer)
  | .connect peer => (session.table.handleCoreConnect service peer).map fun table =>
      ⟨table, insert peer session.connected⟩
  | .disconnect peer => (session.table.handleCoreDisconnect service peer).map fun table =>
      ⟨table, session.connected.erase peer⟩

def Allowed (session : TableSession Peer) : CoreEvent Peer → Prop
  | .connect peer => peer ∉ session.connected
  | .disconnect peer => peer ∈ session.connected

def start (Peer : Type) : TableSession Peer :=
  ⟨.empty Peer, ∅⟩

/-- Every peer that is connected, but for ourselves, is in the bucket of its hash and in
no other, once; there are no others. -/
structure Filed (session : TableSession Peer) : Prop where
  sits : ∀ peer ∈ session.connected, peer ≠ service.myIdentity →
    ∃ bucket, findBucket service (service.hashOf peer) = some bucket ∧
      ∀ other, ((session.table.kBuckets other).peers.map PeerInfo.id).count peer =
        if other = bucket then 1 else 0
  only : ∀ bucket, ∀ pi ∈ (session.table.kBuckets bucket).peers,
    pi.id ∈ session.connected ∧ pi.id ≠ service.myIdentity ∧ pi.phash = service.hashOf pi.id

def Counted (session : TableSession Peer) : Prop :=
  ∀ bucket, (session.table.kBuckets bucket).peersSize.toNat =
    (session.table.kBuckets bucket).peers.length

/-- `closest_bucket` is the highest index of a bucket with peers, or 0. -/
structure ClosestIsHighest (session : TableSession Peer) : Prop where
  covers : ∀ bucket, (session.table.kBuckets bucket).peers ≠ [] →
    bucket ≤ session.table.closestBucket
  attained : session.table.closestBucket = 0 ∨
    (session.table.kBuckets session.table.closestBucket).peers ≠ []

structure Exact (session : TableSession Peer) : Prop where
  filed : session.Filed service
  counted : session.Counted
  closest : session.ClosestIsHighest

/-- A connect for which the counter of the bucket has room, and a disconnect that either
leaves a peer in the bucket or leaves no peer in a bucket other than 0. -/
def Meets (session : TableSession Peer) : CoreEvent Peer → Prop
  | .connect peer => peer = service.myIdentity ∨
      ∀ bucket, findBucket service (service.hashOf peer) = some bucket →
        (session.table.kBuckets bucket).peers.length + 1 < 2 ^ 32
  | .disconnect peer => peer = service.myIdentity ∨
      ∀ bucket, findBucket service (service.hashOf peer) = some bucket →
        2 ≤ (session.table.kBuckets bucket).peers.length ∨
        ∀ other, other ≠ bucket → (session.table.kBuckets other).peers ≠ [] → other = 0

end TableSession

end Gnunet.Dht
