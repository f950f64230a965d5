import Gnunet.DhtForwarding
import Gnunet.DhtRoutingRuns

/-!
# Requests do not come back

Every peer that a request has visited, and every peer that it was sent to, is in the
Bloom filter of its message, and `select_peer` takes only peers that are not.  So the
peers on a chain are distinct, whatever the peers and their queues do.
-/

namespace Gnunet.Dht

open List Option Function

open Container (BloomFilter HashCode Platform)

variable {Peer : Type}

/-! ## Selected peers are not in the filter -/

section

variable {service : Service Peer} {test : HashCode → Option Bool} {key : HashCode}

def Selectable (test : HashCode → Option Bool) (peers : List (PeerInfo Peer))
    (pi : PeerInfo Peer) : Prop :=
  pi ∈ peers ∧ test pi.phash = some false

theorem greedyBucket_cases : ∀ {peers : List (PeerInfo Peer)} {count : Nat}
    {best result : Option (PeerInfo Peer) × UInt32},
    greedyBucket service test key peers count best = some result →
      ∀ pi, result.1 = some pi → best.1 = some pi ∨ Selectable test peers pi
  | [], count, best, result, hresult, pi, hpi => by
    cases hresult
    exact .inl hpi
  | pos :: rest, count, (chosen, smallest), result, hresult, pi, hpi => by
    rw [greedyBucket] at hresult
    split at hresult
    · rw [bind_eq_some_iff] at hresult
      obtain ⟨filtered, htest, hresult⟩ := hresult
      rcases greedyBucket_cases hresult pi hpi with hbest | ⟨hmem, hfree⟩
      · split at hbest
        · cases filtered with
          | true => cases hbest
          | false =>
            cases hbest
            exact .inr ⟨mem_cons_self, htest⟩
        · exact .inl hbest
      · exact .inr ⟨mem_cons_of_mem _ hmem, hfree⟩
    · cases hresult
      exact .inl hpi

theorem greedyLoop_cases {kBuckets : Nat → PeerBucket Peer} : ∀ {range : List Nat}
    {best result : Option (PeerInfo Peer) × UInt32},
    range.foldlM (fun best bc => greedyBucket service test key (kBuckets bc).peers 0 best) best =
      some result →
      ∀ pi, result.1 = some pi → best.1 = some pi ∨
        ∃ bucket, Selectable test (kBuckets bucket).peers pi
  | [], best, result, hresult, pi, hpi => by
    cases hresult
    exact .inl hpi
  | bc :: range, best, result, hresult, pi, hpi => by
    rw [foldlM_cons] at hresult
    obtain ⟨_, hnext, hresult⟩ := bind_eq_some_iff.mp hresult
    rcases greedyLoop_cases hresult pi hpi with hbest | hselectable
    · exact (greedyBucket_cases hnext pi hbest).imp_right fun h => ⟨bc, h⟩
    · exact .inr hselectable

theorem chooseBucket_cases : ∀ {peers : List (PeerInfo Peer)} {selected : Nat} {pi : PeerInfo Peer},
    chooseBucket service test peers selected = some (.inl pi) → Selectable test peers pi
  | [], selected, pi, hresult => by
    cases hresult
  | pos :: rest, selected, pi, hresult => by
    rw [chooseBucket] at hresult
    split at hresult
    · rw [bind_eq_some_iff] at hresult
      obtain ⟨filtered, htest, hresult⟩ := hresult
      have hrest : ∀ {selected}, chooseBucket service test rest selected = some (.inl pi) →
          Selectable test (pos :: rest) pi := by
        intro selected h
        obtain ⟨hmem, hfree⟩ := chooseBucket_cases h
        exact ⟨mem_cons_of_mem _ hmem, hfree⟩
      cases filtered with
      | true => exact hrest hresult
      | false =>
        rw [if_neg Bool.false_ne_true] at hresult
        split at hresult
        · cases hresult
          exact ⟨mem_cons_self, htest⟩
        · exact hrest hresult
    · cases hresult

theorem chooseLoop_cases : ∀ {range : List Nat} {selected : Nat}
    {pi : PeerInfo Peer}, chooseLoop service test kBuckets range selected = some (some pi) →
      ∃ bucket, Selectable test (kBuckets bucket).peers pi
  | [], selected, pi, hresult => by
    cases hresult
  | bc :: range, selected, pi, hresult => by
    rw [chooseLoop, bind_eq_some_iff] at hresult
    obtain ⟨choice, hchoice, hresult⟩ := hresult
    cases choice with
    | inl pos =>
      cases hresult
      exact ⟨bc, chooseBucket_cases hchoice⟩
    | inr selected => exact chooseLoop_cases hresult

theorem selectPeer_cases {greedy : Bool} {pi : PeerInfo Peer}
    (hselect : selectPeer service test key table greedy random = some (some pi)) :
    ∃ bucket, Selectable test (table.kBuckets bucket).peers pi := by
  cases greedy with
  | true =>
    obtain ⟨_, hresult, hpi⟩ := map_eq_some_iff.mp hselect
    rcases greedyLoop_cases hresult pi hpi with hnone | hselectable
    · cases hnone
    · exact hselectable
  | false =>
    obtain ⟨_, -, hchoose⟩ := bind_eq_some_iff.mp hselect
    split at hchoose
    · cases hchoose
    · exact chooseLoop_cases hchoose

end

/-- The entries of a table are other peers, with their hashes. -/
def RoutingTable.Sound (service : Service Peer) (table : RoutingTable Peer) : Prop :=
  ∀ bucket, ∀ pi ∈ (table.kBuckets bucket).peers,
    pi.id ≠ service.myIdentity ∧ pi.phash = service.hashOf pi.id

theorem RoutingTable.Sound.connect [DecidableEq Peer]
    {table table' : RoutingTable Peer} (hsound : table.Sound service)
    (hconnect : table.handleCoreConnect service peer = some table') : table'.Sound service := by
  rcases handleCoreConnect_cases hconnect with ⟨-, rfl⟩ | ⟨bucket, hconnected⟩
  · exact hsound
  · intro other pi hpi
    rw [hconnected.kBuckets] at hpi
    by_cases hin : other = bucket
    · rw [hin, update_self, mem_append, mem_singleton] at hpi
      rcases hpi with hold | rfl
      · exact hsound bucket pi hold
      · exact ⟨hconnected.other, rfl⟩
    · rw [update_of_ne hin] at hpi
      exact hsound other pi hpi

theorem RoutingTable.Sound.disconnect [DecidableEq Peer]
    {table table' : RoutingTable Peer} (hsound : table.Sound service)
    (hdisconnect : table.handleCoreDisconnect service peer = some table') :
    table'.Sound service := by
  rcases handleCoreDisconnect_cases hdisconnect with ⟨-, rfl⟩ | ⟨toRemove, hdisconnected⟩
  · exact hsound
  · intro other pi hpi
    rw [hdisconnected.kBuckets] at hpi
    by_cases hin : other = toRemove.peerBucket
    · rw [hin, update_self] at hpi
      exact hsound _ pi (mem_of_mem_erase hpi)
    · rw [update_of_ne hin] at hpi
      exact hsound other pi hpi

/-! ## The targets of a peer -/

section

variable {platform : Platform} {service : Service Peer} {table : RoutingTable Peer}
  {key : HashCode} {choices : Choices Peer} {bf : BloomFilter}

abbrev RequestFilter (bf : BloomFilter) : Prop :=
  bf.InMemory dhtBloomSize constantsBloomfilterK

abbrev Has (platform : Platform) (service : Service Peer) (bitArray : List UInt8) (peer : Peer) :
    Prop :=
  BloomFilter.Contains platform dhtBloomSize constantsBloomfilterK bitArray (service.hashOf peer)

structure Targets (platform : Platform) (service : Service Peer) (bf : BloomFilter)
    (targets : List (PeerInfo Peer)) (bf' : BloomFilter) : Prop where
  filter : RequestFilter bf'
  mono : ∀ pos, BloomFilter.bit bf.bitArray pos = true → BloomFilter.bit bf'.bitArray pos = true
  fresh : ∀ target ∈ targets, target.id ≠ service.myIdentity ∧
    ¬ Has platform service bf.bitArray target.id
  added : ∀ target ∈ targets, Has platform service bf'.bitArray target.id
  nodup : (targets.map PeerInfo.id).Nodup

theorem targetLoop_spec (hsound : table.Sound service) : ∀ {rounds off : Nat} {bf : BloomFilter}
    {result : List (PeerInfo Peer) × BloomFilter}, RequestFilter bf →
    targetLoop platform service table key choices rounds off bf = some result →
      Targets platform service bf result.1 result.2
  | 0, off, bf, result, hbf, hresult => by
    cases hresult
    exact ⟨hbf, fun _ h => h, nofun, nofun, nodup_nil⟩
  | rounds + 1, off, bf, result, hbf, hresult => by
    rw [targetLoop, bind_eq_some_iff] at hresult
    obtain ⟨nxt, hselect, hresult⟩ := hresult
    cases nxt with
    | none =>
      cases hresult
      exact ⟨hbf, fun _ h => h, nofun, nofun, nodup_nil⟩
    | some nxt =>
      obtain ⟨bucket, hmem, hfree⟩ := selectPeer_cases hselect
      obtain ⟨hother, hhash⟩ := hsound bucket nxt hmem
      obtain ⟨_, hadd, hbf', hmono, hhas⟩ := hbf.add nxt.phash
      dsimp only at hresult
      rw [hadd, bind_some, map_eq_some_iff] at hresult
      obtain ⟨⟨_, _⟩, hloop, rfl⟩ := hresult
      have hrest := targetLoop_spec hsound hbf' hloop
      rw [hhash] at hhas
      have hnew : ¬ Has platform service bf.bitArray nxt.id := by
        intro hcontains
        rw [hhash] at hfree
        cases (hbf.test_of_contains hcontains).symm.trans hfree
      refine ⟨hrest.filter, fun pos hpos => hrest.mono pos (hmono pos hpos), ?_, ?_, ?_⟩
      · intro target htarget
        rcases mem_cons.mp htarget with rfl | htarget
        · exact ⟨hother, hnew⟩
        · obtain ⟨hself, hfresh⟩ := hrest.fresh target htarget
          exact ⟨hself, fun hcontains => hfresh (hcontains.mono hmono)⟩
      · intro target htarget
        rcases mem_cons.mp htarget with rfl | htarget
        · exact hhas.mono hrest.mono
        · exact hrest.added target htarget
      · refine nodup_cons.mpr ⟨fun hin => ?_, hrest.nodup⟩
        obtain ⟨target, htarget, heq⟩ := mem_map.mp hin
        exact (hrest.fresh target htarget).2 (by rw [heq]; exact hhas)

structure Forwarded (platform : Platform) (service : Service Peer) (bf : BloomFilter)
    (messages : List (Peer × RequestMessage)) : Prop where
  fresh : ∀ sent ∈ messages, sent.1 ≠ service.myIdentity ∧ ¬ Has platform service bf.bitArray sent.1
  length : ∀ sent ∈ messages, sent.2.bloomfilter.length = dhtBloomSize
  kept : ∀ sent ∈ messages, ∀ peer, Has platform service bf.bitArray peer →
    Has platform service sent.2.bloomfilter peer
  self : ∀ sent ∈ messages, Has platform service sent.2.bloomfilter service.myIdentity
  added : ∀ sent ∈ messages, Has platform service sent.2.bloomfilter sent.1
  nodup : (messages.map Prod.fst).Nodup

theorem queueMessages_spec (hfilter : RequestFilter final)
    (hmono : ∀ pos, BloomFilter.bit bf.bitArray pos = true →
      BloomFilter.bit final.bitArray pos = true)
    (hfresh : ∀ target ∈ targets, target.id ≠ service.myIdentity ∧
      ¬ Has platform service bf.bitArray target.id)
    (hadded : ∀ target ∈ targets, Has platform service final.bitArray target.id)
    (hnodup : (targets.map PeerInfo.id).Nodup)
    (hself : Has platform service final.bitArray service.myIdentity)
    (hqueue : queueMessages key choices kind hopCount targets final = some messages) :
    Forwarded platform service bf messages := by
  rw [queueMessages] at hqueue
  split at hqueue
  · cases hqueue
    exact ⟨nofun, nofun, nofun, nofun, nofun, nodup_nil⟩
  · split at hqueue
    · cases hqueue
    · cases hqueue
      have hsent : ∀ sent ∈ (targets.filter fun target => choices.hasRoom target.id).map
          (fun target => (target.id, (⟨kind, hopCount + 1, final.bitArray, key⟩ : RequestMessage))),
          sent.2.bloomfilter = final.bitArray ∧ ∃ target ∈ targets, target.id = sent.1 := by
        intro sent hsent
        obtain ⟨target, htarget, rfl⟩ := mem_map.mp hsent
        exact ⟨rfl, target, mem_of_mem_filter htarget, rfl⟩
      refine ⟨?_, ?_, ?_, ?_, ?_, ?_⟩
      · intro sent hmem
        obtain ⟨-, target, htarget, heq⟩ := hsent sent hmem
        rw [← heq]
        exact hfresh target htarget
      · intro sent hmem
        rw [(hsent sent hmem).1]
        exact hfilter.array
      · intro sent hmem peer hhas
        rw [(hsent sent hmem).1]
        exact hhas.mono hmono
      · intro sent hmem
        rw [(hsent sent hmem).1]
        exact hself
      · intro sent hmem
        obtain ⟨hbits, target, htarget, heq⟩ := hsent sent hmem
        rw [hbits, ← heq]
        exact hadded target htarget
      · rw [List.map_map]
        exact hnodup.sublist (List.Sublist.map PeerInfo.id filter_sublist)

theorem neighboursHandle_spec (hsound : table.Sound service) (hbf : RequestFilter bf)
    (hhandle : neighboursHandle platform service table key choices kind hopCount bf =
      some messages) : Forwarded platform service bf messages := by
  cases kind with
  | put =>
    obtain ⟨_, hadd, hfirst, hmono, hself⟩ := hbf.add (service.hashOf service.myIdentity)
    rw [neighboursHandle, neighboursHandlePut, hadd, bind_some, bind_eq_some_iff] at hhandle
    obtain ⟨⟨targets, final⟩, htargets, hqueue⟩ := hhandle
    have hspec := targetLoop_spec hsound hfirst htargets
    refine queueMessages_spec hspec.filter (fun pos hpos => hspec.mono pos (hmono pos hpos)) ?_
      hspec.added hspec.nodup (hself.mono hspec.mono) hqueue
    intro target htarget
    obtain ⟨hother, hfresh⟩ := hspec.fresh target htarget
    exact ⟨hother, fun hcontains => hfresh (hcontains.mono hmono)⟩
  | get =>
    rw [neighboursHandle, neighboursHandleGet, bind_eq_some_iff] at hhandle
    obtain ⟨⟨_, _⟩, htargets, hhandle⟩ := hhandle
    have hspec := targetLoop_spec hsound hbf htargets
    obtain ⟨_, hadd, hfinal, hmono, hself⟩ := hspec.filter.add (service.hashOf service.myIdentity)
    dsimp only at hhandle
    rw [hadd, bind_some] at hhandle
    exact queueMessages_spec hfinal (fun pos hpos => hmono pos (hspec.mono pos hpos)) hspec.fresh
      (fun target htarget => (hspec.added target htarget).mono hmono) hspec.nodup hself hhandle

end

/-! ## The network -/

namespace NetworkState

variable {network : Network Peer} {state : NetworkState Peer}

def InFilter (network : Network Peer) (bitArray : List UInt8) (peer : Peer) : Prop :=
  BloomFilter.Contains network.platform dhtBloomSize constantsBloomfilterK bitArray
    (network.hashOf peer)

/-- The peers that a message was forwarded over and the next one are distinct and in its
filter. -/
structure OnItsWay (network : Network Peer) (flight : Flight Peer) : Prop where
  length : flight.message.bloomfilter.length = dhtBloomSize
  visited : ∀ peer ∈ flight.path ++ [flight.target],
    InFilter network flight.message.bloomfilter peer
  nodup : (flight.path ++ [flight.target]).Nodup

structure NoLoop (hop : Hop Peer) : Prop where
  path : hop.path.Nodup
  targets : hop.targets.Nodup
  fresh : ∀ target ∈ hop.targets, target ∉ hop.path

structure Sane (network : Network Peer) (state : NetworkState Peer) : Prop where
  tables : ∀ peer, (state.tables peer).Sound (network.service peer)
  flights : ∀ flight ∈ state.flights, OnItsWay network flight
  hops : ∀ hop ∈ state.hops, NoLoop hop

theorem Sane.forward (hsane : state.Sane network) {front : List Peer} {peer : Peer}
    {bf : BloomFilter} {messages : List (Peer × RequestMessage)} (hnodup : (front ++ [peer]).Nodup)
    (hfront : ∀ other ∈ front, InFilter network bf.bitArray other)
    (hforwarded : Forwarded network.platform (network.service peer) bf messages) :
    (state.forward (front ++ [peer]) messages).Sane network := by
  have hhas : ∀ bitArray other, Has network.platform (network.service peer) bitArray other ↔
        InFilter network bitArray other := by
    intro bitArray other
    rw [InFilter, ← network.hash peer]
  have hfresh : ∀ sent ∈ messages, sent.1 ∉ front ++ [peer] := by
    intro sent hsent hin
    obtain ⟨hother, hnew⟩ := hforwarded.fresh sent hsent
    rw [network.myIdentity] at hother
    rcases mem_append.mp hin with hin | hin
    · exact hnew ((hhas _ _).mpr (hfront _ hin))
    · exact hother (mem_singleton.mp hin)
  refine ⟨hsane.tables, fun flight hflight => ?_, fun hop hhop => ?_⟩
  · rcases mem_append.mp hflight with hold | hnew
    · exact hsane.flights flight hold
    · obtain ⟨⟨target, _⟩, hsent, rfl⟩ := mem_map.mp hnew
      refine ⟨hforwarded.length _ hsent, fun other hother => ?_, ?_⟩
      · rw [← hhas]
        rcases mem_append.mp hother with hother | hother
        · rcases mem_append.mp hother with hin | hself
          · exact hforwarded.kept _ hsent other ((hhas _ _).mpr (hfront other hin))
          · have hmine := hforwarded.self _ hsent
            rw [network.myIdentity] at hmine
            rw [mem_singleton.mp hself]
            exact hmine
        · rw [mem_singleton.mp hother]
          exact hforwarded.added _ hsent
      · refine nodup_append.mpr ⟨hnodup, nodup_singleton _, ?_⟩
        rintro other hother _ htarget rfl
        rw [mem_singleton.mp htarget] at hother
        exact hfresh _ hsent hother
  · rcases mem_append.mp hhop with hold | hnew
    · exact hsane.hops hop hold
    · rw [mem_singleton.mp hnew]
      refine ⟨hnodup, hforwarded.nodup, fun target htarget => ?_⟩
      obtain ⟨sent, hsent, rfl⟩ := mem_map.mp htarget
      exact hfresh sent hsent

theorem sane_start (network : Network Peer) : (start Peer).Sane network where
  tables _ _ _ hpi := absurd hpi not_mem_nil
  flights _ hflight := absurd hflight not_mem_nil
  hops _ hhop := absurd hhop not_mem_nil

variable [DecidableEq Peer]

theorem Sane.step (hsane : state.Sane network) {event : NetworkEvent Peer}
    {next : NetworkState Peer} (hstep : state.step network event = some next) :
    next.Sane network := by
  cases event with
  | core peer event =>
    rw [NetworkState.step, map_eq_some_iff] at hstep
    obtain ⟨_, htable, rfl⟩ := hstep
    refine ⟨fun other => ?_, hsane.flights, hsane.hops⟩
    dsimp only
    by_cases hother : other = peer
    · subst hother
      rw [update_self]
      cases event with
      | connect neighbour => exact (hsane.tables other).connect htable
      | disconnect neighbour => exact (hsane.tables other).disconnect htable
    · rw [update_of_ne hother]
      exact hsane.tables other
  | client peer kind key choices =>
    rw [NetworkState.step, map_eq_some_iff] at hstep
    obtain ⟨messages, hmessages, rfl⟩ := hstep
    obtain ⟨bf, hinit, hhandle⟩ := bind_eq_some_iff.mp hmessages
    exact @Sane.forward Peer network state hsane [] peer bf messages (nodup_singleton peer)
      nofun (neighboursHandle_spec (hsane.tables peer)
        (BloomFilter.init_spec hinit List.length_replicate).1 hhandle)
  | deliver i choices =>
    rw [NetworkState.step, bind_eq_some_iff] at hstep
    obtain ⟨flight, hflight, hstep⟩ := hstep
    obtain ⟨_, hmessages, rfl⟩ := map_eq_some_iff.mp hstep
    have hway := hsane.flights flight (mem_of_getElem? hflight)
    rw [handleP2p] at hmessages
    split at hmessages
    · obtain ⟨_, hinit, hhandle⟩ := bind_eq_some_iff.mp hmessages
      obtain ⟨hfilter, hbits⟩ := BloomFilter.init_spec hinit hway.length
      refine hsane.forward hway.nodup (fun other hother => ?_)
        (neighboursHandle_spec (hsane.tables flight.target) hfilter hhandle)
      rw [hbits]
      exact hway.visited other (mem_append_left _ hother)
    · cases hmessages
      refine ⟨hsane.tables, fun other hother => ?_, fun hop hhop => ?_⟩
      · rcases mem_append.mp hother with hold | hnew
        · exact hsane.flights other hold
        · exact absurd hnew not_mem_nil
      · rcases mem_append.mp hhop with hold | hnew
        · exact hsane.hops hop hold
        · rw [mem_singleton.mp hnew]
          exact ⟨hway.nodup, nodup_nil, nofun⟩

/-- In every run of the network the peers on the way of a message are distinct, and so
are the targets of a peer, which were not on the way; there are at most as many as
peers. -/
theorem forwarding_never_loops [Fintype Peer] {events : List (NetworkEvent Peer)}
    (hrun : Protocol.Run (step network) (fun _ _ => True) (start Peer) events state) :
    (∀ hop ∈ state.hops, hop.path.Nodup ∧ hop.targets.Nodup ∧
      ∀ target ∈ hop.targets, target ∉ hop.path) ∧
    ∀ flight ∈ state.flights, (flight.path ++ [flight.target]).Nodup ∧
      (flight.path ++ [flight.target]).length ≤ Fintype.card Peer := by
  have hsane : state.Sane network := by
    apply hrun.invariant (Sane network)
    · exact sane_start network
    · exact fun before event after hsane _ hstep => hsane.step hstep
  constructor
  · intro hop hhop
    obtain ⟨hpath, htargets, hfresh⟩ := hsane.hops hop hhop
    exact ⟨hpath, htargets, hfresh⟩
  · intro flight hflight
    have hnodup := (hsane.flights flight hflight).nodup
    exact ⟨hnodup, hnodup.length_le_card⟩

def threePeerNetwork : Network (Fin 3) where
  platform := Container.FilterSession.bigEndianPlatform
  hashOf := TableSession.threePeers.hashOf
  service peer := { TableSession.threePeers with myIdentity := peer }
  myIdentity _ := rfl
  hash _ := rfl

def oneTarget : Choices (Fin 3) where
  accepted := true
  forwardCount := 1
  greedy := false
  random _ _ := 0
  fits := true
  hasRoom _ := true

/-- Peer 0 sends a request to 1, which knows 0 and 2 and sends it to 2. -/
theorem forwarding_never_loops_overOne :
    ∃ state : NetworkState (Fin 3),
      Protocol.Run (step threePeerNetwork) (fun _ _ => True) (start (Fin 3))
        [.core 0 (.connect 1), .core 1 (.connect 0), .core 1 (.connect 2),
          .client 0 .get (TableSession.threePeers.hashOf 2) oneTarget, .deliver 0 oneTarget] state ∧
      state.hops = [⟨[0], [1]⟩, ⟨[0, 1], [2]⟩] ∧
      ∀ flight ∈ state.flights, (flight.path ++ [flight.target]).Nodup :=
  Protocol.Run.exists_of_exec_and (by decide +kernel) fun _ hrun _ =>
    fun flight hflight => ((forwarding_never_loops hrun).2 flight hflight).1

end NetworkState

end Gnunet.Dht
