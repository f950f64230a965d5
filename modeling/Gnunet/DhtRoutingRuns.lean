import Gnunet.DhtRouting

/-!
# Bookkeeping of the routing table

Whatever connects and disconnects, the peers are in their buckets.  The counters and
`closest_bucket` are right after a step exactly when the step meets a condition, since
the loop that lowers `closest_bucket` looks at the bucket of the peer that was removed.
-/

namespace Gnunet.Dht

open List Option Function Protocol

variable {Peer : Type} [DecidableEq Peer] {service : Service Peer}

namespace RoutingTable

variable {table table' : RoutingTable Peer} {peer : Peer}

theorem lowerClosest_eq (peersSize : UInt32) (closest : Nat) :
    lowerClosest peersSize closest = if peersSize = 0 then 0 else closest := by
  induction closest with
  | zero =>
    split <;> rfl
  | succ closest ih =>
    rw [lowerClosest, ih]
    split <;> rfl

structure Connected (service : Service Peer) (table : RoutingTable Peer) (peer : Peer)
    (bucket : Nat) (table' : RoutingTable Peer) : Prop where
  other : peer ≠ service.myIdentity
  fresh : table.allConnectedPeers.lookup peer = none
  found : findBucket service (service.hashOf peer) = some bucket
  kBuckets : table'.kBuckets = update table.kBuckets bucket
    ⟨(table.kBuckets bucket).peers ++ [⟨peer, service.hashOf peer, bucket⟩],
      (table.kBuckets bucket).peersSize + 1⟩
  closest : table'.closestBucket = max table.closestBucket bucket
  map : table'.allConnectedPeers =
    table.allConnectedPeers.insert peer ⟨peer, service.hashOf peer, bucket⟩

theorem handleCoreConnect_cases (hconnect : table.handleCoreConnect service peer = some table') :
    (peer = service.myIdentity ∧ table' = table) ∨
      ∃ bucket, Connected service table peer bucket table' := by
  rw [handleCoreConnect] at hconnect
  split at hconnect
  next hself =>
    cases hconnect
    exact .inl ⟨hself.symm, rfl⟩
  next hother =>
    split at hconnect
    · cases hconnect
    next hfresh =>
      rw [bind_eq_some_iff] at hconnect
      obtain ⟨bucket, hfound, hconnect⟩ := hconnect
      dsimp only at hconnect
      split at hconnect
      · cases hconnect
      · cases hconnect
        exact .inr ⟨bucket, Ne.symm hother, not_isSome_iff_eq_none.mp hfresh, hfound, rfl, rfl, rfl⟩

structure Disconnected (table : RoutingTable Peer) (peer : Peer) (toRemove : PeerInfo Peer)
    (table' : RoutingTable Peer) : Prop where
  known : table.allConnectedPeers.lookup peer = some toRemove
  counted : (table.kBuckets toRemove.peerBucket).peersSize ≠ 0
  kBuckets : table'.kBuckets = update table.kBuckets toRemove.peerBucket
    ⟨(table.kBuckets toRemove.peerBucket).peers.erase toRemove,
      (table.kBuckets toRemove.peerBucket).peersSize - 1⟩
  closest : table'.closestBucket =
    if (table.kBuckets toRemove.peerBucket).peersSize - 1 = 0 then 0 else table.closestBucket
  map : table'.allConnectedPeers = table.allConnectedPeers.erase peer

theorem handleCoreDisconnect_cases
    (hdisconnect : table.handleCoreDisconnect service peer = some table') :
    (table.allConnectedPeers.lookup peer = none ∧ table' = table) ∨
      ∃ toRemove, Disconnected table peer toRemove table' := by
  rw [handleCoreDisconnect] at hdisconnect
  split at hdisconnect
  next hnone =>
    cases hdisconnect
    exact .inl ⟨hnone, rfl⟩
  next toRemove hsome =>
    dsimp only at hdisconnect
    split at hdisconnect
    next hpos =>
      cases hdisconnect
      refine .inr ⟨toRemove, hsome, fun hzero => ?_, rfl, lowerClosest_eq _ _, rfl⟩
      rw [hzero] at hpos
      exact absurd hpos (by decide)
    · cases hdisconnect

end RoutingTable

namespace TableSession

variable {session next : TableSession Peer} {event : CoreEvent Peer}

/-- The buckets hold the values of the map, once, each in the bucket that it names. -/
structure Valid (service : Service Peer) (session : TableSession Peer) : Prop where
  known : ∀ peer pi, session.table.allConnectedPeers.lookup peer = some pi ↔
    peer ∈ session.connected ∧ peer ≠ service.myIdentity ∧ pi.id = peer ∧
      pi.phash = service.hashOf peer ∧
      findBucket service (service.hashOf peer) = some pi.peerBucket
  found : ∀ peer ∈ session.connected, peer ≠ service.myIdentity →
    ∃ bucket, findBucket service (service.hashOf peer) = some bucket
  members : ∀ bucket pi, pi ∈ (session.table.kBuckets bucket).peers ↔
    session.table.allConnectedPeers.lookup pi.id = some pi ∧ pi.peerBucket = bucket
  nodup : ∀ bucket, (session.table.kBuckets bucket).peers.Nodup

theorem valid_start (service : Service Peer) : (start Peer).Valid service where
  known peer pi := by
    constructor
    · intro h
      cases h
    · intro h
      exact absurd h.1 (Finset.notMem_empty peer)
  found peer hpeer := absurd hpeer (Finset.notMem_empty peer)
  members bucket pi := by
    constructor
    · exact fun h => absurd h not_mem_nil
    · rintro ⟨h, -⟩
      cases h
  nodup _ := nodup_nil

section

variable (hvalid : session.Valid service)
include hvalid

theorem Valid.lookup (hpeer : peer ∈ session.connected) (hother : peer ≠ service.myIdentity)
    (hbucket : findBucket service (service.hashOf peer) = some bucket) :
    session.table.allConnectedPeers.lookup peer = some ⟨peer, service.hashOf peer, bucket⟩ :=
  (hvalid.known peer _).mpr ⟨hpeer, hother, rfl, rfl, hbucket⟩

theorem Valid.filed : session.Filed service := by
  constructor
  · intro peer hpeer hother
    obtain ⟨bucket, hbucket⟩ := hvalid.found peer hpeer hother
    refine ⟨bucket, hbucket, fun other => ?_⟩
    have hids : ((session.table.kBuckets other).peers.map PeerInfo.id).Nodup := by
      apply (hvalid.nodup other).map_on
      intro first hfirst second hsecond heq
      have hfirst' := ((hvalid.members other first).mp hfirst).1
      rw [heq, ((hvalid.members other second).mp hsecond).1] at hfirst'
      exact (Option.some.inj hfirst').symm
    have hmem : peer ∈ (session.table.kBuckets other).peers.map PeerInfo.id ↔ other = bucket := by
      have hlookup := hvalid.lookup hpeer hother hbucket
      constructor
      · intro h
        obtain ⟨pi, hpi, rfl⟩ := mem_map.mp h
        obtain ⟨hpi', hin⟩ := (hvalid.members other pi).mp hpi
        rw [hlookup] at hpi'
        rw [← hin, ← Option.some.inj hpi']
      · intro heq
        exact mem_map.mpr ⟨⟨peer, service.hashOf peer, bucket⟩,
          (hvalid.members other _).mpr ⟨hlookup, heq.symm⟩, rfl⟩
    rw [hids.count]
    exact if_congr hmem rfl rfl
  · intro bucket pi hpi
    obtain ⟨hlookup, -⟩ := (hvalid.members bucket pi).mp hpi
    obtain ⟨hpeer, hother, -, hhash, -⟩ := (hvalid.known pi.id pi).mp hlookup
    exact ⟨hpeer, hother, hhash⟩

/-! ## Steps -/

theorem Valid.of_others {connected : Finset Peer} (hmem : ∀ peer, peer ≠ service.myIdentity →
      (peer ∈ connected ↔ peer ∈ session.connected)) :
    Valid service ⟨session.table, connected⟩ := by
  refine ⟨fun peer pi => ?_, fun peer hpeer hother => ?_, hvalid.members, hvalid.nodup⟩
  · rw [hvalid.known]
    constructor
    · rintro ⟨hpeer, hother, hrest⟩
      exact ⟨(hmem peer hother).mpr hpeer, hother, hrest⟩
    · rintro ⟨hpeer, hother, hrest⟩
      exact ⟨(hmem peer hother).mp hpeer, hother, hrest⟩
  · exact hvalid.found peer ((hmem peer hother).mp hpeer) hother

theorem Valid.connect
    (hconnected : RoutingTable.Connected service session.table peer bucket table') :
    Valid service ⟨table', insert peer session.connected⟩ := by
  obtain ⟨hother, hfresh, hfound, hbuckets, -, hmap⟩ := hconnected
  have hlookup : ∀ p, table'.allConnectedPeers.lookup p =
      if p = peer then some ⟨peer, service.hashOf peer, bucket⟩
      else session.table.allConnectedPeers.lookup p := by
    intro p
    rw [hmap]
    split
    next heq =>
      rw [heq, AList.lookup_insert]
    next hne =>
      exact AList.lookup_insert_ne hne
  refine ⟨fun p pi => ?_, fun p hp hp' => ?_, fun other pi => ?_, fun other => ?_⟩
  · rw [hlookup]
    split
    next heq =>
      subst heq
      constructor
      · intro h
        cases h
        exact ⟨Finset.mem_insert_self _ _, hother, rfl, rfl, hfound⟩
      · rintro ⟨-, -, hid, hhash, hbucket⟩
        obtain ⟨_, _, _⟩ := pi
        dsimp only at hid hhash hbucket
        rw [hfound] at hbucket
        rw [hid, hhash, Option.some.inj hbucket]
    next hne =>
      rw [hvalid.known, Finset.mem_insert, or_iff_right hne]
  · rcases Finset.mem_insert.mp hp with rfl | hold
    · exact ⟨bucket, hfound⟩
    · exact hvalid.found p hold hp'
  · rw [hlookup, hbuckets]
    have hold := hvalid.members other pi
    have hne : session.table.allConnectedPeers.lookup pi.id = some pi → pi.id ≠ peer := by
      intro hlook heq
      rw [heq, hfresh] at hlook
      cases hlook
    by_cases hin : other = bucket
    · subst hin
      rw [update_self, mem_append, mem_singleton, hold]
      constructor
      · rintro (⟨hlook, hplace⟩ | rfl)
        · rw [if_neg (hne hlook)]
          exact ⟨hlook, hplace⟩
        · exact ⟨if_pos rfl, rfl⟩
      · rintro ⟨hlook, hplace⟩
        split at hlook
        · exact .inr (Option.some.inj hlook).symm
        · exact .inl ⟨hlook, hplace⟩
    · rw [update_of_ne hin, hold]
      constructor
      · rintro ⟨hlook, hplace⟩
        rw [if_neg (hne hlook)]
        exact ⟨hlook, hplace⟩
      · rintro ⟨hlook, hplace⟩
        split at hlook
        · rw [← Option.some.inj hlook] at hplace
          exact absurd hplace.symm hin
        · exact ⟨hlook, hplace⟩
  · rw [hbuckets]
    by_cases hin : other = bucket
    · subst hin
      rw [update_self]
      refine nodup_append.mpr ⟨hvalid.nodup other, nodup_singleton _, ?_⟩
      rintro pi hpi _ hnew rfl
      rw [mem_singleton] at hnew
      have hlook := ((hvalid.members other pi).mp hpi).1
      rw [hnew, hfresh] at hlook
      cases hlook
    · rw [update_of_ne hin]
      exact hvalid.nodup other

theorem Valid.disconnect
    (hdisconnected : RoutingTable.Disconnected session.table peer toRemove table') :
    Valid service ⟨table', session.connected.erase peer⟩ := by
  obtain ⟨hknown, -, hbuckets, -, hmap⟩ := hdisconnected
  have hid : toRemove.id = peer := ((hvalid.known peer toRemove).mp hknown).2.2.1
  have hlookup : ∀ p, table'.allConnectedPeers.lookup p =
      if p = peer then none else session.table.allConnectedPeers.lookup p := by
    intro p
    rw [hmap]
    split
    next heq =>
      rw [heq, AList.lookup_erase]
    next hne =>
      exact AList.lookup_erase_ne hne
  have hpeers : ∀ other, (table'.kBuckets other).peers =
      if other = toRemove.peerBucket then (session.table.kBuckets other).peers.erase toRemove
      else (session.table.kBuckets other).peers := by
    intro other
    rw [hbuckets]
    split
    next heq =>
      rw [heq, update_self]
    next hne =>
      rw [update_of_ne hne]
  refine ⟨fun p pi => ?_, fun p hp hp' => ?_, fun other pi => ?_, fun other => ?_⟩
  · rw [hlookup, Finset.mem_erase]
    split
    next heq =>
      exact ⟨nofun, fun h => absurd heq h.1.1⟩
    next hne =>
      rw [hvalid.known, and_iff_right hne]
  · exact hvalid.found p (Finset.mem_of_mem_erase hp) hp'
  · rw [hlookup, hpeers]
    have hold := hvalid.members other pi
    by_cases heq : pi.id = peer
    · rw [if_pos heq]
      refine ⟨fun hmem => ?_, nofun⟩
      exfalso
      split at hmem
      · have hmem' := (hvalid.nodup other).mem_erase_iff.mp hmem
        have hlook := (hold.mp hmem'.2).1
        rw [heq, hknown] at hlook
        exact hmem'.1 (Option.some.inj hlook).symm
      next hin =>
        obtain ⟨hlook, hplace⟩ := hold.mp hmem
        rw [heq, hknown] at hlook
        exact hin (by rw [← hplace, Option.some.inj hlook])
    · rw [if_neg heq, ← hold]
      split
      · rw [(hvalid.nodup other).mem_erase_iff]
        exact and_iff_right (fun h => heq (by rw [h, hid]))
      · rfl
  · rw [hpeers]
    split
    · exact (hvalid.nodup other).erase toRemove
    · exact hvalid.nodup other

theorem Valid.step (hstep : session.step service event = some next) : next.Valid service := by
  cases event with
  | connect peer =>
    rw [TableSession.step, map_eq_some_iff] at hstep
    obtain ⟨table', hconnect, rfl⟩ := hstep
    rcases RoutingTable.handleCoreConnect_cases hconnect with ⟨rfl, rfl⟩ | ⟨bucket, hconnected⟩
    · exact hvalid.of_others fun _ hother => Finset.mem_insert.trans (or_iff_right hother)
    · exact hvalid.connect hconnected
  | disconnect peer =>
    rw [TableSession.step, map_eq_some_iff] at hstep
    obtain ⟨_, hdisconnect, rfl⟩ := hstep
    rcases RoutingTable.handleCoreDisconnect_cases hdisconnect with
      ⟨hnone, rfl⟩ | ⟨toRemove, hdisconnected⟩
    · by_cases hself : peer = service.myIdentity
      · rw [hself]
        exact hvalid.of_others fun _ hother => Finset.mem_erase.trans (and_iff_right hother)
      · have habsent : peer ∉ session.connected := by
          intro hpeer
          obtain ⟨_, hbucket⟩ := hvalid.found peer hpeer hself
          rw [hvalid.lookup hpeer hself hbucket] at hnone
          cases hnone
        rw [Finset.erase_eq_of_notMem habsent]
        exact hvalid
    · exact hvalid.disconnect hdisconnected

/-! ## When a step keeps the counters and the closest bucket -/

variable (hexact : session.Exact service)
include hexact

theorem Exact.connect_iff
    (hconnected : RoutingTable.Connected service session.table peer bucket table') :
    Exact service ⟨table', insert peer session.connected⟩ ↔
      (session.table.kBuckets bucket).peers.length + 1 < 2 ^ 32 := by
  have hfiled := (hvalid.connect hconnected).filed
  obtain ⟨-, -, -, hbuckets, hclosest, -⟩ := hconnected
  have hcount := hexact.counted bucket
  have hlength : ((table'.kBuckets bucket).peers.length =
      (session.table.kBuckets bucket).peers.length + 1) := by
    rw [hbuckets, update_self, length_append, length_singleton]
  have hsize : (table'.kBuckets bucket).peersSize.toNat =
      ((session.table.kBuckets bucket).peers.length + 1) % 2 ^ 32 := by
    rw [hbuckets, update_self, UInt32.toNat_add, hcount]
    rfl
  constructor
  · intro hnext
    have hcount' := hnext.counted bucket
    dsimp only at hcount'
    omega
  · intro hroom
    refine ⟨hfiled, fun other => ?_, fun other hother => ?_, ?_⟩
    · by_cases hin : other = bucket
      · subst hin
        rw [hlength, hsize, Nat.mod_eq_of_lt hroom]
      · have hcount' := hexact.counted other
        rw [hbuckets, update_of_ne hin]
        exact hcount'
    · rw [hclosest]
      by_cases hin : other = bucket
      · rw [hin]
        exact Nat.le_max_right _ _
      · rw [hbuckets, update_of_ne hin] at hother
        exact (hexact.closest.covers other hother).trans (Nat.le_max_left _ _)
    · rw [hclosest]
      have hnonempty : (table'.kBuckets bucket).peers ≠ [] := by
        rw [← length_pos_iff, hlength]
        exact Nat.succ_pos _
      rcases Nat.le_total session.table.closestBucket bucket with hle | hle
      · rw [Nat.max_eq_right hle]
        exact .inr hnonempty
      · rw [Nat.max_eq_left hle]
        by_cases hin : session.table.closestBucket = bucket
        · rw [hin]
          exact .inr hnonempty
        · rw [hbuckets, update_of_ne hin]
          exact hexact.closest.attained

theorem Exact.disconnect_iff
    (hdisconnected : RoutingTable.Disconnected session.table peer toRemove table') :
    Exact service ⟨table', session.connected.erase peer⟩ ↔
      2 ≤ (session.table.kBuckets toRemove.peerBucket).peers.length ∨
        ∀ other, other ≠ toRemove.peerBucket → (session.table.kBuckets other).peers ≠ [] →
          other = 0 := by
  have hfiled := (hvalid.disconnect hdisconnected).filed
  obtain ⟨hknown, _, hbuckets, hclosest, -⟩ := hdisconnected
  have hid : toRemove.id = peer := ((hvalid.known peer toRemove).mp hknown).2.2.1
  have hmem : toRemove ∈ (session.table.kBuckets toRemove.peerBucket).peers :=
    (hvalid.members _ toRemove).mpr ⟨by rw [hid]; exact hknown, rfl⟩
  have hcount := hexact.counted toRemove.peerBucket
  have hnonzero := length_pos_of_mem hmem
  have hsize : ((session.table.kBuckets toRemove.peerBucket).peersSize - 1).toNat =
      (session.table.kBuckets toRemove.peerBucket).peers.length - 1 := by
    rw [UInt32.toNat_sub_of_le _ _ (UInt32.le_iff_toNat_le.mpr (by rw [hcount]; exact hnonzero)),
      hcount]
    rfl
  have hzero : (session.table.kBuckets toRemove.peerBucket).peersSize - 1 = 0 ↔
      (session.table.kBuckets toRemove.peerBucket).peers.length = 1 := by
    rw [← UInt32.toNat_inj, hsize]
    show _ = 0 ↔ _
    omega
  have hcounted : Counted ⟨table', session.connected.erase peer⟩ := by
    intro other
    by_cases hin : other = toRemove.peerBucket
    · rw [hin, hbuckets, update_self, hsize, length_erase_of_mem hmem]
    · rw [hbuckets, update_of_ne hin]
      exact hexact.counted other
  have hpeers : ∀ other, other ≠ toRemove.peerBucket →
      (table'.kBuckets other).peers = (session.table.kBuckets other).peers := by
    intro other hin
    rw [hbuckets, update_of_ne hin]
  have hlength : (table'.kBuckets toRemove.peerBucket).peers.length =
      (session.table.kBuckets toRemove.peerBucket).peers.length - 1 := by
    rw [hbuckets, update_self, length_erase_of_mem hmem]
  by_cases hlast : (session.table.kBuckets toRemove.peerBucket).peers.length = 1
  · -- the bucket becomes empty, and `closest_bucket` zero
    rw [if_pos (hzero.mpr hlast)] at hclosest
    have hempty : (table'.kBuckets toRemove.peerBucket).peers = [] := by
      rw [← length_eq_zero_iff, hlength, hlast]
    constructor
    · intro hnext
      refine .inr fun other hin hother => ?_
      have hle := hnext.closest.covers other (by rw [hpeers other hin]; exact hother)
      rw [hclosest] at hle
      exact Nat.le_zero.mp hle
    · rintro (htwo | hothers)
      · omega
      · refine ⟨hfiled, hcounted, fun other hother => ?_, .inl hclosest⟩
        rw [hclosest]
        by_cases hin : other = toRemove.peerBucket
        · rw [hin] at hother
          exact absurd hempty hother
        · rw [hpeers other hin] at hother
          exact (hothers other hin hother).le
  · rw [if_neg (mt hzero.mp hlast)] at hclosest
    refine ⟨fun _ => .inl (by omega), fun _ => ⟨hfiled, hcounted, fun other hother => ?_, ?_⟩⟩
    · rw [hclosest]
      apply hexact.closest.covers
      by_cases hin : other = toRemove.peerBucket
      · rw [hin]
        exact ne_nil_of_mem hmem
      · rw [← hpeers other hin]
        exact hother
    · rw [hclosest]
      rcases hexact.closest.attained with hnil | hattained
      · exact .inl hnil
      · right
        by_cases hin : session.table.closestBucket = toRemove.peerBucket
        · rw [hin, ← length_pos_iff, hlength]
          omega
        · rw [hpeers _ hin]
          exact hattained

theorem Exact.step_iff (hallowed : session.Allowed event)
    (hstep : session.step service event = some next) :
    next.Exact service ↔ session.Meets service event := by
  have hfiled := (hvalid.step hstep).filed
  cases event with
  | connect peer =>
    rw [TableSession.step, map_eq_some_iff] at hstep
    obtain ⟨table', hconnect, rfl⟩ := hstep
    rcases RoutingTable.handleCoreConnect_cases hconnect with ⟨hself, rfl⟩ | ⟨bucket, hconnected⟩
    · exact ⟨fun _ => .inl hself, fun _ => ⟨hfiled, hexact.counted, hexact.closest.1,
        hexact.closest.2⟩⟩
    · rw [hexact.connect_iff hvalid hconnected]
      constructor
      · intro hroom
        refine .inr fun bucket' hbucket' => ?_
        cases hconnected.found.symm.trans hbucket'
        exact hroom
      · rintro (hself | hroom)
        · exact absurd hself hconnected.other
        · exact hroom bucket hconnected.found
  | disconnect peer =>
    rw [TableSession.step, map_eq_some_iff] at hstep
    obtain ⟨_, hdisconnect, rfl⟩ := hstep
    rcases RoutingTable.handleCoreDisconnect_cases hdisconnect with
      ⟨hnone, rfl⟩ | ⟨toRemove, hdisconnected⟩
    · have hself : peer = service.myIdentity := by
        by_contra hother
        obtain ⟨_, hbucket⟩ := hvalid.found peer hallowed hother
        rw [hvalid.lookup hallowed hother hbucket] at hnone
        cases hnone
      exact ⟨fun _ => .inl hself, fun _ => ⟨hfiled, hexact.counted, hexact.closest.1,
        hexact.closest.2⟩⟩
    · obtain ⟨-, hother, -, -, hfound⟩ := (hvalid.known peer toRemove).mp hdisconnected.known
      rw [hexact.disconnect_iff hvalid hdisconnected]
      constructor
      · intro hmeets
        refine .inr fun bucket' hbucket' => ?_
        cases hfound.symm.trans hbucket'
        exact hmeets
      · rintro (hself | hmeets)
        · exact absurd hself hother
        · exact hmeets _ hfound

end

theorem exact_start (service : Service Peer) : (start Peer).Exact service where
  filed := (valid_start service).filed
  counted _ := rfl
  closest := ⟨fun _ h => absurd rfl h, .inl rfl⟩

/-- After any connects and disconnects that meet the condition the table is exact; after
one more it is exact if and only if that one meets it too. -/
theorem table_exact_iff {events : List (CoreEvent Peer)}
    (hrun : Run (step service)
      (fun session event => session.Allowed event ∧ session.Meets service event)
      (start Peer) events session) :
    session.Exact service ∧ ∀ event next, session.Allowed event →
      session.step service event = some next →
        (next.Exact service ↔ session.Meets service event) := by
  have hboth : session.Valid service ∧ session.Exact service := by
    apply hrun.invariant (fun session => session.Valid service ∧ session.Exact service)
    · exact ⟨valid_start service, exact_start service⟩
    · rintro before event after ⟨hvalid, hexact⟩ ⟨hallowed, hmeets⟩ hstep
      exact ⟨hvalid.step hstep, (hexact.step_iff hvalid hallowed hstep).mpr hmeets⟩
  exact ⟨hboth.2, fun event next hallowed hstep => hboth.2.step_iff hboth.1 hallowed hstep⟩

def threePeers : Service (Fin 3) where
  myIdentity := 0
  hashOf peer := ⟨Vector.replicate 16 (UInt32.ofNat peer.val)⟩
  byteAt code i := UInt8.ofNat ((code.bits.toList.getD (i / 4) 0).toNat >>> (8 * (i % 4)) % 256)
  bucketSize := 8
  disableTryConnect := true

instance (session : TableSession Peer) (event : CoreEvent Peer) :
    Decidable (session.Allowed event) := by
  cases event <;> unfold Allowed <;> infer_instance

/-- Both other peers are in bucket 511. -/
def oneBucketPeers : Service (Fin 3) :=
  { threePeers with hashOf := fun peer => ⟨.replicate 16 (.ofNat (2 ^ peer.val - 1))⟩ }

theorem table_exact_iff_disconnect : ∃ session : TableSession (Fin 3), Run (step oneBucketPeers)
        (fun session event => session.Allowed event ∧ session.Meets oneBucketPeers event)
        (start (Fin 3)) [.connect 1, .connect 2, .disconnect 1] session ∧
      session.connected = {2} ∧ session.Exact oneBucketPeers := by
  have hbucket : ∀ peer ≠ 0,
      findBucket oneBucketPeers (oneBucketPeers.hashOf peer) = some 511 := by
    decide +kernel
  obtain ⟨session, hrun, hleft⟩ : ∃ session, Run (step oneBucketPeers)
      (fun session event => session.Allowed event ∧ ∃ peer ≠ 0,
        event = .connect peer ∧ (session.table.kBuckets 511).peers.length + 1 < 2 ^ 32 ∨
        event = .disconnect peer ∧ 2 ≤ (session.table.kBuckets 511).peers.length)
      (start (Fin 3)) [.connect 1, .connect 2, .disconnect 1] session ∧
        session.connected = {2} := Run.exists_of_exec (by decide +kernel)
  have hrun : Run (step oneBucketPeers)
      (fun session event => session.Allowed event ∧ session.Meets oneBucketPeers event)
      (start (Fin 3)) [.connect 1, .connect 2, .disconnect 1] session := by
    apply hrun.weaken
    rintro before event ⟨hallowed, peer, hpeer, ⟨rfl, hroom⟩ | ⟨rfl, hmany⟩⟩
    · refine ⟨hallowed, .inr fun bucket hfound => ?_⟩
      cases (hbucket peer hpeer).symm.trans hfound
      exact hroom
    · refine ⟨hallowed, .inr fun bucket hfound => .inl ?_⟩
      cases (hbucket peer hpeer).symm.trans hfound
      exact hmany
  exact ⟨session, hrun, hleft, (table_exact_iff hrun).1⟩

/-- When the only peer of bucket 510 disconnects, bucket 511 is forgotten. -/
theorem closest_bucket_lost :
    ∃ session : TableSession (Fin 3),
      Run (step threePeers) Allowed (start (Fin 3))
        [.connect 1, .connect 2, .disconnect 2] session ∧
      (session.table.closestBucket = 0 ∧
        (session.table.kBuckets 511).peers = [⟨1, threePeers.hashOf 1, 511⟩]) :=
  Run.exists_of_exec (by decide +kernel)

end TableSession

end Gnunet.Dht
