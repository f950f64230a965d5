import Gnunet.DhtRoutingRuns
import Mathlib.Data.Nat.Bitwise

/-!
# Whether we are the closest peer

`am_closest_peer` of `gnunet-service-dht_neighbours.c`.  The filter is any predicate on
hash codes.  Only one bucket is looked at, that of the key: a peer matches more bits of
the key than we do exactly if it is in that bucket.
-/

namespace Gnunet.Dht

open Nat

open Container (HashCode)

section

variable {Peer : Type} (service : Service Peer)

/-- Whether `memcmp` of two hash codes is zero. -/
def sameBytes (first second : HashCode) : Bool :=
  (List.range 64).all fun i => service.byteAt first i == service.byteAt second i

variable (test : HashCode → Option Bool) (key : HashCode)

def closestLoop (bits : Nat) : List (PeerInfo Peer) → Option Bool
  | [] => some true
  | pos :: rest =>
    -- `count` stays zero in this loop
    if 0 < service.bucketSize.toNat then
      (test pos.phash).bind fun filtered =>
        if filtered then closestLoop bits rest
        else
          let otherBits := hashMatchingBits service pos.phash key
          if otherBits > bits then some false
          else if otherBits = bits then some true
          else closestLoop bits rest
    else some true

def amClosestPeer (table : RoutingTable Peer) : Option Bool :=
  let own := service.hashOf service.myIdentity
  if sameBytes service own key then some true
  else
    (findBucket service key).bind fun bucketNum =>
      closestLoop service test key (hashMatchingBits service own key) (table.kBuckets bucketNum).peers

end

variable {Peer : Type} {service : Service Peer}

/-! ## Matching bits -/

theorem le_hashMatchingLoop_iff (first second : HashCode) (hn : n ≤ i + rounds) :
    n ≤ hashMatchingLoop service first second rounds i ↔
      ∀ j, i ≤ j → j < n → hashGetBit service first j = hashGetBit service second j := by
  induction rounds generalizing i with
  | zero => exact ⟨fun _ j hij hjn => by omega, fun _ => hn⟩
  | succ rounds ih =>
    rw [hashMatchingLoop]
    split
    next hdiffer =>
      refine ⟨fun hle j hij hjn => by omega, fun hequal => ?_⟩
      by_contra hlt
      exact (bne_iff_ne.mp hdiffer) (hequal i (Nat.le_refl i) (Nat.lt_of_not_le hlt))
    next hsame =>
      rw [ih (by omega)]
      refine ⟨fun hequal j hij hjn => ?_, fun hequal j hij hjn => hequal j (by omega) hjn⟩
      rcases eq_or_lt_of_le hij with rfl | hlt
      · simpa using hsame
      · exact hequal j hlt hjn

theorem le_hashMatchingBits_iff (first second : HashCode) (hn : n ≤ 512) :
    n ≤ hashMatchingBits service first second ↔
      ∀ j < n, hashGetBit service first j = hashGetBit service second j := by
  rw [hashMatchingBits, le_hashMatchingLoop_iff first second (by omega)]
  exact ⟨fun h j hj => h j (zero_le j) hj, fun h j _ hj => h j hj⟩

theorem hashMatchingBits_le (first second : HashCode) :
    hashMatchingBits service first second ≤ 512 := by
  suffices h : ∀ rounds i, hashMatchingLoop service first second rounds i ≤ i + rounds from
    (h 512 0).trans_eq (zero_add _)
  intro rounds
  induction rounds with
  | zero => exact fun i => Nat.le_refl i
  | succ rounds ih =>
    intro i
    rw [hashMatchingLoop]
    split
    · omega
    · exact (ih (i + 1)).trans (by omega)

theorem hashGetBit_eq (hj : j < hashMatchingBits service first second) :
    hashGetBit service first j = hashGetBit service second j :=
  (le_hashMatchingBits_iff first second (hashMatchingBits_le first second)).mp (Nat.le_refl _) j hj

theorem hashGetBit_ne {bits : Nat}
    (hbits : hashMatchingBits service first second = bits) (hlt : bits < 512) :
    hashGetBit service first bits ≠ hashGetBit service second bits := by
  intro heq
  have hmore : bits + 1 ≤ hashMatchingBits service first second := by
    rw [le_hashMatchingBits_iff first second hlt]
    intro j hj
    rcases Nat.lt_succ_iff_lt_or_eq.mp hj with hj | rfl
    · exact hashGetBit_eq (by rwa [hbits])
    · exact heq
  omega

/-- A bit has two values, so that two codes that differ from a third one at the same bit
agree there. -/
theorem hashMatchingBits_lt_iff :
    hashMatchingBits service own key < hashMatchingBits service other key ↔
      hashMatchingBits service own key < 512 ∧
        hashMatchingBits service own other = hashMatchingBits service own key := by
  generalize hbits : hashMatchingBits service own key = bits
  constructor
  · intro hmore
    have hlt := lt_of_lt_of_le hmore (hashMatchingBits_le other key)
    refine ⟨hlt, Nat.le_antisymm (Nat.le_of_not_lt fun hcontra => ?_) ?_⟩
    · exact hashGetBit_ne hbits hlt ((hashGetBit_eq hcontra).trans (hashGetBit_eq hmore))
    · rw [le_hashMatchingBits_iff own other hlt.le]
      intro j hj
      rw [hashGetBit_eq (hj.trans hmore), hashGetBit_eq (hj.trans_eq hbits.symm)]
  · rintro ⟨hlt, hsame⟩
    change bits + 1 ≤ _
    rw [le_hashMatchingBits_iff other key hlt]
    intro j hj
    rcases Nat.lt_succ_iff_lt_or_eq.mp hj with hj | rfl
    · rw [← hashGetBit_eq (hj.trans_eq hsame.symm), hashGetBit_eq (hj.trans_eq hbits.symm)]
    · have hkey := hashGetBit_ne hbits hlt
      have hother := hashGetBit_ne hsame hlt
      exact (Bool.eq_not_of_ne hother.symm).trans (Bool.eq_not_of_ne hkey.symm).symm

theorem findBucket_eq_some_iff : findBucket service hc = some bucket ↔
      hashMatchingBits service (service.hashOf service.myIdentity) hc < 512 ∧
        bucket = 511 - hashMatchingBits service (service.hashOf service.myIdentity) hc := by
  have hle : hashMatchingBits service (service.hashOf service.myIdentity) hc ≤ 512 :=
    hashMatchingBits_le _ hc
  rw [findBucket, maxBuckets]
  split
  next hall =>
    simp [hall]
  next hsome =>
    rw [Option.some.injEq]
    omega

theorem hashGetBit_eq_testBit (code : HashCode) (hk : k < 8) :
    hashGetBit service code (8 * i + k) = (service.byteAt code i).toNat.testBit k := by
  have hshift : (8 * i + k) >>> 3 = i := by
    omega
  have hmask : (8 * i + k) &&& 7 = k := by
    rw [and_two_pow_sub_one_eq_mod _ 3]
    omega
  rw [hashGetBit, hshift, hmask, one_shiftLeft, and_two_pow]
  cases (service.byteAt code i).toNat.testBit k <;> simp

theorem sameBytes_iff (first second : HashCode) :
    sameBytes service first second = true ↔ hashMatchingBits service first second = 512 := by
  rw [Nat.eq_iff_le_and_ge, and_iff_right (hashMatchingBits_le first second),
    le_hashMatchingBits_iff first second (Nat.le_refl _), sameBytes, List.all_eq_true]
  constructor
  · intro hbytes j hj
    have hbyte := beq_iff_eq.mp (hbytes (j / 8) (List.mem_range.mpr (by omega)))
    rw [← div_add_mod j 8, hashGetBit_eq_testBit first (mod_lt j (by decide)),
      hashGetBit_eq_testBit second (mod_lt j (by decide)), hbyte]
  · intro hbits i hi
    rw [List.mem_range] at hi
    rw [beq_iff_eq, ← UInt8.toNat_inj]
    apply eq_of_testBit_eq
    intro k
    by_cases hk : k < 8
    · rw [← hashGetBit_eq_testBit first hk, ← hashGetBit_eq_testBit second hk]
      exact hbits _ (by omega)
    · have hbyte (byte : UInt8) : byte.toNat.testBit k = false :=
        Nat.testBit_lt_two_pow (byte.toNat_lt.trans_le (Nat.pow_le_pow_right (by decide) (by omega)))
      rw [hbyte, hbyte]

/-! ## The closest peer -/

theorem closestLoop_eq (filtered : HashCode → Bool) {bits : Nat}
    (hmore : ∀ pi ∈ peers, bits < hashMatchingBits service pi.phash key) :
    closestLoop service (fun hash => some (filtered hash)) key bits peers =
      some (decide (service.bucketSize.toNat = 0) || peers.all fun pi => filtered pi.phash) := by
  induction peers with
  | nil => simp [closestLoop]
  | cons pos rest ih =>
    have hrest := ih fun pi hpi => hmore pi (List.mem_cons_of_mem _ hpi)
    rw [closestLoop, List.all_cons]
    by_cases hsize : 0 < service.bucketSize.toNat
    · rw [if_pos hsize, Option.bind_some]
      cases filtered pos.phash with
      | true => exact hrest
      | false => simpa [hsize.ne'] using fun h => absurd (hmore pos List.mem_cons_self) (by omega)
    · simp [Nat.eq_zero_of_not_pos hsize]

/-- For peers that are in their buckets the answer is right for every key and filter, but
with a `bucket_size` of 0 it is always yes. -/
theorem amClosestPeer_iff (filtered : HashCode → Bool) (key : HashCode)
    {table : RoutingTable Peer} (hplaced : ∀ bucket, ∀ pi ∈ (table.kBuckets bucket).peers,
      findBucket service pi.phash = some bucket) :
    ∃ answer, amClosestPeer service (fun hash => some (filtered hash)) key table = some answer ∧
      (answer = true ↔ service.bucketSize.toNat = 0 ∨
        ∀ bucket, ∀ pi ∈ (table.kBuckets bucket).peers,
          filtered pi.phash = false → hashMatchingBits service pi.phash key ≤
            hashMatchingBits service (service.hashOf service.myIdentity) key) := by
  rw [amClosestPeer]
  split
  next hsame =>
    refine ⟨true, rfl, fun _ => .inr fun bucket pi _ _ => ?_, fun _ => rfl⟩
    rw [(sameBytes_iff _ _).mp hsame]
    exact hashMatchingBits_le pi.phash key
  next hother =>
    have hlt : hashMatchingBits service (service.hashOf service.myIdentity) key < 512 :=
      lt_of_le_of_ne (hashMatchingBits_le _ _) fun heq => hother ((sameBytes_iff _ _).mpr heq)
    have hcloser : ∀ bucket, ∀ pi ∈ (table.kBuckets bucket).peers,
        hashMatchingBits service (service.hashOf service.myIdentity) key <
          hashMatchingBits service pi.phash key ↔ findBucket service key = some bucket := by
      intro bucket pi hpi
      obtain ⟨_, rfl⟩ := findBucket_eq_some_iff.mp (hplaced bucket pi hpi)
      rw [hashMatchingBits_lt_iff, findBucket_eq_some_iff]
      omega
    have hfound := findBucket_eq_some_iff.mpr ⟨hlt, rfl⟩
    rw [hfound, Option.bind_some, closestLoop_eq filtered fun pi hpi =>
      (hcloser _ pi hpi).mpr hfound]
    refine ⟨_, rfl, ?_⟩
    rw [Bool.or_eq_true, decide_eq_true_iff, List.all_eq_true]
    apply or_congr_right
    constructor
    · intro hall bucket pi hpi hfiltered
      by_contra hnot
      have hbucket := (hcloser bucket pi hpi).mp (Nat.lt_of_not_le hnot)
      rw [hfound, Option.some.injEq] at hbucket
      subst hbucket
      rw [hall pi hpi] at hfiltered
      cases hfiltered
    · intro hall pi hpi
      by_contra hfiltered
      exact absurd ((hcloser _ pi hpi).mpr hfound)
        (not_lt.mpr (hall _ pi hpi (Bool.eq_false_of_not_eq_true hfiltered)))

def oneBucket (bucket : Nat) (peers : List (PeerInfo Peer)) : RoutingTable Peer :=
  { RoutingTable.empty Peer with
    kBuckets := fun other => if other = bucket then ⟨peers, UInt32.ofNat peers.length⟩ else ⟨[], 0⟩
    closestBucket := bucket }

theorem eq_of_mem_oneBucket
    (hpi : pi ∈ ((oneBucket bucket peers).kBuckets other).peers) : other = bucket := by
  by_contra hother
  simp [oneBucket, hother] at hpi

open TableSession (threePeers)

def onePeer (peer : Fin 3) : RoutingTable (Fin 3) :=
  oneBucket 511 [⟨peer, threePeers.hashOf peer, 511⟩]

theorem amClosestPeer_iff_onePeer :
    amClosestPeer threePeers (fun _ => some false) (threePeers.hashOf 1) (onePeer 1) =
      some false := by
  have hplaced : ∀ bucket, ∀ pi ∈ ((onePeer 1).kBuckets bucket).peers,
      findBucket threePeers pi.phash = some bucket := by
    intro bucket pi hpi
    have hbucket := eq_of_mem_oneBucket hpi
    subst hbucket
    cases List.mem_singleton.mp hpi
    decide +kernel
  obtain ⟨_, hanswer, hiff⟩ :=
    amClosestPeer_iff (fun _ => false) (threePeers.hashOf 1) hplaced
  rw [hanswer, Option.some.injEq, ← Bool.not_eq_true, hiff]
  rintro (hsize | hall)
  · cases hsize
  exact absurd (hall 511 _ List.mem_cons_self rfl) (by decide +kernel)

/-- With a `bucket_size` of 0 no peer is looked at. -/
theorem closer_peer_not_looked_at :
    amClosestPeer { threePeers with bucketSize := 0 } (fun _ => some false)
        (threePeers.hashOf 1) (onePeer 1) = some true ∧
      hashMatchingBits threePeers (threePeers.hashOf 0) (threePeers.hashOf 1) <
        hashMatchingBits threePeers (threePeers.hashOf 1) (threePeers.hashOf 1) := by
  decide +kernel

end Gnunet.Dht
