import Gnunet.DhtClosest
import Mathlib.Data.List.MinMax

/-!
# Which peers `select_peer` can choose

The filter is any predicate on hash codes.  A greedy selection looks at the first
`bucket_size` peers of each bucket and returns nobody if a filtered one is the closest; a
random one chooses among the first `bucket_size` peers of the whole table that are not
filtered.
-/

namespace Gnunet.Dht

open List Option

open Container (HashCode)

variable {Peer : Type} (service : Service Peer) (filtered : HashCode → Bool) (key : HashCode)
  (table : RoutingTable Peer)

def firstPeers (bucket : Nat) : List (PeerInfo Peer) :=
  (table.kBuckets bucket).peers.take service.bucketSize.toNat

def visitedPeers : List (PeerInfo Peer) :=
  (range (table.closestBucket + 1)).flatMap (firstPeers service table)

def unfilteredPeers : List (PeerInfo Peer) :=
  (range (table.closestBucket + 1)).flatMap fun bucket =>
    (table.kBuckets bucket).peers.filter fun pi => !filtered pi.phash

/-- What `select_peer` should do, if `greedy` is whether `hops >= GDS_NSE_get ()`. -/
structure Selects (greedy : Bool) : Prop where
  null : ∀ random,
    selectPeer service (fun hash => some (filtered hash)) key table greedy random = some none →
      ∀ bucket, ∀ pi ∈ firstPeers service table bucket, filtered pi.phash = true
  closest : greedy = true → ∀ random chosen,
    selectPeer service (fun hash => some (filtered hash)) key table greedy random =
        some (some chosen) →
      filtered chosen.phash = false ∧
      ∀ bucket, ∀ pi ∈ firstPeers service table bucket, filtered pi.phash = false →
        getDistance service key chosen.phash ≤ getDistance service key pi.phash
  possible : greedy = false → ∀ bucket, ∀ pi ∈ firstPeers service table bucket,
    filtered pi.phash = false → ∃ random,
      selectPeer service (fun hash => some (filtered hash)) key table greedy random = some (some pi)

/-- The first of those peers that are closest to the key. -/
def closestVisited : Option (PeerInfo Peer) :=
  (visitedPeers service table).argmin fun pi => (getDistance service key pi.phash).toNat

/-- When it does. -/
def SelectionCondition : Bool → Prop
  | true => (∀ bucket, ∀ pi ∈ firstPeers service table bucket, filtered pi.phash = true) ∨
      ∃ chosen ∈ closestVisited service key table,
        getDistance service key chosen.phash < 0 - 1 ∧ filtered chosen.phash = false
  | false => ∀ bucket, ∀ pi ∈ firstPeers service table bucket, filtered pi.phash = false →
      pi ∈ (unfilteredPeers filtered table).take service.bucketSize.toNat

variable {service filtered key table}

section

variable (service filtered key)

def consider (best : Option (PeerInfo Peer) × UInt32) (pos : PeerInfo Peer) :
    Option (PeerInfo Peer) × UInt32 :=
  if getDistance service key pos.phash < best.2 then
    (if filtered pos.phash then none else some pos, getDistance service key pos.phash)
  else best

theorem greedyBucket_eq (peers : List (PeerInfo Peer)) (count : Nat)
    (best : Option (PeerInfo Peer) × UInt32) :
    greedyBucket service (fun hash => some (filtered hash)) key peers count best =
      some ((peers.take (service.bucketSize.toNat - count)).foldl
        (consider service filtered key) best) := by
  induction peers generalizing count best with
  | nil => simp [greedyBucket]
  | cons pos rest ih =>
    rw [greedyBucket]
    split
    next hcount =>
      rw [bind_some, ih, show service.bucketSize.toNat - count =
        service.bucketSize.toNat - (count + 1) + 1 by omega, take_succ_cons, foldl_cons]
      rfl
    next hcount =>
      rw [Nat.sub_eq_zero_of_le (Nat.le_of_not_lt hcount), take_zero, foldl_nil]

/-- A peer at the greatest distance is never chosen, since the smallest distance starts
with that value. -/
theorem foldl_consider (peers : List (PeerInfo Peer)) :
    peers.foldl (consider service filtered key) (none, 0 - 1) =
      match peers.argmin fun pi => (getDistance service key pi.phash).toNat with
      | none => (none, 0 - 1)
      | some chosen => consider service filtered key (none, 0 - 1) chosen := by
  induction peers using List.reverseRecOn with
  | nil => rfl
  | append_singleton peers pos ih =>
    rw [foldl_append, foldl_cons, foldl_nil, ih, argmin_concat]
    cases peers.argmin fun pi => (getDistance service key pi.phash).toNat with
    | none => rfl
    | some chosen =>
      have hmax : ((0 : UInt32) - 1).toNat = 2 ^ 32 - 1 := rfl
      simp only [consider, UInt32.lt_iff_toNat_lt, hmax]
      split_ifs <;> simp_all <;> omega

theorem selectPeer_greedy :
    selectPeer service (fun hash => some (filtered hash)) key table true random =
      some ((closestVisited service key table).filter fun chosen =>
        getDistance service key chosen.phash < 0 - 1 && !filtered chosen.phash) := by
  have hloop (buckets : List Nat) (best : Option (PeerInfo Peer) × UInt32) :
      buckets.foldlM (fun best bc => greedyBucket service (fun hash => some (filtered hash)) key
        (table.kBuckets bc).peers 0 best) best =
      some ((buckets.flatMap (firstPeers service table)).foldl
        (consider service filtered key) best) := by
    induction buckets generalizing best with
    | nil => rfl
    | cons bc buckets ih =>
      rw [foldlM_cons, greedyBucket_eq]
      refine (ih _).trans ?_
      rw [flatMap_cons, foldl_append]
      rfl
  rw [selectPeer, if_pos rfl, hloop, map_some]
  change some (List.foldl (consider service filtered key) (none, 0 - 1)
    (visitedPeers service table)).1 = _
  rw [foldl_consider, ← closestVisited]
  cases closestVisited service key table with
  | none => rfl
  | some chosen =>
    rw [filter_some]
    dsimp only
    rw [consider]
    by_cases hbelow : getDistance service key chosen.phash < 0 - 1
    · rw [if_pos hbelow, decide_eq_true hbelow]
      cases filtered chosen.phash <;> rfl
    · rw [if_neg hbelow, decide_eq_false hbelow]
      rfl

end

/-! ## Random selection -/

section

variable (service filtered)

theorem countBucket_eq (peers : List (PeerInfo Peer)) {count : Nat}
    (hcount : count ≤ service.bucketSize.toNat) :
    countBucket service (fun hash => some (filtered hash)) peers count =
      some (min service.bucketSize.toNat
        (count + (peers.filter fun pi => !filtered pi.phash).length)) := by
  induction peers generalizing count with
  | nil => simp [countBucket, hcount]
  | cons pos rest ih =>
    rw [countBucket]
    split
    next hlt =>
      rw [bind_some]
      cases hfiltered : filtered pos.phash with
      | true =>
        rw [if_pos rfl, ih hcount, filter_cons_of_neg (by simp [hfiltered])]
      | false =>
        rw [if_neg (by decide), ih hlt, filter_cons_of_pos (by simp [hfiltered]), length_cons]
        congr 2
        omega
    next hnot =>
      congr 1
      omega

theorem chooseBucket_eq (peers : List (PeerInfo Peer)) (hsize : 0 < service.bucketSize.toNat)
    (selected : Nat) :
    chooseBucket service (fun hash => some (filtered hash)) peers selected =
      some (match (peers.filter fun pi => !filtered pi.phash)[selected]? with
        | some pi => .inl pi
        | none => .inr (selected - (peers.filter fun pi => !filtered pi.phash).length)) := by
  induction peers generalizing selected with
  | nil => rfl
  | cons pos rest ih =>
    rw [chooseBucket, if_pos hsize, bind_some]
    cases hfiltered : filtered pos.phash with
    | true => rw [if_pos rfl, ih, filter_cons_of_neg (by simp [hfiltered])]
    | false =>
      rw [if_neg (by decide), filter_cons_of_pos (by simp [hfiltered])]
      cases selected with
      | zero => rfl
      | succ selected =>
        rw [if_neg (Nat.succ_ne_zero _), Nat.add_sub_cancel, ih, getElem?_cons_succ,
          length_cons, Nat.add_sub_add_right]

variable (key table)

theorem selectPeer_random (random : Nat → Nat) :
    ∃ count, count = min service.bucketSize.toNat (unfilteredPeers filtered table).length ∧
      selectPeer service (fun hash => some (filtered hash)) key table false random =
        some (if count = 0 then none else (unfilteredPeers filtered table)[random count % count]?) := by
  have hcount (buckets : List Nat) {count : Nat} (hle : count ≤ service.bucketSize.toNat) :
      buckets.foldlM (fun count bc => countBucket service (fun hash => some (filtered hash))
        (table.kBuckets bc).peers count) count =
      some (min service.bucketSize.toNat (count + (buckets.flatMap fun bucket =>
        (table.kBuckets bucket).peers.filter fun pi => !filtered pi.phash).length)) := by
    induction buckets generalizing count with
    | nil => simp [hle]
    | cons bc buckets ih =>
      rw [foldlM_cons, countBucket_eq service filtered _ hle]
      refine (ih (Nat.min_le_left _ _)).trans ?_
      rw [flatMap_cons, length_append]
      congr 1
      omega
  have hchoose (hsize : 0 < service.bucketSize.toNat) (buckets : List Nat) (selected : Nat) :
      chooseLoop service (fun hash => some (filtered hash)) table.kBuckets buckets selected =
      some (buckets.flatMap fun bucket =>
        (table.kBuckets bucket).peers.filter fun pi => !filtered pi.phash)[selected]? := by
    induction buckets generalizing selected with
    | nil => rfl
    | cons bc buckets ih =>
      rw [chooseLoop, chooseBucket_eq service filtered _ hsize, bind_some,
        flatMap_cons, getElem?_append]
      generalize (table.kBuckets bc).peers.filter _ = peers
      by_cases hlt : selected < peers.length
      · rw [if_pos hlt, getElem?_eq_getElem hlt]
      · rw [if_neg hlt, getElem?_eq_none (Nat.le_of_not_lt hlt)]
        exact ih _
  refine ⟨_, rfl, ?_⟩
  rw [selectPeer, if_neg (by decide), hcount _ (Nat.zero_le _), bind_some, Nat.zero_add,
    ← unfilteredPeers]
  split
  · rfl
  next hne =>
    exact hchoose (by omega) _ _

end

theorem selects_random_iff : Selects service filtered key table false ↔
    SelectionCondition service filtered key table false := by
  constructor
  · intro h bucket pi hpi hfiltered
    obtain ⟨random, hchosen⟩ := h.possible rfl bucket pi hpi hfiltered
    obtain ⟨count, hcount, hselect⟩ := selectPeer_random service filtered key table random
    rw [hselect, some.injEq] at hchosen
    split at hchosen
    · cases hchosen
    next hne =>
      have hlt := Nat.mod_lt (random count) (Nat.pos_of_ne_zero hne)
      rw [← getElem?_take_of_lt (by omega : _ < service.bucketSize.toNat)] at hchosen
      exact mem_of_getElem? hchosen
  · intro hcondition
    refine ⟨fun random hnone bucket pi hpi => ?_, nofun, fun _ bucket pi hpi hfiltered => ?_⟩
    · by_contra hfiltered
      have hmem := hcondition bucket pi hpi (Bool.eq_false_of_not_eq_true hfiltered)
      obtain ⟨count, hcount, hselect⟩ := selectPeer_random service filtered key table random
      have hpos := length_pos_of_mem hmem
      rw [length_take] at hpos
      have hlt := Nat.mod_lt (random count) (by omega : 0 < count)
      rw [hselect, if_neg (by omega), some.injEq, getElem?_eq_none_iff] at hnone
      omega
    · obtain ⟨i, hi, hget⟩ := mem_iff_getElem.mp (hcondition bucket pi hpi hfiltered)
      obtain ⟨_, _, hselect⟩ := selectPeer_random service filtered key table fun _ => i
      rw [length_take] at hi
      refine ⟨fun _ => i, ?_⟩
      rw [hselect, if_neg (by omega), Nat.mod_eq_of_lt (by omega), ← hget, getElem_take]
      exact congrArg some (getElem?_eq_getElem _)

section

variable (hcovers : ∀ bucket, (table.kBuckets bucket).peers ≠ [] → bucket ≤ table.closestBucket)
include hcovers

theorem mem_visitedPeers {pi : PeerInfo Peer}
    (hpi : pi ∈ firstPeers service table bucket) : pi ∈ visitedPeers service table := by
  have hle := hcovers bucket (ne_nil_of_mem (mem_of_mem_take hpi))
  exact mem_flatMap.mpr ⟨bucket, mem_range.mpr (Nat.lt_succ_of_le hle), hpi⟩

theorem selects_greedy_iff : Selects service filtered key table true ↔
    SelectionCondition service filtered key table true := by
  constructor
  · intro h
    cases hchosen : (closestVisited service key table).filter fun chosen =>
        getDistance service key chosen.phash < 0 - 1 && !filtered chosen.phash with
    | none => exact .inl (h.null id (by rw [selectPeer_greedy, hchosen]))
    | some chosen =>
      exact .inr ⟨chosen, by simpa using hchosen⟩
  · intro hcondition
    refine ⟨fun random hnone => ?_, fun _ random chosen hchosen => ?_, nofun⟩
    · rw [selectPeer_greedy, some.injEq] at hnone
      rcases hcondition with hall | ⟨_, hclosest, hbelow, hfiltered⟩
      · exact hall
      · rw [mem_def.mp hclosest, filter_some,
          if_pos (by rw [decide_eq_true hbelow, hfiltered]; rfl)] at hnone
        cases hnone
    · rw [selectPeer_greedy, some.injEq, filter_eq_some_iff] at hchosen
      obtain ⟨hclosest, _⟩ := hchosen
      refine ⟨by simp_all, fun bucket pi hpi _ => ?_⟩
      have hle := le_of_mem_argmin (mem_visitedPeers hcovers hpi) hclosest
      exact UInt32.le_iff_toNat_le.mpr hle

/-- In both modes `select_peer` does what is expected exactly under the condition. -/
theorem selects_iff (greedy : Bool) : Selects service filtered key table greedy ↔
    SelectionCondition service filtered key table greedy := by
  cases greedy with
  | true => exact selects_greedy_iff hcovers
  | false => exact selects_random_iff

end

open TableSession (oneBucketPeers)

def twoPeers : RoutingTable (Fin 3) :=
  oneBucket 511 ((finRange 3).tail.map fun peer => ⟨peer, oneBucketPeers.hashOf peer, 511⟩)

theorem selects_iff_twoPeers :
    Selects oneBucketPeers (fun _ => false) (oneBucketPeers.hashOf 1) twoPeers true := by
  refine (selects_iff (fun bucket hpeers => ?_) true).mpr
    (.inr ⟨⟨1, oneBucketPeers.hashOf 1, 511⟩, ?_⟩)
  · exact (eq_of_mem_oneBucket (exists_mem_of_ne_nil _ hpeers).choose_spec).le
  · decide +kernel

/-- Two peers connect.  The closest one is filtered, so that nobody is selected, though there
is another one. -/
theorem filtered_peer_hides_other :
    ∃ table ∈ [1, 2].foldlM (RoutingTable.handleCoreConnect oneBucketPeers) (.empty (Fin 3)),
      selectPeer oneBucketPeers (fun hash => some (hash = oneBucketPeers.hashOf 1))
        (oneBucketPeers.hashOf 1) table true id = some none ∧
      ⟨2, oneBucketPeers.hashOf 2, 511⟩ ∈ firstPeers oneBucketPeers table 511 ∧
      oneBucketPeers.hashOf 2 ≠ oneBucketPeers.hashOf 1 := by
  decide +kernel

end Gnunet.Dht
