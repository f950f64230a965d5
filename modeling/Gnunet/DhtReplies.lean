import Gnunet.GuardedRun

/-!
# Requests and replies of the DHT

`gnunet-service-dht_routing.c`: the requests of other peers are kept for a while, so that results
can be passed back.  A request is known by its address, under which it is in the heap and in the
map.  The order in which the map lists the requests for a key is any order.
-/

namespace Gnunet.Dht

open Protocol List Function

def dhtMaxRecent : Nat := 1024 * 16

/-- `GNUNET_BLOCK_TYPE_ANY` and `GNUNET_BLOCK_TYPE_DHT_HELLO`. -/
def blockTypeAny : Nat := 0

def blockTypeDhtHello : Nat := 7

inductive EvaluationResult where
  | okMore
  | okLast
  | okDuplicate
  | resultInvalid
  | resultIrrelevant
  | requestValid
  | requestInvalid
  | typeNotSupported
  deriving DecidableEq

structure RecentRequest (Peer Key Group : Type) where
  peer : Peer
  key : Key
  bg : Group
  type : Nat
  xquery : List UInt8
  recordRoute : Bool
  findPeer : Bool
  deriving DecidableEq

/-- `struct ProcessContext`. -/
structure ProcessContext (Peer : Type) where
  type : Nat
  expirationTime : Nat
  putPath : List Peer
  getPath : List Peer
  data : List UInt8

/-- The arguments of `GDS_NEIGHBOURS_handle_reply`. -/
structure Reply (Peer Key : Type) where
  peer : Peer
  type : Nat
  expirationTime : Nat
  key : Key
  putPath : List Peer
  getPath : List Peer
  data : List UInt8
  deriving DecidableEq

/-- The block library: the evaluation, after which the group may be another one, the key of a block
and merging of groups. -/
structure BlockContext (Key Group : Type) where
  evaluate : Nat → Group → Key → List UInt8 → List UInt8 → EvaluationResult × Group
  getKey : List UInt8 → Key
  groupMerge : Group → Group → Group

/-- Requests that are combined. -/
structure Same {Peer Key Group : Type} (rr rr' : RecentRequest Peer Key Group) : Prop where
  peer : rr.peer = rr'.peer
  type : rr.type = rr'.type
  xquery : rr.xquery = rr'.xquery

structure RecentRequests (Peer Key Group : Type) where
  request : Nat → RecentRequest Peer Key Group
  recentHeap : List (Nat × Nat)
  recentMap : List Nat
  fresh : Nat

variable {Peer Key Group : Type}

namespace RecentRequest

variable (blocks : BlockContext Key Group) (pc : ProcessContext Peer)
  (rr : RecentRequest Peer Key Group)

def typeMatches : Bool :=
  rr.type = blockTypeAny || rr.type = pc.type

/-- The search for peers is approximate: there the key is the one of the HELLO. -/
def eval : EvaluationResult × Group :=
  let evalKey := if rr.findPeer ∧ pc.type = blockTypeDhtHello then blocks.getKey pc.data else rr.key
  blocks.evaluate pc.type rr.bg evalKey rr.xquery pc.data

def reply : Reply Peer Key :=
  ⟨rr.peer, pc.type, pc.expirationTime, rr.key, if rr.recordRoute then pc.putPath else [],
    if rr.recordRoute then pc.getPath else [], pc.data⟩

/-- `process`: what is passed on, and whether the iteration goes on. -/
def process : Option (Reply Peer Key) × Bool :=
  if rr.typeMatches pc then
    match (rr.eval blocks pc).1 with
    | .okMore | .okLast => (some (rr.reply pc), true)
    | .okDuplicate | .resultIrrelevant | .requestValid | .requestInvalid => (none, true)
    | .resultInvalid | .typeNotSupported => (none, false)
  else (none, true)

/-- The request after `process`. -/
def processed : RecentRequest Peer Key Group :=
  if rr.typeMatches pc then { rr with bg := (rr.eval blocks pc).2 } else rr

end RecentRequest

namespace RecentRequests

/-- The iteration over the requests for a key: what is passed on and the requests afterwards. -/
def processAll (blocks : BlockContext Key Group) (pc : ProcessContext Peer) :
    List Nat → (Nat → RecentRequest Peer Key Group) →
      List (Reply Peer Key) × (Nat → RecentRequest Peer Key Group)
  | [], request => ([], request)
  | p :: rest, request =>
    let result := (request p).process blocks pc
    let request' := update request p ((request p).processed blocks pc)
    if result.2 then
      let later := processAll blocks pc rest request'
      (result.1.toList ++ later.1, later.2)
    else (result.1.toList, request')

def init [Inhabited (RecentRequest Peer Key Group)] : RecentRequests Peer Key Group :=
  ⟨fun _ => default, [], [], 0⟩

/-- The order in which the map lists its entries, or in which the heap has its nodes: among
nodes of equal cost any one may be its root. -/
structure Order (A : Type) where
  list : List A → List A
  perm : ∀ ps, (list ps).Perm ps

def expireOldestEntry (heap : Order (Nat × Nat)) (s : RecentRequests Peer Key Group) :
    Option (RecentRequests Peer Key Group) :=
  match (heap.list s.recentHeap).argmin Prod.snd with
  | none => none
  | some node =>
    if node.1 ∈ s.recentMap then
      some { s with recentHeap := s.recentHeap.erase node, recentMap := s.recentMap.erase node.1 }
    else none

/-- The loop of `GDS_ROUTING_add`, which ends when the heap has become small enough. -/
def expireLoop (heap : Order (Nat × Nat)) :
    Nat → RecentRequests Peer Key Group → Option (RecentRequests Peer Key Group)
  | 0, s => if s.recentHeap.length < dhtMaxRecent then some s else none
  | rounds + 1, s =>
    if s.recentHeap.length < dhtMaxRecent then some s
    else (s.expireOldestEntry heap).bind (expireLoop heap rounds)

/-- The heap and the map have the same requests, not too many and each once. -/
structure Recorded (s : RecentRequests Peer Key Group) : Prop where
  same : (s.recentHeap.map Prod.fst).Perm s.recentMap
  once : s.recentMap.Nodup
  bounded : s.recentMap.length ≤ dhtMaxRecent
  distinct : ∀ p ∈ s.recentMap, ∀ q ∈ s.recentMap, (s.request p).key = (s.request q).key →
    Same (s.request p) (s.request q) → p = q

structure Valid (s : RecentRequests Peer Key Group) : Prop extends Recorded s where
  older : ∀ p ∈ s.recentMap, p < s.fresh

variable {blocks : BlockContext Key Group} {pc : ProcessContext Peer}
  {s s' : RecentRequests Peer Key Group} (heap : Order (Nat × Nat))

/-- Only the groups of the requests differ. -/
def Regrouped (request request' : Nat → RecentRequest Peer Key Group) : Prop :=
  ∀ p, ∃ bg, request' p = { request p with bg := bg }

theorem regrouped_update {request : Nat → RecentRequest Peer Key Group}
    {rr : RecentRequest Peer Key Group} (hrr : ∃ bg, rr = { request p with bg := bg }) :
    Regrouped request (update request p rr) := by
  intro q
  by_cases hq : q = p
  · subst hq
    rwa [update_self]
  · exact ⟨(request q).bg, update_of_ne hq _ _⟩

theorem Valid.regroup (h : Valid s) {request : Nat → RecentRequest Peer Key Group}
    (hrequest : Regrouped s.request request) : Valid { s with request := request } := by
  refine ⟨⟨h.same, h.once, h.bounded, fun p hp q hq hkey hsame => ?_⟩, h.older⟩
  obtain ⟨_, hp'⟩ := hrequest p
  obtain ⟨_, hq'⟩ := hrequest q
  simp only [hp', hq'] at hkey hsame
  exact h.distinct p hp q hq hkey ⟨hsame.peer, hsame.type, hsame.xquery⟩

theorem Valid.expireOldestEntry (h : Valid s) (hfull : ¬ s.recentHeap.length < dhtMaxRecent) :
    ∃ s', s.expireOldestEntry heap = some s' ∧ Valid s' ∧ s'.recentHeap.length < dhtMaxRecent := by
  have hlength : s.recentHeap.length = s.recentMap.length := by
    rw [← h.same.length_eq, length_map]
  have hbounded := h.bounded
  unfold RecentRequests.expireOldestEntry
  cases hmin : (heap.list s.recentHeap).argmin Prod.snd with
  | none =>
    rw [argmin_eq_none] at hmin
    have hempty := (heap.perm s.recentHeap).length_eq
    simp [hmin] at hempty
    simp [← hempty, dhtMaxRecent] at hfull
  | some node =>
    have hnode := (heap.perm _).subset (argmin_mem hmin)
    have hmem : node.1 ∈ s.recentMap := h.same.subset (mem_map_of_mem hnode)
    refine ⟨_, if_pos hmem, ⟨⟨?_, h.once.erase _, ?_, ?_⟩, ?_⟩, ?_⟩
    · -- the node is the only one with its request
      have hperm := ((perm_cons_erase hnode).map Prod.fst).symm.trans
        (h.same.trans (perm_cons_erase hmem))
      exact Perm.cons_inv hperm
    · rw [length_erase_of_mem hmem]
      exact (Nat.sub_le _ _).trans h.bounded
    · exact fun p hp q hq => h.distinct p (mem_of_mem_erase hp) q (mem_of_mem_erase hq)
    · exact fun p hp => h.older p (mem_of_mem_erase hp)
    · have hpos := length_pos_of_mem hnode
      rw [length_erase_of_mem hnode]
      omega

theorem expireLoop_of_lt (rounds : Nat) (hroom : s.recentHeap.length < dhtMaxRecent) :
    expireLoop heap rounds s = some s := by
  cases rounds <;> exact if_pos hroom

theorem Valid.expireLoop (h : Valid s) :
    ∃ s', expireLoop heap s.recentHeap.length s = some s' ∧ Valid s' ∧
      s'.recentHeap.length < dhtMaxRecent := by
  by_cases hfull : s.recentHeap.length < dhtMaxRecent
  · exact ⟨s, expireLoop_of_lt heap _ hfull, h, hfull⟩
  · -- one round makes room
    obtain ⟨s', hexpire, hs', hroom⟩ := h.expireOldestEntry heap hfull
    obtain ⟨rounds, hrounds⟩ : ∃ rounds, s.recentHeap.length = rounds + 1 :=
      Nat.exists_eq_succ_of_ne_zero fun hzero => hfull (by simp [hzero, dhtMaxRecent])
    refine ⟨s', ?_, hs', hroom⟩
    rw [hrounds, RecentRequests.expireLoop, if_neg hfull]
    simp only [hexpire, Option.bind_some, expireLoop_of_lt heap _ hroom]

/-- The result is passed back for the request. -/
def served (blocks : BlockContext Key Group) (pc : ProcessContext Peer)
    (rr : RecentRequest Peer Key Group) : Bool :=
  rr.typeMatches pc && ((rr.eval blocks pc).1 = .okMore || (rr.eval blocks pc).1 = .okLast)

/-- The result is not valid for the request, or its type is not supported. -/
def ends (blocks : BlockContext Key Group) (pc : ProcessContext Peer)
    (rr : RecentRequest Peer Key Group) : Bool :=
  rr.typeMatches pc &&
    ((rr.eval blocks pc).1 = .resultInvalid || (rr.eval blocks pc).1 = .typeNotSupported)

theorem process_eq (rr : RecentRequest Peer Key Group) : rr.process blocks pc =
      (if served blocks pc rr then some (rr.reply pc) else none, !ends blocks pc rr) := by
  unfold RecentRequest.process served ends
  cases rr.typeMatches pc <;> cases (rr.eval blocks pc).1 <;> rfl

theorem processAll_replies {ps : List Nat} (hps : ps.Nodup)
    (request : Nat → RecentRequest Peer Key Group) : (processAll blocks pc ps request).1 =
      (((ps.map request).takeWhile (!ends blocks pc ·)).filter (served blocks pc)).map
        (·.reply pc) := by
  induction ps generalizing request with
  | nil => rfl
  | cons p rest ih =>
    obtain ⟨hp, hrest⟩ := nodup_cons.mp hps
    have hdisjoint : ends blocks pc (request p) = true → served blocks pc (request p) = false := by
      unfold ends served
      cases (request p).typeMatches pc <;> cases ((request p).eval blocks pc).1 <;> decide
    -- the group of one request says nothing about the others
    have hothers : rest.map (update request p ((request p).processed blocks pc)) =
        rest.map request :=
      map_congr_left fun q hq => update_of_ne (ne_of_mem_of_not_mem hq hp) _ _
    simp only [processAll, process_eq, ih hrest, hothers]
    cases hends : ends blocks pc (request p) with
    | true => simp [hdisjoint hends, hends]
    | false => cases hserved : served blocks pc (request p) <;> simp [hends, hserved]

theorem regrouped_processAll (ps : List Nat) (request : Nat → RecentRequest Peer Key Group) :
    Regrouped request (processAll blocks pc ps request).2 := by
  induction ps generalizing request with
  | nil => exact fun p => ⟨(request p).bg, rfl⟩
  | cons p rest ih =>
    have hone : Regrouped request (update request p ((request p).processed blocks pc)) := by
      apply regrouped_update
      unfold RecentRequest.processed
      split
      · exact ⟨_, rfl⟩
      · exact ⟨(request p).bg, rfl⟩
    simp only [processAll]
    split
    · intro q
      obtain ⟨bg, hbg⟩ := ih (update request p ((request p).processed blocks pc)) q
      obtain ⟨_, hbg'⟩ := hone q
      exact ⟨bg, by rw [hbg, hbg']⟩
    · exact hone

variable [DecidableEq Peer] [DecidableEq Key]

instance (rr rr' : RecentRequest Peer Key Group) : Decidable (Same rr rr') :=
  decidable_of_iff (rr.peer = rr'.peer ∧ rr.type = rr'.type ∧ rr.xquery = rr'.xquery)
    ⟨fun h => ⟨h.1, h.2.1, h.2.2⟩, fun h => ⟨h.peer, h.type, h.xquery⟩⟩

def requestsFor (s : RecentRequests Peer Key Group) (key : Key) : List Nat :=
  s.recentMap.filter fun p => (s.request p).key = key

/-- The end of `GDS_ROUTING_add`, after the loop. -/
def record (blocks : BlockContext Key Group) (now : Nat) (in' : RecentRequest Peer Key Group)
    (order : Order Nat) (s : RecentRequests Peer Key Group) : RecentRequests Peer Key Group :=
  match (order.list (s.requestsFor in'.key)).find? fun p => Same in' (s.request p) with
  | some p =>
    let rr := s.request p
    { s with
      request := update s.request p { rr with bg := blocks.groupMerge in'.bg rr.bg } }
  | none =>
    { request := update s.request s.fresh in'
      recentHeap := (s.fresh, now) :: s.recentHeap
      recentMap := s.fresh :: s.recentMap
      fresh := s.fresh + 1 }

def routingAdd (blocks : BlockContext Key Group) (now : Nat) (in' : RecentRequest Peer Key Group)
    (order : Order Nat) (heap : Order (Nat × Nat)) (s : RecentRequests Peer Key Group) :
    Option (RecentRequests Peer Key Group) :=
  (expireLoop heap s.recentHeap.length s).map (record blocks now in' order)

def routingProcess (blocks : BlockContext Key Group) (pc : ProcessContext Peer) (key : Key)
    (order : Order Nat) (s : RecentRequests Peer Key Group) :
    List (Reply Peer Key) × RecentRequests Peer Key Group :=
  let result := processAll blocks pc (order.list (s.requestsFor key)) s.request
  (result.1, { s with request := result.2 })

inductive Event (Peer Key Group : Type) where
  | add (now : Nat) (request : RecentRequest Peer Key Group) (order : Order Nat)
      (heap : Order (Nat × Nat))
  | process (pc : ProcessContext Peer) (key : Key) (order : Order Nat)

def step (blocks : BlockContext Key Group) (s : RecentRequests Peer Key Group) :
    Event Peer Key Group → Option (RecentRequests Peer Key Group)
  | .add now request order heap => s.routingAdd blocks now request order heap
  | .process pc key order => some (s.routingProcess blocks pc key order).2

theorem Valid.record (h : Valid s) (hroom : s.recentHeap.length < dhtMaxRecent) (now : Nat)
    (in' : RecentRequest Peer Key Group) (order : Order Nat) :
    Valid (s.record blocks now in' order) := by
  unfold RecentRequests.record
  split
  · next p _ =>
    -- only the group of the request changes
    exact h.regroup (regrouped_update ⟨_, rfl⟩)
  · next hnone =>
    have hnew : ∀ p ∈ s.recentMap, (s.request p).key = in'.key → ¬ Same in' (s.request p) := by
      intro p hp hkey
      have hlisted : p ∈ order.list (s.requestsFor in'.key) :=
        (order.perm _).mem_iff.mpr (mem_filter.mpr ⟨hp, by simpa using hkey⟩)
      simpa using find?_eq_none.mp hnone p hlisted
    have hfresh : s.fresh ∉ s.recentMap := fun hmem => (h.older _ hmem).false
    have hold : ∀ p ∈ s.recentMap, update s.request s.fresh in' p = s.request p :=
      fun p hp => update_of_ne (ne_of_mem_of_not_mem hp hfresh) _ _
    have hlength := h.same.length_eq
    rw [length_map] at hlength
    refine ⟨⟨h.same.cons _, nodup_cons.mpr ⟨hfresh, h.once⟩, ?_, ?_⟩, ?_⟩
    · simp only [length_cons]
      omega
    · intro p hp q hq hkey hsame
      rcases mem_cons.mp hp with rfl | hp <;> rcases mem_cons.mp hq with rfl | hq
      · rfl
      · simp only [update_self, hold q hq] at hkey hsame
        exact absurd hsame (hnew q hq hkey.symm)
      · simp only [update_self, hold p hp] at hkey hsame
        exact absurd ⟨hsame.peer.symm, hsame.type.symm, hsame.xquery.symm⟩ (hnew p hp hkey)
      · simp only [hold p hp, hold q hq] at hkey hsame
        exact h.distinct p hp q hq hkey hsame
    · intro p hp
      rcases mem_cons.mp hp with rfl | hp
      · exact Nat.lt_succ_self _
      · exact (h.older p hp).trans (Nat.lt_succ_self _)

theorem Valid.step (h : Valid s) (event : Event Peer Key Group) :
    ∃ s', step blocks s event = some s' ∧ Valid s' := by
  cases event with
  | add now request order heap =>
    obtain ⟨_, hexpire, hs', hroom⟩ := h.expireLoop heap
    exact ⟨_, congrArg (Option.map _) hexpire, hs'.record hroom now request order⟩
  | process pc key order =>
    exact ⟨_, rfl, h.regroup (regrouped_processAll _ _)⟩

/-- The result is passed back for all requests for which it is good, and for no other. -/
def PassedBack (blocks : BlockContext Key Group) (pc : ProcessContext Peer) (key : Key)
    (order : Order Nat) (s : RecentRequests Peer Key Group) : Prop :=
  (s.routingProcess blocks pc key order).1.Perm
    ((((s.requestsFor key).map s.request).filter (served blocks pc)).map (·.reply pc))

/-- The requests are recorded as they should be.  A result is passed back as it should be exactly
if no request for which it is good is listed behind one that ends the iteration. -/
theorem passedBack_iff_of_run [Inhabited (RecentRequest Peer Key Group)]
    {events : List (Event Peer Key Group)}
    (hrun : Run (step blocks) (fun _ _ => True) init events s) :
    Recorded s ∧ (∀ event, (step blocks s event).isSome) ∧ ∀ pc key order,
      PassedBack blocks pc key order s ↔
        ∀ rr ∈ ((order.list (s.requestsFor key)).map s.request).dropWhile (!ends blocks pc ·),
          served blocks pc rr = false := by
  obtain ⟨hvalid, hnext⟩ := hrun.progress Valid ⟨⟨.nil, .nil, Nat.zero_le _, nofun⟩, nofun⟩
    fun _ event h _ => h.step event
  refine ⟨hvalid.toRecorded, fun event => hnext event trivial, fun pc key order => ?_⟩
  have hperm := (((order.perm (s.requestsFor key)).map s.request).filter
    (served blocks pc)).map (·.reply pc)
  have hnodup : (order.list (s.requestsFor key)).Nodup :=
    (order.perm _).nodup_iff.mpr (hvalid.once.filter _)
  rw [PassedBack, routingProcess, processAll_replies hnodup]
  set rrs := (order.list (s.requestsFor key)).map s.request
  have hsplit : rrs.filter (served blocks pc) =
      (rrs.takeWhile (!ends blocks pc ·)).filter (served blocks pc) ++
        (rrs.dropWhile (!ends blocks pc ·)).filter (served blocks pc) := by
    rw [← filter_append, takeWhile_append_dropWhile]
  rw [hsplit] at hperm
  constructor
  · intro hpassed
    have hlength := (hpassed.trans hperm.symm).length_eq
    simp only [length_map, length_append] at hlength
    have hnil := length_eq_zero_iff.mp (by omega : ((rrs.dropWhile (!ends blocks pc ·)).filter
      (served blocks pc)).length = 0)
    simpa using hnil
  · intro hnone
    have hnil : (rrs.dropWhile (!ends blocks pc ·)).filter (served blocks pc) = [] := by
      simpa using hnone
    rw [hnil, append_nil] at hperm
    exact hperm

def listed : Order A :=
  ⟨id, fun _ => .refl _⟩

/-- A block whose extended query has to be empty; a group says whether the result is known. -/
def testBlocks : BlockContext Nat Bool where
  evaluate _ bg _ xquery _ :=
    (if xquery ≠ [] then .resultInvalid else if bg then .okDuplicate else .okMore, true)
  getKey _ := 0
  groupMerge bg bg' := bg || bg'

def requestOf (peer : Nat) (xquery : List UInt8) : RecentRequest Nat Nat Bool :=
  ⟨peer, 5, false, blockTypeAny, xquery, false, false⟩

instance : Inhabited (RecentRequest Nat Nat Bool) := ⟨requestOf 0 []⟩

def testResult : ProcessContext Nat := ⟨1, 100, [8], [9], [3]⟩

theorem passedBack_iff_of_run_two : ∃ s,
    Run (step testBlocks) (fun _ _ => True) init
      [.add 0 (requestOf 1 []) listed listed, .add 1 (requestOf 2 []) listed listed,
        .add 2 (requestOf 1 []) listed listed] s ∧
      s.recentMap = [1, 0] ∧
      (PassedBack testBlocks testResult 5 listed s ↔
        ∀ rr ∈ ((listed.list (s.requestsFor 5)).map s.request).dropWhile
          (!ends testBlocks testResult ·), served testBlocks testResult rr = false) :=
  Run.exists_of_exec_and (by decide +kernel) fun _ hrun _ =>
    (passedBack_iff_of_run hrun).2.2 testResult 5 listed

/-- The request of peer 2 ends the iteration, and peer 1 does not get the result. -/
theorem good_result_not_passed_back : ∃ s,
    Run (step testBlocks) (fun _ _ => True) init
      [.add 0 (requestOf 1 []) listed listed, .add 1 (requestOf 2 [7]) listed listed] s ∧
      s.requestsFor 5 = [1, 0] ∧ (s.request 0).peer = 1 ∧
      served testBlocks testResult (s.request 0) = true ∧
      (s.routingProcess testBlocks testResult 5 listed).1 = [] :=
  Run.exists_of_exec (by decide +kernel)

end RecentRequests

end Gnunet.Dht
