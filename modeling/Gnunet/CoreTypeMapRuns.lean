import Gnunet.CoreTypeMap

/-!
# The bookkeeping of type maps over whole runs

Modulo 256 the counters are exact.  What this means for the bits: adding types is
always right, and removing them clears the bit of a type each time the number of
listings reaches a multiple of 256.  What a client knows is compared with the
type maps of all sessions at once, where a peer without a session has none; every
notification is then the change of one such map.
-/

namespace Gnunet.Core

open List Function TypeMap OwnTypeMap Protocol

namespace OwnTypeMap

/-- The counters are those of `n` listings of each type. -/
def Counts (own : OwnTypeMap) (n : UInt16 → Nat) : Prop :=
  ∀ type, (own.mapCounters type).toNat = n type % 256

variable {n : UInt16 → Nat}

theorem counts_add {own : OwnTypeMap} (hcounts : own.Counts n) (type other : UInt16) :
    (update own.mapCounters type (own.mapCounters type + 1) other).toNat =
      (n other + if other = type then 1 else 0) % 256 := by
  by_cases hother : other = type
  · subst hother
    rw [update_self, if_pos rfl, UInt8.toNat_add, hcounts other]
    simp
  · rw [update_of_ne hother, if_neg hother, hcounts other, Nat.add_zero]

theorem counts_remove {own : OwnTypeMap} (hcounts : own.Counts n)
    (hpos : 0 < n type) (other : UInt16) :
    (update own.mapCounters type (own.mapCounters type - 1) other).toNat =
      (n other - if other = type then 1 else 0) % 256 := by
  by_cases hother : other = type
  · subst hother
    have hcounter := hcounts other
    have hone : (1 : UInt8).toNat = 1 := rfl
    rw [update_self, if_pos rfl, UInt8.toNat_sub, hone, hcounter]
    omega
  · rw [update_of_ne hother, if_neg hother, hcounts other, Nat.sub_zero]

theorem count_cons_type (x : UInt16) (types : List UInt16) (type : UInt16) :
    (x :: types).count type = types.count type + if type = x then 1 else 0 := by
  by_cases htype : type = x
  · simp [htype]
  · simp [htype, Ne.symm htype]

/-- Adding types sets their bits, since the counter of a type whose bit is clear is zero. -/
theorem foldl_addType (types : List UInt16) {loop : OwnTypeMap × Bool} (hcounts : loop.1.Counts n)
    (hset : ∀ type, 0 < n type → loop.1.myTypeMap.bit type = true) :
    (types.foldl addType loop).1.Counts (fun type => n type + types.count type) ∧
      ∀ type, (types.foldl addType loop).1.myTypeMap.bit type = true ↔
        loop.1.myTypeMap.bit type = true ∨ type ∈ types := by
  induction types generalizing loop n with
  | nil => exact ⟨hcounts, fun type => by simp⟩
  | cons x types ih =>
    have hbit : ∀ type, (addType loop x).1.myTypeMap.bit type =
        (loop.1.myTypeMap.bit type || decide (type = x)) := by
      intro type
      rw [addType]
      split
      · exact bit_setBit _ _ _
      next hcounter =>
        by_cases htype : type = x
        · -- the counter is not zero, so the type is listed and its bit is set
          have hpos : 0 < n x := by
            by_contra hzero
            apply hcounter
            rw [← UInt8.toNat_inj, hcounts x, Nat.eq_zero_of_not_pos hzero]
            rfl
          simp [htype, hset x hpos]
        · simp [htype]
    have hcounts' : (addType loop x).1.Counts (fun type => n type + if type = x then 1 else 0) := by
      intro type
      rw [← counts_add hcounts x type, addType]
      split <;> rfl
    obtain ⟨hcount, hbits⟩ := ih hcounts' (by
      intro type hpos
      rw [hbit]
      by_cases htype : type = x
      · simp [htype]
      · simp only [htype, if_false, Nat.add_zero] at hpos
        simp [hset type hpos])
    constructor
    · intro type
      rw [foldl_cons, hcount type]
      dsimp only
      rw [count_cons_type]
      congr 1
      omega
    · intro type
      rw [foldl_cons, hbits type, hbit type, mem_cons]
      simp only [Bool.or_eq_true, decide_eq_true_eq]
      tauto

/-- Removing types clears a bit exactly when the number of listings reaches a
multiple of 256 on the way. -/
theorem foldl_removeType (types : List UInt16) {loop : OwnTypeMap × Bool}
    (hcounts : loop.1.Counts n) (hle : ∀ type, types.count type ≤ n type) :
    (types.foldl removeType loop).1.Counts (fun type => n type - types.count type) ∧
      ∀ type, (types.foldl removeType loop).1.myTypeMap.bit type = true ↔
        loop.1.myTypeMap.bit type = true ∧
          ∀ m, n type - types.count type ≤ m → m < n type → ¬ 256 ∣ m := by
  induction types generalizing loop n with
  | nil =>
    refine ⟨hcounts, fun type => ?_⟩
    simp only [foldl_nil, count_nil, Nat.sub_zero]
    exact ⟨fun hbit => ⟨hbit, fun m hge hlt => by omega⟩, fun h => h.1⟩
  | cons x types ih =>
    have hpos : 0 < n x := by
      have := hle x
      rw [count_cons_self] at this
      omega
    have hcounts' : (removeType loop x).1.Counts
        (fun type => n type - if type = x then 1 else 0) := by
      intro type
      rw [← counts_remove hcounts hpos type, removeType]
      split <;> rfl
    have hcleared : loop.1.mapCounters x - 1 = 0 ↔ 256 ∣ n x - 1 := by
      have hcounter := counts_remove hcounts hpos x
      rw [update_self, if_pos rfl] at hcounter
      rw [← UInt8.toNat_inj, hcounter, Nat.dvd_iff_mod_eq_zero]
      rfl
    have hbit : ∀ type, (removeType loop x).1.myTypeMap.bit type = true ↔
        loop.1.myTypeMap.bit type = true ∧ (type = x → ¬ 256 ∣ n x - 1) := by
      intro type
      rw [removeType]
      split
      next hcounter =>
        have hdvd := hcleared.mp hcounter
        rw [bit_clearBit]
        simp [hdvd]
      next hcounter =>
        have hdvd : ¬ 256 ∣ n x - 1 := fun h => hcounter (hcleared.mpr h)
        exact ⟨fun hset => ⟨hset, fun _ => hdvd⟩, fun h => h.1⟩
    obtain ⟨hcount, hbits⟩ := ih hcounts' (by
      intro type
      have hcons := hle type
      rw [count_cons_type] at hcons
      omega)
    constructor
    · intro type
      rw [foldl_cons, hcount type]
      dsimp only
      rw [count_cons_type]
      congr 1
      omega
    · intro type
      rw [foldl_cons, hbits type, hbit type, count_cons_type]
      by_cases htype : type = x
      · subst htype
        simp only [if_true, forall_const]
        constructor
        · rintro ⟨⟨hset, hdvd⟩, hrest⟩
          refine ⟨hset, fun m hge hlt => ?_⟩
          by_cases hlast : m = n type - 1
          · exact hlast ▸ hdvd
          · exact hrest m (by omega) (by omega)
        · rintro ⟨hset, hrest⟩
          refine ⟨⟨hset, hrest _ (by omega) (by omega)⟩, fun m hge hlt => ?_⟩
          exact hrest m (by omega) (by omega)
      · simp [htype]

theorem broadcastIfChanged_eq (loop : OwnTypeMap × Bool) :
    (broadcastIfChanged loop).myTypeMap = loop.1.myTypeMap ∧
      (broadcastIfChanged loop).mapCounters = loop.1.mapCounters := by
  rw [broadcastIfChanged]
  split <;> exact ⟨rfl, rfl⟩

end OwnTypeMap

/-! ## What one client knows -/

variable {Peer : Type} [DecidableEq Peer]

/-- The `connectmap` of an initialised client holds this peer and the peers whose
type map matches; `maps` gives the type map of each session. -/
structure GscClient.Knows (me : Peer) (maps : Peer → Option TypeMap) (c : GscClient Peer) :
    Prop where
  idle : c.gotInit = false → c.types = [] ∧ c.connectmap = ∅
  mem_iff : c.gotInit = true → ∀ peer,
    peer ∈ c.connectmap ↔ peer = me ∨ testMatch (maps peer) c.types = true

variable {me : Peer} {maps : Peer → Option TypeMap} {c : GscClient Peer}

theorem GscClient.Knows.notify (hknows : c.Knows me maps)
    (hne : neighbour ≠ me) (tmapNew : Option TypeMap) :
    ∃ c', c.notifyAboutNeighbour neighbour (maps neighbour) tmapNew = some c' ∧
      c'.Knows me (update maps neighbour tmapNew) ∧
      (c'.client, c'.types) = (c.client, c.types) := by
  rw [notifyAboutNeighbour]
  by_cases hinit : c.gotInit = false
  · rw [if_pos hinit]
    refine ⟨c, rfl, ⟨hknows.idle, ?_⟩, rfl⟩
    rw [hinit]
    nofun
  have htrue : c.gotInit = true := by simpa using hinit
  have hmem := hknows.mem_iff htrue
  have hneighbour : neighbour ∈ c.connectmap ↔
      testMatch (maps neighbour) c.types = true := by
    rw [hmem neighbour]
    simp [hne]
  rw [if_neg hinit]
  by_cases hsame : testMatch (maps neighbour) c.types = testMatch tmapNew c.types
  · -- no change
    rw [if_pos hsame, if_pos (by rw [Bool.eq_iff_iff, decide_eq_true_eq]; exact hneighbour.symm)]
    refine ⟨c, rfl, ⟨hknows.idle, fun _ peer => ?_⟩, rfl⟩
    by_cases hpeer : peer = neighbour
    · subst hpeer
      rw [update_self, ← hsame]
      exact hmem peer
    · rw [update_of_ne hpeer]
      exact hmem peer
  rw [if_neg hsame]
  by_cases hold : testMatch (maps neighbour) c.types = false
  · -- connect
    have hnew : testMatch tmapNew c.types = true := by
      cases h : testMatch tmapNew c.types with
      | false => exact absurd (hold.trans h.symm) hsame
      | true => rfl
    rw [if_pos hold, if_neg (by rw [hneighbour, hold]; decide)]
    refine ⟨_, rfl, ⟨fun h => absurd h hinit, fun _ peer => ?_⟩, rfl⟩
    rw [Finset.mem_insert, hmem peer]
    by_cases hpeer : peer = neighbour
    · subst hpeer
      simp [hnew]
    · simp [hpeer]
  · -- disconnect
    have holdTrue : testMatch (maps neighbour) c.types = true := by simpa using hold
    have hnew : testMatch tmapNew c.types = false := by
      cases h : testMatch tmapNew c.types with
      | false => rfl
      | true => exact absurd (holdTrue.trans h.symm) hsame
    rw [if_neg hold, if_pos (hneighbour.mpr holdTrue)]
    refine ⟨_, rfl, ⟨fun h => absurd h hinit, fun _ peer => ?_⟩, rfl⟩
    rw [Finset.mem_erase, hmem peer]
    by_cases hpeer : peer = neighbour
    · subst hpeer
      simp [hne, hnew]
    · simp [hpeer]

namespace ClientService

theorem notify_all (clients : List (GscClient Peer))
    (hknows : ∀ c ∈ clients, c.Knows me maps) (hne : neighbour ≠ me) (tmapNew : Option TypeMap) :
    ∃ clients', (clients.mapM fun (c : GscClient Peer) =>
        c.notifyAboutNeighbour neighbour (maps neighbour) tmapNew) = some clients' ∧
      (∀ c ∈ clients', c.Knows me (update maps neighbour tmapNew)) ∧
      clients'.map (fun c => (c.client, c.types)) = clients.map fun c => (c.client, c.types) := by
  induction clients with
  | nil => exact ⟨[], rfl, nofun, rfl⟩
  | cons c clients ih =>
    obtain ⟨c', hc', hknows', hsame⟩ := (hknows c mem_cons_self).notify hne tmapNew
    obtain ⟨clients', hclients', hall, hsames⟩ := ih fun d hd => hknows d (mem_cons_of_mem _ hd)
    refine ⟨c' :: clients', ?_, ?_, ?_⟩
    · rw [mapM_cons, hc', hclients']
      rfl
    · intro d hd
      rcases mem_cons.mp hd with rfl | hd
      · exact hknows'
      · exact hall d hd
    · rw [map_cons, map_cons, hsame, hsames]

theorem tmapOf_cons (peer : Peer) (tmap : TypeMap) (sessions : List (Peer × TypeMap)) :
    tmapOf ((peer, tmap) :: sessions) = update (tmapOf sessions) peer (some tmap) := by
  funext other
  rw [tmapOf, find?_cons]
  by_cases hother : other = peer
  · subst hother
    simp
  · simp [hother, Ne.symm hother, tmapOf]

variable {sessions : List (Peer × TypeMap)} {peer : Peer}

theorem tmapOf_eq_none (hpeer : peer ∉ sessions.map Prod.fst) : tmapOf sessions peer = none := by
  rw [tmapOf, Option.map_eq_none_iff, find?_eq_none]
  intro session hsession
  simp only [decide_eq_true_eq]
  rintro rfl
  exact hpeer (mem_map_of_mem hsession)

theorem not_mem_of_tmapOf (hnone : tmapOf sessions peer = none) : peer ∉ sessions.map Prod.fst := by
  intro hpeer
  obtain ⟨session, hsession, rfl⟩ := mem_map.mp hpeer
  rw [tmapOf, Option.map_eq_none_iff, find?_eq_none] at hnone
  exact hnone session hsession (by simp)

theorem tmapOf_filter (sessions : List (Peer × TypeMap)) (peer : Peer) :
    tmapOf (sessions.filter fun session => session.1 ≠ peer) =
      update (tmapOf sessions) peer none := by
  induction sessions with
  | nil =>
    funext other
    by_cases hother : other = peer
    · subst hother
      rw [update_self]
      rfl
    · rw [update_of_ne hother]
      rfl
  | cons session sessions ih =>
    obtain ⟨key, _⟩ := session
    by_cases hkey : key = peer
    · subst hkey
      rw [filter_cons_of_neg (by simp), ih, tmapOf_cons, update_idem]
    · rw [filter_cons_of_pos (by simpa using hkey), tmapOf_cons, ih, tmapOf_cons, update_comm hkey]

theorem tmapOf_map_of_ne (sessions : List (Peer × TypeMap)) (nmap : TypeMap)
    (hother : other ≠ peer) :
    tmapOf (sessions.map fun session => if session.1 = peer then (peer, nmap) else session)
      other = tmapOf sessions other := by
  induction sessions with
  | nil => rfl
  | cons session sessions ih =>
    obtain ⟨key, _⟩ := session
    rw [map_cons]
    by_cases hkey : key = peer
    · subst hkey
      rw [if_pos rfl, tmapOf_cons, tmapOf_cons, update_of_ne hother, update_of_ne hother, ih]
    · rw [if_neg hkey, tmapOf_cons, tmapOf_cons]
      by_cases heq : other = key
      · subst heq
        rw [update_self, update_self]
      · rw [update_of_ne heq, update_of_ne heq, ih]

variable {tmap : TypeMap}

theorem tmapOf_map (hsession : tmapOf sessions peer = some tmap) (nmap : TypeMap) :
    tmapOf (sessions.map fun session => if session.1 = peer then (peer, nmap) else session) =
      update (tmapOf sessions) peer (some nmap) := by
  induction sessions with
  | nil => cases hsession
  | cons session sessions ih =>
    obtain ⟨key, _⟩ := session
    rw [map_cons]
    by_cases hkey : key = peer
    · subst hkey
      rw [if_pos rfl, tmapOf_cons, tmapOf_cons, update_idem]
      -- later sessions of the same key are hidden by the first one
      funext other
      by_cases hother : other = key
      · subst hother
        rw [update_self, update_self]
      · rw [update_of_ne hother, update_of_ne hother]
        exact tmapOf_map_of_ne _ _ hother
    · rw [tmapOf_cons, update_of_ne (Ne.symm hkey)] at hsession
      rw [if_neg hkey, tmapOf_cons, ih hsession, tmapOf_cons, update_comm hkey]

/-- A new client is told about every session: from no map to the map of the session. -/
theorem notify_sessions (sessions : List (Peer × TypeMap)) (hknows : c.Knows me maps)
    (hnodup : (sessions.map Prod.fst).Nodup)
    (hnew : ∀ session ∈ sessions, session.1 ≠ me ∧ maps session.1 = none) :
    ∃ c', (sessions.foldlM (fun (c : GscClient Peer) session =>
        c.notifyAboutNeighbour session.1 none (some session.2)) c) = some c' ∧
      c'.Knows me (fun peer => (tmapOf sessions peer).or (maps peer)) ∧
      (c'.client, c'.types) = (c.client, c.types) := by
  induction sessions generalizing c maps with
  | nil => exact ⟨c, rfl, hknows, rfl⟩
  | cons session sessions ih =>
    obtain ⟨peer, tmap⟩ := session
    obtain ⟨hne, hnone⟩ := hnew (peer, tmap) mem_cons_self
    rw [map_cons, nodup_cons] at hnodup
    obtain ⟨_, hc₁, hknows₁, hsame₁⟩ := hknows.notify hne (some tmap)
    rw [hnone] at hc₁
    obtain ⟨c₂, hc₂, hknows₂, hsame₂⟩ := ih hknows₁ hnodup.2 (by
      intro other hother
      obtain ⟨hotherNe, hotherNone⟩ := hnew other (mem_cons_of_mem _ hother)
      refine ⟨hotherNe, ?_⟩
      rw [update_of_ne, hotherNone]
      rintro rfl
      exact hnodup.1 (mem_map.mpr ⟨other, hother, rfl⟩))
    refine ⟨c₂, ?_, ?_, hsame₂.trans hsame₁⟩
    · rw [foldlM_cons, hc₁]
      exact hc₂
    · convert hknows₂ using 2 with other
      rw [tmapOf_cons]
      by_cases hother : other = peer
      · subst hother
        rw [tmapOf_eq_none hnodup.1, update_self, update_self]
        rfl
      · rw [update_of_ne hother, update_of_ne hother]

structure Valid (s : ClientService Peer) : Prop where
  counts : s.own.Counts (listings s.clients)
  bit_iff (type : UInt16) : s.own.myTypeMap.bit type = true ↔ 0 < listings s.clients type
  distinct : (s.clients.map GscClient.client).Nodup
  knows : ∀ c ∈ s.clients, c.Knows s.myIdentity (tmapOf s.sessions)
  noSelf : tmapOf s.sessions s.myIdentity = none
  nodup : (s.sessions.map Prod.fst).Nodup

omit [DecidableEq Peer] in
theorem listings_pos {clients : List (GscClient Peer)} :
    0 < listings clients type ↔ ∃ c ∈ clients, type ∈ c.types := by
  induction clients with
  | nil => simp [listings]
  | cons c clients ih =>
    have hcons : listings (c :: clients) type = c.types.count type + listings clients type := rfl
    rw [hcons, exists_mem_cons_iff, ← ih, ← count_pos_iff]
    omega

theorem Valid.exact {s : ClientService Peer} (hvalid : s.Valid) : s.Exact := by
  constructor
  · intro type
    rw [hvalid.bit_iff, listings_pos]
  · intro c hc hinit peer tmap hsession
    have hne : peer ≠ s.myIdentity := by
      rintro rfl
      rw [hvalid.noSelf] at hsession
      cases hsession
    rw [(hvalid.knows c hc).mem_iff hinit, hsession]
    simp [hne]

/-! ## Steps -/

section

variable {s next : ClientService Peer}

omit [DecidableEq Peer] in
theorem listings_congr {clients clients' : List (GscClient Peer)}
    (hsame : clients'.map (fun c => (c.client, c.types)) =
      clients.map fun c => (c.client, c.types)) : listings clients' = listings clients := by
  funext type
  have hcounts := congrArg (fun keys => (keys.map fun key => key.2.count type).sum) hsame
  simpa only [listings, map_map, comp_def] using hcounts

theorem Valid.changeTypeMap (hvalid : s.Valid) (hne : peer ≠ s.myIdentity)
    (hmaps : tmapOf sessions = update (tmapOf s.sessions) peer tmapNew)
    (hnodup : (sessions.map Prod.fst).Nodup) :
    ∃ clients, (s.clients.mapM fun (c : GscClient Peer) =>
        c.notifyAboutNeighbour peer (tmapOf s.sessions peer) tmapNew) = some clients ∧
      ({ s with clients, sessions } : ClientService Peer).Valid := by
  obtain ⟨clients, hclients, hknows, hsame⟩ := notify_all s.clients hvalid.knows hne tmapNew
  have hlistings := listings_congr hsame
  refine ⟨clients, hclients, ?_, ?_, ?_, ?_, ?_, hnodup⟩
  · show s.own.Counts (listings clients)
    rw [hlistings]
    exact hvalid.counts
  · intro type
    show s.own.myTypeMap.bit type = true ↔ 0 < listings clients type
    rw [hlistings]
    exact hvalid.bit_iff type
  · have hids := congrArg (List.map Prod.fst) hsame
    rw [map_map, map_map] at hids
    show (clients.map GscClient.client).Nodup
    exact hids ▸ hvalid.distinct
  · intro c hc
    show c.Knows s.myIdentity (tmapOf sessions)
    rw [hmaps]
    exact hknows c hc
  · show tmapOf sessions s.myIdentity = none
    rw [hmaps, update_of_ne (Ne.symm hne)]
    exact hvalid.noSelf

theorem Valid.ne_of_session (hvalid : s.Valid) (hsession : tmapOf s.sessions peer = some tmap) :
    peer ≠ s.myIdentity := by
  rintro rfl
  rw [hvalid.noSelf] at hsession
  cases hsession

theorem Valid.create (hvalid : s.Valid) (hne : peer ≠ s.myIdentity)
    (hnone : tmapOf s.sessions peer = none) :
    ∃ next, s.sessionsCreate peer = some next ∧ next.Valid := by
  obtain ⟨_, hclients, hnext⟩ := hvalid.changeTypeMap hne
    (tmapOf_cons peer TypeMap.create s.sessions)
    (nodup_cons.mpr ⟨not_mem_of_tmapOf hnone, hvalid.nodup⟩)
  rw [hnone] at hclients
  refine ⟨_, ?_, hnext⟩
  rw [sessionsCreate, hnone]
  rw [notifyClients, hclients]
  rfl

theorem Valid.end (hvalid : s.Valid) (peer : Peer) :
    ∃ next, s.sessionsEnd peer = some next ∧ next.Valid := by
  rw [sessionsEnd]
  cases hsession : tmapOf s.sessions peer with
  | none => exact ⟨s, rfl, hvalid⟩
  | some tmap =>
    obtain ⟨_, hclients, hnext⟩ :=
      hvalid.changeTypeMap (hvalid.ne_of_session hsession) (tmapOf_filter s.sessions peer)
        (hvalid.nodup.sublist (filter_sublist.map _))
    rw [hsession] at hclients
    refine ⟨_, ?_, hnext⟩
    dsimp only
    rw [notifyClients, hclients]
    rfl

theorem Valid.replaceTypeMap (hvalid : s.Valid) (hsession : tmapOf s.sessions peer = some tmap)
    (nmap : TypeMap) : ∃ next, s.replaceTypeMap peer tmap nmap = some next ∧ next.Valid := by
  have hkeys : (s.sessions.map fun session =>
      if session.1 = peer then (peer, nmap) else session).map Prod.fst =
        s.sessions.map Prod.fst := by
    rw [map_map]
    refine map_congr_left fun session _ => ?_
    by_cases hkey : session.1 = peer
    · simp [hkey]
    · simp [hkey]
  obtain ⟨_, hclients, hnext⟩ :=
    hvalid.changeTypeMap (hvalid.ne_of_session hsession) (tmapOf_map hsession nmap)
      (hkeys ▸ hvalid.nodup)
  rw [hsession] at hclients
  refine ⟨_, ?_, hnext⟩
  rw [ClientService.replaceTypeMap, notifyClients, hclients]
  rfl

variable {client : Nat}

omit [DecidableEq Peer] in
theorem split_client {clients : List (GscClient Peer)}
    (hdistinct : (clients.map GscClient.client).Nodup)
    (hfind : (clients.find? fun c => c.client = client) = some c) :
    ∃ before after, clients = before ++ c :: after ∧ (∀ c' : GscClient Peer, c'.client = client →
        replaceClient c' clients = before ++ c' :: after) ∧
      (clients.filter fun other => other.client ≠ client) = before ++ after := by
  have hid : c.client = client := by simpa using find?_some hfind
  obtain ⟨before, after, rfl⟩ := append_of_mem (mem_of_find?_eq_some hfind)
  rw [map_append, map_cons, nodup_middle, nodup_cons, mem_append] at hdistinct
  have hother : ∀ other ∈ before ++ after, other.client ≠ client := by
    intro other hmem heq
    apply hdistinct.1
    rw [hid, ← heq]
    rcases mem_append.mp hmem with hmem | hmem
    · exact .inl (mem_map_of_mem hmem)
    · exact .inr (mem_map_of_mem hmem)
  refine ⟨before, after, rfl, ?_, ?_⟩
  · intro c' hc'
    have hunchanged : ∀ others : List (GscClient Peer),
        (∀ other ∈ others, other ∈ before ++ after) → replaceClient c' others = others := by
      intro others hsub
      refine (map_congr_left fun other hmem => ?_).trans (map_id _)
      rw [if_neg (hc' ▸ hother other (hsub other hmem))]
      rfl
    have hbefore := hunchanged before fun _ h => mem_append_left _ h
    have hafter := hunchanged after fun _ h => mem_append_right _ h
    rw [replaceClient] at hbefore hafter ⊢
    rw [map_append, map_cons, hbefore, hafter, if_pos (hid.trans hc'.symm)]
  · rw [filter_append, filter_cons_of_neg (by simp [hid]), ← filter_append]
    refine filter_eq_self.mpr fun other hmem => ?_
    simpa using hother other hmem

omit [DecidableEq Peer] in
theorem listings_middle (before after : List (GscClient Peer)) (c : GscClient Peer)
    (type : UInt16) : listings (before ++ c :: after) type =
      listings (before ++ after) type + c.types.count type := by
  simp only [listings, map_append, map_cons, sum_append, sum_cons]
  omega

omit [DecidableEq Peer] in
theorem exists_find (hclient : ∃ c ∈ s.clients, c.client = client) :
    ∃ c, (s.clients.find? fun c => c.client = client) = some c := by
  obtain ⟨c, hc, hid⟩ := hclient
  rw [← Option.isSome_iff_exists, find?_isSome]
  exact ⟨c, hc, by simpa using hid⟩

theorem Valid.connect (hvalid : s.Valid) (hnew : ∀ c ∈ s.clients, c.client ≠ client) :
    (s.clientConnectCb client).Valid := by
  have hlistings : listings (s.clientConnectCb client).clients = listings s.clients := by
    funext type
    simp [listings, clientConnectCb]
  refine ⟨?_, ?_, ?_, ?_, hvalid.noSelf, hvalid.nodup⟩
  · rw [hlistings]
    exact hvalid.counts
  · rw [hlistings]
    exact hvalid.bit_iff
  · refine nodup_cons.mpr ⟨?_, hvalid.distinct⟩
    intro hmem
    obtain ⟨c, hc, hid⟩ := mem_map.mp hmem
    exact hnew c hc hid
  · intro c hc
    rcases mem_cons.mp hc with rfl | hc
    · exact ⟨fun _ => ⟨rfl, rfl⟩, nofun⟩
    · exact hvalid.knows c hc

section

variable (hvalid : s.Valid) (hfind : (s.clients.find? fun c => c.client = client) = some c)
include hvalid hfind

theorem Valid.init (hfirst : c.gotInit = false) (types : List UInt16) :
    ∃ next, s.handleClientInit client types = some next ∧ next.Valid := by
  have hid : c.client = client := by simpa using find?_some hfind
  obtain ⟨hnoTypes, hempty⟩ := (hvalid.knows c (mem_of_find?_eq_some hfind)).idle hfirst
  obtain ⟨before, after, hclients, hreplace, -⟩ := split_client hvalid.distinct hfind
  let c₀ : GscClient Peer := { c with
    types
    gotInit := true
    connectmap := insert s.myIdentity c.connectmap
    sent := c.sent ++ [.initReply s.myIdentity] }
  have hknows₀ : c₀.Knows s.myIdentity fun _ => none := by
    refine ⟨nofun, fun _ peer => ?_⟩
    show peer ∈ insert s.myIdentity c.connectmap ↔ _
    rw [hempty]
    simp [testMatch]
  obtain ⟨c', hc', hknows', hsame⟩ := notify_sessions s.sessions hknows₀ hvalid.nodup (by
    intro session hsession
    refine ⟨?_, rfl⟩
    intro hself
    exact not_mem_of_tmapOf hvalid.noSelf (mem_map.mpr ⟨session, hsession, hself⟩))
  rw [Prod.mk.injEq] at hsame
  have hreplaced := hreplace c' (hsame.1.trans hid)
  have hlistings : listings (replaceClient c' s.clients) =
      fun type => listings s.clients type + types.count type := by
    funext type
    rw [hreplaced, hclients, listings_middle, listings_middle, hnoTypes, hsame.2]
    rfl
  obtain ⟨hcounts, hbits⟩ := foldl_addType types
    (show (s.own, false).1.Counts (listings s.clients) from hvalid.counts)
    (fun type => (hvalid.bit_iff type).mpr)
  obtain ⟨hmap, hcounters⟩ := broadcastIfChanged_eq (types.foldl addType (s.own, false))
  refine ⟨{ s with own := s.own.add types, clients := replaceClient c' s.clients }, ?_, ?_⟩
  · rw [handleClientInit, hfind]
    dsimp only
    rw [if_neg (by simp [hempty]), hc']
    rfl
  refine ⟨?_, ?_, ?_, ?_, hvalid.noSelf, hvalid.nodup⟩
  · intro type
    show ((s.own.add types).mapCounters type).toNat = listings (replaceClient c' s.clients) type % 256
    rw [add, hcounters, hlistings]
    exact hcounts type
  · intro type
    show (s.own.add types).myTypeMap.bit type = true ↔ 0 < listings (replaceClient c' s.clients) type
    rw [add, hmap, hlistings, hbits type, hvalid.bit_iff type, ← count_pos_iff]
    dsimp only
    omega
  · show ((replaceClient c' s.clients).map GscClient.client).Nodup
    have hdistinct := hvalid.distinct
    rw [hclients] at hdistinct
    rw [hreplaced]
    simpa [hsame.1, c₀] using hdistinct
  · intro d hd
    have hd : d ∈ before ++ c' :: after := hreplaced ▸ hd
    rw [mem_append, mem_cons] at hd
    have hold : ∀ d ∈ before ++ after, d.Knows s.myIdentity (tmapOf s.sessions) := by
      intro d hd
      apply hvalid.knows
      rw [hclients, mem_append, mem_cons]
      rcases mem_append.mp hd with hd | hd
      · exact .inl hd
      · exact .inr (.inr hd)
    rcases hd with hd | rfl | hd
    · exact hold d (mem_append_left _ hd)
    · simpa using hknows'
    · exact hold d (mem_append_right _ hd)

theorem Valid.init_again (hagain : c.gotInit = true) (types : List UInt16) :
    s.handleClientInit client types = none := by
  have hself : s.myIdentity ∈ c.connectmap :=
    ((hvalid.knows c (mem_of_find?_eq_some hfind)).mem_iff hagain _).mpr (.inl rfl)
  rw [handleClientInit, hfind]
  dsimp only
  rw [if_pos hself]

/-- After a disconnect only the bits can be wrong, and they are right exactly
under the condition. -/
theorem Valid.disconnect : ∃ next, s.clientDisconnectCb client = some next ∧
      (s.Meets (.disconnect client) → next.Valid) ∧
      (next.Exact → s.Meets (.disconnect client)) := by
  obtain ⟨before, after, hclients, -, hfilter⟩ := split_client hvalid.distinct hfind
  have hlistings : ∀ type, listings s.clients type =
      listings (before ++ after) type + c.types.count type := by
    intro type
    rw [hclients, listings_middle]
  obtain ⟨hcounts, hbits⟩ := foldl_removeType c.types
    (show (s.own, false).1.Counts (listings s.clients) from hvalid.counts)
    (fun type => by rw [hlistings type]; omega)
  obtain ⟨hmap, hcounters⟩ := broadcastIfChanged_eq (c.types.foldl removeType (s.own, false))
  have hrest : ∀ type, listings s.clients type - c.types.count type =
      listings (before ++ after) type := by
    intro type
    rw [hlistings type, Nat.add_sub_cancel]
  have hbit : ∀ type, (s.own.remove c.types).myTypeMap.bit type = true ↔
      0 < listings s.clients type ∧ ∀ m, listings (before ++ after) type ≤ m →
        m < listings s.clients type → ¬ 256 ∣ m := by
    intro type
    rw [remove, hmap, hbits type, hrest type, hvalid.bit_iff type]
  refine ⟨{ s with clients := before ++ after, own := s.own.remove c.types }, ?_, ?_, ?_⟩
  · rw [clientDisconnectCb, hfind]
    rw [hfilter]
  · intro hmeets
    simp only [Meets, hfilter] at hmeets
    have hsublist : (before ++ after).Sublist s.clients := by
      rw [hclients]
      exact (Sublist.refl before).append (sublist_cons_self c after)
    refine ⟨?_, ?_, hvalid.distinct.sublist (hsublist.map _),
      fun d hd => hvalid.knows d (hsublist.subset hd), hvalid.noSelf, hvalid.nodup⟩
    · intro type
      show ((s.own.remove c.types).mapCounters type).toNat = listings (before ++ after) type % 256
      rw [remove, hcounters, ← hrest type]
      exact hcounts type
    · intro type
      show (s.own.remove c.types).myTypeMap.bit type = true ↔ 0 < listings (before ++ after) type
      rw [hbit type]
      constructor
      · rintro ⟨hpos, hnever⟩
        by_contra hzero
        exact hnever 0 (by omega) hpos (Nat.dvd_zero 256)
      · intro hpos
        have := hlistings type
        exact ⟨by omega, fun m hge hlt => hmeets type m hpos hge hlt⟩
  · intro hexact
    simp only [Meets, hfilter]
    intro type m hpos hge hlt
    have hset : (s.own.remove c.types).myTypeMap.bit type = true :=
      (hexact.bit_iff type).mpr (listings_pos.mp hpos)
    exact ((hbit type).mp hset).2 m hge hlt

end

theorem Valid.step_of_meets (hvalid : s.Valid)
    (hallowed : s.Allowed event) (hmeets : s.Meets event) :
    ∃ next, s.step event = some next ∧ next.Valid := by
  cases event with
  | connect client => exact ⟨_, rfl, hvalid.connect hallowed⟩
  | init client types =>
    obtain ⟨c, hfind⟩ := exists_find hallowed
    exact hvalid.init hfind
      (hmeets c (mem_of_find?_eq_some hfind) (by simpa using find?_some hfind)) types
  | disconnect client =>
    obtain ⟨_, hfind⟩ := exists_find hallowed
    obtain ⟨next, hnext, hvalid', -⟩ := hvalid.disconnect hfind
    exact ⟨next, hnext, hvalid' hmeets⟩
  | create peer => exact hvalid.create hallowed.1 hallowed.2
  | «end» peer => exact hvalid.end peer
  | setTypemap peer nmap =>
    cases nmap with
    | none => exact ⟨s, rfl, hvalid⟩
    | some nmap =>
      cases hsession : tmapOf s.sessions peer with
      | none => exact ⟨s, by simp only [step, setTypemap, hsession], hvalid⟩
      | some tmap =>
        simp only [step, setTypemap, hsession]
        exact hvalid.replaceTypeMap hsession nmap
  | messageType peer type =>
    rw [step, addToTypemap]
    by_cases hself : peer = s.myIdentity
    · rw [if_pos hself]
      exact ⟨s, rfl, hvalid⟩
    · rw [if_neg hself]
      obtain ⟨_, hsession⟩ := Option.isSome_iff_exists.mp (hallowed.resolve_left hself)
      rw [hsession]
      dsimp only
      split
      · exact ⟨s, rfl, hvalid⟩
      · exact hvalid.replaceTypeMap hsession _

theorem Valid.meets_of_exact (hvalid : s.Valid)
    (hallowed : s.Allowed event) (hstep : s.step event = some next) (hexact : next.Exact) :
    s.Meets event := by
  cases event with
  | init client types =>
    intro c hc hid
    by_contra hagain
    obtain ⟨found, hfind⟩ := exists_find hallowed
    have hsame : found = c := by
      apply inj_on_of_nodup_map hvalid.distinct (mem_of_find?_eq_some hfind) hc
      rw [hid]
      simpa using find?_some hfind
    have hnone := hvalid.init_again hfind (by simpa [hsame] using hagain) types
    rw [step, hnone] at hstep
    cases hstep
  | disconnect client =>
    obtain ⟨_, hfind⟩ := exists_find hallowed
    obtain ⟨_, hafter, -, hmeets⟩ := hvalid.disconnect hfind
    rw [step, hafter] at hstep
    cases hstep
    exact hmeets hexact
  | _ => trivial

theorem valid_start (me : Peer) : (start me).Valid := by
  refine ⟨fun _ => rfl, fun type => ?_, nodup_nil, nofun, rfl, nodup_nil⟩
  simp [start, initial, TypeMap.create, bit, WordSet.contains, listings]

/-- After any events that meet the condition the bookkeeping is exact, and the
next event passes all assertions and keeps it exact if and only if it meets it too. -/
theorem bookkeeping_iff {me : Peer} {events : List (Event Peer)}
    (hrun : Run step (fun s event => s.Allowed event ∧ s.Meets event)
      (start me) events s) :
    s.Exact ∧ ∀ event, s.Allowed event →
      ((∃ next, s.step event = some next ∧ next.Exact) ↔ s.Meets event) := by
  have hvalid : s.Valid := by
    apply hrun.invariant Valid
    · exact valid_start me
    · rintro before event after hvalid ⟨hallowed, hmeets⟩ hstep
      obtain ⟨next, hnext, hnextValid⟩ := hvalid.step_of_meets hallowed hmeets
      rw [hstep] at hnext
      cases hnext
      exact hnextValid
  refine ⟨hvalid.exact, fun event hallowed => ⟨?_, ?_⟩⟩
  · rintro ⟨next, hstep, hexact⟩
    exact hvalid.meets_of_exact hallowed hstep hexact
  · intro hmeets
    obtain ⟨next, hstep, hnext⟩ := hvalid.step_of_meets hallowed hmeets
    exact ⟨next, hstep, hnext.exact⟩

/-- A decidable condition that suffices. -/
def brief (s : ClientService Peer) : Event Peer → Bool
  | .init client _ => s.clients.all fun c => c.client ≠ client ∨ c.gotInit = false
  | .disconnect _ => (s.clients.map (·.types.length)).sum < 256
  | _ => true

omit [DecidableEq Peer] in
theorem meets_of_brief (hbrief : s.brief event = true) : s.Meets event := by
  cases event with
  | init client types =>
    intro c hc hid
    simpa [hid] using all_eq_true.mp hbrief c hc
  | disconnect client =>
    intro type m others _ _ hlt hdvd
    have hfew : (s.clients.map (·.types.length)).sum < 256 := of_decide_eq_true hbrief
    have hlistings : listings s.clients type ≤ (s.clients.map (·.types.length)).sum :=
      sum_le_sum fun _ _ => count_le_length
    have hm := Nat.le_of_dvd (by omega) hdvd
    omega
  | _ => trivial

end

theorem bookkeeping_iff_disconnect : ∃ s : ClientService Bool,
      Run step (fun s event => s.Allowed event ∧ s.Meets event) (start true)
        [.create false, .connect 0, .connect 1, .init 0 [1, 2], .init 1 [2], .disconnect 0] s ∧
      (s.own.myTypeMap.bit 1 = false ∧ s.own.myTypeMap.bit 2 = true) ∧ s.Exact := by
  obtain ⟨s, hrun, hbits⟩ : ∃ s : ClientService Bool,
      Run step (fun s event => s.Allowed event ∧ s.brief event = true) (start true)
        [.create false, .connect 0, .connect 1, .init 0 [1, 2], .init 1 [2], .disconnect 0] s ∧
      (s.own.myTypeMap.bit 1 = false ∧ s.own.myTypeMap.bit 2 = true) :=
    Run.exists_of_exec (by decide +kernel)
  have hrun := hrun.weaken fun _ _ hguard => hguard.imp_right meets_of_brief
  exact ⟨s, hrun, hbits, (bookkeeping_iff hrun).1⟩

/-- A second `INIT` fails the assertion; and when a client that lists a type 256 times
leaves, the bit of the type is cleared although another client lists it. -/
theorem second_init_aborts_and_listed_type_cleared :
    (∃ s : ClientService Bool,
      Run step Allowed (start true) [.connect 0, .init 0 []] s ∧
      s.Allowed (.init 0 []) ∧ s.step (.init 0 []) = none) ∧
    ∃ s next : ClientService Bool,
      Run step Allowed (start true)
        [.connect 0, .connect 1, .init 0 (replicate 256 1), .init 1 [1]] s ∧
      s.Allowed (.disconnect 0) ∧ s.step (.disconnect 0) = some next ∧
      next.own.myTypeMap.bit 1 = false ∧ ∃ c ∈ next.clients, 1 ∈ c.types := by
  constructor
  · exact Run.exists_of_exec (by decide +kernel)
  · obtain ⟨s, hrun, htest⟩ : ∃ s : ClientService Bool,
        Run step Allowed (start true)
          [.connect 0, .connect 1, .init 0 (replicate 256 1), .init 1 [1]] s ∧
        (decide (s.Allowed (.disconnect 0)) && (s.step (.disconnect 0)).any fun next =>
          decide (next.own.myTypeMap.bit 1 = false ∧ ∃ c ∈ next.clients, 1 ∈ c.types)) = true :=
      Run.of_exec_any (by decide +kernel)
    rw [Bool.and_eq_true, decide_eq_true_eq, Option.any_eq_true] at htest
    obtain ⟨hallowed, next, hnext, hcleared⟩ := htest
    exact ⟨s, next, hrun, hallowed, hnext, of_decide_eq_true hcleared⟩

end ClientService

end Gnunet.Core
