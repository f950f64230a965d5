import Gnunet.FsKeywordSearch

/-!
# The conjunction of mandatory keywords

As long as no keyword returns two URIs with one key, the map of a keyword has exactly
the results that it returned, and every counter is the number of mandatory keywords
that are missing.
-/

namespace Gnunet.Fs.KeywordSearch

open List Option Protocol

variable {Hash : Type} [DecidableEq Hash] {hash : KeyHash Hash} {u v : Uri Hash}

namespace Uri

def compared : Uri Hash → Uri Hash
  | loc fi peer expirationTime contentSignature =>
    loc fi peer expirationTime (contentSignature.take 4)
  | uri => uri

theorem testEqual_iff (hu : u.isKsk = false) : u.testEqual v = true ↔ u.compared = v.compared := by
  cases u with
  | ksk keywords => cases hu
  | chk fi =>
    cases v <;> simp [testEqual, compared]
  | sks ns identifier =>
    cases v <;> simp [testEqual, compared]
  | loc fi peer expirationTime contentSignature =>
    cases v <;> simp [testEqual, compared, and_assoc]

omit [DecidableEq Hash] in
theorem toKey_compared (uri : Uri Hash) : uri.compared.toKey hash = uri.toKey hash := by
  cases uri <;> rfl

omit [DecidableEq Hash] in
theorem toKey_congr (heq : u.compared = v.compared) : u.toKey hash = v.toKey hash := by
  rw [← toKey_compared u, heq, toKey_compared]

end Uri

namespace SearchContext

variable {sc : SearchContext Hash} {key : Hash} {uri : Uri Hash}

theorem testResultPresent_iff {map : List (Hash × Nat)} : sc.testResultPresent map key uri = true ↔
      ∃ (ptr : Nat) (sr : SearchResult Hash), (key, ptr) ∈ map ∧
        sc.results[ptr]? = some sr ∧ uri.testEqual sr.uri = true := by
  rw [testResultPresent, List.any_eq_true]
  constructor
  · rintro ⟨⟨_, ptr⟩, hmem, htest⟩
    rw [Bool.and_eq_true, decide_eq_true_iff] at htest
    obtain ⟨rfl, htest⟩ := htest
    cases hsr : sc.results[ptr]? with
    | none =>
      rw [hsr] at htest
      cases htest
    | some sr =>
      rw [hsr, any_some] at htest
      exact ⟨ptr, sr, hmem, hsr, htest⟩
  · rintro ⟨ptr, _, hmem, hsr, hequal⟩
    refine ⟨(key, ptr), hmem, ?_⟩
    rw [hsr, any_some, hequal, Bool.and_true, decide_eq_true_iff]

def Match (sc : SearchContext Hash) (key : Hash) (uri : Uri Hash) (map : List (Hash × Nat))
    (found : Nat × SearchResult Hash) : Prop :=
  (key, found.1) ∈ map ∧ sc.results[found.1]? = some found.2 ∧ uri.testEqual found.2.uri = true

theorem getResultPresent_cases (grc : Option (Nat × SearchResult Hash)) (entry : Hash × Nat) :
    (∃ found, sc.getResultPresent key uri grc entry = some found ∧ sc.Match key uri [entry] found) ∨
    (sc.getResultPresent key uri grc entry = grc ∧ ∀ found, ¬ sc.Match key uri [entry] found) := by
  by_cases hmatch : ∃ found, sc.Match key uri [entry] found
  · obtain ⟨⟨ptr, sr⟩, hmem, hsr, hequal⟩ := hmatch
    rw [mem_singleton] at hmem
    subst hmem
    refine .inl ⟨(ptr, sr), ?_, mem_singleton_self _, hsr, hequal⟩
    rw [getResultPresent, if_pos rfl]
    rw [hsr]
    exact if_pos hequal
  · refine .inr ⟨?_, fun found h => hmatch ⟨found, h⟩⟩
    rw [getResultPresent]
    split
    next hkey =>
      split
      next sr hsr =>
        refine if_neg fun hequal => hmatch ⟨(entry.2, sr), ?_, hsr, hequal⟩
        rw [← hkey]
        exact mem_singleton_self _
      · rfl
    · rfl

theorem getMultiple_spec : ∀ (map : List (Hash × Nat)) (grc : Option (Nat × SearchResult Hash)),
    (∀ found, map.foldl (sc.getResultPresent key uri) grc = some found →
      grc = some found ∨ sc.Match key uri map found) ∧
    (map.foldl (sc.getResultPresent key uri) grc = none →
      grc = none ∧ ∀ found, ¬ sc.Match key uri map found)
  | [], grc => ⟨fun found hfound => .inl hfound, fun hnone => ⟨hnone, fun found h =>
      absurd h.1 not_mem_nil⟩⟩
  | entry :: rest, grc => by
    have hrest : ∀ {found}, sc.Match key uri rest found → sc.Match key uri (entry :: rest) found :=
      fun h => ⟨mem_cons_of_mem _ h.1, h.2⟩
    have hfirst : ∀ {found}, sc.Match key uri [entry] found →
        sc.Match key uri (entry :: rest) found :=
      fun h => ⟨mem_cons.mpr (.inl (mem_singleton.mp h.1)), h.2⟩
    obtain ⟨hsome, hnone⟩ := getMultiple_spec rest (sc.getResultPresent key uri grc entry)
    rw [foldl_cons]
    rcases getResultPresent_cases grc entry with ⟨_, hcall, hmatch⟩ | ⟨hcall, hother⟩
    · rw [hcall] at hsome hnone ⊢
      refine ⟨fun found hfound => .inr ?_, fun h => ?_⟩
      · rcases hsome found hfound with heq | hin
        · cases heq
          exact hfirst hmatch
        · exact hrest hin
      · cases (hnone h).1
    · rw [hcall] at hsome hnone ⊢
      refine ⟨fun found hfound => (hsome found hfound).imp_right hrest, fun h =>
        ⟨(hnone h).1, fun found hfound => ?_⟩⟩
      rcases mem_cons.mp hfound.1 with heq | hin
      · exact hother found ⟨mem_singleton.mpr heq, hfound.2⟩
      · exact (hnone h).2 found ⟨hin, hfound.2⟩

end SearchContext

/-! ## Valid searches -/

namespace Session

variable {session next : Session Hash} {event : Nat × Uri Hash}

/-- The maps, the memory and the history agree. -/
structure Valid (hash : KeyHash Hash) (session : Session Hash) : Prop where
  results : ∀ (ptr : Nat) (sr : SearchResult Hash), session.sc.results[ptr]? = some sr →
    sr.uri.isKsk = false ∧ sr.key = sr.uri.toKey hash
  master : ∀ (key : Hash) (ptr : Nat), (key, ptr) ∈ session.sc.masterResultMap ↔
    ∃ sr, session.sc.results[ptr]? = some sr ∧ sr.key = key
  distinct : ∀ (ptr ptr' : Nat) (sr sr' : SearchResult Hash),
    session.sc.results[ptr]? = some sr → session.sc.results[ptr']? = some sr' →
      sr.uri.compared = sr'.uri.compared → ptr = ptr'
  received : ∀ event ∈ session.received, event.2.isKsk = false ∧
    ∃ (ptr : Nat) (sr : SearchResult Hash), session.sc.results[ptr]? = some sr ∧
      event.2.compared = sr.uri.compared
  entries : ∀ (koff : Nat) (ent : SearchRequestEntry Hash),
    session.sc.requests[koff]? = some ent → ∀ (key : Hash) (ptr : Nat), (key, ptr) ∈ ent.results ↔
        ∃ sr, session.sc.results[ptr]? = some sr ∧ sr.key = key ∧ session.Received koff sr.uri
  count : session.sc.mandatoryCount.toNat =
    ((Finset.range session.sc.requests.length).filter session.Mandatory).card
  conjunction : session.Conjunction

theorem received_iff (hvalid : session.Valid hash) : session.Received koff uri ↔
      ∃ event ∈ session.received, event.1 = koff ∧ event.2.compared = uri.compared := by
  constructor
  · rintro ⟨event, hmem, hkoff, hequal⟩
    exact ⟨event, hmem, hkoff, (Uri.testEqual_iff (hvalid.received event hmem).1).mp hequal⟩
  · rintro ⟨event, hmem, hkoff, hequal⟩
    exact ⟨event, hmem, hkoff, (Uri.testEqual_iff (hvalid.received event hmem).1).mpr hequal⟩

theorem received_congr (hvalid : session.Valid hash) (heq : u.compared = v.compared) :
    session.Received koff u ↔ session.Received koff v := by
  rw [received_iff hvalid, received_iff hvalid, heq]

theorem missing_congr (hvalid : session.Valid hash) (heq : u.compared = v.compared) :
    session.missing u = session.missing v := by
  apply Finset.filter_congr
  intro other _
  rw [received_congr hvalid heq]

/-- A search that has processed one more URI. -/
def record (session : Session Hash) (sc : SearchContext Hash) (event : Nat × Uri Hash) :
    Session Hash :=
  ⟨sc, session.received ++ [event]⟩

theorem received_append {sc : SearchContext Hash} {koff : Nat} {uri : Uri Hash}
    (hevent : event.2.isKsk = false) : Received ⟨sc, session.received ++ [event]⟩ koff uri ↔
      session.Received koff uri ∨ (event.1 = koff ∧ event.2.compared = uri.compared) := by
  constructor
  · rintro ⟨other, hmem, hkoff, hequal⟩
    rcases mem_append.mp hmem with hold | hnew
    · exact .inl ⟨other, hold, hkoff, hequal⟩
    · rw [mem_singleton] at hnew
      subst hnew
      exact .inr ⟨hkoff, (Uri.testEqual_iff hevent).mp hequal⟩
  · rintro (⟨other, hold, hkoff, hequal⟩ | ⟨hkoff, hequal⟩)
    · exact ⟨other, mem_append_left _ hold, hkoff, hequal⟩
    · exact ⟨event, mem_append_right _ mem_cons_self, hkoff, (Uri.testEqual_iff hevent).mpr hequal⟩

theorem card_filter_getElem? (flags : List Bool) :
    ((Finset.range flags.length).filter fun i => flags[i]? = some true).card =
      flags.count true := by
  induction flags using List.reverseRecOn with
  | nil => rfl
  | append_singleton flags flag ih =>
    have hfront : ((Finset.range flags.length).filter fun i => (flags ++ [flag])[i]? = some true) =
        (Finset.range flags.length).filter fun i => flags[i]? = some true := by
      apply Finset.filter_congr
      intro i hi
      rw [getElem?_append_left (Finset.mem_range.mp hi)]
    rw [length_append, length_singleton, Finset.range_add_one, Finset.filter_insert,
      hfront, count_append, getElem?_append_right le_rfl, Nat.sub_self]
    cases flag with
    | true =>
      rw [if_pos (show [true][0]? = some true from rfl), Finset.card_insert_of_notMem, ih]
      · rfl
      · intro hmem
        exact absurd (Finset.mem_range.mp (Finset.mem_filter.mp hmem).1) (lt_irrefl _)
    | false =>
      rw [if_neg (by decide), ih]
      rfl

theorem valid_start {mandatory : List Bool} (hlength : mandatory.length < 2 ^ 32) :
    Valid hash ⟨.searchStart mandatory, []⟩ := by
  refine ⟨?_, ?_, ?_, ?_, ?_, ?_, ?_, ?_⟩
  · intro ptr sr hsr
    cases hsr
  · intro key ptr
    refine ⟨fun h => absurd h not_mem_nil, ?_⟩
    rintro ⟨sr, hsr, -⟩
    cases hsr
  · intro ptr ptr' sr sr' hsr
    cases hsr
  · exact fun event hevent => absurd hevent not_mem_nil
  · intro koff ent hent key ptr
    rw [SearchContext.searchStart, getElem?_map, map_eq_some_iff] at hent
    obtain ⟨m, -, rfl⟩ := hent
    refine ⟨fun h => absurd h not_mem_nil, ?_⟩
    rintro ⟨sr, hsr, -⟩
    cases hsr
  · have hmandatory : ∀ koff, Mandatory (⟨.searchStart mandatory, []⟩ : Session Hash) koff ↔
        mandatory[koff]? = some true := by
      intro koff
      rw [Mandatory, SearchContext.searchStart]
      rw [getElem?_map]
      cases mandatory[koff]? with
      | none =>
        refine ⟨?_, nofun⟩
        rintro ⟨ent, hent, -⟩
        cases hent
      | some m =>
        constructor
        · rintro ⟨_, hent, htrue⟩
          cases hent
          exact congrArg some htrue
        · intro h
          exact ⟨_, rfl, Option.some.inj h⟩
    have hcount : mandatory.count true < 2 ^ 32 := lt_of_le_of_lt count_le_length hlength
    rw [Finset.filter_congr (fun koff _ => hmandatory koff)]
    show (UInt32.ofNat (mandatory.count true)).toNat =
      ((Finset.range (mandatory.map _).length).filter _).card
    rw [length_map, card_filter_getElem?, UInt32.toNat_ofNat_of_lt' hcount]
  · intro ptr sr hsr
    cases hsr
  · exact fun ptr hptr => absurd hptr not_mem_nil

/-! ## One result -/

structure Credited (hash : KeyHash Hash) (session : Session Hash) (koff : Nat) (uri : Uri Hash)
    (ent : SearchRequestEntry Hash) (ptr : Nat) (sr : SearchResult Hash)
    (sc : SearchContext Hash) : Prop where
  result : sr.uri.isKsk = false ∧ sr.key = uri.toKey hash ∧ sr.uri.compared = uri.compared
  before : ∀ old : SearchResult Hash, session.sc.results[ptr]? = some old →
    old.key = uri.toKey hash ∧ old.uri.compared = uri.compared
  only : ∀ (other : Nat) (old : SearchResult Hash), session.sc.results[other]? = some old →
    old.uri.compared = uri.compared → other = ptr
  counted : sr.mandatoryMissing.toNat = (session.missing uri).card - if ent.mandatory then 1 else 0
  requests : sc.requests = session.sc.requests.set koff
    ⟨(uri.toKey hash, ptr) :: ent.results, ent.mandatory⟩
  results : ∀ other, sc.results[other]? = if other = ptr then some sr else session.sc.results[other]?
  master : ∀ (key : Hash) (other : Nat), (key, other) ∈ sc.masterResultMap ↔
    (key, other) ∈ session.sc.masterResultMap ∨ (key = uri.toKey hash ∧ other = ptr)
  count : sc.mandatoryCount = session.sc.mandatoryCount
  notified : sc.notified = session.sc.notified ∨
    (sr.mandatoryMissing = 0 ∧ sc.notified = session.sc.notified ++ [ptr])

section

variable {koff : Nat} {uri : Uri Hash} {ent : SearchRequestEntry Hash} {ptr : Nat}
  {sr : SearchResult Hash} {sc : SearchContext Hash}

theorem received_record (huri : uri.isKsk = false) (k : Nat) (v : Uri Hash) :
    (session.record sc (koff, uri)).Received k v ↔
      session.Received k v ∨ (koff = k ∧ uri.compared = v.compared) :=
  @received_append Hash _ session (koff, uri) sc k v huri

theorem received_record_congr (hvalid : session.Valid hash) (huri : uri.isKsk = false)
    (heq : u.compared = v.compared) (hrec : (session.record sc (koff, uri)).Received k u) :
    (session.record sc (koff, uri)).Received k v := by
  rw [received_record huri] at hrec ⊢
  rwa [← received_congr hvalid heq, ← heq]

variable (hcredited : session.Credited hash koff uri ent ptr sr sc)
include hcredited

theorem Credited.result_cases (hr : sc.results[other]? = some r) :
    (other = ptr ∧ r = sr) ∨ (other ≠ ptr ∧ session.sc.results[other]? = some r) := by
  rw [hcredited.results] at hr
  split at hr
  next heq =>
    exact .inl ⟨heq, (Option.some.inj hr).symm⟩
  next hne =>
    exact .inr ⟨hne, hr⟩

theorem Credited.exists_result_iff {P : Hash → Uri Hash → Prop}
    (hcongr : ∀ {key : Hash} {u v : Uri Hash}, u.compared = v.compared → P key u → P key v)
    (other : Nat) : (∃ r, sc.results[other]? = some r ∧ P r.key r.uri) ↔
      (∃ r, session.sc.results[other]? = some r ∧ P r.key r.uri) ∨
        (other = ptr ∧ P (uri.toKey hash) uri) := by
  obtain ⟨-, hkey, hsame⟩ := hcredited.result
  constructor
  · rintro ⟨r, hr, hP⟩
    rcases hcredited.result_cases hr with ⟨rfl, rfl⟩ | ⟨-, hr⟩
    · exact .inr ⟨rfl, hkey ▸ hcongr hsame hP⟩
    · exact .inl ⟨r, hr, hP⟩
  · intro h
    by_cases hin : other = ptr
    · refine ⟨sr, by rw [hcredited.results, if_pos hin], hkey ▸ hcongr hsame.symm ?_⟩
      rcases h with ⟨old, hold, hP⟩ | ⟨-, hP⟩
      · obtain ⟨hkey', hsame'⟩ := hcredited.before old (hin ▸ hold)
        exact hkey' ▸ hcongr hsame' hP
      · exact hP
    · obtain ⟨r, hr, hP⟩ := h.resolve_right fun h => hin h.1
      exact ⟨r, by rw [hcredited.results, if_neg hin, hr], hP⟩

variable (hent : session.sc.requests[koff]? = some ent)
include hent

theorem Credited.mandatory (other : Nat) :
    (session.record sc (koff, uri)).Mandatory other ↔ session.Mandatory other := by
  rw [Mandatory, Mandatory, record]
  rw [hcredited.requests, getElem?_set]
  have hlt := (List.getElem?_eq_some_iff.mp hent).1
  split
  next heq =>
    subst heq
    rw [hent]
    constructor
    · rintro ⟨e, he, htrue⟩
      cases he
      exact ⟨ent, rfl, htrue⟩
    · rintro ⟨_, he, htrue⟩
      cases he
      exact ⟨_, rfl, htrue⟩
  · rfl

variable (huri : uri.isKsk = false)
include huri

/-- Of the keywords that are missing for an equal URI the one of the result is taken out, for
other URIs nothing changes. -/
theorem Credited.missing_eq (v : Uri Hash) : (session.record sc (koff, uri)).missing v =
      if uri.compared = v.compared then (session.missing v).erase koff else session.missing v := by
  ext other
  have hmem : other ∈ (session.record sc (koff, uri)).missing v ↔
      other ∈ session.missing v ∧ ¬ (koff = other ∧ uri.compared = v.compared) := by
    rw [missing, missing, Finset.mem_filter, Finset.mem_filter, hcredited.mandatory hent,
      received_record huri, record]
    rw [hcredited.requests, length_set, not_or, and_assoc, and_assoc]
  rw [hmem]
  split
  next heq =>
    rw [Finset.mem_erase, and_comm]
    simp only [heq, and_true, ne_eq, eq_comm]
  next hne =>
    exact and_iff_left fun h => hne h.2

variable (hvalid : session.Valid hash)
include hvalid

theorem Credited.entries (he : sc.requests[k]? = some e) (key : Hash) (other : Nat) :
    (key, other) ∈ e.results ↔ ∃ r, sc.results[other]? = some r ∧ r.key = key ∧
      (session.record sc (koff, uri)).Received k r.uri := by
  rw [hcredited.exists_result_iff (P := fun key' v => key' = key ∧
    (session.record sc (koff, uri)).Received k v)
    fun heq h => ⟨h.1, received_record_congr hvalid huri heq h.2⟩]
  simp only [received_record huri]
  rw [hcredited.requests, getElem?_set] at he
  by_cases hk : koff = k
  · subst hk
    rw [if_pos rfl, if_pos (List.getElem?_eq_some_iff.mp hent).1] at he
    cases he
    rw [mem_cons, hvalid.entries koff ent hent, Prod.mk.injEq]
    constructor
    · rintro (⟨rfl, rfl⟩ | ⟨r, hr, hkey, hrec⟩)
      · exact .inr ⟨rfl, rfl, .inr ⟨rfl, trivial⟩⟩
      · exact .inl ⟨r, hr, hkey, .inl hrec⟩
    · rintro (⟨r, hr, hkey, hrec | ⟨-, hsame⟩⟩ | ⟨rfl, rfl, -⟩)
      · exact .inr ⟨r, hr, hkey, hrec⟩
      · obtain rfl := hcredited.only other r hr hsame.symm
        exact .inl ⟨hkey ▸ (hcredited.before r hr).1, rfl⟩
      · exact .inl ⟨rfl, rfl⟩
  · rw [if_neg hk] at he
    rw [hvalid.entries k e he]
    simp only [hk, false_and, or_false]
    refine (or_iff_left_of_imp ?_).symm
    -- what another keyword returned before is in the memory, and nowhere but here
    rintro ⟨rfl, rfl, hrec⟩
    obtain ⟨event, hmem, -, hequal⟩ := (received_iff hvalid).mp hrec
    obtain ⟨-, there, old, hold, hequal'⟩ := hvalid.received event hmem
    have hsame := hequal'.symm.trans hequal
    obtain rfl := hcredited.only there old hold hsame
    exact ⟨old, hold, (hcredited.before old hold).1, (received_congr hvalid hsame).mpr hrec⟩

variable (hnew : ¬ session.Received koff uri)
include hnew

theorem Credited.counter :
    sr.mandatoryMissing.toNat = ((session.record sc (koff, uri)).missing sr.uri).card := by
  have hsame := hcredited.result.2.2
  rw [hcredited.missing_eq hent huri, if_pos hsame.symm, hcredited.counted,
    missing_congr hvalid hsame]
  have hlt := (List.getElem?_eq_some_iff.mp hent).1
  by_cases hmandatory : ent.mandatory = true
  · rw [if_pos hmandatory, Finset.card_erase_of_mem]
    rw [missing, Finset.mem_filter, Finset.mem_range]
    exact ⟨hlt, ⟨ent, hent, hmandatory⟩, hnew⟩
  · rw [if_neg hmandatory, Finset.erase_eq_of_notMem, Nat.sub_zero]
    intro hmem
    rw [missing, Finset.mem_filter] at hmem
    obtain ⟨-, ⟨_, hother, htrue⟩, -⟩ := hmem
    cases hent.symm.trans hother
    exact hmandatory htrue

theorem Credited.conjunction : (session.record sc (koff, uri)).Conjunction := by
  have hcounter := hcredited.counter hent huri hvalid hnew
  have hkept : ∀ p ∈ session.sc.notified, ∃ r, sc.results[p]? = some r ∧
      ∀ k, (session.record sc (koff, uri)).Mandatory k →
        (session.record sc (koff, uri)).Received k r.uri := by
    intro p hp
    obtain ⟨r, hr, hall⟩ := hvalid.conjunction.notified p hp
    refine (hcredited.exists_result_iff (P := fun _ v => ∀ k, Mandatory _ k → Received _ k v)
      (fun heq h k hk => received_record_congr hvalid huri heq (h k hk)) p).mpr
        (.inl ⟨r, hr, fun k hk => ?_⟩)
    exact (received_record huri k r.uri).mpr (.inl (hall k ((hcredited.mandatory hent k).mp hk)))
  constructor
  · intro other r hr
    rcases hcredited.result_cases hr with ⟨rfl, rfl⟩ | ⟨hne, hr⟩
    · exact hcounter
    · rw [hcredited.missing_eq hent huri,
        if_neg fun hequal => hne (hcredited.only other r hr hequal.symm)]
      exact hvalid.conjunction.counters other r hr
  · intro p hp
    rcases hcredited.notified with hnot | ⟨hzero, hnot⟩
    · exact hkept p (hnot ▸ hp)
    · rcases mem_append.mp (hnot ▸ hp) with hp | hp
      · exact hkept p hp
      · rw [mem_singleton.mp hp]
        refine ⟨sr, by rw [record, hcredited.results, if_pos rfl], fun k hk => ?_⟩
        by_contra hmissing
        rw [hzero] at hcounter
        apply Finset.notMem_empty k
        rw [← Finset.card_eq_zero.mp hcounter.symm, missing, Finset.mem_filter, Finset.mem_range]
        obtain ⟨_, he, -⟩ := id hk
        exact ⟨(List.getElem?_eq_some_iff.mp he).1, hk, hmissing⟩

theorem Credited.valid : (session.record sc (koff, uri)).Valid hash := by
  obtain ⟨hksk, hkey, hsame⟩ := hcredited.result
  refine ⟨?_, ?_, ?_, ?_, fun k e he => hcredited.entries hent huri hvalid he, ?_,
    hcredited.conjunction hent huri hvalid hnew⟩
  · intro other r hr
    rcases hcredited.result_cases hr with ⟨rfl, rfl⟩ | ⟨-, hr⟩
    · exact ⟨hksk, hkey.trans (Uri.toKey_congr hsame).symm⟩
    · exact hvalid.results other r hr
  · intro key other
    refine Iff.trans ?_ (hcredited.exists_result_iff (P := fun key' _ => key' = key)
      (fun _ h => h) other).symm
    rw [record, hcredited.master, hvalid.master, and_comm, @eq_comm _ key]
  · intro first second r r' hr hr' heq
    rcases hcredited.result_cases hr with ⟨rfl, rfl⟩ | ⟨-, hr⟩
    · rcases hcredited.result_cases hr' with ⟨rfl, -⟩ | ⟨-, hr'⟩
      · rfl
      · exact (hcredited.only second r' hr' (heq.symm.trans hsame)).symm
    · rcases hcredited.result_cases hr' with ⟨rfl, rfl⟩ | ⟨-, hr'⟩
      · exact hcredited.only first r hr (heq.trans hsame)
      · exact hvalid.distinct first second r r' hr hr' heq
  · intro event hmem
    have hstored := hcredited.exists_result_iff (P := fun _ v => event.2.compared = v.compared)
      fun heq h => h.trans heq
    rcases mem_append.mp hmem with hold | hlast
    · obtain ⟨hevent, other, r, hr, hequal⟩ := hvalid.received event hold
      exact ⟨hevent, other, (hstored other).mpr (.inl ⟨r, hr, hequal⟩)⟩
    · rw [mem_singleton] at hlast
      subst hlast
      exact ⟨huri, ptr, (hstored ptr).mpr (.inr ⟨rfl, rfl⟩)⟩
  · rw [Finset.filter_congr fun other _ => hcredited.mandatory hent other, record, hcredited.count,
      hvalid.count, hcredited.requests, length_set]

end

theorem Valid.duplicate (hvalid : session.Valid hash) {koff : Nat} {uri : Uri Hash}
    (huri : uri.isKsk = false) (hold : session.Received koff uri) :
    Valid hash ⟨session.sc, session.received ++ [(koff, uri)]⟩ := by
  have hreceived : ∀ k v, Received ⟨session.sc, session.received ++ [(koff, uri)]⟩ k v ↔
      session.Received k v := by
    intro k v
    rw [@received_append Hash _ session (koff, uri) session.sc k v huri]
    refine or_iff_left_of_imp ?_
    rintro ⟨rfl, hequal⟩
    exact (received_congr hvalid hequal).mp hold
  have hmissing : ∀ v, missing ⟨session.sc, session.received ++ [(koff, uri)]⟩ v =
      session.missing v := by
    intro v
    apply Finset.filter_congr
    intro other _
    rw [hreceived]
    rfl
  refine ⟨hvalid.results, hvalid.master, hvalid.distinct, ?_, ?_, hvalid.count, ?_, ?_⟩
  · intro event hmem
    rcases mem_append.mp hmem with hin | hlast
    · exact hvalid.received event hin
    · rw [mem_singleton] at hlast
      subst hlast
      obtain ⟨event, hevent, -, hequal⟩ := (received_iff hvalid).mp hold
      obtain ⟨-, ptr, sr, hsr, hequal'⟩ := hvalid.received event hevent
      exact ⟨huri, ptr, sr, hsr, hequal.symm.trans hequal'⟩
  · intro k ent hent key ptr
    rw [hvalid.entries k ent hent]
    constructor
    · rintro ⟨sr, hsr, hkey, hrec⟩
      exact ⟨sr, hsr, hkey, (hreceived _ _).mpr hrec⟩
    · rintro ⟨sr, hsr, hkey, hrec⟩
      exact ⟨sr, hsr, hkey, (hreceived _ _).mp hrec⟩
  · intro ptr sr hsr
    rw [hmissing]
    exact hvalid.conjunction.counters ptr sr hsr
  · intro ptr hptr
    obtain ⟨sr, hsr, hall⟩ := hvalid.conjunction.notified ptr hptr
    exact ⟨sr, hsr, fun k hk => (hreceived _ _).mpr (hall k hk)⟩

section

variable {koff : Nat} {uri : Uri Hash} {ent : SearchRequestEntry Hash}

/-- Under the condition the duplicate test says whether the URI was received. -/
theorem Valid.testResultPresent_iff (hvalid : session.Valid hash) (huri : uri.isKsk = false)
    (hent : session.sc.requests[koff]? = some ent) :
    session.sc.testResultPresent ent.results (uri.toKey hash) uri = true ↔
      session.Received koff uri := by
  rw [SearchContext.testResultPresent_iff]
  constructor
  · rintro ⟨ptr, sr, hmem, hsr, hequal⟩
    obtain ⟨_, hsr', -, hrec⟩ := (hvalid.entries koff ent hent _ _).mp hmem
    cases hsr.symm.trans hsr'
    exact (received_congr hvalid ((Uri.testEqual_iff huri).mp hequal)).mpr hrec
  · intro hrec
    obtain ⟨event, hevent, -, hequal⟩ := (received_iff hvalid).mp hrec
    obtain ⟨-, ptr, sr, hsr, hequal'⟩ := hvalid.received event hevent
    have hsame : uri.compared = sr.uri.compared := hequal.symm.trans hequal'
    refine ⟨ptr, sr, (hvalid.entries koff ent hent _ _).mpr ⟨sr, hsr, ?_, ?_⟩, hsr,
      (Uri.testEqual_iff huri).mpr hsame⟩
    · rw [(hvalid.results ptr sr hsr).2, Uri.toKey_congr hsame]
    · exact (received_congr hvalid hsame).mp hrec

theorem Valid.putUnique_eq (hvalid : session.Valid hash)
    (hent : session.sc.requests[koff]? = some ent) (hmeets : session.Meets hash (koff, uri))
    (hnew : ¬ session.Received koff uri) (ptr : Nat) :
    SearchContext.putUnique ent.results (uri.toKey hash) ptr =
      (uri.toKey hash, ptr) :: ent.results := by
  rw [SearchContext.putUnique, if_neg]
  intro hany
  obtain ⟨⟨key, other⟩, hmem, hkey⟩ := List.any_eq_true.mp hany
  have hkey' : key = uri.toKey hash := of_decide_eq_true hkey
  obtain ⟨sr, hsr, -⟩ := (hvalid.entries koff ent hent key other).mp hmem
  apply hnew
  rw [← hvalid.testResultPresent_iff hmeets.1 hent, SearchContext.testResultPresent_iff]
  exact ⟨other, sr, hkey' ▸ hmem, hsr, hmeets.2 ent hent _ hmem hkey' sr hsr⟩

omit [DecidableEq Hash] in
theorem credit_missing {sr : SearchResult Hash} {count : Nat}
    (hcount : sr.mandatoryMissing.toNat = count) (hpos : mandatory = true → 0 < count) :
    (SearchContext.credit koff mandatory sr).mandatoryMissing.toNat =
      count - if mandatory then 1 else 0 := by
  cases mandatory with
  | false => exact hcount
  | true =>
    have hone : (1 : UInt32) ≤ sr.mandatoryMissing := by
      rw [UInt32.le_iff_toNat_le, hcount]
      exact hpos rfl
    show (sr.mandatoryMissing - 1).toNat = count - 1
    rw [UInt32.toNat_sub_of_le _ _ hone, hcount]
    rfl

theorem missing_pos (hent : session.sc.requests[koff]? = some ent)
    (hnew : ¬ session.Received koff uri) (hmandatory : ent.mandatory = true) :
    0 < (session.missing uri).card := by
  apply Finset.card_pos.mpr
  refine ⟨koff, ?_⟩
  rw [missing, Finset.mem_filter, Finset.mem_range]
  exact ⟨(List.getElem?_eq_some_iff.mp hent).1, ⟨ent, hent, hmandatory⟩, hnew⟩

/-- For a URI that was not received for any keyword all mandatory keywords are missing. -/
theorem Valid.missing_unknown (hvalid : session.Valid hash)
    (hunknown : ∀ (ptr : Nat) (sr : SearchResult Hash), session.sc.results[ptr]? = some sr →
      sr.uri.compared ≠ uri.compared) :
    session.sc.mandatoryCount.toNat = (session.missing uri).card := by
  rw [hvalid.count, missing]
  congr 1
  apply Finset.filter_congr
  intro other _
  refine (and_iff_left fun hrec => ?_).symm
  obtain ⟨event, hevent, -, hequal⟩ := (received_iff hvalid).mp hrec
  obtain ⟨-, ptr, sr, hsr, hequal'⟩ := hvalid.received event hevent
  exact hunknown ptr sr hsr (hequal'.symm.trans hequal)

theorem Valid.credited (hvalid : session.Valid hash)
    (hent : session.sc.requests[koff]? = some ent) (hmeets : session.Meets hash (koff, uri))
    (hnew : ¬ session.Received koff uri) :
    ∃ ptr sr sc, session.sc.processKskResult hash koff uri = some sc ∧
      session.Credited hash koff uri ent ptr sr sc := by
  have huri : uri.isKsk = false := hmeets.1
  have hput := hvalid.putUnique_eq hent hmeets hnew
  have htest : ¬ session.sc.testResultPresent ent.results (uri.toKey hash) uri = true :=
    mt (hvalid.testResultPresent_iff huri hent).mp hnew
  have hnotified : ∀ (sr : SearchResult Hash) (ptr : Nat),
      (if sr.mandatoryMissing ≠ 0 then session.sc.notified
        else session.sc.notified ++ [ptr]) = session.sc.notified ∨
      (sr.mandatoryMissing = 0 ∧ (if sr.mandatoryMissing ≠ 0 then session.sc.notified
        else session.sc.notified ++ [ptr]) = session.sc.notified ++ [ptr]) := by
    intro sr ptr
    by_cases hzero : sr.mandatoryMissing = 0
    · exact .inr ⟨hzero, if_neg (not_not.mpr hzero)⟩
    · exact .inl (if_pos hzero)
  rw [SearchContext.processKskResult, hent, map_some]
  dsimp only
  rw [if_neg htest, SearchContext.resultFor]
  obtain ⟨hsome, hnone⟩ := @SearchContext.getMultiple_spec Hash _ session.sc (uri.toKey hash) uri
    session.sc.masterResultMap none
  cases hfound : session.sc.masterResultMap.foldl
    (session.sc.getResultPresent (uri.toKey hash) uri) none with
  | some found =>
    obtain ⟨ptr, sr⟩ := found
    obtain ⟨-, hsr, hequal⟩ : session.sc.Match (uri.toKey hash) uri
        session.sc.masterResultMap (ptr, sr) :=
      (hsome _ hfound).resolve_left nofun
    have hsame : sr.uri.compared = uri.compared := ((Uri.testEqual_iff huri).mp hequal).symm
    obtain ⟨hksk, hkey⟩ := hvalid.results ptr sr hsr
    rw [Uri.toKey_congr hsame] at hkey
    have hcounter := hvalid.conjunction.counters ptr sr hsr
    rw [missing_congr hvalid hsame] at hcounter
    refine ⟨ptr, SearchContext.credit koff ent.mandatory sr, _, rfl, ?_⟩
    refine ⟨⟨hksk, hkey, hsame⟩, ?_, ?_, credit_missing hcounter (missing_pos hent hnew), ?_, ?_,
      ?_, rfl, hnotified _ ptr⟩
    · intro old hold
      cases hsr.symm.trans hold
      exact ⟨hkey, hsame⟩
    · exact fun other old hold heq => hvalid.distinct other ptr old sr hold hsr
        (heq.trans hsame.symm)
    · rw [hkey, hput]
    · intro other
      rw [if_pos rfl, getElem?_set]
      by_cases hin : ptr = other
      · rw [if_pos hin, if_pos (List.getElem?_eq_some_iff.mp hsr).1, if_pos hin.symm]
      · rw [if_neg hin, if_neg (Ne.symm hin)]
    · intro key other
      refine (or_iff_left_of_imp ?_).symm
      rintro ⟨rfl, rfl⟩
      exact (hvalid.master _ _).mpr ⟨sr, hsr, hkey⟩
  | none =>
    obtain ⟨-, hnot⟩ := hnone hfound
    have hunknown : ∀ (ptr : Nat) (sr : SearchResult Hash),
        session.sc.results[ptr]? = some sr → sr.uri.compared ≠ uri.compared := by
      intro ptr sr hsr hsame
      refine hnot (ptr, sr) ⟨(hvalid.master _ _).mpr ⟨sr, hsr, ?_⟩, hsr,
        (Uri.testEqual_iff huri).mpr hsame.symm⟩
      rw [(hvalid.results ptr sr hsr).2, Uri.toKey_congr hsame]
    have hcounter : (session.sc.newResult (uri.toKey hash) uri).mandatoryMissing.toNat =
        (session.missing uri).card := hvalid.missing_unknown hunknown
    refine ⟨session.sc.results.length,
      SearchContext.credit koff ent.mandatory (session.sc.newResult (uri.toKey hash) uri), _, rfl,
      ?_⟩
    refine ⟨⟨huri, rfl, rfl⟩, ?_, ?_, credit_missing hcounter (missing_pos hent hnew), ?_, ?_, ?_,
      rfl, hnotified _ _⟩
    · intro old hold
      rw [getElem?_eq_none le_rfl] at hold
      cases hold
    · exact fun other old hold heq => absurd heq (hunknown other old hold)
    · exact congrArg (session.sc.requests.set koff ⟨·, ent.mandatory⟩) (hput _)
    · intro other
      rw [if_neg Bool.false_ne_true]
      by_cases hin : other = session.sc.results.length
      · rw [if_pos hin, hin, getElem?_append_right le_rfl, Nat.sub_self]
        rfl
      · rw [if_neg hin]
        by_cases hlt : other < session.sc.results.length
        · rw [getElem?_append_left hlt]
        · rw [getElem?_eq_none (by rw [length_append, length_singleton]; omega),
            getElem?_eq_none (by omega)]
    · intro key other
      dsimp only
      rw [if_neg Bool.false_ne_true, mem_cons, Prod.mk.injEq, or_comm]

end

theorem Valid.step (hvalid : session.Valid hash) (hmeets : session.Meets hash event)
    (hstep : session.step hash event = some next) : next.Valid hash := by
  obtain ⟨koff, uri⟩ := event
  have huri : uri.isKsk = false := hmeets.1
  rw [Session.step, map_eq_some_iff] at hstep
  obtain ⟨_, hprocess, rfl⟩ := hstep
  cases hent : session.sc.requests[koff]? with
  | none =>
    rw [SearchContext.processKskResult, hent] at hprocess
    cases hprocess
  | some ent =>
    by_cases hrec : session.Received koff uri
    · rw [SearchContext.processKskResult, hent, map_some] at hprocess
      rw [if_pos ((hvalid.testResultPresent_iff huri hent).mpr hrec)] at hprocess
      cases hprocess
      exact hvalid.duplicate huri hrec
    · obtain ⟨_, _, _, hprocess', hcredited⟩ := hvalid.credited hent hmeets hrec
      cases hprocess'.symm.trans hprocess
      exact hcredited.valid hent huri hvalid hrec

/-- In every search whose results are not KSK URIs and share no key for one keyword, the
counter of a result is the number of mandatory keywords that have not returned it, and
the client is notified of it only when there is none. -/
theorem conjunction_of_run {mandatory : List Bool} {events : List (Nat × Uri Hash)}
    (hlength : mandatory.length < 2 ^ 32)
    (hrun : Run (step hash) (Meets hash) ⟨.searchStart mandatory, []⟩ events session) :
    session.Conjunction := by
  have hvalid : session.Valid hash := by
    apply hrun.invariant (Valid hash)
    · exact valid_start hlength
    · exact fun before event after hvalid hmeets hstep => hvalid.step hmeets hstep
  exact hvalid.conjunction

def identity : KeyHash Nat where
  text _ := 0
  location fi _ := fi.query
  unwritten := 0

def firstFile : Uri Nat := .chk ⟨10, 1, 7⟩

def otherFile : Uri Nat := .chk ⟨10, 2, 7⟩

instance (session : Session Hash) (event : Nat × Uri Hash) : Decidable (session.Meets hash event) :=
  inferInstanceAs (Decidable (_ ∧ ∀ ent ∈ session.sc.requests[event.1]?, ∀ entry ∈ ent.results,
    entry.1 = event.2.toKey hash → ∀ sr ∈ session.sc.results[entry.2]?, _ = true))

theorem conjunction_of_run_notified : ∃ session : Session Nat,
      Run (step identity) (Meets identity) ⟨.searchStart [true, true], []⟩
        [(0, firstFile), (0, .chk ⟨10, 2, 8⟩), (1, firstFile), (0, firstFile)] session ∧
      session.sc.notified = [0] ∧ session.Conjunction :=
  Run.exists_of_exec_and (by decide +kernel) fun _ hrun _ => conjunction_of_run (by decide) hrun

/-- The first keyword returns two files with one query and the second of them once more:
the client is notified of it, while the second keyword has not returned it. -/
theorem notified_without_second_keyword :
    ∃ session : Session Nat,
      Run (step identity) (fun _ _ => True) ⟨.searchStart [true, true], []⟩
        [(0, firstFile), (0, otherFile), (0, otherFile)] session ∧
      (session.sc.notified = [1] ∧
        session.sc.results[1]?.map SearchResult.uri = some otherFile ∧
        session.Mandatory 1 ∧ ¬ session.Received 1 otherFile) :=
  Run.exists_of_exec (by decide +kernel)

end Session

end Gnunet.Fs.KeywordSearch
