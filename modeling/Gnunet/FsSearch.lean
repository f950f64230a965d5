import Mathlib.Data.List.Forall2
import Mathlib.Data.List.Flatten
import Mathlib.Tactic

/-!
# Reissuing a search

`fs_search.c`.  After a reconnect the search request is sent again, together with
the results that are known already.  The results are a list in the order in which
the hash map is iterated.  The loop of `schedule_transmit_search_request` need not
end: it is evaluated for a number of rounds, and `running` says that these were
too few.
-/

namespace Gnunet.Fs

open List

variable {Hash : Type}

/-- The bitmap is `NULL` for the results of an SKS search. -/
structure SearchResult (Hash : Type) where
  key : Hash
  keywordBitmap : Option (List UInt8)
  deriving DecidableEq, Repr

def SearchResult.matchesKeyword (sr : SearchResult Hash) (keywordOffset : Nat) : Bool :=
  match sr.keywordBitmap with
  | none => true
  | some bitmap => (bitmap.getD (keywordOffset / 8) 0).toNat.testBit (keywordOffset % 8)

/-- A KSK search has the queries of its keywords, of which there is at least one;
an SKS search has the query that is derived from its namespace and identifier. -/
inductive SearchUri (Hash : Type) where
  | ksk (requests : List Hash) (nonempty : requests ≠ [])
  | sks (query : Hash)

structure SearchContext (Hash : Type) where
  uri : SearchUri Hash
  masterResultMap : List (SearchResult Hash)
  anonymity : UInt32
  loopbackOnly : Bool

/-- A search message for a UBLOCK from any peer.  A place for a known result that
was never written is `none`. -/
structure SearchMessage (Hash : Type) where
  loopbackOnly : Bool
  continued : Bool
  anonymityLevel : UInt32
  query : Hash
  knownResults : List (Option Hash)
  deriving DecidableEq, Repr

structure MessageBuilderContext (Hash : Type) where
  putCnt : Nat
  skipCnt : Nat
  xoff : List (Option Hash)

def buildResultSet (keywordOffset : Nat) :
    List (SearchResult Hash) → MessageBuilderContext Hash → MessageBuilderContext Hash
  | [], mbc => mbc
  | sr :: rest, mbc =>
      if sr.matchesKeyword keywordOffset = false then
        buildResultSet keywordOffset rest mbc
      else if 0 < mbc.skipCnt then
        buildResultSet keywordOffset rest { mbc with skipCnt := mbc.skipCnt - 1 }
      else if mbc.putCnt = 0 then mbc
      else
        buildResultSet keywordOffset rest { mbc with
            putCnt := mbc.putCnt - 1
            xoff := mbc.xoff.set (mbc.putCnt - 1) (some sr.key) }

def findResultSet (keywordOffset : Nat) (results : List (SearchResult Hash)) : Nat :=
  results.countP (·.matchesKeyword keywordOffset)

def fit : Nat :=
  (65536 - 1 - 112) / 64

structure TransmitState (Hash : Type) where
  searchRequestMapOffset : Nat
  keywordOffset : Nat
  firstCall : Bool
  sent : List (SearchMessage Hash)

inductive Transmission (Hash : Type) where
  | returned (sent : List (SearchMessage Hash))
  | crashed
  | running

namespace SearchContext

variable (sc : SearchContext Hash)

/-- For a KSK search the results of the first keyword are counted. -/
def totalSeenResults : Nat :=
  match sc.uri with
  | .ksk _ _ => findResultSet 0 sc.masterResultMap
  | .sks _ => sc.masterResultMap.length

def fillMessage (keywordOffset skip todo : Nat) : MessageBuilderContext Hash :=
  buildResultSet keywordOffset sc.masterResultMap ⟨todo, skip, replicate todo none⟩

def searchMessage (query : Hash) (continued : Bool) (knownResults : List (Option Hash)) :
    SearchMessage Hash where
  loopbackOnly := sc.loopbackOnly
  continued := continued
  anonymityLevel := sc.anonymity
  query := query
  knownResults := knownResults

/-- One round of the loop; `none` is a failing assertion, or a query that is read
behind the end of `requests`. -/
def transmitRound (state : TransmitState Hash) : Option (TransmitState Hash) :=
  let left := sc.totalSeenResults - state.searchRequestMapOffset
  let todo := min fit left
  match sc.uri with
  | .ksk requests _ =>
      requests[state.keywordOffset]?.bind fun query =>
        let mbc := sc.fillMessage state.keywordOffset state.searchRequestMapOffset todo
        let offset := state.searchRequestMapOffset + todo
        if mbc.putCnt ≠ 0 ∨ sc.totalSeenResults < offset then none
        else if sc.totalSeenResults ≠ offset then
          some { state with
              searchRequestMapOffset := offset
              firstCall := false
              sent := state.sent ++ [sc.searchMessage query true mbc.xoff] }
        else
          some
            { searchRequestMapOffset := 0
              keywordOffset := state.keywordOffset + 1
              firstCall := requests.length != state.keywordOffset + 1
              sent := state.sent ++ [sc.searchMessage query false mbc.xoff] }
  | .sks query =>
      let mbc := sc.fillMessage 0 state.searchRequestMapOffset todo
      if sc.totalSeenResults < state.searchRequestMapOffset then none
      else
        some { state with
            firstCall := false
            sent := state.sent ++
              [sc.searchMessage query
                (sc.totalSeenResults != state.searchRequestMapOffset) mbc.xoff] }

def transmitLoop : Nat → TransmitState Hash → Transmission Hash
  | 0, _ => .running
  | fuel + 1, state =>
      if sc.totalSeenResults - state.searchRequestMapOffset ≠ 0 ∨ state.firstCall = true then
        match sc.transmitRound state with
        | none => .crashed
        | some next => transmitLoop fuel next
      else .returned state.sent

def scheduleTransmitSearchRequest (fuel : Nat) : Transmission Hash :=
  sc.transmitLoop fuel ⟨0, 0, true, []⟩

def knownKeys (keywordOffset : Nat) : List Hash :=
  (sc.masterResultMap.filter (·.matchesKeyword keywordOffset)).map SearchResult.key

def targets : List (Hash × List Hash) :=
  match sc.uri with
  | .ksk requests _ => requests.mapIdx fun i query => (query, sc.knownKeys i)
  | .sks query => [(query, sc.masterResultMap.map SearchResult.key)]

end SearchContext

/-- A sequence of messages that together ask one query: all but the last are to be
continued, and each known result is in one of them. -/
structure Conveys (target : Hash × List Hash) (messages : List (SearchMessage Hash)) :
    Prop where
  query : ∀ message ∈ messages, message.query = target.1
  continued : ∃ front last, messages = front ++ [last] ∧
    (∀ message ∈ front, message.continued = true) ∧ last.continued = false
  known : (messages.flatMap SearchMessage.knownResults).Perm (target.2.map some)

theorem Conveys.eq_nil
    (h : Conveys target messages) (hempty : ∀ message ∈ messages, message.knownResults = []) :
    target.2 = [] := by
  have hnone : messages.flatMap SearchMessage.knownResults = [] := by
    rw [flatMap_eq_nil_iff]
    exact hempty
  have hperm := h.known
  rw [hnone] at hperm
  simpa using hperm.symm.eq_nil

def SearchContext.Reissued (sc : SearchContext Hash) : Prop :=
  ∃ fuel sequences, sc.scheduleTransmitSearchRequest fuel = .returned sequences.flatten ∧
    Forall₂ Conveys sc.targets sequences

namespace SearchContext

variable {sc : SearchContext Hash}

/-- With something to send the loop comes back to its start again and again. -/
theorem transmitRound_offset_lt {state next : TransmitState Hash}
    (hoffset : state.searchRequestMapOffset < sc.totalSeenResults)
    (hround : sc.transmitRound state = some next) :
    next.searchRequestMapOffset < sc.totalSeenResults := by
  unfold transmitRound at hround
  cases huri : sc.uri with
  | ksk requests hrequests =>
    simp only [huri] at hround
    obtain ⟨query, -, hnext⟩ := Option.bind_eq_some_iff.mp hround
    split at hnext
    · cases hnext
    next hassert =>
      split at hnext
      next hmore =>
        cases hnext
        simp only
        omega
      · cases hnext
        exact Nat.zero_lt_of_lt hoffset
  | sks query =>
    simp only [huri] at hround
    split at hround
    · cases hround
    · cases hround
      exact hoffset

theorem transmitLoop_ne_returned {state : TransmitState Hash} (fuel : Nat)
    (hoffset : state.searchRequestMapOffset < sc.totalSeenResults)
    (sent : List (SearchMessage Hash)) : sc.transmitLoop fuel state ≠ .returned sent := by
  induction fuel generalizing state with
  | zero => simp [transmitLoop]
  | succ fuel ih =>
    unfold transmitLoop
    rw [if_pos (by omega)]
    cases hround : sc.transmitRound state with
    | none => simp
    | some next =>
      apply ih
      exact transmitRound_offset_lt hoffset hround

/-! ## Searches without results -/

theorem buildResultSet_putCnt_zero :
    buildResultSet keywordOffset results ⟨0, 0, xoff⟩ = ⟨0, 0, xoff⟩ := by
  induction results with
  | nil => rfl
  | cons sr rest ih =>
    unfold buildResultSet
    split
    · exact ih
    · simp

theorem transmitRound_ksk (huri : sc.uri = .ksk requests hrequests)
    (htotal : sc.totalSeenResults = 0) (hquery : requests[i]? = some query) :
    sc.transmitRound ⟨0, i, firstCall, sent⟩ = some ⟨0, i + 1, requests.length != i + 1,
        sent ++ [sc.searchMessage query false []]⟩ := by
  unfold transmitRound
  simp [huri, hquery, htotal, fillMessage, buildResultSet_putCnt_zero]

theorem transmitLoop_ksk (huri : sc.uri = .ksk requests hrequests)
    (htotal : sc.totalSeenResults = 0) (rest : List Hash) (hrest : requests.drop i = rest)
    (hne : rest ≠ []) (sent : List (SearchMessage Hash)) :
    sc.transmitLoop (rest.length + 1) ⟨0, i, true, sent⟩ =
      .returned (sent ++ rest.map fun query => sc.searchMessage query false []) := by
  induction rest generalizing i sent with
  | nil => exact absurd rfl hne
  | cons query rest ih =>
    have hquery : requests[i]? = some query := by
      rw [← head?_drop, hrest]
      rfl
    have hdrop : requests.drop (i + 1) = rest := by
      rw [← drop_drop, hrest]
      rfl
    have hlength : requests.length = i + 1 + rest.length := by
      have := congrArg List.length hrest
      rw [length_drop, length_cons] at this
      omega
    unfold transmitLoop
    rw [if_pos (Or.inr rfl), transmitRound_ksk huri htotal hquery]
    simp only
    cases hmore : rest with
    | nil =>
      have hlast : (requests.length != i + 1) = false := by simp [hlength, hmore]
      simp [transmitLoop, htotal, hlast]
    | cons next others =>
      have hagain : (requests.length != i + 1) = true := by simp [hlength, hmore]
      rw [hagain, ← hmore, length_cons, ih hdrop (by simp [hmore])]
      simp

theorem conveys_nil {keys} (hkeys : keys = []) :
    Conveys (query, keys) [sc.searchMessage query false []] where
  query := by simp [searchMessage]
  continued := ⟨[], _, rfl, by simp, rfl⟩
  known := by simp [hkeys, searchMessage]

/-- No known result is to be sent along. -/
def NothingKnown (sc : SearchContext Hash) : Prop :=
  match sc.uri with
  | .ksk requests _ =>
      ∀ i < requests.length, ∀ sr ∈ sc.masterResultMap, sr.matchesKeyword i = false
  | .sks _ => sc.masterResultMap = []

theorem knownKeys_eq_nil_iff :
    sc.knownKeys i = [] ↔ ∀ sr ∈ sc.masterResultMap, sr.matchesKeyword i = false := by
  simp [knownKeys, filter_eq_nil_iff]

theorem nothingKnown_iff : sc.NothingKnown ↔ ∀ target ∈ sc.targets, target.2 = [] := by
  unfold NothingKnown targets
  cases sc.uri with
  | ksk requests hrequests =>
    simp only [mem_mapIdx, forall_exists_index, Prod.forall, Prod.mk.injEq]
    constructor
    · rintro h _ _ i hi ⟨-, rfl⟩
      exact knownKeys_eq_nil_iff.mpr (h i hi)
    · intro h i hi
      exact knownKeys_eq_nil_iff.mp (h _ _ i hi ⟨rfl, rfl⟩)
  | sks query => simp

theorem NothingKnown.totalSeenResults_eq (h : sc.NothingKnown) : sc.totalSeenResults = 0 := by
  unfold NothingKnown at h
  unfold totalSeenResults
  cases huri : sc.uri with
  | ksk requests hrequests =>
    simp only [huri] at h ⊢
    have hfirst := h 0 (length_pos_of_ne_nil hrequests)
    rw [findResultSet, countP_eq_zero]
    simpa using hfirst
  | sks query =>
    simp only [huri] at h ⊢
    rw [h]
    rfl

theorem NothingKnown.reissued (h : sc.NothingKnown) : sc.Reissued := by
  have htotal := h.totalSeenResults_eq
  have htargets := nothingKnown_iff.mp h
  cases huri : sc.uri with
  | ksk requests hrequests =>
    have hloop := transmitLoop_ksk huri htotal requests (drop_zero) hrequests []
    refine ⟨requests.length + 1, requests.map fun query => [sc.searchMessage query false []],
      ?_, ?_⟩
    · rw [scheduleTransmitSearchRequest, hloop, ← flatMap_def, map_eq_flatMap]
      rfl
    · simp only [targets, huri] at htargets ⊢
      rw [forall₂_iff_get]
      constructor
      · simp
      · intro i hi hi'
        have hlt : i < requests.length := by simpa using hi
        simp only [get_eq_getElem, getElem_mapIdx, getElem_map]
        apply conveys_nil
        apply htargets (requests[i], sc.knownKeys i)
        rw [mem_mapIdx]
        exact ⟨i, hlt, rfl⟩
  | sks query =>
    refine ⟨2, [[sc.searchMessage query false []]], ?_, ?_⟩
    · simp [scheduleTransmitSearchRequest, transmitLoop, transmitRound, huri, htotal,
        fillMessage, buildResultSet_putCnt_zero]
    · simp only [targets, huri] at htargets ⊢
      apply Forall₂.cons
      · apply conveys_nil
        apply htargets (query, sc.masterResultMap.map SearchResult.key)
        exact mem_singleton_self _
      · exact .nil

/-! ## The condition is exact -/

@[simp] theorem length_buildResultSet (keywordOffset : Nat)
    (results : List (SearchResult Hash)) (mbc : MessageBuilderContext Hash) :
    (buildResultSet keywordOffset results mbc).xoff.length = mbc.xoff.length := by
  induction results generalizing mbc with
  | nil => rfl
  | cons sr rest ih =>
    unfold buildResultSet
    split
    · exact ih mbc
    · split
      · exact ih _
      · split
        · rfl
        · rw [ih]
          exact length_set

/-- While nothing was counted, no result is sent, whatever the other keywords match. -/
theorem transmitRound_sent {state next : TransmitState Hash} (htotal : sc.totalSeenResults = 0)
    (hsent : ∀ message ∈ state.sent, message.knownResults = [])
    (hround : sc.transmitRound state = some next) :
    ∀ message ∈ next.sent, message.knownResults = [] := by
  have hfill (keywordOffset skip : Nat) :
      (sc.fillMessage keywordOffset skip (min fit (0 - skip))).xoff = [] := by
    apply eq_nil_of_length_eq_zero
    simp [fillMessage]
  have happend (query : Hash) (continued : Bool) :
      ∀ message ∈ state.sent ++ [sc.searchMessage query continued []],
        message.knownResults = [] := by
    intro message hmessage
    rcases mem_append.mp hmessage with hmessage | hmessage
    · exact hsent message hmessage
    · rw [mem_singleton.mp hmessage]
      rfl
  unfold transmitRound at hround
  simp only [htotal, hfill] at hround
  cases huri : sc.uri with
  | ksk requests hrequests =>
    simp only [huri] at hround
    obtain ⟨query, -, hnext⟩ := Option.bind_eq_some_iff.mp hround
    split at hnext
    · cases hnext
    · split at hnext
      · cases hnext
        exact happend query true
      · cases hnext
        exact happend query false
  | sks query =>
    simp only [huri] at hround
    split at hround
    · cases hround
    · cases hround
      exact happend query _

theorem transmitLoop_sent {state : TransmitState Hash} (htotal : sc.totalSeenResults = 0)
    (hsent : ∀ message ∈ state.sent, message.knownResults = [])
    (hloop : sc.transmitLoop fuel state = .returned sent) :
    ∀ message ∈ sent, message.knownResults = [] := by
  induction fuel generalizing state with
  | zero => cases hloop
  | succ fuel ih =>
    unfold transmitLoop at hloop
    split at hloop
    · cases hround : sc.transmitRound state with
      | none =>
        rw [hround] at hloop
        cases hloop
      | some next =>
        rw [hround] at hloop
        exact ih (transmitRound_sent htotal hsent hround) hloop
    · cases hloop
      exact hsent

theorem Reissued.nothingKnown (h : sc.Reissued) : sc.NothingKnown := by
  obtain ⟨fuel, sequences, hreturned, hconveys⟩ := h
  have htotal : sc.totalSeenResults = 0 := by
    by_contra hne
    exact transmitLoop_ne_returned fuel (Nat.pos_of_ne_zero hne) _ hreturned
  have hempty := transmitLoop_sent htotal (by simp) hreturned
  rw [nothingKnown_iff]
  intro target htarget
  obtain ⟨i, hi, rfl⟩ := mem_iff_getElem.mp htarget
  have hi' : i < sequences.length := hconveys.length_eq ▸ hi
  apply (hconveys.get hi hi').eq_nil
  intro message hmessage
  apply hempty
  exact mem_flatten.mpr ⟨_, getElem_mem hi', hmessage⟩

/-- A search is reissued as it should be exactly if there is nothing to exclude. -/
theorem reissued_iff_nothingKnown (sc : SearchContext Hash) : sc.Reissued ↔ sc.NothingKnown := by
  constructor
  · exact Reissued.nothingKnown
  · exact NothingKnown.reissued

def knownInNamespace : SearchContext Nat where
  uri := .sks 7
  masterResultMap := [⟨3, none⟩]
  anonymity := 1
  loopbackOnly := false

def knownUnderKeyword : SearchContext Nat where
  uri := .ksk [7] (by simp)
  masterResultMap := [⟨3, some [1]⟩]
  anonymity := 1
  loopbackOnly := false

def knownUnderSecondKeyword : SearchContext Nat where
  uri := .ksk [7, 8] (by simp)
  masterResultMap := [⟨3, some [2]⟩]
  anonymity := 1
  loopbackOnly := false

theorem known_result_not_reissued :
    (¬ knownInNamespace.Reissued ∧
      knownInNamespace.scheduleTransmitSearchRequest 20 matches .running) ∧
    (¬ knownUnderKeyword.Reissued ∧
      knownUnderKeyword.scheduleTransmitSearchRequest 2 matches .crashed) ∧
    ¬ knownUnderSecondKeyword.Reissued := by
  refine ⟨⟨?_, by decide⟩, ⟨?_, by decide⟩, ?_⟩
  · intro h
    exact absurd h.nothingKnown (by simp [NothingKnown, knownInNamespace])
  · intro h
    have hfirst := h.nothingKnown 0 (by decide) ⟨3, some [1]⟩ (by decide)
    revert hfirst
    decide
  · intro h
    have hsecond := h.nothingKnown 1 (by decide) ⟨3, some [2]⟩ (by decide)
    revert hsecond
    decide

end SearchContext

end Gnunet.Fs
