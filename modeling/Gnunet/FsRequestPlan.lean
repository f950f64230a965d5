import Mathlib.Data.List.Basic

/-!
# Merging requests into a plan

`get_latest` and `merge_pr` of `gnunet-service-fs_pe.c`.  A request plan has a list of
pending requests, of which the new ones come first.  Of the list of plans that a request
is in nothing is read here.
-/

namespace Gnunet.Fs

open List

/-- `struct GSF_PendingRequestData`; the type, the query and the time to live. -/
structure PendingRequest (Query : Type) where
  type : UInt32
  query : Query
  ttl : UInt64
  deriving DecidableEq, Repr

/-- `struct GSF_RequestPlan`; the requests are those of the list at `pe_head`. -/
structure RequestPlan (Query : Type) where
  requests : List (PendingRequest Query)
  requests_ne : requests ≠ []
  transmissionCounter : UInt32
  deriving DecidableEq

variable {Query : Type}

/-- `GSF_pending_request_is_compatible_`. -/
def PendingRequest.isCompatible [DecidableEq Query] (pra prb : PendingRequest Query) : Bool :=
  pra.type = prb.type ∧ pra.query = prb.query

def laterRequest (ret pr : PendingRequest Query) : PendingRequest Query :=
  if pr.ttl > ret.ttl then pr else ret

namespace RequestPlan

def first (rp : RequestPlan Query) : PendingRequest Query :=
  rp.requests.head rp.requests_ne

def getLatest (rp : RequestPlan Query) : PendingRequest Query :=
  rp.requests.tail.foldl laterRequest rp.first

def insertRequest (rp : RequestPlan Query) (pr : PendingRequest Query) : RequestPlan Query :=
  { rp with requests := pr :: rp.requests, requests_ne := cons_ne_nil _ _ }

/-- `merge_pr`; `none` if the request is not compatible and the iteration goes on. -/
def mergePr [DecidableEq Query] (rp : RequestPlan Query) (pr : PendingRequest Query) :
    Option (RequestPlan Query) :=
  if pr.isCompatible rp.first then
    let merged := rp.insertRequest pr
    if merged.getLatest.ttl < pr.ttl then some { merged with transmissionCounter := 0 }
    else some merged
  else none

/-- What merging a request into a plan should do. -/
structure Refreshed (rp : RequestPlan Query) (pr : PendingRequest Query)
    (rp' : RequestPlan Query) : Prop where
  latest : rp'.getLatest ∈ pr :: rp.requests ∧
    ∀ other ∈ pr :: rp.requests, other.ttl ≤ rp'.getLatest.ttl
  counter : rp'.transmissionCounter =
    if ∀ old ∈ rp.requests, old.ttl < pr.ttl then 0 else rp.transmissionCounter

theorem le_laterRequest (ret pr : PendingRequest Query) :
    ret.ttl ≤ (laterRequest ret pr).ttl ∧ pr.ttl ≤ (laterRequest ret pr).ttl := by
  rw [laterRequest]
  split
  next hlater =>
    exact ⟨UInt64.le_of_lt hlater, UInt64.le_refl _⟩
  next hnot =>
    exact ⟨UInt64.le_refl _, UInt64.not_lt.mp hnot⟩

theorem foldl_laterRequest (requests : List (PendingRequest Query)) (ret : PendingRequest Query) :
    requests.foldl laterRequest ret ∈ ret :: requests ∧
      ∀ other ∈ ret :: requests, other.ttl ≤ (requests.foldl laterRequest ret).ttl := by
  induction requests generalizing ret with
  | nil => simp
  | cons pr requests ih =>
    obtain ⟨hmem, hle⟩ := ih (laterRequest ret pr)
    obtain ⟨hret, hpr⟩ := le_laterRequest ret pr
    have hlater := hle _ mem_cons_self
    rw [foldl_cons]
    constructor
    · rcases mem_cons.mp hmem with heq | hin
      · rw [heq, laterRequest]
        split <;> simp
      · exact mem_cons_of_mem _ (mem_cons_of_mem _ hin)
    · intro other hother
      rcases mem_cons.mp hother with rfl | hother
      · exact UInt64.le_trans hret hlater
      · rcases mem_cons.mp hother with rfl | hother
        · exact UInt64.le_trans hpr hlater
        · exact hle other (mem_cons_of_mem _ hother)

theorem getLatest_insertRequest (rp : RequestPlan Query) (pr : PendingRequest Query) :
    (rp.insertRequest pr).getLatest ∈ pr :: rp.requests ∧
      ∀ other ∈ pr :: rp.requests, other.ttl ≤ (rp.insertRequest pr).getLatest.ttl :=
  foldl_laterRequest rp.requests pr

/-- The new request is in the list when the latest one is looked for, so that the counter
is never reset. -/
theorem mergePr_eq [DecidableEq Query] {rp : RequestPlan Query} {pr : PendingRequest Query}
    (hcompatible : pr.isCompatible rp.first) : rp.mergePr pr = some (rp.insertRequest pr) := by
  have hle := (getLatest_insertRequest rp pr).2 pr mem_cons_self
  rw [mergePr, if_pos hcompatible]
  exact if_neg (UInt64.not_lt.mpr hle)

/-- A merged request refreshes the plan if and only if its time to live is no longer than
that of an earlier one, or the counter is 0 anyway. -/
theorem mergePr_refreshed_iff [DecidableEq Query] {rp : RequestPlan Query}
    {pr : PendingRequest Query} (hcompatible : pr.isCompatible rp.first) :
    ∃ rp', rp.mergePr pr = some rp' ∧ (Refreshed rp pr rp' ↔
      rp.transmissionCounter = 0 ∨ ∃ old ∈ rp.requests, pr.ttl ≤ old.ttl) := by
  refine ⟨_, mergePr_eq hcompatible, fun hrefreshed => ?_, fun hcase => ?_⟩
  · have hcounter : rp.transmissionCounter = _ := hrefreshed.counter
    by_cases hlatest : ∀ old ∈ rp.requests, old.ttl < pr.ttl
    · rw [if_pos hlatest] at hcounter
      exact .inl hcounter
    · simp only [not_forall, exists_prop, UInt64.not_lt] at hlatest
      exact .inr hlatest
  · refine ⟨getLatest_insertRequest rp pr, ?_⟩
    change rp.transmissionCounter = _
    rcases hcase with hzero | ⟨old, hold, hle⟩
    · rw [hzero, ite_self]
    · rw [if_neg fun hall => UInt64.not_lt.mpr hle (hall old hold)]

def sentPlan : RequestPlan Nat :=
  ⟨[⟨1, 7, 100⟩], cons_ne_nil _ _, 3⟩

theorem mergePr_refreshed_iff_earlier :
    ∃ rp', sentPlan.mergePr ⟨1, 7, 50⟩ = some rp' ∧ Refreshed sentPlan ⟨1, 7, 50⟩ rp' := by
  obtain ⟨rp', hmerge, hiff⟩ := mergePr_refreshed_iff
    (show PendingRequest.isCompatible ⟨1, 7, 50⟩ sentPlan.first by decide)
  exact ⟨rp', hmerge, hiff.mpr (.inr ⟨⟨1, 7, 100⟩, mem_cons_self, by decide⟩)⟩

theorem counter_not_reset :
    (sentPlan.mergePr ⟨1, 7, 200⟩).map transmissionCounter = some 3 ∧
      ∀ old ∈ sentPlan.requests, old.ttl < 200 := by
  decide

end RequestPlan

end Gnunet.Fs
