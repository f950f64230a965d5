import Gnunet.SetTracking

/-!
# Lazy copies

A lazily copied set starts in a new generation, but its source stays in the
old one, which the copy sees.  Copies are independent, and their histories
alternate, as long as a source does not mutate before it has got a new
generation as well.
-/

namespace Gnunet.SetService

open Protocol Tracked

variable {E : Type}

namespace Service

variable {service service' : Service E}

/-- No set mutates in a generation that another one sees, and the generations
do not run out. -/
def Apart (service : Service E) : Request E → Prop
  | .mutation client _ => service.Isolated client
  | .evaluate _ _ | .accept _ _ _ | .copyLazyConnect _ _ =>
      service.content.latestGeneration + 1 < 2 ^ 32
  | .iterate _ | .iterAck _ _ => False
  | .cancel _ _ | .copyLazyPrepare _ | .disconnect _ => True

instance (request : Request E) : Decidable (service.Apart request) := by
  refine request.casesOn ?_ ?_ ?_ ?_ ?_ ?_ ?_ ?_ ?_ <;>
    intros <;> dsimp only [Apart] <;> infer_instance

structure Still (service : Service E) : Prop where
  count : service.content.iteratorCount = 0
  pending : service.content.pendingMutations = []

theorem Still.careful (h : service.Still)
    (hapart : service.Apart request) : service.Careful request := by
  cases request with
  | mutation client mutation => exact hapart
  | evaluate client requestId => exact ⟨hapart, by simp [h.pending]⟩
  | accept client requestId known => exact ⟨hapart, by simp [h.pending]⟩
  | copyLazyConnect client cookie => exact ⟨hapart, h.pending⟩
  | iterate client => exact hapart.elim
  | iterAck client sendMore => exact hapart.elim
  | _ => exact hapart

theorem Still.afterStarting (h : service.Still)
    (hstarting : service.Starting client requestId service') : service'.Still := by
  cases hstarting with
  | refused => exact h
  | started hset hadvance =>
    obtain ⟨hcontent, -⟩ := advanceGeneration_frame hadvance
    rw [hcontent]
    exact ⟨h.count, h.pending⟩

theorem Still.afterDestroy (h : service.Still) (client : Nat) : (service.setDestroy client).Still :=
  ⟨h.count, by simp [setDestroy, h.pending]⟩

theorem Still.afterConnecting (h : service.Still)
    (hconnecting : service.Connecting client cookie service') : service'.Still := by
  cases hconnecting with
  | dropped => exact h.afterDestroy client
  | refused => exact ⟨h.count, h.pending⟩
  | copied _ _ _ hadvance _ _ _ _ =>
    obtain ⟨hcontent, -⟩ := advanceGeneration_frame hadvance
    rw [hcontent]
    exact ⟨h.count, h.pending⟩

variable [DecidableEq E]

theorem Still.step (h : service.Still)
    (hapart : service.Apart request) (hstep : service.step request = some service') :
    service'.Still := by
  cases request with
  | mutation client mutation =>
    dsimp only [Service.step, handleClientMutation] at hstep
    split at hstep
    · cases hstep
      exact h
    · split at hstep
      next hcount =>
        exact absurd h.count hcount
      · obtain ⟨_, rfl⟩ := executeMutation_mutated hstep
        exact ⟨h.count, h.pending⟩
  | evaluate client requestId => exact h.afterStarting (.evaluate hstep)
  | accept client requestId known => exact h.afterStarting (.accept hstep)
  | cancel client requestId =>
    cases hstep
    unfold handleClientCancel
    split
    · exact h
    · exact ⟨h.count, h.pending⟩
  | copyLazyPrepare client =>
    cases hstep
    unfold handleClientCopyLazyPrepare
    split
    · exact h
    · exact ⟨h.count, h.pending⟩
  | copyLazyConnect client cookie => exact h.afterConnecting (.connect hstep)
  | iterate client => exact hapart.elim
  | iterAck client sendMore => exact hapart.elim
  | disconnect client =>
    cases hstep
    exact h.afterDestroy client

end Service

variable [DecidableEq E] {operation : OperationType} {client : Nat} {requests : List (Request E)}
  {t : Tracked E}

theorem tracks_of_apart (hrun : Run step (fun t : Tracked E => t.service.Apart)
      (.created operation client) requests t) : Tracks t ∧ t.service.Still := by
  refine hrun.invariant (fun t => Tracks t ∧ t.service.Still)
    ⟨tracks_created operation client, rfl, rfl⟩ ?_
  intro before request after hbefore hapart hstep
  obtain ⟨htracks, hstill⟩ := hbefore
  refine ⟨htracks.step (fun _ => hstill.pending) (hstill.careful hapart) hstep, ?_⟩
  obtain ⟨_, hservice, rfl⟩ := Option.map_eq_some_iff.mp hstep
  exact hstill.step hapart hservice

theorem Tracks.query_set (h : Tracks t) (hpending : t.service.content.pendingMutations = [])
    {set : LocalSet E} (hset : t.service.sets.lookup c = some set) (e : E) :
    query t.service.content.elements (fun ee => isElementOfSet ee set) e =
      some (decide (e ∈ t.reference c)) := by
  obtain ⟨_, hcoherent, hreference⟩ := h.coherent
  rw [hreference c (by rw [hset]; rfl), hpending, requested_of_ne (by simp)]
  exact hcoherent.query_current (Service.forks_of_lookup hset) e

theorem Tracks.query_operation (h : Tracks t) (hs : s ∈ t.started) :
    ∃ set, t.service.sets.lookup s.client = some set ∧ ∀ e,
      query t.service.content.elements (fun ee => isElementOfOperation ee s.op set) e =
        some (decide (e ∈ s.elements)) := by
  obtain ⟨_, hcoherent, -⟩ := h.coherent
  obtain ⟨_, hfork, hquery⟩ := hcoherent.query_snapshot (h.started s hs)
  obtain ⟨set, hset, rfl⟩ := Service.forks_eq_some hfork
  exact ⟨set, hset, hquery⟩

/-- A set holds what its own requests ask for, whatever is done to its copies. -/
theorem lazy_copies_independent
    (hrun : Run step (fun t : Tracked E => t.service.Apart)
      (.created operation client) requests t) :
    ∀ c set, t.service.sets.lookup c = some set → ∀ e,
      query t.service.content.elements (fun ee => isElementOfSet ee set) e =
        some (decide (e ∈ t.reference c)) := by
  obtain ⟨htracks, hstill⟩ := tracks_of_apart hrun
  exact fun c set hset e => htracks.query_set hstill.pending hset e

def independentCopy : List (Request Nat) :=
  [.mutation 1 (.add 7), .copyLazyPrepare 1, .copyLazyConnect 2 1, .mutation 2 (.add 8),
    .evaluate 1 5, .mutation 1 (.remove 7), .mutation 1 (.add 9)]

/-- The source has got a new generation before it mutates. -/
theorem lazy_copies_independent_fork :
    ∃ t : Tracked Nat,
      Run step (fun t : Tracked Nat => t.service.Apart) (.created .union 1)
        independentCopy t ∧
      t.reference 1 = {9} ∧ t.reference 2 = {7, 8} ∧
      ∀ set, t.service.sets.lookup 2 = some set →
        query t.service.content.elements (fun ee => isElementOfSet ee set) 7 =
          some (decide (7 ∈ t.reference 2)) := by
  obtain ⟨t, hrun, hreference⟩ :
      ∃ t : Tracked Nat,
        Run step (fun t : Tracked Nat => t.service.Apart) (.created .union 1)
          independentCopy t ∧
        decide (t.reference 1 = {9} ∧ t.reference 2 = {7, 8}) = true :=
    Run.of_exec_any (by decide +kernel)
  obtain ⟨hsource, hcopy⟩ := of_decide_eq_true hreference
  exact ⟨t, hrun, hsource, hcopy, fun set hset => lazy_copies_independent hrun 2 set hset 7⟩

/-- Set 1 is copied and then gets another element; the copy has it, too. -/
theorem copy_sees_later_addition :
    ∃ t : Tracked Nat, ∃ set,
      Run step (fun _ _ => True) (.created .union 1)
        [.mutation 1 (.add 7), .copyLazyPrepare 1, .copyLazyConnect 2 1,
          .mutation 1 (.add 8)] t ∧
      t.service.sets.lookup 2 = some set ∧ 8 ∉ t.reference 2 ∧
      query t.service.content.elements (fun ee => isElementOfSet ee set) 8 =
        some true := by
  obtain ⟨t, hrun, hseen⟩ :
      ∃ t : Tracked Nat,
        Run step (fun _ _ => True) (.created .union 1)
          [.mutation 1 (.add 7), .copyLazyPrepare 1, .copyLazyConnect 2 1, .mutation 1 (.add 8)] t ∧
        decide (8 ∉ t.reference 2 ∧
          ((t.service.sets.lookup 2).bind fun set =>
            query t.service.content.elements (fun ee => isElementOfSet ee set) 8) =
              some true) = true :=
    Run.of_exec_any (by decide +kernel)
  obtain ⟨hreference, hquery⟩ := of_decide_eq_true hseen
  obtain ⟨set, hset, hquery⟩ := Option.bind_eq_some_iff.mp hquery
  exact ⟨t, set, hrun, hset, hreference, hquery⟩

theorem isSome_of_query {elements : AList fun _ : E => ElementEntry}
    (hlookup : elements.lookup e = some ee)
    (hquery : query elements ask e = some answer) : (ask ee).isSome := by
  unfold query at hquery
  rw [hlookup] at hquery
  exact Option.isSome_iff_exists.mpr ⟨answer, hquery⟩

/-- Every query has an answer, and every mutation can be made. -/
theorem histories_alternate
    (hrun : Run step (fun t : Tracked E => t.service.Apart)
      (.created operation client) requests t) :
    (∀ c set, t.service.sets.lookup c = some set →
      ∀ e ee, t.service.content.elements.lookup e = some ee →
        (isElementOfSet ee set).isSome ∧
          ∀ op ∈ set.ops, (isElementOfOperation ee op set).isSome) ∧
      ∀ c mutation, (t.service.step (.mutation c mutation)).isSome := by
  obtain ⟨htracks, hstill⟩ := tracks_of_apart hrun
  obtain ⟨_, hcoherent, -⟩ := htracks.coherent
  refine ⟨fun c set hset e ee hee => ⟨?_, fun op hop => ?_⟩, fun c mutation => ?_⟩
  · exact isSome_of_query hee (htracks.query_set hstill.pending hset e)
  · obtain ⟨_, hs, rfl, rfl⟩ := htracks.operations c set hset op hop
    obtain ⟨_, hset', hquery⟩ := htracks.query_operation hs
    cases hset.symm.trans hset'
    exact isSome_of_query hee (hquery e)
  · dsimp only [Service.step, Service.handleClientMutation]
    split
    · rfl
    next hsome =>
      rw [if_neg (not_not.mpr hstill.count)]
      cases hset : t.service.sets.lookup c with
      | none => simp [hset] at hsome
      | some set =>
        have hexecute : t.service.executeMutation ⟨c, mutation⟩ = some _ :=
          hcoherent.executeMutation_eq hset
        rw [hexecute]
        rfl

/-- The operation of the source and the copy both look at an element that the
other one has changed. -/
theorem histories_alternate_fork :
    ∃ t : Tracked Nat,
      Run step (fun t : Tracked Nat => t.service.Apart) (.created .union 1)
        independentCopy t ∧
      (t.service.content.elements.lookup 7).isSome ∧
      (t.service.step (.mutation 2 (.remove 7))).isSome :=
  Run.exists_of_exec_and (by decide +kernel) fun _ hrun _ =>
    (histories_alternate hrun).2 2 (.remove 7)

/-- The copy adds an element, and then the source adds it in the generation that
the copy sees.  Looking at the element, the copy meets an addition while it is
present. -/
theorem copy_meets_second_addition :
    ∃ t : Tracked Nat,
      Run step (fun _ _ => True) (.created .union 1)
        [.copyLazyPrepare 1, .copyLazyConnect 2 1, .mutation 2 (.add 7),
          .mutation 1 (.add 7)] t ∧
      (t.service.step (.mutation 2 (.remove 7))).isNone :=
  Run.exists_of_exec (by decide +kernel)

end Gnunet.SetService
