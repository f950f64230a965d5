import Gnunet.SetCopies

/-!
# What an operation sees

An operation sees the set as of the generation in which it was started, and
goes on to do so while the set is mutated.  Mutations that were put off are
executed in whatever generation the set has by then; so an operation that
starts in between misses them, although they were requested before it.
-/

namespace Gnunet.SetService

open Protocol

variable {E : Type}

namespace Service

variable {service service' : Service E} {client : Nat}

/-- An operation starts when no mutation of its set is put off, and there are no
copies. -/
def Prompt (service : Service E) : Request E → Prop
  | .evaluate client _ | .accept client _ _ =>
      service.content.latestGeneration + 1 < 2 ^ 32 ∧
        ∀ pm ∈ service.content.pendingMutations, pm.set ≠ client
  | .copyLazyConnect _ _ => False
  | _ => True

instance (request : Request E) : Decidable (service.Prompt request) := by
  refine request.casesOn ?_ ?_ ?_ ?_ ?_ ?_ ?_ ?_ ?_ <;>
    intros <;> dsimp only [Prompt] <;> infer_instance

def Alone (client : Nat) (service : Service E) : Prop :=
  ∀ c, (service.sets.lookup c).isSome → c = client

section

variable (h : Alone client service)
include h

theorem Alone.isolated (c : Nat) : service.Isolated c := by
  intro set hset other hother hne
  have hc := h c (Option.isSome_iff_exists.mpr ⟨set, hset⟩)
  have hotherSome : (service.sets.lookup other.1).isSome :=
    Option.isSome_iff_exists.mpr ⟨other.2, AList.mem_lookup_iff.mpr hother⟩
  exact absurd ((h other.1 hotherSome).trans hc.symm) hne

theorem Alone.careful (hprompt : service.Prompt request) : service.Careful request := by
  cases request with
  | mutation c mutation => exact h.isolated c
  | evaluate c requestId => exact hprompt
  | accept c requestId known => exact hprompt
  | copyLazyConnect c cookie => exact hprompt.elim
  | iterate c => exact fun pm _ => h.isolated pm.set
  | iterAck c sendMore => exact fun pm _ => h.isolated pm.set
  | _ => exact trivial

theorem Alone.ofInsert {set set' : LocalSet E} (hset : service.sets.lookup c = some set)
    (hsets : service'.sets = service.sets.insert c set') : Alone client service' := by
  intro other hother
  refine h other ?_
  rw [hsets] at hother
  by_cases hc : other = c
  · rw [hc, hset]
    rfl
  · rwa [AList.lookup_insert_ne hc] at hother

theorem Alone.afterStarting
    (hstarting : service.Starting c requestId service') : Alone client service' := by
  cases hstarting with
  | refused => exact h
  | started hset _ => exact h.ofInsert hset rfl

theorem Alone.ofMutated (hmutated : service.Mutated service') : Alone client service' := by
  obtain ⟨_, rfl⟩ := hmutated
  exact h

end

variable [DecidableEq E]

theorem Alone.ofQuiet (h : Alone client service) (hquiet : service.Quiet service') :
    Alone client service' :=
  fun c hc => h c (hquiet.isSome hc)

theorem Alone.ofFlushed (h : Alone client service) (hflushed : service.Flushed service') :
    Alone client service' := by
  cases hflushed with
  | quiet hquiet => exact h.ofQuiet hquiet
  | @flush before after hbefore hflush hafter =>
    have hcleared : Alone client
        { before with content := { before.content with pendingMutations := [] } } :=
      fun c hc => h c (hbefore.isSome hc)
    exact (hcleared.ofMutated (executePending_mutated hflush)).ofQuiet hafter

theorem Alone.step (h : Alone client service)
    (hprompt : service.Prompt request) (hstep : service.step request = some service') :
    Alone client service' := by
  cases request with
  | mutation c mutation =>
    dsimp only [Service.step, handleClientMutation] at hstep
    split at hstep
    · cases hstep
      exact h
    · split at hstep
      · cases hstep
        exact h
      · exact h.ofMutated (executeMutation_mutated hstep)
  | evaluate c requestId => exact h.afterStarting (.evaluate hstep)
  | accept c requestId known => exact h.afterStarting (.accept hstep)
  | copyLazyConnect c cookie => exact hprompt.elim
  | iterate c => exact h.ofFlushed (.iterate hstep)
  | iterAck c sendMore => exact h.ofFlushed (.iterAck hstep)
  | cancel c requestId =>
    cases hstep
    exact h.ofQuiet (.cancel service c requestId)
  | copyLazyPrepare c =>
    cases hstep
    exact h.ofQuiet (.prepare service c)
  | disconnect c =>
    cases hstep
    exact h.ofQuiet (.destroy service c)

end Service

variable [DecidableEq E] {operation : OperationType} {client : Nat}
  {requests : List (Request E)} {t : Tracked E}

theorem tracks_of_prompt (hrun : Run Tracked.step (fun t : Tracked E => t.service.Prompt)
      (.created operation client) requests t) :
    Tracks t ∧ Service.Alone client t.service ∧ ∃ lost, Service.Counted lost t.service := by
  refine hrun.invariant (fun t => Tracks t ∧ Service.Alone client t.service ∧
    ∃ lost, Service.Counted lost t.service) ⟨tracks_created operation client, ?_, 0,
      Service.counted_created operation client⟩ ?_
  · intro c hc
    obtain ⟨_, hset⟩ := Option.isSome_iff_exists.mp hc
    have hmem := AList.mem_lookup_iff.mp hset
    simp only [Tracked.created, Service.created, AList.singleton_entries,
      List.mem_singleton] at hmem
    cases hmem
    rfl
  · rintro before request after ⟨htracks, halone, _, hcounted⟩ hprompt hstep
    refine ⟨htracks.step hcounted.settled (halone.careful hprompt) hstep, ?_⟩
    obtain ⟨_, hservice, rfl⟩ := Option.map_eq_some_iff.mp hstep
    obtain ⟨lost', hcounted', -⟩ := hcounted.step hservice
    exact ⟨halone.step hprompt hservice, lost', hcounted'⟩

/-- An operation sees the elements that were requested before it started. -/
theorem operation_sees_requested
    (hrun : Run Tracked.step (fun t : Tracked E => t.service.Prompt)
      (.created operation client) requests t) :
    (∀ s ∈ t.started, ∃ set, t.service.sets.lookup s.client = some set ∧ ∀ e,
      query t.service.content.elements (fun ee => isElementOfOperation ee s.op set) e =
        some (decide (e ∈ s.elements))) ∧
      ∀ c set, t.service.sets.lookup c = some set →
        ∀ op ∈ set.ops, ∃ s ∈ t.started, s.client = c ∧ s.op = op := by
  obtain ⟨htracks, -⟩ := tracks_of_prompt hrun
  exact ⟨fun s hs => htracks.query_operation hs, htracks.operations⟩

def promptOperations : List (Request Nat) :=
  [.mutation 1 (.add 7), .iterate 1, .evaluate 1 5, .mutation 1 (.remove 7),
    .mutation 1 (.add 8), .iterAck 1 true, .evaluate 1 6, .mutation 1 (.remove 8)]

theorem operation_sees_requested_deferred :
    ∃ t : Tracked Nat,
      Run Tracked.step (fun t : Tracked Nat => t.service.Prompt) (.created .union 1)
        promptOperations t ∧
      t.started = [⟨1, ⟨6, 1⟩, {8}⟩, ⟨1, ⟨5, 0⟩, {7}⟩] ∧
      ∃ set, t.service.sets.lookup 1 = some set ∧ ∀ e,
        query t.service.content.elements
          (fun ee => isElementOfOperation ee ⟨6, 1⟩ set) e =
            some (decide (e ∈ ({8} : Finset Nat))) :=
  Run.exists_of_exec_and (by decide +kernel) fun _ hrun hstarted =>
    (operation_sees_requested hrun).1 ⟨1, ⟨6, 1⟩, {8}⟩ (by rw [hstarted]; simp)

/-- Element 8 is added during an iteration, and the operation that the client
then starts does not see it, even after the iteration. -/
theorem operation_misses_deferred :
    ∃ t : Tracked Nat, ∃ set,
      Run Tracked.step (fun _ _ => True) (.created .union 1)
        [.mutation 1 (.add 7), .iterate 1, .mutation 1 (.add 8), .evaluate 1 5,
          .iterAck 1 true] t ∧
      t.started = [⟨1, ⟨5, 0⟩, {8, 7}⟩] ∧ t.service.sets.lookup 1 = some set ∧
      query t.service.content.elements (fun ee => isElementOfOperation ee ⟨5, 0⟩ set) 8 =
        some false := by
  obtain ⟨t, hrun, hmissed⟩ :
      ∃ t : Tracked Nat,
        Run Tracked.step (fun _ _ => True) (.created .union 1)
          [.mutation 1 (.add 7), .iterate 1, .mutation 1 (.add 8), .evaluate 1 5,
            .iterAck 1 true] t ∧
        decide (t.started = [⟨1, ⟨5, 0⟩, {8, 7}⟩] ∧
          ((t.service.sets.lookup 1).bind fun set =>
            query t.service.content.elements
              (fun ee => isElementOfOperation ee ⟨5, 0⟩ set) 8) = some false) = true :=
    Run.of_exec_any (by decide +kernel)
  obtain ⟨hstarted, hquery⟩ := of_decide_eq_true hmissed
  obtain ⟨set, hset, hquery⟩ := Option.bind_eq_some_iff.mp hquery
  exact ⟨t, set, hrun, hstarted, hset, hquery⟩

end Gnunet.SetService
