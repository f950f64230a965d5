import Gnunet.GuardedRun
import Gnunet.SetService

/-!
# Iterations and the mutations that wait for them

While a set iterates, mutations of the shared content are put off; the end of the
last iteration executes them.  The counter of the iterations is right as long as
they end by running out of elements: a client that stops early, or goes away,
leaves the counter where it is.
-/

namespace Gnunet.SetService

open Protocol List Option

variable {E : Type}

section

variable {V : Type} {sets : AList fun _ : Nat => V} {client : Nat} {value : V}

theorem countP_erase (p : V → Bool) (h : sets.lookup client = some value) :
    sets.entries.countP (fun entry => p entry.2) =
      (sets.erase client).entries.countP (fun entry => p entry.2) + (p value).toNat := by
  have hmem := AList.mem_lookup_iff.mp h
  obtain ⟨other, _, _, -, hentries, herase⟩ := exists_of_kerase (mem_keys_of_mem hmem)
  have hvalue : other = value := by
    have hother : (⟨client, other⟩ : Sigma fun _ : Nat => V) ∈ sets.entries := by
      rw [hentries]
      simp
    exact Option.some.inj ((AList.mem_lookup_iff.mpr hother).symm.trans h)
  subst hvalue
  change _ = (sets.entries.kerase client).countP _ + _
  rw [herase, hentries, countP_append, countP_append, countP_cons]
  cases p other <;> simp
  omega

theorem countP_insert (p : V → Bool) (value : V) :
    (sets.insert client value).entries.countP (fun entry => p entry.2) =
      (sets.erase client).entries.countP (fun entry => p entry.2) + (p value).toNat := by
  rw [AList.entries_insert, countP_cons]
  change _ = (sets.entries.kerase client).countP _ + _
  cases p value <;> simp

theorem countP_erase_none (p : V → Bool) (h : sets.lookup client = none) :
    (sets.erase client).entries.countP (fun entry => p entry.2) =
      sets.entries.countP (fun entry => p entry.2) := by
  change (sets.entries.kerase client).countP _ = _
  rw [kerase_of_notMem_keys (AList.lookup_eq_none.mp h)]

end

namespace Service

def iterating (service : Service E) : Nat :=
  service.sets.entries.countP fun entry => entry.2.iter.isSome

/-- The counter is too high by the iterations that were `lost`, and nothing
waits when it is zero. -/
structure Counted (lost : Nat) (service : Service E) : Prop where
  count : service.content.iteratorCount = service.iterating + lost
  settled : service.content.iteratorCount = 0 → service.content.pendingMutations = []

def Mutated (service service' : Service E) : Prop :=
  ∃ elements, service' =
    { service with content := { service.content with elements := elements } }

variable {service service' : Service E} {client lost : Nat} {set set' : LocalSet E}

theorem Mutated.trans (h : service.Mutated service')
    (h' : service'.Mutated service'') : service.Mutated service'' := by
  obtain ⟨_, rfl⟩ := h
  obtain ⟨elements', rfl⟩ := h'
  exact ⟨elements', rfl⟩

theorem iterating_insert (hset : service.sets.lookup client = some set)
    (hsets : service'.sets = service.sets.insert client set') :
    service'.iterating + set.iter.isSome.toNat = service.iterating + set'.iter.isSome.toNat := by
  have herase := countP_erase (fun s : LocalSet E => s.iter.isSome) hset
  unfold iterating
  rw [hsets, countP_insert fun s : LocalSet E => s.iter.isSome]
  omega

theorem iterating_insert_new (hset : service.sets.lookup client = none)
    (hsets : service'.sets = service.sets.insert client set') :
    service'.iterating = service.iterating + set'.iter.isSome.toNat := by
  unfold iterating
  rw [hsets, countP_insert fun s : LocalSet E => s.iter.isSome,
    countP_erase_none (fun s : LocalSet E => s.iter.isSome) hset]

/-! ## One step -/

theorem Counted.afterInsert (h : Counted lost service)
    (hset : service.sets.lookup client = some set)
    (hsets : service'.sets = service.sets.insert client set')
    (hiter : set'.iter.isSome = set.iter.isSome)
    (hcount : service'.content.iteratorCount = service.content.iteratorCount)
    (hpending : service'.content.pendingMutations = service.content.pendingMutations) :
    Counted lost service' := by
  have hiterating := iterating_insert hset hsets
  rw [hiter] at hiterating
  refine ⟨?_, ?_⟩
  · rw [hcount, h.count]
    omega
  · rw [hcount, hpending]
    exact h.settled

/-- With a set that iterates its iteration is lost. -/
theorem Counted.afterDestroy (h : Counted lost service) (client : Nat) :
    ∃ lost', Counted lost' (service.setDestroy client) ∧
      ((∀ set ∈ service.sets.lookup client, set.iter = none) → lost' = lost) := by
  have hpending : service.content.iteratorCount = 0 →
      service.content.pendingMutations.filter (fun pm => pm.set ≠ client) = [] := by
    intro hcount
    rw [h.settled hcount, filter_nil]
  have hcount := h.count
  unfold iterating at hcount
  cases hset : service.sets.lookup client with
  | none =>
    rw [← countP_erase_none (fun s : LocalSet E => s.iter.isSome) hset] at hcount
    exact ⟨lost, ⟨hcount, hpending⟩, fun _ => rfl⟩
  | some set =>
    rw [countP_erase (fun s : LocalSet E => s.iter.isSome) hset, Nat.add_assoc] at hcount
    refine ⟨_, ⟨hcount, hpending⟩, fun hidle => ?_⟩
    rw [hidle set rfl]
    simp

theorem Counted.afterSend (h : Counted lost service) (message : ClientMessage E) :
    Counted lost (service.sendToClient client message) := by
  unfold sendToClient
  cases hset : service.sets.lookup client with
  | none => exact h
  | some set => exact h.afterInsert hset rfl rfl rfl rfl

theorem advanceGeneration_frame {content content' : SetContent E}
    (hstep : advanceGeneration content set = some (content', set')) :
    content' = { content with latestGeneration := content'.latestGeneration } ∧
      set'.iter = set.iter := by
  unfold advanceGeneration at hstep
  split at hstep
  · cases hstep
    exact ⟨rfl, rfl⟩
  · split at hstep
    · cases hstep
      exact ⟨rfl, rfl⟩
    · cases hstep

theorem Counted.afterStarting {requestId : Nat} (h : Counted lost service)
    (hstarting : service.Starting client requestId service') : Counted lost service' := by
  cases hstarting with
  | refused => exact h
  | started hset hadvance =>
    obtain ⟨hcontent, hiter⟩ := advanceGeneration_frame hadvance
    refine h.afterInsert hset rfl (by rw [← hiter]) ?_ ?_
    · rw [hcontent]
    · rw [hcontent]

theorem Counted.afterConnecting {cookie : Nat} (h : Counted lost service)
    (hconnecting : service.Connecting client cookie service') : ∃ lost', Counted lost' service' ∧
      ((∀ set ∈ service.sets.lookup client, set.iter = none) → lost' = lost) := by
  cases hconnecting with
  | dropped => exact h.afterDestroy client
  | refused => exact ⟨lost, ⟨h.count, h.settled⟩, fun _ => rfl⟩
  | @copied _ _ _ _ set' _ hnew _ _ hadvance _ _ hiter _ =>
    obtain ⟨hcontent, hiter'⟩ := advanceGeneration_frame hadvance
    have hcount : Service.iterating { service with sets := service.sets.insert client set' } = _ :=
      iterating_insert_new hnew rfl
    rw [hiter', hiter] at hcount
    refine ⟨lost, ⟨?_, ?_⟩, fun _ => rfl⟩
    · rw [hcontent]
      exact h.count.trans (congrArg (· + lost) hcount.symm)
    · rw [hcontent]
      exact h.settled

theorem Counted.count_stopped (h : Counted lost service)
    (hset : service.sets.lookup client = some set) (hiter : set.iter.isSome)
    (hsets : service'.sets = service.sets.insert client set') (hnone : set'.iter = none)
    (hcount : service'.content.iteratorCount = service.content.iteratorCount - 1) :
    service'.content.iteratorCount = service'.iterating + lost := by
  have hiterating := iterating_insert hset hsets
  rw [hiter, hnone, isSome_none, Bool.toNat_true, Bool.toNat_false] at hiterating
  rw [hcount, h.count]
  omega

variable [DecidableEq E]

theorem execute_mutated {content content' : SetContent E} {mutation : Mutation E}
    (hstep : mutation.execute set content = some content') :
    ∃ elements, content' = { content with elements := elements } := by
  cases mutation with
  | add element =>
    dsimp only [Mutation.execute, executeAdd] at hstep
    split at hstep
    · cases hstep
      exact ⟨_, rfl⟩
    · obtain ⟨present, -, rfl⟩ := map_eq_some_iff.mp hstep
      cases present <;> exact ⟨_, rfl⟩
  | remove element =>
    dsimp only [Mutation.execute, executeRemove] at hstep
    split at hstep
    · cases hstep
      exact ⟨_, rfl⟩
    · obtain ⟨present, -, rfl⟩ := map_eq_some_iff.mp hstep
      cases present <;> exact ⟨_, rfl⟩

theorem executeMutation_mutated {pm : PendingMutation E}
    (hstep : service.executeMutation pm = some service') : service.Mutated service' := by
  obtain ⟨_, -, hstep⟩ := bind_eq_some_iff.mp hstep
  obtain ⟨_, hcontent, hstep⟩ := bind_eq_some_iff.mp hstep
  obtain ⟨elements, rfl⟩ := execute_mutated hcontent
  cases hstep
  exact ⟨elements, rfl⟩

theorem executePending_mutated (hstep : service.executePending = some service') : Mutated
      { service with content := { service.content with pendingMutations := [] } }
      service' := by
  refine (Run.of_foldlM hstep).invariant
    (Mutated { service with content := { service.content with pendingMutations := [] } })
    ⟨_, rfl⟩ fun before pm after hbefore _ hafter => ?_
  exact hbefore.trans (executeMutation_mutated hafter)

section

variable (h : Counted lost service)
include h

theorem Counted.afterMutation
    (hstep : service.handleClientMutation client mutation = some service') :
    Counted lost service' := by
  unfold handleClientMutation at hstep
  split at hstep
  · cases hstep
    exact h
  · split at hstep
    next hcount =>
      cases hstep
      exact ⟨h.count, fun hzero => absurd hzero hcount⟩
    · obtain ⟨_, rfl⟩ := executeMutation_mutated hstep
      exact ⟨h.count, h.settled⟩

theorem Counted.afterFinish (hset : service.sets.lookup client = some set)
    (hiter : set.iter.isSome) (hstep : service.finishIteration client set = some service') :
    Counted lost service' := by
  unfold finishIteration at hstep
  split at hstep
  · cases hstep
  · dsimp only at hstep
    split at hstep
    · obtain ⟨_, rfl⟩ := executePending_mutated hstep
      exact ⟨h.count_stopped hset hiter rfl rfl rfl, fun _ => rfl⟩
    next hpositive =>
      cases hstep
      exact ⟨h.count_stopped hset hiter rfl rfl rfl, fun hzero => absurd hzero hpositive⟩

theorem Counted.afterSendElement (hstep : service.sendClientElement client = some service') :
    Counted lost service' := by
  obtain ⟨set, hset, hstep⟩ := bind_eq_some_iff.mp hstep
  obtain ⟨_, hiter, hstep⟩ := bind_eq_some_iff.mp hstep
  obtain ⟨next, -, hstep⟩ := bind_eq_some_iff.mp hstep
  have hsome : set.iter.isSome := by rw [hiter]; rfl
  cases next with
  | some found =>
    cases hstep
    refine Counted.afterSend ?_ _
    exact h.afterInsert hset rfl hsome.symm rfl rfl
  | none =>
    obtain ⟨_, hfinish, rfl⟩ := map_eq_some_iff.mp hstep
    exact (h.afterFinish hset hsome hfinish).afterSend _

theorem Counted.afterIterate (hstep : service.handleClientIterate client = some service') :
    ∃ lost', Counted lost' service' ∧
      ((∀ set ∈ service.sets.lookup client, set.iter = none) → lost' = lost) := by
  unfold handleClientIterate at hstep
  cases hset : service.sets.lookup client with
  | none =>
    rw [hset] at hstep
    cases hstep
    exact ⟨lost, h, fun _ => rfl⟩
  | some set =>
    rw [hset] at hstep
    dsimp only at hstep
    split at hstep
    · cases hstep
      rw [← hset]
      exact h.afterDestroy client
    next hidle =>
      refine ⟨lost, Counted.afterSendElement ⟨?_, fun hzero => by cases hzero⟩ hstep, fun _ => rfl⟩
      have hiterating : Service.iterating { service with
            sets := service.sets.insert client { set with
                iter := some 0
                iterGeneration := set.currentGeneration } } + _ = _ :=
        iterating_insert hset rfl
      rw [Bool.eq_false_of_not_eq_true hidle] at hiterating
      change service.content.iteratorCount + 1 = _
      rw [h.count, Nat.add_right_comm]
      exact congrArg (· + lost) hiterating.symm

theorem Counted.afterIterAck (hstep : service.handleClientIterAck client sendMore = some service') :
    ∃ lost', Counted lost' service' ∧
      ((sendMore = true ∨ ∀ set ∈ service.sets.lookup client, set.iter = none) → lost' = lost) := by
  unfold handleClientIterAck at hstep
  cases hset : service.sets.lookup client with
  | none =>
    rw [hset] at hstep
    cases hstep
    exact ⟨lost, h, fun _ => rfl⟩
  | some set =>
    rw [hset] at hstep
    dsimp only at hstep
    split at hstep
    next hidle =>
      cases hstep
      obtain ⟨lost', hcounted, hlost⟩ := h.afterDestroy client
      refine ⟨lost', hcounted, fun _ => hlost fun other hother => ?_⟩
      cases hset.symm.trans hother
      exact isNone_iff_eq_none.mp hidle
    next hiter =>
      split at hstep
      · exact ⟨lost, h.afterSendElement hstep, fun _ => rfl⟩
      next hmore =>
        cases hstep
        have hiterating : Service.iterating { service with
              sets := service.sets.insert client
                { set with iter := none, iterationId := set.iterationId + 1 } } + _ = _ :=
          iterating_insert hset rfl
        have hsome : set.iter.isSome := by
          simpa [isSome_iff_ne_none] using hiter
        simp only [hsome, isSome_none, Bool.toNat_true, Bool.toNat_false] at hiterating
        refine ⟨lost + 1, ⟨?_, h.settled⟩, fun hfinishes => ?_⟩
        · change service.content.iteratorCount = _
          rw [h.count]
          omega
        · have hnone := hfinishes.resolve_left hmore set rfl
          exact absurd (isNone_iff_eq_none.mpr hnone) hiter

end

/-! ## Runs -/

/-- A set that iterates is neither stopped nor destroyed. -/
def Finishes (service : Service E) : Request E → Prop
  | .iterate client | .copyLazyConnect client _ | .disconnect client =>
      ∀ set ∈ service.sets.lookup client, set.iter = none
  | .iterAck client sendMore =>
      sendMore = true ∨ ∀ set ∈ service.sets.lookup client, set.iter = none
  | _ => True

instance (request : Request E) : Decidable (service.Finishes request) := by
  cases request <;> unfold Finishes <;> infer_instance

theorem Counted.step (h : Counted lost service) (hstep : service.step request = some service') :
    ∃ lost', Counted lost' service' ∧ (service.Finishes request → lost' = lost) := by
  cases request with
  | mutation client mutation => exact ⟨lost, h.afterMutation hstep, fun _ => rfl⟩
  | evaluate client requestId =>
    exact ⟨lost, h.afterStarting (.evaluate hstep), fun _ => rfl⟩
  | accept client requestId known =>
    exact ⟨lost, h.afterStarting (.accept hstep), fun _ => rfl⟩
  | cancel client requestId =>
    refine ⟨lost, ?_, fun _ => rfl⟩
    cases hstep
    unfold handleClientCancel
    cases hset : service.sets.lookup client with
    | none => exact h
    | some set => exact h.afterInsert hset rfl rfl rfl rfl
  | copyLazyPrepare client =>
    refine ⟨lost, ?_, fun _ => rfl⟩
    cases hstep
    unfold handleClientCopyLazyPrepare
    cases hset : service.sets.lookup client with
    | none => exact h
    | some set => exact h.afterInsert hset rfl rfl rfl rfl
  | copyLazyConnect client cookie => exact h.afterConnecting (.connect hstep)
  | iterate client => exact h.afterIterate hstep
  | iterAck client sendMore => exact h.afterIterAck hstep
  | disconnect client =>
    cases hstep
    exact h.afterDestroy client

omit [DecidableEq E] in
theorem counted_created (operation : OperationType) (client : Nat) :
    Counted 0 (created operation client : Service E) :=
  ⟨rfl, fun _ => rfl⟩

variable {operation : OperationType} {requests : List (Request E)}

/-- Running iterations are counted, and without them no mutation is pending. -/
theorem iterations_counted
    (hrun : Run Service.step Service.Finishes (created operation client) requests
      service) :
    service.content.iteratorCount = service.iterating ∧
      ((∀ entry ∈ service.sets.entries, entry.2.iter = none) →
        service.content.pendingMutations = []) := by
  have hcounted := hrun.invariant (Counted 0) (counted_created operation client)
    fun before request after hbefore hfinishes hstep => by
      obtain ⟨_, hcounted, hlost⟩ := hbefore.step hstep
      rw [hlost hfinishes] at hcounted
      exact hcounted
  refine ⟨hcounted.count, fun hidle => hcounted.settled ?_⟩
  rw [hcounted.count, Nat.add_zero]
  refine countP_eq_zero.mpr fun entry hentry => ?_
  simp [hidle entry hentry]

def sharedIterations : List (Request Nat) :=
  [.mutation 1 (.add 7), .copyLazyPrepare 1, .copyLazyConnect 2 1, .iterate 1,
    .iterate 2, .mutation 1 (.add 8), .iterAck 1 true, .iterAck 2 true]

/-- Two sets over one content iterate; the second one to finish executes what
was put off. -/
theorem iterations_counted_shared :
    ∃ service : Service Nat,
      Run Service.step Service.Finishes (created .union 1) sharedIterations service ∧
      service.content.elements.keys.length = 2 ∧
      service.content.iteratorCount = service.iterating :=
  Run.exists_of_exec_and (by decide +kernel) fun _ hrun _ =>
    (iterations_counted hrun).1

/-- The client stops its iteration after the first element.  From then on
mutations wait for an iteration that nobody makes. -/
theorem stopped_iteration_blocks_mutations :
    ∃ service : Service Nat,
      Run Service.step (fun _ _ => True) (created .union 1)
        [.mutation 1 (.add 7), .iterate 1, .iterAck 1 false, .mutation 1 (.add 8)]
        service ∧
      service.content.iteratorCount = 1 ∧ service.iterating = 0 ∧
      service.content.pendingMutations ≠ [] :=
  Run.exists_of_exec (by decide +kernel)

end Service

end Gnunet.SetService
