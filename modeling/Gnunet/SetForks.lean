import Gnunet.ForkedLog
import Gnunet.SetService

/-!
# Sets that share a content are forks of one log

To a set, the history of an element is the part of its mutations that lies in
the generations which the set sees.  As long as no set mutates in a generation
that another set sees, this part is a history of the set alone: what the loop
of `is_element_of_generation` computes is membership in a set of its own.
-/

namespace Gnunet.SetService

open Protocol Function

variable {E : Type}

/-! ## Views -/

structure Fork where
  generation : Nat
  excluded : List GenerationRange

def LocalSet.fork (set : LocalSet E) : Fork :=
  ⟨set.currentGeneration, set.excludedGenerations⟩

def Fork.sees (fork : Fork) (query generation : Nat) : Bool :=
  decide (generation ≤ query) && !isExcludedGeneration generation fork.excluded

def ElementEntry.log (ee : ElementEntry) : List (Nat × Bool) :=
  ee.mutations.map fun event => (event.generation, event.added)

theorem applyMutation_eq (fork : Fork) (query : Nat) (isPresent : Bool) (event : MutationEvent) :
    applyMutation query fork.excluded isPresent event =
      replayStep (fork.sees query) isPresent (event.generation, event.added) := by
  unfold applyMutation replayStep Fork.sees
  by_cases hlate : query < event.generation
  · simp [hlate, not_le.mpr hlate]
  · cases hexcluded : isExcludedGeneration event.generation fork.excluded with
    | true => simp
    | false => cases isPresent <;> cases event.added <;> simp [not_lt.mp hlate]

/-- The loop replays the log as the fork sees it. -/
theorem isElementOfGeneration_eq {ee : ElementEntry} {fork : Fork}
    (hmutations : ee.mutations ≠ []) (hquery : isExcludedGeneration query fork.excluded = false) :
    isElementOfGeneration ee query fork.excluded = replay (fork.sees query) ee.log := by
  have hempty : ee.mutations.isEmpty = false := by simpa using hmutations
  unfold isElementOfGeneration replay ElementEntry.log
  rw [hempty, hquery, List.foldlM_map]
  simp only [Bool.false_eq_true, if_false]
  congr 1
  funext isPresent event
  exact applyMutation_eq fork query isPresent event

theorem isExcludedGeneration_append :
    isExcludedGeneration generation (excluded ++ [r]) = (isExcludedGeneration generation excluded ||
        decide (r.start ≤ generation ∧ generation < r.stop)) := by
  simp [isExcludedGeneration, List.any_append]

theorem not_excluded_of_le (h : ∀ r ∈ excluded, r.stop ≤ generation) :
    isExcludedGeneration generation excluded = false := by
  rw [isExcludedGeneration, List.any_eq_false]
  intro r hr
  have hstop := h r hr
  simp only [Bool.and_eq_true, decide_eq_true_eq]
  omega

/-- The fork has left its generation for a new one that nobody else sees, and
sees nothing else that is new. -/
structure Fork.Advanced (latest : Nat) (fork fork' : Fork) : Prop where
  generation : fork'.generation = latest + 1
  excluded_le : ∀ r ∈ fork'.excluded, r.stop ≤ latest + 1
  sees_old : ∀ g ≤ latest, fork'.sees fork'.generation g = fork.sees fork.generation g
  sees_query : ∀ query ≤ fork.generation, ∀ g, fork'.sees query g = fork.sees query g
  excluded_query : ∀ query ≤ fork.generation, isExcludedGeneration query fork'.excluded =
      isExcludedGeneration query fork.excluded

theorem advanceGeneration_eq_some {content content' : SetContent E}
    {set set' : LocalSet E} (hlatest : content.latestGeneration + 1 < 2 ^ 32)
    (hexcluded : ∀ r ∈ set.excludedGenerations, r.stop ≤ set.currentGeneration)
    (hstep : advanceGeneration content set = some (content', set')) :
    content' = { content with latestGeneration := content.latestGeneration + 1 } ∧ set' = { set with
        currentGeneration := set'.currentGeneration
        excludedGenerations := set'.excludedGenerations } ∧
      Fork.Advanced content.latestGeneration set.fork set'.fork := by
  unfold advanceGeneration at hstep
  split at hstep
  next hcurrent =>
    rw [hcurrent, Nat.mod_eq_of_lt hlatest] at hstep
    cases hstep
    refine ⟨rfl, rfl, rfl, fun r hr => ?_, fun g hg => ?_, fun _ _ _ => rfl, fun _ _ => rfl⟩
    · have := hexcluded r hr
      omega
    · simp [Fork.sees, LocalSet.fork, hcurrent, hg, Nat.le_succ_of_le hg]
  · split at hstep
    next hcurrent =>
      rw [Nat.mod_eq_of_lt hlatest, Nat.mod_eq_of_lt (by omega)] at hstep
      cases hstep
      refine ⟨rfl, rfl, rfl, fun r hr => ?_, fun g hg => ?_, fun query hquery g => ?_,
        fun query hquery => ?_⟩
      · simp only [LocalSet.fork, List.mem_append, List.mem_singleton] at hr
        rcases hr with hr | rfl
        · have := hexcluded r hr
          omega
        · exact le_rfl
      · simp only [Fork.sees, LocalSet.fork, isExcludedGeneration_append]
        grind
      · simp only [Fork.sees, LocalSet.fork, isExcludedGeneration_append] at hquery ⊢
        grind
      · simp only [LocalSet.fork, isExcludedGeneration_append] at hquery ⊢
        grind
    · cases hstep

/-! ## Coherent histories -/

section

variable [DecidableEq E]

def history (elements : AList fun _ : E => ElementEntry) (element : E) : List (Nat × Bool) :=
  ((elements.lookup element).map ElementEntry.log).getD []

def query (elements : AList fun _ : E => ElementEntry)
    (ask : ElementEntry → Option Bool) (element : E) : Option Bool :=
  match elements.lookup element with
  | none => some false
  | some ee => ask ee

theorem history_appendMutation_self (content : SetContent E) :
    history (content.appendMutation element event).elements element =
      history content.elements element ++ [(event.generation, event.added)] := by
  unfold history SetContent.appendMutation
  cases content.elements.lookup element <;> simp [ElementEntry.log]

theorem history_appendMutation_of_ne (content : SetContent E)
    (event : MutationEvent) (hne : e ≠ element) :
    history (content.appendMutation element event).elements e = history content.elements e := by
  unfold history SetContent.appendMutation
  rw [AList.lookup_insert_ne hne]

def Mutation.element : Mutation E → E
  | .add element => element
  | .remove element => element

def Mutation.added : Mutation E → Bool
  | .add _ => true
  | .remove _ => false

def Mutation.apply (elements : Finset E) : Mutation E → Finset E
  | .add element => insert element elements
  | .remove element => elements.erase element

theorem Mutation.mem_apply (mutation : Mutation E) : decide (e ∈ mutation.apply elements) =
      if e = mutation.element then mutation.added else decide (e ∈ elements) := by
  cases mutation with
  | add element =>
    by_cases he : e = element <;>
      simp [Mutation.apply, Mutation.element, Mutation.added, he]
  | remove element =>
    by_cases he : e = element <;>
      simp [Mutation.apply, Mutation.element, Mutation.added, he]

theorem Mutation.apply_eq_self {mutation : Mutation E}
    (hno : decide (mutation.element ∈ elements) = mutation.added) :
    mutation.apply elements = elements := by
  cases mutation with
  | add element => exact Finset.insert_eq_self.mpr (of_decide_eq_true hno)
  | remove element => exact Finset.erase_eq_of_notMem (of_decide_eq_false hno)

structure Coherent (elements : AList fun _ : E => ElementEntry) (latest : Nat)
    (forks : Nat → Option Fork) (executed : Nat → Finset E) : Prop where
  mutated : ∀ e ee, elements.lookup e = some ee → ee.mutations ≠ []
  generations : ∀ e, ∀ event ∈ history elements e, event.1 ≤ latest
  current_le : ∀ c fork, forks c = some fork → fork.generation ≤ latest
  excluded_le : ∀ c fork, forks c = some fork → ∀ r ∈ fork.excluded, r.stop ≤ fork.generation
  member : ∀ c fork, forks c = some fork → ∀ e,
    replay (fork.sees fork.generation) (history elements e) = some (decide (e ∈ executed c))

def Isolated (forks : Nat → Option Fork) (client : Nat) : Prop :=
  ∀ fork, forks client = some fork → ∀ c other, c ≠ client → forks c = some other →
    other.sees other.generation fork.generation = false

/-- An operation, by the client it belongs to and the elements that it should
see. -/
structure Started (E : Type) where
  client : Nat
  op : Operation
  elements : Finset E
  deriving DecidableEq

def Snapshot (elements : AList fun _ : E => ElementEntry)
    (forks : Nat → Option Fork) (started : Started E) : Prop :=
  ∃ fork, forks started.client = some fork ∧ started.op.generationCreated < fork.generation ∧
    isExcludedGeneration started.op.generationCreated fork.excluded = false ∧
    ∀ e, replay (fork.sees started.op.generationCreated) (history elements e) =
      some (decide (e ∈ started.elements))

variable {elements : AList fun _ : E => ElementEntry} {latest : Nat}
  {forks forks' : Nat → Option Fork} {executed : Nat → Finset E}
  {client source : Nat} {fork fork' : Fork} {started : Started E}

section

variable (h : Coherent elements latest forks executed)
include h

theorem Coherent.query_eq (hquery : isExcludedGeneration generation fork.excluded = false) (e : E) :
    query elements (fun ee => isElementOfGeneration ee generation fork.excluded) e =
      replay (fork.sees generation) (history elements e) := by
  unfold query history
  cases hlookup : elements.lookup e with
  | none => rfl
  | some ee => exact isElementOfGeneration_eq (h.mutated e ee hlookup) hquery

theorem Coherent.query_current (hfork : forks client = some fork) (e : E) : query elements
        (fun ee => isElementOfGeneration ee fork.generation fork.excluded) e =
      some (decide (e ∈ executed client)) := by
  rw [h.query_eq (not_excluded_of_le (h.excluded_le client fork hfork)) e]
  exact h.member client fork hfork e

theorem Coherent.query_snapshot (hstarted : Snapshot elements forks started) :
    ∃ fork, forks started.client = some fork ∧ ∀ e, query elements (fun ee =>
          isElementOfGeneration ee started.op.generationCreated fork.excluded) e =
        some (decide (e ∈ started.elements)) := by
  obtain ⟨fork, hfork, -, hexcluded, hreplay⟩ := hstarted
  refine ⟨fork, hfork, fun e => ?_⟩
  rw [h.query_eq hexcluded e, hreplay e]

theorem Coherent.ofSubset (hforks : ∀ c fork, forks' c = some fork → forks c = some fork) :
    Coherent elements latest forks' executed where
  mutated := h.mutated
  generations := h.generations
  current_le c fork hfork := h.current_le c fork (hforks c fork hfork)
  excluded_le c fork hfork := h.excluded_le c fork (hforks c fork hfork)
  member c fork hfork := h.member c fork (hforks c fork hfork)

theorem Coherent.afterAdvance (hsource : forks source = some fork)
    (hadvanced : Fork.Advanced latest fork fork') :
    Coherent elements (latest + 1) (update forks client (some fork'))
      (update executed client (executed source)) where
  mutated := h.mutated
  generations e event hevent := Nat.le_succ_of_le (h.generations e event hevent)
  current_le c f hf := by
    by_cases hc : c = client
    · subst hc
      cases (update_self c (some fork') forks).symm.trans hf
      exact hadvanced.generation.le
    · rw [update_of_ne hc] at hf
      exact Nat.le_succ_of_le (h.current_le c f hf)
  excluded_le c f hf := by
    by_cases hc : c = client
    · subst hc
      cases (update_self c (some fork') forks).symm.trans hf
      rw [hadvanced.generation]
      exact hadvanced.excluded_le
    · rw [update_of_ne hc] at hf
      exact h.excluded_le c f hf
  member c f hf e := by
    by_cases hc : c = client
    · subst hc
      cases (update_self c (some fork') forks).symm.trans hf
      rw [update_self, ← h.member source fork hsource e]
      exact replay_congr fun event hevent =>
        hadvanced.sees_old event.1 (h.generations e event hevent)
    · rw [update_of_ne hc] at hf ⊢
      exact h.member c f hf e

theorem Snapshot.afterAdvance (hstarted : Snapshot elements forks started)
    (hfork : forks client = some fork) (hadvanced : Fork.Advanced latest fork fork') :
    Snapshot elements (update forks client (some fork')) started := by
  obtain ⟨f, hf, hlt, hexcluded, hreplay⟩ := hstarted
  by_cases hclient : started.client = client
  · rw [hclient, hfork] at hf
    cases hf
    refine ⟨fork', by rw [hclient, update_self], ?_, ?_, fun e => ?_⟩
    · have := h.current_le client fork hfork
      rw [hadvanced.generation]
      omega
    · rw [hadvanced.excluded_query _ hlt.le, hexcluded]
    · rw [← hreplay e]
      exact replay_congr fun event _ => hadvanced.sees_query _ hlt.le event.1
  · exact ⟨f, by rw [update_of_ne hclient, hf], hlt, hexcluded, hreplay⟩

theorem Coherent.snapshot (hfork : forks client = some fork)
    (hadvanced : Fork.Advanced latest fork fork') (requestId : Nat) :
    Snapshot elements (update forks client (some fork'))
      ⟨client, ⟨requestId, fork.generation⟩, executed client⟩ := by
  refine ⟨fork', update_self .., ?_, ?_, fun e => ?_⟩
  · have := h.current_le client fork hfork
    dsimp only
    rw [hadvanced.generation]
    omega
  · rw [hadvanced.excluded_query _ le_rfl]
    exact not_excluded_of_le (h.excluded_le client fork hfork)
  · rw [← h.member client fork hfork e]
    exact replay_congr fun event _ => hadvanced.sees_query _ le_rfl event.1

end

theorem Fork.hidden_of_le {query query' generation : Nat} (hle : query ≤ query')
    (h : fork.sees query' generation = false) : fork.sees query generation = false := by
  unfold Fork.sees at h ⊢
  grind

theorem Coherent.afterMutation {content : SetContent E} {mutation : Mutation E}
    (h : Coherent content.elements latest forks executed)
    (hfork : forks client = some fork) (hisolated : Isolated forks client)
    (hchange : decide (mutation.element ∈ executed client) = !mutation.added) :
    Coherent (content.appendMutation mutation.element ⟨fork.generation, mutation.added⟩).elements
      latest forks
      (update executed client (mutation.apply (executed client))) where
  mutated e ee hlookup := by
    by_cases he : e = mutation.element
    · subst he
      unfold SetContent.appendMutation at hlookup
      rw [AList.lookup_insert] at hlookup
      cases hlookup
      simp
    · unfold SetContent.appendMutation at hlookup
      rw [AList.lookup_insert_ne he] at hlookup
      exact h.mutated e ee hlookup
  generations e event hevent := by
    by_cases he : e = mutation.element
    · subst he
      rw [history_appendMutation_self, List.mem_append, List.mem_singleton] at hevent
      rcases hevent with hevent | rfl
      · exact h.generations _ event hevent
      · exact h.current_le client fork hfork
    · rw [history_appendMutation_of_ne _ _ he] at hevent
      exact h.generations e event hevent
  current_le := h.current_le
  excluded_le := h.excluded_le
  member c f hf e := by
    by_cases he : e = mutation.element
    · subst he
      rw [history_appendMutation_self]
      by_cases hc : c = client
      · subst hc
        cases hfork.symm.trans hf
        rw [update_self, mutation.mem_apply, if_pos rfl]
        refine replay_concat_visible
          (by simp [Fork.sees, not_excluded_of_le (h.excluded_le c fork hfork)]) ?_
        rw [h.member c fork hfork, hchange]
      · rw [update_of_ne hc, ← h.member c f hf]
        exact replay_concat_hidden (hisolated fork hfork c f hc hf)
    · rw [history_appendMutation_of_ne _ _ he, h.member c f hf]
      by_cases hc : c = client
      · subst hc
        rw [update_self, mutation.mem_apply, if_neg he]
      · rw [update_of_ne hc]

theorem Snapshot.afterMutation {content : SetContent E} {added : Bool}
    (hstarted : Snapshot content.elements forks started)
    (hfork : forks client = some fork) (hisolated : Isolated forks client) :
    Snapshot (content.appendMutation element ⟨fork.generation, added⟩).elements forks started := by
  obtain ⟨f, hf, hlt, hexcluded, hreplay⟩ := hstarted
  refine ⟨f, hf, hlt, hexcluded, fun e => ?_⟩
  rw [← hreplay e]
  by_cases he : e = element
  · subst he
    rw [history_appendMutation_self]
    refine replay_concat_hidden ?_
    by_cases hclient : started.client = client
    · rw [hclient, hfork] at hf
      cases hf
      simp [Fork.sees, hlt]
    · exact Fork.hidden_of_le hlt.le (hisolated fork hfork _ f hclient hf)
  · rw [history_appendMutation_of_ne _ _ he]

end

end Gnunet.SetService
