import Gnunet.SetForks
import Gnunet.SetIteration

/-!
# The sets as their clients should see them

Next to the service run, for every client, the set that its own mutations give in
the order of the requests, and, for every operation, the set as of its request.
The service keeps up with both as long as its steps are careful: mutations are
executed where no other set sees them, and generations change when nothing is put
off.
-/

namespace Gnunet.SetService

open Protocol Option Function AList

variable {E : Type}

namespace Service

variable {service service' : Service E} {client : Nat} {set set' : LocalSet E}

def forks (service : Service E) (client : Nat) : Option Fork :=
  (service.sets.lookup client).map LocalSet.fork

theorem forks_eq_some (h : service.forks client = some fork) :
    ∃ set, service.sets.lookup client = some set ∧ set.fork = fork :=
  map_eq_some_iff.mp h

theorem forks_of_lookup (h : service.sets.lookup client = some set) :
    service.forks client = some set.fork := by
  rw [forks, h, map_some]

theorem forks_insert (hsets : service'.sets = service.sets.insert client set) :
    service'.forks = update service.forks client (some set.fork) := by
  funext c
  unfold forks
  rw [hsets]
  by_cases hc : c = client
  · rw [hc, lookup_insert, update_self, map_some]
  · rw [lookup_insert_ne hc, update_of_ne hc]

def Isolated (service : Service E) (client : Nat) : Prop :=
  ∀ set ∈ service.sets.lookup client, ∀ other ∈ service.sets.entries, other.1 ≠ client →
      other.2.fork.sees other.2.currentGeneration set.currentGeneration = false

instance : Decidable (service.Isolated client) := by
  unfold Isolated
  infer_instance

theorem Isolated.forks (h : service.Isolated client) :
    SetService.Isolated service.forks client := by
  intro fork hfork c other hc hother
  obtain ⟨set, hset, rfl⟩ := forks_eq_some hfork
  obtain ⟨otherSet, hotherSet, rfl⟩ := forks_eq_some hother
  exact h set hset ⟨c, otherSet⟩ (mem_lookup_iff.mp hotherSet) hc

end Service

open Service

variable [DecidableEq E]

structure Tracked (E : Type) where
  service : Service E
  reference : Nat → Finset E
  started : List (Started E)

namespace Tracked

def created (operation : OperationType) (client : Nat) : Tracked E :=
  ⟨Service.created operation client, fun _ => ∅, []⟩

def track (t : Tracked E) : Request E → Nat → Finset E
  | .mutation client mutation =>
      update t.reference client (mutation.apply (t.reference client))
  | .copyLazyConnect client cookie =>
      match t.service.lazyCopyRequests.find? fun cr => cr.cookie == cookie with
      | none => t.reference
      | some cr => update t.reference client (t.reference cr.sourceSet)
  | _ => t.reference

def startedBy (t : Tracked E) (client requestId : Nat) : List (Started E) :=
  match t.service.sets.lookup client with
  | none => []
  | some set => [⟨client, ⟨requestId, set.currentGeneration⟩, t.reference client⟩]

def startedWith (t : Tracked E) : Request E → List (Started E)
  | .evaluate client requestId => t.startedBy client requestId
  | .accept client requestId true => t.startedBy client requestId
  | _ => []

def step (t : Tracked E) (request : Request E) : Option (Tracked E) :=
  (t.service.step request).map fun service =>
    { service := service
      reference := t.track request
      started := (t.startedWith request ++ t.started).filter
        fun s => (service.sets.lookup s.client).isSome }

end Tracked

section

variable {content : SetContent E} {set : LocalSet E} {mutation : Mutation E} {present : Bool}

theorem execute_eq
    (hquery : query content.elements (fun ee => isElementOfSet ee set) mutation.element =
      some present) : mutation.execute set content = some (if present = mutation.added then content
        else content.appendMutation mutation.element ⟨set.currentGeneration, mutation.added⟩) := by
  unfold query at hquery
  cases mutation with
  | add element =>
    dsimp only [Mutation.execute, executeAdd, Mutation.element, Mutation.added] at hquery ⊢
    cases hlookup : content.elements.lookup element with
    | none => simp_all
    | some ee => cases present <;> simp_all
  | remove element =>
    dsimp only [Mutation.execute, executeRemove, Mutation.element, Mutation.added] at hquery ⊢
    cases hlookup : content.elements.lookup element with
    | none => simp_all
    | some ee => cases present <;> simp_all

end

variable {service service' : Service E} {executed : Nat → Finset E} {client : Nat}
  {set set' : LocalSet E} {pm : PendingMutation E} {started : Started E}

abbrev Service.Coherent (service : Service E) (executed : Nat → Finset E) : Prop :=
  SetService.Coherent service.content.elements service.content.latestGeneration
    service.forks executed

theorem Service.Coherent.executeMutation_eq (h : service.Coherent executed)
    (hset : service.sets.lookup pm.set = some set) :
    service.executeMutation pm = some (if decide (pm.mutationMessage.element ∈ executed pm.set) =
          pm.mutationMessage.added then service
        else { service with
          content := service.content.appendMutation pm.mutationMessage.element
            ⟨set.currentGeneration, pm.mutationMessage.added⟩ }) := by
  have hquery := h.query_current (forks_of_lookup hset) pm.mutationMessage.element
  unfold executeMutation
  rw [hset, bind_eq_bind, bind_some, execute_eq hquery, bind_eq_bind, bind_some]
  split <;> rfl

theorem Service.Coherent.afterExecute (h : service.Coherent executed)
    (hisolated : SetService.Isolated service.forks pm.set)
    (hstep : service.executeMutation pm = some service') :
    service.Mutated service' ∧ service'.Coherent (update executed pm.set
        (pm.mutationMessage.apply (executed pm.set))) ∧
      ∀ started, Snapshot service.content.elements service.forks started →
        Snapshot service'.content.elements service'.forks started := by
  obtain ⟨set, hset⟩ : ∃ set, service.sets.lookup pm.set = some set := by
    cases hset : service.sets.lookup pm.set with
    | none => simp [executeMutation, hset] at hstep
    | some set => exact ⟨set, rfl⟩
  rw [h.executeMutation_eq hset] at hstep
  cases hstep
  have hfork := forks_of_lookup hset
  split
  next hno =>
    refine ⟨⟨_, rfl⟩, ?_, fun _ hstarted => hstarted⟩
    rw [Mutation.apply_eq_self hno, update_eq_self]
    exact h
  next hchange =>
    refine ⟨⟨_, rfl⟩, ?_, fun _ hstarted => hstarted.afterMutation hfork hisolated⟩
    exact SetService.Coherent.afterMutation h hfork hisolated (Bool.eq_not_of_ne hchange)

def requested (pms : List (PendingMutation E)) (client : Nat) (elements : Finset E) : Finset E :=
  pms.foldl (fun elements pm =>
    if pm.set = client then pm.mutationMessage.apply elements else elements) elements

theorem requested_concat : requested (pms ++ [pm]) client elements =
      if pm.set = client then pm.mutationMessage.apply (requested pms client elements)
      else requested pms client elements := by
  simp [requested]

theorem requested_filter_ne (pms : List (PendingMutation E))
    (elements : Finset E) (hne : c ≠ client) :
    requested (pms.filter fun pm => pm.set ≠ client) c elements = requested pms c elements := by
  unfold requested
  rw [List.foldl_filter]
  congr 1
  funext elements pm
  by_cases hset : pm.set = c
  · simp [hset, hne]
  · simp [hset]

theorem requested_of_ne {elements : Finset E}
    (hne : ∀ pm ∈ pms, pm.set ≠ client) : requested pms client elements = elements := by
  induction pms with
  | nil => rfl
  | cons pm pms ih =>
    have hpm := hne pm List.mem_cons_self
    rw [requested, List.foldl_cons, if_neg hpm]
    exact ih fun other hother => hne other (List.mem_cons_of_mem pm hother)

omit [DecidableEq E] in
theorem Service.Mutated.forks_eq (h : service.Mutated service') :
    service'.forks = service.forks := by
  obtain ⟨_, rfl⟩ := h
  rfl

theorem Service.Coherent.afterPending (h : service.Coherent executed)
    (hisolated : ∀ pm ∈ pms, SetService.Isolated service.forks pm.set)
    (hstep : pms.foldlM executeMutation service = some service') :
    service.Mutated service' ∧ (∃ executed', service'.Coherent executed' ∧
        ∀ c, executed' c = requested pms c (executed c)) ∧
      ∀ started, Snapshot service.content.elements service.forks started →
        Snapshot service'.content.elements service'.forks started := by
  induction pms generalizing service executed with
  | nil =>
    cases hstep
    exact ⟨⟨_, rfl⟩, ⟨executed, h, fun _ => rfl⟩, fun _ hstarted => hstarted⟩
  | cons pm pms ih =>
    obtain ⟨_, hnext, hrest⟩ := bind_eq_some_iff.mp hstep
    obtain ⟨hmutated, hcoherent, hsnapshot⟩ :=
      h.afterExecute (hisolated pm List.mem_cons_self) hnext
    obtain ⟨hmutated', ⟨executed', hcoherent', hexecuted⟩, hsnapshot'⟩ :=
      ih hcoherent (fun other hother => by
        rw [hmutated.forks_eq]
        exact hisolated other (List.mem_cons_of_mem pm hother)) hrest
    refine ⟨hmutated.trans hmutated', ⟨executed', hcoherent', fun c => ?_⟩,
      fun started hstarted => hsnapshot' started (hsnapshot started hstarted)⟩
    rw [hexecuted c, requested, requested, List.foldl_cons]
    by_cases hc : pm.set = c
    · rw [if_pos hc, ← hc, update_self]
    · rw [if_neg hc, update_of_ne (Ne.symm hc)]

/-! ## Steps that change nothing of it -/

/-- The sets that are left see the same elements, and put off the same
mutations. -/
structure Service.Quiet (service service' : Service E) : Prop where
  elements : service'.content.elements = service.content.elements
  latest : service'.content.latestGeneration = service.content.latestGeneration
  pending : service'.content.pendingMutations ⊆ service.content.pendingMutations
  requested : ∀ c, (service'.sets.lookup c).isSome → ∀ elements,
    requested service'.content.pendingMutations c elements =
      requested service.content.pendingMutations c elements
  sets : ∀ c set', service'.sets.lookup c = some set' →
    ∃ set, service.sets.lookup c = some set ∧ set'.fork = set.fork ∧ set'.ops ⊆ set.ops

namespace Service.Quiet

theorem refl (service : Service E) : Quiet service service where
  elements := rfl
  latest := rfl
  pending := fun _ hpm => hpm
  requested := fun _ _ _ => rfl
  sets := fun _ set' hset' => ⟨set', hset', rfl, fun _ hop => hop⟩

theorem isSome (h : Quiet service service') (hsome : (service'.sets.lookup client).isSome) :
    (service.sets.lookup client).isSome := by
  obtain ⟨set', hset'⟩ := isSome_iff_exists.mp hsome
  obtain ⟨set, hset, -⟩ := h.sets client set' hset'
  exact isSome_iff_exists.mpr ⟨set, hset⟩

theorem trans (h : Quiet service service')
    (h' : Quiet service' service'') : Quiet service service'' where
  elements := h'.elements.trans h.elements
  latest := h'.latest.trans h.latest
  pending := fun _ hpm => h.pending (h'.pending hpm)
  requested := fun c hc elements =>
    (h'.requested c hc elements).trans (h.requested c (h'.isSome hc) elements)
  sets := fun c set'' hset'' => by
    obtain ⟨set', hset', hfork', hops'⟩ := h'.sets c set'' hset''
    obtain ⟨set, hset, hfork, hops⟩ := h.sets c set' hset'
    exact ⟨set, hset, hfork'.trans hfork, fun _ hop => hops (hops' hop)⟩

theorem ofInsert (hset : service.sets.lookup client = some set)
    (hsets : service'.sets = service.sets.insert client set')
    (hfork : set'.fork = set.fork) (hops : set'.ops ⊆ set.ops)
    (helements : service'.content.elements = service.content.elements)
    (hlatest : service'.content.latestGeneration = service.content.latestGeneration)
    (hpending : service'.content.pendingMutations = service.content.pendingMutations) :
    Quiet service service' where
  elements := helements
  latest := hlatest
  pending := by rw [hpending]; exact fun _ hpm => hpm
  requested := fun _ _ _ => by rw [hpending]
  sets := fun c s hs => by
    rw [hsets] at hs
    by_cases hc : c = client
    · subst hc
      rw [lookup_insert] at hs
      cases hs
      exact ⟨set, hset, hfork, hops⟩
    · rw [lookup_insert_ne hc] at hs
      exact ⟨s, hs, rfl, fun _ hop => hop⟩

theorem destroy (service : Service E) (client : Nat) :
    Quiet service (service.setDestroy client) := by
  have hsets : ∀ c set', (service.setDestroy client).sets.lookup c = some set' →
      c ≠ client ∧ service.sets.lookup c = some set' := by
    intro c set' hset'
    unfold setDestroy at hset'
    by_cases hc : c = client
    · subst hc
      rw [lookup_erase] at hset'
      cases hset'
    · rw [lookup_erase_ne hc] at hset'
      exact ⟨hc, hset'⟩
  refine ⟨rfl, rfl, fun _ hpm => List.mem_of_mem_filter hpm, fun c hc elements => ?_,
    fun c set' hset' => ⟨set', (hsets c set' hset').2, rfl, fun _ hop => hop⟩⟩
  obtain ⟨set', hset'⟩ := isSome_iff_exists.mp hc
  exact requested_filter_ne _ _ (hsets c set' hset').1

theorem cancel (service : Service E) (client requestId : Nat) :
    Quiet service (service.handleClientCancel client requestId) := by
  unfold handleClientCancel
  cases hset : service.sets.lookup client with
  | none => exact refl service
  | some set =>
    exact ofInsert hset rfl rfl List.eraseP_subset rfl rfl rfl

theorem prepare (service : Service E) (client : Nat) :
    Quiet service (service.handleClientCopyLazyPrepare client) := by
  unfold handleClientCopyLazyPrepare
  cases hset : service.sets.lookup client with
  | none => exact refl service
  | some set => exact ofInsert hset rfl rfl (fun _ hop => hop) rfl rfl rfl

theorem send (service : Service E) (client : Nat) (message : ClientMessage E) :
    Quiet service (service.sendToClient client message) := by
  unfold sendToClient
  cases hset : service.sets.lookup client with
  | none => exact refl service
  | some set => exact ofInsert hset rfl rfl (fun _ hop => hop) rfl rfl rfl

end Service.Quiet

/-- Nothing happens, or the mutations that were put off are executed. -/
inductive Service.Flushed (service service' : Service E) : Prop
  | quiet : Quiet service service' → Flushed service service'
  | flush {before after : Service E} : Quiet service before →
      before.executePending = some after → Quiet after service' →
      Flushed service service'

theorem Service.Flushed.ofQuiet (h : Quiet service before)
    (h' : before.Flushed service') : service.Flushed service' := by
  cases h' with
  | quiet hquiet => exact .quiet (h.trans hquiet)
  | flush hbefore hflush hafter => exact .flush (h.trans hbefore) hflush hafter

theorem Service.Flushed.finish (hset : service.sets.lookup client = some set)
    (hstep : service.finishIteration client set = some service') : service.Flushed service' := by
  unfold finishIteration at hstep
  split at hstep
  · cases hstep
  · dsimp only at hstep
    split at hstep
    · refine .flush ?_ hstep (.refl service')
      exact .ofInsert hset rfl rfl (fun _ hop => hop) rfl rfl rfl
    · cases hstep
      exact .quiet (.ofInsert hset rfl rfl (fun _ hop => hop) rfl rfl rfl)

theorem Service.Flushed.sendElement (hstep : service.sendClientElement client = some service') :
    service.Flushed service' := by
  obtain ⟨_, hset, hstep⟩ := bind_eq_some_iff.mp hstep
  obtain ⟨_, -, hstep⟩ := bind_eq_some_iff.mp hstep
  obtain ⟨next, -, hstep⟩ := bind_eq_some_iff.mp hstep
  cases next with
  | some found =>
    cases hstep
    refine .quiet (Quiet.trans ?_ (.send _ client _))
    exact .ofInsert hset rfl rfl (fun _ hop => hop) rfl rfl rfl
  | none =>
    obtain ⟨finished, hfinish, rfl⟩ := map_eq_some_iff.mp hstep
    have hsend := Quiet.send finished client (.iterDone)
    cases Flushed.finish hset hfinish with
    | quiet hquiet => exact .quiet (hquiet.trans hsend)
    | flush hbefore hflush hafter => exact .flush hbefore hflush (hafter.trans hsend)

theorem Service.Flushed.iterate (hstep : service.handleClientIterate client = some service') :
    service.Flushed service' := by
  unfold handleClientIterate at hstep
  cases hset : service.sets.lookup client with
  | none =>
    rw [hset] at hstep
    cases hstep
    exact .quiet (.refl service)
  | some set =>
    rw [hset] at hstep
    dsimp only at hstep
    split at hstep
    · cases hstep
      exact .quiet (.destroy service client)
    · refine Flushed.ofQuiet ?_ (Flushed.sendElement hstep)
      exact .ofInsert hset rfl rfl (fun _ hop => hop) rfl rfl rfl

theorem Service.Flushed.iterAck
    (hstep : service.handleClientIterAck client sendMore = some service') :
    service.Flushed service' := by
  unfold handleClientIterAck at hstep
  cases hset : service.sets.lookup client with
  | none =>
    rw [hset] at hstep
    cases hstep
    exact .quiet (.refl service)
  | some set =>
    rw [hset] at hstep
    dsimp only at hstep
    split at hstep
    · cases hstep
      exact .quiet (.destroy service client)
    · split at hstep
      · exact Flushed.sendElement hstep
      · cases hstep
        exact .quiet (.ofInsert hset rfl rfl (fun _ hop => hop) rfl rfl rfl)

/-! ## The invariant -/

structure Tracks (t : Tracked E) : Prop where
  coherent : ∃ executed, t.service.Coherent executed ∧ ∀ c, (t.service.sets.lookup c).isSome →
      t.reference c = requested t.service.content.pendingMutations c (executed c)
  started : ∀ s ∈ t.started, Snapshot t.service.content.elements t.service.forks s
  operations : ∀ c set, t.service.sets.lookup c = some set →
    ∀ op ∈ set.ops, ∃ s ∈ t.started, s.client = c ∧ s.op = op

variable {t : Tracked E} {started' : List (Started E)}

theorem tracks_created (operation : OperationType) (client : Nat) :
    Tracks (Tracked.created operation client : Tracked E) := by
  have hforks : ∀ c fork, (Service.created operation client : Service E).forks c = some fork →
        fork = ⟨0, []⟩ := by
    intro c fork hfork
    obtain ⟨set, hset, rfl⟩ := forks_eq_some hfork
    have hmem := mem_lookup_iff.mp hset
    simp only [Service.created, singleton_entries, List.mem_singleton] at hmem
    cases hmem
    rfl
  refine ⟨⟨fun _ => ∅, ?_, fun _ _ => rfl⟩, fun s hs => ?_, fun c set hset op hop => ?_⟩
  · refine ⟨fun e ee hlookup => ?_, fun e event hevent => ?_, fun c fork hfork => ?_,
      fun c fork hfork r hr => ?_, fun c fork hfork e => ?_⟩
    · cases hlookup
    · cases hevent
    · rw [hforks c fork hfork]
      exact Nat.zero_le _
    · rw [hforks c fork hfork] at hr
      cases hr
    · simp [history, Tracked.created, Service.created]
  · cases hs
  · have hmem := mem_lookup_iff.mp hset
    simp only [Tracked.created, Service.created, singleton_entries, List.mem_singleton] at hmem
    cases hmem
    cases hop

theorem Tracks.isSome (h : Tracks t) (hs : s ∈ t.started) :
    (t.service.sets.lookup s.client).isSome := by
  obtain ⟨_, hfork, -⟩ := h.started s hs
  obtain ⟨set, hset, -⟩ := forks_eq_some hfork
  exact isSome_iff_exists.mpr ⟨set, hset⟩

theorem Service.Quiet.forks_subset (h : service.Quiet service') (c : Nat) (fork : Fork)
    (hfork : service'.forks c = some fork) : service.forks c = some fork := by
  obtain ⟨set', hset', rfl⟩ := forks_eq_some hfork
  obtain ⟨_, hset, hsame, -⟩ := h.sets c set' hset'
  rw [forks_of_lookup hset, hsame]

theorem Tracks.afterQuiet (h : Tracks t) (hquiet : t.service.Quiet service')
    (hkept : ∀ s, s ∈ started' ↔ s ∈ t.started ∧ (service'.sets.lookup s.client).isSome) :
    Tracks ⟨service', t.reference, started'⟩ := by
  obtain ⟨executed, hcoherent, hreference⟩ := h.coherent
  refine ⟨⟨executed, ?_, fun c hc => ?_⟩, fun s hs => ?_, fun c set' hset' op hop => ?_⟩
  · have hsubset := hcoherent.ofSubset hquiet.forks_subset
    rw [← hquiet.elements, ← hquiet.latest] at hsubset
    exact hsubset
  · rw [hreference c (hquiet.isSome hc), hquiet.requested c hc]
  · obtain ⟨hs, hsome⟩ := (hkept s).mp hs
    obtain ⟨_, hfork, hsnapshot⟩ := h.started s hs
    obtain ⟨set', hset'⟩ := isSome_iff_exists.mp hsome
    have hsame := hquiet.forks_subset _ _ (forks_of_lookup hset')
    rw [hfork] at hsame
    cases hsame
    rw [hquiet.elements]
    exact ⟨set'.fork, forks_of_lookup hset', hsnapshot⟩
  · obtain ⟨set, hset, -, hops⟩ := hquiet.sets c set' hset'
    obtain ⟨s, hs, hclient, hsop⟩ := h.operations c set hset op (hops hop)
    refine ⟨s, (hkept s).mpr ⟨hs, ?_⟩, hclient, hsop⟩
    rw [hclient]
    exact isSome_iff_exists.mpr ⟨set', hset'⟩

theorem Tracks.afterPending (h : Tracks t) (hisolated : ∀ pm ∈ t.service.content.pendingMutations,
      SetService.Isolated t.service.forks pm.set)
    (hstep : t.service.executePending = some service') :
    Tracks ⟨service', t.reference, t.started⟩ ∧ service'.sets = t.service.sets := by
  obtain ⟨executed, hcoherent, hreference⟩ := h.coherent
  have hcleared : Service.Coherent
      { t.service with content := { t.service.content with pendingMutations := [] } }
      executed := hcoherent
  obtain ⟨⟨_, rfl⟩, ⟨executed', hcoherent', hexecuted⟩, hsnapshot⟩ :=
    hcleared.afterPending hisolated hstep
  refine ⟨⟨⟨executed', hcoherent', fun c hc => ?_⟩,
    fun s hs => hsnapshot s (h.started s hs), h.operations⟩, rfl⟩
  rw [hexecuted c]
  exact hreference c hc

theorem Isolated.mono {forks forks' : Nat → Option Fork} (h : SetService.Isolated forks client)
    (hforks : ∀ c fork, forks' c = some fork → forks c = some fork) :
    SetService.Isolated forks' client := by
  intro fork hfork c other hc hother
  exact h fork (hforks _ _ hfork) c other hc (hforks _ _ hother)

section

variable (h : Tracks t)
include h

theorem Tracks.afterFlushed (hisolated : ∀ pm ∈ t.service.content.pendingMutations,
      SetService.Isolated t.service.forks pm.set) (hstep : t.service.Flushed service')
    (hkept : ∀ s, s ∈ started' ↔ s ∈ t.started ∧ (service'.sets.lookup s.client).isSome) :
    Tracks ⟨service', t.reference, started'⟩ := by
  cases hstep with
  | quiet hquiet => exact h.afterQuiet hquiet hkept
  | @flush before after hbefore hflush hafter =>
    let kept := t.started.filter fun s => (before.sets.lookup s.client).isSome
    have hkept' : ∀ s, s ∈ kept ↔ s ∈ t.started ∧ (before.sets.lookup s.client).isSome :=
      fun s => List.mem_filter
    have hquiet := h.afterQuiet hbefore hkept'
    obtain ⟨hflushed, hsets⟩ := hquiet.afterPending
      (fun pm hpm => (hisolated pm (hbefore.pending hpm)).mono hbefore.forks_subset)
      hflush
    refine hflushed.afterQuiet hafter fun s => ?_
    rw [hkept, hkept']
    have hsome : (service'.sets.lookup s.client).isSome → (before.sets.lookup s.client).isSome := by
      intro hs
      have hs := hafter.isSome hs
      rw [hsets] at hs
      exact hs
    tauto

/-! ## The steps that matter -/

theorem Tracks.afterMutation (hsettled : t.service.content.iteratorCount = 0 →
      t.service.content.pendingMutations = [])
    (hisolated : SetService.Isolated t.service.forks client)
    (hstep : t.service.handleClientMutation client mutation = some service') :
    Tracks ⟨service', update t.reference client (mutation.apply (t.reference client)),
      t.started⟩ ∧ service'.sets = t.service.sets := by
  obtain ⟨executed, hcoherent, hreference⟩ := h.coherent
  unfold handleClientMutation at hstep
  split at hstep
  next hnone =>
    cases hstep
    refine ⟨⟨⟨executed, hcoherent, fun c hc => ?_⟩, h.started, h.operations⟩, rfl⟩
    have hne : c ≠ client := by
      rintro rfl
      simp_all
    dsimp only
    rw [update_of_ne hne]
    exact hreference c hc
  · split at hstep
    · cases hstep
      refine ⟨⟨⟨executed, hcoherent, fun c hc => ?_⟩, h.started, h.operations⟩, rfl⟩
      dsimp only
      rw [requested_concat]
      by_cases hclient : client = c
      · subst hclient
        rw [update_self, if_pos rfl, hreference client hc]
      · rw [update_of_ne (Ne.symm hclient), if_neg hclient]
        exact hreference c hc
    next hcount =>
      have hpending := hsettled (not_not.mp hcount)
      obtain ⟨⟨_, rfl⟩, hcoherent', hsnapshot⟩ := hcoherent.afterExecute hisolated hstep
      refine ⟨⟨⟨_, hcoherent', fun c hc => ?_⟩, fun s hs => hsnapshot s (h.started s hs),
        h.operations⟩, rfl⟩
      have hexecuted := hreference c hc
      rw [hpending] at hexecuted
      dsimp only [requested] at hexecuted ⊢
      rw [hpending, List.foldl_nil]
      by_cases hclient : c = client
      · subst hclient
        rw [update_self, update_self, hexecuted, List.foldl_nil]
      · rw [update_of_ne hclient, update_of_ne hclient, hexecuted, List.foldl_nil]

theorem Tracks.afterStart (hset : t.service.sets.lookup client = some set)
    (hlatest : t.service.content.latestGeneration + 1 < 2 ^ 32)
    (hpending : ∀ pm ∈ t.service.content.pendingMutations, pm.set ≠ client) {requestId : Nat}
    (hstep : t.service.startOperation client requestId set = some service') :
    Tracks ⟨service', t.reference,
      ⟨client, ⟨requestId, set.currentGeneration⟩, t.reference client⟩ :: t.started⟩ := by
  obtain ⟨executed, hcoherent, hreference⟩ := h.coherent
  have hfork := forks_of_lookup hset
  obtain ⟨⟨_, set'⟩, hadvance, hstep⟩ := bind_eq_some_iff.mp hstep
  obtain ⟨rfl, hset', hadvanced⟩ := advanceGeneration_eq_some hlatest
    (hcoherent.excluded_le client set.fork hfork) hadvance
  cases hstep
  have hcurrent : t.reference client = executed client := by
    rw [hreference client (by rw [hset]; rfl), requested_of_ne hpending]
  have hforks : ∀ service' : Service E, service'.sets = t.service.sets.insert client
      { set' with ops := ⟨requestId, set.currentGeneration⟩ :: set'.ops } →
      service'.forks = update t.service.forks client (some set'.fork) := by
    intro service' hsets
    have hinsert := forks_insert hsets
    exact hinsert
  have hcoherent' : SetService.Coherent t.service.content.elements
      (t.service.content.latestGeneration + 1)
      (update t.service.forks client (some set'.fork))
      (update executed client (executed client)) :=
    hcoherent.afterAdvance hfork hadvanced
  rw [update_eq_self] at hcoherent'
  refine ⟨⟨executed, ?_, fun c hc => ?_⟩, fun s hs => ?_, fun c s hs op hop => ?_⟩
  · unfold Service.Coherent
    rw [hforks _ rfl]
    exact hcoherent'
  · by_cases hclient : c = client
    · subst hclient
      rw [requested_of_ne hpending]
      exact hcurrent
    · rw [lookup_insert_ne hclient] at hc
      exact hreference c hc
  · rw [hforks _ rfl]
    rcases List.mem_cons.mp hs with rfl | hs
    · rw [hcurrent]
      exact hcoherent.snapshot hfork hadvanced requestId
    · exact (h.started s hs).afterAdvance hcoherent hfork hadvanced
  · by_cases hclient : c = client
    · subst hclient
      rw [lookup_insert] at hs
      cases hs
      rw [hset'] at hop
      rcases List.mem_cons.mp hop with rfl | hop
      · exact ⟨_, List.mem_cons_self, rfl, rfl⟩
      · obtain ⟨s, hs, hsclient, hsop⟩ := h.operations c set hset op hop
        exact ⟨s, List.mem_cons_of_mem _ hs, hsclient, hsop⟩
    · rw [lookup_insert_ne hclient] at hs
      obtain ⟨s', hs', hsclient, hsop⟩ := h.operations c s hs op hop
      exact ⟨s', List.mem_cons_of_mem _ hs', hsclient, hsop⟩

theorem Tracks.ofReference
    (hsame : ∀ c, (t.service.sets.lookup c).isSome → reference' c = t.reference c) :
    Tracks { t with reference := reference' } := by
  obtain ⟨executed, hcoherent, hreference⟩ := h.coherent
  refine ⟨⟨executed, hcoherent, fun c hc => ?_⟩, h.started, h.operations⟩
  exact (hsame c hc).trans (hreference c hc)

theorem Tracks.ofStarted (hsame : ∀ s, s ∈ started' ↔ s ∈ t.started) :
    Tracks { t with started := started' } := by
  refine ⟨h.coherent, fun s hs => h.started s ((hsame s).mp hs), fun c set hset op hop => ?_⟩
  obtain ⟨s, hs, hclient, hsop⟩ := h.operations c set hset op hop
  exact ⟨s, (hsame s).mpr hs, hclient, hsop⟩

theorem Tracks.afterCopy (hnew : t.service.sets.lookup client = none)
    {origin copy : LocalSet E} {lazyCopyRequests : List LazyCopyRequest}
    (hsource : t.service.sets.lookup source = some origin)
    (hadvance : advanceGeneration t.service.content copy = some (content', set'))
    (hfork : copy.fork = origin.fork) (hops : copy.ops = [])
    (hlatest : t.service.content.latestGeneration + 1 < 2 ^ 32)
    (hpending : t.service.content.pendingMutations = []) :
    Tracks ⟨{ t.service with
          content := content'
          sets := t.service.sets.insert client set'
          lazyCopyRequests := lazyCopyRequests },
        update t.reference client (t.reference source), t.started⟩ := by
  obtain ⟨executed, hcoherent, hreference⟩ := h.coherent
  have hsourceFork := forks_of_lookup hsource
  rw [← hfork] at hsourceFork
  obtain ⟨rfl, hset', hadvanced⟩ := advanceGeneration_eq_some hlatest
    (hcoherent.excluded_le source copy.fork hsourceFork) hadvance
  have hforks : ∀ service' : Service E, service'.sets = t.service.sets.insert client set' →
      service'.forks = update t.service.forks client (some set'.fork) :=
    fun service' hsets => forks_insert hsets
  refine ⟨⟨update executed client (executed source), ?_, fun c hc => ?_⟩,
    fun s hs => ?_, fun c s hs op hop => ?_⟩
  · unfold Service.Coherent
    rw [hforks _ rfl]
    exact hcoherent.afterAdvance hsourceFork hadvanced
  · dsimp only
    rw [hpending, requested_of_ne (by simp)]
    by_cases hclient : c = client
    · subst hclient
      rw [update_self, update_self,
        hreference source (by rw [hsource]; rfl), hpending, requested_of_ne (by simp)]
    · rw [lookup_insert_ne hclient] at hc
      rw [update_of_ne hclient, update_of_ne hclient,
        hreference c hc, hpending, requested_of_ne (by simp)]
  · rw [hforks _ rfl]
    obtain ⟨fork, hforkS, hsnapshot⟩ := h.started s hs
    have hne : s.client ≠ client := by
      intro heq
      have hsome := h.isSome hs
      rw [heq, hnew] at hsome
      cases hsome
    exact ⟨fork, by rw [update_of_ne hne, hforkS], hsnapshot⟩
  · by_cases hclient : c = client
    · subst hclient
      rw [lookup_insert] at hs
      cases hs
      rw [hset', hops] at hop
      cases hop
    · rw [lookup_insert_ne hclient] at hs
      exact h.operations c s hs op hop

end

theorem Tracked.track_connect_of_ne (t : Tracked E) (hc : c ≠ client) :
    t.track (.copyLazyConnect client cookie) c = t.reference c := by
  dsimp only [track]
  cases t.service.lazyCopyRequests.find? fun cr => cr.cookie == cookie with
  | none => rfl
  | some cr => exact update_of_ne hc _ _

theorem Tracks.afterConnect (h : Tracks t)
    (hlatest : t.service.content.latestGeneration + 1 < 2 ^ 32)
    (hpending : t.service.content.pendingMutations = [])
    (hstep : t.service.handleClientCopyLazyConnect client cookie = some service')
    (hkept : ∀ s, s ∈ started' ↔ s ∈ t.started ∧ (service'.sets.lookup s.client).isSome) :
    Tracks ⟨service', t.track (.copyLazyConnect client cookie), started'⟩ := by
  -- everything but a new set is quiet, and leaves `client` without a set
  have hquiet : ∀ {service'' : Service E}, t.service.Quiet service'' →
      service''.sets.lookup client = none →
      (∀ s, s ∈ started' ↔ s ∈ t.started ∧ (service''.sets.lookup s.client).isSome) →
      Tracks ⟨service'', t.track (.copyLazyConnect client cookie), started'⟩ := by
    intro service'' hquiet hnone hkept
    refine (h.afterQuiet hquiet hkept).ofReference fun c hc => t.track_connect_of_ne ?_
    rintro rfl
    rw [hnone] at hc
    cases hc
  cases Service.Connecting.connect hstep with
  | dropped =>
    exact hquiet (.destroy t.service client) (lookup_erase client _) hkept
  | refused hnew =>
    exact hquiet ⟨rfl, rfl, fun _ hpm => hpm, fun _ _ _ => rfl,
      fun _ set hset => ⟨set, hset, rfl, fun _ hop => hop⟩⟩ hnew hkept
  | @copied cr _ source copy _ _ hnew hfind hsource hadvance hgeneration hexcluded _ hops =>
    have htrack : t.track (.copyLazyConnect client cookie) =
        update t.reference client (t.reference cr.sourceSet) := by
      dsimp only [Tracked.track]
      rw [hfind]
    have hfork : copy.fork = source.fork := by
      unfold LocalSet.fork
      rw [hgeneration, hexcluded]
    rw [htrack]
    refine (h.afterCopy hnew hsource hadvance hfork hops hlatest hpending).ofStarted fun s => ?_
    rw [hkept, and_iff_left_iff_imp]
    intro hs
    by_cases hclient : s.client = client
    · rw [hclient, lookup_insert]
      rfl
    · rw [lookup_insert_ne hclient]
      exact h.isSome hs

/-! ## Careful requests -/

/-- Mutations are executed where no other set sees them, and a set gets a new
generation when nothing is put off and the generations do not run out. -/
def Service.Careful (service : Service E) : Request E → Prop
  | .mutation client _ => service.Isolated client
  | .evaluate client _ | .accept client _ _ =>
      service.content.latestGeneration + 1 < 2 ^ 32 ∧
        ∀ pm ∈ service.content.pendingMutations, pm.set ≠ client
  | .copyLazyConnect _ _ =>
      service.content.latestGeneration + 1 < 2 ^ 32 ∧ service.content.pendingMutations = []
  | .iterate _ | .iterAck _ _ =>
      ∀ pm ∈ service.content.pendingMutations, service.Isolated pm.set
  | .cancel _ _ | .copyLazyPrepare _ | .disconnect _ => True

theorem Tracks.afterEvaluate (h : Tracks t) (hset : t.service.sets.lookup client = some set)
    (hlatest : t.service.content.latestGeneration + 1 < 2 ^ 32)
    (hpending : ∀ pm ∈ t.service.content.pendingMutations, pm.set ≠ client)
    (hstep : t.service.startOperation client requestId set = some service')
    (hkept : ∀ s, s ∈ started' ↔ s ∈ t.startedBy client requestId ++ t.started ∧
      (service'.sets.lookup s.client).isSome) : Tracks ⟨service', t.reference, started'⟩ := by
  have hstart := h.afterStart hset hlatest hpending hstep
  refine hstart.ofStarted fun s => ?_
  rw [hkept, Tracked.startedBy, hset]
  refine and_iff_left_iff_imp.mpr fun hs => hstart.isSome hs

theorem Tracks.step (h : Tracks t)
    (hsettled : t.service.content.iteratorCount = 0 → t.service.content.pendingMutations = [])
    (hcareful : t.service.Careful request) (hstep : t.step request = some t') : Tracks t' := by
  obtain ⟨service', hservice, rfl⟩ := map_eq_some_iff.mp hstep
  have hkept : ∀ s, s ∈ (t.startedWith request ++ t.started).filter
      (fun s => (service'.sets.lookup s.client).isSome) ↔ s ∈ t.startedWith request ++ t.started ∧
          (service'.sets.lookup s.client).isSome :=
    fun s => List.mem_filter
  cases request with
  | mutation client mutation =>
    obtain ⟨hmutation, hsets⟩ := h.afterMutation hsettled hcareful.forks hservice
    refine hmutation.ofStarted fun s => ?_
    rw [hkept, hsets]
    exact and_iff_left_iff_imp.mpr fun hs => h.isSome hs
  | evaluate client requestId =>
    dsimp only [Service.step, Service.handleClientEvaluate] at hservice
    split at hservice
    next hset =>
      cases hservice
      refine h.afterQuiet (.refl t.service) ?_
      simpa only [Tracked.startedWith, Tracked.startedBy, hset, List.nil_append] using hkept
    next set hset =>
      exact h.afterEvaluate hset hcareful.1 hcareful.2 hservice hkept
  | accept client requestId known =>
    dsimp only [Service.step, Service.handleClientAccept] at hservice
    split at hservice
    next hset =>
      cases hservice
      refine h.afterQuiet (.refl t.service) ?_
      cases known <;>
        simpa only [Tracked.startedWith, Tracked.startedBy, hset, List.nil_append] using hkept
    next set hset =>
      split at hservice
      next hknown =>
        subst hknown
        exact h.afterEvaluate hset hcareful.1 hcareful.2 hservice hkept
      next hknown =>
        rw [Bool.not_eq_true] at hknown
        subst hknown
        cases hservice
        exact h.afterQuiet (.refl t.service) hkept
  | cancel client requestId =>
    cases hservice
    exact h.afterQuiet (.cancel t.service client requestId) hkept
  | copyLazyPrepare client =>
    cases hservice
    exact h.afterQuiet (.prepare t.service client) hkept
  | copyLazyConnect client cookie =>
    exact h.afterConnect hcareful.1 hcareful.2 hservice hkept
  | iterate client =>
    exact h.afterFlushed (fun pm hpm => (hcareful pm hpm).forks) (.iterate hservice) hkept
  | iterAck client sendMore =>
    exact h.afterFlushed (fun pm hpm => (hcareful pm hpm).forks) (.iterAck hservice) hkept
  | disconnect client =>
    cases hservice
    exact h.afterQuiet (.destroy t.service client) hkept

end Gnunet.SetService
