import Mathlib.Data.List.AList
import Mathlib.Tactic

/-!
# The sets of the set service and the content they share

`gnunet-service-set.c` for one `struct SetContent`: the sets that share it, the
requests of their clients and the history of every element.  A lazily copied set
has the content of its source, and generations tell which mutations belong to a
set.  Elements stand for their hash codes, and clients for their sets; hash maps
are association lists, and an iterator is a position in them.  `none` is a failing
assertion.
-/

namespace Gnunet.SetService

variable {E : Type}

structure MutationEvent where
  generation : Nat
  added : Bool
  deriving DecidableEq, Repr

structure GenerationRange where
  start : Nat
  stop : Nat
  deriving DecidableEq, Repr

structure ElementEntry where
  mutations : List MutationEvent
  deriving DecidableEq, Repr

inductive OperationType where
  | intersection
  | union
  deriving DecidableEq, Repr

structure Operation where
  clientRequestId : Nat
  generationCreated : Nat
  deriving DecidableEq, Repr

inductive ClientMessage (E : Type) where
  | iterElement (element : E) (iterationId : BitVec 16)
  | iterDone
  | copyLazyResponse (cookie : Nat)
  deriving DecidableEq, Repr

structure LocalSet (E : Type) where
  operation : OperationType
  currentGeneration : Nat
  excludedGenerations : List GenerationRange
  iter : Option Nat
  iterGeneration : Nat
  iterationId : BitVec 16
  ops : List Operation
  clientMq : List (ClientMessage E)
  deriving DecidableEq, Repr

inductive Mutation (E : Type) where
  | add (element : E)
  | remove (element : E)
  deriving DecidableEq, Repr

structure PendingMutation (E : Type) where
  set : Nat
  mutationMessage : Mutation E
  deriving DecidableEq, Repr

structure LazyCopyRequest where
  cookie : Nat
  sourceSet : Nat
  deriving DecidableEq, Repr

/-- `struct SetContent`; `refcount` is the number of the sets. -/
structure SetContent (E : Type) where
  elements : AList fun _ : E => ElementEntry
  latestGeneration : Nat
  pendingMutations : List (PendingMutation E)
  iteratorCount : Nat

structure Service (E : Type) where
  content : SetContent E
  sets : AList fun _ : Nat => LocalSet E
  lazyCopyRequests : List LazyCopyRequest
  lazyCopyCookie : Nat

def isExcludedGeneration (generation : Nat) (excluded : List GenerationRange) : Bool :=
  excluded.any fun r => decide (r.start ≤ generation) && decide (generation < r.stop)

def applyMutation (queryGeneration : Nat) (excluded : List GenerationRange)
    (isPresent : Bool) (event : MutationEvent) : Option Bool :=
  if queryGeneration < event.generation then some isPresent
  else if isExcludedGeneration event.generation excluded then some isPresent
  else if isPresent && event.added then none
  else if !isPresent && !event.added then none
  else some event.added

def isElementOfGeneration (ee : ElementEntry) (queryGeneration : Nat)
    (excluded : List GenerationRange) : Option Bool :=
  if ee.mutations.isEmpty then none
  else if isExcludedGeneration queryGeneration excluded then some false
  else ee.mutations.foldlM (applyMutation queryGeneration excluded) false

def isElementOfSet (ee : ElementEntry) (set : LocalSet E) : Option Bool :=
  isElementOfGeneration ee set.currentGeneration set.excludedGenerations

def isElementOfIteration (ee : ElementEntry) (set : LocalSet E) : Option Bool :=
  isElementOfGeneration ee set.iterGeneration set.excludedGenerations

/-- `_GSS_is_element_of_operation` for an operation of `set`. -/
def isElementOfOperation (ee : ElementEntry) (op : Operation) (set : LocalSet E) : Option Bool :=
  isElementOfGeneration ee op.generationCreated set.excludedGenerations

section

variable [DecidableEq E]

def SetContent.appendMutation (content : SetContent E) (element : E)
    (event : MutationEvent) : SetContent E :=
  let mutations := ((content.elements.lookup element).map (·.mutations)).getD []
  { content with elements := content.elements.insert element ⟨mutations ++ [event]⟩ }

def executeAdd (set : LocalSet E) (content : SetContent E) (element : E) : Option (SetContent E) :=
  let event : MutationEvent := ⟨set.currentGeneration, true⟩
  match content.elements.lookup element with
  | none => some (content.appendMutation element event)
  | some ee =>
      (isElementOfSet ee set).map fun present =>
        if present then content else content.appendMutation element event

def executeRemove (set : LocalSet E) (content : SetContent E) (element : E) :
    Option (SetContent E) :=
  let event : MutationEvent := ⟨set.currentGeneration, false⟩
  match content.elements.lookup element with
  | none => some content
  | some ee =>
      (isElementOfSet ee set).map fun present =>
        if present then content.appendMutation element event else content

def Mutation.execute (set : LocalSet E) (content : SetContent E) :
    Mutation E → Option (SetContent E)
  | .add element => executeAdd set content element
  | .remove element => executeRemove set content element

namespace Service

def executeMutation (service : Service E) (pm : PendingMutation E) :
    Option (Service E) := do
  let set ← service.sets.lookup pm.set
  let content ← pm.mutationMessage.execute set service.content
  some { service with content := content }

def handleClientMutation (service : Service E) (client : Nat)
    (mutation : Mutation E) : Option (Service E) :=
  let pm : PendingMutation E := ⟨client, mutation⟩
  if (service.sets.lookup client).isNone then some service
  else if service.content.iteratorCount ≠ 0 then
    some { service with
      content := { service.content with
        pendingMutations := service.content.pendingMutations ++ [pm] } }
  else service.executeMutation pm

end Service

end

def advanceGeneration (content : SetContent E) (set : LocalSet E) :
    Option (SetContent E × LocalSet E) :=
  if set.currentGeneration = content.latestGeneration then
    some
      ({ content with latestGeneration := (content.latestGeneration + 1) % 2 ^ 32 },
        { set with currentGeneration := (set.currentGeneration + 1) % 2 ^ 32 })
  else if set.currentGeneration < content.latestGeneration then
    let r : GenerationRange :=
      ⟨(set.currentGeneration + 1) % 2 ^ 32, (content.latestGeneration + 1) % 2 ^ 32⟩
    some
      ({ content with latestGeneration := r.stop },
        { set with
          currentGeneration := r.stop
          excludedGenerations := set.excludedGenerations ++ [r] })
  else none

namespace Service

/-- The part of `handle_client_evaluate` and `handle_client_accept` that
concerns the set. -/
def startOperation (service : Service E) (client requestId : Nat)
    (set : LocalSet E) : Option (Service E) := do
  let op : Operation := ⟨requestId, set.currentGeneration⟩
  let (content, set) ← advanceGeneration service.content set
  some { service with
    content := content
    sets := service.sets.insert client { set with ops := op :: set.ops } }

def handleClientEvaluate (service : Service E) (client requestId : Nat) : Option (Service E) :=
  match service.sets.lookup client with
  | none => some service
  | some set => service.startOperation client requestId set

/-- `known` says whether the request that the client accepts is still there. -/
def handleClientAccept (service : Service E) (client requestId : Nat)
    (known : Bool) : Option (Service E) :=
  match service.sets.lookup client with
  | none => some service
  | some set =>
      if known then service.startOperation client requestId set else some service

/-- The operation is destroyed; `collect_generation_garbage` removes nothing. -/
def handleClientCancel (service : Service E) (client requestId : Nat) : Service E :=
  match service.sets.lookup client with
  | none => service
  | some set =>
      { service with
        sets := service.sets.insert client
          { set with
            ops := set.ops.eraseP fun op => op.clientRequestId == requestId } }

def created (operation : OperationType) (client : Nat) : Service E where
  content :=
    { elements := ∅
      latestGeneration := 0
      pendingMutations := []
      iteratorCount := 0 }
  sets := AList.singleton client
    { operation := operation
      currentGeneration := 0
      excludedGenerations := []
      iter := none
      iterGeneration := 0
      iterationId := 0
      ops := []
      clientMq := [] }
  lazyCopyRequests := []
  lazyCopyCookie := 1

def setDestroy (service : Service E) (client : Nat) : Service E :=
  { service with
    content := { service.content with
      pendingMutations := service.content.pendingMutations.filter
        fun pm => pm.set ≠ client }
    sets := service.sets.erase client
    lazyCopyRequests := service.lazyCopyRequests.filter
      fun cr => cr.sourceSet ≠ client }

def handleClientCopyLazyPrepare (service : Service E) (client : Nat) : Service E :=
  match service.sets.lookup client with
  | none => service
  | some set =>
      { service with
        sets := service.sets.insert client
          { set with
            clientMq := set.clientMq ++ [.copyLazyResponse service.lazyCopyCookie] }
        lazyCopyRequests :=
          ⟨service.lazyCopyCookie, client⟩ :: service.lazyCopyRequests
        lazyCopyCookie := (service.lazyCopyCookie + 1) % 2 ^ 32 }

/-- A client that has a set already is dropped; sets for intersection cannot be
copied. -/
def handleClientCopyLazyConnect (service : Service E) (client cookie : Nat) : Option (Service E) :=
  if (service.sets.lookup client).isSome then some (service.setDestroy client)
  else
    match service.lazyCopyRequests.find? fun cr => cr.cookie == cookie with
    | none => some service
    | some cr => do
        let source ← service.sets.lookup cr.sourceSet
        let service :=
          { service with lazyCopyRequests := service.lazyCopyRequests.erase cr }
        if source.operation = .intersection then some service
        else
          let (content, set) ← advanceGeneration service.content
            { operation := source.operation
              currentGeneration := source.currentGeneration
              excludedGenerations := source.excludedGenerations
              iter := none
              iterGeneration := 0
              iterationId := 0
              ops := []
              clientMq := [] }
          some { service with
            content := content
            sets := service.sets.insert client set }

def nextOfIteration (set : LocalSet E) :
    Nat → List (Sigma fun _ : E => ElementEntry) → Option (Option (Nat × E))
  | _, [] => some none
  | i, ⟨element, ee⟩ :: rest =>
      (isElementOfIteration ee set).bind fun present =>
        if present then some (some (i + 1, element))
        else nextOfIteration set (i + 1) rest

def sendToClient (service : Service E) (client : Nat) (message : ClientMessage E) : Service E :=
  match service.sets.lookup client with
  | none => service
  | some set =>
      { service with
        sets := service.sets.insert client
          { set with clientMq := set.clientMq ++ [message] } }

variable [DecidableEq E]

def executePending (service : Service E) : Option (Service E) :=
  service.content.pendingMutations.foldlM executeMutation
    { service with content := { service.content with pendingMutations := [] } }

def finishIteration (service : Service E) (client : Nat) (set : LocalSet E) : Option (Service E) :=
  if service.content.iteratorCount = 0 then none
  else
    let service :=
      { service with
        content := { service.content with
          iteratorCount := service.content.iteratorCount - 1 }
        sets := service.sets.insert client
          { set with iter := none, iterationId := set.iterationId + 1 } }
    if service.content.iteratorCount = 0 then service.executePending
    else some service

def sendClientElement (service : Service E) (client : Nat) :
    Option (Service E) := do
  let set ← service.sets.lookup client
  let i ← set.iter
  let next ← nextOfIteration set i (service.content.elements.entries.drop i)
  match next with
  | some (i, element) =>
      some (sendToClient { service with
          sets := service.sets.insert client { set with iter := some i } }
        client (.iterElement element set.iterationId))
  | none =>
      (service.finishIteration client set).map fun service =>
        service.sendToClient client .iterDone

/-- A client that iterates already is dropped. -/
def handleClientIterate (service : Service E) (client : Nat) : Option (Service E) :=
  match service.sets.lookup client with
  | none => some service
  | some set =>
      if set.iter.isSome then some (service.setDestroy client)
      else
        sendClientElement { service with
            content := { service.content with
              iteratorCount := service.content.iteratorCount + 1 }
            sets := service.sets.insert client
              { set with
                iter := some 0
                iterGeneration := set.currentGeneration } }
          client

/-- A client that does not iterate is dropped. -/
def handleClientIterAck (service : Service E) (client : Nat)
    (sendMore : Bool) : Option (Service E) :=
  match service.sets.lookup client with
  | none => some service
  | some set =>
      if set.iter.isNone then some (service.setDestroy client)
      else if sendMore then service.sendClientElement client
      else
        some { service with
          sets := service.sets.insert client
            { set with iter := none, iterationId := set.iterationId + 1 } }

end Service

inductive Request (E : Type) where
  | mutation (client : Nat) (mutation : Mutation E)
  | evaluate (client requestId : Nat)
  | accept (client requestId : Nat) (known : Bool)
  | cancel (client requestId : Nat)
  | copyLazyPrepare (client : Nat)
  | copyLazyConnect (client cookie : Nat)
  | iterate (client : Nat)
  | iterAck (client : Nat) (sendMore : Bool)
  | disconnect (client : Nat)
  deriving DecidableEq, Repr

def Service.step [DecidableEq E] (service : Service E) : Request E → Option (Service E)
  | .mutation client mutation => service.handleClientMutation client mutation
  | .evaluate client requestId => service.handleClientEvaluate client requestId
  | .accept client requestId known =>
      service.handleClientAccept client requestId known
  | .cancel client requestId => some (service.handleClientCancel client requestId)
  | .copyLazyPrepare client => some (service.handleClientCopyLazyPrepare client)
  | .copyLazyConnect client cookie =>
      service.handleClientCopyLazyConnect client cookie
  | .iterate client => service.handleClientIterate client
  | .iterAck client sendMore => service.handleClientIterAck client sendMore
  | .disconnect client => some (service.setDestroy client)

/-! ## What a request does -/

namespace Service

variable {service service' : Service E} {client : Nat}

inductive Starting (service : Service E) (client requestId : Nat) : Service E → Prop
  | refused : Starting service client requestId service
  | started {set set' : LocalSet E} {content' : SetContent E} :
      service.sets.lookup client = some set →
      advanceGeneration service.content set = some (content', set') →
      Starting service client requestId { service with
          content := content'
          sets := service.sets.insert client
            { set' with ops := ⟨requestId, set.currentGeneration⟩ :: set'.ops } }

theorem Starting.evaluate (hstep : service.handleClientEvaluate client requestId = some service') :
    Starting service client requestId service' := by
  unfold handleClientEvaluate at hstep
  split at hstep
  · cases hstep
    exact .refused
  next set hset =>
    obtain ⟨⟨_, _⟩, hadvance, hstep⟩ := Option.bind_eq_some_iff.mp hstep
    cases hstep
    exact .started hset hadvance

theorem Starting.accept
    (hstep : service.handleClientAccept client requestId known = some service') :
    Starting service client requestId service' := by
  have heq : service.handleClientAccept client requestId known =
      if known then service.handleClientEvaluate client requestId else some service := by
    unfold handleClientAccept handleClientEvaluate
    cases service.sets.lookup client <;> simp
  rw [heq] at hstep
  split at hstep
  · exact .evaluate hstep
  · cases hstep
    exact .refused

/-- A client with a set is dropped; one without gets a copy in a generation of
its own, or nothing. -/
inductive Connecting (service : Service E) (client cookie : Nat) : Service E → Prop
  | dropped : Connecting service client cookie (service.setDestroy client)
  | refused {requests : List LazyCopyRequest} : service.sets.lookup client = none →
      Connecting service client cookie { service with lazyCopyRequests := requests }
  | copied {cr : LazyCopyRequest} {requests : List LazyCopyRequest}
      {source copy set' : LocalSet E} {content' : SetContent E} :
      service.sets.lookup client = none →
      service.lazyCopyRequests.find? (fun cr => cr.cookie == cookie) = some cr →
      service.sets.lookup cr.sourceSet = some source →
      advanceGeneration service.content copy = some (content', set') →
      copy.currentGeneration = source.currentGeneration →
      copy.excludedGenerations = source.excludedGenerations →
      copy.iter = none → copy.ops = [] →
      Connecting service client cookie { service with
          content := content'
          sets := service.sets.insert client set'
          lazyCopyRequests := requests }

theorem Connecting.connect
    (hstep : service.handleClientCopyLazyConnect client cookie = some service') :
    Connecting service client cookie service' := by
  unfold handleClientCopyLazyConnect at hstep
  split at hstep
  · cases hstep
    exact .dropped
  next hsome =>
    have hnew := Option.not_isSome_iff_eq_none.mp hsome
    split at hstep
    · cases hstep
      exact .refused hnew
    next cr hfind =>
      obtain ⟨_, hsource, hstep⟩ := Option.bind_eq_some_iff.mp hstep
      split at hstep
      · cases hstep
        exact .refused hnew
      · obtain ⟨⟨_, _⟩, hadvance, hstep⟩ := Option.bind_eq_some_iff.mp hstep
        cases hstep
        exact .copied hnew hfind hsource hadvance rfl rfl rfl rfl

end Service

end Gnunet.SetService
