import Gnunet.SetCopies
import Gnunet.SetUnion

/-!
# What a union operation transmits

An operation lives next to its set, with messages of the other peer and requests
of clients in any order.  What is transmitted on demand, and what is sent as
missing at the other peer, belongs to the operation.  The full set is the whole
content, which belongs to the operation only if there is nothing in it that was
removed or that is of another set or generation.
-/

namespace Gnunet.SetService

open Protocol Ibf Option UnionOperation

/-! ## One operation -/

/-- Only elements of the operation are transmitted, and all of them with the full
set. -/
structure UnionOperation.Honest (elements : Finset Element) (op : UnionOperation) : Prop where
  unreceived : ∀ ke ∈ op.keyToElement, ke.received = false → ke.element ∈ elements
  transmitted : ∀ e ∈ op.transmitted, e ∈ elements
  complete : op.phase = .fullSending → ∀ e ∈ elements, e ∈ op.transmitted

structure OperationView.Shows (view : OperationView) (elements : Finset Element) :
    Prop where
  answer : ∀ e ∈ view.elements, view.isElementOfOperation e = some (decide (e ∈ elements))
  known : ∀ e ∈ elements, e ∈ view.elements

namespace UnionOperation

variable {env : UnionEnv} {view : OperationView} {op op' : UnionOperation}
  {elements : Finset Element}

theorem initializeKeyToElement_eq (hview : view.Shows elements)
    (hcandidates : ∀ e ∈ candidates, e ∈ view.elements) : initializeKeyToElement view candidates =
      some ((candidates.filter (· ∈ elements)).map fun e => ⟨e, false⟩) := by
  induction candidates with
  | nil => rfl
  | cons element rest ih =>
    unfold initializeKeyToElement
    rw [hview.answer element (hcandidates element List.mem_cons_self), bind_some,
      ih fun e he => hcandidates e (List.mem_cons_of_mem element he), map_some]
    by_cases hpresent : element ∈ elements <;> simp [hpresent]

structure Keeps (op op' : UnionOperation) : Prop where
  entries : ∀ ke ∈ op'.keyToElement, ke.received = false → ke ∈ op.keyToElement
  transmitted : op'.transmitted = op.transmitted
  phase : op'.phase = .fullSending → op.phase = .fullSending

theorem Keeps.refl (op : UnionOperation) : op.Keeps op := ⟨fun _ hke _ => hke, rfl, id⟩

theorem Keeps.trans (h : op.Keeps op') (h' : op'.Keeps op'') :
    op.Keeps op'' where
  entries ke hke hreceived := h.entries ke (h'.entries ke hke hreceived) hreceived
  transmitted := h'.transmitted.trans h.transmitted
  phase hphase := h.phase (h'.phase hphase)

theorem Honest.ofKeeps (h : Honest elements op) (hkeeps : op.Keeps op') : Honest elements op' where
  unreceived ke hke hreceived := h.unreceived ke (hkeeps.entries ke hke hreceived) hreceived
  transmitted := by
    rw [hkeeps.transmitted]
    exact h.transmitted
  complete hphase := by
    rw [hkeeps.transmitted]
    exact h.complete (hkeeps.phase hphase)

theorem Keeps.ofSame (hentries : op'.keyToElement = op.keyToElement)
    (htransmitted : op'.transmitted = op.transmitted)
    (hphase : op'.phase = op.phase ∨ op'.phase ≠ .fullSending) : op.Keeps op' where
  entries ke hke _ := hentries ▸ hke
  transmitted := htransmitted
  phase h := by
    rcases hphase with hphase | hphase
    · rw [← hphase, h]
    · exact absurd h hphase

theorem keeps_fail (op : UnionOperation) : op.Keeps op.failUnionOperation :=
  .ofSame rfl rfl (.inl rfl)

theorem keeps_send (op : UnionOperation) (messages : List P2PMessage) :
    op.Keeps (op.send messages) :=
  .ofSame rfl rfl (.inl rfl)

theorem keeps_sendIbf (hstep : op.sendIbf env ibfOrder = some op') : op.Keeps op' := by
  obtain ⟨ibf?, -, rfl⟩ := map_eq_some_iff.mp hstep
  cases ibf? with
  | none => exact keeps_fail op
  | some ibf => exact .ofSame rfl rfl (.inr (by simp))

theorem keeps_retryIbf (hstep : op.retryIbf env size = some op') : op.Keeps op' := by
  unfold retryIbf at hstep
  dsimp only at hstep
  split at hstep
  · have hsalt : op.Keeps { op with saltSend := op.saltSend + 1 } :=
      .ofSame rfl rfl (.inl rfl)
    exact hsalt.trans (keeps_sendIbf hstep)
  · cases hstep
    exact keeps_fail op

theorem keeps_decodeLoop
    (hstep : decodeLoop env fuel diffIbf lastKey op = some op') : op.Keeps op' := by
  induction fuel generalizing diffIbf lastKey op with
  | zero =>
    unfold decodeLoop at hstep
    split at hstep
    · exact keeps_retryIbf hstep
    · cases hstep
      exact keeps_send op _
    · exact keeps_retryIbf hstep
  | succ fuel ih =>
    unfold decodeLoop at hstep
    split at hstep
    · exact keeps_retryIbf hstep
    · cases hstep
      exact keeps_send op _
    · dsimp only at hstep
      split at hstep
      · exact keeps_retryIbf hstep
      · split at hstep
        · exact (keeps_send op _).trans (ih hstep)
        · split at hstep
          · exact (keeps_send op _).trans (ih hstep)
          · cases hstep

theorem keeps_decodeAndSend (hstep : op.decodeAndSend env = some op') : op.Keeps op' := by
  obtain ⟨remoteIbf, -, hstep⟩ := bind_eq_some_iff.mp hstep
  obtain ⟨localIbf?, -, hstep⟩ := bind_eq_some_iff.mp hstep
  cases localIbf? with
  | none =>
    cases hstep
    exact keeps_fail op
  | some localIbf =>
    obtain ⟨_, -, hstep⟩ := bind_eq_some_iff.mp hstep
    have hfilters : op.Keeps { op with localIbf := some localIbf, remoteIbf := none } :=
      .ofSame rfl rfl (.inl rfl)
    exact hfilters.trans (keeps_decodeLoop hstep)

theorem keeps_receiveBuckets (hstep : op.receiveBuckets env msg = some op') : op.Keeps op' := by
  unfold receiveBuckets at hstep
  split at hstep
  · cases hstep
    exact keeps_fail op
  · obtain ⟨_, -, hstep⟩ := bind_eq_some_iff.mp hstep
    obtain ⟨_, -, hstep⟩ := bind_eq_some_iff.mp hstep
    dsimp only at hstep
    split at hstep
    · refine Keeps.trans ?_ (keeps_decodeAndSend hstep)
      exact .ofSame rfl rfl (.inr (by simp))
    · cases hstep
      exact .ofSame rfl rfl (.inl rfl)

theorem keeps_handleP2pIbf (hstep : op.handleP2pIbf env msg = some op') : op.Keeps op' := by
  unfold handleP2pIbf at hstep
  split at hstep
  · split at hstep
    · cases hstep
    · split at hstep
      · cases hstep
        exact keeps_fail op
      · obtain ⟨ibf, -, hstep⟩ := bind_eq_some_iff.mp hstep
        refine Keeps.trans ?_ (keeps_receiveBuckets hstep)
        exact .ofSame rfl rfl (.inr (by simp))
  · split at hstep
    · split at hstep
      · cases hstep
        exact keeps_fail op
      · split at hstep
        · cases hstep
        · obtain ⟨_, -, hstep⟩ := bind_eq_some_iff.mp hstep
          split at hstep
          · cases hstep
            exact keeps_fail op
          · exact keeps_receiveBuckets hstep
    · cases hstep

theorem keeps_maybeFinish (op : UnionOperation) : op.Keeps op.maybeFinish := by
  unfold maybeFinish
  split
  · exact .ofSame rfl rfl (.inr (by simp [send]))
  · split
    · exact .ofSame rfl rfl (.inr (by simp [sendDoneAndDestroy]))
    · exact .refl op

theorem mem_markReceived
    (hke : ke ∈ markReceived element entries) (hreceived : ke.received = false) : ke ∈ entries := by
  induction entries with
  | nil => exact hke
  | cons first rest ih =>
    unfold markReceived at hke
    split at hke
    · rcases List.mem_cons.mp hke with rfl | hke
      · cases hreceived
      · exact List.mem_cons_of_mem first hke
    · rcases List.mem_cons.mp hke with rfl | hke
      · exact List.mem_cons_self
      · exact List.mem_cons_of_mem first (ih hke)

theorem keeps_receiveElement (env : UnionEnv) (op : UnionOperation) (element : Element) :
    op.Keeps (op.receiveElement env element) := by
  unfold receiveElement
  dsimp only
  split
  · exact ⟨fun ke hke hreceived => mem_markReceived hke hreceived, rfl, id⟩
  · have hregister : op.Keeps
        (({ op with
            receivedTotal := (op.receivedTotal + 1) % 2 ^ 32
            receivedFresh := (op.receivedFresh + 1) % 2 ^ 32 } :
          UnionOperation).opRegisterElement element true) := by
      refine ⟨fun ke hke hreceived => ?_, rfl, id⟩
      rcases List.mem_append.mp hke with hke | hke
      · exact hke
      · rw [List.mem_singleton.mp hke] at hreceived
        cases hreceived
    refine hregister.trans ?_
    unfold sendClientAdded
    split <;> exact .ofSame rfl rfl (.inl rfl)

theorem keeps_handleP2pElements (op : UnionOperation) (emsg : ElementMessage) :
    op.Keeps (op.handleP2pElements env emsg) := by
  unfold handleP2pElements
  dsimp only
  split
  · exact keeps_fail op
  · have hdemand : op.Keeps
        { op with
          demandedHashes := op.demandedHashes.erase (elementOfMessage env.host emsg) } :=
      .ofSame rfl rfl (.inl rfl)
    refine hdemand.trans ((keeps_receiveElement env _ (elementOfMessage env.host emsg)).trans ?_)
    split
    · exact keeps_fail _
    · exact keeps_maybeFinish _

theorem keeps_handleP2pFullElement (op : UnionOperation) (emsg : ElementMessage) :
    op.Keeps (op.handleP2pFullElement env emsg) := by
  unfold handleP2pFullElement
  refine (keeps_receiveElement env op (elementOfMessage env.host emsg)).trans ?_
  dsimp only
  split
  · exact keeps_fail _
  · exact .refl _

theorem keeps_handleP2pInquiry (op : UnionOperation) (salt : BitVec 32)
    (keys : List (BitVec 64)) : op.Keeps (op.handleP2pInquiry env salt keys) := by
  unfold handleP2pInquiry
  split
  · exact keeps_fail op
  · induction keys generalizing op with
    | nil => exact .refl op
    | cons key keys ih =>
      exact (keeps_send op _).trans (ih _ (by assumption))

theorem keeps_handleP2pOffer (hstep : op.handleP2pOffer view hashes = some op') : op.Keeps op' := by
  unfold handleP2pOffer at hstep
  split at hstep
  · cases hstep
    exact keeps_fail op
  · refine (Run.of_foldlM hstep).invariant op.Keeps (.refl op) ?_
    intro before hash after hbefore _ hafter
    refine hbefore.trans ?_
    obtain ⟨_, -, rfl⟩ := map_eq_some_iff.mp hafter
    split
    · exact .refl before
    · exact .ofSame rfl rfl (.inl rfl)

theorem keeps_handleP2pDone (op : UnionOperation) : op.Keeps op.handleP2pDone := by
  unfold handleP2pDone
  split
  · refine Keeps.trans ?_ (keeps_maybeFinish _)
    exact .ofSame rfl rfl (.inr (by simp))
  · split
    · refine Keeps.trans ?_ (keeps_maybeFinish _)
      exact .ofSame rfl rfl (.inr (by simp))
    · exact keeps_fail op

/-! ## The three ways -/

theorem Honest.transmit (h : Honest elements op) (hsent : ∀ e ∈ sent, e ∈ elements) :
    Honest elements (op.transmit sent message) where
  unreceived := h.unreceived
  transmitted e he := by
    rcases List.mem_append.mp he with he | he
    · exact h.transmitted e he
    · exact hsent e he
  complete hphase e he := List.mem_append_left sent (h.complete hphase e he)

theorem Honest.handleP2pFullDone (h : Honest elements op) :
    Honest elements (op.handleP2pFullDone env) := by
  unfold UnionOperation.handleP2pFullDone
  split
  · have hmissing : Honest elements (op.sendMissingElements env) := by
      refine h.transmit fun e he => ?_
      obtain ⟨ke, hke, rfl⟩ := List.mem_map.mp he
      obtain ⟨hke, hreceived⟩ := List.mem_filter.mp hke
      exact h.unreceived ke hke (by simpa using hreceived)
    exact hmissing.ofKeeps (.ofSame rfl rfl (.inr (by simp)))
  · split
    · exact h.ofKeeps (.ofSame rfl rfl (.inr (by simp [sendDoneAndDestroy])))
    · exact h.ofKeeps (keeps_fail op)

variable (hview : view.Shows elements) (h : Honest elements op)
include hview h

theorem Honest.handleP2pDemand
    (hstep : handleP2pDemand env view hashes op = some op') : Honest elements op' := by
  induction hashes generalizing op with
  | nil =>
    cases hstep
    exact h
  | cons hash rest ih =>
    unfold handleP2pDemand at hstep
    split at hstep
    · cases hstep
      exact h.ofKeeps (keeps_fail op)
    next hknown =>
      rw [hview.answer hash (not_not.mp hknown), bind_some] at hstep
      split at hstep
      · cases hstep
        exact h.ofKeeps (keeps_fail op)
      next hpresent =>
        have hsent : Honest elements (op.transmit [hash] fun element =>
            .elements (sendDemandedElement env.host element)) := by
          refine h.transmit fun e he => ?_
          rw [List.mem_singleton.mp he]
          simpa using hpresent
        refine ih ?_ hstep
        split
        · exact hsent.ofKeeps (.ofSame rfl rfl (.inl rfl))
        · exact hsent

theorem Honest.handleP2pStrataEstimator
    (hfull : view.elements.length / 2 < diff → ∀ e ∈ view.elements, e ∈ elements)
    (hstep : op.handleP2pStrataEstimator env view diff = some op') : Honest elements op' := by
  unfold UnionOperation.handleP2pStrataEstimator at hstep
  split at hstep
  · cases hstep
    exact h.ofKeeps (keeps_fail op)
  · split at hstep
    next hdiff =>
      cases hstep
      refine ⟨h.unreceived, fun e he => ?_, fun _ e he => ?_⟩
      · rcases List.mem_append.mp he with he | he
        · exact h.transmitted e he
        · exact hfull hdiff e he
      · exact List.mem_append_right _ (hview.known e he)
    · obtain ⟨_, -, hstep⟩ := bind_eq_some_iff.mp hstep
      exact h.ofKeeps (keeps_sendIbf hstep)

/-- The full set may be sent only if the content has nothing else. -/
theorem Honest.afterMessage
    (hfull : ∀ diff, message = .strataEstimator diff → view.elements.length / 2 < diff →
      ∀ e ∈ view.elements, e ∈ elements)
    (hstep : op.unionHandleP2pMessage env view message = some op') : Honest elements op' := by
  unfold unionHandleP2pMessage at hstep
  split at hstep
  · cases hstep
    exact h
  · cases message with
    | strataEstimator diff => exact h.handleP2pStrataEstimator hview (hfull diff rfl) hstep
    | ibf msg => exact h.ofKeeps (keeps_handleP2pIbf hstep)
    | elements emsg =>
      cases hstep
      exact h.ofKeeps (keeps_handleP2pElements op emsg)
    | fullElement emsg =>
      cases hstep
      exact h.ofKeeps (keeps_handleP2pFullElement op emsg)
    | inquiry salt keys =>
      cases hstep
      exact h.ofKeeps (keeps_handleP2pInquiry op salt keys)
    | offer hashes => exact h.ofKeeps (keeps_handleP2pOffer hstep)
    | demand hashes => exact h.handleP2pDemand hview hstep
    | done =>
      cases hstep
      exact h.ofKeeps (keeps_handleP2pDone op)
    | fullDone =>
      cases hstep
      exact h.handleP2pFullDone
    | malformed =>
      cases hstep
      exact h.ofKeeps (keeps_fail op)

end UnionOperation

structure RunningUnion where
  client : Nat
  op : Operation
  union : UnionOperation

structure UnionService where
  tracked : Tracked Element
  running : Option RunningUnion

/-- Which operation is looked at is decided when it is started; all others are
started by plain requests. -/
inductive UnionEvent where
  | request (request : Request Element)
  | evaluate (client requestId : Nat) (resultMode : ResultMode)
  | accept (client requestId : Nat) (resultMode : ResultMode) (diff : Nat)
  | message (message : P2PMessage)
  | peerDisconnect

def Service.view (service : Service Element) (set : LocalSet Element) (op : Operation) :
    OperationView where
  elements := service.content.elements.keys
  isElementOfOperation :=
    query service.content.elements fun ee => isElementOfOperation ee op set

namespace UnionService

/-- An operation goes when its set goes, or when its client cancels it. -/
def keep (service : Service Element) (run : RunningUnion) : Bool :=
  (service.sets.lookup run.client).any fun set => run.op ∈ set.ops

def start (s : UnionService) (request : Request Element) (client requestId : Nat)
    (union : OperationView → Option UnionOperation) : Option UnionService :=
  if s.running.isSome then none
  else
    (s.tracked.step request).bind fun tracked =>
      match s.tracked.service.sets.lookup client, tracked.service.sets.lookup client with
      | some before, some set =>
          let op : Operation := ⟨requestId, before.currentGeneration⟩
          (union (tracked.service.view set op)).map fun union =>
            ⟨tracked, some ⟨client, op, union⟩⟩
      | _, _ => some ⟨tracked, none⟩

def step (env : UnionEnv) (s : UnionService) : UnionEvent → Option UnionService
  | .request request =>
      (s.tracked.step request).map fun tracked =>
        ⟨tracked, s.running.filter (keep tracked.service)⟩
  | .evaluate client requestId resultMode =>
      s.start (.evaluate client requestId) client requestId fun view =>
        unionEvaluate view requestId resultMode
  | .accept client requestId resultMode diff =>
      s.start (.accept client requestId true) client requestId fun view =>
        unionAccept view requestId resultMode diff
  | .message message =>
      match s.running with
      | none => some s
      | some run =>
          (s.tracked.service.sets.lookup run.client).bind fun set =>
            (run.union.unionHandleP2pMessage env (s.tracked.service.view set run.op)
              message).map fun union => ⟨s.tracked, some { run with union := union }⟩
  | .peerDisconnect =>
      some ⟨s.tracked, s.running.map fun run =>
        { run with union := run.union.unionPeerDisconnect }⟩

def created (client : Nat) : UnionService :=
  ⟨.created .union client, none⟩

/-- When the full set is going to be sent, everything in the content belongs to
the operation. -/
def SendsOwn (s : UnionService) : UnionEvent → Prop
  | .request request => s.tracked.service.Apart request
  | .evaluate _ _ _ | .accept _ _ _ _ =>
      s.tracked.service.content.latestGeneration + 1 < 2 ^ 32
  | .message (.strataEstimator diff) =>
      ∀ run ∈ s.running, ∀ set ∈ s.tracked.service.sets.lookup run.client,
        (s.tracked.service.view set run.op).elements.length / 2 < diff →
          ∀ e ∈ (s.tracked.service.view set run.op).elements,
            (s.tracked.service.view set run.op).isElementOfOperation e = some true
  | .message _ | .peerDisconnect => True

instance (s : UnionService) (event : UnionEvent) : Decidable (s.SendsOwn event) := by
  unfold SendsOwn
  split <;> infer_instance

/-! ## The invariant -/

structure Transmits (s : UnionService) : Prop where
  tracks : Tracks s.tracked
  still : s.tracked.service.Still
  honest : ∀ run ∈ s.running, ∃ started ∈ s.tracked.started,
    started.client = run.client ∧ started.op = run.op ∧ run.union.Honest started.elements

variable {env : UnionEnv} {s s' : UnionService}

theorem view_shows {started : Started Element}
    {set : LocalSet Element} (h : Tracks t) (hstarted : started ∈ t.started)
    (hset : t.service.sets.lookup started.client = some set) :
    (t.service.view set started.op).Shows started.elements := by
  obtain ⟨_, hset', hquery⟩ := h.query_operation hstarted
  cases hset.symm.trans hset'
  refine ⟨fun e _ => hquery e, fun e he => ?_⟩
  have hanswer := hquery e
  rw [decide_eq_true he] at hanswer
  unfold query at hanswer
  cases hlookup : t.service.content.elements.lookup e with
  | none => rw [hlookup] at hanswer; cases hanswer
  | some ee => exact AList.mem_keys.mpr (AList.lookup_isSome.mp (by rw [hlookup]; rfl))

theorem honest_initial {view : OperationView}
    {union : UnionOperation} (hview : view.Shows elements)
    (hentries : initializeKeyToElement view view.elements = some entries)
    (hkeys : union.keyToElement = entries) (htransmitted : union.transmitted = [])
    (hphase : union.phase ≠ .fullSending) : union.Honest elements where
  unreceived ke hke _ := by
    rw [initializeKeyToElement_eq hview fun _ he => he] at hentries
    cases hentries
    rw [hkeys] at hke
    obtain ⟨e, he, rfl⟩ := List.mem_map.mp hke
    exact of_decide_eq_true (List.mem_filter.mp he).2
  transmitted e he := by
    rw [htransmitted] at he
    cases he
  complete h := absurd h hphase

theorem Transmits.afterStep (h : Transmits s) (hapart : s.tracked.service.Apart request)
    (hstep : s.tracked.step request = some t') : Tracks t' ∧ t'.service.Still := by
  refine ⟨h.tracks.step (fun _ => h.still.pending) (h.still.careful hapart) hstep, ?_⟩
  obtain ⟨_, hservice, rfl⟩ := map_eq_some_iff.mp hstep
  exact h.still.step hapart hservice

theorem Transmits.afterRequest (h : Transmits s) (hapart : s.tracked.service.Apart request)
    (hstep : s.step env (.request request) = some s') : Transmits s' := by
  obtain ⟨_, htracked, rfl⟩ := map_eq_some_iff.mp hstep
  obtain ⟨htracks, hstill⟩ := h.afterStep hapart htracked
  refine ⟨htracks, hstill, fun run hrun => ?_⟩
  obtain ⟨hrun, hkeep⟩ := filter_eq_some_iff.mp hrun
  obtain ⟨started, hstarted, hclient, hop, hhonest⟩ := h.honest run hrun
  refine ⟨started, ?_, hclient, hop, hhonest⟩
  obtain ⟨service', -, rfl⟩ := map_eq_some_iff.mp htracked
  refine List.mem_filter.mpr ⟨List.mem_append_right _ hstarted, ?_⟩
  rw [hclient]
  unfold keep at hkeep
  cases hset : service'.sets.lookup run.client with
  | none => rw [hset] at hkeep; cases hkeep
  | some set => rfl

theorem Transmits.afterStart (h : Transmits s) (hapart : s.tracked.service.Apart request)
    (hrequest : s.tracked.startedWith request = s.tracked.startedBy client requestId)
    (hunion : ∀ view elements op, view.Shows elements → union view = some op → op.Honest elements)
    (hstep : s.start request client requestId union = some s') : Transmits s' := by
  unfold start at hstep
  split at hstep
  · cases hstep
  · obtain ⟨t', htracked, hstep⟩ := bind_eq_some_iff.mp hstep
    obtain ⟨htracks, hstill⟩ := h.afterStep hapart htracked
    split at hstep
    next before set hbefore hset =>
      obtain ⟨_, hop, rfl⟩ := map_eq_some_iff.mp hstep
      refine ⟨htracks, hstill, fun run hrun => ?_⟩
      cases hrun
      have hstarted : (⟨client, ⟨requestId, before.currentGeneration⟩,
          s.tracked.reference client⟩ : Started Element) ∈ t'.started := by
        obtain ⟨_, -, rfl⟩ := map_eq_some_iff.mp htracked
        rw [List.mem_filter, hrequest, Tracked.startedBy, hbefore, hset]
        exact ⟨List.mem_append_left _ List.mem_cons_self, rfl⟩
      exact ⟨_, hstarted, rfl, rfl, hunion _ _ _ (view_shows htracks hstarted hset) hop⟩
    · cases hstep
      exact ⟨htracks, hstill, fun run hrun => by cases hrun⟩

theorem Transmits.afterMessage (h : Transmits s) (hown : s.SendsOwn (.message message))
    (hstep : s.step env (.message message) = some s') : Transmits s' := by
  dsimp only [step] at hstep
  split at hstep
  · cases hstep
    exact h
  next run hrun =>
    obtain ⟨set, hset, hstep⟩ := bind_eq_some_iff.mp hstep
    obtain ⟨_, hunion, rfl⟩ := map_eq_some_iff.mp hstep
    obtain ⟨started, hstarted, hclient, hop, hhonest⟩ := h.honest run hrun
    have hview := view_shows h.tracks hstarted (by rw [hclient]; exact hset)
    rw [hop] at hview
    refine ⟨h.tracks, h.still, fun run' hrun' => ?_⟩
    cases hrun'
    refine ⟨started, hstarted, hclient, hop,
      hhonest.afterMessage hview (fun diff hdiff hlarge e he => ?_) hunion⟩
    subst hdiff
    have hanswer := hown run hrun set hset hlarge e he
    rw [hview.answer e he] at hanswer
    exact of_decide_eq_true (Option.some.inj hanswer)

theorem Transmits.step (h : Transmits s) (hown : s.SendsOwn event)
    (hstep : s.step env event = some s') : Transmits s' := by
  cases event with
  | request request => exact h.afterRequest hown hstep
  | evaluate client requestId resultMode =>
    have hapart : s.tracked.service.Apart (.evaluate client requestId) := hown
    dsimp only [UnionService.step] at hstep
    refine h.afterStart hapart rfl (fun view elements op hview hop => ?_) hstep
    obtain ⟨entries, hentries, rfl⟩ := map_eq_some_iff.mp hop
    exact honest_initial hview hentries rfl rfl (by simp [initial])
  | accept client requestId resultMode diff =>
    have hapart : s.tracked.service.Apart (.accept client requestId true) := hown
    dsimp only [UnionService.step] at hstep
    refine h.afterStart hapart rfl (fun view elements op hview hop => ?_) hstep
    obtain ⟨_, hentries, rfl⟩ := map_eq_some_iff.mp hop
    exact honest_initial hview hentries rfl rfl (by simp)
  | message message => exact h.afterMessage hown hstep
  | peerDisconnect =>
    cases hstep
    refine ⟨h.tracks, h.still, fun run' hrun' => ?_⟩
    obtain ⟨run, hrun, rfl⟩ := map_eq_some_iff.mp hrun'
    obtain ⟨started, hstarted, hclient, hop, hhonest⟩ := h.honest run hrun
    refine ⟨started, hstarted, hclient, hop, hhonest.ofKeeps ?_⟩
    unfold unionPeerDisconnect
    split
    · exact .refl _
    · split <;> exact .ofSame rfl rfl (.inl rfl)

/-- Only elements of the operation are transmitted, and all of them with a full set. -/
theorem union_transmits_operation {client : Nat} {events : List UnionEvent}
    (hrun : Run (UnionService.step env) SendsOwn (created client) events s) :
    ∀ run, s.running = some run →
      ∃ set, s.tracked.service.sets.lookup run.client = some set ∧
        (∀ e ∈ run.union.transmitted,
          query s.tracked.service.content.elements
            (fun ee => isElementOfOperation ee run.op set) e = some true) ∧
        (run.union.phase = .fullSending → ∀ e,
          query s.tracked.service.content.elements
            (fun ee => isElementOfOperation ee run.op set) e = some true →
          e ∈ run.union.transmitted) := by
  have h := hrun.invariant Transmits ⟨tracks_created .union client, ⟨rfl, rfl⟩, nofun⟩
    fun before event after hbefore hown hstep => hbefore.step hown hstep
  intro run hrunning
  obtain ⟨_, hstarted, hclient, hop, hhonest⟩ := h.honest run hrunning
  obtain ⟨set, hset, hquery⟩ := h.tracks.query_operation hstarted
  rw [hclient] at hset
  rw [hop] at hquery
  refine ⟨set, hset, fun e he => ?_, fun hphase e he => ?_⟩
  · rw [hquery e, decide_eq_true (hhonest.transmitted e he)]
  · rw [hquery e] at he
    exact hhonest.complete hphase e (of_decide_eq_true (Option.some.inj he))

def plainEnv : UnionEnv where
  host := .little
  hashing := ⟨fun _ _ _ => [], fun _ => 0⟩
  getIbfKey := fun _ => 0
  allocates := fun _ => true

def elementA : Element := ⟨0, [7]⟩

def elementB : Element := ⟨0, [8]⟩

def addedBefore : List UnionEvent :=
  [.request (.mutation 1 (.add elementA)), .request (.mutation 1 (.add elementB)),
    .evaluate 1 5 .added, .message (.strataEstimator 2)]

theorem union_transmits_operation_added :
    ∃ s : UnionService,
      Run (UnionService.step plainEnv) SendsOwn (created 1) addedBefore s ∧
      (s.running.map fun run => run.union.transmitted) = some [elementB, elementA] ∧
      ∀ run, s.running = some run →
        ∃ set, s.tracked.service.sets.lookup run.client = some set ∧
          ∀ e ∈ run.union.transmitted,
            query s.tracked.service.content.elements
              (fun ee => isElementOfOperation ee run.op set) e = some true := by
  refine Run.exists_of_exec_and (by decide +kernel) fun s hrun _ run hrunning => ?_
  obtain ⟨set, hset, hown, -⟩ := union_transmits_operation hrun run hrunning
  exact ⟨set, hset, hown⟩

/-- The second element is removed before the operation, and transmitted with the
full set. -/
theorem removed_element_transmitted :
    ∃ s : UnionService, ∃ run set,
      Run (UnionService.step plainEnv) (fun _ _ => True) (created 1)
        [.request (.mutation 1 (.add elementA)), .request (.mutation 1 (.add elementB)),
          .request (.mutation 1 (.remove elementB)), .evaluate 1 5 .added,
          .message (.strataEstimator 2)] s ∧
      s.running = some run ∧ s.tracked.service.sets.lookup run.client = some set ∧
      elementB ∈ run.union.transmitted ∧
      query s.tracked.service.content.elements
        (fun ee => isElementOfOperation ee run.op set) elementB = some false := by
  obtain ⟨s, hrun, hremoved⟩ :
      ∃ s : UnionService,
        Run (UnionService.step plainEnv) (fun _ _ => True) (created 1)
          [.request (.mutation 1 (.add elementA)), .request (.mutation 1 (.add elementB)),
            .request (.mutation 1 (.remove elementB)), .evaluate 1 5 .added,
            .message (.strataEstimator 2)] s ∧
        decide ((s.running.bind fun run =>
          (s.tracked.service.sets.lookup run.client).bind fun set =>
            if elementB ∈ run.union.transmitted then
              query s.tracked.service.content.elements
                (fun ee => isElementOfOperation ee run.op set) elementB
            else none) = some false) = true :=
    Run.of_exec_any (by decide +kernel)
  obtain ⟨run, hrunning, hremoved⟩ :=
    bind_eq_some_iff.mp (of_decide_eq_true hremoved)
  obtain ⟨set, hset, hremoved⟩ := bind_eq_some_iff.mp hremoved
  split at hremoved
  next htransmitted =>
    exact ⟨s, run, set, hrun, hrunning, hset, htransmitted, hremoved⟩
  · cases hremoved

end UnionService

end Gnunet.SetService
