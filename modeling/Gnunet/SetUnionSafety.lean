import Gnunet.GuardedRun
import Gnunet.SetUnion

/-!
# What a remote peer can do to a union operation

The channel handlers pass every message of the set service on to the union
operation, also those that belong to the intersection.  An operation survives all
messages of a run in which filters come when one is expected, have an order
between 2 and 30, and do not have more buckets than the order says.
-/

namespace Gnunet.SetService

open Protocol Ibf List Option InvertibleBloomFilter

def P2PMessage.isIbf : P2PMessage → Bool
  | .ibf _ => true
  | _ => false

def NoIbf (messages : List P2PMessage) : Prop :=
  ∀ message ∈ messages, message.isIbf = false

theorem NoIbf.nil : NoIbf [] := by
  simp [NoIbf]

theorem NoIbf.single {message : P2PMessage} (h : message.isIbf = false) : NoIbf [message] := by
  simpa [NoIbf] using h

theorem NoIbf.append (h : NoIbf messages) (h' : NoIbf more) : NoIbf (messages ++ more) := by
  intro message hmessage
  rcases mem_append.mp hmessage with hmessage | hmessage
  · exact h message hmessage
  · exact h' message hmessage

theorem NoIbf.map {A : Type} {message : A → P2PMessage}
    (h : ∀ a, (message a).isIbf = false) (as : List A) : NoIbf (as.map message) := by
  intro m hm
  obtain ⟨a, -, rfl⟩ := mem_map.mp hm
  exact h a

namespace UnionOperation

variable {env : UnionEnv} {view : OperationView} {op op' : UnionOperation}

/-! ## The filter that is being received -/

structure Collecting (op : UnionOperation) : Prop where
  idle : op.phase ≠ .expectIbfCont → op.remoteIbf = none
  started : op.phase = .expectIbfCont → ∃ ibf, op.remoteIbf = some ibf ∧ ibf.hashNum = seIbfHashNum

def Sound (op : UnionOperation) : Prop :=
  op.destroyed = false → op.Collecting

structure Filters where
  remoteIbf : Option InvertibleBloomFilter
  localIbf : Option InvertibleBloomFilter
  ibfBucketsReceived : Nat
  saltSend : BitVec 32
  saltReceive : BitVec 32

def filters (op : UnionOperation) : Filters where
  remoteIbf := op.remoteIbf
  localIbf := op.localIbf
  ibfBucketsReceived := op.ibfBucketsReceived
  saltSend := op.saltSend
  saltReceive := op.saltReceive

def known (op : UnionOperation) : List Element :=
  op.keyToElement.map (·.element)

/-- The filters are left alone, and none is sent. -/
structure Steady (op op' : UnionOperation) : Prop where
  filters : op'.filters = op.filters
  phase : op'.phase = .expectIbfCont ↔ op.phase = .expectIbfCont
  expectSe : op'.phase = .expectSe → op.phase = .expectSe
  known : op.known <+: op'.known
  sent : ∃ messages, op'.mq = op.mq ++ messages ∧ NoIbf messages

section

variable (h : op.Steady op')
include h

theorem Steady.remoteIbf : op'.remoteIbf = op.remoteIbf := congrArg Filters.remoteIbf h.filters

theorem Steady.localIbf : op'.localIbf = op.localIbf := congrArg Filters.localIbf h.filters

theorem Steady.ibfBucketsReceived : op'.ibfBucketsReceived = op.ibfBucketsReceived :=
  congrArg Filters.ibfBucketsReceived h.filters

theorem Steady.saltSend : op'.saltSend = op.saltSend := congrArg Filters.saltSend h.filters

theorem Steady.saltReceive : op'.saltReceive = op.saltReceive :=
  congrArg Filters.saltReceive h.filters

end

theorem Steady.trans (h : op.Steady op') (h' : op'.Steady op'') :
    op.Steady op'' where
  filters := h'.filters.trans h.filters
  phase := h'.phase.trans h.phase
  expectSe hphase := h.expectSe (h'.expectSe hphase)
  known := h.known.trans h'.known
  sent := by
    obtain ⟨messages, hmq, hmessages⟩ := h.sent
    obtain ⟨more, hmore, hno⟩ := h'.sent
    refine ⟨messages ++ more, ?_, hmessages.append hno⟩
    rw [hmore, hmq, append_assoc]

theorem Steady.ofSend (messages : List P2PMessage) (hmessages : NoIbf messages)
    (hmq : op'.mq = op.mq ++ messages) (hfilters : op'.filters = op.filters)
    (hphase : op'.phase = op.phase) (hkeys : op'.keyToElement = op.keyToElement) :
    op.Steady op' where
  filters := hfilters
  phase := by rw [hphase]
  expectSe h := by rwa [hphase] at h
  known := by rw [UnionOperation.known, UnionOperation.known, hkeys]
  sent := ⟨messages, hmq, hmessages⟩

theorem Steady.ofSame (hmq : op'.mq = op.mq) (hfilters : op'.filters = op.filters)
    (hphase : op'.phase = op.phase) (hkeys : op'.keyToElement = op.keyToElement) : op.Steady op' :=
  .ofSend [] .nil (by rw [hmq, append_nil]) hfilters hphase hkeys

theorem Steady.refl (op : UnionOperation) : op.Steady op := .ofSame rfl rfl rfl rfl

theorem Steady.ofPhase (phase : UnionOperationPhase) (hbefore : op.phase ≠ .expectIbfCont)
    (hcont : phase ≠ .expectIbfCont) (hse : phase ≠ .expectSe) :
    op.Steady { op with phase := phase } where
  filters := rfl
  phase := iff_of_false hcont hbefore
  expectSe h := absurd h hse
  known := prefix_rfl
  sent := ⟨[], by rw [append_nil], .nil⟩

theorem Collecting.ofSteady (h : op.Collecting) (hsteady : op.Steady op') : op'.Collecting where
  idle hphase := by
    rw [hsteady.remoteIbf]
    exact h.idle fun hbefore => hphase (hsteady.phase.mpr hbefore)
  started hphase := by
    rw [hsteady.remoteIbf]
    exact h.started (hsteady.phase.mp hphase)

theorem steady_fail (op : UnionOperation) : op.Steady op.failUnionOperation :=
  .ofSame rfl rfl rfl rfl

theorem steady_sendDoneAndDestroy (op : UnionOperation) : op.Steady op.sendDoneAndDestroy :=
  .ofSame rfl rfl rfl rfl

theorem steady_send (hmessages : NoIbf messages)
    (op : UnionOperation) : op.Steady (op.send messages) :=
  .ofSend messages hmessages rfl rfl rfl rfl

theorem steady_transmit (op : UnionOperation) (elements : List Element)
    {message : Element → P2PMessage} (hmessage : ∀ e, (message e).isIbf = false) :
    op.Steady (op.transmit elements message) :=
  .ofSend (elements.map message) (.map hmessage elements) rfl rfl rfl rfl

theorem steady_maybeFinish (op : UnionOperation) : op.Steady op.maybeFinish := by
  unfold maybeFinish
  split
  next hphase =>
    exact (Steady.ofPhase .done (by simp [hphase.1]) (by simp) (by simp)).trans
      (steady_send (.single rfl) _)
  · split
    next hphase =>
      exact (Steady.ofPhase .done (by simp [hphase.1]) (by simp) (by simp)).trans
        (steady_sendDoneAndDestroy _)
    · exact .refl op

theorem steady_receiveElement (env : UnionEnv) (op : UnionOperation) (element : Element) :
    op.Steady (op.receiveElement env element) := by
  unfold receiveElement
  dsimp only
  split
  · refine ⟨rfl, Iff.rfl, id, ?_, [], (append_nil op.mq).symm, .nil⟩
    unfold known
    rw [map_element_markReceived]
  · have hregister : op.known <+:
        (op.keyToElement ++ [(⟨element, true⟩ : KeyEntry)]).map (·.element) := by
      rw [map_append]
      exact prefix_append _ _
    unfold sendClientAdded
    split <;> exact ⟨rfl, Iff.rfl, id, hregister, [], (append_nil op.mq).symm, .nil⟩

theorem steady_handleP2pElements (op : UnionOperation) (emsg : ElementMessage) :
    op.Steady (op.handleP2pElements env emsg) := by
  unfold handleP2pElements
  dsimp only
  split
  · exact steady_fail op
  · have hdemand : op.Steady
        { op with
          demandedHashes := op.demandedHashes.erase (elementOfMessage env.host emsg) } :=
      .ofSame rfl rfl rfl rfl
    refine hdemand.trans ((steady_receiveElement env _ (elementOfMessage env.host emsg)).trans ?_)
    split
    · exact steady_fail _
    · exact steady_maybeFinish _

theorem steady_handleP2pFullElement (op : UnionOperation) (emsg : ElementMessage) :
    op.Steady (op.handleP2pFullElement env emsg) := by
  unfold handleP2pFullElement
  refine (steady_receiveElement env op (elementOfMessage env.host emsg)).trans ?_
  dsimp only
  split
  · exact steady_fail _
  · exact .refl _

theorem steady_sendOffersForKey (op : UnionOperation) (ibfKey : BitVec 64) :
    op.Steady (op.sendOffersForKey env ibfKey) :=
  steady_send (.map (fun _ => rfl) _) op

theorem steady_handleP2pInquiry (op : UnionOperation) (salt : BitVec 32)
    (keys : List (BitVec 64)) : op.Steady (op.handleP2pInquiry env salt keys) := by
  unfold handleP2pInquiry
  split
  · exact steady_fail op
  next hphase =>
    clear hphase
    induction keys generalizing op with
    | nil => exact .refl op
    | cons key keys ih =>
      exact (steady_sendOffersForKey op (unsaltKey key salt)).trans (ih _)

theorem steady_handleP2pDone (op : UnionOperation) : op.Steady op.handleP2pDone := by
  unfold handleP2pDone
  split
  next hphase =>
    exact (Steady.ofPhase .finishWaiting (by simp [hphase]) (by simp) (by simp)).trans
      (steady_maybeFinish _)
  · split
    next hphase =>
      exact (Steady.ofPhase .finishClosing (by simp [hphase]) (by simp) (by simp)).trans
        (steady_maybeFinish _)
    · exact steady_fail op

theorem steady_handleP2pFullDone (op : UnionOperation) : op.Steady (op.handleP2pFullDone env) := by
  unfold handleP2pFullDone
  split
  next hphase =>
    have hmissing : op.Steady ((op.sendMissingElements env).send [.fullDone]) :=
      (steady_transmit op _ fun _ => rfl).trans (steady_send (.single rfl) _)
    refine hmissing.trans (.ofPhase .done ?_ (by simp) (by simp))
    change op.phase ≠ .expectIbfCont
    simp [hphase]
  · split
    next hphase =>
      exact (Steady.ofPhase .done (by simp [hphase]) (by simp) (by simp)).trans
        (steady_sendDoneAndDestroy _)
    · exact steady_fail op

theorem handleP2pOffer_isSome (hview : ∀ e ∈ view.elements, (view.isElementOfOperation e).isSome) :
    ∃ op', op.handleP2pOffer view hashes = some op' ∧ op.Steady op' := by
  unfold handleP2pOffer
  split
  · exact ⟨_, rfl, steady_fail op⟩
  · have hround : ∀ before, ∀ hash ∈ hashes, op.Steady before →
        ∃ after, before.demandOffered view hash = some after ∧ op.Steady after := by
      intro before hash _ hbefore
      have hpresent : (if hash ∈ view.elements then view.isElementOfOperation hash
          else some false).isSome := by
        split
        · exact hview hash (by assumption)
        · rfl
      obtain ⟨_, hpresent⟩ := isSome_iff_exists.mp hpresent
      unfold demandOffered
      rw [hpresent]
      refine ⟨_, rfl, hbefore.trans ?_⟩
      dsimp only
      split
      · exact .refl before
      · exact .ofSend [.demand [hash]] (.single rfl) rfl rfl rfl rfl
    exact exists_foldlM op.Steady hround (.refl op)

theorem handleP2pDemand_isSome (hview : ∀ e ∈ view.elements, (view.isElementOfOperation e).isSome) :
    ∃ op', handleP2pDemand env view hashes op = some op' ∧ op.Steady op' ∧
      ((∃ hash ∈ hashes, hash ∉ view.elements ∨ view.isElementOfOperation hash = some false) →
        ∃ before : UnionOperation, op' = before.failUnionOperation) := by
  induction hashes generalizing op with
  | nil => exact ⟨op, rfl, .refl op, by simp⟩
  | cons hash rest ih =>
    unfold handleP2pDemand
    split
    · exact ⟨_, rfl, steady_fail op, fun _ => ⟨op, rfl⟩⟩
    next hknown =>
      rw [not_not] at hknown
      obtain ⟨_, hpresent⟩ := isSome_iff_exists.mp (hview hash hknown)
      rw [hpresent, bind_some]
      split
      · exact ⟨_, rfl, steady_fail op, fun _ => ⟨op, rfl⟩⟩
      next htrue =>
        dsimp only
        generalize htold : (if (op.transmit [hash] fun element =>
            .elements (sendDemandedElement env.host element)).resultMode = .symmetric
          then _ else _) = told
        have hsame : op.Steady told := by
          have htransmit : op.Steady (op.transmit [hash] fun element =>
              .elements (sendDemandedElement env.host element)) :=
            steady_transmit op [hash] fun _ => rfl
          rw [← htold]
          split
          · exact htransmit.trans (.ofSame rfl rfl rfl rfl)
          · exact htransmit
        obtain ⟨op', hop', hsteady, hfail⟩ := @ih told
        refine ⟨op', hop', hsame.trans hsteady, ?_⟩
        rintro ⟨bad, hbad, hreason⟩
        rcases mem_cons.mp hbad with rfl | hbad
        · rcases hreason with hreason | hreason
          · exact absurd hknown hreason
          · rw [hpresent] at hreason
            exact absurd (Option.some.inj hreason) htrue
        · exact hfail ⟨bad, hbad, hreason⟩

/-! ## Filters of its own -/

variable {ibfOrder : Nat}

theorem seIbfHashNum_le (horder : 2 ≤ ibfOrder) : seIbfHashNum ≤ 2 ^ ibfOrder := calc
    seIbfHashNum = 2 ^ 2 := rfl
    _ ≤ 2 ^ ibfOrder := Nat.pow_le_pow_right (by decide) horder

/-- The filter of some elements under a salt. -/
def Built (env : UnionEnv) (elements : List Element) (salt : BitVec 32)
    (ibf : InvertibleBloomFilter) : Prop :=
  elements.foldlM (fun (ibf : InvertibleBloomFilter) e =>
      ibf.insert env.hashing (saltKey (env.getIbfKey e) salt))
    (⟨seIbfHashNum, replicate ibf.size ⟨0, 0, 0⟩⟩ : InvertibleBloomFilter) = some ibf

variable {size : Nat}

theorem prepareIbf_isSome (env : UnionEnv) (hsize : 0 < size)
    (hroom : seIbfHashNum ≤ size ∨ op.keyToElement = []) :
    ∃ ibf?, op.prepareIbf env size = some ibf? ∧
      ∀ ibf, ibf? = some ibf → ibf.size = size ∧ ibf.hashNum = seIbfHashNum ∧
        Built env op.known op.saltSend ibf := by
  unfold prepareIbf
  rw [create_of_pos hsize, bind_some]
  split
  · have hround : ∀ ibf : InvertibleBloomFilter, ∀ ke ∈ op.keyToElement,
        ibf.size = size ∧ ibf.hashNum = seIbfHashNum →
        ∃ next, ibf.insert env.hashing (saltKey (env.getIbfKey ke.element) op.saltSend) =
          some next ∧ next.size = size ∧ next.hashNum = seIbfHashNum := by
      rintro ibf ke hke ⟨hibf, hhashNum⟩
      rcases hroom with hroom | hnone
      · refine ⟨_, if_pos (by omega), ?_, hhashNum⟩
        rw [size_insertInto, hibf]
      · simp [hnone] at hke
    have hempty : (⟨seIbfHashNum, replicate size ⟨0, 0, 0⟩⟩ : InvertibleBloomFilter).size = size :=
      length_replicate
    obtain ⟨ibf, hibf, hibfSize, hhashNum⟩ := exists_foldlM
      (fun ibf : InvertibleBloomFilter => ibf.size = size ∧ ibf.hashNum = seIbfHashNum)
      hround ⟨hempty, rfl⟩
    refine ⟨some ibf, by rw [hibf]; rfl, ?_⟩
    rintro ibf' ⟨⟩
    refine ⟨hibfSize, hhashNum, ?_⟩
    unfold Built known
    rw [foldlM_map, hibfSize]
    exact hibf
  · exact ⟨none, rfl, by simp⟩

structure SentIbf (env : UnionEnv) (op op' : UnionOperation) (ibfOrder : Nat)
    (ibf : InvertibleBloomFilter) : Prop where
  same : op' = { op with
      localIbf := some ibf
      mq := op.mq ++ ibfMessages ibfOrder op.saltSend ibf
      phase := .inventoryPassive }
  size : ibf.size = 2 ^ ibfOrder
  hashNum : ibf.hashNum = seIbfHashNum
  built : Built env op.known op.saltSend ibf

theorem sendIbf_isSome (env : UnionEnv) (hroom : 2 ≤ ibfOrder ∨ op.keyToElement = []) :
    ∃ op', op.sendIbf env ibfOrder = some op' ∧
      (op' = op.failUnionOperation ∨ ∃ ibf, SentIbf env op op' ibfOrder ibf) := by
  have hroom' : seIbfHashNum ≤ 2 ^ ibfOrder ∨ op.keyToElement = [] := by
    rcases hroom with horder | hnone
    · exact .inl (seIbfHashNum_le horder)
    · exact .inr hnone
  obtain ⟨ibf?, hibf, hparameters⟩ := prepareIbf_isSome env (Nat.two_pow_pos ibfOrder) hroom'
  unfold sendIbf
  rw [hibf]
  refine ⟨_, rfl, ?_⟩
  cases ibf? with
  | none => exact .inl rfl
  | some ibf =>
    obtain ⟨hsize, hhashNum, hbuilt⟩ := hparameters ibf rfl
    exact .inr ⟨ibf, rfl, hsize, hhashNum, hbuilt⟩

inductive Answered (env : UnionEnv) (size : Nat) (op op' : UnionOperation) : Prop
  | ended (hended : op'.destroyed = true)
      (hsent : ∃ messages, op'.mq = op.mq ++ messages ∧ NoIbf messages)
  | answered (hsteady : op.Steady op')
  | retried {mid : UnionOperation} {ibf : InvertibleBloomFilter}
      (hsteady : op.Steady mid) (horder : Nat.clog 2 size + 1 ≤ maxIbfOrder)
      (hsent : SentIbf env { mid with saltSend := mid.saltSend + 1 } op'
        (Nat.clog 2 size + 1) ibf)

theorem Answered.after (hsteady : op.Steady op')
    (h : Answered env size op' op'') : Answered env size op op'' := by
  cases h with
  | ended hended hsent =>
    obtain ⟨messages, hmq, hmessages⟩ := hsteady.sent
    obtain ⟨more, hmore, hno⟩ := hsent
    refine .ended hended ⟨messages ++ more, ?_, hmessages.append hno⟩
    rw [hmore, hmq, append_assoc]
  | answered hnext => exact .answered (hsteady.trans hnext)
  | retried hnext horder hsent => exact .retried (hsteady.trans hnext) horder hsent

theorem Answered.ofFail (h : op'.mq = op.mq) : Answered env size op op'.failUnionOperation :=
  .ended rfl ⟨[], by rw [append_nil]; exact h, .nil⟩

theorem Collecting.sound (h : op.Collecting) : op.Sound := fun _ => h

theorem Collecting.ofIdle (hphase : op.phase ≠ .expectIbfCont)
    (hremoteIbf : op.remoteIbf = none) : op.Collecting :=
  ⟨fun _ => hremoteIbf, fun hcont => absurd hcont hphase⟩

theorem SentIbf.collecting (h : SentIbf env op op' ibfOrder ibf)
    (hremoteIbf : op.remoteIbf = none) : op'.Collecting := by
  rw [h.same]
  exact .ofIdle (by simp) hremoteIbf

theorem Answered.sound (h : Answered env size op op') (hphase : op.phase ≠ .expectIbfCont)
    (hremoteIbf : op.remoteIbf = none) : op'.Sound := by
  cases h with
  | ended hended _ =>
    intro halive
    rw [hended] at halive
    cases halive
  | answered hsteady => exact ((Collecting.ofIdle hphase hremoteIbf).ofSteady hsteady).sound
  | retried hsteady _ hsent =>
    exact (hsent.collecting (hsteady.remoteIbf.trans hremoteIbf)).sound

theorem retryIbf_isSome (env : UnionEnv) (hroom : seIbfHashNum ≤ size ∨ op.keyToElement = []) :
    ∃ op', op.retryIbf env size = some op' ∧ Answered env size op op' := by
  unfold retryIbf
  dsimp only
  split
  next horder =>
    have hroom' : 2 ≤ Nat.clog 2 size + 1 ∨
        ({ op with saltSend := op.saltSend + 1 } : UnionOperation).keyToElement = [] := by
      rcases hroom with hsize | hnone
      · have hclog : 0 < Nat.clog 2 size :=
          Nat.clog_pos (by omega) (le_trans (by decide) hsize)
        exact .inl (by omega)
      · exact .inr hnone
    obtain ⟨op', hop', rfl | ⟨_, hsent⟩⟩ := sendIbf_isSome env hroom'
    · exact ⟨_, hop', .ofFail rfl⟩
    · exact ⟨op', hop', .retried (.refl op) horder hsent⟩
  · exact ⟨_, rfl, .ofFail rfl⟩

theorem answered_done (env : UnionEnv) (size : Nat) (op : UnionOperation) :
    Answered env size op (op.send [.done]) :=
  .answered (steady_send (.single rfl) op)

theorem decodeLoop_isSome (env : UnionEnv) {diffIbf : InvertibleBloomFilter}
    (lastKey : Option (BitVec 64)) (op : UnionOperation)
    (hroom : seIbfHashNum ≤ diffIbf.size ∨ op.keyToElement = []) :
    ∃ op', decodeLoop env fuel diffIbf lastKey op = some op' ∧
      Answered env diffIbf.size op op' := by
  induction fuel generalizing diffIbf lastKey op with
  | zero =>
    unfold decodeLoop
    split
    · exact retryIbf_isSome env hroom
    · exact ⟨_, rfl, answered_done env _ op⟩
    · exact retryIbf_isSome env hroom
  | succ fuel ih =>
    unfold decodeLoop
    split
    · exact retryIbf_isSome env hroom
    · exact ⟨_, rfl, answered_done env _ op⟩
    next side key rest hdecode =>
      obtain ⟨hside, -, hrest⟩ := decode_eq_key hdecode
      have hsize : rest.size = diffIbf.size := by
        rw [hrest, size_insertInto]
      have hroom' : seIbfHashNum ≤ rest.size ∨ op.keyToElement = [] := by
        rwa [hsize]
      dsimp only
      split
      · exact retryIbf_isSome env hroom
      · rcases hside with rfl | rfl
        · obtain ⟨op', hop', hanswered⟩ := ih (some key)
            (op.sendOffersForKey env (unsaltKey key op.saltReceive)) hroom'
          rw [hsize] at hanswered
          exact ⟨op', hop', hanswered.after (steady_sendOffersForKey op _)⟩
        · obtain ⟨op', hop', hanswered⟩ := ih (some key)
            (op.send [.inquiry op.saltReceive [key]]) hroom'
          rw [hsize] at hanswered
          exact ⟨op', hop', hanswered.after (steady_send (.single rfl) op)⟩

theorem decodeAndSend_isSome (env : UnionEnv) {remoteIbf : InvertibleBloomFilter}
    (hremoteIbf : op.remoteIbf = some remoteIbf)
    (hhashNum : remoteIbf.hashNum = seIbfHashNum) (hsize : 0 < remoteIbf.size)
    (hroom : seIbfHashNum ≤ remoteIbf.size ∨ op.keyToElement = []) :
    ∃ op' localIbf, op.decodeAndSend env = some op' ∧
      Answered env remoteIbf.size { op with localIbf := localIbf, remoteIbf := none } op' := by
  obtain ⟨localIbf?, hlocalIbf, hparameters⟩ := prepareIbf_isSome env hsize hroom
  unfold decodeAndSend
  rw [hremoteIbf]
  change ∃ op' localIbf, (op.prepareIbf env remoteIbf.size).bind _ = some op' ∧ _
  rw [hlocalIbf, bind_some]
  cases localIbf? with
  | none => exact ⟨_, none, rfl, .ofFail rfl⟩
  | some localIbf =>
    obtain ⟨hlocalSize, hlocalHashNum, -⟩ := hparameters localIbf rfl
    have hsubtract : ∃ diffIbf, localIbf.subtract remoteIbf = some diffIbf ∧
        diffIbf.size = remoteIbf.size := by
      refine ⟨_, if_pos ⟨hlocalSize, hlocalHashNum.trans hhashNum.symm⟩, ?_⟩
      change List.length (List.zipWith _ _ _) = _
      rw [length_zipWith]
      change min localIbf.size remoteIbf.size = remoteIbf.size
      omega
    obtain ⟨_, hdiffIbf, hdiffSize⟩ := hsubtract
    change ∃ op' localIbf', (localIbf.subtract remoteIbf).bind _ = some op' ∧ _
    rw [hdiffIbf, bind_some]
    rw [← hdiffSize] at hroom
    obtain ⟨op', hop', hanswered⟩ := decodeLoop_isSome env none
      { op with localIbf := some localIbf, remoteIbf := none } hroom
    rw [hdiffSize] at hanswered
    exact ⟨op', some localIbf, hop', hanswered⟩

/-! ## Filters of the other peer -/

variable {msg : IBFMessage}

def beginIbf (op : UnionOperation) (msg : IBFMessage) : UnionOperation :=
  { op with
    phase := .expectIbfCont
    remoteIbf := some ⟨seIbfHashNum, replicate (2 ^ msg.order) ⟨0, 0, 0⟩⟩
    saltReceive := msg.salt
    ibfBucketsReceived := 0 }

/-- The set answers for its own elements, and it is small enough for the order of
a filter to be a shift of an `int`. -/
structure Answers (view : OperationView) : Prop where
  answer : ∀ e ∈ view.elements, (view.isElementOfOperation e).isSome
  small : view.elements.length ≤ 2 ^ 29

variable {diff : Nat}

theorem getOrderFromDifference_bounds
    (horder : getOrderFromDifference diff = some order) : 2 ≤ order ∧ order ≤ maxIbfOrder := by
  obtain ⟨_, hfound, rfl⟩ := map_eq_some_iff.mp horder
  have hmem := mem_range'_1.mp (mem_of_find?_eq_some hfound)
  unfold maxIbfOrder
  omega

theorem getOrderFromDifference_isSome (hfits : ibfAlpha * diff % 2 ^ 32 ≤ 2 ^ 30) :
    ∃ order, getOrderFromDifference diff = some order := by
  unfold getOrderFromDifference
  have hsome : ((range' 2 29).find? fun order =>
      decide (ibfAlpha * diff % 2 ^ 32 ≤ 2 ^ order) &&
        decide (seIbfHashNum ≤ 2 ^ order)).isSome := by
    rw [find?_isSome]
    refine ⟨30, by decide, ?_⟩
    rw [decide_eq_true hfits]
    decide
  obtain ⟨_, horder⟩ := isSome_iff_exists.mp hsome
  rw [horder]
  exact ⟨_, rfl⟩

inductive Begins : UnionOperation → Prop
  | evaluate {view : OperationView} {clientRequestId : Nat} {resultMode : ResultMode}
      {op : UnionOperation} :
      unionEvaluate view clientRequestId resultMode = some op → Begins op
  | accept {view : OperationView} {clientRequestId : Nat} {resultMode : ResultMode}
      {diff : Nat} {op : UnionOperation} :
      unionAccept view clientRequestId resultMode diff = some op → Begins op

theorem Begins.sound (hbegins : Begins op) : op.Sound := by
  cases hbegins with
  | evaluate hevaluate =>
    obtain ⟨entries, -, rfl⟩ := map_eq_some_iff.mp hevaluate
    exact (Collecting.ofIdle (by simp [initial]) rfl).sound
  | accept haccept =>
    obtain ⟨_, -, rfl⟩ := map_eq_some_iff.mp haccept
    exact (Collecting.ofIdle (by simp) rfl).sound

def plainHashing : Hashing where
  getIndices size hashNum key := (range hashNum).map fun j => (key.toNat + j) % size
  keyHash key := key.truncate 32

def keyedEnv : UnionEnv where
  host := .little
  hashing := plainHashing
  getIbfKey e := BitVec.ofNat 64 (e.data.map BitVec.toNat).sum
  allocates := fun _ => true

def slice (order length : Nat) : P2PMessage :=
  .ibf ⟨order, 0, 42, replicate length ⟨0, 0, 0⟩, true⟩

end UnionOperation

end Gnunet.SetService
