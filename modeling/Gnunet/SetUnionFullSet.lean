import Gnunet.SetUnionTransmission

/-!
# The exchange of full sets

Two peers and a reliable channel that keeps the order.  The initiator answers the
strata estimator with its full set; the acceptor sends back what it has not
received, and both are done.  Every run goes through the same stages: what is left
to be delivered becomes less with each step.
-/

namespace Gnunet.SetService

open Protocol List

/-! ## One side receives -/

def ResultMode.told : ResultMode → SetStatus
  | .symmetric => .addLocal
  | _ => .ok

def ResultMode.Supported (mode : ResultMode) : Prop :=
  mode = .added ∨ mode = .symmetric

namespace UnionOperation

structure Absorbed (host : ByteOrder) (first : UnionOperation) (known es : List Element)
    (op : UnionOperation) : Prop where
  same : op = { first with
      keyToElement := op.keyToElement
      clientMq := op.clientMq
      receivedFresh := op.receivedFresh
      receivedTotal := op.receivedTotal }
  total : op.receivedTotal = es.length
  fresh : op.receivedFresh = (es.filter (· ∉ known)).length
  nodup : (op.keyToElement.map (·.element)).Nodup
  elements : ∀ e, e ∈ op.keyToElement.map (·.element) ↔ e ∈ known ∨ e ∈ es
  unreceived : (op.keyToElement.filter fun ke => !ke.received).map (·.element) =
    known.filter (· ∉ es)
  client : op.clientMq = first.clientMq ++ (es.filter (· ∉ known)).map fun e =>
    sendClientElement host first.clientRequestId e first.resultMode.told

theorem unreceived_markReceived (element : Element) {entries : List KeyEntry}
    (hnodup : (entries.map (·.element)).Nodup) :
    ((markReceived element entries).filter fun ke => !ke.received).map (·.element) =
      ((entries.filter fun ke => !ke.received).map (·.element)).filter (· ≠ element) := by
  induction entries with
  | nil => rfl
  | cons ke rest ih =>
    obtain ⟨hke, hrest⟩ := nodup_cons.mp hnodup
    unfold markReceived
    split
    next heq =>
      have hother : ((rest.filter fun ke => !ke.received).map (·.element)).filter
          (· ≠ element) = (rest.filter fun ke => !ke.received).map (·.element) := by
        refine filter_eq_self.mpr fun e he => ?_
        obtain ⟨other, hmem, rfl⟩ := mem_map.mp he
        have hne : other.element ≠ element := by
          intro h
          exact hke (mem_map.mpr ⟨other, (mem_filter.mp hmem).1, h.trans heq.symm⟩)
        simpa using hne
      cases hreceived : ke.received <;> simpa [hreceived, heq] using hother.symm
    next hne =>
      cases hreceived : ke.received <;> simp [hreceived, hne, ih hrest]

variable {env : UnionEnv} {first op : UnionOperation} {known es : List Element} {element : Element}

theorem sendClientAdded_eq (hmode : op.resultMode.Supported) : op.sendClientAdded env element =
      op.sendClient (sendClientElement env.host op.clientRequestId element op.resultMode.told) := by
  unfold sendClientAdded
  rcases hmode with hmode | hmode <;> rw [hmode] <;> rfl

theorem Absorbed.receive (h : Absorbed env.host first known es op)
    (hmode : first.resultMode.Supported) (hnew : element ∉ es) (hlength : es.length + 1 < 2 ^ 32) :
    Absorbed env.host first known (es ++ [element]) (op.receiveElement env element) := by
  have hfresh : (es.filter (· ∉ known)).length + 1 < 2 ^ 32 :=
    lt_of_le_of_lt (Nat.add_le_add_right (length_filter_le _ es) 1) hlength
  have hmem : (op.opGetElement element).isSome ↔ _ :=
    Iff.trans (by simp [opGetElement]) (h.elements element)
  have htotal : (op.receivedTotal + 1) % 2 ^ 32 = (es ++ [element]).length := by
    rw [h.total, Nat.mod_eq_of_lt hlength, length_append, length_singleton]
  by_cases hknown : element ∈ known
  · have hget : (op.opGetElement element).isSome := hmem.mpr (.inl hknown)
    have hfilter : (es ++ [element]).filter (· ∉ known) = es.filter (· ∉ known) := by
      simp [hknown]
    have hstep : op.receiveElement env element = { op with
          receivedTotal := (op.receivedTotal + 1) % 2 ^ 32
          keyToElement := markReceived element op.keyToElement } := by
      exact if_pos hget
    rw [hstep]
    refine ⟨?_, htotal, ?_, ?_, fun e => ?_, ?_, ?_⟩
    · rw [h.same]
    · rw [hfilter]
      exact h.fresh
    · rw [map_element_markReceived]
      exact h.nodup
    · rw [map_element_markReceived, h.elements e]
      simp only [mem_append, mem_singleton]
      constructor
      · tauto
      · rintro (he | he | rfl)
        · exact .inl he
        · exact .inr he
        · exact .inl hknown
    · rw [unreceived_markReceived element h.nodup, h.unreceived, filter_filter]
      congr 1
      funext e
      simp [and_comm]
    · rw [hfilter]
      exact h.client
  · have hget : ¬ (op.opGetElement element).isSome := by
      tauto
    have hfilter : (es ++ [element]).filter (· ∉ known) = es.filter (· ∉ known) ++ [element] := by
      simp [hknown]
    have hmode' : op.resultMode = first.resultMode := by rw [h.same]
    have hrequest : op.clientRequestId = first.clientRequestId := by rw [h.same]
    have hstep : op.receiveElement env element = { op with
          receivedTotal := (op.receivedTotal + 1) % 2 ^ 32
          receivedFresh := (op.receivedFresh + 1) % 2 ^ 32
          keyToElement := op.keyToElement ++ [⟨element, true⟩]
          clientMq := op.clientMq ++ [sendClientElement env.host first.clientRequestId
            element first.resultMode.told] } := by
      have hsupported : op.resultMode.Supported := by rwa [hmode']
      refine (if_neg hget).trans ?_
      rw [sendClientAdded_eq]
      · simp only [sendClient, opRegisterElement, hmode', hrequest]
      · exact hsupported
    have hentries : (op.keyToElement ++ [(⟨element, true⟩ : KeyEntry)]).map (·.element) =
        op.keyToElement.map (·.element) ++ [element] := by simp
    rw [hstep]
    refine ⟨?_, htotal, ?_, ?_, fun e => ?_, ?_, ?_⟩
    · rw [h.same]
    · rw [hfilter, length_append, length_singleton]
      rw [h.fresh, Nat.mod_eq_of_lt hfresh]
    · rw [hentries]
      refine nodup_append.mpr ⟨h.nodup, nodup_singleton element, ?_⟩
      intro e he e' he' heq
      rw [mem_singleton.mp he'] at heq
      rw [heq, h.elements] at he
      tauto
    · rw [hentries, mem_append, h.elements e, mem_append]
      tauto
    · rw [filter_append, map_append, h.unreceived]
      have hsame : known.filter (· ∉ es ++ [element]) = known.filter (· ∉ es) := by
        refine filter_congr fun e he => ?_
        have hne : e ≠ element := fun heq => hknown (heq ▸ he)
        simp [hne]
      rw [hsame]
      simp
    · rw [hfilter, map_append, ← append_assoc, ← h.client]
      rfl

theorem absorbed_nil (host : ByteOrder)
    (hkeys : first.keyToElement = known.map fun e => ⟨e, false⟩) (hnodup : known.Nodup)
    (hfresh : first.receivedFresh = 0) (htotal : first.receivedTotal = 0) :
    Absorbed host first known [] first := by
  refine ⟨rfl, htotal, hfresh, ?_, fun e => ?_, ?_, by simp⟩
  · simpa [hkeys, Function.comp_def] using hnodup
  · simp [hkeys, Function.comp_def]
  · simp [hkeys, Function.comp_def, filter_map]

def Passes (known es : List Element) : Prop :=
  8 < es.length → es.length / 3 ≤ (es.filter (· ∉ known)).length

theorem Absorbed.fullElement (h : Absorbed env.host first known es op)
    (hmode : first.resultMode.Supported) (hnew : element ∉ es) (hlength : es.length + 1 < 2 ^ 32)
    (hpasses : Passes known (es ++ [element])) (hemsg : elementOfMessage env.host emsg = element) :
    Absorbed env.host first known (es ++ [element]) (op.handleP2pFullElement env emsg) := by
  have hreceive := h.receive hmode hnew hlength
  have hnot : ¬ (op.receiveElement env element).tooManyOld := by
    rintro ⟨htotal, hfresh⟩
    rw [hreceive.total] at htotal hfresh
    rw [hreceive.fresh] at hfresh
    have := hpasses htotal
    omega
  unfold handleP2pFullElement
  rw [hemsg, if_neg hnot]
  exact hreceive

end UnionOperation

open UnionOperation

structure UnionPeer where
  env : UnionEnv
  view : OperationView
  clientRequestId : Nat
  resultMode : ResultMode

/-- The two operations, and how many messages each of them has received of what
the other one has sent. -/
structure UnionExchange where
  initiator : UnionOperation
  acceptor : UnionOperation
  atInitiator : Nat
  atAcceptor : Nat
  deriving DecidableEq

/-- The next message arrives, or the end of the channel after all messages. -/
inductive ExchangeEvent where
  | toInitiator
  | toAcceptor
  | initiatorEnd
  | acceptorEnd
  deriving DecidableEq, Repr

instance : Fintype ExchangeEvent where
  elems := {.toInitiator, .toAcceptor, .initiatorEnd, .acceptorEnd}
  complete := fun event => by cases event <;> decide

namespace UnionExchange

variable (ini acc : UnionPeer)

def start (diff : Nat) : Option UnionExchange :=
  (unionEvaluate ini.view ini.clientRequestId ini.resultMode).bind fun initiator =>
      (unionAccept acc.view acc.clientRequestId acc.resultMode diff).map
        fun acceptor => ⟨initiator, acceptor, 0, 0⟩

def step (s : UnionExchange) : ExchangeEvent → Option UnionExchange
  | .toInitiator =>
      (s.acceptor.mq[s.atInitiator]?).bind fun message =>
        (s.initiator.unionHandleP2pMessage ini.env ini.view message).map fun op =>
          { s with initiator := op, atInitiator := s.atInitiator + 1 }
  | .toAcceptor =>
      (s.initiator.mq[s.atAcceptor]?).bind fun message =>
        (s.acceptor.unionHandleP2pMessage acc.env acc.view message).map fun op =>
          { s with acceptor := op, atAcceptor := s.atAcceptor + 1 }
  | .initiatorEnd =>
      if s.acceptor.destroyed ∧ s.atInitiator = s.acceptor.mq.length ∧
          ¬ s.initiator.destroyed then
        some { s with initiator := s.initiator.unionPeerDisconnect }
      else none
  | .acceptorEnd =>
      if s.initiator.destroyed ∧ s.atAcceptor = s.initiator.mq.length ∧
          ¬ s.acceptor.destroyed then
        some { s with acceptor := s.acceptor.unionPeerDisconnect }
      else none

structure Exchanges (A B : Finset Element) (diff : Nat) : Prop where
  initiatorShows : ini.view.Shows A
  acceptorShows : acc.view.Shows B
  initiatorNodup : ini.view.elements.Nodup
  acceptorNodup : acc.view.elements.Nodup
  initiatorMode : ini.resultMode.Supported
  acceptorMode : acc.resultMode.Supported
  large : ini.view.elements.length / 2 < diff

/-- The content of the initiator has nothing but `A`, the acceptor does not know
too many of its first elements, and the types survive the byte orders. -/
structure Favourable (A B : Finset Element) : Prop where
  own : ∀ e ∈ ini.view.elements, e ∈ A
  fresh : ∀ n, 8 < n → n ≤ ini.view.elements.length →
    n / 3 ≤ ((ini.view.elements.take n).filter (· ∉ B)).length
  short : ∀ e ∈ A, ini.env.host.Short e.elementType
  toldAcceptor : ∀ e ∈ A \ B, acc.env.host.Palindromic e.elementType
  toldInitiator : ∀ e ∈ B \ A, ini.env.host.Palindromic e.elementType
  initiatorSmall : A.card < 2 ^ 32
  acceptorSmall : B.card < 2 ^ 32

/-! ## Stages -/

def ownOf (B : Finset Element) : List Element :=
  acc.view.elements.filter (· ∈ B)

def missingOf (B : Finset Element) : List Element :=
  (ownOf acc B).filter (· ∉ ini.view.elements)

def firstInitiator : UnionOperation :=
  .initial ini.clientRequestId ini.resultMode (ini.view.elements.map fun e => ⟨e, false⟩)

def fullInitiator : UnionOperation :=
  (firstInitiator ini).sendFullSet ini.env ini.view

def firstAcceptor (B : Finset Element) (diff : Nat) : UnionOperation :=
  { (initial acc.clientRequestId acc.resultMode
      ((ownOf acc B).map fun e => ⟨e, false⟩)).send [.strataEstimator diff] with
    phase := .expectIbf }

def told (peer : UnionPeer) (es : List Element) : List ResultMessage :=
  es.map fun e =>
    sendClientElement peer.env.host peer.clientRequestId e peer.resultMode.told

structure Replied (B : Finset Element) (diff : Nat) (op : UnionOperation) : Prop where
  mq : op.mq = .strataEstimator diff :: ((missingOf ini acc B).map fun e =>
      .fullElement (sendMissingElement acc.env.host e)) ++ [.fullDone]
  phase : op.phase = .done
  destroyed : op.destroyed = false
  request : op.clientRequestId = acc.clientRequestId
  client : op.clientMq = told acc (ini.view.elements.filter (· ∉ ownOf acc B))

structure Ended (peer : UnionPeer) (es : List Element) (op : UnionOperation) : Prop where
  destroyed : op.destroyed = true
  client : op.clientMq = told peer es ++ [⟨peer.clientRequestId, .done, 0, []⟩]

inductive Stage (B : Finset Element) (diff : Nat) : UnionExchange → Prop
  | estimating : Stage B diff ⟨firstInitiator ini, firstAcceptor acc B diff, 0, 0⟩
  | sending {k : Nat} {acceptor : UnionOperation} :
      k ≤ ini.view.elements.length →
      UnionOperation.Absorbed acc.env.host (firstAcceptor acc B diff) (ownOf acc B)
        (ini.view.elements.take k) acceptor →
      Stage B diff ⟨fullInitiator ini, acceptor, 1, k⟩
  | replying {k : Nat} {initiator acceptor : UnionOperation} :
      k ≤ (missingOf ini acc B).length →
      UnionOperation.Absorbed ini.env.host (fullInitiator ini) ini.view.elements
        ((missingOf ini acc B).take k) initiator →
      Replied ini acc B diff acceptor →
      Stage B diff ⟨initiator, acceptor, k + 1, ini.view.elements.length + 1⟩
  | closing {initiator acceptor : UnionOperation} :
      Ended ini (missingOf ini acc B) initiator →
      initiator.mq = (fullInitiator ini).mq → Replied ini acc B diff acceptor →
      Stage B diff ⟨initiator, acceptor, (missingOf ini acc B).length + 2,
        ini.view.elements.length + 1⟩
  | finished {initiator acceptor : UnionOperation} :
      Ended ini (missingOf ini acc B) initiator →
      Ended acc (ini.view.elements.filter (· ∉ ownOf acc B)) acceptor →
      initiator.mq.length = ini.view.elements.length + 1 →
      acceptor.mq.length = (missingOf ini acc B).length + 2 →
      Stage B diff ⟨initiator, acceptor, (missingOf ini acc B).length + 2,
        ini.view.elements.length + 1⟩

def left (B : Finset Element) (s : UnionExchange) : Nat :=
  (ini.view.elements.length + 1 - s.atAcceptor) +
    ((missingOf ini acc B).length + 2 - s.atInitiator) +
    (if s.acceptor.destroyed then 0 else 1)

variable {ini acc} {A B : Finset Element} {diff : Nat} {s s' : UnionExchange}
  {event : ExchangeEvent}

theorem start_eq (hex : Exchanges ini acc A B diff) (hfav : Favourable ini acc A B) :
    start ini acc diff = some ⟨firstInitiator ini, firstAcceptor acc B diff, 0, 0⟩ := by
  have hown : ini.view.elements.filter (· ∈ A) = ini.view.elements :=
    filter_eq_self.mpr fun e he => decide_eq_true (hfav.own e he)
  unfold start unionEvaluate unionAccept
  rw [initializeKeyToElement_eq hex.initiatorShows fun _ he => he,
    initializeKeyToElement_eq hex.acceptorShows fun _ he => he, hown]
  rfl

theorem fullInitiator_mq : (fullInitiator ini).mq = (ini.view.elements.map fun e =>
      .fullElement (sendElementIterator ini.env.host e)) ++ [.fullDone] := by
  simp [fullInitiator, firstInitiator, sendFullSet, transmit, send, initial]

variable {acceptor : UnionOperation}

theorem Replied.ofAbsorbed
    (h : UnionOperation.Absorbed acc.env.host (firstAcceptor acc B diff) (ownOf acc B)
      ini.view.elements acceptor) :
    Replied ini acc B diff (acceptor.handleP2pFullDone acc.env) := by
  have hmq : acceptor.mq = [.strataEstimator diff] := by rw [h.same]; rfl
  have hphase : acceptor.phase = .expectIbf := by rw [h.same]; rfl
  have hdestroyed : acceptor.destroyed = false := by rw [h.same]; rfl
  have hrequest : acceptor.clientRequestId = acc.clientRequestId := by rw [h.same]; rfl
  unfold handleP2pFullDone
  rw [if_pos hphase]
  refine ⟨?_, rfl, hdestroyed, hrequest, h.client⟩
  simp only [send, sendMissingElements, transmit, hmq, h.unreceived]
  rfl

section

variable (hex : Exchanges ini acc A B diff)
include hex

theorem mem_ownOf : e ∈ ownOf acc B ↔ e ∈ B := by
  unfold ownOf
  rw [mem_filter, decide_eq_true_iff]
  exact ⟨fun h => h.2, fun h => ⟨hex.acceptorShows.known e h, h⟩⟩

theorem nodup_missingOf : (missingOf ini acc B).Nodup := (hex.acceptorNodup.filter _).filter _

theorem length_missingOf_le : (missingOf ini acc B).length ≤ B.card := by
  rw [← toFinset_card_of_nodup (nodup_missingOf hex)]
  refine Finset.card_le_card fun e he => ?_
  rw [mem_toFinset] at he
  exact (mem_ownOf hex).mp (mem_of_mem_filter he)

theorem length_elements_le (hfav : Favourable ini acc A B) : ini.view.elements.length ≤ A.card := by
  rw [← toFinset_card_of_nodup hex.initiatorNodup]
  exact Finset.card_le_card fun e he => hfav.own e (mem_toFinset.mp he)

end

/-! ## One step -/

theorem step_toInitiator_of_le (h : s.acceptor.mq.length ≤ s.atInitiator) :
    step ini acc s .toInitiator = none := by
  dsimp only [step]
  rw [getElem?_eq_none h]
  rfl

theorem step_toAcceptor_of_le (h : s.initiator.mq.length ≤ s.atAcceptor) :
    step ini acc s .toAcceptor = none := by
  dsimp only [step]
  rw [getElem?_eq_none h]
  rfl

theorem step_initiatorEnd_of_not
    (h : ¬ (s.acceptor.destroyed = true ∧ s.initiator.destroyed = false)) :
    step ini acc s .initiatorEnd = none := by
  exact if_neg fun hend => h ⟨hend.1, Bool.eq_false_of_not_eq_true hend.2.2⟩

theorem step_acceptorEnd_of_not
    (h : ¬ (s.initiator.destroyed = true ∧ s.acceptor.destroyed = false)) :
    step ini acc s .acceptorEnd = none := by
  exact if_neg fun hend => h ⟨hend.1, Bool.eq_false_of_not_eq_true hend.2.2⟩

section

variable {env : UnionEnv} {view : OperationView} {op : UnionOperation} {es : List Element}
  {sent : Element → ElementMessage} {k : Nat} {next : UnionOperation → UnionExchange}

theorem receive_full_element (halive : op.destroyed = false) (hk : k < es.length) :
    ((es.map (fun e => P2PMessage.fullElement (sent e)) ++ [.fullDone])[k]?).bind
      (fun message => (op.unionHandleP2pMessage env view message).map next) =
        some (next (op.handleP2pFullElement env (sent es[k]))) := by
  rw [getElem?_append_left (by simpa using hk), getElem?_map, getElem?_eq_getElem hk]
  unfold unionHandleP2pMessage
  rw [halive]
  rfl

theorem receive_full_done (halive : op.destroyed = false) :
    ((es.map (fun e => P2PMessage.fullElement (sent e)) ++ [.fullDone])[es.length]?).bind
      (fun message => (op.unionHandleP2pMessage env view message).map next) =
        some (next (op.handleP2pFullDone env)) := by
  rw [getElem?_append_right (by simp), length_map, Nat.sub_self]
  unfold unionHandleP2pMessage
  rw [halive]
  rfl

theorem receive_full_ne_none (halive : op.destroyed = false) (hk : k ≤ es.length) :
    ((es.map (fun e => P2PMessage.fullElement (sent e)) ++ [.fullDone])[k]?).bind
      (fun message => (op.unionHandleP2pMessage env view message).map next) ≠ none := by
  rcases hk.lt_or_eq with hlt | rfl
  · rw [receive_full_element halive hlt]
    simp
  · rw [receive_full_done halive]
    simp

end

theorem getElem_notMem_take {es : List Element} (hnodup : es.Nodup)
    (hk : k < es.length) : es[k] ∉ es.take k := by
  have htake : (es.take (k + 1)).Nodup := hnodup.sublist (take_sublist (k + 1) es)
  rw [← take_append_getElem hk] at htake
  exact fun hmem => (nodup_append.mp htake).2.2 _ hmem _ mem_cons_self rfl

theorem step_estimating (hex : Exchanges ini acc A B diff)
    (hstep : step ini acc ⟨firstInitiator ini, firstAcceptor acc B diff, 0, 0⟩ event = some s') :
    s' = ⟨fullInitiator ini, firstAcceptor acc B diff, 1, 0⟩ := by
  cases event with
  | toInitiator =>
    dsimp only [step] at hstep
    obtain ⟨_, hmessage, hstep⟩ := Option.bind_eq_some_iff.mp hstep
    obtain ⟨op, hop, rfl⟩ := Option.map_eq_some_iff.mp hstep
    cases hmessage
    have hop : some ((firstInitiator ini).sendFullSet ini.env ini.view) = some op :=
      (if_pos hex.large).symm.trans hop
    cases hop
    rfl
  | _ => cases hstep

theorem absorb_sent (hex : Exchanges ini acc A B diff) (hfav : Favourable ini acc A B)
    (hk : k < ini.view.elements.length)
    (h : UnionOperation.Absorbed acc.env.host (firstAcceptor acc B diff) (ownOf acc B)
      (ini.view.elements.take k) acceptor) :
    UnionOperation.Absorbed acc.env.host (firstAcceptor acc B diff) (ownOf acc B)
      (ini.view.elements.take (k + 1)) (acceptor.handleP2pFullElement acc.env
        (sendElementIterator ini.env.host ini.view.elements[k])) := by
  have hlength := length_elements_le hex hfav
  have hsmall := hfav.initiatorSmall
  have hown := hfav.own ini.view.elements[k] (getElem_mem hk)
  rw [← take_append_getElem hk]
  refine h.fullElement hex.acceptorMode (getElem_notMem_take hex.initiatorNodup hk) ?_ ?_
    ((elementOfMessage_sendElementIterator _).mpr (hfav.short _ hown))
  · rw [length_take]
    omega
  · rw [take_append_getElem hk]
    intro hmany
    rw [length_take, min_eq_left (by omega)] at hmany ⊢
    refine (hfav.fresh (k + 1) hmany (by omega)).trans (le_of_eq ?_)
    simp only [mem_ownOf hex]

theorem filter_missingOf {es : List Element} (hes : ∀ e ∈ es, e ∈ missingOf ini acc B) :
    es.filter (· ∉ ini.view.elements) = es :=
  filter_eq_self.mpr fun e he => (mem_filter.mp (hes e he)).2

variable {initiator : UnionOperation}

section

variable {k : Nat} (hex : Exchanges ini acc A B diff) (hfav : Favourable ini acc A B)
include hex hfav

theorem absorb_missing (hk : k < (missingOf ini acc B).length)
    (h : UnionOperation.Absorbed ini.env.host (fullInitiator ini) ini.view.elements
      ((missingOf ini acc B).take k) initiator) :
    UnionOperation.Absorbed ini.env.host (fullInitiator ini) ini.view.elements
      ((missingOf ini acc B).take (k + 1)) (initiator.handleP2pFullElement ini.env
        (sendMissingElement acc.env.host (missingOf ini acc B)[k])) := by
  have hlength := length_missingOf_le hex
  have hsmall := hfav.acceptorSmall
  rw [← take_append_getElem hk]
  refine h.fullElement hex.initiatorMode (getElem_notMem_take (nodup_missingOf hex) hk) ?_
    ?_ (elementOfMessage_sendMissingElement _)
  · rw [length_take]
    omega
  · rw [take_append_getElem hk]
    intro _
    rw [filter_missingOf fun e he => mem_of_mem_take he]
    exact Nat.div_le_self _ _

theorem Stage.afterSending (hk : k ≤ ini.view.elements.length)
    (habsorbed : UnionOperation.Absorbed acc.env.host (firstAcceptor acc B diff)
      (ownOf acc B) (ini.view.elements.take k) acceptor)
    (hstep : step ini acc ⟨fullInitiator ini, acceptor, 1, k⟩ event = some s') :
    Stage ini acc B diff s' ∧ left ini acc B s' <
      left ini acc B ⟨fullInitiator ini, acceptor, 1, k⟩ := by
  have hmq : acceptor.mq = [.strataEstimator diff] := by rw [habsorbed.same]; rfl
  have hdestroyed : acceptor.destroyed = false := by rw [habsorbed.same]; rfl
  cases event with
  | toInitiator =>
    rw [step_toInitiator_of_le (by simp [hmq])] at hstep
    cases hstep
  | initiatorEnd =>
    rw [step_initiatorEnd_of_not (by simp [hdestroyed])] at hstep
    cases hstep
  | acceptorEnd => cases hstep
  | toAcceptor =>
    dsimp only [step] at hstep
    rw [fullInitiator_mq] at hstep
    rcases hk.lt_or_eq with hlt | rfl
    · rw [receive_full_element hdestroyed hlt] at hstep
      cases hstep
      have hnext := absorb_sent hex hfav hlt habsorbed
      have halive : (acceptor.handleP2pFullElement acc.env
          (sendElementIterator ini.env.host ini.view.elements[k])).destroyed = false := by
        rw [hnext.same]; rfl
      refine ⟨.sending hlt hnext, ?_⟩
      simp only [left, hdestroyed, halive]
      omega
    · rw [receive_full_done hdestroyed] at hstep
      cases hstep
      rw [take_length] at habsorbed
      have hreplied := Replied.ofAbsorbed habsorbed
      refine ⟨.replying (Nat.zero_le _) (absorbed_nil _ rfl
        hex.initiatorNodup rfl rfl) hreplied, ?_⟩
      simp only [left, hdestroyed, hreplied.destroyed]
      omega

theorem Stage.afterReplying (hk : k ≤ (missingOf ini acc B).length)
    (habsorbed : UnionOperation.Absorbed ini.env.host (fullInitiator ini)
      ini.view.elements ((missingOf ini acc B).take k) initiator)
    (hreplied : Replied ini acc B diff acceptor) (hstep : step ini acc
      ⟨initiator, acceptor, k + 1, ini.view.elements.length + 1⟩ event = some s') :
    Stage ini acc B diff s' ∧ left ini acc B s' < left ini acc B
      ⟨initiator, acceptor, k + 1, ini.view.elements.length + 1⟩ := by
  have hmq : initiator.mq = (fullInitiator ini).mq := by rw [habsorbed.same]
  have hdestroyed : initiator.destroyed = false := by rw [habsorbed.same]; rfl
  have hphase : initiator.phase = .fullSending := by rw [habsorbed.same]; rfl
  cases event with
  | toAcceptor =>
    rw [step_toAcceptor_of_le (by simp [hmq, fullInitiator_mq])] at hstep
    cases hstep
  | initiatorEnd =>
    rw [step_initiatorEnd_of_not (by simp [hreplied.destroyed])] at hstep
    cases hstep
  | acceptorEnd =>
    rw [step_acceptorEnd_of_not (by simp [hdestroyed])] at hstep
    cases hstep
  | toInitiator =>
    dsimp only [step] at hstep
    rw [hreplied.mq, cons_append, getElem?_cons_succ] at hstep
    rcases hk.lt_or_eq with hlt | rfl
    · rw [receive_full_element hdestroyed hlt] at hstep
      cases hstep
      refine ⟨.replying hlt (absorb_missing hex hfav hlt habsorbed) hreplied, ?_⟩
      simp only [left]
      omega
    · rw [receive_full_done hdestroyed] at hstep
      cases hstep
      rw [take_length] at habsorbed
      have hclient := habsorbed.client
      rw [filter_missingOf fun _ he => he] at hclient
      have hrequest : initiator.clientRequestId = ini.clientRequestId := by
        rw [habsorbed.same]; rfl
      have hdone : initiator.handleP2pFullDone ini.env =
          ({ initiator with phase := .done } : UnionOperation).sendDoneAndDestroy := by
        unfold handleP2pFullDone
        rw [hphase]
        rfl
      have hended : Ended ini (missingOf ini acc B) (initiator.handleP2pFullDone ini.env) := by
        rw [hdone]
        refine ⟨rfl, ?_⟩
        simp only [sendDoneAndDestroy, hclient, hrequest]
        rfl
      refine ⟨.closing hended ?_ hreplied, ?_⟩
      · rw [hdone, ← hmq]
        rfl
      · simp only [left]
        omega

end

theorem Stage.afterClosing (hended : Ended ini (missingOf ini acc B) initiator)
    (hmq : initiator.mq = (fullInitiator ini).mq) (hreplied : Replied ini acc B diff acceptor)
    (hstep : step ini acc ⟨initiator, acceptor, (missingOf ini acc B).length + 2,
        ini.view.elements.length + 1⟩ event = some s') :
    Stage ini acc B diff s' ∧ left ini acc B s' < left ini acc B
      ⟨initiator, acceptor, (missingOf ini acc B).length + 2, ini.view.elements.length + 1⟩ := by
  have hlength : initiator.mq.length = ini.view.elements.length + 1 := by
    rw [hmq, fullInitiator_mq]
    simp
  have hlength' : acceptor.mq.length = (missingOf ini acc B).length + 2 := by
    rw [hreplied.mq]
    simp
  cases event with
  | toInitiator =>
    rw [step_toInitiator_of_le hlength'.le] at hstep
    cases hstep
  | toAcceptor =>
    rw [step_toAcceptor_of_le hlength.le] at hstep
    cases hstep
  | initiatorEnd =>
    rw [step_initiatorEnd_of_not (by simp [hreplied.destroyed])] at hstep
    cases hstep
  | acceptorEnd =>
    dsimp only [step] at hstep
    rw [hended.destroyed, hreplied.destroyed, hlength, if_pos (by simp)] at hstep
    cases hstep
    have hend : acceptor.unionPeerDisconnect = acceptor.sendDoneAndDestroy := by
      unfold unionPeerDisconnect
      rw [hreplied.destroyed, hreplied.phase]
      rfl
    rw [hend]
    refine ⟨.finished hended ⟨rfl, ?_⟩ hlength hlength', ?_⟩
    · simp only [sendDoneAndDestroy, hreplied.client, hreplied.request]
    · simp [left, hreplied.destroyed, sendDoneAndDestroy]

theorem step_finished (hinitiator : initiator.destroyed = true)
    (hacceptor : acceptor.destroyed = true)
    (hlength : initiator.mq.length = ini.view.elements.length + 1)
    (hlength' : acceptor.mq.length = (missingOf ini acc B).length + 2) :
    step ini acc ⟨initiator, acceptor, (missingOf ini acc B).length + 2,
      ini.view.elements.length + 1⟩ event = none := by
  cases event with
  | toInitiator => exact step_toInitiator_of_le hlength'.le
  | toAcceptor => exact step_toAcceptor_of_le hlength.le
  | initiatorEnd => exact step_initiatorEnd_of_not (by simp [hinitiator])
  | acceptorEnd => exact step_acceptorEnd_of_not (by simp [hacceptor])

theorem Stage.step (hex : Exchanges ini acc A B diff) (hfav : Favourable ini acc A B)
    (h : Stage ini acc B diff s) (hstep : UnionExchange.step ini acc s event = some s') :
    Stage ini acc B diff s' ∧ left ini acc B s' < left ini acc B s := by
  cases h with
  | estimating =>
    rw [step_estimating hex hstep]
    refine ⟨.sending (Nat.zero_le _) ?_, ?_⟩
    · exact absorbed_nil _ rfl (hex.acceptorNodup.filter _) rfl rfl
    · simp only [left]
      omega
  | sending hk habsorbed => exact Stage.afterSending hex hfav hk habsorbed hstep
  | replying hk habsorbed hreplied =>
    exact Stage.afterReplying hex hfav hk habsorbed hreplied hstep
  | closing hended hmq hreplied => exact Stage.afterClosing hended hmq hreplied hstep
  | finished hinitiator hacceptor hlength hlength' =>
    rw [step_finished hinitiator.destroyed hacceptor.destroyed hlength hlength'] at hstep
    cases hstep

/-! ## Until nothing can happen -/

/-- A client has been told `elements`, each once, and then that this is all. -/
structure Concluded (peer : UnionPeer) (elements : Finset Element) (op : UnionOperation) :
    Prop where
  destroyed : op.destroyed = true
  done : op.clientMq.getLast? = some ⟨peer.clientRequestId, .done, 0, []⟩
  nodup : (op.clientMq.filterMap (handleResult peer.env.host)).Nodup
  received : (op.clientMq.filterMap (handleResult peer.env.host)).toFinset = elements

variable {peer : UnionPeer}

theorem filterMap_told (hpalindromic : ∀ e ∈ es, peer.env.host.Palindromic e.elementType) :
    (told peer es).filterMap (handleResult peer.env.host) = es := by
  have htold : peer.resultMode.told = .ok ∨ peer.resultMode.told = .addLocal ∨
      peer.resultMode.told = .addRemote := by
    cases peer.resultMode <;> simp [ResultMode.told]
  induction es with
  | nil => rfl
  | cons e rest ih =>
    have hrest := ih fun e he => hpalindromic e (mem_cons_of_mem _ he)
    exact (filterMap_cons_some ((handleResult_sendClientElement _ htold).mpr
      (hpalindromic e mem_cons_self))).trans (congrArg (e :: ·) hrest)

theorem Ended.concluded (h : Ended peer es op)
    (hpalindromic : ∀ e ∈ es, peer.env.host.Palindromic e.elementType) (hnodup : es.Nodup) :
    Concluded peer es.toFinset op := by
  have hreceived : op.clientMq.filterMap (handleResult peer.env.host) = es := by
    rw [h.client, filterMap_append, filterMap_told hpalindromic]
    exact append_nil es
  refine ⟨h.destroyed, ?_, ?_, ?_⟩
  · rw [h.client]
    exact getLast?_concat
  · rw [hreceived]
    exact hnodup
  · rw [hreceived]

theorem failure_notMem_told (peer : UnionPeer) (es : List Element) :
    ∀ msg ∈ told peer es, msg.resultStatus ≠ .failure := by
  intro msg hmsg
  obtain ⟨_, -, rfl⟩ := mem_map.mp hmsg
  cases hmode : peer.resultMode <;> simp [sendClientElement, ResultMode.told]

def Unfailing (op : UnionOperation) : Prop :=
  ∀ msg ∈ op.clientMq, msg.resultStatus ≠ .failure

theorem Ended.unfailing (h : Ended peer es op) : Unfailing op := by
  intro msg hmsg
  rw [h.client, mem_append, mem_singleton] at hmsg
  rcases hmsg with hmsg | rfl
  · exact failure_notMem_told peer es msg hmsg
  · simp

theorem Replied.unfailing (h : Replied ini acc B diff acceptor) : Unfailing acceptor := by
  unfold Unfailing
  rw [h.client]
  exact failure_notMem_told acc _

theorem Stage.unfailing (h : Stage ini acc B diff s) :
    Unfailing s.initiator ∧ Unfailing s.acceptor := by
  have hnothing : ∀ op : UnionOperation, op.clientMq = [] → Unfailing op := by
    intro op hnil msg hmsg
    rw [hnil] at hmsg
    cases hmsg
  cases h with
  | estimating => exact ⟨hnothing _ rfl, hnothing _ rfl⟩
  | sending hk habsorbed =>
    refine ⟨hnothing _ rfl, ?_⟩
    unfold Unfailing
    rw [habsorbed.client]
    exact failure_notMem_told acc _
  | replying hk habsorbed hreplied =>
    refine ⟨?_, hreplied.unfailing⟩
    unfold Unfailing
    rw [habsorbed.client]
    exact failure_notMem_told ini _
  | closing hended hmq hreplied => exact ⟨hended.unfailing, hreplied.unfailing⟩
  | finished hinitiator hacceptor _ _ => exact ⟨hinitiator.unfailing, hacceptor.unfailing⟩

theorem Stage.ended (hex : Exchanges ini acc A B diff) (h : Stage ini acc B diff s)
    (hnone : ∀ event, UnionExchange.step ini acc s event = none) :
    Ended ini (missingOf ini acc B) s.initiator ∧
      Ended acc (ini.view.elements.filter (· ∉ ownOf acc B)) s.acceptor := by
  cases h with
  | estimating =>
    have hsome : UnionExchange.step ini acc
        ⟨firstInitiator ini, firstAcceptor acc B diff, 0, 0⟩ .toInitiator =
          some ⟨fullInitiator ini, firstAcceptor acc B diff, 1, 0⟩ :=
      congrArg (Option.map _) (if_pos hex.large)
    rw [hnone] at hsome
    cases hsome
  | sending hk habsorbed =>
    have hstep := hnone .toAcceptor
    exact absurd hstep (receive_full_ne_none (by rw [habsorbed.same]; rfl) hk)
  | replying hk habsorbed hreplied =>
    have hstep := hnone .toInitiator
    dsimp only [UnionExchange.step] at hstep
    rw [hreplied.mq, cons_append, getElem?_cons_succ] at hstep
    exact absurd hstep (receive_full_ne_none (by rw [habsorbed.same]; rfl) hk)
  | closing hended hmq hreplied =>
    have hstep := hnone .acceptorEnd
    dsimp only [UnionExchange.step] at hstep
    rw [hended.destroyed, hreplied.destroyed, hmq, fullInitiator_mq, if_pos (by simp)] at hstep
    cases hstep
  | finished hinitiator hacceptor _ _ => exact ⟨hinitiator, hacceptor⟩

section

variable (hex : Exchanges ini acc A B diff) (hfav : Favourable ini acc A B)
include hex hfav

theorem mem_elements : e ∈ ini.view.elements ↔ e ∈ A :=
  ⟨hfav.own e, hex.initiatorShows.known e⟩

theorem toFinset_missingOf : (missingOf ini acc B).toFinset = B \ A := by
  ext e
  simp [missingOf, mem_ownOf hex, mem_elements hex hfav]

theorem toFinset_fresh : (ini.view.elements.filter (· ∉ ownOf acc B)).toFinset = A \ B := by
  ext e
  simp [mem_ownOf hex, mem_elements hex hfav]

theorem Stage.concluded (h : Stage ini acc B diff s)
    (hnone : ∀ event, UnionExchange.step ini acc s event = none) :
    Concluded ini (B \ A) s.initiator ∧ Concluded acc (A \ B) s.acceptor := by
  obtain ⟨hinitiator, hacceptor⟩ := h.ended hex hnone
  rw [← toFinset_missingOf hex hfav, ← toFinset_fresh hex hfav]
  constructor
  · refine hinitiator.concluded (fun e he => hfav.toldInitiator e ?_) (nodup_missingOf hex)
    rw [← toFinset_missingOf hex hfav]
    exact mem_toFinset.mpr he
  · refine hacceptor.concluded (fun e he => hfav.toldAcceptor e ?_)
      (hex.initiatorNodup.filter _)
    rw [← toFinset_fresh hex hfav]
    exact mem_toFinset.mpr he

/-- Every run is short and free of failures, and where it cannot go on both
clients have been told exactly what they lack. -/
theorem full_set_exchange_complete :
    ∃ first, start ini acc diff = some first ∧
      ∀ events s, Run (UnionExchange.step ini acc) (fun _ _ => True) first events s →
        Unfailing s.initiator ∧ Unfailing s.acceptor ∧
        events.length ≤ A.card + B.card + 4 ∧
        ((∀ event, UnionExchange.step ini acc s event = none) →
          Concluded ini (B \ A) s.initiator ∧ Concluded acc (A \ B) s.acceptor) := by
  refine ⟨_, start_eq hex hfav, fun events s hrun => ?_⟩
  obtain ⟨hstage, _⟩ := hrun.bounded (Stage ini acc B diff) (left ini acc B)
    .estimating fun before event after h _ hstep => h.step hex hfav hstep
  refine ⟨hstage.unfailing.1, hstage.unfailing.2, ?_, hstage.concluded hex hfav⟩
  have hsent := length_elements_le hex hfav
  have hmissing := length_missingOf_le hex
  have hfirst : left ini acc B ⟨firstInitiator ini, firstAcceptor acc B diff, 0, 0⟩ =
      ini.view.elements.length + 1 + ((missingOf ini acc B).length + 2) + 1 := rfl
  omega

end

/-! ## Two exchanges -/

def numbered (range : List Nat) : List Element :=
  range.map fun n => ⟨0, [BitVec.ofNat 8 n]⟩

def plainPeer (xs : List Element) : UnionPeer where
  env := UnionService.plainEnv
  view := ⟨xs, fun e => some (decide (e ∈ xs))⟩
  clientRequestId := 1
  resultMode := .added

theorem exchanges_plain {xs ys : List Element} (hxs : xs.Nodup) (hys : ys.Nodup)
    (hlarge : xs.length / 2 < diff) :
    Exchanges (plainPeer xs) (plainPeer ys) xs.toFinset ys.toFinset diff := by
  refine ⟨⟨?_, ?_⟩, ⟨?_, ?_⟩, hxs, hys, .inl rfl, .inl rfl, hlarge⟩ <;>
    intro e <;> simp [plainPeer]

theorem exists_run_of_any (hany : ((start ini acc diff).bind fun first =>
      exec (UnionExchange.step ini acc) (fun _ _ => True) first events).any test = true) :
    ∃ first s, start ini acc diff = some first ∧
      Run (UnionExchange.step ini acc) (fun _ _ => True) first events s ∧ test s = true := by
  cases hstart : start ini acc diff with
  | none => simp [hstart] at hany
  | some first =>
    rw [hstart] at hany
    obtain ⟨s, hrun, htest⟩ := Run.of_exec_any hany
    exact ⟨first, s, rfl, hrun, htest⟩

/-- Of nine elements, the acceptor knows the last six. -/
theorem full_set_exchange_complete_overlapping :
    let xs := numbered (range' 0 9)
    let ys := numbered (range' 3 9)
    ∃ first s, start (plainPeer xs) (plainPeer ys) 6 = some first ∧
      Run (UnionExchange.step (plainPeer xs) (plainPeer ys)) (fun _ _ => True) first
        (.toInitiator :: replicate 10 .toAcceptor ++ replicate 4 .toInitiator ++ [.acceptorEnd]) s ∧
      Concluded (plainPeer xs) (ys.toFinset \ xs.toFinset) s.initiator ∧
      Concluded (plainPeer ys) (xs.toFinset \ ys.toFinset) s.acceptor := by
  intro xs ys
  have hex : Exchanges (plainPeer xs) (plainPeer ys) xs.toFinset ys.toFinset 6 :=
    exchanges_plain (by decide) (by decide) (by decide)
  have hfresh : ∀ n, 8 < n → n ≤ 9 →
      n / 3 ≤ ((xs.take n).filter (· ∉ ys.toFinset)).length := by
    intro n hmany hn
    obtain rfl : n = 9 := by omega
    decide
  have hfav : Favourable (plainPeer xs) (plainPeer ys) xs.toFinset ys.toFinset :=
    ⟨fun e he => mem_toFinset.mpr he, hfresh, by decide, by decide, by decide, by decide, by decide⟩
  obtain ⟨first, s, hfirst, hrun, hnone⟩ :
      ∃ first s, start (plainPeer xs) (plainPeer ys) 6 = some first ∧
        Run (UnionExchange.step (plainPeer xs) (plainPeer ys)) (fun _ _ => True) first
          (.toInitiator :: replicate 10 .toAcceptor ++
            replicate 4 .toInitiator ++ [.acceptorEnd]) s ∧
        decide (∀ event, UnionExchange.step (plainPeer xs) (plainPeer ys) s event =
          none) = true :=
    exists_run_of_any (by decide +kernel)
  obtain ⟨first', hfirst', hruns⟩ := full_set_exchange_complete hex hfav
  obtain rfl : first' = first := Option.some.inj (hfirst'.symm.trans hfirst)
  obtain ⟨-, -, -, hconcluded⟩ := hruns _ s hrun
  exact ⟨first', s, hfirst, hrun, hconcluded (of_decide_eq_true hnone)⟩

/-- The acceptor knows all nine elements and has five more: after the ninth it
takes the initiator for broken, and neither client gets its result. -/
theorem subset_exchange_fails :
    let xs := numbered (range' 0 9)
    let ys := numbered (range' 0 14)
    Exchanges (plainPeer xs) (plainPeer ys) xs.toFinset ys.toFinset 5 ∧
    ∃ first s, start (plainPeer xs) (plainPeer ys) 5 = some first ∧
      Run (UnionExchange.step (plainPeer xs) (plainPeer ys)) (fun _ _ => True) first
        (.toInitiator :: replicate 10 .toAcceptor ++ [.initiatorEnd]) s ∧
      s.acceptor.clientMq = [⟨1, .failure, 0, []⟩] ∧
      s.initiator.clientMq = [⟨1, .failure, 0, []⟩] := by
  intro xs ys
  obtain ⟨first, s, hfirst, hrun, hfailed⟩ :
      ∃ first s, start (plainPeer xs) (plainPeer ys) 5 = some first ∧
        Run (UnionExchange.step (plainPeer xs) (plainPeer ys)) (fun _ _ => True) first
          (.toInitiator :: replicate 10 .toAcceptor ++ [.initiatorEnd]) s ∧
        decide (s.acceptor.clientMq = [⟨1, .failure, 0, []⟩] ∧
          s.initiator.clientMq = [⟨1, .failure, 0, []⟩]) = true :=
    exists_run_of_any (by decide +kernel)
  exact ⟨exchanges_plain (by decide) (by decide) (by decide), first, s, hfirst, hrun,
    of_decide_eq_true hfailed⟩

end UnionExchange

end Gnunet.SetService
