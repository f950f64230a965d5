import Gnunet.CoreKeyExchange
import Gnunet.GuardedRun

/-!
# What an event does to the record of a peer

Every handler of the key exchange works on the record and the session of one peer.
`Transition` lists what can happen to them, and `PeerStep` says that nothing else
changes but the messages in the outbox.  The beginning and the end of a
connection, and rekeying, are not of this kind.
-/

namespace Gnunet.Core

open Protocol Option Service

variable {D : Type}

def KxState.live : KxState → Bool
  | .up | .rekeySent => true
  | _ => false

open KxState

def KxState.keyed : KxState → Bool
  | .keyReceived | .up | .rekeySent => true
  | _ => false

structure PeerStep (s s' : Service D) (peer : Nat) (kx : KeyExchangeInfo D)
    (new : List (Delivery D)) : Prop where
  kx : s'.kxs peer = some kx
  kxs : ∀ q, q ≠ peer → s'.kxs q = s.kxs q
  sessions : ∀ q, q ≠ peer → s'.sessions q = s.sessions q
  kxList : s'.kxList = s.kxList
  myEphemeralKey : s'.myEphemeralKey = s.myEphemeralKey
  announced : s'.currentEkm.ephemeralKey = s.currentEkm.ephemeralKey
  deliveries : s'.deliveries = s.deliveries ++ new

/-- The two booleans say whether there is a session before and after. -/
inductive Transition [DecidableEq D] (env : CoreEnv D)
    (myEphemeralKey : Bytes D) (peer : Nat) (kx : KeyExchangeInfo D)
    (session : Bool) :
    CoreEvent D → KeyExchangeInfo D → Bool → List (Delivery D) → Prop
  | idle {event : CoreEvent D} (ping : PingMessage D)
      (challenge timeout sent : Nat) (retry : Bool) :
      Transition env myEphemeralKey peer kx session event { kx with
          ping := ping
          pingChallenge := challenge
          timeout := timeout
          lastSequenceNumberSent := sent
          retrySetKeyTask := retry }
        session []
  | derives {now : Nat} {nonce : Nonce} {m : EphemeralKeyMessage D}
      (retry : Bool) :
      acceptsEphemeralKey peer kx now m = true →
      Transition env myEphemeralKey peer kx session (.ephemeralKey peer now nonce m)
        { KeyExchangeInfo.deriveSessionKeys
            { kx with
              otherEphemeralKey := m.ephemeralKey
              foreignKeyExpires := m.expirationTime }
            env.me peer myEphemeralKey nonce with
          status := if kx.status.live then .rekeySent else .keyReceived
          retrySetKeyTask := retry }
        session []
  | confirms {now : Nat} {m : PongMessage D} (timeout : Nat) :
      kx.status.keyed = true → validPong env peer kx m = true →
      Transition env myEphemeralKey peer kx session (.pong peer now m) { kx with
          status := .up
          timeout := timeout
          keepAliveTask := true
          retrySetKeyTask := false }
        (session || !kx.status.live) []
  | expires {event : CoreEvent D} :
      kx.keepAliveTask = true ∨ kx.status = .up →
      Transition env myEphemeralKey peer kx session event { kx with
          status := .keySent
          keepAliveTask := false
          retrySetKeyTask := true }
        false []
  | ignores {now : Nat} {headers : Bool} {m : EncryptedMessage D}
      {kx' : KeyExchangeInfo D} :
      kx.status = .up → hmacValid kx m = true →
      kx.checkSequenceNumber (decryptMessage env kx m).sequenceNumber = some kx' →
      Transition env myEphemeralKey peer kx session (.encrypted peer now headers m) kx' session []
  | receives {now : Nat} {headers : Bool} {m : EncryptedMessage D}
      {kx' : KeyExchangeInfo D} :
      kx.status = .up → hmacValid kx m = true →
      kx.checkSequenceNumber (decryptMessage env kx m).sequenceNumber = some kx' →
      Transition env myEphemeralKey peer kx session
        (.encrypted peer now headers m) (kx'.updateTimeout now) session
        [{ peer := peer
           decryptKey := kx.decryptKey
           message := m
           sequenceNumber :=
            (decryptMessage env kx m).sequenceNumber
           highest := decide (kx.lastSequenceNumberReceived <
            (decryptMessage env kx m).sequenceNumber) }]

/-! ## Frames of the session functions -/

variable {headers : Bool}

namespace Service

structure SameSession (s s' : Service D) (peer : Nat) : Prop where
  kxs : s'.kxs = s.kxs
  others : ∀ q, q ≠ peer → s'.sessions q = s.sessions q
  session : (s'.sessions peer).isSome = (s.sessions peer).isSome
  kxList : s'.kxList = s.kxList
  myEphemeralKey : s'.myEphemeralKey = s.myEphemeralKey
  announced : s'.currentEkm.ephemeralKey = s.currentEkm.ephemeralKey
  deliveries : s'.deliveries = s.deliveries

theorem SameSession.refl (s : Service D) (peer : Nat) : SameSession s s peer :=
  ⟨rfl, fun _ _ => rfl, rfl, rfl, rfl, rfl, rfl⟩

theorem SameSession.trans
    (h : SameSession s s' peer) (h' : SameSession s' s'' peer) :
    SameSession s s'' peer where
  kxs := h'.kxs.trans h.kxs
  others q hq := (h'.others q hq).trans (h.others q hq)
  session := h'.session.trans h.session
  kxList := h'.kxList.trans h.kxList
  myEphemeralKey := h'.myEphemeralKey.trans h.myEphemeralKey
  announced := h'.announced.trans h.announced
  deliveries := h'.deliveries.trans h.deliveries

theorem setSession_sameSession (s : Service D) {session : Option Session}
    (hsession : session.isSome = (s.sessions peer).isSome) :
    SameSession s (s.setSession peer session) peer := by
  refine ⟨rfl, ?_, ?_, rfl, rfl, rfl, rfl⟩
  · intro q hq
    exact Function.update_of_ne hq _ _
  · simpa [setSession] using hsession

theorem gscSessionsSetTypemap_sameSession (s : Service D) (peer : Nat) (types : Option (List Nat)) :
    SameSession s (s.gscSessionsSetTypemap peer types) peer := by
  cases types with
  | none => exact .refl s peer
  | some types => exact setSession_sameSession s (by simp)

theorem gscSessionsConfirmTypemap_sameSession (s : Service D) (peer : Nat) (current : Bool) :
    SameSession s (s.gscSessionsConfirmTypemap peer current) peer := by
  unfold gscSessionsConfirmTypemap
  split
  · exact setSession_sameSession s (by simp)
  · exact .refl s peer

theorem gscSessionsAddToTypemap_sameSession {s s' : Service D}
    (h : s.gscSessionsAddToTypemap env peer type = some s') : SameSession s s' peer := by
  unfold gscSessionsAddToTypemap at h
  split at h
  · cases h
    exact .refl s peer
  · obtain ⟨_, hsession, rfl⟩ := map_eq_some_iff.mp h
    split
    · exact .refl s peer
    · exact setSession_sameSession s (by simp [hsession])

theorem gscClientsDeliverMessage_sameSession {s s' : Service D}
    (h : s.gscClientsDeliverMessage env peer type msize wanted = some s') :
    SameSession s s' peer := by
  unfold gscClientsDeliverMessage at h
  split_ifs at h
  · cases h
    exact .refl s peer
  · exact gscSessionsAddToTypemap_sameSession h
  · cases h
    exact .refl s peer

theorem deliverMessage_sameSession
    (h : deliverMessage env headers peer s m = some s') : SameSession s s' peer := by
  unfold deliverMessage at h
  split at h
  · cases h
    exact .refl s peer
  · cases m with
    | typeMap types =>
      cases h
      exact gscSessionsSetTypemap_sameSession s peer types
    | confirmTypeMap current =>
      cases h
      exact gscSessionsConfirmTypemap_sameSession s peer current
    | other type size =>
      obtain ⟨_, hfull, hheader⟩ := bind_eq_some_iff.mp h
      exact (gscClientsDeliverMessage_sameSession hfull).trans
        (gscClientsDeliverMessage_sameSession hheader)

theorem deliverMessages_sameSession {messages : List Inbound}
    (h : messages.foldlM (deliverMessage env headers peer) s = some s') : SameSession s s' peer :=
  (Run.of_foldlM h).invariant (fun s' => SameSession s s' peer) (.refl s peer)
    (fun _ _ _ hbefore _ hm =>
      hbefore.trans (deliverMessage_sameSession hm))

end Service

/-! ## Frames of the handlers -/

namespace PeerStep

variable {s s' s₁ : Service D} {peer : Nat} {kx : KeyExchangeInfo D}

theorem ofKx (hkx : s.kxs peer = some kx) : PeerStep s s peer kx [] :=
  ⟨hkx, fun _ _ => rfl, fun _ _ => rfl, rfl, rfl, rfl, by simp⟩

theorem setKx (s : Service D) (peer : Nat) (kx : KeyExchangeInfo D) :
    PeerStep s (s.setKx peer kx) peer kx [] :=
  ⟨Function.update_self .., fun _ hq => Function.update_of_ne hq _ _,
    fun _ _ => rfl, rfl, rfl, rfl, by simp [Service.setKx]⟩

theorem deliver (h : PeerStep s s₁ peer kx []) (new : List (Delivery D)) :
    PeerStep s { s₁ with deliveries := s₁.deliveries ++ new } peer kx new :=
  ⟨h.kx, h.kxs, h.sessions, h.kxList, h.myEphemeralKey, h.announced, by simp [h.deliveries]⟩

variable {new : List (Delivery D)}

theorem afterSession (hsession : Service.SameSession s s₁ peer) (h : PeerStep s₁ s' peer kx new) :
    PeerStep s s' peer kx new where
  kx := h.kx
  kxs q hq := (h.kxs q hq).trans (congrFun hsession.kxs q)
  sessions q hq := (h.sessions q hq).trans (hsession.others q hq)
  kxList := h.kxList.trans hsession.kxList
  myEphemeralKey := h.myEphemeralKey.trans hsession.myEphemeralKey
  announced := h.announced.trans hsession.announced
  deliveries := by rw [h.deliveries, hsession.deliveries]

theorem beforeSession (h : PeerStep s s₁ peer kx new) (hsession : Service.SameSession s₁ s' peer) :
    PeerStep s s' peer kx new where
  kx := (congrFun hsession.kxs peer).trans h.kx
  kxs q hq := (congrFun hsession.kxs q).trans (h.kxs q hq)
  sessions q hq := (hsession.others q hq).trans (h.sessions q hq)
  kxList := hsession.kxList.trans h.kxList
  myEphemeralKey := hsession.myEphemeralKey.trans h.myEphemeralKey
  announced := hsession.announced.trans h.announced
  deliveries := hsession.deliveries.trans h.deliveries

theorem afterSetSession
    (h : PeerStep (s.setSession peer session) s' peer kx new) : PeerStep s s' peer kx new where
  kx := h.kx
  kxs := h.kxs
  sessions q hq := (h.sessions q hq).trans (Function.update_of_ne hq _ _)
  kxList := h.kxList
  myEphemeralKey := h.myEphemeralKey
  announced := h.announced
  deliveries := h.deliveries

end PeerStep

namespace Service

theorem mqSend_sameSession (s : Service D) (peer q : Nat)
    (m : CoreMessage D) : SameSession s (s.mqSend q m) peer :=
  ⟨rfl, fun _ _ => rfl, rfl, rfl, rfl, rfl, rfl⟩

theorem sendKey_step {s s' : Service D} (h : s.sendKey peer kx = some s') :
    PeerStep s s' peer { kx with retrySetKeyTask := true } [] ∧ s'.sessions = s.sessions := by
  unfold sendKey at h
  split at h
  · cases h
  · simp only [some.injEq] at h
    subst h
    have hekm : SameSession s { s with currentEkm :=
          { s.currentEkm with senderStatus := some kx.status } } peer :=
      ⟨rfl, fun _ _ => rfl, rfl, rfl, rfl, rfl, rfl⟩
    split
    · exact ⟨.afterSession (hekm.trans (mqSend_sameSession _ peer _ _))
        (PeerStep.setKx _ peer _), rfl⟩
    · exact ⟨.afterSession ((hekm.trans (mqSend_sameSession _ peer _ _)).trans
        (mqSend_sameSession _ peer _ _)) (PeerStep.setKx _ peer _), rfl⟩

theorem confirmKey_step {s s' : Service D}
    (h : s.confirmKey peer kx senderStatus = some s') :
    (∃ retry, PeerStep s s' peer { kx with retrySetKeyTask := retry } []) ∧
      s'.sessions = s.sessions := by
  unfold confirmKey at h
  split at h
  · obtain ⟨hstep, hsessions⟩ := sendKey_step h
    exact ⟨⟨true, hstep⟩, hsessions⟩
  · cases h
    exact ⟨⟨kx.retrySetKeyTask, (PeerStep.setKx s peer kx).beforeSession
      (mqSend_sameSession _ peer _ _)⟩, rfl⟩

end Service

@[simp] theorem KeyExchangeInfo.deriveSessionKeys_status
    (kx : KeyExchangeInfo D) (me peer : Nat) (myEphemeralKey : Bytes D) (nonce : Nonce) :
    (kx.deriveSessionKeys me peer myEphemeralKey nonce).status = kx.status := by
  unfold KeyExchangeInfo.deriveSessionKeys
  split <;> rfl

open KeyExchangeInfo

@[simp] theorem KeyExchangeInfo.deriveSessionKeys_keepAliveTask
    (kx : KeyExchangeInfo D) (me peer : Nat) (myEphemeralKey : Bytes D) (nonce : Nonce) :
    (kx.deriveSessionKeys me peer myEphemeralKey nonce).keepAliveTask = kx.keepAliveTask := by
  unfold deriveSessionKeys
  split <;> rfl

theorem handleTransportNotifyConnect_step {s s' : Service D}
    (h : s.handleTransportNotifyConnect env peer = some s') :
    PeerStep { s with kxList := peer :: s.kxList } s' peer
        { newKx with retrySetKeyTask := true } [] ∧
      s'.sessions = s.sessions := by
  unfold handleTransportNotifyConnect at h
  split at h
  · exact sendKey_step h
  · cases h
    exact ⟨PeerStep.setKx _ peer _, rfl⟩

def KeyExchangeInfo.rekeyed (kx : KeyExchangeInfo D) (me peer : Nat)
    (myEphemeralKey : Bytes D) (nonce : Nonce) : KeyExchangeInfo D :=
  if kx.status = .up then
    deriveSessionKeys { kx with status := .rekeySent } me
      peer myEphemeralKey nonce
  else if kx.status = .down then { kx with status := .keySent }
  else kx

theorem Service.rekeyKx_step {s s' : Service D}
    (h : s.rekeyKx env nonce peer = some s') :
    ∃ kx, s.kxs peer = some kx ∧ PeerStep s s' peer
        { kx.rekeyed env.me peer s.myEphemeralKey (nonce peer) with
          retrySetKeyTask := true } [] ∧
      s'.sessions = s.sessions := by
  obtain ⟨kx, hkx, hsend⟩ := bind_eq_some_iff.mp h
  refine ⟨kx, hkx, ?_⟩
  have hrekeyed : kx.rekeyed env.me peer s.myEphemeralKey (nonce peer) =
      let kx' :=
        if kx.status = .up then
          deriveSessionKeys { kx with status := .rekeySent }
            env.me peer s.myEphemeralKey (nonce peer)
        else kx
      if kx'.status = .down then { kx' with status := .keySent }
      else kx' := by
    unfold rekeyed
    by_cases hup : kx.status = .up <;> simp [hup]
  rw [hrekeyed]
  exact sendKey_step hsend

/-! ## Handlers -/

variable [DecidableEq D]

def PeerTransition (env : CoreEnv D) (s s' : Service D) (peer : Nat) (event : CoreEvent D) : Prop :=
  ∃ kx kx' new, s.kxs peer = some kx ∧ PeerStep s s' peer kx' new ∧
    Transition env s.myEphemeralKey peer kx (s.sessions peer).isSome event
      kx' (s'.sessions peer).isSome new

namespace Service

variable {env : CoreEnv D} {s s' : Service D} {peer : Nat}
  {kx : KeyExchangeInfo D} {event : CoreEvent D}

theorem unchanged_transition (hkx : s.kxs peer = some kx) : PeerTransition env s s peer event :=
  ⟨kx, kx, [], hkx, .ofKx hkx, .idle kx.ping kx.pingChallenge kx.timeout
    kx.lastSequenceNumberSent kx.retrySetKeyTask⟩

variable {now : Nat} (hkx : s.kxs peer = some kx)
include hkx

theorem handleEphemeralKey_transition (h : s.handleEphemeralKey env peer kx now nonce m = some s') :
    PeerTransition env s s' peer (.ephemeralKey peer now nonce m) := by
  unfold handleEphemeralKey at h
  by_cases haccepts : acceptsEphemeralKey peer kx now m = true
  · rw [if_pos haccepts] at h
    have hreinit : SameSession s (if m.senderStatus ∈ [some .keySent, some .keyReceived] then
          s.gscSessionsReinit peer else s) peer := by
      split
      · exact setSession_sameSession s (by simp)
      · exact .refl s peer
    have hderives : ∀ status : KxState,
        status = (if kx.status.live then .rekeySent else .keyReceived) →
        confirmKey (if m.senderStatus ∈ [some .keySent, some .keyReceived] then
            s.gscSessionsReinit peer else s) peer
          { deriveSessionKeys { kx with
                otherEphemeralKey := m.ephemeralKey
                foreignKeyExpires := m.expirationTime }
              env.me peer s.myEphemeralKey nonce with status := status }
          m.senderStatus = some s' →
        PeerTransition env s s' peer (.ephemeralKey peer now nonce m) := by
      rintro status rfl hconfirm
      obtain ⟨⟨retry, hstep⟩, hsessions⟩ := confirmKey_step hconfirm
      refine ⟨kx, _, [], hkx, hstep.afterSession hreinit, ?_⟩
      rw [hsessions, hreinit.session]
      exact .derives retry haccepts
    simp only [deriveSessionKeys_status] at h
    split at h
    next hstatus =>
      split at h
      · cases h
      · exact hderives .keyReceived (by simp [hstatus, live]) h
    next hstatus =>
      split at h
      · cases h
      · exact hderives .keyReceived (by simp [hstatus, live]) h
    next hstatus =>
      split at h
      · cases h
      · exact hderives .keyReceived (by simp [hstatus, live]) h
    next hstatus =>
      exact hderives .rekeySent (by simp [hstatus, live]) h
    next hstatus =>
      exact hderives .rekeySent (by simp [hstatus, live]) h
  · rw [if_neg haccepts] at h
    cases h
    exact unchanged_transition hkx

theorem handlePing_transition (seed : Nat) (m : PingMessage D) :
    PeerTransition env s (s.handlePing env peer kx seed m) peer event := by
  have hsend : ∀ pong : CoreMessage D, PeerTransition env s (s.mqSend peer pong) peer event := by
    intro pong
    exact ⟨kx, kx, [], hkx, (PeerStep.ofKx hkx).beforeSession (mqSend_sameSession s peer peer pong),
      .idle kx.ping kx.pingChallenge kx.timeout kx.lastSequenceNumberSent kx.retrySetKeyTask⟩
  unfold handlePing
  split
  · split
    · split
      · exact hsend _
      · exact unchanged_transition hkx
    · exact unchanged_transition hkx
  · exact unchanged_transition hkx

theorem handlePong_transition (h : s.handlePong env peer kx now m = some s') :
    PeerTransition env s s' peer (.pong peer now m) := by
  unfold handlePong at h
  split at h
  · cases h
    exact unchanged_transition hkx
  split at h
  next hvalid =>
    have hconfirms : ∀ session : Bool, kx.status.keyed = true →
        session = ((s.sessions peer).isSome || !kx.status.live) →
        Transition env s.myEphemeralKey peer kx (s.sessions peer).isSome (.pong peer now m)
          (updateTimeout { kx with status := .up, retrySetKeyTask := false } now)
          session [] := by
      rintro session hkeyed rfl
      exact .confirms _ hkeyed hvalid
    dsimp only at h
    split at h
    · cases h
    · cases h
    next hstatus =>
      obtain ⟨_, hcreate, hset⟩ := bind_eq_some_iff.mp h
      unfold gscSessionsCreate at hcreate
      split at hcreate
      · cases hcreate
      split at hset
      · cases hset
      cases hcreate
      cases hset
      exact ⟨kx, _, [], hkx, PeerStep.afterSetSession (PeerStep.setKx _ peer _),
        hconfirms _ (by simp [hstatus, keyed]) (by simp [hstatus, live, setSession, setKx])⟩
    next hstatus =>
      cases h
      have hup : ({ kx with retrySetKeyTask := false } : KeyExchangeInfo D) =
          { kx with status := .up, retrySetKeyTask := false } := by
        rw [← hstatus]
      rw [hup]
      exact ⟨kx, _, [], hkx, PeerStep.setKx s peer _, hconfirms _ (by simp [hstatus, keyed])
          (by simp [hstatus, live, setKx])⟩
    next hstatus =>
      cases h
      exact ⟨kx, _, [], hkx, PeerStep.setKx s peer _, hconfirms _ (by simp [hstatus, keyed])
          (by simp [hstatus, live, setKx])⟩
  · cases h
    exact unchanged_transition hkx

theorem expires_transition (hexpires : kx.keepAliveTask = true ∨ kx.status = .up)
    (h : (s.gscSessionsEnd peer).sendKey peer
      { kx with keepAliveTask := false, status := .keySent } = some s') :
    PeerTransition env s s' peer event := by
  obtain ⟨hstep, hsessions⟩ := sendKey_step h
  refine ⟨kx, _, [], hkx, PeerStep.afterSetSession hstep, ?_⟩
  have hnone : (s'.sessions peer).isSome = false := by
    simp [hsessions, gscSessionsEnd, setSession]
  rw [hnone]
  exact .expires hexpires

theorem sendKeepAlive_transition (htask : kx.keepAliveTask = true)
    (h : s.sendKeepAlive peer kx now nonce = some s') : PeerTransition env s s' peer event := by
  unfold sendKeepAlive at h
  dsimp only at h
  split at h
  · exact expires_transition hkx (.inl htask) h
  · simp only [some.injEq] at h
    subst h
    refine ⟨kx, _, [], hkx, PeerStep.afterSession
      (mqSend_sameSession s peer _ _) (PeerStep.setKx _ peer _), ?_⟩
    rw [← htask]
    exact .idle _ _ kx.timeout kx.lastSequenceNumberSent kx.retrySetKeyTask

theorem setKeyRetryTask_transition (h : s.setKeyRetryTask peer kx = some s') :
    PeerTransition env s s' peer event := by
  unfold setKeyRetryTask at h
  dsimp only at h
  split at h
  · cases h
  · obtain ⟨hstep, hsessions⟩ := sendKey_step h
    refine ⟨kx, _, [], hkx, hstep, ?_⟩
    rw [hsessions]
    exact .idle kx.ping kx.pingChallenge kx.timeout kx.lastSequenceNumberSent true

theorem gscKxEncryptAndTransmit_transition (now seed : Nat) (payload : D) :
    PeerTransition env s (s.gscKxEncryptAndTransmit peer kx now seed payload) peer event :=
  ⟨kx, _, [], hkx, (PeerStep.setKx s peer _).beforeSession (mqSend_sameSession _ peer _ _),
    .idle kx.ping kx.pingChallenge kx.timeout _ kx.retrySetKeyTask⟩

theorem handleEncrypted_transition (h : s.handleEncrypted env peer kx now headers m = some s') :
    PeerTransition env s s' peer (.encrypted peer now headers m) := by
  unfold handleEncrypted at h
  split at h
  · cases h
    exact unchanged_transition hkx
  rename_i hup
  have hup := not_not.mp hup
  split at h
  · exact expires_transition hkx (.inr hup) h
  split at h
  next hvalid =>
    dsimp only at h
    split at h
    · cases h
      exact unchanged_transition hkx
    next kx' hcheck =>
      split at h
      · cases h
        exact ⟨kx, kx', [], hkx, PeerStep.setKx s peer kx', .ignores hup hvalid hcheck⟩
      · have hsession := deliverMessages_sameSession h
        have hstep := PeerStep.setKx s peer (kx'.updateTimeout now)
        refine ⟨kx, _, _, hkx, (hstep.deliver _).beforeSession hsession, ?_⟩
        rw [hsession.session]
        exact .receives hup hvalid hcheck
  · cases h
    exact unchanged_transition hkx

end Service

def CoreEvent.peer? : CoreEvent D → Option Nat
  | .connect _ | .disconnect _ | .rekey _ _ => none
  | .ephemeralKey peer _ _ _ | .ping peer _ _ | .pong peer _ _
  | .encrypted peer _ _ _ | .setKeyRetry peer | .keepAlive peer _ _
  | .transmitTypemap peer _ _ _ | .transmit peer _ _ _ => some peer

theorem Service.step_transition {event : CoreEvent D} (hpeer : event.peer? = some peer)
    (henabled : Enabled s event) (h : s.step env event = some s') :
    PeerTransition env s s' peer event := by
  cases event with
  | connect => cases hpeer
  | disconnect => cases hpeer
  | rekey => cases hpeer
  | ephemeralKey =>
    cases hpeer
    obtain ⟨kx, hkx, hstep⟩ := bind_eq_some_iff.mp h
    exact handleEphemeralKey_transition hkx hstep
  | ping =>
    cases hpeer
    obtain ⟨kx, hkx, rfl⟩ := map_eq_some_iff.mp h
    exact handlePing_transition hkx _ _
  | pong =>
    cases hpeer
    obtain ⟨kx, hkx, hstep⟩ := bind_eq_some_iff.mp h
    exact handlePong_transition hkx hstep
  | encrypted =>
    cases hpeer
    obtain ⟨kx, hkx, hstep⟩ := bind_eq_some_iff.mp h
    exact handleEncrypted_transition hkx hstep
  | setKeyRetry =>
    cases hpeer
    obtain ⟨kx, hkx, hstep⟩ := bind_eq_some_iff.mp h
    exact setKeyRetryTask_transition hkx hstep
  | keepAlive =>
    cases hpeer
    obtain ⟨kx, hkx, hstep⟩ := bind_eq_some_iff.mp h
    simp only [Enabled, hkx, any_some] at henabled
    exact sendKeepAlive_transition hkx henabled hstep
  | transmitTypemap =>
    cases hpeer
    obtain ⟨kx, hkx, rfl⟩ := map_eq_some_iff.mp h
    exact gscKxEncryptAndTransmit_transition hkx _ _ _
  | transmit =>
    cases hpeer
    obtain ⟨_, hkx, rfl⟩ := map_eq_some_iff.mp h
    exact gscKxEncryptAndTransmit_transition hkx _ _ _

end Gnunet.Core
