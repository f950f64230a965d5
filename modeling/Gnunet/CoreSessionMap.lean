import Gnunet.CoreTransitions

/-!
# Sessions and states of the key exchange

In every reachable state there is a session for a peer, and the keep-alive
task is scheduled, exactly in the states `UP` and `REKEY_SENT`.  This is why
the assertions of the handlers hold.
-/

namespace Gnunet.Core

open Protocol Option KeyExchangeInfo Service KxState

variable {D : Type}

structure KxConsistent (kx : KeyExchangeInfo D) (session : Bool) : Prop where
  status : kx.status ≠ .down
  session_eq : session = kx.status.live
  keepAlive : kx.keepAliveTask = kx.status.live

structure Consistent (s : Service D) : Prop where
  listed : ∀ peer, peer ∈ s.kxList ↔ (s.kxs peer).isSome
  nodup : s.kxList.Nodup
  record : ∀ peer kx, s.kxs peer = some kx → KxConsistent kx (s.sessions peer).isSome
  noRecord : ∀ peer, s.kxs peer = none → s.sessions peer = none

variable {kx kx' : KeyExchangeInfo D}

theorem KeyExchangeInfo.checkSequenceNumber_eq
    (h : kx.checkSequenceNumber snum = some kx') :
    kx' = { kx with
      lastPacketsBitmap := kx'.lastPacketsBitmap
      lastSequenceNumberReceived := kx'.lastSequenceNumberReceived } := by
  simp only [checkSequenceNumber] at h
  split_ifs at h
  · cases h
    rfl
  · cases h
    rfl
  · cases h
    rfl

/-! ## Steps -/

section

variable {s s' : Service D} {peer : Nat} {new : List (Delivery D)}

theorem Consistent.afterPeerStep (h : Consistent s) (hkx : s.kxs peer = some kx)
    (hstep : PeerStep s s' peer kx' new)
    (hconsistent : KxConsistent kx' (s'.sessions peer).isSome) : Consistent s' := by
  constructor
  · intro q
    rw [hstep.kxList, h.listed q]
    by_cases hq : q = peer
    · subst hq
      simp [hkx, hstep.kx]
    · rw [hstep.kxs q hq]
  · rw [hstep.kxList]
    exact h.nodup
  · intro q kxq hkxq
    by_cases hq : q = peer
    · subst hq
      rw [hstep.kx, some.injEq] at hkxq
      exact hkxq ▸ hconsistent
    · rw [hstep.kxs q hq] at hkxq
      rw [hstep.sessions q hq]
      exact h.record q kxq hkxq
  · intro q hnone
    by_cases hq : q = peer
    · subst hq
      simp [hstep.kx] at hnone
    · rw [hstep.kxs q hq] at hnone
      rw [hstep.sessions q hq]
      exact h.noRecord q hnone

theorem Consistent.afterConnect (h : Consistent s) (hnone : s.kxs peer = none)
    (hstep : s.handleTransportNotifyConnect env peer = some s') : Consistent s' := by
  obtain ⟨hpeer, hsessions⟩ := handleTransportNotifyConnect_step hstep
  have hnotListed : peer ∉ s.kxList := by
    rw [h.listed peer, hnone]
    simp
  constructor
  · intro q
    rw [hpeer.kxList, List.mem_cons]
    by_cases hq : q = peer
    · subst hq
      simp [hpeer.kx]
    · rw [hpeer.kxs q hq]
      simpa [hq] using h.listed q
  · rw [hpeer.kxList]
    exact List.nodup_cons.mpr ⟨hnotListed, h.nodup⟩
  · intro q kx hkx
    rw [hsessions]
    by_cases hq : q = peer
    · subst hq
      rw [hpeer.kx, some.injEq] at hkx
      subst hkx
      rw [h.noRecord q hnone]
      exact ⟨by simp [newKx], rfl, rfl⟩
    · rw [hpeer.kxs q hq] at hkx
      exact h.record q kx hkx
  · intro q hq_none
    rw [hsessions]
    by_cases hq : q = peer
    · subst hq
      exact h.noRecord q hnone
    · rw [hpeer.kxs q hq] at hq_none
      exact h.noRecord q hq_none

theorem Consistent.afterDisconnect (h : Consistent s) (peer : Nat) :
    Consistent (s.handleTransportNotifyDisconnect peer) := by
  unfold handleTransportNotifyDisconnect gscSessionsEnd setSession
  constructor
  · intro q
    rw [h.nodup.mem_erase_iff]
    by_cases hq : q = peer
    · subst hq
      simp
    · simpa [hq] using h.listed q
  · exact h.nodup.erase peer
  · intro q kx hkx
    by_cases hq : q = peer
    · subst hq
      simp at hkx
    · simp only [Function.update_of_ne hq] at hkx ⊢
      exact h.record q kx hkx
  · intro q hnone
    by_cases hq : q = peer
    · subst hq
      simp
    · simp only [Function.update_of_ne hq] at hnone ⊢
      exact h.noRecord q hnone

variable {session : Bool}

theorem KxConsistent.afterRekeyed (h : KxConsistent kx session) (me : Nat)
    (myEphemeralKey : Bytes D) (nonce : Nonce) :
    KxConsistent { kx.rekeyed me peer myEphemeralKey nonce with
        retrySetKeyTask := true } session := by
  have hstatus := h.status
  unfold rekeyed
  by_cases hup : kx.status = .up
  · rw [if_pos hup]
    constructor
    · simp
    · simpa [hup, live] using h.session_eq
    · simpa [hup, live] using h.keepAlive
  · rw [if_neg hup, if_neg hstatus]
    exact ⟨h.status, h.session_eq, h.keepAlive⟩

variable {nonce : Nat → Nonce}

theorem Consistent.afterRekeyKx (h : Consistent s)
    (hstep : s.rekeyKx env nonce peer = some s') : Consistent s' := by
  obtain ⟨kx, hkx, hpeer, hsessions⟩ := rekeyKx_step hstep
  refine h.afterPeerStep hkx hpeer ?_
  rw [hsessions]
  exact (h.record peer kx hkx).afterRekeyed env.me s.myEphemeralKey (nonce peer)

theorem Consistent.afterRekeyAll {peers : List Nat} (h : Consistent s)
    (hstep : peers.foldlM (rekeyKx env nonce) s = some s') : Consistent s' :=
  (Run.of_foldlM hstep).invariant Consistent h
    (fun _ _ _ hbefore _ hpeer => hbefore.afterRekeyKx hpeer)

theorem rekeyed_status_ne_up (kx : KeyExchangeInfo D) (me : Nat)
    (myEphemeralKey : Bytes D) (nonce : Nonce) :
    (kx.rekeyed me peer myEphemeralKey nonce).status ≠ .up := by
  unfold rekeyed
  split_ifs <;> simp_all

theorem rekeyAll_up {peers : List Nat}
    (hstep : peers.foldlM (rekeyKx env nonce) s = some s') {q : Nat}
    (hkx' : s'.kxs q = some kx') (hup' : kx'.status = .up) :
    ∃ kx, s.kxs q = some kx ∧ kx.status = .up := by
  refine (Run.of_foldlM hstep).invariant (fun s' => ∀ kx', s'.kxs q = some kx' → kx'.status = .up →
      ∃ kx, s.kxs q = some kx ∧ kx.status = .up)
    (fun kx hkx hup => ⟨kx, hkx, hup⟩) ?_ kx' hkx' hup'
  intro before peer after hbefore _ hpeer kx₁ hkx₁ hup₁
  obtain ⟨kx, _, hframe, _⟩ := rekeyKx_step hpeer
  by_cases hq : q = peer
  · subst hq
    rw [hframe.kx, some.injEq] at hkx₁
    subst hkx₁
    exact absurd hup₁ (rekeyed_status_ne_up kx env.me _ _)
  · rw [hframe.kxs q hq] at hkx₁
    exact hbefore kx₁ hkx₁ hup₁

theorem Service.sendKey_isSome (hstatus : kx.status ≠ .down) : (s.sendKey peer kx).isSome := by
  simp [sendKey, hstatus]

theorem Service.confirmKey_isSome (hstatus : kx.status ≠ .down) (senderStatus : Option KxState) :
    (s.confirmKey peer kx senderStatus).isSome := by
  unfold confirmKey
  split
  · exact sendKey_isSome hstatus
  · rfl

theorem Service.gscClientsDeliverMessage_isSome (env : CoreEnv D)
    (hsession : (s.sessions peer).isSome) (type msize : Nat) (wanted : Bool) :
    (s.gscClientsDeliverMessage env peer type msize wanted).isSome := by
  unfold gscClientsDeliverMessage gscSessionsAddToTypemap
  split_ifs <;> simp_all

theorem Service.deliverMessage_isSome (env : CoreEnv D) (headers : Bool)
    (hsession : (s.sessions peer).isSome) (m : Inbound) :
    (deliverMessage env headers peer s m).isSome := by
  unfold deliverMessage
  split
  · rfl
  · cases m with
    | typeMap types => rfl
    | confirmTypeMap current => rfl
    | other type size =>
      obtain ⟨_, hfull⟩ := isSome_iff_exists.mp
        (gscClientsDeliverMessage_isSome env hsession type size true)
      have hsame := gscClientsDeliverMessage_sameSession hfull
      simp only [hfull, bind_some]
      exact gscClientsDeliverMessage_isSome env (hsame.session.trans hsession) type 4 headers

theorem Service.deliverMessages_isSome (env : CoreEnv D) (headers : Bool)
    (hsession : (s.sessions peer).isSome) (messages : List Inbound) :
    (messages.foldlM (deliverMessage env headers peer) s).isSome := by
  refine foldlM_isSome (fun s => (s.sessions peer).isSome) ?_ hsession
  intro before m _ hbefore
  obtain ⟨after, hafter⟩ := isSome_iff_exists.mp (deliverMessage_isSome env headers hbefore m)
  exact ⟨after, hafter, (deliverMessage_sameSession hafter).session.trans hbefore⟩

theorem Service.rekeyKx_isSome (hkx : s.kxs peer = some kx) (h : KxConsistent kx session)
    (env : CoreEnv D) (nonce : Nat → Nonce) : (s.rekeyKx env nonce peer).isSome := by
  have hstatus := h.status
  unfold rekeyKx
  rw [hkx, bind_some]
  apply sendKey_isSome
  by_cases hup : kx.status = .up <;> simp [hup, hstatus]

theorem Consistent.rekeyAll_isSome (h : Consistent s) (env : CoreEnv D) (nonce : Nat → Nonce) :
    (s.kxList.foldlM (rekeyKx env nonce) s).isSome := by
  refine foldlM_isSome (fun s' => Consistent s' ∧ s'.kxList = s.kxList) ?_ ⟨h, rfl⟩
  rintro before peer hpeer ⟨hbefore, hlist⟩
  rw [← hlist, hbefore.listed peer] at hpeer
  obtain ⟨kx, hkx⟩ := isSome_iff_exists.mp hpeer
  obtain ⟨after, hafter⟩ := isSome_iff_exists.mp
    (rekeyKx_isSome hkx (hbefore.record peer kx hkx) env nonce)
  obtain ⟨_, _, hframe, _⟩ := rekeyKx_step hafter
  exact ⟨after, hafter, hbefore.afterRekeyKx hafter, hframe.kxList.trans hlist⟩

variable [DecidableEq D] {env : CoreEnv D} {event : CoreEvent D}

theorem KxConsistent.afterTransition {myEphemeralKey : Bytes D} (h : KxConsistent kx session)
    (htransition : Transition env myEphemeralKey peer kx session event kx' session' new) :
    KxConsistent kx' session' := by
  cases htransition with
  | idle => exact ⟨h.status, h.session_eq, h.keepAlive⟩
  | derives retry haccepts =>
    have hsession := h.session_eq
    have hkeepAlive := h.keepAlive
    constructor
    · split <;> simp
    · split <;> simp_all [live]
    · split <;> simp_all [live]
  | confirms =>
    refine ⟨by simp, ?_, rfl⟩
    simp [h.session_eq, live]
  | expires => exact ⟨by simp, rfl, rfl⟩
  | ignores hup _ hcheck =>
    rw [checkSequenceNumber_eq hcheck]
    exact ⟨h.status, h.session_eq, h.keepAlive⟩
  | receives hup _ hcheck =>
    rw [checkSequenceNumber_eq hcheck]
    refine ⟨h.status, h.session_eq, ?_⟩
    simp [updateTimeout, hup, live]

theorem Consistent.afterStep (h : Consistent s) (henabled : Enabled s event)
    (hstep : s.step env event = some s') : Consistent s' := by
  cases hpeer : event.peer? with
  | some peer =>
    obtain ⟨kx, _, _, hkx, hframe, htransition⟩ := step_transition hpeer henabled hstep
    exact h.afterPeerStep hkx hframe ((h.record peer kx hkx).afterTransition htransition)
  | none =>
    cases event with
    | connect peer => exact h.afterConnect henabled hstep
    | disconnect peer =>
      cases hstep
      exact h.afterDisconnect peer
    | rekey now nonce =>
      refine Consistent.afterRekeyAll ?_ hstep
      exact ⟨h.listed, h.nodup, h.record, h.noRecord⟩
    | _ => cases hpeer

theorem Transition.entersUp {myEphemeralKey : Bytes D}
    (htransition : Transition env myEphemeralKey peer kx session event kx' session' new)
    (hup' : kx'.status = .up) :
    kx.status = .up ∨ ∃ now m, event = .pong peer now m ∧ validPong env peer kx m = true := by
  cases htransition with
  | idle => exact .inl hup'
  | derives =>
    split at hup' <;> cases hup'
  | confirms timeout hkeyed hvalid => exact .inr ⟨_, _, rfl, hvalid⟩
  | expires => cases hup'
  | ignores hup => exact .inl hup
  | receives hup => exact .inl hup

theorem Service.step_entersUp (henabled : Enabled s event) (hstep : s.step env event = some s')
    {q : Nat} (hkx' : s'.kxs q = some kx') (hup' : kx'.status = .up) :
    (∃ kx, s.kxs q = some kx ∧ kx.status = .up) ∨
      ∃ now m kx, event = .pong q now m ∧ s.kxs q = some kx ∧ validPong env q kx m = true := by
  cases hpeer : event.peer? with
  | some peer =>
    obtain ⟨kx, _, _, hkx, hframe, htransition⟩ := step_transition hpeer henabled hstep
    by_cases hq : q = peer
    · subst hq
      rw [hframe.kx, some.injEq] at hkx'
      subst hkx'
      rcases htransition.entersUp hup' with hup | ⟨now, m, rfl, hvalid⟩
      · exact .inl ⟨kx, hkx, hup⟩
      · exact .inr ⟨now, m, kx, rfl, hkx, hvalid⟩
    · rw [hframe.kxs q hq] at hkx'
      exact .inl ⟨kx', hkx', hup'⟩
  | none =>
    left
    cases event with
    | connect peer =>
      obtain ⟨hframe, _⟩ := handleTransportNotifyConnect_step hstep
      by_cases hq : q = peer
      · subst hq
        rw [hframe.kx, some.injEq] at hkx'
        subst hkx'
        cases hup'
      · rw [hframe.kxs q hq] at hkx'
        exact ⟨kx', hkx', hup'⟩
    | disconnect peer =>
      cases hstep
      by_cases hq : q = peer
      · subst hq
        simp [handleTransportNotifyDisconnect] at hkx'
      · refine ⟨kx', ?_, hup'⟩
        simpa [handleTransportNotifyDisconnect, gscSessionsEnd, setSession, hq] using hkx'
    | rekey now nonce =>
      exact rekeyAll_up hstep hkx' hup'
    | _ => cases hpeer

/-! ## Assertions -/

theorem Service.handleEphemeralKey_isSome (h : KxConsistent kx session) (now : Nat)
    (nonce : Nonce) (m : EphemeralKeyMessage D) :
    (s.handleEphemeralKey env peer kx now nonce m).isSome := by
  have hkeepAlive := h.keepAlive
  unfold handleEphemeralKey
  split
  · simp only [deriveSessionKeys_status]
    split
    next hstatus =>
      exact absurd hstatus h.status
    next hstatus =>
      rw [if_neg (by simp [hkeepAlive, hstatus, live])]
      exact confirmKey_isSome (by simp) _
    next hstatus =>
      rw [if_neg (by simp [hkeepAlive, hstatus, live])]
      exact confirmKey_isSome (by simp) _
    · exact confirmKey_isSome (by simp) _
    · exact confirmKey_isSome (by simp) _
  · rfl

theorem Service.handlePong_isSome (h : KxConsistent kx (s.sessions peer).isSome) (now : Nat)
    (m : PongMessage D) : (s.handlePong env peer kx now m).isSome := by
  have hsession := h.session_eq
  have hkeepAlive := h.keepAlive
  unfold handlePong
  cases hstatus : kx.status <;>
    simp_all [live, gscSessionsCreate] <;> split <;> simp_all

theorem Service.handleEncrypted_isSome (h : KxConsistent kx (s.sessions peer).isSome) (now : Nat)
    (headers : Bool) (m : EncryptedMessage D) :
    (s.handleEncrypted env peer kx now headers m).isSome := by
  unfold handleEncrypted
  split
  · rfl
  rename_i hup
  split
  · exact sendKey_isSome (by simp)
  split
  · dsimp only
    split
    · rfl
    split
    · rfl
    · have hsession : (s.sessions peer).isSome = true := by
        rw [h.session_eq, not_not.mp hup]
        rfl
      apply deliverMessages_isSome
      exact hsession
  · rfl

theorem Consistent.step_isSome (h : Consistent s)
    (henabled : Enabled s event) : (s.step env event).isSome := by
  have hrecord : ∀ {peer : Nat}, (s.kxs peer).isSome = true → ∃ kx, s.kxs peer = some kx ∧
        KxConsistent kx (s.sessions peer).isSome := by
    intro peer hsome
    obtain ⟨kx, hkx⟩ := isSome_iff_exists.mp hsome
    exact ⟨kx, hkx, h.record peer kx hkx⟩
  have hsession : ∀ {peer : Nat}, (s.sessions peer).isSome = true → (s.kxs peer).isSome = true := by
    intro peer hsome
    by_contra hnone
    rw [h.noRecord peer (by simpa using hnone)] at hsome
    simp at hsome
  cases event with
  | connect peer =>
    simp only [step, handleTransportNotifyConnect]
    split
    · exact sendKey_isSome (by simp [newKx])
    · rfl
  | disconnect peer => rfl
  | ephemeralKey peer now nonce m =>
    obtain ⟨kx, hkx, hconsistent⟩ := hrecord henabled
    simp only [step, hkx, bind_some]
    exact handleEphemeralKey_isSome hconsistent now nonce m
  | ping peer seed m =>
    obtain ⟨kx, hkx, _⟩ := hrecord henabled
    simp [step, hkx]
  | pong peer now m =>
    obtain ⟨kx, hkx, hconsistent⟩ := hrecord henabled
    simp only [step, hkx, bind_some]
    exact handlePong_isSome hconsistent now m
  | encrypted peer now headers m =>
    obtain ⟨kx, hkx, hconsistent⟩ := hrecord henabled
    simp only [step, hkx, bind_some]
    exact handleEncrypted_isSome hconsistent now headers m
  | setKeyRetry peer =>
    obtain ⟨kx, hkx, _⟩ := (any_eq_true ..).mp henabled
    have hstatus := (h.record peer kx hkx).status
    simp only [step, hkx, bind_some]
    simp only [setKeyRetryTask, if_neg hstatus]
    exact sendKey_isSome hstatus
  | keepAlive peer now nonce =>
    obtain ⟨kx, hkx, _⟩ := (any_eq_true ..).mp henabled
    simp only [step, hkx, bind_some, sendKeepAlive]
    split
    · exact sendKey_isSome (by simp)
    · rfl
  | rekey now nonce =>
    refine Consistent.rekeyAll_isSome ?_ env nonce
    exact ⟨h.listed, h.nodup, h.record, h.noRecord⟩
  | transmitTypemap peer now seed typemap =>
    obtain ⟨_, hmem, _⟩ := (any_eq_true ..).mp henabled
    have hsome : (s.sessions peer).isSome = true := by simp [hmem]
    obtain ⟨kx, hkx, _⟩ := hrecord (hsession hsome)
    simp [step, hkx]
  | transmit peer now seed payload =>
    obtain ⟨_, hkx, _⟩ := hrecord (hsession henabled)
    simp [step, hkx]

end

theorem Consistent.init (env : CoreEnv D) (now fresh : Nat) :
    Consistent (gscKxInit env now fresh) := by
  constructor <;> simp [gscKxInit, signEphemeralKey]

section

variable [DecidableEq D]

structure KeyExchangeSound (env : CoreEnv D) (s : Service D) : Prop where
  session : ∀ peer, (s.sessions peer).isSome = true ↔
    ∃ kx, s.kxs peer = some kx ∧ (kx.status = .up ∨ kx.status = .rekeySent)
  keepAlive : ∀ peer kx, s.kxs peer = some kx →
    (kx.keepAliveTask = true ↔ kx.status = .up ∨ kx.status = .rekeySent)
  entersUp : ∀ event s' peer kx', Enabled s event →
    s.step env event = some s' → s'.kxs peer = some kx' →
    kx'.status = .up →
    (∃ kx, s.kxs peer = some kx ∧ kx.status = .up) ∨
      ∃ now m kx, event = .pong peer now m ∧ s.kxs peer = some kx ∧ validPong env peer kx m = true
  assertions : ∀ event, Enabled s event → s.step env event ≠ none

theorem KxState.live_iff (status : KxState) :
    status.live = true ↔ status = .up ∨ status = .rekeySent := by
  cases status <;> simp [live]

theorem Consistent.sound (h : Consistent s) (env : CoreEnv D) : KeyExchangeSound env s := by
  constructor
  · intro peer
    constructor
    · intro hsession
      cases hkx : s.kxs peer with
      | none => simp [h.noRecord peer hkx] at hsession
      | some kx =>
        refine ⟨kx, rfl, ?_⟩
        rwa [← live_iff, ← (h.record peer kx hkx).session_eq]
    · rintro ⟨kx, hkx, _⟩
      rwa [(h.record peer kx hkx).session_eq, live_iff]
  · intro peer kx hkx
    rw [(h.record peer kx hkx).keepAlive, live_iff]
  · intro event s' peer kx' henabled hstep hkx' hup'
    exact step_entersUp henabled hstep hkx' hup'
  · intro event henabled hnone
    have hsome : (s.step env event).isSome = true := h.step_isSome henabled
    simp [hnone] at hsome

/-- Sessions and keep-alive tasks follow the key exchanges, only a valid pong brings one up, and no
assertion fails. -/
theorem key_exchange_sound (env : CoreEnv D) (now fresh : Nat)
    {events : List (CoreEvent D)} {s : Service D}
    (hrun : Run (step env) Enabled
      (gscKxInit env now fresh) events s) :
    KeyExchangeSound env s := by
  have hconsistent := hrun.invariant Consistent
    (Consistent.init env now fresh)
    (fun _ _ _ hbefore henabled hstep => hbefore.afterStep henabled hstep)
  exact hconsistent.sound env

end

def plainCoreEnv (me : Nat) : CoreEnv Nat where
  me := me
  identityHash := id
  useEphemeralKeys := true
  tokenize _ := []
  garbled _ := ⟨0, 0, 0⟩

def firstKey (sender receiver : Nat) : Bytes Nat :=
  deriveAesKey sender receiver (.shared 10 20)

def connectEvents : List (CoreEvent Nat) :=
  [.connect 2, .ephemeralKey 2 0 ⟨7, 0⟩ { (gscKxInit (plainCoreEnv 2) 0 20).currentEkm with
        senderStatus := some .keySent },
    .pong 2 0
      { ivSeed := 0
        body := cryptoSymmetricEncrypt
          (.pair (.num 7) (.pair (.num 0) (.num 2))) (firstKey 2 1)
          (derivePongIv (firstKey 2 1) 0 7 1) }]

theorem key_exchange_sound_connected :
    ∃ s, Run (step (plainCoreEnv 1)) Enabled
        (gscKxInit (plainCoreEnv 1) 0 10) connectEvents s ∧
      (s.sessions 2).isSome = true ∧
      KeyExchangeSound (plainCoreEnv 1) s :=
  Run.exists_of_exec_and (by decide +kernel) fun _ hrun _ =>
    key_exchange_sound (plainCoreEnv 1) 0 10 hrun

end Gnunet.Core
