import Gnunet.CoreSessionMap

/-!
# Session keys and the current ephemeral key

`do_rekey` changes the ephemeral key of the service for all peers, but derives
new session keys only for the peers that are `UP`.  The keys of a record are
current as long as no handshake is under way at that time, and as long as the
ephemeral keys of the other peers are points.
-/

namespace Gnunet.Core

open Protocol Service KeyExchangeInfo

variable {D : Type}

def KeysDerived (me peer : Nat) (myEphemeralKey : Bytes D) (kx : KeyExchangeInfo D) : Prop :=
  ∃ keyMaterial, Term.ecdh? myEphemeralKey kx.otherEphemeralKey = some keyMaterial ∧
      kx.encryptKey = deriveAesKey me peer keyMaterial ∧
      kx.decryptKey = deriveAesKey peer me keyMaterial

structure KeysCurrent (env : CoreEnv D) (s : Service D) : Prop where
  announced : s.currentEkm.ephemeralKey = s.myEphemeralKey.publicKey
  derived : ∀ peer kx, s.kxs peer = some kx → kx.status.keyed = true →
    KeysDerived env.me peer s.myEphemeralKey kx

/-- The condition on a step: rekeying finds no handshake under way, and an
ephemeral key that is accepted is a point. -/
def DerivesKeys [DecidableEq D] (s : Service D) : CoreEvent D → Prop
  | .rekey _ _ => ∀ peer ∈ s.kxList, ∀ kx ∈ s.kxs peer,
      kx.status ≠ .keyReceived ∧ kx.status ≠ .rekeySent
  | .ephemeralKey peer now _ m => ∀ kx ∈ s.kxs peer,
      acceptsEphemeralKey peer kx now m = true →
        (Term.ecdh? s.myEphemeralKey m.ephemeralKey).isSome = true
  | _ => True

instance [DecidableEq D] (s : Service D) : DecidablePred (DerivesKeys s) := fun event => by
  refine event.casesOn ?_ ?_ ?_ ?_ ?_ ?_ ?_ ?_ ?_ ?_ ?_ <;>
    intros <;> dsimp only [DerivesKeys] <;> infer_instance

variable {peer : Nat} {myEphemeralKey : Bytes D} {kx : KeyExchangeInfo D}

theorem keysDerived_deriveSessionKeys
    (hpoint : (Term.ecdh? myEphemeralKey kx.otherEphemeralKey).isSome = true) (nonce : Nonce) :
    KeysDerived me peer myEphemeralKey (kx.deriveSessionKeys me peer myEphemeralKey nonce) := by
  obtain ⟨keyMaterial, hmaterial⟩ := Option.isSome_iff_exists.mp hpoint
  refine ⟨keyMaterial, ?_, ?_, ?_⟩
  · simp [deriveSessionKeys, hmaterial, setupFreshPing]
  · simp [deriveSessionKeys, hmaterial, setupFreshPing]
  · simp [deriveSessionKeys, hmaterial, setupFreshPing]

theorem KeysDerived.ecdh_isSome (h : KeysDerived me peer myEphemeralKey kx) (n : Nat) :
    (Term.ecdh? (.secret n) kx.otherEphemeralKey).isSome = true := by
  obtain ⟨_, hmaterial, _⟩ := h
  cases hother : kx.otherEphemeralKey with
  | point y => rfl
  | _ => cases myEphemeralKey <;> simp [hother, Term.ecdh?] at hmaterial

/-- Each record has current keys, or it is `UP` and among the `peers` that the
loop of `do_rekey` still has to visit. -/
def KeysPending (env : CoreEnv D) (peers : List Nat) (s : Service D) : Prop :=
  ∀ q kx, s.kxs q = some kx → kx.status.keyed = true → KeysDerived env.me q s.myEphemeralKey kx ∨
      q ∈ peers ∧ kx.status = .up ∧ (Term.ecdh? s.myEphemeralKey kx.otherEphemeralKey).isSome = true

variable {nonce : Nat → Nonce}

theorem KeysPending.afterRekeyKx
    (h : KeysPending env (peer :: peers) s) (hstep : s.rekeyKx env nonce peer = some s') :
    KeysPending env peers s' ∧ s'.myEphemeralKey = s.myEphemeralKey ∧
      s'.currentEkm.ephemeralKey = s.currentEkm.ephemeralKey := by
  obtain ⟨kx, hkx, hframe, _⟩ := rekeyKx_step hstep
  refine ⟨?_, hframe.myEphemeralKey, hframe.announced⟩
  intro q kxq hkxq hkeyed
  rw [hframe.myEphemeralKey]
  by_cases hq : q = peer
  · subst hq
    left
    rw [hframe.kx, Option.some.injEq] at hkxq
    subst hkxq
    unfold rekeyed at hkeyed ⊢
    by_cases hup : kx.status = .up
    · rw [if_pos hup]
      have hpoint : (Term.ecdh? s.myEphemeralKey kx.otherEphemeralKey).isSome = true := by
        rcases h q kx hkx (by simp [hup, KxState.keyed]) with
          ⟨keyMaterial, hmaterial, _⟩ | ⟨_, _, hpoint⟩
        · simp [hmaterial]
        · exact hpoint
      have hderived : KeysDerived env.me q s.myEphemeralKey
          (deriveSessionKeys { kx with status := .rekeySent }
            env.me q s.myEphemeralKey (nonce q)) := by
        apply keysDerived_deriveSessionKeys
        exact hpoint
      exact hderived
    · rw [if_neg hup] at hkeyed ⊢
      by_cases hdown : kx.status = .down
      · simp [hdown, KxState.keyed] at hkeyed
      · rw [if_neg hdown] at hkeyed ⊢
        rcases h q kx hkx hkeyed with hderived | ⟨_, hup', _⟩
        · exact hderived
        · exact absurd hup' hup
  · rw [hframe.kxs q hq] at hkxq
    rcases h q kxq hkxq hkeyed with hderived | ⟨hmem, hup, hpoint⟩
    · exact .inl hderived
    · exact .inr ⟨(List.mem_cons.mp hmem).resolve_left hq, hup, hpoint⟩

theorem KeysPending.afterRekeyAll
    (h : KeysPending env peers s) (hstep : peers.foldlM (rekeyKx env nonce) s = some s') :
    KeysPending env [] s' ∧ s'.myEphemeralKey = s.myEphemeralKey ∧
      s'.currentEkm.ephemeralKey = s.currentEkm.ephemeralKey := by
  induction peers generalizing s with
  | nil =>
    cases hstep
    exact ⟨h, rfl, rfl⟩
  | cons peer peers ih =>
    rw [List.foldlM_cons] at hstep
    obtain ⟨_, hpeer, hrest⟩ := Option.bind_eq_some_iff.mp hstep
    obtain ⟨h₁, hkey₁, hekm₁⟩ := h.afterRekeyKx hpeer
    obtain ⟨h', hkey', hekm'⟩ := ih h₁ hrest
    exact ⟨h', hkey'.trans hkey₁, hekm'.trans hekm₁⟩

/-! ## Steps -/

section

variable {env : CoreEnv D} {s s' : Service D} {event : CoreEvent D}

theorem KeysCurrent.ofPeerStep (h : KeysCurrent env s) (hframe : PeerStep s s' peer kx new)
    (hderived : kx.status.keyed = true → KeysDerived env.me peer s.myEphemeralKey kx) :
    KeysCurrent env s' := by
  constructor
  · rw [hframe.announced, hframe.myEphemeralKey]
    exact h.announced
  · intro q kxq hkxq hkeyed
    rw [hframe.myEphemeralKey]
    by_cases hq : q = peer
    · subst hq
      rw [hframe.kx, Option.some.injEq] at hkxq
      subst hkxq
      exact hderived hkeyed
    · rw [hframe.kxs q hq] at hkxq
      exact h.derived q kxq hkxq hkeyed

theorem KeysCurrent.afterConnect (h : KeysCurrent env s)
    (hstep : s.handleTransportNotifyConnect env peer = some s') : KeysCurrent env s' := by
  obtain ⟨hframe, _⟩ := handleTransportNotifyConnect_step hstep
  have hlisted : KeysCurrent env { s with kxList := peer :: s.kxList } := ⟨h.announced, h.derived⟩
  refine hlisted.ofPeerStep hframe fun hkeyed => ?_
  simp [newKx, KxState.keyed] at hkeyed

theorem KeysCurrent.afterDisconnect (h : KeysCurrent env s) (peer : Nat) :
    KeysCurrent env (s.handleTransportNotifyDisconnect peer) := by
  refine ⟨h.announced, ?_⟩
  intro q kx hkx hkeyed
  by_cases hq : q = peer
  · subst hq
    simp [handleTransportNotifyDisconnect] at hkx
  · simp only [handleTransportNotifyDisconnect,
      Function.update_of_ne hq] at hkx
    exact h.derived q kx hkx hkeyed

variable [DecidableEq D]

theorem Transition.keysDerived
    (htransition : Transition env myEphemeralKey peer kx session event kx' session' new)
    (hpoint : ∀ now nonce m, event = .ephemeralKey peer now nonce m →
      acceptsEphemeralKey peer kx now m = true →
        (Term.ecdh? myEphemeralKey m.ephemeralKey).isSome = true)
    (h : kx.status.keyed = true → KeysDerived env.me peer myEphemeralKey kx)
    (hkeyed : kx'.status.keyed = true) : KeysDerived env.me peer myEphemeralKey kx' := by
  cases htransition with
  | idle => exact h hkeyed
  | derives retry haccepts =>
    exact keysDerived_deriveSessionKeys (hpoint _ _ _ rfl haccepts) _
  | confirms timeout hkeyed' => exact h hkeyed'
  | expires => simp [KxState.keyed] at hkeyed
  | ignores hup _ hcheck =>
    rw [checkSequenceNumber_eq hcheck] at hkeyed ⊢
    exact h hkeyed
  | receives hup _ hcheck =>
    rw [checkSequenceNumber_eq hcheck] at hkeyed ⊢
    exact h hkeyed

theorem KeysCurrent.afterPeer (h : KeysCurrent env s) (hcondition : DerivesKeys s event)
    (htransition : PeerTransition env s s' peer event) : KeysCurrent env s' := by
  obtain ⟨kx, _, _, hkx, hframe, htransition⟩ := htransition
  refine h.ofPeerStep hframe fun hkeyed =>
    htransition.keysDerived ?_ (h.derived peer kx hkx) hkeyed
  rintro now nonce m rfl haccepts
  exact hcondition kx hkx haccepts

theorem KeysCurrent.afterRekey (h : KeysCurrent env s) (hconsistent : Consistent s)
    (hcondition : DerivesKeys s (.rekey now nonce)) (hstep : s.doRekey env now nonce = some s') :
    KeysCurrent env s' := by
  have hpending : KeysPending env s.kxList (signEphemeralKey env
        { s with myEphemeralKey := .secret s.fresh, fresh := s.fresh + 1 }
        now) := by
    intro q kx hkx hkeyed
    have hmem : q ∈ s.kxList := (hconsistent.listed q).mpr (Option.isSome_iff_exists.mpr ⟨kx, hkx⟩)
    obtain ⟨_, _⟩ := hcondition q hmem kx hkx
    refine .inr ⟨hmem, ?_, (h.derived q kx hkx hkeyed).ecdh_isSome s.fresh⟩
    cases hstatus : kx.status <;> simp_all [KxState.keyed]
  obtain ⟨hdone, hkey, hekm⟩ := hpending.afterRekeyAll hstep
  constructor
  · rw [hekm, hkey]
    rfl
  · intro q kx hkx hkeyed
    rcases hdone q kx hkx hkeyed with hderived | ⟨hmem, _⟩
    · exact hderived
    · cases hmem

theorem KeysCurrent.afterStep (h : KeysCurrent env s)
    (hconsistent : Consistent s) (henabled : Enabled s event) (hcondition : DerivesKeys s event)
    (hstep : s.step env event = some s') : KeysCurrent env s' := by
  cases hpeer : event.peer? with
  | some peer =>
    exact h.afterPeer hcondition (step_transition hpeer henabled hstep)
  | none =>
    cases event with
    | connect peer => exact h.afterConnect hstep
    | disconnect peer =>
      cases hstep
      exact h.afterDisconnect peer
    | rekey now nonce => exact h.afterRekey hconsistent hcondition hstep
    | _ => cases hpeer

end

section

variable [DecidableEq D]

/-- In every run that meets the condition, the session keys fit the present ephemeral keys. -/
theorem session_keys_current (env : CoreEnv D) (now fresh : Nat)
    {events : List (CoreEvent D)} {s : Service D}
    (hrun : Run (step env)
      (fun s event => Enabled s event ∧ DerivesKeys s event)
      (gscKxInit env now fresh) events s) :
    KeysCurrent env s := by
  have hinv := hrun.invariant
    (fun s => Consistent s ∧ KeysCurrent env s)
    ⟨Consistent.init env now fresh, rfl, by simp [gscKxInit, signEphemeralKey]⟩
    (fun _ _ _ hbefore hguard hstep =>
      ⟨hbefore.1.afterStep hguard.1 hstep,
        hbefore.2.afterStep hbefore.1 hguard.1 hguard.2 hstep⟩)
  exact hinv.2

end

theorem session_keys_current_connected :
    ∃ s, Run (step (plainCoreEnv 1))
        (fun s event => Enabled s event ∧ DerivesKeys s event)
        (gscKxInit (plainCoreEnv 1) 0 10)
        (connectEvents ++ [.rekey 0 fun _ => ⟨8, 0⟩]) s ∧
      (s.kxs 2).any (fun kx => kx.status = .rekeySent) = true ∧
      KeysCurrent (plainCoreEnv 1) s :=
  Run.exists_of_exec_and (by decide +kernel) fun _ hrun _ =>
    session_keys_current (plainCoreEnv 1) 0 10 hrun

def rekeyInHandshake : List (CoreEvent Nat) :=
  connectEvents.take 2 ++ [.rekey 0 fun _ => ⟨8, 0⟩]

theorem stale_session_keys :
    ∃ s, Run (step (plainCoreEnv 1)) Enabled
        (gscKxInit (plainCoreEnv 1) 0 10) rekeyInHandshake s ∧
      ¬ KeysCurrent (plainCoreEnv 1) s := by
  obtain ⟨s, hrun, hstale⟩ :
      ∃ s, Run (step (plainCoreEnv 1)) Enabled
          (gscKxInit (plainCoreEnv 1) 0 10) rekeyInHandshake s ∧
        (s.kxs 2).any (fun kx => decide (kx.status.keyed = true ∧
          s.myEphemeralKey = .secret 11 ∧
          kx.otherEphemeralKey = .point 20 ∧
          kx.encryptKey = firstKey 1 2)) = true :=
    Run.of_exec_any (by decide +kernel)
  refine ⟨s, hrun, ?_⟩
  intro hcurrent
  obtain ⟨kx, hkx, hstale⟩ := (Option.any_eq_true ..).mp hstale
  obtain ⟨hkeyed, hown, hother, hkey⟩ := of_decide_eq_true hstale
  obtain ⟨_, hmaterial, hencrypt, _⟩ :=
    hcurrent.derived 2 kx hkx hkeyed
  rw [hown, hother] at hmaterial
  rw [hkey] at hencrypt
  cases hmaterial
  simp [firstKey, deriveAesKey, cryptoKdf] at hencrypt

end Gnunet.Core
