import Gnunet.CoreSessionMap

/-!
# Replayed messages of a core connection

`handle_encrypted` keeps the highest sequence number and a bitmap of the 32
numbers before it.  A message that raises the highest number shifts the bitmap,
but the former highest number gets no bit: it is accepted again while it is at
most 32 behind.  The window is also reset whenever session keys are derived,
whether or not they are new.
-/

namespace Gnunet.Core

open Protocol KeyExchangeInfo Service

variable {D : Type}

/-! ## The window -/

/-- What the window knows of a number that was accepted, `highest` if it was
the highest one then. -/
def Recorded (kx : KeyExchangeInfo D) (n : Nat) (highest : Bool) : Prop :=
  let last := kx.lastSequenceNumberReceived
  n ≤ last ∧ (highest = true ∨ n < last ∧
    (32 < last - n ∨ kx.lastPacketsBitmap.getLsbD (last - n - 1) = true))

theorem and_rotbit_ne_zero {bitmap : BitVec 32}
    (hbit : bitmap.getLsbD i = true) : bitmap &&& 1#32 <<< i ≠ 0 := by
  intro hzero
  have hi : i < 32 := BitVec.lt_of_getLsbD hbit
  have hand : (bitmap &&& 1#32 <<< i).getLsbD i = true := by
    simp [hbit, hi]
  rw [hzero] at hand
  simp at hand

variable {kx kx' : KeyExchangeInfo D} {snum : Nat}

theorem KeyExchangeInfo.checkSequenceNumber_window (h : kx.checkSequenceNumber snum = some kx') :
    let last := kx.lastSequenceNumberReceived
    (snum < last ∧ last - snum ≤ 32 ∧ kx.lastPacketsBitmap.getLsbD (last - snum - 1) = false ∧
      kx'.lastSequenceNumberReceived = last ∧
      kx'.lastPacketsBitmap = kx.lastPacketsBitmap ||| 1#32 <<< (last - snum - 1)) ∨
    (last < snum ∧ kx'.lastSequenceNumberReceived = snum ∧ kx'.lastPacketsBitmap =
        if 32 ≤ snum - last then 0
        else kx.lastPacketsBitmap <<< (snum - last)) := by
  simp only [checkSequenceNumber] at h
  split_ifs at h with hsame hancient hlate hbit hshift
  · cases h
    refine .inl ⟨hlate, by omega, ?_, rfl, rfl⟩
    by_contra hset
    exact hbit (and_rotbit_ne_zero (by simpa using hset))
  · cases h
    exact .inr ⟨by omega, rfl, by simp [hshift]⟩
  · cases h
    exact .inr ⟨by omega, rfl, by simp [hshift]⟩

theorem recorded_checkSequenceNumber (h : kx.checkSequenceNumber snum = some kx') :
    Recorded kx' snum (decide (kx.lastSequenceNumberReceived < snum)) := by
  rcases checkSequenceNumber_window h with
    ⟨hlate, hnear, _, hlast, hbitmap⟩ | ⟨hnew, hlast, _⟩
  · refine ⟨by omega, .inr ⟨by omega, .inr ?_⟩⟩
    rw [hlast, hbitmap]
    have hi : kx.lastSequenceNumberReceived - snum - 1 < 32 := by omega
    simp [hi]
  · exact ⟨by omega, .inl (by simp [hnew])⟩

variable {n : Nat}

theorem Recorded.afterCheck (hrecorded : Recorded kx n highest)
    (h : kx.checkSequenceNumber snum = some kx') : Recorded kx' n highest := by
  obtain ⟨_, hknown⟩ := hrecorded
  rcases checkSequenceNumber_window h with
    ⟨_, _, _, hlast, hbitmap⟩ | ⟨hnew, hlast, hbitmap⟩
  · refine ⟨by omega, ?_⟩
    rcases hknown with hhighest | ⟨hlt, hfar | hbit⟩
    · exact .inl hhighest
    · exact .inr ⟨by omega, .inl (by omega)⟩
    · refine .inr ⟨by omega, .inr ?_⟩
      rw [hlast, hbitmap]
      simp [hbit]
  · refine ⟨by omega, ?_⟩
    rcases hknown with hhighest | ⟨_, _ | hbit⟩
    · exact .inl hhighest
    · exact .inr ⟨by omega, .inl (by omega)⟩
    · by_cases hgone : 32 < snum - n
      · exact .inr ⟨by omega, .inl (by omega)⟩
      · refine .inr ⟨by omega, .inr ?_⟩
        have hindex : snum - n - 1 - (snum - kx.lastSequenceNumberReceived) =
            kx.lastSequenceNumberReceived - n - 1 := by omega
        rw [hlast, hbitmap, if_neg (by omega), BitVec.getLsbD_shiftLeft, hindex, hbit]
        simp only [Bool.and_true, Bool.and_eq_true, decide_eq_true_eq,
          Bool.not_eq_true', decide_eq_false_iff_not]
        omega

/-- A recorded number is accepted again only if it was the highest and is at
most 32 behind. -/
theorem Recorded.again (hrecorded : Recorded kx n highest)
    (h : kx.checkSequenceNumber n = some kx') : highest = true ∧ n < kx.lastSequenceNumberReceived ∧
      kx.lastSequenceNumberReceived - n ≤ 32 := by
  obtain ⟨_, hknown⟩ := hrecorded
  rcases checkSequenceNumber_window h with
    ⟨hlate, hnear, hclear, _⟩ | ⟨hnew, _⟩
  · rcases hknown with hhighest | ⟨_, _ | hbit⟩
    · exact ⟨hhighest, hlate, hnear⟩
    · omega
    · simp [hclear] at hbit
  · omega

variable {d : Delivery D}

theorem recorded_deriveSessionKeys {myEphemeralKey : Bytes D}
    (hunused : ∀ keyMaterial ∈ Term.ecdh? myEphemeralKey kx.otherEphemeralKey,
        d.decryptKey ≠ deriveAesKey peer me keyMaterial)
    (hrecorded : kx.decryptKey = d.decryptKey → Recorded kx d.sequenceNumber d.highest)
    (hkey : (kx.deriveSessionKeys me peer myEphemeralKey nonce).decryptKey = d.decryptKey) :
    Recorded (kx.deriveSessionKeys me peer myEphemeralKey nonce) d.sequenceNumber d.highest := by
  unfold deriveSessionKeys at hkey ⊢
  split at hkey
  · exact hrecorded hkey
  next keyMaterial hmaterial =>
    exact absurd hkey.symm (hunused keyMaterial hmaterial)

def UnusedKey (s : Service D) (peer : Nat) (key : Bytes D) : Prop :=
  ∀ d ∈ s.deliveries, d.peer = peer → d.decryptKey ≠ key

instance [DecidableEq D] (s : Service D) (peer : Nat) (key : Bytes D) :
    Decidable (UnusedKey s peer key) := by
  unfold UnusedKey
  infer_instance

def Service.passed (s : Service D) : List (Nat × EncryptedMessage D) :=
  s.deliveries.map fun d => (d.peer, d.message)

variable [DecidableEq D]

def Genuine (env : CoreEnv D) (d : Delivery D) : Prop :=
  ∀ kx : KeyExchangeInfo D, kx.decryptKey = d.decryptKey → hmacValid kx d.message = true ∧
      (decryptMessage env kx d.message).sequenceNumber = d.sequenceNumber

structure Logged (env : CoreEnv D) (s : Service D) : Prop where
  genuine : ∀ d ∈ s.deliveries, Genuine env d
  recorded : ∀ d ∈ s.deliveries, ∀ kx, s.kxs d.peer = some kx → kx.decryptKey = d.decryptKey →
      Recorded kx d.sequenceNumber d.highest
  once : s.passed.Nodup

/-- The condition on a step.  A message does not arrive again that was the
highest one when it was passed on under the present key, and that is at most
32 behind.  When the window is reset, nothing was passed on under the key that
then applies. -/
def NotReplayed (env : CoreEnv D) (s : Service D) : CoreEvent D → Prop
  | .encrypted peer _ _ m => ∀ kx ∈ s.kxs peer, ∀ d ∈ s.deliveries,
      d.peer = peer → d.message = m → d.decryptKey = kx.decryptKey →
      d.highest = true →
      kx.lastSequenceNumberReceived ≤ d.sequenceNumber ∨
        32 < kx.lastSequenceNumberReceived - d.sequenceNumber
  | .connect peer => UnusedKey s peer .zero
  | .ephemeralKey peer now _ m => ∀ kx ∈ s.kxs peer,
      acceptsEphemeralKey peer kx now m = true →
      ∀ keyMaterial ∈ Term.ecdh? s.myEphemeralKey m.ephemeralKey,
        UnusedKey s peer (deriveAesKey peer env.me keyMaterial)
  | .rekey _ _ => ∀ peer ∈ s.kxList, ∀ kx ∈ s.kxs peer, kx.status = .up →
      ∀ keyMaterial ∈ Term.ecdh? (.secret s.fresh) kx.otherEphemeralKey,
        UnusedKey s peer (deriveAesKey peer env.me keyMaterial)
  | _ => True

instance (env : CoreEnv D) (s : Service D) : DecidablePred (NotReplayed env s) := fun event => by
  refine event.casesOn ?_ ?_ ?_ ?_ ?_ ?_ ?_ ?_ ?_ ?_ ?_ <;>
    intros <;> dsimp only [NotReplayed] <;> infer_instance

variable {m : EncryptedMessage D}

theorem hmacValid_key (h : hmacValid kx m = true) (h' : hmacValid kx' m = true) :
    kx.decryptKey = kx'.decryptKey := by
  have heq := (of_decide_eq_true h).trans (of_decide_eq_true h').symm
  simp only [cryptoHmac, deriveAuthKey, cryptoKdf, Term.mac.injEq,
    Term.kdf.injEq, Term.pair.injEq] at heq
  exact heq.1.2.2.2

theorem genuine_of_valid (hvalid : hmacValid kx m = true) (peer : Nat)
    (highest : Bool) :
    Genuine env
      { peer := peer
        decryptKey := kx.decryptKey
        message := m
        sequenceNumber := (decryptMessage env kx m).sequenceNumber
        highest := highest } := by
  intro kx' hkey
  constructor
  · simpa [hmacValid, hkey] using hvalid
  · simp [decryptMessage, hkey]

/-! ## Steps -/

section

variable {env : CoreEnv D} {s s' : Service D} {event : CoreEvent D} {peer : Nat}

theorem Logged.afterKx (h : Logged env s) (hframe : PeerStep s s' peer kx' [])
    (hrecorded : ∀ d ∈ s.deliveries, d.peer = peer → kx'.decryptKey = d.decryptKey →
        Recorded kx' d.sequenceNumber d.highest) : Logged env s' := by
  have hlog : s'.deliveries = s.deliveries := by simp [hframe.deliveries]
  constructor
  · rw [hlog]
    exact h.genuine
  · rw [hlog]
    intro d hd kx hkx hkey
    by_cases hq : d.peer = peer
    · rw [hq, hframe.kx, Option.some.injEq] at hkx
      subst hkx
      exact hrecorded d hd hq hkey
    · rw [hframe.kxs d.peer hq] at hkx
      exact h.recorded d hd kx hkx hkey
  · simpa [passed, hlog] using h.once

theorem Recorded.afterCheckOf (h : Logged env s) (hkx : s.kxs peer = some kx)
    (hcheck : kx.checkSequenceNumber n = some kx') (hd : d ∈ s.deliveries) (hq : d.peer = peer)
    (hkey : kx'.decryptKey = d.decryptKey) : Recorded kx' d.sequenceNumber d.highest := by
  rw [checkSequenceNumber_eq hcheck] at hkey
  exact (h.recorded d hd kx (hq ▸ hkx) hkey).afterCheck hcheck

variable {now : Nat}

section

variable (h : Logged env s)
include h

theorem Logged.not_passed
    (hcondition : NotReplayed env s (.encrypted peer now headers m)) (hkx : s.kxs peer = some kx)
    (hvalid : hmacValid kx m = true)
    (hcheck : kx.checkSequenceNumber (decryptMessage env kx m).sequenceNumber = some kx') :
    (peer, m) ∉ s.passed := by
  intro hpassed
  obtain ⟨d, hd, heq⟩ := List.mem_map.mp hpassed
  simp only [Prod.mk.injEq] at heq
  obtain ⟨hq, hm⟩ := heq
  have hkey : kx.decryptKey = d.decryptKey := by
    obtain ⟨hd_valid, _⟩ := h.genuine d hd
      { kx with decryptKey := d.decryptKey } rfl
    rw [hm] at hd_valid
    exact hmacValid_key hvalid hd_valid
  have hnumber := (h.genuine d hd kx hkey).2
  rw [hm] at hnumber
  rw [hnumber] at hcheck
  obtain ⟨hhighest, _, _⟩ := (h.recorded d hd kx (hq ▸ hkx) hkey).again hcheck
  have hfar := hcondition kx hkx d hd hq hm hkey.symm hhighest
  omega

theorem Logged.afterReceived
    (hcondition : NotReplayed env s (.encrypted peer now headers m)) (hkx : s.kxs peer = some kx)
    (hvalid : hmacValid kx m = true)
    (hcheck : kx.checkSequenceNumber (decryptMessage env kx m).sequenceNumber = some kx')
    (hd : d =
      { peer := peer
        decryptKey := kx.decryptKey
        message := m
        sequenceNumber := (decryptMessage env kx m).sequenceNumber
        highest := decide (kx.lastSequenceNumberReceived <
          (decryptMessage env kx m).sequenceNumber) })
    (hframe : PeerStep s s' peer (kx'.updateTimeout now) [d]) : Logged env s' := by
  have hmem : ∀ d', d' ∈ s'.deliveries → d' ∈ s.deliveries ∨ d' = d := by
    intro d' hd'
    simpa [hframe.deliveries] using hd'
  constructor
  · intro d' hd'
    rcases hmem d' hd' with hold | rfl
    · exact h.genuine d' hold
    · exact hd ▸ genuine_of_valid hvalid peer _
  · intro d' hd' kxq hkxq hkey
    rcases hmem d' hd' with hold | rfl
    · by_cases hq : d'.peer = peer
      · rw [hq, hframe.kx, Option.some.injEq] at hkxq
        subst hkxq
        have hrecorded : Recorded kx' d'.sequenceNumber d'.highest :=
          Recorded.afterCheckOf h hkx hcheck hold hq hkey
        exact hrecorded
      · rw [hframe.kxs d'.peer hq] at hkxq
        exact h.recorded d' hold kxq hkxq hkey
    · subst hd
      rw [hframe.kx, Option.some.injEq] at hkxq
      subst hkxq
      have hrecorded := recorded_checkSequenceNumber hcheck
      exact hrecorded
  · have hfresh := h.not_passed hcondition hkx hvalid hcheck
    have hpassed : s'.passed = s.passed ++ [(peer, m)] := by
      simp [passed, hframe.deliveries, hd]
    rw [hpassed, ← List.concat_eq_append]
    exact List.Nodup.concat hfresh h.once

theorem Logged.afterPeer (hcondition : NotReplayed env s event)
    (htransition : PeerTransition env s s' peer event) : Logged env s' := by
  obtain ⟨kx, _, _, hkx, hframe, htransition⟩ := htransition
  have hsame : ∀ d ∈ s.deliveries, d.peer = peer → kx.decryptKey = d.decryptKey →
        Recorded kx d.sequenceNumber d.highest := by
    intro d hd hq hkey
    exact h.recorded d hd kx (hq ▸ hkx) hkey
  generalize (s.sessions peer).isSome = session at htransition
  generalize (s'.sessions peer).isSome = session' at htransition
  cases htransition with
  | idle => exact h.afterKx hframe hsame
  | derives retry haccepts =>
    refine h.afterKx hframe ?_
    intro d hd hq hkey
    refine recorded_deriveSessionKeys ?_ (hsame d hd hq) hkey
    intro keyMaterial hmaterial
    exact hcondition kx hkx haccepts keyMaterial hmaterial d hd hq
  | confirms => exact h.afterKx hframe hsame
  | expires => exact h.afterKx hframe hsame
  | ignores _ _ hcheck =>
    refine h.afterKx hframe ?_
    intro d hd hq hkey
    exact Recorded.afterCheckOf h hkx hcheck hd hq hkey
  | receives _ hvalid hcheck =>
    exact h.afterReceived hcondition hkx hvalid hcheck rfl hframe

theorem Logged.afterConnect (hcondition : NotReplayed env s (.connect peer))
    (hstep : s.handleTransportNotifyConnect env peer = some s') : Logged env s' := by
  obtain ⟨hframe, _⟩ := handleTransportNotifyConnect_step hstep
  have hlisted : Logged env { s with kxList := peer :: s.kxList } :=
    ⟨h.genuine, h.recorded, h.once⟩
  refine hlisted.afterKx hframe ?_
  intro d hd hq hkey
  exact absurd hkey.symm (hcondition d hd hq)

theorem Logged.afterDisconnect (peer : Nat) :
    Logged env (s.handleTransportNotifyDisconnect peer) := by
  refine ⟨h.genuine, ?_, h.once⟩
  intro d hd kx hkx hkey
  by_cases hq : d.peer = peer
  · simp [handleTransportNotifyDisconnect, hq] at hkx
  · simp only [handleTransportNotifyDisconnect,
      Function.update_of_ne hq] at hkx
    exact h.recorded d hd kx hkx hkey

end

def FreshForUp (env : CoreEnv D) (s : Service D) : Prop :=
  ∀ q kx, s.kxs q = some kx → kx.status = .up →
    ∀ keyMaterial ∈ Term.ecdh? s.myEphemeralKey kx.otherEphemeralKey,
      UnusedKey s q (deriveAesKey q env.me keyMaterial)

theorem Logged.afterRekeyKx (h : Logged env s ∧ FreshForUp env s)
    (hstep : s.rekeyKx env nonce peer = some s') : Logged env s' ∧ FreshForUp env s' := by
  obtain ⟨hlogged, hfresh⟩ := h
  obtain ⟨kx, hkx, hframe, _⟩ := rekeyKx_step hstep
  constructor
  · refine hlogged.afterKx hframe ?_
    intro d hd hq
    have hsame : kx.decryptKey = d.decryptKey →
        Recorded kx d.sequenceNumber d.highest :=
      hlogged.recorded d hd kx (hq ▸ hkx)
    unfold rekeyed
    split_ifs with hup hdown
    · refine recorded_deriveSessionKeys ?_ hsame
      intro keyMaterial hmaterial
      exact hfresh peer kx hkx hup keyMaterial hmaterial d hd hq
    · exact hsame
    · exact hsame
  · intro q kxq hkxq hup
    have hlog : s'.deliveries = s.deliveries := by simp [hframe.deliveries]
    rw [hframe.myEphemeralKey]
    unfold UnusedKey
    rw [hlog]
    by_cases hq : q = peer
    · subst hq
      rw [hframe.kx, Option.some.injEq] at hkxq
      subst hkxq
      exact absurd hup (rekeyed_status_ne_up kx env.me _ _)
    · rw [hframe.kxs q hq] at hkxq
      exact hfresh q kxq hkxq hup

theorem Logged.afterRekey (h : Logged env s) (hconsistent : Consistent s)
    (hcondition : NotReplayed env s (.rekey now nonce))
    (hstep : s.doRekey env now nonce = some s') : Logged env s' := by
  have hstart : Logged env (signEphemeralKey env
        { s with myEphemeralKey := .secret s.fresh, fresh := s.fresh + 1 }
        now) ∧
      FreshForUp env (signEphemeralKey env
        { s with myEphemeralKey := .secret s.fresh, fresh := s.fresh + 1 }
        now) := by
    refine ⟨⟨h.genuine, h.recorded, h.once⟩, ?_⟩
    intro q kx hkx hup
    have hmem : q ∈ s.kxList := (hconsistent.listed q).mpr (Option.isSome_iff_exists.mpr ⟨kx, hkx⟩)
    exact hcondition q hmem kx hkx hup
  have hend := (Run.of_foldlM hstep).invariant (fun s => Logged env s ∧ FreshForUp env s) hstart
    (fun _ _ _ hbefore _ hpeer => Logged.afterRekeyKx hbefore hpeer)
  exact hend.1

theorem Logged.afterStep (h : Logged env s) (hconsistent : Consistent s)
    (henabled : Enabled s event) (hcondition : NotReplayed env s event)
    (hstep : s.step env event = some s') : Logged env s' := by
  cases hpeer : event.peer? with
  | some peer =>
    exact h.afterPeer hcondition (step_transition hpeer henabled hstep)
  | none =>
    cases event with
    | connect peer => exact h.afterConnect hcondition hstep
    | disconnect peer =>
      cases hstep
      exact h.afterDisconnect peer
    | rekey now nonce => exact h.afterRekey hconsistent hcondition hstep
    | _ => cases hpeer

end

/-- In every run that meets the condition, no message is passed on twice. -/
theorem messages_passed_once (env : CoreEnv D) (now fresh : Nat)
    {events : List (CoreEvent D)} {s : Service D}
    (hrun : Run (step env)
      (fun s event => Enabled s event ∧ NotReplayed env s event)
      (gscKxInit env now fresh) events s) :
    s.passed.Nodup := by
  have hinv := hrun.invariant
    (fun s => Consistent s ∧ Logged env s)
    ⟨Consistent.init env now fresh, by simp [gscKxInit,
        signEphemeralKey], by simp [gscKxInit,
        signEphemeralKey], by simp [passed,
        gscKxInit, signEphemeralKey]⟩
    (fun _ _ _ hbefore hguard hstep =>
      ⟨hbefore.1.afterStep hguard.1 hstep,
        hbefore.2.afterStep hbefore.1 hguard.1 hguard.2 hstep⟩)
  exact hinv.2.once

def firstEncrypted (n d : Nat) : EncryptedMessage Nat :=
  let body := cryptoSymmetricEncrypt (Plaintext.bytes ⟨n, 0, d⟩)
    (firstKey 2 1) (deriveIv (firstKey 2 1) 0 1)
  { ivSeed := 0
    hmac := cryptoHmac (deriveAuthKey (firstKey 2 1) 0) body
    body := body }

def lateReplayEvents : List (CoreEvent Nat) :=
  connectEvents ++ [.encrypted 2 0 false (firstEncrypted 2 1),
      .encrypted 2 0 false (firstEncrypted 1 0),
      .encrypted 2 0 false (firstEncrypted 1 0)]

theorem messages_passed_once_late :
    ∃ s, Run (step (plainCoreEnv 1))
        (fun s event => Enabled s event ∧
          NotReplayed (plainCoreEnv 1) s event)
        (gscKxInit (plainCoreEnv 1) 0 10) lateReplayEvents s ∧
      s.passed.length = 2 ∧ s.passed.Nodup :=
  Run.exists_of_exec_and (by decide +kernel) fun _ hrun _ =>
    messages_passed_once (plainCoreEnv 1) 0 10 hrun

def sendingEvents : List (CoreEvent Nat) :=
  [.connect 1, .ephemeralKey 1 0 ⟨9, 0⟩ { (gscKxInit (plainCoreEnv 1) 0 10).currentEkm with
        senderStatus := some .keySent },
    .pong 1 0
      { ivSeed := 0
        body := cryptoSymmetricEncrypt
          (.pair (.num 9) (.pair (.num 0) (.num 1))) (firstKey 1 2)
          (derivePongIv (firstKey 1 2) 0 9 2) },
    .transmit 1 0 0 0, .transmit 1 0 0 1]

def earlyReplayEvents : List (CoreEvent Nat) :=
  connectEvents ++ [.encrypted 2 0 false (firstEncrypted 1 0),
      .encrypted 2 0 false (firstEncrypted 2 1),
      .encrypted 2 0 false (firstEncrypted 1 0)]

theorem message_passed_twice :
    (∃ s, Run (step (plainCoreEnv 2)) Enabled
        (gscKxInit (plainCoreEnv 2) 0 20) sendingEvents s ∧
      ∀ m ∈ [firstEncrypted 1 0, firstEncrypted 2 1],
        (1, CoreMessage.encrypted m) ∈ s.outbox) ∧
    ∃ s, Run (step (plainCoreEnv 1)) Enabled
        (gscKxInit (plainCoreEnv 1) 0 10) earlyReplayEvents s ∧
      ¬ s.passed.Nodup := by
  constructor
  · exact Run.exists_of_exec (by decide +kernel)
  · exact Run.exists_of_exec (by decide +kernel)

def repeatedKeyEvents : List (CoreEvent Nat) :=
  connectEvents ++ [.encrypted 2 0 false (firstEncrypted 1 0)] ++
    connectEvents.drop 1 ++ [.encrypted 2 0 false (firstEncrypted 1 0)]

theorem repeated_key_resets_window : ∃ s, Run (step (plainCoreEnv 1)) Enabled
        (gscKxInit (plainCoreEnv 1) 0 10) repeatedKeyEvents s ∧ ¬ s.passed.Nodup :=
  Run.exists_of_exec (by decide +kernel)

end Gnunet.Core
