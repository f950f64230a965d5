import Gnunet.CadetTunnel

/-!
# The keys of an established tunnel

The context of a tunnel is replaced in two places only: when a KX_AUTH with the
right authenticator is accepted, and when an encrypted message validates under the
unverified context.  An established tunnel holds keys that were confirmed in one
of these ways, unless the first payload failed to validate under the unverified
context: `GCT_handle_encrypted` changes the state in this case as well.
-/

namespace Gnunet.Cadet

open Protocol Option

variable {D : Type}

/-- The keys of the next message come from a key exchange: a root key and a
next header key, and the keys of a sending chain unless a ratchet step comes
first. -/
structure Axolotl.Keyed (ax : Axolotl D) : Prop where
  root : ax.RK ≠ .zero
  next : ax.NHKs ≠ .zero
  chain : ax.ratchetFlag = false → ax.HKs ≠ .zero ∧ ax.CKs ≠ .zero

variable {ax : Axolotl D}

theorem Axolotl.Keyed.afterEncrypt (hkeyed : ax.Keyed) (settings : Settings D) (now fresh : Nat)
    (message : Bytes D) : (gctSendMessage settings now fresh ax message).1.Keyed := by
  by_cases hratchets : ratchets settings now ax = true
  · rw [gctSendMessage_of_ratchets fresh hratchets]
    constructor
    · simp [advanceRatchet, ratchetKey, cryptoKdf]
    · simp [advanceRatchet, ratchetKey, cryptoKdf]
    · intro _
      exact ⟨hkeyed.next, by simp [tHmacDeriveKey, cryptoKdf]⟩
  · simp only [Bool.not_eq_true] at hratchets
    rw [gctSendMessage_of_not_ratchets fresh hratchets]
    refine ⟨hkeyed.root, hkeyed.next, ?_⟩
    intro hflag
    exact ⟨(hkeyed.chain hflag).1, by simp [tHmacDeriveKey, cryptoKdf]⟩

/-! ## Steps that leave the keys alone -/

@[simp] theorem Tunnel.gctChangeEstate_ax (t : Tunnel D) : (t.gctChangeEstate state).ax = t.ax := by
  unfold Tunnel.gctChangeEstate
  split_ifs <;> rfl

open Tunnel

@[simp] theorem Tunnel.gctChangeEstate_unverifiedAx (t : Tunnel D) :
    (t.gctChangeEstate state).unverifiedAx = t.unverifiedAx := by
  unfold Tunnel.gctChangeEstate
  split_ifs <;> rfl

/-- Neither context changes, although the unverified one may be dropped, and
`CADET_TUNNEL_KEY_OK` is not entered. -/
structure SameKeys (t t' : Tunnel D) : Prop where
  ax : t'.ax = t.ax
  unverifiedAx : ∀ ax ∈ t'.unverifiedAx, ax ∈ t.unverifiedAx
  estate : t'.estate = .ok → t.estate = .ok

open SameKeys

variable {ct : Nat}

namespace SameKeys

variable {t t' : Tunnel D}

theorem trans (h : SameKeys t t') (h' : SameKeys t' t'') : SameKeys t t'' :=
  ⟨h'.ax.trans h.ax, fun ax hax => h.unverifiedAx ax (h'.unverifiedAx ax hax),
    fun hok => h.estate (h'.estate hok)⟩

theorem gctChangeEstate (t : Tunnel D)
    (hstate : state ≠ .ok) : SameKeys t (t.gctChangeEstate state) := by
  rw [Tunnel.gctChangeEstate, if_neg (by simp [hstate])]
  exact ⟨rfl, fun _ => id, fun hok => absurd hok hstate⟩

theorem markConnectionUnready (h : t.markConnectionUnready ct = some t') : SameKeys t t' := by
  simp only [Tunnel.markConnectionUnready] at h
  split_ifs at h
  cases h
  exact ⟨rfl, fun _ => id, id⟩

theorem gccTransmit (t : Tunnel D) (message : TunnelMessage D) :
    SameKeys t (t.gccTransmit message) :=
  ⟨rfl, fun _ => id, id⟩

theorem sendKx {ct : Option Nat} (h : t.sendKx ct ax = some t') : SameKeys t t' := by
  simp only [Tunnel.sendKx] at h
  split at h
  · cases h
    exact ⟨rfl, fun _ => id, id⟩
  · obtain ⟨_, hmark, rfl⟩ := map_eq_some_iff.mp h
    refine (markConnectionUnready hmark).trans ?_
    refine .trans ?_ (gccTransmit _ _)
    split_ifs
    · exact gctChangeEstate _ (by decide)
    · exact gctChangeEstate _ (by decide)
    · exact ⟨rfl, fun _ => id, id⟩

theorem sendKxAuth {ct : Option Nat}
    (h : t.sendKxAuth ct ax forceReply = some t') : SameKeys t t' := by
  simp only [Tunnel.sendKxAuth] at h
  split at h
  · cases h
    exact ⟨rfl, fun _ => id, id⟩
  · obtain ⟨_, hmark, rfl⟩ := map_eq_some_iff.mp h
    have hunready := markConnectionUnready hmark
    refine .trans ⟨hunready.ax, hunready.unverifiedAx, hunready.estate⟩ ?_
    refine .trans ?_ (gccTransmit _ _)
    split_ifs
    · exact gctChangeEstate _ (by decide)
    · exact ⟨rfl, fun _ => id, id⟩

theorem trySendNormalPayload (h : t.trySendNormalPayload ct = some t') : SameKeys t t' := by
  simp only [Tunnel.trySendNormalPayload] at h
  split_ifs at h
  split at h
  · cases h
    exact ⟨rfl, fun _ => id, id⟩
  · obtain ⟨_, hmark, rfl⟩ := map_eq_some_iff.mp h
    have hunready := markConnectionUnready hmark
    exact .trans ⟨hunready.ax, hunready.unverifiedAx, hunready.estate⟩
      (gccTransmit _ _)

theorem ofKxTask
    (h : SameKeys { t with kxTask := scheduled } t') : SameKeys t t' :=
  ⟨h.ax, h.unverifiedAx, h.estate⟩

theorem retryKx (h : t.retryKx = some t') : SameKeys t t' := by
  simp only [Tunnel.retryKx] at h
  split at h
  · exact ofKxTask (sendKx h)
  · exact ofKxTask (sendKx h)
  · exact ofKxTask (sendKxAuth h)
  · exact ofKxTask (sendKxAuth h)
  · exact ofKxTask (sendKxAuth h)
  · exact ofKxTask (sendKxAuth h)

theorem afterKx (t : Tunnel D) : SameKeys t t.afterKx := by
  have hschedule : ∀ {t₁ : Tunnel D}, SameKeys t t₁ →
      SameKeys t
        (if t₁.estate ≠ .ok then { t₁ with kxTask := true } else t₁) := by
    intro t₁ hsame
    split
    · exact ⟨hsame.ax, hsame.unverifiedAx, hsame.estate⟩
    · exact hsame
  apply hschedule
  split_ifs
  · exact gctChangeEstate t (by decide)
  · exact gctChangeEstate t (by decide)
  · exact ⟨rfl, fun _ => id, id⟩

theorem triggerTransmissions (h : t.triggerTransmissions = some t') : SameKeys t t' := by
  simp only [Tunnel.triggerTransmissions] at h
  split_ifs at h
  · cases h
    exact ⟨rfl, fun _ => id, id⟩
  · split at h
    · cases h
      exact ⟨rfl, fun _ => id, id⟩
    · have hsame := trySendNormalPayload h
      exact ⟨hsame.ax, hsame.unverifiedAx, hsame.estate⟩

theorem connectionReadyCb (h : t.connectionReadyCb ct isReady = some t') : SameKeys t t' := by
  unfold Tunnel.connectionReadyCb at h
  by_cases hunready : isReady = false
  · rw [if_pos hunready] at h
    exact markConnectionUnready h
  rw [if_neg hunready] at h
  by_cases hbusy : ct ∈ t.busy
  · rw [if_pos hbusy] at h
    have hready : SameKeys t
        { t with busy := t.busy.erase ct, ready := t.ready ++ [ct] } :=
      ⟨rfl, fun _ => id, id⟩
    refine hready.trans ?_
    cases hestate : t.estate <;> simp only [hestate] at h
    · split_ifs at h
      · cases h
        exact ⟨rfl, fun _ => id, id⟩
      · exact ofKxTask (sendKx h)
    · cases h
      exact ⟨rfl, fun _ => id, id⟩
    · cases h
      exact ⟨rfl, fun _ => id, id⟩
    · cases h
      exact ⟨rfl, fun _ => id, id⟩
    · cases h
      exact ⟨rfl, fun _ => id, id⟩
    · split_ifs at h
      · exact ofKxTask (sendKxAuth h)
      · exact trySendNormalPayload h
  · rw [if_neg hbusy] at h
    cases h

theorem gctConnectionLost (t : Tunnel D) (ct : Nat) : SameKeys t (t.gctConnectionLost ct) := by
  unfold Tunnel.gctConnectionLost
  split_ifs
  · exact ⟨rfl, fun _ => id, id⟩
  · exact ⟨rfl, fun _ => id, id⟩

theorem countUnverifiedAttempt (t : Tunnel D) : SameKeys t t.countUnverifiedAttempt := by
  simp only [Tunnel.countUnverifiedAttempt]
  split_ifs
  · exact ⟨rfl, by simp, id⟩
  · exact ⟨rfl, fun _ => id, id⟩
  · exact ⟨rfl, fun _ => id, id⟩

theorem gctAddChannel (t : Tunnel D) : SameKeys t t.gctAddChannel := by
  simp only [Tunnel.gctAddChannel]
  split_ifs
  · exact ⟨rfl, fun _ => id, id⟩
  · exact ⟨rfl, fun _ => id, id⟩

end SameKeys

variable [DecidableEq D]

inductive AxEvolves (settings : Settings D) :
    Axolotl D → Axolotl D → Prop
  | refl (ax : Axolotl D) : AxEvolves settings ax ax
  | encrypt {ax ax' : Axolotl D} (now fresh : Nat) (message : Bytes D) :
      AxEvolves settings ax ax' →
      AxEvolves settings ax
        (gctSendMessage settings now fresh ax' message).1
  | decrypt {ax ax' : Axolotl D} (msg : EncryptedMessage D) :
      AxEvolves settings ax ax' →
      AxEvolves settings ax (tAxDecryptAndValidate settings ax' msg).2

variable {settings : Settings D}

theorem AxEvolves.trans (h₁ : AxEvolves settings ax₁ ax₂)
    (h₂ : AxEvolves settings ax₂ ax₃) : AxEvolves settings ax₁ ax₃ := by
  induction h₂ with
  | refl => exact h₁
  | encrypt now fresh message _ ih => exact .encrypt now fresh message ih
  | decrypt msg _ ih => exact .decrypt msg ih

variable {now : Nat} {ephemeralKey ratchetKey : Bytes D}

theorem Axolotl.keyed_updateAxByKx
    (hok : (updateAxByKx settings now me ax pid ephemeralKey ratchetKey).1 = .ok) :
    (updateAxByKx settings now me ax pid ephemeralKey ratchetKey).2.Keyed := by
  simp only [updateAxByKx] at hok ⊢
  split_ifs at hok ⊢
  · constructor <;> simp [kxKey, cryptoKdf]
  · constructor <;> simp [kxKey, cryptoKdf]

theorem Axolotl.Keyed.afterDecrypt (hkeyed : ax.Keyed) (settings : Settings D)
    (msg : EncryptedMessage D) : (tAxDecryptAndValidate settings ax msg).2.Keyed := by
  rcases tAxDecryptAndValidate_ratchet settings ax msg with
    ⟨skipped, CKr, Nr, heq⟩ | ⟨_, _, skipped, CKr, Nr, heq⟩
  · rw [heq]
    exact ⟨hkeyed.root, hkeyed.next, hkeyed.chain⟩
  · rw [heq]
    exact ⟨by simp [commitRatchet, ratchetKey, cryptoKdf], hkeyed.next, hkeyed.chain⟩

theorem Axolotl.Keyed.evolves (hkeyed : ax.Keyed)
    (hevolves : AxEvolves settings ax ax') : ax'.Keyed := by
  induction hevolves with
  | refl => exact hkeyed
  | encrypt now fresh message _ ih => exact ih.afterEncrypt _ now fresh message
  | decrypt msg _ ih => exact ih.afterDecrypt _ msg


/-- The event confirms keys: a KX_AUTH whose authenticator is the hash of the
root key that it leads to, or an encrypted message that validates under the
unverified context. -/
def confirms (env : TunnelEnv D) (t : Tunnel D) : TunnelEvent D → Bool
  | .handleKxAuth now _ ephemeralKey ratchetKey auth =>
      let out := updateAxByKx env.settings now env.me t.ax env.destination
        ephemeralKey ratchetKey
      decide (t.estate ≠ .uninitialized ∧ t.estate ≠ .axRecv ∧
        out.1 = .ok ∧ cryptoHash out.2.RK = auth)
  | .handleEncrypted _ msg =>
      decide (t.estate = .axAuthSent ∨
        t.estate = .ok ∧
          (tAxDecryptAndValidate env.settings t.ax msg).1 = none) &&
        t.unverifiedAx.any fun ax =>
          (tAxDecryptAndValidate env.settings ax msg).1.isSome
  | _ => false

def confirmedAx (env : TunnelEnv D) (t : Tunnel D) :
    TunnelEvent D → Axolotl D
  | .handleKxAuth now _ ephemeralKey ratchetKey _ =>
      (updateAxByKx env.settings now env.me t.ax env.destination
        ephemeralKey ratchetKey).2
  | .handleEncrypted _ msg =>
      (tAxDecryptAndValidate env.settings t.retryAx msg).2
  | _ => t.ax

/-- In a run with these events the context `ax` goes back to one that an event
has confirmed. -/
def Confirmed (env : TunnelEnv D) (start : Tunnel D)
    (events : List (TunnelEvent D)) (ax : Axolotl D) : Prop :=
  ∃ before event after t, events = before ++ event :: after ∧
    Run (step env) (fun _ _ => True) start before t ∧
    confirms env t event = true ∧
    AxEvolves env.settings (confirmedAx env t event) ax

/-- The condition on a step.  The first payload of a tunnel with an unverified
context is valid under this context, and a KX that is not a duplicate comes
from another peer and gives a root key that the tunnel does not have. -/
def ConfirmsKeys (env : TunnelEnv D) (t : Tunnel D) : TunnelEvent D → Prop
  | .handleEncrypted _ msg => t.estate = .axAuthSent →
      t.unverifiedAx.all (fun ax =>
        (tAxDecryptAndValidate env.settings ax msg).1.isSome) = true
  | .handleKx _ _ ephemeralKey ratchetKey =>
      t.ax.DHRr ≠ ratchetKey →
      t.unverifiedAx.any (fun ax => ax.DHRr = ratchetKey) = false →
      env.me ≠ env.destination ∧
        t.ax.RK ≠ kxKey 0 (kxMaterial env.me env.destination t.ax.kx0
          ephemeralKey)
  | _ => True

instance (env : TunnelEnv D) (t : Tunnel D) :
    DecidablePred (ConfirmsKeys env t) := fun event => by
  cases event <;> unfold ConfirmsKeys <;> infer_instance

variable {start : Tunnel D} {events : List (TunnelEvent D)}

theorem Confirmed.evolves
    (hconfirmed : Confirmed env start events ax) (hevolves : AxEvolves env.settings ax ax')
    (event : TunnelEvent D) : Confirmed env start (events ++ [event]) ax' := by
  obtain ⟨before, e, after, t, rfl, hrun, hconfirms, hax⟩ := hconfirmed
  exact ⟨before, e, after ++ [event], t, by simp, hrun, hconfirms, hax.trans hevolves⟩

/-! ## What a step does to the keys -/

/-- The three ways in which a step treats the two contexts. -/
inductive KeyStep (env : TunnelEnv D) (t : Tunnel D) :
    TunnelEvent D → Tunnel D → Prop
  | evolves {event : TunnelEvent D} {t' : Tunnel D} :
      confirms env t event = false →
      AxEvolves env.settings t.ax t'.ax →
      (∀ ax' ∈ t'.unverifiedAx, ∃ ax ∈ t.unverifiedAx, AxEvolves env.settings ax ax') →
      (t'.estate = .ok → ConfirmsKeys env t event → t.estate = .ok) →
      KeyStep env t event t'
  | offers {now ct : Nat} {ephemeralKey ratchetKey : Bytes D}
      {t' : Tunnel D} :
      t.ax.DHRr ≠ ratchetKey →
      t.unverifiedAx.any (fun ax => ax.DHRr = ratchetKey) = false →
      t'.ax = t.ax →
      (∀ ax ∈ t'.unverifiedAx, ax = (updateAxByKx env.settings now env.me
        t.freshUnverifiedAx env.destination ephemeralKey ratchetKey).2) →
      (t'.estate = .ok → t.estate = .ok) →
      KeyStep env t (.handleKx now ct ephemeralKey ratchetKey) t'
  | confirms {event : TunnelEvent D} {t' : Tunnel D} :
      confirms env t event = true →
      t'.ax = confirmedAx env t event → t'.unverifiedAx = none →
      KeyStep env t event t'

variable {event : TunnelEvent D}

section

variable {env : TunnelEnv D} {t t' : Tunnel D}

theorem KeyStep.sameKeys (h : KeyStep env t event t') (hsame : SameKeys t' t'') :
    KeyStep env t event t'' := by
  cases h with
  | evolves hconfirms hax hunverified hestate =>
    exact .evolves hconfirms (hsame.ax ▸ hax)
      (fun ax hmem => hunverified ax (hsame.unverifiedAx ax hmem))
      (fun hok => hestate (hsame.estate hok))
  | offers hknown hduplicate hax hunverified hestate =>
    exact .offers hknown hduplicate (hsame.ax.trans hax)
      (fun ax hmem => hunverified ax (hsame.unverifiedAx ax hmem))
      (fun hok => hestate (hsame.estate hok))
  | confirms hconfirms hax hunverified =>
    refine .confirms hconfirms (hsame.ax.trans hax) ?_
    rw [eq_none_iff_forall_not_mem]
    intro ax hmem
    simpa [hunverified] using hsame.unverifiedAx ax hmem

theorem SameKeys.keyStep (h : SameKeys t t') (hevent : confirms env t event = false) :
    KeyStep env t event t' :=
  KeyStep.sameKeys
    (.evolves hevent (.refl _) (fun ax hax => ⟨ax, hax, .refl ax⟩) (fun hok _ => hok)) h

theorem gctHandleKx_keyStep (h : t.gctHandleKx env now ct ephemeralKey ratchetKey = some t') :
    KeyStep env t (.handleKx now ct ephemeralKey ratchetKey) t' := by
  unfold gctHandleKx at h
  by_cases hknown : t.ax.DHRr = ratchetKey
  · rw [if_pos hknown] at h
    exact (sendKxAuth h).keyStep rfl
  rw [if_neg hknown] at h
  by_cases hduplicate :
      t.unverifiedAx.any (fun ax => ax.DHRr = ratchetKey) = true
  · rw [if_pos hduplicate] at h
    exact (sendKxAuth h).keyStep rfl
  rw [if_neg hduplicate] at h
  simp only [Bool.not_eq_true] at hduplicate
  dsimp only at h
  split at h
  · cases h
    exact .offers hknown hduplicate rfl (by simp) id
  · cases h
    refine KeyStep.sameKeys ?_ (afterKx _)
    exact .offers hknown hduplicate rfl (by simp) id

theorem gctHandleKxAuth_keyStep {auth : Bytes D}
    (h : t.gctHandleKxAuth env now ephemeralKey ratchetKey auth = some t') :
    KeyStep env t (.handleKxAuth now ct ephemeralKey ratchetKey auth) t' := by
  unfold gctHandleKxAuth at h
  by_cases hearly : t.estate = .uninitialized ∨ t.estate = .axRecv
  · rw [if_pos hearly] at h
    cases h
    refine keyStep ⟨rfl, fun _ => id, id⟩ ?_
    rcases hearly with hestate | hestate <;> simp [confirms, hestate]
  rw [if_neg hearly] at h
  by_cases hupdate : (updateAxByKx env.settings now env.me t.ax
      env.destination ephemeralKey ratchetKey).1 = .ok
  · rw [if_neg (not_not.mpr hupdate)] at h
    by_cases hauth : cryptoHash (updateAxByKx env.settings now env.me t.ax
        env.destination ephemeralKey ratchetKey).2.RK = auth
    · rw [if_neg (not_not.mpr hauth)] at h
      have hconfirms : confirms env t
          (.handleKxAuth now ct ephemeralKey ratchetKey auth) = true := by
        simp only [confirms, decide_eq_true_eq]
        exact ⟨fun hu => hearly (.inl hu), fun hr => hearly (.inr hr), hupdate, hauth⟩
      cases hestate : t.estate <;> simp only [hestate] at h hearly
      · simp at hearly
      · cases h
        exact .confirms hconfirms (by simp [confirmedAx]) (by simp)
      · simp at hearly
      · cases h
        exact .confirms hconfirms (by simp [confirmedAx]) (by simp)
      · cases h
        exact .confirms hconfirms (by simp [confirmedAx]) (by simp)
      · cases h
        exact .confirms hconfirms rfl rfl
    · rw [if_pos hauth] at h
      exact (sendKx h).keyStep (by simp [confirms, hauth])
  · rw [if_pos hupdate] at h
    cases h
    exact keyStep ⟨rfl, fun _ => id, id⟩ (by simp [confirms, hupdate])

theorem tryUnverifiedAx_contexts (env : TunnelEnv D)
    (hu : t.unverifiedAx = some u) (msg : EncryptedMessage D) :
    let out := tAxDecryptAndValidate env.settings u msg
    let t' := (t.tryUnverifiedAx env msg).2
    t'.ax = (if out.1.isSome then out.2 else t.ax) ∧
      t'.unverifiedAx = if out.1.isSome then none else some out.2 := by
  simp only [tryUnverifiedAx, hu]
  by_cases hsent : t.estate = .axAuthSent
  · split_ifs with hvalid <;> simp_all
  · split_ifs with hvalid <;> simp_all

theorem tryUnverifiedAx_keyStep {t₁ : Tunnel D} (ct : Nat) (hax : AxEvolves env.settings t.ax t₁.ax)
    (hunverified : t₁.unverifiedAx = t.unverifiedAx) (hestate : t₁.estate = t.estate)
    (htry : t.estate = .axAuthSent ∨ t.estate = .ok ∧
      (tAxDecryptAndValidate env.settings t.ax msg).1 = none) :
    KeyStep env t (.handleEncrypted ct msg) (t₁.tryUnverifiedAx env msg).2 := by
  cases hu : t.unverifiedAx with
  | none =>
    have hnone : t₁.unverifiedAx = none := hunverified.trans hu
    simp only [tryUnverifiedAx, hnone]
    refine .evolves (by simp [confirms, hu]) hax (by simp [hnone])
      (fun hok _ => hestate ▸ hok)
  | some u =>
    obtain ⟨hax', hunverified'⟩ :=
      tryUnverifiedAx_contexts env (hunverified.trans hu) msg
    have hconfirms : confirms env t (.handleEncrypted ct msg) =
        (tAxDecryptAndValidate env.settings u msg).1.isSome := by
      simp only [confirms, hu, any_some, Bool.and_eq_right_iff_imp, decide_eq_true_eq]
      exact fun _ => htry
    cases hvalid : (tAxDecryptAndValidate env.settings u msg).1.isSome with
    | true =>
      rw [hvalid, if_pos rfl] at hax' hunverified'
      refine .confirms (hconfirms.trans hvalid) ?_ hunverified'
      simpa [confirmedAx, retryAx, hu] using hax'
    | false =>
      rw [hvalid, if_neg (by decide)] at hax' hunverified'
      refine .evolves (hconfirms.trans hvalid) (hax' ▸ hax) ?_ ?_
      · intro ax hmem
        rw [hunverified', mem_some_iff] at hmem
        exact ⟨u, hu, hmem ▸ .decrypt msg (.refl u)⟩
      · intro _ hcond
        rcases htry with hsent | ⟨hok, _⟩
        · simp [ConfirmsKeys, hsent, hu, hvalid] at hcond
        · exact hok

theorem decryptPayload_keyStep (env : TunnelEnv D) (ct : Nat) (msg : EncryptedMessage D)
    (hestate : t.estate = .axAuthSent ∨ t.estate = .ok) : KeyStep env t (.handleEncrypted ct msg)
      (t.decryptPayload env msg).2 := by
  rcases hestate with hsent | hok
  · have hestablished : t.tryEstablishedAx env msg = (none, t) := by
      simp [tryEstablishedAx, hsent]
    simp only [decryptPayload, hestablished]
    exact (tryUnverifiedAx_keyStep ct (.refl _) rfl rfl (.inl hsent)).sameKeys
      (countUnverifiedAttempt _)
  · have hax : AxEvolves env.settings t.ax
        (tAxDecryptAndValidate env.settings t.ax msg).2 :=
      .decrypt msg (.refl _)
    simp only [decryptPayload, tryEstablishedAx, if_pos hok]
    split
    next text t₁ heq =>
      simp only [Prod.mk.injEq] at heq
      obtain ⟨htext, rfl⟩ := heq
      refine KeyStep.sameKeys ?_ (countUnverifiedAttempt _)
      exact .evolves (by simp [confirms, hok, htext]) hax
        (fun ax hmem => ⟨ax, hmem, .refl ax⟩) (fun hok _ => hok)
    next t₁ heq =>
      simp only [Prod.mk.injEq] at heq
      obtain ⟨hnone, rfl⟩ := heq
      refine KeyStep.sameKeys ?_ (countUnverifiedAttempt _)
      exact tryUnverifiedAx_keyStep ct hax rfl rfl (.inr ⟨hok, hnone⟩)

theorem gctHandleEncrypted_keyStep (h : t.gctHandleEncrypted env ct msg = some t') :
    KeyStep env t (.handleEncrypted ct msg) t' := by
  unfold gctHandleEncrypted at h
  split at h
  next hestate =>
    exact (ofKxTask (sendKx h)).keyStep
      (by simp [confirms, hestate])
  next hestate =>
    exact (ofKxTask (sendKx h)).keyStep
      (by simp [confirms, hestate])
  next hestate =>
    exact (ofKxTask (sendKx h)).keyStep
      (by simp [confirms, hestate])
  next hestate =>
    exact (ofKxTask (sendKxAuth h)).keyStep
      (by simp [confirms, hestate])
  all_goals
    rename_i hestate
    have hstep := decryptPayload_keyStep env ct msg
      (by first | exact .inl hestate | exact .inr hestate)
    split at h
    next text t₁ heq =>
      rw [heq] at hstep
      cases h
      exact hstep.sameKeys ⟨rfl, fun _ => id, id⟩
    next t₁ heq =>
      rw [heq] at hstep
      exact hstep.sameKeys (ofKxTask (sendKx h))

theorem gctSend_keyStep : KeyStep env t (.send now message) (t.gctSend env now message).2 := by
  unfold gctSend
  split
  · exact keyStep ⟨rfl, fun _ => id, id⟩ rfl
  · exact .evolves rfl (.encrypt now t.fresh message (.refl _))
      (fun ax hmem => ⟨ax, hmem, .refl ax⟩) (fun hok _ => hok)

theorem Tunnel.step_keyStep (h : t.step env event = some t') : KeyStep env t event t' := by
  cases event with
  | handleKx => exact gctHandleKx_keyStep h
  | handleKxAuth => exact gctHandleKxAuth_keyStep h
  | handleEncrypted => exact gctHandleEncrypted_keyStep h
  | retryKx =>
    simp only [step] at h
    split_ifs at h
    exact (SameKeys.retryKx h).keyStep rfl
  | triggerTransmissions =>
    simp only [step] at h
    split_ifs at h
    exact (SameKeys.triggerTransmissions h).keyStep rfl
  | connectionReady => exact (SameKeys.connectionReadyCb h).keyStep rfl
  | addConnection =>
    cases h
    refine keyStep ?_ rfl
    exact ⟨rfl, fun _ => id, id⟩
  | connectionLost ct =>
    cases h
    exact (SameKeys.gctConnectionLost t ct).keyStep rfl
  | addChannel =>
    cases h
    exact (SameKeys.gctAddChannel t).keyStep rfl
  | removeChannel =>
    cases h
    refine keyStep ?_ rfl
    exact ⟨rfl, fun _ => id, id⟩
  | send =>
    cases h
    exact gctSend_keyStep

end

/-- In a run with these events the keys of an established tunnel were
confirmed, and neither context is without keys when it is used to send. -/
structure KeysConfirmed (env : TunnelEnv D) (start : Tunnel D)
    (events : List (TunnelEvent D)) (t : Tunnel D) : Prop where
  confirmed : t.estate = .ok → Confirmed env start events t.ax
  keyed : t.estate = .ok → t.ax.Keyed
  unverified : ∀ ax ∈ t.unverifiedAx, ax.Keyed

theorem keyed_confirmedAx {t : Tunnel D}
    (hunverified : ∀ ax ∈ t.unverifiedAx, ax.Keyed) (hconfirms : confirms env t event = true) :
    (confirmedAx env t event).Keyed := by
  cases event with
  | handleKxAuth now ct ephemeralKey ratchetKey auth =>
    simp only [confirms, decide_eq_true_eq] at hconfirms
    exact Axolotl.keyed_updateAxByKx hconfirms.2.2.1
  | handleEncrypted ct msg =>
    simp only [confirms, Bool.and_eq_true, any_eq_true] at hconfirms
    obtain ⟨_, ax, hax, _⟩ := hconfirms
    have hretry : t.retryAx = ax := by simp [retryAx, hax]
    simp only [confirmedAx, hretry]
    exact (hunverified ax hax).afterDecrypt _ msg
  | _ => simp [confirms] at hconfirms

theorem KeysConfirmed.afterStep (hinv : KeysConfirmed env start events t)
    (hrun : Run (step env) (fun _ _ => True) start events t)
    (hcond : ConfirmsKeys env t event) (hstep : KeyStep env t event t') :
    KeysConfirmed env start (events ++ [event]) t' := by
  cases hstep with
  | evolves _ hax hunverified hestate =>
    constructor
    · intro hok
      exact (hinv.confirmed (hestate hok hcond)).evolves hax event
    · intro hok
      exact (hinv.keyed (hestate hok hcond)).evolves hax
    · intro ax' hmem
      obtain ⟨ax, hax, hevolves⟩ := hunverified ax' hmem
      exact (hinv.unverified ax hax).evolves hevolves
  | offers hknown hduplicate hax hunverified hestate =>
    constructor
    · intro hok
      rw [hax]
      exact (hinv.confirmed (hestate hok)).evolves (.refl _) _
    · intro hok
      rw [hax]
      exact hinv.keyed (hestate hok)
    · intro ax hmem
      rw [hunverified ax hmem]
      obtain ⟨hpid, hRK⟩ := hcond hknown hduplicate
      exact Axolotl.keyed_updateAxByKx
        (updateAxByKx_ok_iff.mpr ⟨hpid, hknown, hRK⟩)
  | confirms hconfirms hax hunverified =>
    constructor
    · intro _
      exact ⟨events, event, [], t, rfl, hrun, hconfirms, hax ▸ .refl _⟩
    · intro _
      exact hax ▸ keyed_confirmedAx hinv.unverified hconfirms
    · simp [hunverified]

/-- In every run of a new tunnel whose steps meet the condition, the keys of
an established tunnel were confirmed, and `GCT_send` encrypts only with
confirmed keys that come from a key exchange. -/
theorem established_keys_confirmed (env : TunnelEnv D) (kx0 ratchet fresh : Nat)
    {events : List (TunnelEvent D)} {t : Tunnel D}
    (hrun : Run (step env) (ConfirmsKeys env)
      (gctCreateTunnel kx0 ratchet fresh) events t) :
    (t.estate = .ok →
      Confirmed env (.gctCreateTunnel kx0 ratchet fresh) events t.ax) ∧
    ∀ now message, (t.gctSend env now message).1 ≠ none →
      Confirmed env (.gctCreateTunnel kx0 ratchet fresh) events t.ax ∧
        t.ax.Keyed := by
  have hinv : KeysConfirmed env (.gctCreateTunnel kx0 ratchet fresh) events
      t := by
    induction hrun with
    | nil =>
      constructor <;> simp [gctCreateTunnel]
    | snoc hrun hcond hnext ih =>
      exact ih.afterStep (hrun.weaken fun _ _ _ => trivial) hcond
        (step_keyStep hnext)
  refine ⟨hinv.confirmed, ?_⟩
  intro now message hsent
  have hok : t.estate = .ok := by
    by_contra hnot
    simp [gctSend, hnot] at hsent
  exact ⟨hinv.confirmed hok, hinv.keyed hok⟩

def firstTunnelEnv : TunnelEnv Nat :=
  ⟨.shipped, 1, 2⟩

def authenticatedEvents : List (TunnelEvent Nat) :=
  [.addConnection 0, .addChannel, .connectionReady 0 true,
    .handleKxAuth 0 0 (.point 5) (.point 6)
      (cryptoHash (kxKey 0 (kxMaterial 1 2 (.secret 3) (.point 5))))]

theorem established_keys_confirmed_authenticated :
    ∃ t, Run (step firstTunnelEnv) (ConfirmsKeys firstTunnelEnv)
        (.gctCreateTunnel 3 4 7) authenticatedEvents t ∧
      t.estate = .ok ∧
      Confirmed firstTunnelEnv (.gctCreateTunnel 3 4 7) authenticatedEvents
        t.ax :=
  Run.exists_of_exec_and (by decide +kernel) fun _ hrun hok =>
    (established_keys_confirmed _ 3 4 7 hrun).1 hok

def neverConfirms (env : TunnelEnv D) (start : Tunnel D) (events : List (TunnelEvent D)) : Bool :=
  (List.range events.length).all fun n => (events[n]?).all fun event =>
    (exec (step env) (fun _ _ => True) start (events.take n)).all
      fun t => !confirms env t event

theorem not_confirmed_of_neverConfirms
    (hnever : neverConfirms env start events = true) (ax : Axolotl D) :
    ¬ Confirmed env start events ax := by
  rintro ⟨before, _, _, _, rfl, hrun, hconfirms, _⟩
  have hexec := hrun.exec_eq []
  rw [List.append_nil] at hexec
  simp only [neverConfirms, List.all_eq_true] at hnever
  have hat := hnever before.length (by simp)
  simp [hexec, exec, hconfirms] at hat

def garbledPayloadEvents : List (TunnelEvent Nat) :=
  [.addConnection 0, .addChannel, .connectionReady 0 true,
    .handleKx 0 0 (.point 5) (.point 6), .connectionReady 0 true, .retryKx,
    .connectionReady 0 true, .handleEncrypted 0 ⟨.zero, .zero, .zero⟩]

theorem garbled_payload_establishes :
    ∃ t, Run (step firstTunnelEnv) (fun _ _ => True)
        (.gctCreateTunnel 3 4 7) garbledPayloadEvents t ∧
      t.estate = .ok ∧ t.decrypted = [] ∧
      (∀ ax, ¬ Confirmed firstTunnelEnv (.gctCreateTunnel 3 4 7)
        garbledPayloadEvents ax) ∧
      (t.gctSend firstTunnelEnv 0 (.data 0)).1 ≠ none ∧
      t.ax = .created 3 4 := by
  obtain ⟨t, hrun, hbad⟩ :
      ∃ t, Run (step firstTunnelEnv) (fun _ _ => True)
          (.gctCreateTunnel 3 4 7) garbledPayloadEvents t ∧
        decide (t.estate = .ok ∧ t.decrypted = [] ∧
          (t.gctSend firstTunnelEnv 0 (.data 0)).1 ≠ none ∧
          t.ax = .created 3 4) = true :=
    Run.of_exec_any (by decide +kernel)
  obtain ⟨hok, hdecrypted, hsend, hax⟩ := of_decide_eq_true hbad
  exact ⟨t, hrun, hok, hdecrypted, not_confirmed_of_neverConfirms (by decide +kernel), hsend, hax⟩

def refusedKxEvents : List (TunnelEvent Nat) :=
  authenticatedEvents ++
    [.handleKx 0 0 (.point 5) (.point 9),
      .handleEncrypted 0 (sealMessage .zero ⟨0, 0, .point 9⟩ .zero)]

theorem refused_kx_loses_keys : ∃ t, Run (step firstTunnelEnv) (fun _ _ => True)
        (.gctCreateTunnel 3 4 7) refusedKxEvents t ∧
      (t.gctSend firstTunnelEnv 0 (.data 0)).1 ≠ none ∧
      t.ax.HKs = .zero ∧ t.ax.CKs = .zero ∧ t.ax.ratchetFlag = false :=
  Run.exists_of_exec (by decide +kernel)

/-- Nothing takes a tunnel out of `CADET_TUNNEL_KEY_OK` again, so that its channels
can always send. -/
theorem established_for_good {env : TunnelEnv D} {t t' : Tunnel D} {events : List (TunnelEvent D)}
    (hok : t.estate = .ok) (hrun : Run (step env) (fun _ _ => True) t events t') (now : Nat)
    (message : Bytes D) : t'.estate = .ok ∧ (t'.gctSend env now message).1 ≠ none := by
  have hstill := hrun.invariant (·.estate = .ok) hok fun _ _ _ hbefore _ => ok_of_step hbefore
  exact ⟨hstill, by simp [gctSend, hstill]⟩

theorem established_for_good_refused :
    ∃ t t', Run (step firstTunnelEnv) (fun _ _ => True) (.gctCreateTunnel 3 4 7)
        authenticatedEvents t ∧
      Run (step firstTunnelEnv) (fun _ _ => True) t [.addConnection 1, .connectionLost 0,
        .handleKx 0 1 (.point 5) (.point 9), .connectionReady 1 true] t' ∧
      t'.estate = .ok ∧ (t'.gctSend firstTunnelEnv 0 (.data 0)).1 ≠ none := by
  obtain ⟨t, hrun, hok, hmore⟩ : ∃ t, Run (step firstTunnelEnv) (fun _ _ => True)
      (.gctCreateTunnel 3 4 7) authenticatedEvents t ∧ t.estate = .ok ∧
        (exec (step firstTunnelEnv) (fun _ _ => True) t [.addConnection 1, .connectionLost 0,
          .handleKx 0 1 (.point 5) (.point 9), .connectionReady 1 true]).isSome :=
    Run.exists_of_exec (by decide +kernel)
  obtain ⟨t', hmore⟩ := Option.isSome_iff_exists.mp hmore
  exact ⟨t, t', hrun, .of_exec hmore, established_for_good hok (.of_exec hmore) 0 _⟩

end Gnunet.Cadet
