import Gnunet.CadetAxolotlSpec
import Gnunet.GuardedRun

/-!
# The key state machine of a CADET tunnel

`gnunet-service-cadet-new_tunnels.c` above the key context: the two contexts of a
tunnel, its encryption state, its connections, and the handlers that move the
state.  `none` is a failing assertion.  Connections are numbers, in lists with
their heads first.  Tasks are flags, and the deadlines of the key exchange are
left out.
-/

namespace Gnunet.Cadet

open Protocol

def maxUnverifiedAttempts : Nat := 16

inductive EState where
  | uninitialized
  | axSent
  | axRecv
  | axSentAndRecv
  | axAuthSent
  | ok
  deriving DecidableEq, Repr

inductive TunnelMessage (D : Type) where
  | kx (cid : Nat) (forceReply : Bool) (ephemeralKey ratchetKey : Bytes D)
  | kxAuth (cid : Nat) (forceReply : Bool) (ephemeralKey ratchetKey : Bytes D)
      (auth : Bytes D)
  | encrypted (cid : Nat) (msg : EncryptedMessage D)
  deriving DecidableEq, Repr

/-- `struct CadetTunnel`; `transmitted` and `decrypted` list what was sent and
what was passed to the tokenizer, and `fresh` is the next private key. -/
structure Tunnel (D : Type) where
  ax : Axolotl D
  unverifiedAx : Option (Axolotl D)
  unverifiedAttempts : Nat
  estate : EState
  kxTask : Bool
  sendTask : Bool
  kxAuthRequested : Bool
  channels : Nat
  ready : List Nat
  busy : List Nat
  tq : List (EncryptedMessage D)
  fresh : Nat
  transmitted : List (TunnelMessage D)
  decrypted : List (Bytes D)
  deriving DecidableEq, Repr

structure TunnelEnv (D : Type) where
  settings : Settings D
  me : Nat
  destination : Nat

namespace Tunnel

variable {D : Type}

def gctCreateTunnel (kx0 ratchet fresh : Nat) : Tunnel D where
  ax := .created kx0 ratchet
  unverifiedAx := none
  unverifiedAttempts := 0
  estate := .uninitialized
  kxTask := false
  sendTask := false
  kxAuthRequested := false
  channels := 0
  ready := []
  busy := []
  tq := []
  fresh := fresh
  transmitted := []
  decrypted := []

def markConnectionUnready (t : Tunnel D) (ct : Nat) : Option (Tunnel D) :=
  if ct ∈ t.ready then
    some { t with ready := t.ready.erase ct, busy := ct :: t.busy }
  else none

def getReadyConnection (t : Tunnel D) : Option Nat :=
  t.ready.head?

def gccTransmit (t : Tunnel D) (message : TunnelMessage D) : Tunnel D :=
  { t with transmitted := t.transmitted ++ [message] }

def gctChangeEstate (t : Tunnel D) (state : EState) : Tunnel D :=
  if t.estate ≠ .ok ∧ state = .ok then
    { t with estate := state, kxTask := false, sendTask := true }
  else { t with estate := state }

def sendKx (t : Tunnel D) (ct : Option Nat) (ax : Axolotl D) : Option (Tunnel D) :=
  match ct.or t.getReadyConnection with
  | none => some t
  | some ct =>
      (t.markConnectionUnready ct).map fun t =>
        let t :=
          if t.estate = .uninitialized then t.gctChangeEstate .axSent
          else if t.estate = .axRecv then t.gctChangeEstate .axSentAndRecv
          else t
        t.gccTransmit (.kx ct true ax.kx0.publicKey ax.DHRs.publicKey)

def sendKxAuth (t : Tunnel D) (ct : Option Nat) (ax : Axolotl D)
    (forceReply : Bool) : Option (Tunnel D) :=
  match (ct.filter fun ct => ct ∈ t.ready).or t.getReadyConnection with
  | none => some { t with kxAuthRequested := true }
  | some ct =>
      let t := { t with kxAuthRequested := false }
      (t.markConnectionUnready ct).map fun t =>
        let t := if t.estate ≠ .ok then t.gctChangeEstate .axAuthSent else t
        t.gccTransmit (.kxAuth ct forceReply ax.kx0.publicKey ax.DHRs.publicKey (cryptoHash ax.RK))

def retryAx (t : Tunnel D) : Axolotl D :=
  t.unverifiedAx.getD t.ax

def retryKx (t : Tunnel D) : Option (Tunnel D) :=
  let t := { t with kxTask := false }
  match t.estate with
  | .uninitialized | .axSent => t.sendKx none t.ax
  | .axRecv | .axSentAndRecv | .axAuthSent =>
      t.sendKxAuth none t.retryAx (t.channels ≠ 0)
  | .ok => t.sendKxAuth none t.retryAx false

def trySendNormalPayload (t : Tunnel D) (ct : Nat) : Option (Tunnel D) :=
  if ct ∈ t.ready then
    match t.tq with
    | [] => some t
    | msg :: tq =>
        (markConnectionUnready { t with tq := tq } ct).map fun t =>
          t.gccTransmit (.encrypted ct msg)
  else none

def triggerTransmissions (t : Tunnel D) : Option (Tunnel D) :=
  let t := { t with sendTask := false }
  if t.tq = [] then some t
  else
    match t.getReadyConnection with
    | none => some t
    | some ct => t.trySendNormalPayload ct

/-- The message that is queued, `none` for `NULL`, and the tunnel after it. -/
def gctSend (env : TunnelEnv D) (now : Nat) (t : Tunnel D)
    (message : Bytes D) : Option (EncryptedMessage D) × Tunnel D :=
  if t.estate ≠ .ok then (none, t)
  else
    let out := gctSendMessage env.settings now t.fresh t.ax message
    (some out.2.1, { t with
        ax := out.1
        fresh := out.2.2
        tq := t.tq ++ [out.2.1]
        sendTask := true })

def connectionReadyCb (t : Tunnel D) (ct : Nat) (isReady : Bool) : Option (Tunnel D) :=
  if isReady = false then t.markConnectionUnready ct
  else if ct ∈ t.busy then
    let t := { t with busy := t.busy.erase ct, ready := t.ready ++ [ct] }
    match t.estate with
    | .uninitialized =>
        if t.channels = 0 then some t
        else sendKx { t with kxTask := false } (some ct) t.ax
    | .axRecv | .axSent | .axSentAndRecv | .axAuthSent =>
        some { t with kxTask := true }
    | .ok =>
        if t.kxAuthRequested then
          sendKxAuth { t with kxTask := false } (some ct) t.ax false
        else t.trySendNormalPayload ct
  else none

def addConnection (t : Tunnel D) (ct : Nat) : Tunnel D :=
  { t with busy := ct :: t.busy }

def gctConnectionLost (t : Tunnel D) (ct : Nat) : Tunnel D :=
  if ct ∈ t.ready then { t with ready := t.ready.erase ct }
  else { t with busy := t.busy.erase ct }

def gctAddChannel (t : Tunnel D) : Tunnel D :=
  let t := { t with channels := t.channels + 1 }
  if t.estate = .axAuthSent then { t with kxTask := true } else t

def gctRemoveChannel (t : Tunnel D) : Tunnel D :=
  { t with channels := t.channels - 1 }

variable [DecidableEq D]

/-- The context that a KX is tried on: nothing but the private keys, and what
`update_ax_by_kx` needs to recognize a duplicate. -/
def freshUnverifiedAx (t : Tunnel D) : Axolotl D :=
  { Axolotl.zeroed with
    DHRs := t.ax.DHRs
    kx0 := t.ax.kx0
    RK := t.ax.RK
    DHRr := t.ax.DHRr }

def afterKx (t : Tunnel D) : Tunnel D :=
  let t :=
    if t.estate = .uninitialized then t.gctChangeEstate .axRecv
    else if t.estate = .axSent then t.gctChangeEstate .axSentAndRecv
    else t
  if t.estate ≠ .ok then { t with kxTask := true } else t

def gctHandleKx (env : TunnelEnv D) (now : Nat) (t : Tunnel D) (ct : Nat)
    (ephemeralKey ratchetKey : Bytes D) : Option (Tunnel D) :=
  if t.ax.DHRr = ratchetKey then t.sendKxAuth (some ct) t.ax false
  else if t.unverifiedAx.any (fun ax => ax.DHRr = ratchetKey) then
    t.sendKxAuth (some ct) t.retryAx false
  else
    let out := updateAxByKx env.settings now env.me t.freshUnverifiedAx
      env.destination ephemeralKey ratchetKey
    let t := { t with unverifiedAx := some out.2, unverifiedAttempts := 0 }
    if out.1 ≠ .ok then some t else some t.afterKx

def gctHandleKxAuth (env : TunnelEnv D) (now : Nat) (t : Tunnel D)
    (ephemeralKey ratchetKey auth : Bytes D) : Option (Tunnel D) :=
  if t.estate = .uninitialized ∨ t.estate = .axRecv then some t
  else
    let out := updateAxByKx env.settings now env.me t.ax env.destination
      ephemeralKey ratchetKey
    if out.1 ≠ .ok then some t
    else if cryptoHash out.2.RK ≠ auth then t.sendKx none t.ax
    else
      let t := { t with ax := out.2, unverifiedAx := none }
      match t.estate with
      | .uninitialized | .axRecv => none
      | .axSent | .axSentAndRecv | .axAuthSent => some (t.gctChangeEstate .ok)
      | .ok => some t

def tryEstablishedAx (env : TunnelEnv D) (t : Tunnel D)
    (msg : EncryptedMessage D) : Option (Bytes D) × Tunnel D :=
  if t.estate = .ok then
    let out := tAxDecryptAndValidate env.settings t.ax msg
    (out.1, { t with ax := out.2 })
  else (none, t)

/-- The attempt to decrypt with the unverified context, after the other one has
failed.  The state moves to `CADET_TUNNEL_KEY_OK` whether or not it works. -/
def tryUnverifiedAx (env : TunnelEnv D) (t : Tunnel D)
    (msg : EncryptedMessage D) : Option (Bytes D) × Tunnel D :=
  match t.unverifiedAx with
  | none => (none, t)
  | some ax =>
      let out := tAxDecryptAndValidate env.settings ax msg
      let t :=
        if out.1.isSome then { t with ax := out.2, unverifiedAx := none }
        else { t with unverifiedAx := some out.2 }
      let t :=
        if t.estate = .axAuthSent then
          { t.gctChangeEstate .ok with sendTask := true }
        else t
      (out.1, t)

def countUnverifiedAttempt (t : Tunnel D) : Tunnel D :=
  if t.unverifiedAx.isSome then
    let t := { t with
      unverifiedAttempts := (t.unverifiedAttempts + 1) % 2 ^ 32 }
    if maxUnverifiedAttempts < t.unverifiedAttempts then
      { t with unverifiedAx := none }
    else t
  else t

def decryptPayload (env : TunnelEnv D) (t : Tunnel D)
    (msg : EncryptedMessage D) : Option (Bytes D) × Tunnel D :=
  match t.tryEstablishedAx env msg with
  | (some text, t) => (some text, t.countUnverifiedAttempt)
  | (none, t) =>
      let out := t.tryUnverifiedAx env msg
      (out.1, out.2.countUnverifiedAttempt)

def gctHandleEncrypted (env : TunnelEnv D) (t : Tunnel D) (ct : Nat)
    (msg : EncryptedMessage D) : Option (Tunnel D) :=
  match t.estate with
  | .uninitialized | .axRecv | .axSent =>
      sendKx { t with kxTask := false } (some ct) t.ax
  | .axSentAndRecv =>
      sendKxAuth { t with kxTask := false } (some ct) t.ax true
  | .axAuthSent | .ok =>
      match t.decryptPayload env msg with
      | (some text, t) => some { t with decrypted := t.decrypted ++ [text] }
      | (none, t) => sendKx { t with kxTask := false } (some ct) t.ax

end Tunnel

/-- The events of a tunnel.  The messages are those of an arbitrary network;
a task runs only while it is scheduled. -/
inductive TunnelEvent (D : Type) where
  | handleKx (now ct : Nat) (ephemeralKey ratchetKey : Bytes D)
  | handleKxAuth (now ct : Nat) (ephemeralKey ratchetKey auth : Bytes D)
  | handleEncrypted (ct : Nat) (msg : EncryptedMessage D)
  | retryKx
  | triggerTransmissions
  | connectionReady (ct : Nat) (isReady : Bool)
  | addConnection (ct : Nat)
  | connectionLost (ct : Nat)
  | addChannel
  | removeChannel
  | send (now : Nat) (message : Bytes D)

def Tunnel.step {D : Type} [DecidableEq D] (env : TunnelEnv D)
    (t : Tunnel D) : TunnelEvent D → Option (Tunnel D)
  | .handleKx now ct ephemeralKey ratchetKey =>
      t.gctHandleKx env now ct ephemeralKey ratchetKey
  | .handleKxAuth now _ ephemeralKey ratchetKey auth =>
      t.gctHandleKxAuth env now ephemeralKey ratchetKey auth
  | .handleEncrypted ct msg => t.gctHandleEncrypted env ct msg
  | .retryKx => if t.kxTask then t.retryKx else none
  | .triggerTransmissions => if t.sendTask then t.triggerTransmissions else none
  | .connectionReady ct isReady => t.connectionReadyCb ct isReady
  | .addConnection ct => some (t.addConnection ct)
  | .connectionLost ct => some (t.gctConnectionLost ct)
  | .addChannel => some t.gctAddChannel
  | .removeChannel => some t.gctRemoveChannel
  | .send now message => some (t.gctSend env now message).2

/-! ## An established tunnel stays established -/

namespace Tunnel

variable {D : Type} {t t' : Tunnel D} {ct : Nat} {ax : Axolotl D}

theorem estate_markConnectionUnready
    (h : t.markConnectionUnready ct = some t') : t'.estate = t.estate := by
  unfold markConnectionUnready at h
  split at h
  · cases h
    rfl
  · cases h

theorem ok_of_sendKx {ct : Option Nat} (h : t.sendKx ct ax = some t')
    (hok : t.estate = .ok) : t'.estate = .ok := by
  unfold sendKx at h
  split at h
  · cases h
    exact hok
  · obtain ⟨t₁, hmark, rfl⟩ := Option.map_eq_some_iff.mp h
    have hok₁ : t₁.estate = .ok := (estate_markConnectionUnready hmark).trans hok
    simp [gccTransmit, hok₁]

theorem ok_of_sendKxAuth {ct : Option Nat}
    (h : t.sendKxAuth ct ax forceReply = some t') (hok : t.estate = .ok) : t'.estate = .ok := by
  unfold sendKxAuth at h
  split at h
  · cases h
    exact hok
  · obtain ⟨t₁, hmark, rfl⟩ := Option.map_eq_some_iff.mp h
    have hok₁ : t₁.estate = .ok := (estate_markConnectionUnready hmark).trans hok
    simp [gccTransmit, hok₁]

theorem ok_of_trySendNormalPayload (h : t.trySendNormalPayload ct = some t')
    (hok : t.estate = .ok) : t'.estate = .ok := by
  unfold trySendNormalPayload at h
  split at h
  · split at h
    · cases h
      exact hok
    · obtain ⟨_, hmark, rfl⟩ := Option.map_eq_some_iff.mp h
      exact (estate_markConnectionUnready hmark).trans hok
  · cases h

theorem ok_of_triggerTransmissions (hok : t.estate = .ok)
    (h : t.triggerTransmissions = some t') : t'.estate = .ok := by
  unfold triggerTransmissions at h
  dsimp only at h
  split at h
  · cases h
    exact hok
  · split at h
    · cases h
      exact hok
    · exact ok_of_trySendNormalPayload h hok

theorem ok_of_connectionReadyCb (hok : t.estate = .ok)
    (h : t.connectionReadyCb ct isReady = some t') : t'.estate = .ok := by
  unfold connectionReadyCb at h
  split at h
  · exact (estate_markConnectionUnready h).trans hok
  · split at h
    · simp only [hok] at h
      split at h
      · exact ok_of_sendKxAuth h rfl
      · exact ok_of_trySendNormalPayload h rfl
    · cases h

theorem estate_countUnverifiedAttempt (t : Tunnel D) :
    t.countUnverifiedAttempt.estate = t.estate := by
  unfold countUnverifiedAttempt
  dsimp only
  split
  · split <;> rfl
  · rfl

variable [DecidableEq D] {env : TunnelEnv D}

theorem ok_of_gctHandleKx (hok : t.estate = .ok) {ephemeralKey ratchetKey : Bytes D}
    (h : t.gctHandleKx env now ct ephemeralKey ratchetKey = some t') : t'.estate = .ok := by
  unfold gctHandleKx at h
  split at h
  · exact ok_of_sendKxAuth h hok
  · split at h
    · exact ok_of_sendKxAuth h hok
    · dsimp only at h
      split at h
      · cases h
        exact hok
      · cases h
        simp [afterKx, hok]

theorem ok_of_gctHandleKxAuth (hok : t.estate = .ok) {ephemeralKey ratchetKey auth : Bytes D}
    (h : t.gctHandleKxAuth env now ephemeralKey ratchetKey auth = some t') : t'.estate = .ok := by
  simp only [gctHandleKxAuth, hok] at h
  rw [if_neg (by simp)] at h
  split at h
  · cases h
    exact hok
  · split at h
    · exact ok_of_sendKx h hok
    · cases h
      rfl

theorem ok_tryUnverifiedAx (env : TunnelEnv D) (hok : t.estate = .ok) (msg : EncryptedMessage D) :
    (t.tryUnverifiedAx env msg).2.estate = .ok := by
  unfold tryUnverifiedAx
  split
  · exact hok
  · dsimp only
    split <;> simp [hok]

theorem ok_decryptPayload (env : TunnelEnv D) (hok : t.estate = .ok) (msg : EncryptedMessage D) :
    (t.decryptPayload env msg).2.estate = .ok := by
  have htry : (t.tryEstablishedAx env msg).2.estate = .ok := by
    simp [tryEstablishedAx, hok]
  unfold decryptPayload
  split
  next heq =>
    rw [heq] at htry
    exact (estate_countUnverifiedAttempt _).trans htry
  next heq =>
    rw [heq] at htry
    exact (estate_countUnverifiedAttempt _).trans (ok_tryUnverifiedAx env htry msg)

theorem ok_of_gctHandleEncrypted (hok : t.estate = .ok)
    (h : t.gctHandleEncrypted env ct msg = some t') : t'.estate = .ok := by
  have hdecrypt := ok_decryptPayload env hok msg
  simp only [gctHandleEncrypted, hok] at h
  split at h
  next heq =>
    cases h
    rw [heq] at hdecrypt
    exact hdecrypt
  next heq =>
    rw [heq] at hdecrypt
    exact ok_of_sendKx h hdecrypt

theorem ok_of_step (hok : t.estate = .ok) {event : TunnelEvent D}
    (h : t.step env event = some t') : t'.estate = .ok := by
  cases event with
  | handleKx => exact ok_of_gctHandleKx hok h
  | handleKxAuth => exact ok_of_gctHandleKxAuth hok h
  | handleEncrypted => exact ok_of_gctHandleEncrypted hok h
  | retryKx =>
    simp only [step] at h
    split at h
    · simp only [retryKx, hok] at h
      exact ok_of_sendKxAuth h rfl
    · cases h
  | triggerTransmissions =>
    simp only [step] at h
    split at h
    · exact ok_of_triggerTransmissions hok h
    · cases h
  | connectionReady => exact ok_of_connectionReadyCb hok h
  | addConnection =>
    cases h
    exact hok
  | connectionLost ct =>
    cases h
    unfold gctConnectionLost
    split <;> exact hok
  | addChannel =>
    cases h
    simp [gctAddChannel, hok]
  | removeChannel =>
    cases h
    exact hok
  | send =>
    cases h
    simp [gctSend, hok]

end Tunnel

end Gnunet.Cadet
