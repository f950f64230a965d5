import Gnunet.CadetAxolotlSpec
import Gnunet.GuardedRun

/-!
# Two ends of a CADET tunnel and the network between them

A handshake carries the key contexts that two peers had before they exchanged
their KX data, and yields the contexts that `update_ax_by_kx` makes of them.  From
there the two ends send in any interleaving, and the network delivers any message
that was sent, any number of times and in any order.
-/

namespace Gnunet.Cadet

open Protocol Function

variable {D : Type}

inductive Peer where
  | alice
  | bob
  deriving DecidableEq, Repr

def Peer.other : Peer → Peer
  | .alice => .bob
  | .bob => .alice

@[simp] theorem Peer.other_other (p : Peer) : p.other.other = p := by
  cases p <;> rfl

theorem Peer.eq_or_eq_other (p q : Peer) : q = p ∨ q = p.other := by
  cases p <;> cases q <;> simp [Peer.other]

structure Sent (D : Type) where
  sender : Peer
  plaintext : D
  msg : EncryptedMessage D
  deriving DecidableEq, Repr

structure Received (D : Type) where
  receiver : Peer
  msg : EncryptedMessage D
  result : Option (Bytes D)
  deriving DecidableEq, Repr

/-- Both ends, the messages handed to the network and the calls of
`t_ax_decrypt_and_validate`, each oldest first.  `ratchets` lists the ratchet
steps of `t_ax_encrypt` with the root key each one started from. -/
structure Duplex (D : Type) where
  ax : Peer → Axolotl D
  fresh : Nat
  sent : List (Sent D)
  received : List (Received D)
  ratchets : List (Peer × Bytes D)

inductive DuplexEvent (D : Type) where
  | send (p : Peer) (now : Nat) (message : D)
  | deliver (i : Nat)

def Duplex.send (settings : Settings D) (duplex : Duplex D)
    (p : Peer) (now : Nat) (message : D) : Duplex D :=
  let out := gctSendMessage settings now duplex.fresh (duplex.ax p)
    (.data message)
  { duplex with
    ax := update duplex.ax p out.1
    fresh := out.2.2
    sent := duplex.sent ++ [⟨p, message, out.2.1⟩]
    ratchets :=
      if out.2.2 = duplex.fresh then duplex.ratchets
      else duplex.ratchets ++ [(p, (duplex.ax p).RK)] }

def Duplex.ratchet (settings : Settings D) (duplex : Duplex D) (p : Peer) (now : Nat) : Duplex D :=
  let out := tAxRatchet settings now duplex.fresh (duplex.ax p)
  { duplex with
    ax := update duplex.ax p out.1
    fresh := out.2
    ratchets :=
      if out.2 = duplex.fresh then duplex.ratchets
      else duplex.ratchets ++ [(p, (duplex.ax p).RK)] }

def Duplex.encrypt (duplex : Duplex D) (p : Peer) (message : D) : Duplex D :=
  let ax := duplex.ax p
  { duplex with
    ax := update duplex.ax p
      { ax with
        CKs := tHmacDeriveKey ax.CKs (.num 1)
        Ns := (ax.Ns + 1) % 2 ^ 32 }
    sent := duplex.sent ++ [⟨p, message,
      sealMessage ax.HKs ⟨ax.Ns, ax.PNs, ax.DHRs.publicKey⟩
        (encryptPayload (tHmacDeriveKey ax.CKs (.num 0)) (.data message))⟩] }

theorem Duplex.send_eq (duplex : Duplex D) :
    duplex.send settings p now message = (duplex.ratchet settings p now).encrypt p message := by
  simp only [Duplex.ratchet, Duplex.encrypt, update_self, update_idem]
  rfl

theorem Duplex.ratchet_of_not_ratchets {duplex : Duplex D}
    (hratchets : Cadet.ratchets settings now (duplex.ax p) = false) :
    duplex.ratchet settings p now = { duplex with
        ax := update duplex.ax p { duplex.ax p with
            ratchetCounter := ((duplex.ax p).ratchetCounter + 1) % 2 ^ 32 } } := by
  simp [Duplex.ratchet, tAxRatchet_of_not_ratchets _ hratchets]

theorem Duplex.ratchet_of_ratchets {duplex : Duplex D}
    (hratchets : Cadet.ratchets settings now (duplex.ax p) = true) :
    duplex.ratchet settings p now = { duplex with
        ax := update duplex.ax p (advanceRatchet settings now duplex.fresh (duplex.ax p))
        fresh := duplex.fresh + 1
        ratchets := duplex.ratchets ++ [(p, (duplex.ax p).RK)] } := by
  simp [Duplex.ratchet, tAxRatchet_of_ratchets _ hratchets]

variable [DecidableEq D]

def Duplex.deliver (settings : Settings D) (duplex : Duplex D) (s : Sent D) : Duplex D :=
  let p := s.sender.other
  let out := tAxDecryptAndValidate settings (duplex.ax p) s.msg
  { duplex with
    ax := update duplex.ax p out.2
    received := duplex.received ++ [⟨p, s.msg, out.1⟩] }

def Duplex.step (settings : Settings D) (duplex : Duplex D) : DuplexEvent D → Option (Duplex D)
  | .send p now message => some (duplex.send settings p now message)
  | .deliver i => (duplex.sent[i]?).map (duplex.deliver settings)

/-- The KX data of two peers: the contexts before the exchange, whose private
keys are numbers and whose counters are 32-bit values, and the ratchet keys
that the KX messages announced. -/
structure Handshake (D : Type) [DecidableEq D] where
  settings : Settings D
  aliceId : Nat
  bobId : Nat
  id_lt : aliceId < bobId
  aliceNow : Nat
  bobNow : Nat
  old : Peer → Axolotl D
  kx0 : Peer → Nat
  ratchet : Peer → Nat
  announced : Peer → Bytes D
  old_kx0 : ∀ p, (old p).kx0 = .secret (kx0 p)
  old_DHRs : ∀ p, (old p).DHRs = .secret (ratchet p)
  old_Ns : ∀ p, (old p).Ns < 2 ^ 32
  old_Nr : ∀ p, (old p).Nr < 2 ^ 32
  alice_ok : (updateAxByKx settings aliceNow aliceId (old .alice) bobId
      (.point (kx0 .bob)) (announced .bob)).1 = .ok
  bob_ok : (updateAxByKx settings bobNow bobId (old .bob) aliceId
      (.point (kx0 .alice)) (announced .alice)).1 = .ok

namespace Handshake

theorem created_ok (settings : Settings D) (now kx0 ratchet : Nat)
    (hne : me ≠ pid) (ephemeralKey : Bytes D) (announced : Nat) :
    (updateAxByKx settings now me (Axolotl.created kx0 ratchet) pid
      ephemeralKey (.point announced)).1 = .ok := by
  have hDHRr : (Axolotl.created kx0 ratchet : Axolotl D).DHRr ≠ .point announced := by
    simp [Axolotl.created, Axolotl.zeroed]
  have hRK : ∀ material : Bytes D,
      (Axolotl.created kx0 ratchet : Axolotl D).RK ≠ kxKey 0 material := by
    simp [Axolotl.created, Axolotl.zeroed, kxKey, cryptoKdf]
  unfold updateAxByKx
  rw [if_neg hne, if_neg hDHRr]
  rw [if_neg (hRK _)]
  split <;> rfl

def created (settings : Settings D) {aliceId bobId : Nat}
    (id_lt : aliceId < bobId) (aliceNow bobNow : Nat) (kx0 ratchet : Peer → Nat) : Handshake D where
  settings := settings
  aliceId := aliceId
  bobId := bobId
  id_lt := id_lt
  aliceNow := aliceNow
  bobNow := bobNow
  old p := Axolotl.created (kx0 p) (ratchet p)
  kx0 := kx0
  ratchet := ratchet
  announced p := .point (ratchet p)
  old_kx0 _ := rfl
  old_DHRs _ := rfl
  old_Ns _ := Nat.two_pow_pos 32
  old_Nr _ := Nat.two_pow_pos 32
  alice_ok := created_ok settings aliceNow _ _ (by omega) _ _
  bob_ok := created_ok settings bobNow _ _ (by omega) _ _

def ax (h : Handshake D) : Peer → Axolotl D
  | .alice =>
      (updateAxByKx h.settings h.aliceNow h.aliceId (h.old .alice) h.bobId
        (.point (h.kx0 .bob)) (h.announced .bob)).2
  | .bob =>
      (updateAxByKx h.settings h.bobNow h.bobId (h.old .bob) h.aliceId
        (.point (h.kx0 .alice)) (h.announced .alice)).2

def duplex (h : Handshake D) (fresh : Nat) : Duplex D where
  ax := h.ax
  fresh := fresh
  sent := []
  received := []
  ratchets := []

def material (h : Handshake D) : Bytes D :=
  kxMaterial h.aliceId h.bobId (.secret (h.kx0 .alice)) (.point (h.kx0 .bob))

theorem bob_material (h : Handshake D) : kxMaterial h.bobId h.aliceId (.secret (h.kx0 .bob))
      (.point (h.kx0 .alice)) = h.material := by
  have hlt := h.id_lt
  have hnot : ¬ h.bobId < h.aliceId := by omega
  unfold material kxMaterial
  rw [if_neg hnot, if_pos hlt, Term.ecdh_comm (h.kx0 .bob) h.aliceId,
    Term.ecdh_comm h.bobId (h.kx0 .alice),
    Term.ecdh_comm (h.kx0 .bob) (h.kx0 .alice)]

theorem ax_alice (h : Handshake D) : h.ax .alice = { h.old .alice with
      DHRr := h.announced .bob
      RK := kxKey 0 h.material
      HKr := kxKey 1 h.material
      NHKs := kxKey 2 h.material
      NHKr := kxKey 3 h.material
      CKr := kxKey 4 h.material
      ratchetFlag := true } := by
  obtain ⟨hne, hratchet, hroot⟩ := updateAxByKx_ok_iff.mp h.alice_ok
  simp only [ax, updateAxByKx, if_neg hne, if_neg hratchet, if_neg hroot, if_pos h.id_lt]
  rw [h.old_kx0]
  rfl

theorem ax_bob (h : Handshake D) : h.ax .bob = { h.old .bob with
      DHRr := h.announced .alice
      RK := kxKey 0 h.material
      HKs := kxKey 1 h.material
      NHKr := kxKey 2 h.material
      NHKs := kxKey 3 h.material
      CKs := kxKey 4 h.material
      ratchetFlag := false
      ratchetExpiration := timeAbsoluteAdd h.bobNow h.settings.ratchetTime } := by
  obtain ⟨hne, hratchet, hroot⟩ := updateAxByKx_ok_iff.mp h.bob_ok
  simp only [ax, updateAxByKx, if_neg hne, if_neg hratchet, if_neg hroot, if_neg h.id_lt.asymm]
  rw [h.old_kx0, bob_material]

theorem ax_RK (h : Handshake D) (p : Peer) : (h.ax p).RK = kxKey 0 h.material := by
  cases p
  · rw [ax_alice]
  · rw [ax_bob]

end Handshake

end Gnunet.Cadet
