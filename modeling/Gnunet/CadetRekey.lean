import Gnunet.CadetDelivery
import Mathlib.Data.List.TakeWhile

/-!
# The first messages after a new key exchange

`update_ax_by_kx` works on a copy of the old context and keeps its counters.  The
first message of bob, unless it starts with a ratchet step, therefore carries the
number `Ns` of the old session, while its key is the first one of the new chain.
Alice reads it only if its own old counter `Nr` is in step.  Alice's first message
starts a chain; it can be read if the ratchet key of bob that alice knows is the
one that bob holds.
-/

namespace Gnunet.Cadet

open Protocol Duplex

variable {D : Type}

/-- The counters for which no key is skipped: equal ones, and a receiver whose
counter is about to wrap. -/
def CountersInStep (Ns Nr : Nat) : Prop :=
  Ns = Nr ∨ Ns < Nr ∧ 0 ≤ keyGap Ns Nr ∧ keyGap Ns Nr ≤ maxKeyGap

/-! ## Reading the first message of a chain -/

theorem size_le_chainAfter (CK : Bytes D) (n : Nat) : CK.size + n ≤ (chainAfter CK n).size := by
  induction n with
  | zero => exact Nat.le_refl _
  | succ n ih =>
    have hlt := size_lt_tHmacDeriveKey (chainAfter CK n) (.num 1)
    simp only [chainAfter]
    omega

theorem chainAfter_succ (CK : Bytes D) (n : Nat) :
    chainAfter (tHmacDeriveKey CK (.num 1)) n = chainAfter CK (n + 1) := by
  induction n with
  | zero => rfl
  | succ n ih =>
    rw [chainAfter, ih]
    rfl

theorem storeSkippedKeys_CKr (HKr : Bytes D) {Np : Nat} (hNp : Np < 2 ^ 32)
    (rounds : Nat) (ax : Axolotl D) (hrounds : ax.Nr + rounds = Np) :
    (storeSkippedKeys HKr Np rounds ax).CKr = chainAfter ax.CKr rounds := by
  induction rounds generalizing ax with
  | zero => rfl
  | succ rounds ih =>
    have hlt : ax.Nr < Np := by omega
    have hmod : (ax.Nr + 1) % 2 ^ 32 = ax.Nr + 1 := by omega
    rw [storeSkippedKeys, if_pos hlt, ih (storeSkippedKey ax HKr)
      (by simp only [storeSkippedKey, hmod]; omega)]
    exact chainAfter_succ ax.CKr rounds

variable [DecidableEq D]

theorem payload_read_iff (MK MK' : Bytes D) :
    cryptoSymmetricDecrypt (encryptPayload MK (.data d)) MK'
      (symmetricDeriveIv MK') = .data d ↔ MK = MK' := by
  constructor
  · intro hread
    by_contra hne
    exact cryptoSymmetricDecrypt_ne_data hne d hread
  · rintro rfl
    simp [encryptPayload]

variable {ax : Axolotl D}

theorem tryOldAxKeys_of_unknown (settings : Settings D) {HK : Bytes D}
    (hunknown : ∀ key ∈ ax.skipped, key.HK ≠ HK) (header : AxHeader D) (payload : Bytes D) :
    tryOldAxKeys settings ax (sealMessage HK header payload) = (none, ax) := by
  have hdrop : ax.skipped.dropWhile (fun key => !hmacValid key.HK (sealMessage HK header payload)) =
        [] := by
    rw [List.dropWhile_eq_nil_iff]
    intro key hkey
    simpa using hunknown key hkey
  unfold tryOldAxKeys
  rw [hdrop]

theorem first_in_chain_iff (settings : Settings D) {Ns : Nat} (hNs : Ns < 2 ^ 32)
    (hunknown : ∀ key ∈ ax.skipped, key.HK ≠ ax.HKr) (PNs : Nat) (DHRs : Bytes D) (d : D) :
    (tAxDecryptAndValidate settings ax (sealMessage ax.HKr ⟨Ns, PNs, DHRs⟩
        (encryptPayload (tHmacDeriveKey ax.CKr (.num 0)) (.data d)))).1 =
      some (.data d) ↔ CountersInStep Ns ax.Nr := by
  have hread : ∀ CKr : Bytes D, cryptoSymmetricDecrypt
        (encryptPayload (tHmacDeriveKey ax.CKr (.num 0)) (.data d))
        (tHmacDeriveKey CKr (.num 0))
        (symmetricDeriveIv (tHmacDeriveKey CKr (.num 0))) = .data d ↔
          ax.CKr = CKr := by
    intro CKr
    rw [payload_read_iff]
    exact ⟨fun heq => (tHmacDeriveKey_injective heq).1, fun heq => heq ▸ rfl⟩
  unfold tAxDecryptAndValidate CountersInStep
  rw [if_pos (by simp), tHDecrypt_sealMessage]
  unfold decryptInChain
  by_cases heq : Ns = ax.Nr
  · simp only [heq, true_or, iff_true, if_true]
    exact congrArg some ((hread ax.CKr).mpr rfl)
  · rw [if_neg heq]
    by_cases hout : maxKeyGap < keyGap Ns ax.Nr ∨ keyGap Ns ax.Nr < 0
    · rw [storeAxKeys_outside ax.HKr hout]
      simp only [Bool.false_eq_true, if_false, tryOldAxKeys_of_unknown settings hunknown]
      simp only [reduceCtorEq, false_iff]
      omega
    · rw [storeAxKeys_inside ax.HKr hout]
      simp only [if_true, tAxDecrypt, sealMessage_payload, Option.some.injEq, hread]
      rcases Nat.lt_or_ge Ns ax.Nr with hlt | hge
      · rw [Nat.sub_eq_zero_of_le hlt.le]
        simp only [storeSkippedKeys, true_iff]
        omega
      · rw [storeSkippedKeys_CKr ax.HKr hNs _ ax (by omega)]
        have hsize := size_le_chainAfter ax.CKr (Ns - ax.Nr)
        constructor
        · intro hsame
          rw [← hsame] at hsize
          omega
        · omega

theorem first_after_switch_iff (settings : Settings D) (hne : ax.HKr ≠ ax.NHKr) (CK : Bytes D)
    (PNs : Nat) (DHRp : Bytes D) (d : D) :
    (tAxDecryptAndValidate settings ax (sealMessage ax.NHKr ⟨0, PNs, DHRp⟩
        (encryptPayload (tHmacDeriveKey CK (.num 0)) (.data d)))).1 = some (.data d) ↔
        CK = ratchetKey 2 ax.RK (Term.ecdh ax.DHRs DHRp) := by
  unfold tAxDecryptAndValidate
  rw [if_neg (by simpa using hne), if_pos (by simp), switchChain_eq]
  simp only [tHDecrypt_sealMessage, decryptInChain, commitRatchet, if_true,
    tAxDecrypt, sealMessage_payload, Option.some.injEq]
  rw [payload_read_iff]
  constructor
  · intro heq
    exact (tHmacDeriveKey_injective heq).1
  · rintro rfl
    rfl

variable {settings : Settings D} {now : Nat} {axS : Axolotl D}

theorem chain_message_read_iff (fresh : Nat) (hratchets : ratchets settings now axS = false)
    (hHK : ax.HKr = axS.HKs) (hCK : ax.CKr = axS.CKs) (hNs : axS.Ns < 2 ^ 32)
    (hunknown : ∀ key ∈ ax.skipped, key.HK ≠ ax.HKr) (d : D) :
    (tAxDecryptAndValidate settings ax (gctSendMessage settings now fresh axS (.data d)).2.1).1 =
      some (.data d) ↔ CountersInStep axS.Ns ax.Nr := by
  rw [gctSendMessage_of_not_ratchets fresh hratchets, ← hHK, ← hCK]
  exact first_in_chain_iff settings hNs hunknown _ _ d

theorem ratchet_message_read_iff (fresh : Nat) (hratchets : ratchets settings now axS = true)
    (hHK : ax.NHKr = axS.NHKs) (hne : ax.HKr ≠ ax.NHKr) (d : D) :
    (tAxDecryptAndValidate settings ax (gctSendMessage settings now fresh axS (.data d)).2.1).1 =
      some (.data d) ↔ axS.RK = ax.RK ∧ Term.ecdh (.secret fresh) axS.DHRr =
            Term.ecdh ax.DHRs (.point fresh) := by
  rw [gctSendMessage_of_ratchets fresh hratchets, ← hHK]
  refine (first_after_switch_iff settings hne _ _ _ d).trans ?_
  constructor
  · intro heq
    exact (ratchetKey_injective heq).2
  · rintro ⟨hRK, hdh⟩
    simp only [advanceRatchet, newEphemeral, hRK, hdh]

theorem ratchet_message_sameRatchet (fresh : Nat) (hratchets : ratchets settings now axS = true)
    (hHK : ax.NHKr = axS.NHKs) (hne : ax.HKr ≠ ax.NHKr) (d : D) :
    SameRatchet (commitRatchet { ax with HKr := ax.NHKr } (.point fresh))
      (tAxDecryptAndValidate settings ax
        (gctSendMessage settings now fresh axS (.data d)).2.1).2 := by
  obtain ⟨payload, hmsg⟩ : ∃ payload, (gctSendMessage settings now fresh axS (.data d)).2.1 =
        sealMessage ax.NHKr ⟨0, axS.Ns, .point fresh⟩ payload := by
    rw [gctSendMessage_of_ratchets fresh hratchets, ← hHK]
    exact ⟨_, rfl⟩
  have hcurrent : hmacValid ax.HKr
      (sealMessage ax.NHKr ⟨0, axS.Ns, .point fresh⟩ payload) = false := by
    simpa using hne
  rw [hmsg]
  simpa using tAxDecryptAndValidate_next settings hcurrent (by simp)

theorem ratchet_answer_read {now' : Nat} {fresh fresh' : Nat} {d : D}
    (hratchets : ratchets settings now axS = true) (hHK : ax.NHKr = axS.NHKs)
    (hne : ax.HKr ≠ ax.NHKr) (hHK' : axS.NHKr = ax.NHKs) (hne' : axS.HKr ≠ axS.NHKr) :
    let out := gctSendMessage settings now fresh axS (.data d)
    let read := tAxDecryptAndValidate settings ax out.2.1
    read.1 = some (.data d) →
    ratchets settings now' read.2 = true → ∀ d',
    (tAxDecryptAndValidate settings out.1
      (gctSendMessage settings now' fresh' read.2 (.data d')).2.1).1 =
        some (.data d') := by
  intro out read hread hanswer d'
  obtain ⟨hRK, hdh⟩ := (ratchet_message_read_iff fresh hratchets hHK hne d).mp hread
  obtain ⟨_, CKr, Nr, hsame⟩ : SameRatchet _ read.2 :=
    ratchet_message_sameRatchet fresh hratchets hHK hne d
  obtain ⟨hHKr, hNHKr, _⟩ := gctSendMessage_receiving settings now fresh axS (.data d)
  have hsent : out.1.RK = ratchetKey 0 ax.RK (Term.ecdh ax.DHRs (.point fresh)) ∧
      out.1.DHRs = .secret fresh := by
    simp [out, gctSendMessage_of_ratchets fresh hratchets, advanceRatchet, newEphemeral, hRK, hdh]
  have hNHKs : out.1.NHKr = read.2.NHKs := by
    rw [hsame]
    exact hNHKr.trans hHK'
  have hnew : out.1.HKr ≠ out.1.NHKr := by
    simpa only [out, hHKr, hNHKr] using hne'
  rw [ratchet_message_read_iff fresh' hanswer hNHKs hnew, hsent.1, hsent.2]
  rw [hsame]
  exact ⟨rfl, Term.ecdh_comm fresh' fresh⟩

/-! ## The first messages of both peers -/

/-- The orders in which the two first messages can be sent and delivered. -/
inductive Exchange where
  | crossing
  | bobFirst
  | aliceFirst
  deriving DecidableEq, Repr

def Exchange.events (ta tb : Nat) (a b : D) : Exchange → List (DuplexEvent D)
  | .crossing =>
      [.send .alice ta a, .send .bob tb b, .deliver 0, .deliver 1]
  | .bobFirst =>
      [.send .bob tb b, .deliver 0, .send .alice ta a, .deliver 1]
  | .aliceFirst =>
      [.send .alice ta a, .deliver 0, .send .bob tb b, .deliver 1]

def Exchange.plaintexts (a b : D) : Exchange → List (Option (Bytes D))
  | .crossing => [some (.data a), some (.data b)]
  | .bobFirst => [some (.data b), some (.data a)]
  | .aliceFirst => [some (.data a), some (.data b)]

def Handshake.FirstMessagesRead (h : Handshake D) (fresh ta tb : Nat)
    (a b : D) (exchange : Exchange) : Prop :=
  (exec (step h.settings) (fun _ _ => True) (h.duplex fresh) (exchange.events ta tb a b)).map
      (fun duplex => duplex.received.map Received.result) =
    some (exchange.plaintexts a b)

/-- The keys of the exchange are new: neither old context holds one of the
header keys under which the other peer sends. -/
structure Handshake.NewKeys (h : Handshake D) : Prop where
  bob : (h.old .bob).HKr ≠ kxKey 2 h.material
  alice : ∀ key ∈ (h.old .alice).skipped, key.HK ≠ kxKey 1 h.material

/-- A condition on the old contexts, the announced ratchet keys and the time
at which bob sends. -/
def Handshake.FirstMessagesCondition (h : Handshake D) (tb : Nat) : Exchange → Prop
  | .crossing =>
      ratchetDue h.settings tb (h.ax .bob) = false ∧
        CountersInStep (h.old .bob).Ns (h.old .alice).Nr ∧
        h.announced .bob = .point (h.ratchet .bob)
  | .bobFirst =>
      if ratchetDue h.settings tb (h.ax .bob) then
        h.announced .alice = .point (h.ratchet .alice)
      else
        CountersInStep (h.old .bob).Ns (h.old .alice).Nr ∧
          h.announced .bob = .point (h.ratchet .bob)
  | .aliceFirst =>
      h.announced .bob = .point (h.ratchet .bob) ∧ (ratchetDue h.settings tb
            { h.ax .bob with ratchetAllowed := true } = true ∨
          CountersInStep (h.old .bob).Ns (h.old .alice).Nr)

namespace Handshake

variable (h : Handshake D) (fresh ta tb : Nat) (a b : D)

theorem crossing_read_iff : h.FirstMessagesRead fresh ta tb a b .crossing ↔
      let outA := gctSendMessage h.settings ta fresh (h.ax .alice) (.data a)
      let outB := gctSendMessage h.settings tb outA.2.2 (h.ax .bob) (.data b)
      (tAxDecryptAndValidate h.settings outB.1 outA.2.1).1 = some (.data a) ∧
        (tAxDecryptAndValidate h.settings outA.1 outB.2.1).1 =
          some (.data b) := by
  unfold FirstMessagesRead
  simp [exec, Exchange.events, Exchange.plaintexts, step, send, deliver, duplex, Peer.other]

theorem bobFirst_read_iff : h.FirstMessagesRead fresh ta tb a b .bobFirst ↔
      let outB := gctSendMessage h.settings tb fresh (h.ax .bob) (.data b)
      let readA := tAxDecryptAndValidate h.settings (h.ax .alice) outB.2.1
      let outA := gctSendMessage h.settings ta outB.2.2 readA.2 (.data a)
      readA.1 = some (.data b) ∧ (tAxDecryptAndValidate h.settings outB.1 outA.2.1).1 =
          some (.data a) := by
  unfold FirstMessagesRead
  simp [exec, Exchange.events, Exchange.plaintexts, step, send, deliver, duplex, Peer.other]

theorem aliceFirst_read_iff : h.FirstMessagesRead fresh ta tb a b .aliceFirst ↔
      let outA := gctSendMessage h.settings ta fresh (h.ax .alice) (.data a)
      let readB := tAxDecryptAndValidate h.settings (h.ax .bob) outA.2.1
      let outB := gctSendMessage h.settings tb outA.2.2 readB.2 (.data b)
      readB.1 = some (.data a) ∧ (tAxDecryptAndValidate h.settings outA.1 outB.2.1).1 =
          some (.data b) := by
  unfold FirstMessagesRead
  simp [exec, Exchange.events, Exchange.plaintexts, step, send, deliver, duplex, Peer.other]

/-! ### What the four roles need of a context -/

structure AliceSends (h : Handshake D) (ax : Axolotl D) : Prop where
  ratchetFlag : ax.ratchetFlag = true
  NHKs : ax.NHKs = kxKey 2 h.material
  RK : ax.RK = kxKey 0 h.material
  DHRr : ax.DHRr = h.announced .bob

structure BobReceives (h : Handshake D) (ax : Axolotl D) : Prop where
  HKr : ax.HKr = (h.old .bob).HKr
  NHKr : ax.NHKr = kxKey 2 h.material
  RK : ax.RK = kxKey 0 h.material
  DHRs : ax.DHRs = .secret (h.ratchet .bob)

structure BobSends (h : Handshake D) (ax : Axolotl D) : Prop where
  HKs : ax.HKs = kxKey 1 h.material
  CKs : ax.CKs = kxKey 4 h.material
  Ns : ax.Ns = (h.old .bob).Ns

structure AliceReceives (h : Handshake D) (ax : Axolotl D) : Prop where
  HKr : ax.HKr = kxKey 1 h.material
  NHKr : ax.NHKr = kxKey 3 h.material
  CKr : ax.CKr = kxKey 4 h.material
  Nr : ax.Nr = (h.old .alice).Nr
  skipped : ax.skipped = (h.old .alice).skipped

theorem aliceSends : h.AliceSends (h.ax .alice) := by
  rw [ax_alice]
  exact ⟨rfl, rfl, rfl, rfl⟩

theorem bobReceives : h.BobReceives (h.ax .bob) := by
  rw [ax_bob]
  exact ⟨rfl, rfl, rfl, h.old_DHRs .bob⟩

theorem bobSends : h.BobSends (h.ax .bob) := by
  rw [ax_bob]
  exact ⟨rfl, rfl, rfl⟩

theorem aliceReceives : h.AliceReceives (h.ax .alice) := by
  rw [ax_alice]
  exact ⟨rfl, rfl, rfl, rfl, rfl⟩

variable {h} {fresh ta tb a b} {axA axB : Axolotl D}

theorem AliceSends.ratchets (hA : h.AliceSends axA) : ratchets h.settings ta axA = true := by
  simp [Cadet.ratchets, hA.ratchetFlag]

theorem bob_ratchets : ratchets h.settings tb (h.ax .bob) =
      ratchetDue h.settings tb (h.ax .bob) := by
  simp [Cadet.ratchets, ax_bob]

theorem AliceSends.afterSame (hA : h.AliceSends axA) (hsame : SameRatchet axA ax) :
    h.AliceSends ax := by
  obtain ⟨_, CKr, Nr, rfl⟩ := hsame
  exact ⟨hA.ratchetFlag, hA.NHKs, hA.RK, hA.DHRr⟩

theorem BobReceives.afterSend (hB : h.BobReceives axB)
    (hratchets : Cadet.ratchets h.settings tb axB = false) : h.BobReceives
      (gctSendMessage h.settings tb fresh axB (.data b)).1 := by
  rw [gctSendMessage_of_not_ratchets fresh hratchets]
  exact ⟨hB.HKr, hB.NHKr, hB.RK, hB.DHRs⟩

theorem AliceReceives.afterSend (hA : h.AliceReceives axA) : h.AliceReceives
      (gctSendMessage h.settings ta fresh axA (.data a)).1 := by
  obtain ⟨hHKr, hNHKr, hCKr, hNr, hskipped⟩ :=
    gctSendMessage_receiving h.settings ta fresh axA (.data a)
  exact ⟨hHKr.trans hA.HKr, hNHKr.trans hA.NHKr, hCKr.trans hA.CKr,
    hNr.trans hA.Nr, hskipped.trans hA.skipped⟩

/-! ### The messages -/

theorem bob_reads_iff (hnew : h.NewKeys) (hA : h.AliceSends axA) (hB : h.BobReceives axB) :
    (tAxDecryptAndValidate h.settings axB
      (gctSendMessage h.settings ta fresh axA (.data a)).2.1).1 = some (.data a) ↔
        h.announced .bob = .point (h.ratchet .bob) := by
  rw [ratchet_message_read_iff fresh hA.ratchets (hB.NHKr.trans hA.NHKs.symm)
    (by rw [hB.HKr, hB.NHKr]; exact hnew.bob), hA.DHRr, hB.DHRs,
    Term.ecdh_eq_iff, hA.RK, hB.RK]
  simp

theorem alice_reads_iff (hnew : h.NewKeys) (hB : h.BobSends axB)
    (hratchets : Cadet.ratchets h.settings tb axB = false) (hA : h.AliceReceives axA) :
    (tAxDecryptAndValidate h.settings axA
      (gctSendMessage h.settings tb fresh axB (.data b)).2.1).1 = some (.data b) ↔
        CountersInStep (h.old .bob).Ns (h.old .alice).Nr := by
  rw [chain_message_read_iff fresh hratchets (hA.HKr.trans hB.HKs.symm)
    (hA.CKr.trans hB.CKs.symm) (hB.Ns ▸ h.old_Ns .bob)
    (by rw [hA.skipped, hA.HKr]; exact hnew.alice), hB.Ns, hA.Nr]

theorem bob_ahead_fails (hnew : h.NewKeys) (hdue : Cadet.ratchets h.settings tb (h.ax .bob) = true)
    (fresh' : Nat) :
    (tAxDecryptAndValidate h.settings (gctSendMessage h.settings tb fresh' (h.ax .bob) (.data b)).1
      (gctSendMessage h.settings ta fresh (h.ax .alice) (.data a)).2.1).1 ≠ some (.data a) := by
  obtain ⟨hHKr, hNHKr, _⟩ := gctSendMessage_receiving h.settings tb fresh' (h.ax .bob) (.data b)
  rw [Ne, ratchet_message_read_iff fresh h.aliceSends.ratchets
    (hNHKr.trans (h.bobReceives.NHKr.trans h.aliceSends.NHKs.symm))
    (by rw [hHKr, hNHKr, h.bobReceives.HKr, h.bobReceives.NHKr]
        exact hnew.bob)]
  rintro ⟨hRK, _⟩
  rw [gctSendMessage_of_ratchets _ hdue] at hRK
  simp only [advanceRatchet, newEphemeral, ax_RK] at hRK
  have hsize := size_lt_ratchetKey 0 (kxKey 0 h.material)
    (Term.ecdh (.secret fresh') (h.ax .bob).DHRr)
  rw [← hRK] at hsize
  exact Nat.lt_irrefl _ hsize

theorem crossing_iff (hnew : h.NewKeys) : h.FirstMessagesRead fresh ta tb a b .crossing ↔
      h.FirstMessagesCondition tb .crossing := by
  rw [crossing_read_iff]
  simp only [FirstMessagesCondition]
  cases hdue : ratchetDue h.settings tb (h.ax .bob) with
  | false =>
    have hbob := bob_ratchets.trans hdue
    rw [bob_reads_iff hnew h.aliceSends (h.bobReceives.afterSend hbob),
      alice_reads_iff hnew h.bobSends hbob h.aliceReceives.afterSend]
    simp only [true_and]
    exact And.comm
  | true =>
    have hbob := bob_ratchets.trans hdue
    simp only [reduceCtorEq, false_and, iff_false, not_and]
    intro hread
    exact absurd hread (bob_ahead_fails hnew hbob _)

theorem bobFirst_iff (hnew : h.NewKeys) : h.FirstMessagesRead fresh ta tb a b .bobFirst ↔
      h.FirstMessagesCondition tb .bobFirst := by
  rw [bobFirst_read_iff]
  simp only [FirstMessagesCondition]
  cases hdue : ratchetDue h.settings tb (h.ax .bob) with
  | false =>
    have hbob := bob_ratchets.trans hdue
    have hcurrent : hmacValid (h.ax .alice).HKr (gctSendMessage h.settings tb fresh (h.ax .bob)
          (.data b)).2.1 = true := by
      rw [gctSendMessage_of_not_ratchets fresh hbob]
      simp [h.aliceReceives.HKr, h.bobSends.HKs]
    have hsame := tAxDecryptAndValidate_current h.settings hcurrent
    rw [alice_reads_iff hnew h.bobSends hbob h.aliceReceives,
      bob_reads_iff hnew (h.aliceSends.afterSame hsame) (h.bobReceives.afterSend hbob)]
    simp
  | true =>
    have hbob := bob_ratchets.trans hdue
    have hHK : (h.ax .alice).NHKr = (h.ax .bob).NHKs := by
      rw [ax_alice, ax_bob]
    have hne : (h.ax .alice).HKr ≠ (h.ax .alice).NHKr := by
      rw [ax_alice]
      simp [kxKey, cryptoKdf]
    rw [if_pos rfl, and_iff_left_of_imp]
    · rw [ratchet_message_read_iff fresh hbob hHK hne, ax_RK, ax_RK,
        ax_bob, ax_alice]
      simp only [h.old_DHRs, Term.ecdh_eq_iff, true_and]
    · intro hread
      obtain ⟨_, CKr, Nr, hsame⟩ := ratchet_message_sameRatchet fresh hbob hHK hne b
      refine ratchet_answer_read hbob hHK hne ?_ ?_ hread ?_ a
      · rw [h.bobReceives.NHKr, h.aliceSends.NHKs]
      · rw [h.bobReceives.HKr, h.bobReceives.NHKr]
        exact hnew.bob
      · rw [hsame]
        simp [Cadet.ratchets, commitRatchet, h.aliceSends.ratchetFlag]

theorem bobSends_afterSwitch (tb : Nat) {DHRp : Bytes D}
    (hsame : SameRatchet (commitRatchet { h.ax .bob with HKr := (h.ax .bob).NHKr } DHRp) ax) :
    h.BobSends ax ∧ Cadet.ratchets h.settings tb ax =
      ratchetDue h.settings tb { h.ax .bob with ratchetAllowed := true } := by
  obtain ⟨_, CKr, Nr, rfl⟩ := hsame
  refine ⟨⟨h.bobSends.HKs, h.bobSends.CKs, h.bobSends.Ns⟩, ?_⟩
  simp [Cadet.ratchets, ratchetDue, commitRatchet, ax_bob]

theorem aliceFirst_iff (hnew : h.NewKeys) : h.FirstMessagesRead fresh ta tb a b .aliceFirst ↔
      h.FirstMessagesCondition tb .aliceFirst := by
  have hA : Cadet.ratchets h.settings ta (h.ax .alice) = true := h.aliceSends.ratchets
  have hHK : (h.ax .bob).NHKr = (h.ax .alice).NHKs := by
    rw [h.bobReceives.NHKr, h.aliceSends.NHKs]
  have hne : (h.ax .bob).HKr ≠ (h.ax .bob).NHKr := by
    rw [h.bobReceives.HKr, h.bobReceives.NHKr]
    exact hnew.bob
  obtain ⟨hB, hdue⟩ := bobSends_afterSwitch tb (ratchet_message_sameRatchet fresh hA hHK hne a)
  rw [aliceFirst_read_iff]
  simp only [FirstMessagesCondition]
  rw [bob_reads_iff hnew h.aliceSends h.bobReceives]
  apply and_congr_right
  intro hannounced
  cases hbob : ratchetDue h.settings tb
      { h.ax .bob with ratchetAllowed := true } with
  | false =>
    rw [alice_reads_iff hnew hB (hdue.trans hbob) h.aliceReceives.afterSend]
    simp
  | true =>
    simp only [true_or, iff_true]
    refine ratchet_answer_read hA hHK hne ?_ ?_ ?_ (hdue.trans hbob) b
    · rw [ax_alice, ax_bob]
    · rw [ax_alice]
      simp [kxKey, cryptoKdf]
    · exact (bob_reads_iff hnew h.aliceSends h.bobReceives).mpr hannounced

/-- After a new key exchange the first message of each peer is read at the
other end exactly under the condition on the old contexts. -/
theorem first_messages_read_iff (h : Handshake D) (hnew : h.NewKeys)
    (fresh ta tb : Nat) (a b : D) (exchange : Exchange) :
    h.FirstMessagesRead fresh ta tb a b exchange ↔
      h.FirstMessagesCondition tb exchange := by
  cases exchange with
  | crossing => exact crossing_iff hnew
  | bobFirst => exact bobFirst_iff hnew
  | aliceFirst => exact aliceFirst_iff hnew

def usedBob : Axolotl Nat :=
  ((exec (step firstHandshake.settings) (fun _ _ => True)
    (firstHandshake.duplex 7) [.send .bob 0 0]).getD
    (firstHandshake.duplex 7)).ax .bob

def restartHandshake : Handshake Nat where
  settings := .shipped
  aliceId := 1
  bobId := 2
  id_lt := Nat.one_lt_two
  aliceNow := 0
  bobNow := 0
  old
    | .alice => .created 8 9
    | .bob => usedBob
  kx0
    | .alice => 8
    | .bob => 4
  ratchet
    | .alice => 9
    | .bob => 6
  announced
    | .alice => .point 9
    | .bob => .point 6
  old_kx0 p := by cases p <;> rfl
  old_DHRs p := by cases p <;> rfl
  old_Ns p := by cases p <;> decide
  old_Nr p := by cases p <;> decide
  alice_ok := by decide
  bob_ok := by decide

/-- Bob still has the context in which he sent; when he answers, a ratchet step is due. -/
theorem first_messages_read_restart : restartHandshake.NewKeys ∧
      restartHandshake.FirstMessagesRead 10 0 (10 ^ 10) 0 1 .aliceFirst := by
  have hnew : restartHandshake.NewKeys := ⟨by decide, by decide⟩
  exact ⟨hnew, (first_messages_read_iff restartHandshake hnew 10 0 (10 ^ 10) 0 1
    .aliceFirst).mpr ⟨by decide, .inl (by decide)⟩⟩

/-- The first message of bob has number one and the first key of the chain, and
alice decrypts it with the second key. -/
theorem first_message_garbled :
    restartHandshake.NewKeys ∧
      (restartHandshake.ax .alice).RK = (restartHandshake.ax .bob).RK ∧
      ¬ restartHandshake.FirstMessagesRead 10 0 0 0 1 .crossing := by
  refine ⟨⟨by decide, by decide⟩, by decide, ?_⟩
  unfold FirstMessagesRead
  decide +kernel

end Handshake

end Gnunet.Cadet
