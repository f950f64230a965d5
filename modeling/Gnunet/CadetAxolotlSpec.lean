import Gnunet.CadetAxolotl

/-!
# What the operations on a key context do

A message is its header and its encrypted payload, sealed with a header key:
it validates under this key and under no other, and its header reads back.
Encryption is one decision about the ratchet followed by one sealed message.
Decryption touches only the skipped keys, the receiving chain and `Nr`, unless
it switches to the next header key.
-/

namespace Gnunet.Cadet

open Protocol

variable {D : Type}

def sealMessage (HK : Bytes D) (header : AxHeader D) (payload : Bytes D) : EncryptedMessage D :=
  let axHeader :=
    cryptoSymmetricEncrypt header.bytes HK (symmetricDeriveIv HK)
  { hmac := tHmac (.pair axHeader payload) 0 HK
    axHeader := axHeader
    payload := payload }

def encryptPayload (MK src : Bytes D) : Bytes D :=
  cryptoSymmetricEncrypt src MK (symmetricDeriveIv MK)

@[simp] theorem sealMessage_payload (HK : Bytes D) (header : AxHeader D) (payload : Bytes D) :
    (sealMessage HK header payload).payload = payload := rfl

theorem tHmac_key_injective {plaintext plaintext' HK HK' : Bytes D}
    (heq : tHmac plaintext iv HK = tHmac plaintext' iv' HK') : HK = HK' := by
  simp only [tHmac, cryptoHmac, cryptoKdf, Term.mac.injEq, Term.kdf.injEq, Term.pair.injEq] at heq
  exact heq.1.2.2.2

theorem tHmacDeriveKey_injective (heq : tHmacDeriveKey key source = tHmacDeriveKey key' source') :
    key = key' ∧ source = source' := by
  simpa [tHmacDeriveKey, tAxHmacHash, cryptoKdf, cryptoHmac] using heq

theorem size_lt_tHmacDeriveKey (key source : Bytes D) :
    key.size < (tHmacDeriveKey key source).size := by
  simp only [tHmacDeriveKey, tAxHmacHash, cryptoKdf, cryptoHmac, Term.size]
  omega

theorem ratchetKey_injective {RK RK' dh dh' : Bytes D}
    (heq : ratchetKey i RK dh = ratchetKey i' RK' dh') : i = i' ∧ RK = RK' ∧ dh = dh' := by
  simpa [ratchetKey, tAxHmacHash, cryptoKdf, cryptoHmac] using heq

theorem size_lt_ratchetKey (i : Nat) (RK dh : Bytes D) : RK.size < (ratchetKey i RK dh).size := by
  simp only [ratchetKey, tAxHmacHash, cryptoKdf, cryptoHmac, Term.size]
  omega

theorem kxKey_ne_ratchetKey (i j : Nat) (material RK dh : Bytes D) :
    kxKey i material ≠ ratchetKey j RK dh := by
  simp [kxKey, ratchetKey, cryptoKdf]

theorem gctSendMessage_eq (settings : Settings D) (now fresh : Nat) (ax : Axolotl D)
    (message : Bytes D) :
    gctSendMessage settings now fresh ax message =
      let out := tAxRatchet settings now fresh ax
      ({ out.1 with
          CKs := tHmacDeriveKey out.1.CKs (.num 1)
          Ns := (out.1.Ns + 1) % 2 ^ 32 },
        sealMessage out.1.HKs ⟨out.1.Ns, out.1.PNs, out.1.DHRs.publicKey⟩
          (encryptPayload (tHmacDeriveKey out.1.CKs (.num 0)) message),
        out.2) := rfl

def ratchets (settings : Settings D) (now : Nat) (ax : Axolotl D) : Bool :=
  ax.ratchetFlag || ratchetDue settings now ax

variable {settings : Settings D} {now : Nat} {ax : Axolotl D}

theorem ratchets_flags (hratchets : ratchets settings now ax = true) :
    ax.ratchetFlag = true ∨ ax.ratchetAllowed = true := by
  simp only [ratchets, ratchetDue, Bool.or_eq_true, Bool.and_eq_true] at hratchets
  rcases hratchets with hflag | ⟨hallowed, _⟩
  · exact .inl hflag
  · exact .inr hallowed

theorem tAxRatchet_of_not_ratchets (fresh : Nat) (hratchets : ratchets settings now ax = false) :
    tAxRatchet settings now fresh ax =
      ({ ax with ratchetCounter := (ax.ratchetCounter + 1) % 2 ^ 32 }, fresh) := by
  have hflag : ax.ratchetFlag = false := by
    simp only [ratchets, Bool.or_eq_false_iff] at hratchets
    exact hratchets.1
  unfold ratchets at hratchets
  simp only [tAxRatchet, hratchets, Bool.false_eq_true, if_false]
  rw [← hflag]

theorem tAxRatchet_of_ratchets (fresh : Nat) (hratchets : ratchets settings now ax = true) :
    tAxRatchet settings now fresh ax = (advanceRatchet settings now fresh ax, fresh + 1) := by
  unfold ratchets at hratchets
  simp only [tAxRatchet, hratchets, if_true]
  rfl

theorem gctSendMessage_of_not_ratchets (fresh : Nat)
    (hratchets : ratchets settings now ax = false) (message : Bytes D) :
    gctSendMessage settings now fresh ax message = ({ ax with
          ratchetCounter := (ax.ratchetCounter + 1) % 2 ^ 32
          CKs := tHmacDeriveKey ax.CKs (.num 1)
          Ns := (ax.Ns + 1) % 2 ^ 32 },
        sealMessage ax.HKs ⟨ax.Ns, ax.PNs, ax.DHRs.publicKey⟩
          (encryptPayload (tHmacDeriveKey ax.CKs (.num 0)) message),
        fresh) := by
  rw [gctSendMessage_eq, tAxRatchet_of_not_ratchets fresh hratchets]

theorem gctSendMessage_of_ratchets (fresh : Nat) (hratchets : ratchets settings now ax = true)
    (message : Bytes D) :
    gctSendMessage settings now fresh ax message =
      let next := advanceRatchet settings now fresh ax
      ({ next with
          CKs := tHmacDeriveKey next.CKs (.num 1)
          Ns := 1 },
        sealMessage ax.NHKs ⟨0, ax.Ns, .point fresh⟩
          (encryptPayload (tHmacDeriveKey next.CKs (.num 0)) message),
        fresh + 1) := by
  rw [gctSendMessage_eq, tAxRatchet_of_ratchets fresh hratchets]
  rfl

theorem gctSendMessage_receiving (settings : Settings D) (now fresh : Nat) (ax : Axolotl D)
    (message : Bytes D) :
    let ax' := (gctSendMessage settings now fresh ax message).1
    ax'.HKr = ax.HKr ∧ ax'.NHKr = ax.NHKr ∧ ax'.CKr = ax.CKr ∧
      ax'.Nr = ax.Nr ∧ ax'.skipped = ax.skipped := by
  cases hratchets : ratchets settings now ax with
  | false => simp [gctSendMessage_of_not_ratchets fresh hratchets]
  | true =>
    simp [gctSendMessage_of_ratchets fresh hratchets, advanceRatchet, newEphemeral]

/-! ## Receiving -/

/-- The two contexts differ at most in what a message of the current chain
changes. -/
def SameRatchet (ax ax' : Axolotl D) : Prop :=
  ∃ skipped CKr Nr, ax' = { ax with skipped := skipped, CKr := CKr, Nr := Nr }

theorem SameRatchet.refl (ax : Axolotl D) : SameRatchet ax ax := ⟨ax.skipped, ax.CKr, ax.Nr, rfl⟩

theorem SameRatchet.trans
    (h₁ : SameRatchet ax₁ ax₂) (h₂ : SameRatchet ax₂ ax₃) : SameRatchet ax₁ ax₃ := by
  obtain ⟨_, _, _, rfl⟩ := h₁
  obtain ⟨skipped, CKr, Nr, rfl⟩ := h₂
  exact ⟨skipped, CKr, Nr, rfl⟩

theorem storeSkippedKeys_sameRatchet (HKr : Bytes D) (Np rounds : Nat) (ax : Axolotl D) :
    SameRatchet ax (storeSkippedKeys HKr Np rounds ax) := by
  induction rounds generalizing ax with
  | zero => exact .refl ax
  | succ rounds ih =>
    unfold storeSkippedKeys
    split
    · have hstore : SameRatchet ax (storeSkippedKey ax HKr) :=
        ⟨_, _, _, rfl⟩
      exact hstore.trans (ih _)
    · exact .refl ax

theorem storeAxKeys_sameRatchet (ax : Axolotl D) (HKr : Bytes D) (Np : Nat) :
    SameRatchet ax (storeAxKeys ax HKr Np).2 := by
  unfold storeAxKeys
  simp only
  split
  · exact .refl ax
  · split
    · exact .refl ax
    · exact (storeSkippedKeys_sameRatchet HKr Np _ ax).trans ⟨_, _, _, rfl⟩

/-- A step within the window changes nothing that the caller then overwrites
or that belongs to sending. -/
theorem commitRatchet_sameRatchet (hsame : SameRatchet ax ax') (DHRp : Bytes D) :
    commitRatchet ax' DHRp = { commitRatchet ax DHRp with skipped := ax'.skipped } := by
  obtain ⟨_, CKr, Nr, rfl⟩ := hsame
  rfl

variable [DecidableEq D]

@[simp] theorem hmacValid_sealMessage (HK HK' : Bytes D) (header : AxHeader D) (payload : Bytes D) :
    hmacValid HK' (sealMessage HK header payload) = decide (HK' = HK) := by
  unfold hmacValid
  rw [decide_eq_decide]
  constructor
  · intro heq
    exact tHmac_key_injective heq
  · rintro rfl
    rfl

@[simp] theorem tHDecrypt_sealMessage (settings : Settings D) (HK : Bytes D) (header : AxHeader D)
    (payload : Bytes D) : tHDecrypt settings HK (sealMessage HK header payload) = header := by
  simp [tHDecrypt, sealMessage]

theorem tryOldAxKeys_sameRatchet
    (settings : Settings D) (ax : Axolotl D) (src : EncryptedMessage D) :
    SameRatchet ax (tryOldAxKeys settings ax src).2 := by
  unfold tryOldAxKeys
  split
  · exact .refl ax
  · simp only
    split
    · exact .refl ax
    · split
      · exact .refl ax
      · exact ⟨_, ax.CKr, ax.Nr, rfl⟩

theorem decryptInChain_sameRatchet (settings : Settings D) (ax : Axolotl D) (Np : Nat)
    (src : EncryptedMessage D) : SameRatchet ax (decryptInChain settings ax Np src).2 := by
  have hstored : SameRatchet ax
      (if Np = ax.Nr then (true, ax) else storeAxKeys ax ax.HKr Np).2 := by
    split
    · exact .refl ax
    · exact storeAxKeys_sameRatchet ax ax.HKr Np
  unfold decryptInChain
  generalize (if Np = ax.Nr then (true, ax) else storeAxKeys ax ax.HKr Np) = out at hstored ⊢
  obtain ⟨stored, ax'⟩ := out
  cases stored
  · exact hstored.trans (tryOldAxKeys_sameRatchet settings ax' src)
  · exact hstored.trans ⟨_, _, _, rfl⟩

/-- A switch commits the ratchet step that the header announces; the skipped
keys are the only trace of the chain that it leaves. -/
theorem switchChain_eq (settings : Settings D) (ax : Axolotl D) (src : EncryptedMessage D) :
    let header := tHDecrypt settings ax.NHKr src
    let moved : Axolotl D := { ax with HKr := ax.NHKr }
    switchChain settings ax src = ({ commitRatchet moved header.DHRs with
          skipped := (storeAxKeys moved ax.HKr header.PNs).2.skipped },
        header.Ns) := by
  simp only [switchChain]
  rw [commitRatchet_sameRatchet (storeAxKeys_sameRatchet { ax with HKr := ax.NHKr } _ _)]

theorem tAxDecryptAndValidate_current (settings : Settings D)
    (hcurrent : hmacValid ax.HKr src = true) :
    SameRatchet ax (tAxDecryptAndValidate settings ax src).2 := by
  unfold tAxDecryptAndValidate
  rw [if_pos hcurrent]
  exact decryptInChain_sameRatchet settings ax _ src

theorem tAxDecryptAndValidate_next (settings : Settings D)
    (hcurrent : hmacValid ax.HKr src = false) (hnext : hmacValid ax.NHKr src = true) :
    SameRatchet (commitRatchet { ax with HKr := ax.NHKr } (tHDecrypt settings ax.NHKr src).DHRs)
      (tAxDecryptAndValidate settings ax src).2 := by
  unfold tAxDecryptAndValidate
  rw [if_neg (by simp [hcurrent]), if_pos hnext, switchChain_eq]
  refine SameRatchet.trans ?_ (decryptInChain_sameRatchet settings _ _ src)
  exact ⟨_, _, _, rfl⟩

/-- A message leaves the ratchet where it is, or it moves it by one step to
the key that its header announces. -/
theorem tAxDecryptAndValidate_ratchet
    (settings : Settings D) (ax : Axolotl D) (src : EncryptedMessage D) :
    SameRatchet ax (tAxDecryptAndValidate settings ax src).2 ∨
      (hmacValid ax.HKr src = false ∧ hmacValid ax.NHKr src = true ∧ SameRatchet
          (commitRatchet { ax with HKr := ax.NHKr } (tHDecrypt settings ax.NHKr src).DHRs)
          (tAxDecryptAndValidate settings ax src).2) := by
  cases hcurrent : hmacValid ax.HKr src with
  | true => exact .inl (tAxDecryptAndValidate_current settings hcurrent)
  | false =>
    cases hnext : hmacValid ax.NHKr src with
    | true =>
      exact .inr ⟨rfl, rfl, tAxDecryptAndValidate_next settings hcurrent hnext⟩
    | false =>
      left
      unfold tAxDecryptAndValidate
      rw [if_neg (by simp [hcurrent]), if_neg (by simp [hnext])]
      exact tryOldAxKeys_sameRatchet settings ax src

theorem tAxDecryptAndValidate_sending
    (settings : Settings D) (ax : Axolotl D) (src : EncryptedMessage D) :
    let ax' := (tAxDecryptAndValidate settings ax src).2
    ax'.Ns = ax.Ns ∧ ax'.CKs = ax.CKs ∧ ax'.PNs = ax.PNs := by
  rcases tAxDecryptAndValidate_ratchet settings ax src with
    ⟨skipped, CKr, Nr, heq⟩ | ⟨_, _, skipped, CKr, Nr, heq⟩
  · simp [heq]
  · simp [heq, commitRatchet]

theorem updateAxByKx_ok_iff {ax : Axolotl D} :
    (updateAxByKx settings now me ax pid ephemeralKey key).1 = .ok ↔ me ≠ pid ∧ ax.DHRr ≠ key ∧
      ax.RK ≠ kxKey 0 (kxMaterial me pid ax.kx0 ephemeralKey) := by
  simp only [updateAxByKx]
  split_ifs <;> simp_all

end Gnunet.Cadet
