import Gnunet.CadetRatchetAlternation
import Gnunet.ReceiveWindow

/-!
# The receiving side of a key context is a window

The message keys of an epoch form a chain, and a genuine message has a label: its
epoch and its number in the chain.  A key context represents a window when its
skipped keys are those of the skipped labels and its receiving chain stands at the
next number.  Decryption then does to a genuine message what the window does,
except at a switch that stores keys: `store_skipped_key` files them under the new
header key.
-/

namespace Gnunet.Cadet

open Protocol List KeySchedule Window

variable {D : Type}

def chainAfter (CK : Bytes D) : Nat → Bytes D
  | 0 => CK
  | n + 1 => tHmacDeriveKey (chainAfter CK n) (.num 1)

variable {e n prev : Nat}

namespace KeySchedule

variable (sch : KeySchedule D)

def messageKey (e n : Nat) : Bytes D :=
  tHmacDeriveKey (chainAfter (sch.chainKey e) n) (.num 0)

def messageAt (prev e n : Nat) (d : D) : EncryptedMessage D :=
  sealMessage (sch.headerKey e) ⟨n, prev, .point (sch.secret e)⟩
    (encryptPayload (sch.messageKey e n) (.data d))

def skippedKey (l : Label) : SkippedKey D :=
  ⟨sch.headerKey (ofLex l).1, sch.messageKey (ofLex l).1 (ofLex l).2, (ofLex l).2⟩

theorem skippedKey_injective : Function.Injective sch.skippedKey := by
  intro l l' heq
  simp only [skippedKey, SkippedKey.mk.injEq] at heq
  exact Prod.ext (sch.headerKey_injective heq.1) heq.2.2

theorem messageAt_label
    (heq : sch.messageAt prev e n d = sch.messageAt prev' e' n' d') : e = e' ∧ n = n' := by
  classical
  have hvalid : hmacValid (sch.headerKey e) (sch.messageAt prev' e' n' d') = true := by
    rw [← heq]
    simp [messageAt]
  have he : e = e' := by
    apply sch.headerKey_injective
    simpa [messageAt] using hvalid
  subst he
  have hheader := congrArg (tHDecrypt (.shipped) (sch.headerKey e)) heq
  simp only [messageAt, tHDecrypt_sealMessage, AxHeader.mk.injEq] at hheader
  exact ⟨rfl, hheader.1⟩

theorem messageAt_plaintext
    (heq : sch.messageAt prev e n d = sch.messageAt prev' e' n' d') : d = d' := by
  obtain ⟨rfl, rfl⟩ := sch.messageAt_label heq
  have hpayload := congrArg EncryptedMessage.payload heq
  simpa [messageAt, encryptPayload, cryptoSymmetricEncrypt] using hpayload

end KeySchedule

variable {Np : Nat}

theorem keyGap_of_le {Nr : Nat} (hle : Nr ≤ Np) (hNp : Np < 2 ^ 32) (hdiff : Np - Nr < 2 ^ 31) :
    keyGap Np Nr = (Np - Nr : Nat) := by
  have hmod : (Np + (2 ^ 32 - Nr % 2 ^ 32)) % 2 ^ 32 = Np - Nr := by omega
  unfold keyGap
  simp only [hmod]
  rw [if_pos hdiff]

theorem keyGap_outside {Nr : Nat} (hNp : Np + 257 ≤ 2 ^ 32) (hNr : Nr + 257 ≤ 2 ^ 32)
    (hout : ¬ (Nr ≤ Np ∧ Np ≤ Nr + 256)) : maxKeyGap < keyGap Np Nr ∨ keyGap Np Nr < 0 := by
  unfold keyGap maxKeyGap
  simp only
  split <;> omega

theorem storeSkippedKeys_eq {sch : KeySchedule D} (HKr : Bytes D) (hNp : Np < 2 ^ 32)
    (rounds : Nat) (ax : Axolotl D) (hrounds : ax.Nr + rounds = Np)
    (hHKr : ax.HKr = sch.headerKey e) (hCKr : ax.CKr = chainAfter (sch.chainKey e) ax.Nr) :
    storeSkippedKeys HKr Np rounds ax = { ax with
        skipped := (skippedRange e ax.Nr Np).map sch.skippedKey ++ ax.skipped
        CKr := chainAfter (sch.chainKey e) Np
        Nr := Np } := by
  induction rounds generalizing ax with
  | zero =>
    have hNr : ax.Nr = Np := by omega
    subst hNr
    rw [skippedRange_self]
    simp [storeSkippedKeys, ← hCKr]
  | succ rounds ih =>
    have hlt : ax.Nr < Np := by omega
    have hmod : (ax.Nr + 1) % 2 ^ 32 = ax.Nr + 1 := by omega
    have hstored : storeSkippedKey ax HKr = { ax with
            skipped := sch.skippedKey (toLex (e, ax.Nr)) :: ax.skipped
            CKr := chainAfter (sch.chainKey e) (ax.Nr + 1)
            Nr := ax.Nr + 1 } := by
      simp only [storeSkippedKey, hmod, hHKr, hCKr]
      rfl
    rw [storeSkippedKeys, if_pos hlt, hstored]
    refine (ih { ax with
      skipped := sch.skippedKey (toLex (e, ax.Nr)) :: ax.skipped
      CKr := chainAfter (sch.chainKey e) (ax.Nr + 1)
      Nr := ax.Nr + 1 } ?_ hHKr rfl).trans ?_
    · simp only
      omega
    · simp [skippedRange_of_lt e hlt]

theorem storeAxKeys_inside {ax : Axolotl D} (HKr : Bytes D)
    (hin : ¬ (maxKeyGap < keyGap Np ax.Nr ∨ keyGap Np ax.Nr < 0)) :
    storeAxKeys ax HKr Np = (true, { storeSkippedKeys HKr Np (Np - ax.Nr) ax with
        skipped := (storeSkippedKeys HKr Np (Np - ax.Nr) ax).skipped.take maxSkippedKeys }) := by
  unfold storeAxKeys
  rw [if_neg (by omega), if_neg (by omega)]

theorem storeAxKeys_within {sch : KeySchedule D} {ax : Axolotl D} (HKr : Bytes D)
    (hNp : Np < 2 ^ 32) (hle : ax.Nr ≤ Np) (hgap : Np ≤ ax.Nr + 256)
    (hHKr : ax.HKr = sch.headerKey e) (hCKr : ax.CKr = chainAfter (sch.chainKey e) ax.Nr) :
    storeAxKeys ax HKr Np = (true, { ax with
        skipped := ((skippedRange e ax.Nr Np).map sch.skippedKey ++ ax.skipped).take maxSkippedKeys
        CKr := chainAfter (sch.chainKey e) Np
        Nr := Np }) := by
  have hin : ¬ (maxKeyGap < keyGap Np ax.Nr ∨ keyGap Np ax.Nr < 0) := by
    rw [keyGap_of_le hle hNp (by omega)]
    unfold maxKeyGap
    omega
  rw [storeAxKeys_inside HKr hin, storeSkippedKeys_eq HKr hNp _ ax (by omega) hHKr hCKr]

theorem storeAxKeys_outside {ax : Axolotl D} (HKr : Bytes D)
    (hout : maxKeyGap < keyGap Np ax.Nr ∨ keyGap Np ax.Nr < 0) :
    storeAxKeys ax HKr Np = (false, ax) := by
  unfold storeAxKeys
  by_cases hlarge : maxKeyGap < keyGap Np ax.Nr
  · rw [if_pos hlarge]
  · rw [if_neg hlarge, if_pos (by omega)]

/-! ## The search for a skipped key -/

/-- The two loops of `try_old_ax_keys` on labels: to the first label of the
chain, and from there to the first label with the number. -/
def searchLabel (labels : List Label) (e n : Nat) : Option Label :=
  match labels.dropWhile fun l => decide ((ofLex l).1 ≠ e) with
  | [] => none
  | valid :: rest =>
      match (valid :: rest).dropWhile fun l => decide (n ≠ (ofLex l).2) with
      | [] => none
      | l :: _ => if (ofLex l).1 ≠ (ofLex valid).1 then none else some l

theorem mem_dropWhile_of_not {α : Type} {p : α → Bool} {a : α}
    {l : List α} (hmem : a ∈ l) (hnot : p a = false) : a ∈ l.dropWhile p := by
  induction l with
  | nil => simp at hmem
  | cons b l ih =>
    rcases mem_cons.mp hmem with rfl | hmem
    · simp [dropWhile, hnot]
    · cases hb : p b with
      | false => simp [dropWhile, hb, hmem]
      | true => simpa [dropWhile, hb] using ih hmem

theorem dropWhile_eq_cons_not {α : Type} {p : α → Bool} {a : α}
    {l rest : List α} (heq : l.dropWhile p = a :: rest) : p a = false := by
  have hhead := head?_dropWhile_not p l
  rw [heq] at hhead
  simpa using hhead

/-- On a list from the newest label on, the loops find the label if it is
there. -/
theorem searchLabel_eq {labels : List Label} (hsorted : labels.Pairwise (· > ·)) (e n : Nat) :
    searchLabel labels e n = if toLex (e, n) ∈ labels then some (toLex (e, n)) else none := by
  unfold searchLabel
  cases hK : labels.dropWhile fun l => decide ((ofLex l).1 ≠ e) with
  | nil =>
    rw [if_neg]
    intro hmem
    have := mem_dropWhile_of_not (p := fun l => decide ((ofLex l).1 ≠ e)) hmem (by simp)
    rw [hK] at this
    cases this
  | cons valid rest =>
    have hvalid : (ofLex valid).1 = e := by
      simpa using dropWhile_eq_cons_not hK
    have hsub : (valid :: rest).Sublist labels := hK ▸ dropWhile_sublist _
    have hmemK : toLex (e, n) ∈ labels → toLex (e, n) ∈ valid :: rest := by
      intro hmem
      rw [← hK]
      exact mem_dropWhile_of_not hmem (by simp)
    simp only
    cases hM : (valid :: rest).dropWhile fun l =>
        decide (n ≠ (ofLex l).2) with
    | nil =>
      rw [if_neg]
      intro hmem
      have := mem_dropWhile_of_not (p := fun l : Label => decide (n ≠ (ofLex l).2))
        (hmemK hmem) (by simp)
      rw [hM] at this
      cases this
    | cons l tail =>
      have hnumber : n = (ofLex l).2 := by
        simpa using dropWhile_eq_cons_not hM
      have hsubM : (l :: tail).Sublist (valid :: rest) := hM ▸ dropWhile_sublist _
      simp only
      by_cases hchain : (ofLex l).1 = e
      · have hl : toLex (e, n) = l := by
          rw [← hchain, hnumber]
          rfl
        have hmem : l ∈ labels := hsub.subset (hsubM.subset (by simp))
        rw [hvalid, if_neg (by simpa using hchain), hl, if_pos hmem]
      · rw [hvalid, if_pos hchain, if_neg]
        intro hmem
        have hmemM : toLex (e, n) ∈ l :: tail := by
          rw [← hM]
          exact mem_dropWhile_of_not (hmemK hmem) (by simp)
        have hle : l ≤ valid := by
          rcases mem_cons.mp (hsubM.subset mem_cons_self) with heq | hin
          · exact le_of_eq heq
          · exact le_of_lt
              ((pairwise_cons.mp (hsorted.sublist hsub)).1 l hin)
        have hlater : toLex (e, n) ≤ l := by
          rcases mem_cons.mp hmemM with heq | hin
          · exact le_of_eq heq
          · exact le_of_lt ((pairwise_cons.mp (hsorted.sublist (hsubM.trans hsub))).1 _ hin)
        simp only [Prod.Lex.le_iff, ofLex_toLex] at hle hlater
        omega

/-! ## Contexts that represent a window -/

structure Represents (sch : KeySchedule D) (w : Window maxSkippedKeys)
    (ax : Axolotl D) : Prop where
  HKr : ax.HKr = sch.headerKey w.chain
  NHKr : ax.NHKr = sch.headerKey (w.chain + 2)
  Nr : ax.Nr = w.next
  CKr : ax.CKr = chainAfter (sch.chainKey w.chain) w.next
  skipped : ax.skipped = w.skipped.map sch.skippedKey

/-- The context is one for the window after the message, and the result is the
plaintext if the window takes the message. -/
structure Implements (sch : KeySchedule D) (d : D)
    (taken : Bool × Window maxSkippedKeys)
    (out : Option (Bytes D) × Axolotl D) : Prop where
  result : out.1 = if taken.1 then some (.data d) else none
  represents : Represents sch taken.2 out.2

variable {sch : KeySchedule D} {w : Window maxSkippedKeys} {ax : Axolotl D}

theorem stored_eq (hrep : Represents sch w ax) (hn : n < 2 ^ 32) (hle : w.next ≤ n)
    (hgap : n ≤ w.next + 256) :
    (if n = ax.Nr then (true, ax) else storeAxKeys ax ax.HKr n) = (true, { ax with
        skipped := (w.advance n hle).skipped.map sch.skippedKey
        CKr := chainAfter (sch.chainKey w.chain) n
        Nr := n }) := by
  have hlabels : (w.advance n hle).skipped.map sch.skippedKey =
        ((skippedRange w.chain ax.Nr n).map sch.skippedKey ++ ax.skipped).take maxSkippedKeys := by
    rw [hrep.skipped, hrep.Nr, ← map_append, ← map_take]
    rfl
  rw [hlabels]
  split
  next heq =>
    subst heq
    have hbound : ax.skipped.length ≤ maxSkippedKeys := by
      rw [hrep.skipped, length_map]
      exact w.bounded
    rw [skippedRange_self, map_nil, nil_append,
      take_of_length_le hbound, hrep.Nr, ← hrep.CKr, ← hrep.Nr]
  · exact storeAxKeys_within ax.HKr hn (hrep.Nr ▸ hle) (hrep.Nr ▸ hgap)
      hrep.HKr (hrep.Nr ▸ hrep.CKr)

def SwitchStoresNothing (ax : Axolotl D) (PNs : Nat) : Prop :=
  ¬ (0 < keyGap PNs ax.Nr ∧ keyGap PNs ax.Nr ≤ maxKeyGap)

instance (ax : Axolotl D) (PNs : Nat) : Decidable (SwitchStoresNothing ax PNs) :=
  inferInstanceAs (Decidable (¬ _))

theorem storeAxKeys_skipped_of_nothing {PNs : Nat} (HKr : Bytes D)
    (hnothing : SwitchStoresNothing ax PNs) (hPNs : PNs < 2 ^ 32)
    (hNr : ax.Nr < 2 ^ 32) (hbound : ax.skipped.length ≤ maxSkippedKeys) :
    (storeAxKeys ax HKr PNs).2.skipped = ax.skipped := by
  by_cases hout : maxKeyGap < keyGap PNs ax.Nr ∨ keyGap PNs ax.Nr < 0
  · rw [storeAxKeys_outside HKr hout]
  · have hzero : keyGap PNs ax.Nr = 0 := by
      unfold SwitchStoresNothing at hnothing
      omega
    have heq : PNs = ax.Nr := by
      unfold keyGap at hzero
      simp only at hzero
      split at hzero <;> omega
    unfold storeAxKeys
    simp only [hzero]
    rw [if_neg (by decide), if_neg (by decide), heq, Nat.sub_self]
    exact take_of_length_le hbound

variable [DecidableEq D]

@[simp] theorem hmacValid_messageAt (sch : KeySchedule D) (HK : Bytes D) :
    hmacValid HK (sch.messageAt prev e n d) = decide (HK = sch.headerKey e) := by
  simp [messageAt]

@[simp] theorem tHDecrypt_messageAt (sch : KeySchedule D) :
    tHDecrypt settings (sch.headerKey e) (sch.messageAt prev e n d) =
      ⟨n, prev, .point (sch.secret e)⟩ := by
  simp [messageAt]

theorem tryOldAxKeys_eq_search (settings : Settings D)
    (hskipped : ax.skipped = w.skipped.map sch.skippedKey) (prev e n : Nat) (d : D) :
    tryOldAxKeys settings ax (sch.messageAt prev e n d) =
      match searchLabel w.skipped e n with
      | none => (none, ax)
      | some l =>
          (some (cryptoSymmetricDecrypt (sch.messageAt prev e n d).payload (sch.skippedKey l).MK
              (symmetricDeriveIv (sch.skippedKey l).MK)),
            deleteSkippedKey ax (sch.skippedKey l)) := by
  have hvalid : (fun key : SkippedKey D =>
        !hmacValid key.HK (sch.messageAt prev e n d)) ∘ sch.skippedKey =
      fun l => decide ((ofLex l).1 ≠ e) := by
    funext l
    simp [skippedKey, headerKey_eq_iff]
  unfold tryOldAxKeys searchLabel
  rw [hskipped, dropWhile_map, hvalid]
  cases hK : w.skipped.dropWhile fun l => decide ((ofLex l).1 ≠ e) with
  | nil => rfl
  | cons valid rest =>
    have hchain : (ofLex valid).1 = e := by
      simpa using dropWhile_eq_cons_not hK
    have hheader : tHDecrypt settings (sch.skippedKey valid).HK (sch.messageAt prev e n d) =
            ⟨n, prev, .point (sch.secret e)⟩ := by
      simp [skippedKey, hchain]
    have hnumber : (fun key : SkippedKey D => decide (n ≠ key.Kn)) ∘
        sch.skippedKey = fun l => decide (n ≠ (ofLex l).2) := rfl
    simp only [map_cons, hheader]
    rw [← map_cons, dropWhile_map, hnumber]
    cases hM : (valid :: rest).dropWhile fun l =>
        decide (n ≠ (ofLex l).2) with
    | nil => rfl
    | cons l tail =>
      simp only [map_cons, skippedKey, ne_eq, headerKey_eq_iff]
      split <;> rfl

theorem payload_decrypts (sch : KeySchedule D) (prev e n : Nat) (d : D) :
    cryptoSymmetricDecrypt (sch.messageAt prev e n d).payload
      (sch.messageKey e n) (symmetricDeriveIv (sch.messageKey e n)) = .data d := by
  simp [messageAt, encryptPayload]

section

variable (settings : Settings D) (hrep : Represents sch w ax)
include hrep

theorem tryOldAxKeys_implements (prev e n : Nat) (d : D) : Implements sch d (w.fetch (toLex (e, n)))
      (tryOldAxKeys settings ax (sch.messageAt prev e n d)) := by
  rw [tryOldAxKeys_eq_search settings hrep.skipped, searchLabel_eq w.sorted]
  unfold fetch
  by_cases hmem : toLex (e, n) ∈ w.skipped
  · rw [if_pos hmem, if_pos hmem]
    refine ⟨?_, hrep.HKr, hrep.NHKr, hrep.Nr, hrep.CKr, ?_⟩
    · exact congrArg some (payload_decrypts sch prev e n d)
    · simp only [deleteSkippedKey, hrep.skipped]
      rw [map_erase sch.skippedKey_injective]
  · rw [if_neg hmem, if_neg hmem]
    exact ⟨rfl, hrep⟩

theorem decryptInChain_implements (prev : Nat) (d : D) (hn : n + 257 ≤ 2 ^ 32)
    (hnext : w.next + 257 ≤ 2 ^ 32) : Implements sch d (w.receiveInChain 256 n)
      (decryptInChain settings ax n (sch.messageAt prev w.chain n d)) := by
  unfold receiveInChain
  by_cases hwindow : w.next ≤ n ∧ n ≤ w.next + 256
  · have hmod : (n + 1) % 2 ^ 32 = n + 1 := by omega
    rw [dif_pos hwindow]
    unfold decryptInChain
    rw [stored_eq hrep (by omega) hwindow.1 hwindow.2]
    simp only [if_true, tAxDecrypt, hmod]
    refine ⟨?_, hrep.HKr, hrep.NHKr, rfl, rfl, rfl⟩
    exact congrArg some (payload_decrypts sch prev w.chain n d)
  · have hne : n ≠ ax.Nr := by
      rw [hrep.Nr]
      omega
    have hout := keyGap_outside hn hnext hwindow
    rw [← hrep.Nr] at hout
    rw [dif_neg hwindow]
    unfold decryptInChain
    rw [if_neg hne, storeAxKeys_outside ax.HKr hout]
    exact tryOldAxKeys_implements settings hrep prev w.chain n d

theorem switchChain_represents (hctx : ContextAt sch (w.chain + 1) w.chain ax) (n : Nat) (d : D)
    (hnothing : SwitchStoresNothing ax prev) (hprev : prev < 2 ^ 32) (hnext : w.next < 2 ^ 32) :
    let out := switchChain settings ax
      (sch.messageAt prev (w.chain + 2) n d)
    out.2 = n ∧ Represents sch (w.switch (w.chain + 2) (by omega)) out.1 := by
  have hcommit := hctx.afterCommit rfl rfl
  have hbound : ax.skipped.length ≤ maxSkippedKeys := by
    rw [hrep.skipped, length_map]
    exact w.bounded
  have hskipped : (storeAxKeys { ax with HKr := ax.NHKr } ax.HKr prev).2.skipped = ax.skipped :=
    storeAxKeys_skipped_of_nothing ax.HKr hnothing hprev (hrep.Nr ▸ hnext) hbound
  rw [switchChain_eq]
  simp only [hrep.NHKr, tHDecrypt_messageAt]
  rw [← hrep.NHKr]
  refine ⟨trivial, hrep.NHKr, hcommit.NHKr, rfl, ?_, ?_⟩
  · exact hctx.commit_CKr rfl rfl
  · simp only [hskipped]
    exact hrep.skipped

end

/-- On a genuine message a context does what its window does. -/
theorem tAxDecryptAndValidate_implements (settings : Settings D)
    (hrep : Represents sch w ax) (hctx : ContextAt sch own w.chain ax) (d : D)
    (hn : n + 257 ≤ 2 ^ 32) (hnext : w.next + 257 ≤ 2 ^ 32)
    (hswitch : w.chain < e → e = w.chain + 2 ∧ own = w.chain + 1 ∧
      SwitchStoresNothing ax prev ∧ prev < 2 ^ 32) : Implements sch d (w.receive 256 e n)
      (tAxDecryptAndValidate settings ax (sch.messageAt prev e n d)) := by
  unfold receive tAxDecryptAndValidate
  rw [hrep.HKr, hrep.NHKr]
  simp only [hmacValid_messageAt, headerKey_eq_iff]
  by_cases hlater : w.chain < e
  · obtain ⟨rfl, rfl, hnothing, hprev⟩ := hswitch hlater
    obtain ⟨hNp, hswitched⟩ := switchChain_represents settings hrep hctx n d
      hnothing hprev (by omega)
    rw [dif_pos hlater, if_neg (by simp), if_pos (by simp)]
    simp only [hNp]
    exact decryptInChain_implements settings hswitched prev d hn (by simp [switch])
  · rw [dif_neg hlater]
    by_cases hsame : e = w.chain
    · subst hsame
      simp only [tHDecrypt_messageAt]
      exact decryptInChain_implements settings hrep prev d hn hnext
    · rw [if_neg hsame, if_neg (by simp; omega), if_neg (by simp; omega)]
      exact tryOldAxKeys_implements settings hrep prev e n d

end Gnunet.Cadet
