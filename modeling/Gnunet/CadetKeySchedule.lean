import Gnunet.CadetAxolotlSpec

/-!
# The keys of the epochs of a tunnel

Seen from outside, a tunnel goes through epochs.  Bob's chain from the key
exchange is epoch one, alice's first ratchet step makes epoch two, and from
there each ratchet step makes the next epoch from the one before.  The keys of
an epoch depend on its number only; this file computes them, and says when the
key context of a peer is the one for given epochs.
-/

namespace Gnunet.Cadet

open Protocol

variable {D : Type}

/-- What determines all keys: the material of the exchange, bob's ratchet key
and the first fresh private key.  Epoch zero stands for the state of alice
before its first ratchet step; it has no keys. -/
structure KeySchedule (D : Type) where
  material : Bytes D
  bobKey : Nat
  fresh : Nat

namespace KeySchedule

variable (sch : KeySchedule D)

def secret : Nat → Nat
  | 0 => sch.bobKey
  | 1 => sch.bobKey
  | e + 2 => sch.fresh + e

def dh (e : Nat) : Bytes D :=
  Term.ecdh (.secret (sch.secret (e + 1))) (.point (sch.secret e))

def root : Nat → Bytes D
  | 0 => kxKey 0 sch.material
  | 1 => kxKey 0 sch.material
  | e + 2 => ratchetKey 0 (root (e + 1)) (sch.dh (e + 1))

def headerKey : Nat → Bytes D
  | 0 => .zero
  | 1 => kxKey 1 sch.material
  | 2 => kxKey 2 sch.material
  | 3 => kxKey 3 sch.material
  | e + 4 => ratchetKey 1 (sch.root (e + 1)) (sch.dh (e + 1))

def chainKey : Nat → Bytes D
  | 0 => .zero
  | 1 => kxKey 4 sch.material
  | e + 2 => ratchetKey 2 (sch.root (e + 1)) (sch.dh (e + 1))

variable {e : Nat}

theorem root_succ (he : 1 ≤ e) : sch.root (e + 1) = ratchetKey 0 (sch.root e) (sch.dh e) := by
  obtain ⟨_, rfl⟩ := Nat.exists_eq_add_of_le' he
  rfl

theorem headerKey_add_three (he : 1 ≤ e) :
    sch.headerKey (e + 3) = ratchetKey 1 (sch.root e) (sch.dh e) := by
  obtain ⟨_, rfl⟩ := Nat.exists_eq_add_of_le' he
  rfl

theorem chainKey_succ (he : 1 ≤ e) :
    sch.chainKey (e + 1) = ratchetKey 2 (sch.root e) (sch.dh e) := by
  obtain ⟨_, rfl⟩ := Nat.exists_eq_add_of_le' he
  rfl

theorem secret_succ (he : 1 ≤ e) : sch.secret (e + 2) = sch.secret (e + 1) + 1 := by
  obtain ⟨_, rfl⟩ := Nat.exists_eq_add_of_le' he
  simp only [secret]
  omega

variable {e' : Nat}

theorem root_size_lt (he : 1 ≤ e) (hlt : e < e') : (sch.root e).size < (sch.root e').size := by
  obtain ⟨steps, rfl⟩ := Nat.exists_eq_add_of_lt hlt
  induction steps with
  | zero =>
    rw [Nat.add_zero, root_succ sch he]
    exact size_lt_ratchetKey _ _ _
  | succ steps ih =>
    exact Nat.lt_trans (ih (by omega)) (size_lt_ratchetKey _ _ _)

theorem root_injective (he : 1 ≤ e) (he' : 1 ≤ e') (heq : sch.root e = sch.root e') : e = e' := by
  rcases Nat.lt_trichotomy e e' with hlt | hsame | hlt
  · have := sch.root_size_lt he hlt
    rw [heq] at this
    omega
  · exact hsame
  · have := sch.root_size_lt he' hlt
    rw [heq] at this
    omega

theorem headerKey_injective (heq : sch.headerKey e = sch.headerKey e') : e = e' := by
  match e, e' with
  | 0, 0 | 1, 1 | 2, 2 | 3, 3 => rfl
  | 0, 1 | 0, 2 | 0, 3 | 1, 0 | 2, 0 | 3, 0 | 1, 2 | 1, 3 | 2, 1 | 2, 3 | 3, 1 | 3, 2 =>
    simp [headerKey, kxKey, cryptoKdf] at heq
  | 0, _ + 4 | _ + 4, 0 =>
    simp [headerKey, ratchetKey, cryptoKdf] at heq
  | 1, _ + 4 | 2, _ + 4 | 3, _ + 4 =>
    exact absurd heq (kxKey_ne_ratchetKey _ _ _ _ _)
  | _ + 4, 1 | _ + 4, 2 | _ + 4, 3 =>
    exact absurd heq.symm (kxKey_ne_ratchetKey _ _ _ _ _)
  | e + 4, e' + 4 =>
    have hroot := (ratchetKey_injective heq).2.1
    have := sch.root_injective (by omega) (by omega) hroot
    omega

theorem headerKey_eq_iff : sch.headerKey e = sch.headerKey e' ↔ e = e' :=
  ⟨sch.headerKey_injective, fun heq => heq ▸ rfl⟩

end KeySchedule

/-- The key context of a peer whose own epoch is `own` and who has seen the
other one's epoch `seen`.  A peer may start a ratchet step only when it has
seen the other one's answer to its last step. -/
structure ContextAt (sch : KeySchedule D) (own seen : Nat)
    (ax : Axolotl D) : Prop where
  RK : ax.RK = sch.root (max own seen)
  HKs : 1 ≤ own → ax.HKs = sch.headerKey own
  NHKs : ax.NHKs = sch.headerKey (own + 2)
  HKr : 1 ≤ seen → ax.HKr = sch.headerKey seen
  NHKr : ax.NHKr = sch.headerKey (seen + 2)
  DHRs : 1 ≤ own → ax.DHRs = .secret (sch.secret own)
  DHRr : 1 ≤ seen → ax.DHRr = .point (sch.secret seen)
  answered : ax.ratchetFlag = true ∨ ax.ratchetAllowed = true → seen = own + 1
  first : own = 0 → ax.ratchetFlag = true

namespace ContextAt

variable {sch : KeySchedule D} {own seen : Nat} {ax ax' : Axolotl D}

theorem sameRatchet (hctx : ContextAt sch own seen ax)
    (hsame : SameRatchet ax ax') : ContextAt sch own seen ax' := by
  obtain ⟨_, CKr, Nr, rfl⟩ := hsame
  exact ⟨hctx.RK, hctx.HKs, hctx.NHKs, hctx.HKr, hctx.NHKr, hctx.DHRs,
    hctx.DHRr, hctx.answered, hctx.first⟩

theorem afterCount (hctx : ContextAt sch own seen ax) (ratchetCounter : Nat) :
    ContextAt sch own seen { ax with ratchetCounter := ratchetCounter } :=
  ⟨hctx.RK, hctx.HKs, hctx.NHKs, hctx.HKr, hctx.NHKr, hctx.DHRs, hctx.DHRr,
    hctx.answered, hctx.first⟩

theorem afterEncrypt (hctx : ContextAt sch own seen ax) (CKs : Bytes D) (Ns : Nat) :
    ContextAt sch own seen { ax with CKs := CKs, Ns := Ns } :=
  ⟨hctx.RK, hctx.HKs, hctx.NHKs, hctx.HKr, hctx.NHKr, hctx.DHRs, hctx.DHRr,
    hctx.answered, hctx.first⟩

variable {fresh : Nat}

theorem advance_dh (hctx : ContextAt sch own (own + 1) ax) (hfresh : fresh = sch.secret (own + 2)) :
    Term.ecdh (.secret fresh) ax.DHRr = sch.dh (own + 1) := by
  rw [hctx.DHRr (by omega), hfresh]
  rfl

theorem afterAdvance (hctx : ContextAt sch own seen ax) (hanswered : seen = own + 1)
    (settings : Settings D) (now : Nat) (hfresh : fresh = sch.secret (own + 2)) :
    ContextAt sch (own + 2) seen (advanceRatchet settings now fresh ax) := by
  subst hanswered
  have hRK : ax.RK = sch.root (own + 1) := by
    simpa using hctx.RK
  have hdh := hctx.advance_dh hfresh
  refine ⟨?_, ?_, ?_, hctx.HKr, hctx.NHKr, ?_, hctx.DHRr, ?_, by omega⟩
  · have hmax : max (own + 2) (own + 1) = own + 1 + 1 := by omega
    rw [hmax, sch.root_succ (by omega)]
    simp only [advanceRatchet, newEphemeral, hdh, hRK]
  · intro _
    exact hctx.NHKs
  · have hnext := sch.headerKey_add_three (e := own + 1) (by omega)
    rw [show own + 2 + 2 = own + 1 + 3 by omega, hnext]
    simp only [advanceRatchet, newEphemeral, hdh, hRK]
  · intro _
    simp [advanceRatchet, newEphemeral, hfresh]
  · simp [advanceRatchet]

theorem advance_CKs (hctx : ContextAt sch own seen ax) (hanswered : seen = own + 1)
    (settings : Settings D) (now : Nat) (hfresh : fresh = sch.secret (own + 2)) :
    (advanceRatchet settings now fresh ax).CKs = sch.chainKey (own + 2) := by
  subst hanswered
  have hRK : ax.RK = sch.root (own + 1) := by
    simpa using hctx.RK
  have hnext := sch.chainKey_succ (e := own + 1) (by omega)
  rw [hnext]
  simp only [advanceRatchet, newEphemeral, hctx.advance_dh hfresh, hRK]

variable {DHRp : Bytes D}

theorem commit_dh (hctx : ContextAt sch (seen + 1) seen ax)
    (hDHRp : DHRp = .point (sch.secret (seen + 2))) :
    Term.ecdh ax.DHRs DHRp = sch.dh (seen + 1) := by
  rw [hctx.DHRs (by omega), hDHRp, Term.ecdh_comm]
  rfl

theorem afterCommit (hctx : ContextAt sch own seen ax) (hown : own = seen + 1)
    (hDHRp : DHRp = .point (sch.secret (seen + 2))) :
    ContextAt sch own (seen + 2) (commitRatchet { ax with HKr := ax.NHKr } DHRp) := by
  subst hown
  have hRK : ax.RK = sch.root (seen + 1) := by
    simpa using hctx.RK
  have hdh := hctx.commit_dh hDHRp
  refine ⟨?_, hctx.HKs, hctx.NHKs, ?_, ?_, hctx.DHRs, ?_, ?_, ?_⟩
  · have hmax : max (seen + 1) (seen + 2) = seen + 1 + 1 := by omega
    rw [hmax, sch.root_succ (by omega)]
    simp only [commitRatchet, hdh, hRK]
  · intro _
    exact hctx.NHKr
  · have hnext := sch.headerKey_add_three (e := seen + 1) (by omega)
    rw [show seen + 2 + 2 = seen + 1 + 3 by omega, hnext]
    simp only [commitRatchet, hdh, hRK]
  · intro _
    exact hDHRp
  · intro _
    omega
  · intro hzero
    omega

theorem commit_CKr (hctx : ContextAt sch own seen ax) (hown : own = seen + 1)
    (hDHRp : DHRp = .point (sch.secret (seen + 2))) :
    (commitRatchet { ax with HKr := ax.NHKr } DHRp).CKr = sch.chainKey (seen + 2) := by
  subst hown
  have hRK : ax.RK = sch.root (seen + 1) := by
    simpa using hctx.RK
  have hnext := sch.chainKey_succ (e := seen + 1) (by omega)
  rw [hnext]
  simp only [commitRatchet, hctx.commit_dh hDHRp, hRK]

end ContextAt

end Gnunet.Cadet
