import Mathlib.Tactic

/-!
# Symbolic byte strings

The usual free model of cryptography: a byte string is a term.  Hashes, message
authentication codes and derived keys are therefore injective, and no chain of
derivations closes.  That both ends of a Diffie-Hellman exchange compute one
secret is in `ecdh`.  `L` names the contexts of key derivations and `D` is the
type of application data.
-/

namespace Protocol

inductive Term (L D : Type) where
  | zero
  | data (d : D)
  | num (n : Nat)
  | secret (n : Nat)
  | point (n : Nat)
  | shared (a b : Nat)
  | product (a p : Term L D)
  | pair (a b : Term L D)
  | hash (a : Term L D)
  | mac (key a : Term L D)
  | sign (key a : Term L D)
  | kdf (context : L) (i : Nat) (a : Term L D)
  | enc (key a : Term L D)
  | dec (key a : Term L D)
  deriving DecidableEq, Repr

namespace Term

variable {L D : Type}

def size : Term L D → Nat
  | zero => 1
  | data _ => 1
  | num _ => 1
  | secret _ => 1
  | point _ => 1
  | shared _ _ => 1
  | product a p => a.size + p.size + 1
  | pair a b => a.size + b.size + 1
  | hash a => a.size + 1
  | mac key a => key.size + a.size + 1
  | sign key a => key.size + a.size + 1
  | kdf _ _ a => a.size + 1
  | enc key a => key.size + a.size + 1
  | dec key a => key.size + a.size + 1

def publicKey : Term L D → Term L D
  | secret n => point n
  | t => hash t

/-- The secret of a Diffie-Hellman exchange, `none` when the public key is not
a point that can be multiplied. -/
def ecdh? : Term L D → Term L D → Option (Term L D)
  | secret x, point y => some (shared (min x y) (max x y))
  | _, _ => none

/-- The secret of an exchange whose failure is not looked at. -/
def ecdh (a p : Term L D) : Term L D :=
  (ecdh? a p).getD (product a p)

theorem ecdh_comm (x y : Nat) :
    ecdh (secret x : Term L D) (point y) = ecdh (secret y) (point x) := by
  simp [ecdh, ecdh?, Nat.min_comm, Nat.max_comm]

theorem ecdh_eq_iff : ecdh (secret f) p = ecdh (secret x) (point f) ↔ p = point x := by
  constructor
  · intro heq
    cases p with
    | point y =>
      simp only [ecdh, ecdh?, Option.getD_some, shared.injEq] at heq
      have hxy : y = x := by omega
      rw [hxy]
    | _ => simp [ecdh, ecdh?] at heq
  · rintro rfl
    exact ecdh_comm f x

/-- Decryption with the key of the encryption gives the plaintext; any other
decryption gives bytes of which nothing is known. -/
def decrypt [DecidableEq L] [DecidableEq D] (key : Term L D) : Term L D → Term L D
  | enc key' a => if key' = key then a else dec key (enc key' a)
  | t => dec key t

@[simp] theorem decrypt_enc [DecidableEq L] [DecidableEq D]
    (key a : Term L D) : decrypt key (enc key a) = a := by
  simp [decrypt]

end Term

end Protocol
