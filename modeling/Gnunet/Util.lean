import Gnunet.SymbolicTerm

/-!
# Cryptography and time of the util library

Byte strings are symbolic terms over the contexts that the services pass to
the key derivation function.  Time is in microseconds, with the largest 64-bit
value standing for "forever"; the current time is an argument.
-/

namespace Gnunet

open Protocol

inductive KdfContext where
  | cadetAuthenticationKey
  | axolotlHmacHash
  | axolotlDeriveKey
  | axolotlRatchet
  | cadetAxolotlSalt
  | symmetricIv
  | authenticationKey
  | initializationVector
  | pongInitializationVector
  | aesKeyGeneration
  deriving DecidableEq, Repr

abbrev Bytes (D : Type) := Term KdfContext D

variable {D : Type}

/-- The `i`-th key of the output of `GNUNET_CRYPTO_kdf`. -/
def cryptoKdf (context : KdfContext) (i : Nat) (source : Bytes D) : Bytes D :=
  .kdf context i source

def cryptoHmac (authKey source : Bytes D) : Bytes D :=
  .mac authKey source

def cryptoHash (source : Bytes D) : Bytes D :=
  .hash source

def cryptoSymmetricEncrypt (source sessionKey iv : Bytes D) : Bytes D :=
  .enc (.pair sessionKey iv) source

def cryptoSymmetricDecrypt [DecidableEq D] (source sessionKey iv : Bytes D) : Bytes D :=
  Term.decrypt (.pair sessionKey iv) source

@[simp] theorem cryptoSymmetricDecrypt_encrypt [DecidableEq D] (source sessionKey iv : Bytes D) :
    cryptoSymmetricDecrypt (cryptoSymmetricEncrypt source sessionKey iv)
      sessionKey iv = source := by
  simp [cryptoSymmetricDecrypt, cryptoSymmetricEncrypt]

theorem cryptoSymmetricDecrypt_ne_data [DecidableEq D] (hne : sessionKey' ≠ sessionKey) (d : D) :
    cryptoSymmetricDecrypt (cryptoSymmetricEncrypt source sessionKey' iv')
      sessionKey iv ≠ .data d := by
  have hkey : Term.pair sessionKey' iv' ≠ Term.pair sessionKey iv := by
    intro heq
    injection heq with hsession _
    exact hne hsession
  unfold cryptoSymmetricDecrypt cryptoSymmetricEncrypt
  simp [Term.decrypt, hkey]

/-- `UINT64_MAX`, the value of `GNUNET_TIME_UNIT_FOREVER_ABS`. -/
def timeForever : Nat := 2 ^ 64 - 1

def timeAbsoluteGetRemaining (now future : Nat) : Nat :=
  if future = timeForever then timeForever
  else if now > future then 0
  else future - now

def timeAbsoluteGetDuration (now whence : Nat) : Nat :=
  if whence > now then 0 else now - whence

def timeAbsoluteAdd (start duration : Nat) : Nat :=
  if start = timeForever ∨ duration = timeForever then timeForever
  else if 2 ^ 64 ≤ start + duration then timeForever
  else start + duration

def timeAbsoluteSubtract (start duration : Nat) : Nat :=
  if start ≤ duration then 0
  else if start = timeForever then timeForever
  else start - duration

def timeRelativeMultiply (rel factor : Nat) : Nat :=
  if factor = 0 then 0
  else if rel = timeForever then timeForever
  else if 2 ^ 64 ≤ rel * factor then timeForever
  else rel * factor

def timeRelativeToAbsolute (now rel : Nat) : Nat :=
  if rel = timeForever then timeForever
  else if 2 ^ 64 ≤ rel + now then timeForever
  else rel + now

/-- `GNUNET_TIME_STD_BACKOFF`: doubles from 1 ms up to 15 minutes. -/
def timeStdBackoff (r : Nat) : Nat :=
  min 900000000 (max 1000 r * 2)

end Gnunet
