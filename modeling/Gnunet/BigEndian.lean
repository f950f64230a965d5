import Mathlib.Tactic

/-!
# Numbers in network byte order

A number as a given count of bytes, the most significant first, and the number
that some bytes stand for.  `field` reads a number inside a longer message.
-/

namespace BigEndian

def encode : Nat → Nat → List UInt8
  | 0, _ => []
  | width + 1, n => encode width (n / 256) ++ [UInt8.ofNat (n % 256)]

def decode (bytes : List UInt8) : Nat :=
  bytes.foldl (fun value byte => value * 256 + byte.toNat) 0

/-- The number in the `width` bytes from `offset` on. -/
def field (bytes : List UInt8) (offset width : Nat) : Nat :=
  decode ((bytes.drop offset).take width)

@[simp] theorem length_encode (width n : Nat) : (encode width n).length = width := by
  induction width generalizing n with
  | zero => rfl
  | succ width ih => simp [encode, ih]

theorem decode_append_singleton : decode (bytes ++ [byte]) = decode bytes * 256 + byte.toNat := by
  simp [decode]

theorem decode_encode : decode (encode width n) = n % 256 ^ width := by
  induction width generalizing n with
  | zero => simp [encode, decode, Nat.mod_one]
  | succ width ih =>
    have hbyte : (UInt8.ofNat (n % 256)).toNat = n % 256 := by
      exact Nat.mod_eq_of_lt (Nat.mod_lt n (by decide))
    rw [encode, decode_append_singleton, ih, hbyte, pow_succ', Nat.mod_mul]
    ring

theorem decode_encode_of_lt (hn : n < 256 ^ width) : decode (encode width n) = n := by
  rw [decode_encode, Nat.mod_eq_of_lt hn]

theorem decode_lt (bytes : List UInt8) : decode bytes < 256 ^ bytes.length := by
  induction bytes using List.reverseRecOn with
  | nil => simp [decode]
  | append_singleton bytes byte ih =>
    have hbyte := byte.toNat_lt
    rw [decode_append_singleton, List.length_append, List.length_singleton, pow_succ]
    omega

theorem field_lt (bytes : List UInt8) (offset width : Nat) :
    field bytes offset width < 256 ^ width := by
  refine (decode_lt _).trans_le (Nat.pow_le_pow_right (by decide) ?_)
  exact List.length_take_le _ _

theorem field_encode {front : List UInt8}
    (hfront : front.length = offset) (hn : n < 256 ^ width) (back : List UInt8) :
    field (front ++ (encode width n ++ back)) offset width = n := by
  subst hfront
  have htake : (encode width n ++ back).take width = encode width n := by
    rw [List.take_append_of_le_length (length_encode width n).ge,
      List.take_of_length_le (length_encode width n).le]
  rw [field, List.drop_left, htake, decode_encode_of_lt hn]

end BigEndian
