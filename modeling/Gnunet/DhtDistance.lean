import Gnunet.DhtClosest

/-!
# The distance of hash codes

`get_distance` squeezes the bits in which a code differs from a target into 32
bits: nine for the number of the first of them, and the 23 bits behind it.
-/

namespace Gnunet.Dht

open Nat

open Container (HashCode)

section

/-- The first of 512 bits in which the sequences differ is set in the second. -/
def Precedes (d e : Nat → Bool) : Prop :=
  ∃ k < 512, (∀ j < k, d j = e j) ∧ d k = false ∧ e k = true

/-- Bit `m` is the first that is set, if there is one, and `x` is the bits behind it. -/
structure Squeezed (d : Nat → Bool) (m x : Nat) : Prop where
  le : m ≤ 512
  before : ∀ j < m, d j = false
  first : m < 512 → d m = true
  testBit_eq : ∀ k, x.testBit k = (decide (k < 23 ∧ m + 23 - k < 512) && d (m + 23 - k))

variable {d e : Nat → Bool} {m n x y : Nat}

theorem Squeezed.lt (hd : Squeezed d m x) : x < 2 ^ 23 := by
  apply lt_pow_two_of_testBit
  intro k hk
  simp [hd.testBit_eq, hk.not_gt]

theorem Squeezed.eq_zero (hd : Squeezed d 512 x) : x = 0 := by
  apply zero_of_testBit_eq_false
  intro k
  rw [hd.testBit_eq, decide_eq_false (by omega), Bool.false_and]

theorem Squeezed.max_iff (hd : Squeezed d 1 x) :
    x = 2 ^ 23 - 1 ↔ ∀ j, 2 ≤ j → j < 25 → d j = true := by
  constructor
  · rintro rfl j hj hlt
    have hbit := hd.testBit_eq (24 - j)
    rw [testBit_two_pow_sub_one, decide_eq_true (by omega), decide_eq_true (by omega),
      show 1 + 23 - (24 - j) = j by omega] at hbit
    exact hbit.symm
  · intro hall
    apply eq_of_testBit_eq
    intro k
    rw [hd.testBit_eq, testBit_two_pow_sub_one]
    by_cases hk : k < 23
    · simp [hk, hall (1 + 23 - k) (by omega) (by omega), show 1 + 23 - k < 512 by omega]
    · simp [hk]

theorem Squeezed.le_of_precedes (hd : Squeezed d m x) (he : Squeezed e n y)
    (hprecedes : Precedes d e) : (512 - m) * 2 ^ 23 + x ≤ (512 - n) * 2 ^ 23 + y := by
  obtain ⟨k, hk, hagree, hdk, hek⟩ := hprecedes
  have hnk : n ≤ k := le_of_not_gt fun hlt => by simp [he.before k hlt] at hek
  rcases lt_trichotomy m n with hlt | rfl | hmore
  · have hcontra := hagree m (hlt.trans_le hnk)
    rw [hd.first (by omega), he.before m hlt] at hcontra
    cases hcontra
  · have hmk : m ≠ k := by
      rintro rfl
      simp [hd.first hk] at hdk
    apply Nat.add_le_add_left
    by_cases hnear : k ≤ m + 23
    · apply le_of_lt
      apply lt_of_testBit (m + 23 - k)
      · rw [hd.testBit_eq, Nat.sub_sub_self hnear, hdk, Bool.and_false]
      · rw [he.testBit_eq, Nat.sub_sub_self hnear, hek, Bool.and_true]
        exact decide_eq_true (by omega)
      · intro j hj
        rw [hd.testBit_eq, he.testBit_eq, hagree _ (by omega)]
    · apply le_of_eq
      apply eq_of_testBit_eq
      intro j
      rw [hd.testBit_eq, he.testBit_eq, hagree _ (by omega)]
  · have hlow := hd.lt
    have hle := hd.le
    omega

end

variable {Peer : Type} (service : Service Peer) (target : HashCode)

def differs (code : HashCode) (j : Nat) : Bool :=
  hashGetBit service target j != hashGetBit service code j

theorem testBit_distanceLoop (code : HashCode) (lsb : UInt32)
    (hi : bucket < i) (hrounds : i + rounds = bucket + 24) (k : Nat) :
    (distanceLoop service target code bucket rounds i lsb).toNat.testBit k =
      (lsb.toNat.testBit k || decide (k + i ≤ bucket + 23 ∧ bucket + 23 - k < 512) &&
        differs service target code (bucket + 23 - k)) := by
  induction rounds generalizing i lsb with
  | zero => simp [distanceLoop, show ¬k + i ≤ bucket + 23 by omega]
  | succ rounds ih =>
    rw [distanceLoop]
    split
    next hinside =>
      have hbit : (UInt32.ofNat (1 <<< (bucket + 32 - 9 - i))).toNat.testBit k =
          decide (k + i = bucket + 23) := by
        rw [UInt32.toNat_ofNat', one_shiftLeft, testBit_mod_two_pow, testBit_two_pow,
          ← Bool.decide_and]
        exact decide_eq_decide.mpr (by omega)
      rw [ih _ (by omega) (by omega), apply_ite UInt32.toNat, apply_ite (testBit · k),
        UInt32.toNat_or, testBit_or, hbit]
      by_cases hk : k + i = bucket + 23
      · rw [show bucket + 23 - k = i by omega, ← differs, decide_eq_true hk]
        cases differs service target code i <;> simp [hk, hinside.1]
      · have hnext : k + (i + 1) ≤ bucket + 23 ↔ k + i ≤ bucket + 23 := by omega
        simp only [hk, hnext, decide_false, Bool.or_false, ite_self]
    next houtside => simp [show ¬(k + i ≤ bucket + 23 ∧ bucket + 23 - k < 512) by omega]

theorem getDistance_squeezed (code : HashCode) :
    ∃ x, Squeezed (differs service target code) (hashMatchingBits service target code) x ∧
      (getDistance service target code).toNat =
        min ((512 - hashMatchingBits service target code) * 2 ^ 23 + x) (2 ^ 32 - 1) := by
  generalize hm : hashMatchingBits service target code = m
  have hcode : Squeezed (differs service target code) m
      (distanceLoop service target code m 23 (m + 1) 0).toNat := by
    refine ⟨hm ▸ hashMatchingBits_le target code, fun j hj => ?_, fun hlt => ?_, fun k => ?_⟩
    · exact bne_eq_false_iff_eq.mpr (hashGetBit_eq (hj.trans_eq hm.symm))
    · exact bne_iff_ne.mpr (hashGetBit_ne hm hlt)
    rw [testBit_distanceLoop _ _ code 0 (by omega) (by omega), UInt32.toNat_zero, zero_testBit,
      Bool.false_or]
    congr 1
    exact decide_eq_decide.mpr (by omega)
  refine ⟨_, hcode, ?_⟩
  have hlow := hcode.lt
  rw [getDistance, hm]
  split
  next hfull =>
    subst hfull
    rw [hcode.eq_zero]
    rfl
  split
  next hnone =>
    rw [hnone, min_eq_right (by omega)]
    rfl
  · rw [UInt32.toNat_or, UInt32.toNat_ofNat', mod_eq_of_lt, min_eq_left (by omega)]
    · exact (shiftLeft_add_eq_or_of_lt hlow _).symm.trans (by rw [shiftLeft_eq])
    · rw [shiftLeft_eq]
      omega

/-- When the distance respects the order of the differing bits. -/
theorem getDistance_refines_iff (a b : HashCode) :
    ((Precedes (differs service target a) (differs service target b) →
          getDistance service target a ≤ getDistance service target b) ∧
        (hashMatchingBits service target b < hashMatchingBits service target a →
          getDistance service target a < getDistance service target b) ∧
        (getDistance service target a = 0 ↔ sameBytes service target a = true)) ↔
      ¬(hashMatchingBits service target a = 1 ∧ hashMatchingBits service target b = 0 ∧
        ∀ j, 2 ≤ j → j < 25 → differs service target a j = true) := by
  obtain ⟨_, hx, hdista⟩ := getDistance_squeezed service target a
  obtain ⟨_, hy, hdistb⟩ := getDistance_squeezed service target b
  rw [sameBytes_iff, ← UInt32.toNat_inj, UInt32.lt_iff_toNat_lt, UInt32.le_iff_toNat_le, hdista,
    hdistb, UInt32.toNat_zero]
  generalize hashMatchingBits service target a = m at *
  generalize hashMatchingBits service target b = n at *
  have hlow := hx.lt
  have hle := hx.le
  constructor
  · rintro ⟨-, _, -⟩ ⟨rfl, rfl, hall⟩
    have hmax := hx.max_iff.mpr hall
    omega
  · intro hcond
    refine ⟨fun hprecedes => min_le_min_right _ (hx.le_of_precedes hy hprecedes), ?_, ?_⟩
    · intro hmore
      by_contra hsame
      obtain rfl : m = 1 := by omega
      exact hcond ⟨rfl, by omega, hx.max_iff.mp (by omega)⟩
    · refine ⟨fun hzero => by omega, ?_⟩
      rintro rfl
      rw [hx.eq_zero]
      rfl

open TableSession (threePeers)

/-- One matching bit and none are the same distance if the 23 bits behind the first
mismatch differ as well. -/
theorem distance_hides_matching_bit :
    hashMatchingBits threePeers (threePeers.hashOf 0) ⟨.replicate 16 0x1FFFFFE⟩ = 1 ∧
      hashMatchingBits threePeers (threePeers.hashOf 0) (threePeers.hashOf 1) = 0 ∧
      getDistance threePeers (threePeers.hashOf 0) ⟨.replicate 16 0x1FFFFFE⟩ =
        getDistance threePeers (threePeers.hashOf 0) (threePeers.hashOf 1) := by
  decide +kernel

end Gnunet.Dht
