import Gnunet.SetUnionSafety

/-!
# The strata estimator

A key goes to the stratum of its trailing ones, and the estimated difference of
two sets gives the order of the filter.
-/

namespace Gnunet.SetService

open List

def seStrataCount : Nat := 32

/-- The loop of `strata_estimator_insert` and of `strata_estimator_remove`. -/
def stratumLoop : Nat → BitVec 64 → Nat → Nat
  | 0, _, i => i
  | rounds + 1, v, i => if v.getLsbD 0 then stratumLoop rounds (v >>> 1) (i + 1) else i

def stratum (key : BitVec 64) : Nat :=
  stratumLoop 64 key 0

/-- The number of keys decoded from a stratum, or `none` if decoding fails. -/
def strataEstimatorDifference (decoded : Nat → Option Nat) : Nat → Nat → Nat
  | 0, count => count % 2 ^ 32
  | i + 1, count =>
    match decoded i with
    | some ibfCount => strataEstimatorDifference decoded i (count + ibfCount)
    | none => count * 2 ^ (i + 1) % 2 ^ 32

theorem le_stratumLoop_iff (v : BitVec 64) (i : Nat) (hn : n ≤ rounds) :
    i + n ≤ stratumLoop rounds v i ↔ ∀ j < n, v.getLsbD j = true := by
  induction rounds generalizing v i n with
  | zero => simp [Nat.le_zero.mp hn, stratumLoop]
  | succ rounds ih =>
    unfold stratumLoop
    cases n with
    | zero =>
      have hnext := (ih (v >>> 1) (i + 1) (Nat.zero_le _)).mpr (by simp)
      split <;> simp
      omega
    | succ n =>
      have hnext := ih (v >>> 1) (i + 1) (Nat.succ_le_succ_iff.mp hn)
      rw [Nat.forall_lt_succ_left]
      simp only [BitVec.getLsbD_ushiftRight, Nat.add_comm 1] at hnext
      split
      next hbit => rw [← hnext, and_iff_right hbit, Nat.add_right_comm, Nat.add_assoc]
      next hbit => exact iff_of_false (by omega) fun hall => hbit hall.1

section

variable {diff : Nat}

theorem getOrderFromDifference_eq_some (horder : getOrderFromDifference diff = some order) :
    ∃ found ≤ 30, order = min maxIbfOrder found ∧ ibfAlpha * diff % 2 ^ 32 ≤ 2 ^ found ∧
      (20 ≤ found → 2 ^ 19 < ibfAlpha * diff % 2 ^ 32) := by
  obtain ⟨found, hfound, rfl⟩ := Option.map_eq_some_iff.mp horder
  obtain ⟨htest, hmem, hfirst⟩ := find?_range'_eq_some.mp hfound
  rw [Bool.and_eq_true, decide_eq_true_iff] at htest
  have hle := (mem_range'_1.mp hmem).2
  refine ⟨found, by omega, rfl, htest.1, ?_⟩
  intro htwenty
  have htest := hfirst 19 (by decide) htwenty
  simpa [seIbfHashNum] using htest

theorem order_large_enough_iff :
    (∃ order, getOrderFromDifference diff = some order ∧ 2 ≤ order ∧ order ≤ maxIbfOrder ∧
        min (2 ^ maxIbfOrder) (ibfAlpha * diff) ≤ 2 ^ order) ↔
      ibfAlpha * diff % 2 ^ 32 ≤ 2 ^ 30 ∧ (diff < 2 ^ 30 ∨ 2 ^ 19 < ibfAlpha * diff % 2 ^ 32) := by
  constructor
  · rintro ⟨order, horder, -, -, hlarge⟩
    obtain ⟨found, hfound, rfl, hfits, hfirst⟩ := getOrderFromDifference_eq_some horder
    refine ⟨hfits.trans (Nat.pow_le_pow_right (by decide) hfound), ?_⟩
    refine or_iff_not_imp_left.mpr fun hdiff => hfirst ?_
    -- The product has wrapped, so that the filter has to be one of the largest.
    have hwrapped : min (2 ^ maxIbfOrder) (ibfAlpha * diff) = 2 ^ maxIbfOrder := by
      unfold maxIbfOrder ibfAlpha
      omega
    rw [hwrapped, Nat.pow_le_pow_iff_right (by decide)] at hlarge
    exact (le_min_iff.mp hlarge).2
  · rintro ⟨hfits, _⟩
    obtain ⟨order, horder⟩ := UnionOperation.getOrderFromDifference_isSome hfits
    have hbounds := UnionOperation.getOrderFromDifference_bounds horder
    refine ⟨order, horder, hbounds.1, hbounds.2, ?_⟩
    obtain ⟨found, -, rfl, hle, -⟩ := getOrderFromDifference_eq_some horder
    rcases Nat.lt_or_ge found 20 with hsmall | hlarge
    · rw [min_eq_right (show found ≤ maxIbfOrder from hsmall.le)]
      refine (min_le_right _ _).trans (le_trans ?_ hle)
      have hpow : 2 ^ found ≤ 2 ^ 19 := Nat.pow_le_pow_right (by decide) (by omega)
      unfold ibfAlpha at *
      omega
    · rw [min_eq_left (show maxIbfOrder ≤ found from hlarge)]
      exact min_le_left _ _

end

/-- When the stratum is in range and the order is large enough. -/
theorem strata_index_and_order_iff (key : BitVec 64) (diff : Nat) :
    (stratum key < seStrataCount ∧
        ∃ order, getOrderFromDifference diff = some order ∧ 2 ≤ order ∧ order ≤ maxIbfOrder ∧
          min (2 ^ maxIbfOrder) (ibfAlpha * diff) ≤ 2 ^ order) ↔
      (∃ i < seStrataCount, key.getLsbD i = false) ∧
        ibfAlpha * diff % 2 ^ 32 ≤ 2 ^ 30 ∧
        (diff < 2 ^ 30 ∨ 2 ^ 19 < ibfAlpha * diff % 2 ^ 32) := by
  have hindex := le_stratumLoop_iff key 0 (show seStrataCount ≤ 64 by decide)
  rw [Nat.zero_add] at hindex
  rw [order_large_enough_iff, ← Nat.not_le, stratum, hindex]
  simp

/-- A key that ends in 32 ones, and one key decoded before stratum 29 fails. -/
theorem strata_index_and_order_exceeded :
    stratum 0xFFFFFFFF = seStrataCount ∧
      strataEstimatorDifference (fun i => if i = 29 then none else some (i - 30)) 32 0 = 2 ^ 30 ∧
      getOrderFromDifference (2 ^ 30) = some 2 := by
  decide

end Gnunet.SetService
