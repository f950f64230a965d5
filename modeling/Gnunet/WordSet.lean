import Mathlib.Tactic

/-!
# Words as sets of small numbers

The bits of a word as a set: the first numbers below a bound, and taking one
number out by a subtraction.
-/

namespace WordSet

open BitVec

variable {w : Nat}

def single (w i : Nat) : BitVec w :=
  1#w <<< i

/-- The numbers below `n`, as a C program computes them where a shift by the
width of a word is not defined. -/
def below (w n : Nat) : BitVec w :=
  if n = w then allOnes w else single w n - 1#w

def contains (word : BitVec w) (i : Nat) : Bool :=
  word &&& single w i != 0#w

def erase (word : BitVec w) (i : Nat) : BitVec w :=
  word - single w i

def insert (word : BitVec w) (i : Nat) : BitVec w :=
  word ||| single w i

/-- Taking a number out by a mask, which also serves where it is not a member. -/
def clear (word : BitVec w) (i : Nat) : BitVec w :=
  word &&& ~~~ single w i

theorem single_eq : single w i = BitVec.twoPow w i := by
  rw [single, twoPow_eq]

theorem contains_eq (word : BitVec w) (i : Nat) : contains word i = word.getLsbD i := by
  unfold contains
  rw [single_eq, and_twoPow]
  by_cases hbit : word.getLsbD i = true
  · have hi : i < w := lt_of_getLsbD hbit
    have hne : BitVec.twoPow w i ≠ 0#w := by
      intro h
      have hzero := congrArg (fun v => getLsbD v i) h
      simp [hi] at hzero
    rw [if_pos hbit, hbit]
    simpa using hne
  · simp only [Bool.not_eq_true] at hbit
    rw [hbit]
    rfl

theorem getLsbD_below (hn : n ≤ w) (i : Nat) : (below w n).getLsbD i = decide (i < n) := by
  unfold below
  split
  next hfull =>
    subst hfull
    rw [getLsbD_allOnes]
  · have hlt : n < w := by omega
    have hpow : 2 ^ n < 2 ^ w := Nat.pow_lt_pow_right (by decide) hlt
    have hone : 1 < 2 ^ w := Nat.one_lt_two_pow (by omega)
    have hpos : 0 < 2 ^ n := Nat.two_pow_pos n
    have hnat : (single w n - 1#w).toNat = 2 ^ n - 1 := by
      rw [single_eq, toNat_sub, toNat_twoPow, Nat.mod_eq_of_lt hpow,
        toNat_ofNat, Nat.mod_eq_of_lt hone,
        show 2 ^ w - 1 + 2 ^ n = 2 ^ w + (2 ^ n - 1) by omega, Nat.add_mod_left,
        Nat.mod_eq_of_lt (by omega)]
    rw [getLsbD, hnat, Nat.testBit_two_pow_sub_one]

theorem getLsbD_erase {word : BitVec w} (hi : word.getLsbD i = true) (j : Nat) :
    (erase word i).getLsbD j = (word.getLsbD j && decide (j ≠ i)) := by
  have hdisjoint : (word &&& ~~~ BitVec.twoPow w i) &&& BitVec.twoPow w i = 0#w := by
    rw [BitVec.and_assoc]
    have : ~~~ BitVec.twoPow w i &&& BitVec.twoPow w i = 0#w := by
      ext k hk
      simp
    rw [this, and_zero]
  have hunion : (word &&& ~~~ BitVec.twoPow w i) + BitVec.twoPow w i = word := by
    rw [add_eq_or_of_and_eq_zero _ _ hdisjoint]
    ext k hk
    by_cases hk' : k = i
    · subst hk'
      simp [hi]
    · simp [hk']
  have herase : erase word i = word &&& ~~~ BitVec.twoPow w i := by
    rw [erase, single_eq]
    nth_rewrite 1 [← hunion]
    rw [BitVec.add_sub_cancel]
  rw [herase]
  by_cases hj : j < w
  · simp [hj, eq_comm, Bool.and_comm]
  · simp [getLsbD_of_ge _ _ (Nat.le_of_not_lt hj)]

theorem contains_insert (word : BitVec w) (hi : i < w) (j : Nat) :
    contains (insert word i) j = (contains word j || decide (j = i)) := by
  rw [contains_eq, contains_eq, insert, single_eq, getLsbD_or, getLsbD_twoPow]
  by_cases hj : j = i
  · simp [hj, hi]
  · simp [hj, Ne.symm hj]

theorem contains_clear (word : BitVec w) (i j : Nat) :
    contains (clear word i) j = (contains word j && decide (j ≠ i)) := by
  rw [contains_eq, contains_eq, clear, single_eq, getLsbD_and, getLsbD_not, getLsbD_twoPow]
  by_cases hj : j < w
  · by_cases heq : j = i
    · subst heq
      simp [hj]
    · simp [hj, heq, Ne.symm heq]
  · simp [getLsbD_of_ge _ _ (Nat.le_of_not_lt hj)]

theorem eq_zero_iff (word : BitVec w) : word = 0#w ↔ ∀ i, word.getLsbD i = false := by
  constructor
  · rintro rfl i
    exact getLsbD_zero
  · intro h
    refine eq_of_getLsbD_eq fun i _ => ?_
    rw [h i, getLsbD_zero]

end WordSet
