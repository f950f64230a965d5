import Mathlib.Tactic
import Mathlib.Data.Finsupp.SMul

/-!
# Linear sketches

A sketch is a list of cells with values in a commutative group.  Every key has
a mark, and a list of positions to which its mark is added or from which it is
subtracted.  The cells are then a homomorphic image of the signed multiset of
the keys, whatever the positions are.
-/

namespace LinearSketch

variable {Key Cell : Type} [AddCommGroup Cell]

def addAt (positions : List Nat) (value : Cell) (cells : List Cell) : List Cell :=
  positions.foldl (fun cells i => cells.modify i (· + value)) cells

theorem getElem?_addAt (positions : List Nat) (value : Cell) (cells : List Cell) (i : Nat) :
    (addAt positions value cells)[i]? = cells[i]?.map (· + positions.count i • value) := by
  induction positions generalizing cells with
  | nil => simp [addAt]
  | cons position positions ih =>
    change (addAt positions value (cells.modify position (· + value)))[i]? = _
    rw [ih, List.getElem?_modify, List.count_cons]
    cases cells[i]? with
    | none => rfl
    | some cell =>
      by_cases hposition : position = i
      · simp [hposition, add_smul, add_comm, add_left_comm, add_assoc]
      · simp [hposition]

section

variable (place : Key → List Nat) (mark : Key → Cell) (size : Nat)

noncomputable def cellOf (keys : Key →₀ ℤ) (i : Nat) : Cell :=
  keys.sum fun key times => times • ((place key).count i • mark key)

noncomputable def encode (keys : Key →₀ ℤ) : List Cell :=
  (List.range size).map (cellOf place mark keys)

variable {place mark size}

theorem cellOf_add : cellOf place mark (keys + more) i =
      cellOf place mark keys i + cellOf place mark more i :=
  Finsupp.sum_add_index' (fun _ => zero_smul _ _) fun _ _ _ => add_smul _ _ _

theorem cellOf_neg : cellOf place mark (-keys) i = -cellOf place mark keys i := by
  rw [eq_neg_iff_add_eq_zero, ← cellOf_add, neg_add_cancel]
  exact Finsupp.sum_zero_index

theorem cellOf_single :
    cellOf place mark (Finsupp.single key times) i = (place key).count i • times • mark key := by
  refine (Finsupp.sum_single_index ?_).trans (smul_comm _ _ _)
  exact zero_smul ℤ _

@[simp] theorem length_encode (keys : Key →₀ ℤ) : (encode place mark size keys).length = size := by
  simp [encode]

theorem getElem?_encode : (encode place mark size keys)[i]? =
      if i < size then some (cellOf place mark keys i) else none := by
  by_cases hi : i < size
  · simp [encode, hi]
  · simp [encode, hi]

theorem encode_zero : encode place mark size 0 = List.replicate size (0 : Cell) := by
  apply List.ext_getElem?
  intro i
  rw [getElem?_encode, List.getElem?_replicate]
  rfl

theorem addAt_encode (keys : Key →₀ ℤ) (key : Key) (times : ℤ) :
    addAt (place key) (times • mark key) (encode place mark size keys) =
      encode place mark size (keys + Finsupp.single key times) := by
  apply List.ext_getElem?
  intro i
  rw [getElem?_addAt, getElem?_encode, getElem?_encode]
  by_cases hi : i < size
  · simp only [hi, if_true, Option.map_some, cellOf_add, cellOf_single]
  · simp [hi]

theorem zipWith_sub_encode :
    List.zipWith (· - ·) (encode place mark size keys) (encode place mark size more) =
      encode place mark size (keys - more) := by
  apply List.ext_getElem?
  intro i
  rw [List.getElem?_zipWith, getElem?_encode, getElem?_encode, getElem?_encode]
  by_cases hi : i < size
  · simp only [hi, if_true, sub_eq_add_neg, cellOf_add, cellOf_neg]
  · simp [hi]

theorem encode_add_congr
    (hkeys : encode place mark size keys = encode place mark size more) (start : Key →₀ ℤ) :
    encode place mark size (start + keys) = encode place mark size (start + more) := by
  apply List.ext_getElem?
  intro i
  have hi := congrArg (fun cells => cells[i]?) hkeys
  simp only [getElem?_encode] at hi ⊢
  by_cases hsize : i < size
  · simp only [hsize, if_true, Option.some.injEq] at hi ⊢
    rw [cellOf_add, cellOf_add, hi]
  · simp [hsize]

/-- Multiplicities count only up to an exponent of the group. -/
theorem encode_congr {exponent : Nat} (hexponent : ∀ cell : Cell, exponent • cell = 0)
    (hkeys : ∀ key, keys key ≡ more key [ZMOD exponent]) :
    encode place mark size keys = encode place mark size more := by
  have hzero : ∀ i, cellOf place mark (keys + -more) i = 0 := by
    intro i
    refine Finset.sum_eq_zero fun key _ => ?_
    obtain ⟨factor, hfactor⟩ := (hkeys key).symm.dvd
    have htimes : (keys + -more) key = factor * exponent := by
      rw [Finsupp.add_apply, Finsupp.neg_apply, ← sub_eq_add_neg, hfactor, mul_comm]
    change (keys + -more) key • ((place key).count i • mark key) = 0
    rw [htimes, mul_smul, natCast_zsmul, hexponent, smul_zero]
  apply List.ext_getElem?
  intro i
  rw [getElem?_encode, getElem?_encode]
  have hi := hzero i
  rw [cellOf_add, cellOf_neg, add_neg_eq_zero] at hi
  rw [hi]

end

end LinearSketch
