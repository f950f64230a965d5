import Gnunet.InvertibleBloomFilter
import Gnunet.LinearSketch
import Mathlib.Data.BitVec

/-!
# Linearity of invertible Bloom filters

A bucket is a value of a commutative group: counts are added modulo 256, keys
and key hashes are added bit by bit.  Inserting a key adds its mark to the
buckets of the key and removing it subtracts the mark, so that a filter is the
linear sketch of a signed multiset of keys, for every way of hashing.
-/

namespace Gnunet.Ibf

open LinearSketch Finsupp

namespace Bucket

@[ext] theorem ext {b1 b2 : Bucket} (hcount : b1.count = b2.count) (hkeySum : b1.keySum = b2.keySum)
    (hkeyHashSum : b1.keyHashSum = b2.keyHashSum) : b1 = b2 := by
  cases b1
  cases b2
  simp_all

instance : Zero Bucket := ⟨⟨0, 0, 0⟩⟩

instance : Add Bucket where
  add b1 b2 :=
    ⟨b1.count + b2.count, b1.keySum ^^^ b2.keySum, b1.keyHashSum ^^^ b2.keyHashSum⟩

instance : Neg Bucket := ⟨fun b => ⟨-b.count, b.keySum, b.keyHashSum⟩⟩

instance : Sub Bucket where
  sub b1 b2 :=
    ⟨b1.count - b2.count, b1.keySum ^^^ b2.keySum, b1.keyHashSum ^^^ b2.keyHashSum⟩

theorem zero_def : (0 : Bucket) = ⟨0, 0, 0⟩ := rfl

theorem add_def (b1 b2 : Bucket) : b1 + b2 =
      ⟨b1.count + b2.count, b1.keySum ^^^ b2.keySum, b1.keyHashSum ^^^ b2.keyHashSum⟩ :=
  rfl

instance : AddCommGroup Bucket where
  add_assoc b1 b2 b3 := by
    ext1
    · exact add_assoc _ _ _
    · exact BitVec.xor_assoc _ _ _
    · exact BitVec.xor_assoc _ _ _
  zero_add b := by
    ext1
    · exact zero_add _
    · exact BitVec.zero_xor
    · exact BitVec.zero_xor
  add_zero b := by
    ext1
    · exact add_zero _
    · exact BitVec.xor_zero
    · exact BitVec.xor_zero
  sub_eq_add_neg b1 b2 := by
    ext1
    · exact sub_eq_add_neg _ _
    · rfl
    · rfl
  neg_add_cancel b := by
    ext1
    · exact neg_add_cancel _
    · exact BitVec.xor_self
    · exact BitVec.xor_self
  add_comm b1 b2 := by
    ext1
    · exact add_comm _ _
    · exact BitVec.xor_comm _ _
    · exact BitVec.xor_comm _ _
  nsmul := nsmulRec
  zsmul := zsmulRec

theorem two_nsmul_eq (n : Nat) (b : Bucket) : (2 * n) • b = ⟨(2 * n) • b.count, 0, 0⟩ := by
  induction n with
  | zero => simp [zero_def]
  | succ n ih =>
    rw [Nat.mul_succ, add_smul, add_smul, ih, two_nsmul, two_nsmul, add_def, add_def]
    simp

theorem exponent (b : Bucket) : 256 • b = 0 := by
  rw [show 256 = 2 * 128 from rfl, two_nsmul_eq, zero_def]
  congr 1
  simp [nsmul_eq_mul]

end Bucket

namespace InvertibleBloomFilter

variable {hashing : Hashing}

def mark (hashing : Hashing) (key : BitVec 64) : Bucket :=
  ⟨1, key, hashing.keyHash key⟩

theorem insertInto_one (ibf : InvertibleBloomFilter) (key : BitVec 64) (indices : List Nat) :
    ibf.insertInto hashing key indices 1 =
      { ibf with buckets := addAt indices (mark hashing key) ibf.buckets } :=
  rfl

theorem insertInto_neg_one (ibf : InvertibleBloomFilter) (key : BitVec 64) (indices : List Nat) :
    ibf.insertInto hashing key indices (-1) =
      { ibf with buckets := addAt indices (-mark hashing key) ibf.buckets } :=
  rfl

noncomputable def holding (hashing : Hashing) (size hashNum : Nat)
    (keys : BitVec 64 →₀ ℤ) : InvertibleBloomFilter where
  hashNum := hashNum
  buckets := encode (hashing.getIndices size hashNum) (mark hashing) size keys

section

variable (size hashNum : Nat) (keys : BitVec 64 →₀ ℤ)
include hashNum

@[simp] theorem size_holding : (holding hashing size hashNum keys).size = size := length_encode keys

@[simp] theorem hashNum_holding : (holding hashing size hashNum keys).hashNum = hashNum := rfl

@[simp] theorem indices_holding : (holding hashing size hashNum keys).indices hashing key =
      hashing.getIndices size hashNum key := by
  rw [indices, size_holding, hashNum_holding]

end

variable {hashNum size : Nat} {ibf : InvertibleBloomFilter}

theorem eq_holding_of_create (hashing : Hashing) (hcreate : create size hashNum = some ibf) :
    ibf = holding hashing size hashNum 0 := by
  unfold create at hcreate
  split at hcreate
  · cases hcreate
  · cases hcreate
    rw [holding, encode_zero]
    rfl

theorem insertInto_holding_one : (holding hashing size hashNum keys).insertInto hashing key
        (hashing.getIndices size hashNum key) 1 =
      holding hashing size hashNum (keys + single key 1) := by
  rw [insertInto_one, holding, holding, ← addAt_encode, one_smul]

theorem insertInto_holding_neg_one : (holding hashing size hashNum keys).insertInto hashing key
        (hashing.getIndices size hashNum key) (-1) =
      holding hashing size hashNum (keys + single key (-1)) := by
  rw [insertInto_neg_one, holding, holding, ← addAt_encode, neg_smul, one_smul]

theorem insert_holding (hsize : hashNum ≤ size) (keys : BitVec 64 →₀ ℤ) (key : BitVec 64) :
    (holding hashing size hashNum keys).insert hashing key =
      some (holding hashing size hashNum (keys + single key 1)) := by
  unfold insert
  rw [size_holding, hashNum_holding, if_pos hsize, indices_holding, insertInto_holding_one]

theorem remove_holding (hsize : hashNum ≤ size) (keys : BitVec 64 →₀ ℤ) (key : BitVec 64) :
    (holding hashing size hashNum keys).remove hashing key =
      some (holding hashing size hashNum (keys + single key (-1))) := by
  unfold remove
  rw [size_holding, hashNum_holding, if_pos hsize, indices_holding, insertInto_holding_neg_one]

theorem subtract_holding :
    (holding hashing size hashNum keys).subtract (holding hashing size hashNum more) =
      some (holding hashing size hashNum (keys - more)) := by
  unfold subtract
  rw [size_holding, size_holding, if_pos ⟨rfl, rfl⟩]
  refine congrArg some ?_
  rw [holding, holding, holding, ← zipWith_sub_encode]
  rfl

/-- The filters that calls of the library can produce, with the signed multiset
of keys that the calls amount to. -/
inductive Reached (hashing : Hashing) :
    (BitVec 64 →₀ ℤ) → InvertibleBloomFilter → Prop
  | create {size hashNum : Nat} {ibf : InvertibleBloomFilter} :
      InvertibleBloomFilter.create size hashNum = some ibf → Reached hashing 0 ibf
  | insert {keys : BitVec 64 →₀ ℤ} {ibf next : InvertibleBloomFilter}
      {key : BitVec 64} :
      Reached hashing keys ibf → ibf.insert hashing key = some next →
      Reached hashing (keys + single key 1) next
  | remove {keys : BitVec 64 →₀ ℤ} {ibf next : InvertibleBloomFilter}
      {key : BitVec 64} :
      Reached hashing keys ibf → ibf.remove hashing key = some next →
      Reached hashing (keys + single key (-1)) next
  | subtract {keys more : BitVec 64 →₀ ℤ} {ibf1 ibf2 next : InvertibleBloomFilter} :
      Reached hashing keys ibf1 → Reached hashing more ibf2 →
      ibf1.subtract ibf2 = some next →
      Reached hashing (keys - more) next

variable {next : InvertibleBloomFilter}

/-- A filter is determined by its parameters and the keys it was given; where
it has too few buckets, it was given none. -/
theorem Reached.eq_holding (hreached : Reached hashing keys ibf) :
    0 < ibf.size ∧ ibf = holding hashing ibf.size ibf.hashNum keys ∧
      (ibf.hashNum ≤ ibf.size ∨ keys = 0) := by
  induction hreached with
  | @create size hashNum ibf hcreate =>
    have hibf := eq_holding_of_create hashing hcreate
    have hsize : 0 < size := by
      unfold InvertibleBloomFilter.create at hcreate
      split at hcreate
      · cases hcreate
      · omega
    rw [hibf, size_holding, hashNum_holding]
    exact ⟨hsize, rfl, .inr rfl⟩
  | @insert keys ibf next key _ hinsert ih =>
    obtain ⟨hsize, hibf, -⟩ := ih
    have hle := (Option.ite_none_right_eq_some.mp hinsert).1
    rw [hibf, insert_holding hle] at hinsert
    cases hinsert
    rw [size_holding, hashNum_holding]
    exact ⟨hsize, rfl, .inl hle⟩
  | @remove keys ibf next key _ hremove ih =>
    obtain ⟨hsize, hibf, -⟩ := ih
    have hle := (Option.ite_none_right_eq_some.mp hremove).1
    rw [hibf, remove_holding hle] at hremove
    cases hremove
    rw [size_holding, hashNum_holding]
    exact ⟨hsize, rfl, .inl hle⟩
  | @subtract keys more ibf1 ibf2 next _ _ hsubtract ih1 ih2 =>
    obtain ⟨hsize, hibf1, hle1⟩ := ih1
    obtain ⟨-, hibf2, hle2⟩ := ih2
    obtain ⟨hsizes, hhashNums⟩ := (Option.ite_none_right_eq_some.mp hsubtract).1
    rw [← hsizes, ← hhashNums] at hibf2 hle2
    rw [hibf1, hibf2, subtract_holding] at hsubtract
    cases hsubtract
    rw [size_holding, hashNum_holding]
    refine ⟨hsize, rfl, ?_⟩
    rcases hle1 with hle1 | hkeys
    · exact .inl hle1
    rcases hle2 with hle2 | hmore
    · exact .inl hle2
    · exact .inr (by rw [hkeys, hmore, sub_zero])

/-- Calls of `ibf_decode` until one of them finds the filter empty, with the
sides and the keys that the calls before it returned. -/
inductive Decodes (hashing : Hashing) :
    InvertibleBloomFilter → List (BitVec 8 × BitVec 64) → Prop
  | empty {ibf : InvertibleBloomFilter} :
      ibf.decode hashing = .empty → Decodes hashing ibf []
  | key {ibf rest : InvertibleBloomFilter} {side : BitVec 8} {key : BitVec 64}
      {decoded : List (BitVec 8 × BitVec 64)} :
      ibf.decode hashing = .key side key rest → Decodes hashing rest decoded →
      Decodes hashing ibf ((side, key) :: decoded)

def putBack (hashing : Hashing) (ibf : InvertibleBloomFilter)
    (decoded : BitVec 8 × BitVec 64) : Option InvertibleBloomFilter :=
  if decoded.1 = 1 then ibf.insert hashing decoded.2
  else if decoded.1 = -1 then ibf.remove hashing decoded.2
  else some ibf

theorem buckets_of_decode_empty (hdecode : ibf.decode hashing = .empty) :
    ibf.buckets = List.replicate ibf.size 0 := by
  unfold decode at hdecode
  split at hdecode
  · cases hdecode
  · split at hdecode
    next hempty =>
      refine List.eq_replicate_of_mem fun bucket hbucket => ?_
      have hzero := List.all_eq_true.mp hempty bucket hbucket
      simp only [Bool.and_eq_true, beq_iff_eq] at hzero
      exact Bucket.ext hzero.1.1 hzero.2 hzero.1.2
    · cases hdecode

/-- The decoded keys, put back, add up to what was decoded. -/
theorem Decodes.putBack_holding (hsize : hashNum ≤ size)
    (hdecodes : Decodes hashing ibf decoded) (start : BitVec 64 →₀ ℤ)
    (hibf : ibf = holding hashing size hashNum keys) :
    decoded.foldlM (putBack hashing) (holding hashing size hashNum start) =
      some (holding hashing size hashNum (start + keys)) := by
  induction hdecodes generalizing start keys with
  | empty hdecode =>
    have hempty := buckets_of_decode_empty hdecode
    rw [hibf, size_holding] at hempty
    rw [holding, ← encode_zero] at hempty
    have hstart := encode_add_congr hempty start
    rw [add_zero] at hstart
    rw [List.foldlM_nil, holding, holding, hstart]
    rfl
  | @key ibf rest side key decoded hdecode _ ih =>
    obtain ⟨hside, -, hrest⟩ := decode_eq_key hdecode
    rw [hibf, indices_holding] at hrest
    rcases hside with rfl | rfl
    · rw [insertInto_holding_neg_one] at hrest
      change (holding hashing size hashNum start).insert hashing key >>= _ = _
      rw [insert_holding hsize]
      change decoded.foldlM _ _ = _
      rw [ih _ hrest, single_neg]
      congr 2
      abel
    · rw [neg_neg, insertInto_holding_one] at hrest
      change (holding hashing size hashNum start).remove hashing key >>= _ = _
      rw [remove_holding hsize]
      change decoded.foldlM _ _ = _
      rw [ih _ hrest, single_neg]
      congr 2
      abel

theorem Decodes.eq_nil_of_zero
    (hdecodes : Decodes hashing (holding hashing size hashNum 0) decoded) : decoded = [] := by
  cases hdecodes with
  | empty _ => rfl
  | key hdecode _ =>
    obtain ⟨hside, ⟨_, hbucket, hcount⟩, -⟩ := decode_eq_key hdecode
    rw [holding, encode_zero] at hbucket
    rw [List.eq_of_mem_replicate hbucket] at hcount
    rcases hside with rfl | rfl
    · exact absurd hcount (by decide)
    · exact absurd hcount (by decide)

/-- The keys determine the buckets, removing a key undoes its insertion, and what is decoded can be
put back. -/
theorem reached_determined_decodable {keys : BitVec 64 →₀ ℤ} {ibf : InvertibleBloomFilter}
    (hreached : Reached hashing keys ibf) :
    (∀ more ibf', Reached hashing more ibf' → ibf'.size = ibf.size →
      ibf'.hashNum = ibf.hashNum → (∀ key, keys key ≡ more key [ZMOD 256]) →
      ibf' = ibf) ∧
    (∀ key next, ibf.insert hashing key = some next →
      next.remove hashing key = some ibf) ∧
    (∀ decoded, Decodes hashing ibf decoded →
      ((create ibf.size ibf.hashNum).bind fun empty =>
        decoded.foldlM (putBack hashing) empty) = some ibf) := by
  obtain ⟨_, hibf, hle⟩ := hreached.eq_holding
  refine ⟨?_, ?_, ?_⟩
  · intro more ibf' hreached' hsize' hhashNum' hkeys
    obtain ⟨-, hibf', -⟩ := hreached'.eq_holding
    rw [hsize', hhashNum'] at hibf'
    rw [hibf', hibf, size_holding, hashNum_holding, holding, holding,
      encode_congr Bucket.exponent hkeys]
  · intro key next hinsert
    have hroom := (Option.ite_none_right_eq_some.mp hinsert).1
    rw [hibf, insert_holding hroom] at hinsert
    cases hinsert
    rw [remove_holding hroom, add_assoc, ← single_add, add_neg_cancel,
      single_zero, add_zero, ← hibf]
  · intro decoded hdecodes
    have hcreate : create ibf.size ibf.hashNum =
        some (holding hashing ibf.size ibf.hashNum 0) := by
      unfold create
      rw [if_neg (by omega), holding, encode_zero]
      rfl
    rw [hcreate, Option.bind_some]
    rcases hle with hle | hkeys
    · rw [hdecodes.putBack_holding hle 0 hibf, zero_add, ← hibf]
    · rw [hkeys] at hibf
      rw [hibf] at hdecodes
      rw [hdecodes.eq_nil_of_zero, ← hibf]
      rfl

def foldedHashing : Hashing :=
  .ofCrc32 (fun word len => (word + (word >>> 32)).truncate 32 + BitVec.ofNat 32 len) 16

/-- The keys 1 and 2 were inserted, and 4 was removed. -/
def threeKeys : InvertibleBloomFilter where
  hashNum := 3
  buckets := [⟨0, 6, 14⟩, ⟨1, 1, 5⟩, ⟨1, 7, 11⟩, ⟨1, 2, 6⟩, ⟨0, 5, 13⟩]

theorem reached_threeKeys :
    Reached foldedHashing (0 + single 1 1 + single 2 1 + single 4 (-1)) threeKeys := by
  have hcreate : create 5 3 = some ⟨3, List.replicate 5 ⟨0, 0, 0⟩⟩ := by decide
  exact .remove (.insert (.insert (.create hcreate) rfl) rfl) (by decide)

theorem reached_determined_decodable_threeKeys :
    Reached foldedHashing (0 + single 1 1 + single 2 1 + single 4 (-1)) threeKeys ∧
      ((create 5 3).bind fun empty => [(1, 1), (1, 2), (-1, 4)].foldlM
        (putBack foldedHashing) empty) = some threeKeys :=
  ⟨reached_threeKeys, (reached_determined_decodable reached_threeKeys).2.2 _
    (.key rfl (.key rfl (.key rfl (.empty rfl))))⟩

end InvertibleBloomFilter

end Gnunet.Ibf
