import Mathlib.Tactic

/-!
# Invertible Bloom filters

`ibf.c`.  A filter is a list of buckets; the two hash functions, into the
buckets of a key and into the check sum of a key, are parameters, and
`Hashing.ofCrc32` is how the source makes both of them from one check sum.  A
failing assertion is `none`.
-/

namespace Gnunet.Ibf

structure Bucket where
  count : BitVec 8
  keySum : BitVec 64
  keyHashSum : BitVec 32
  deriving DecidableEq, Repr

structure InvertibleBloomFilter where
  hashNum : Nat
  buckets : List Bucket
  deriving DecidableEq, Repr

/-- The buckets of a key in a filter of some size, `ibf_get_indices`, and the
hash of a key, `IBF_KEY_HASH_VAL`. -/
structure Hashing where
  getIndices : Nat → Nat → BitVec 64 → List Nat
  keyHash : BitVec 64 → BitVec 32

section

variable (crc32n : BitVec 64 → Nat → BitVec 32)

/-- The loop of `ibf_get_indices` from its `i`-th round on; `none` is a loop
that does not end within `fuel` rounds.  A new bucket is compared with those
found before it is reduced to the size of the filter. -/
def getIndicesLoop (size hashNum : Nat) : Nat → BitVec 32 → BitVec 32 → List Nat → Option (List Nat)
  | 0, _, _, _ => none
  | fuel + 1, i, bucket, dst =>
      if dst.length < hashNum then
        getIndicesLoop size hashNum fuel (i + 1) (crc32n (bucket ++ i) 8)
          (if dst.contains bucket.toNat then dst else dst ++ [bucket.toNat % size])
      else some dst

/-- The two hash functions over a check sum of the first bytes of a word. -/
def Hashing.ofCrc32 (fuel : Nat) : Hashing where
  getIndices size hashNum key :=
    (getIndicesLoop crc32n size hashNum fuel 0 (crc32n key 8) []).getD []
  keyHash key := crc32n key 4

variable {crc32n}

end

namespace InvertibleBloomFilter

variable (hashing : Hashing)

def size (ibf : InvertibleBloomFilter) : Nat :=
  ibf.buckets.length

def create (size hashNum : Nat) : Option InvertibleBloomFilter :=
  if size = 0 then none else some ⟨hashNum, List.replicate size ⟨0, 0, 0⟩⟩

def indices (ibf : InvertibleBloomFilter) (key : BitVec 64) : List Nat :=
  hashing.getIndices ibf.size ibf.hashNum key

def insertBucket (key : BitVec 64) (side : BitVec 8) (bucket : Bucket) : Bucket where
  count := bucket.count + side
  keySum := bucket.keySum ^^^ key
  keyHashSum := bucket.keyHashSum ^^^ hashing.keyHash key

def insertInto (ibf : InvertibleBloomFilter) (key : BitVec 64) (buckets : List Nat)
    (side : BitVec 8) : InvertibleBloomFilter :=
  { ibf with
    buckets := buckets.foldl
      (fun cells i => cells.modify i (insertBucket hashing key side)) ibf.buckets }

def insert (ibf : InvertibleBloomFilter) (key : BitVec 64) : Option InvertibleBloomFilter :=
  if ibf.hashNum ≤ ibf.size then
    some (ibf.insertInto hashing key (ibf.indices hashing key) 1)
  else none

def remove (ibf : InvertibleBloomFilter) (key : BitVec 64) : Option InvertibleBloomFilter :=
  if ibf.hashNum ≤ ibf.size then
    some (ibf.insertInto hashing key (ibf.indices hashing key) (-1))
  else none

def isEmpty (ibf : InvertibleBloomFilter) : Bool :=
  ibf.buckets.all fun bucket =>
    bucket.count == 0 && bucket.keyHashSum == 0 && bucket.keySum == 0

def isPure (ibf : InvertibleBloomFilter) (i : Nat) (bucket : Bucket) : Bool :=
  (bucket.count == 1 || bucket.count == -1) && hashing.keyHash bucket.keySum == bucket.keyHashSum &&
    (ibf.indices hashing bucket.keySum).contains i

inductive Decoded where
  | key (side : BitVec 8) (key : BitVec 64) (rest : InvertibleBloomFilter)
  | empty
  | failed

def decode (ibf : InvertibleBloomFilter) : Decoded :=
  match ibf.buckets.zipIdx.find? fun cell => ibf.isPure hashing cell.2 cell.1 with
  | some (bucket, _) =>
      .key bucket.count bucket.keySum
        (ibf.insertInto hashing bucket.keySum (ibf.indices hashing bucket.keySum) (-bucket.count))
  | none => if ibf.isEmpty then .empty else .failed

def readSlice (ibf : InvertibleBloomFilter) (slice : List Bucket) (start : Nat) :
    Option InvertibleBloomFilter :=
  if 0 < slice.length ∧ start + slice.length ≤ ibf.size then
    some { ibf with
      buckets := ibf.buckets.take start ++ slice ++
        ibf.buckets.drop (start + slice.length) }
  else none

def subtract (ibf1 ibf2 : InvertibleBloomFilter) : Option InvertibleBloomFilter :=
  if ibf1.size = ibf2.size ∧ ibf1.hashNum = ibf2.hashNum then
    some { ibf1 with
      buckets := List.zipWith
        (fun b1 b2 =>
          { count := b1.count - b2.count
            keySum := b1.keySum ^^^ b2.keySum
            keyHashSum := b1.keyHashSum ^^^ b2.keyHashSum })
        ibf1.buckets ibf2.buckets }
  else none

variable {hashing}

@[simp] theorem size_insertInto (ibf : InvertibleBloomFilter) (key : BitVec 64)
    (indices : List Nat) (side : BitVec 8) :
    (ibf.insertInto hashing key indices side).size = ibf.size := by
  unfold insertInto size
  generalize ibf.buckets = cells
  induction indices generalizing cells with
  | nil => rfl
  | cons i indices ih => exact (ih _).trans (List.length_modify _ _ _)

theorem create_of_pos {size : Nat} (hsize : 0 < size) (hashNum : Nat) :
    create size hashNum = some ⟨hashNum, List.replicate size ⟨0, 0, 0⟩⟩ :=
  if_neg (by omega)

theorem decode_eq_key {ibf rest : InvertibleBloomFilter}
    (hdecode : ibf.decode hashing = .key side key rest) :
    (side = 1 ∨ side = -1) ∧ (∃ bucket ∈ ibf.buckets, bucket.count = side) ∧
      rest = ibf.insertInto hashing key (ibf.indices hashing key) (-side) := by
  unfold decode at hdecode
  split at hdecode
  next bucket i hfind =>
    cases hdecode
    have hpure := List.find?_some hfind
    have hmem := List.mem_of_find?_eq_some hfind
    simp only [isPure, Bool.and_eq_true, Bool.or_eq_true, beq_iff_eq] at hpure
    exact ⟨hpure.1.1, ⟨bucket, List.fst_mem_of_mem_zipIdx hmem, rfl⟩, rfl⟩
  · split at hdecode
    · cases hdecode
    · cases hdecode

end InvertibleBloomFilter

end Gnunet.Ibf
