import Gnunet.InvertibleBloomFilter

/-!
# The buckets of a key

`ibf_get_indices` looks for a bucket among the indices found so far before it
reduces the bucket to the size of the filter.
-/

namespace Gnunet.Ibf

open List

def crcShift (h : BitVec 32) : BitVec 32 :=
  h >>> 1 ^^^ if h.getLsbD 0 then 0xedb88320 else 0

/-- `crc_table`: the entry of an index is the sum of those of its bits. -/
def crcTable (i : BitVec 32) : BitVec 32 :=
  ((range 8).filter i.getLsbD).foldl (fun entry bit => entry ^^^ crcShift^[8 - bit] 1) 0

def cryptoCrc32n (buf : BitVec 64) (len : Nat) : BitVec 32 :=
  let step (crc : BitVec 32) (i : Nat) : BitVec 32 :=
    crc >>> 8 ^^^ crcTable ((crc ^^^ (buf >>> (8 * i)).truncate 32) &&& 0xff)
  (range len).foldl step 0xffffffff ^^^ 0xffffffff

/-- The bucket that round `i` of the loop tries. -/
def bucketAt (crc32n : BitVec 64 → Nat → BitVec 32) (key : BitVec 64) : Nat → BitVec 32
  | 0 => crc32n key 8
  | i + 1 => crc32n (bucketAt crc32n key i ++ BitVec.ofNat 32 i) 8

/-- `dst` after `n` rounds, if the loop gets there. -/
def found (bucket : Nat → BitVec 32) (size : Nat) : Nat → List Nat
  | 0 => []
  | n + 1 =>
    let dst := found bucket size n
    if dst.contains (bucket n).toNat then dst else dst ++ [(bucket n).toNat % size]

variable {bucket : Nat → BitVec 32} {size n : Nat}

theorem mem_found_iff (hsize : 0 < size) :
    x ∈ found bucket size n ↔ ∃ i < n, (bucket i).toNat % size = x := by
  induction n generalizing x with
  | zero => simp [found]
  | succ n ih =>
    rw [found, Nat.exists_lt_succ_right, ← ih]
    split
    next hin =>
      rw [contains_iff_mem] at hin
      obtain ⟨_, -, hi⟩ := ih.mp hin
      rw [Nat.mod_eq_of_lt (hi ▸ Nat.mod_lt _ hsize), or_iff_left_of_imp]
      rintro rfl
      exact hin
    · rw [mem_append, mem_singleton, eq_comm]

/-- An index comes a second time exactly if its bucket is beyond the filter. -/
theorem nodup_found_iff (hsize : 0 < size) : (found bucket size n).Nodup ↔ ∀ i < n, ∀ j < i,
      (bucket j).toNat % size = (bucket i).toNat % size → (bucket i).toNat < size := by
  induction n with
  | zero => simp [found]
  | succ n ih =>
    rw [found, Nat.forall_lt_succ_right, ← ih]
    split
    next hin =>
      obtain ⟨_, -, hi⟩ := (mem_found_iff hsize).mp (contains_iff_mem.mp hin)
      have hlt : (bucket n).toNat < size := hi ▸ Nat.mod_lt _ hsize
      simp [hlt]
    next hout =>
      rw [contains_iff_mem] at hout
      rw [nodup_append_comm, singleton_append, nodup_cons, and_comm, mem_found_iff hsize]
      refine and_congr_right fun _ => ⟨fun hnew j hj heq => absurd ⟨j, hj, heq⟩ hnew, ?_⟩
      rintro hall ⟨j, hj, heq⟩
      refine hout ((mem_found_iff hsize).mpr ⟨j, hj, ?_⟩)
      rw [heq, Nat.mod_eq_of_lt (hall j hj heq)]

theorem getIndicesLoop_eq (hnext : ∀ i, crc32n (bucket i ++ BitVec.ofNat 32 i) 8 = bucket (i + 1))
    (size hashNum fuel n : Nat) :
    getIndicesLoop crc32n size hashNum fuel (BitVec.ofNat 32 n) (bucket n) (found bucket size n) =
      ((range' n fuel).find? fun n => hashNum ≤ (found bucket size n).length).map
        (found bucket size) := by
  induction fuel generalizing n with
  | zero => rfl
  | succ fuel ih =>
    rw [getIndicesLoop, range'_succ]
    split
    next hless =>
      rw [find?_cons_of_neg (by simpa using hless), ← ih (n + 1), BitVec.ofNat_add, hnext]
      rfl
    next hmore =>
      rw [find?_cons_of_pos (by simpa using hmore)]
      rfl

/-- When the loop ends with distinct buckets. -/
theorem getIndices_distinct_iff (crc32n : BitVec 64 → Nat → BitVec 32) (key : BitVec 64)
    (size hashNum : Nat) :
    (∃ fuel dst, getIndicesLoop crc32n (size + 1) hashNum fuel 0 (crc32n key 8) [] = some dst ∧
        dst.length = hashNum ∧ dst.Nodup ∧ ∀ x ∈ dst, x < size + 1) ↔
      ∃ n, ((Finset.range n).image fun i => (bucketAt crc32n key i).toNat % (size + 1)).card =
          hashNum ∧
        ∀ i < n, ∀ j < i, (bucketAt crc32n key j).toNat % (size + 1) =
          (bucketAt crc32n key i).toNat % (size + 1) → (bucketAt crc32n key i).toNat < size + 1 := by
  have hloop (fuel : Nat) :=
    getIndicesLoop_eq (fun i => (rfl : _ = bucketAt crc32n key (i + 1))) (size + 1) hashNum fuel 0
  change ∀ fuel, getIndicesLoop _ _ _ fuel 0 (crc32n key 8) [] = _ at hloop
  simp only [hloop]
  generalize bucketAt crc32n key = bucket
  have hsize : 0 < size + 1 := size.succ_pos
  have himage (n : Nat) : (found bucket (size + 1) n).toFinset =
      (Finset.range n).image fun i => (bucket i).toNat % (size + 1) := by
    ext x
    simp [mem_found_iff hsize]
  constructor
  · rintro ⟨_, _, hdst, hlength, hnodup, -⟩
    obtain ⟨n, -, rfl⟩ := Option.map_eq_some_iff.mp hdst
    refine ⟨n, ?_, (nodup_found_iff hsize).mp hnodup⟩
    rw [← himage, toFinset_card_of_nodup hnodup, hlength]
  · rintro ⟨n, hcard, hbeyond⟩
    have hnodup {k : Nat} (hk : k ≤ n) : (found bucket (size + 1) k).Nodup :=
      (nodup_found_iff hsize).mpr fun i hi => hbeyond i (hi.trans_le hk)
    have hlength {k : Nat} (hk : k ≤ n) := toFinset_card_of_nodup (hnodup hk)
    simp only [himage] at hlength
    have hsome : ((range' 0 (n + 1)).find? fun n =>
        hashNum ≤ (found bucket (size + 1) n).length).isSome := by
      refine find?_isSome.mpr ⟨n, by simp, ?_⟩
      rw [← hlength le_rfl, hcard, decide_eq_true le_rfl]
    obtain ⟨k, hk⟩ := Option.isSome_iff_exists.mp hsome
    have hkn : k ≤ n := by simpa [Nat.lt_succ_iff] using mem_of_find?_eq_some hk
    refine ⟨n + 1, _, congrArg _ hk, ?_, hnodup hkn, ?_⟩
    · refine Nat.le_antisymm ?_ (by simpa using find?_some hk)
      rw [← hlength hkn, ← hcard]
      exact Finset.card_le_card (Finset.image_subset_image (Finset.range_subset_range.mpr hkn))
    · intro x hx
      obtain ⟨_, -, rfl⟩ := (mem_found_iff hsize).mp hx
      exact Nat.mod_lt _ hsize

/-- A filter of the strata estimator, and the key 4. -/
theorem strata_index_repeated :
    getIndicesLoop cryptoCrc32n 80 4 5 0 (cryptoCrc32n 4 8) [] = some [35, 5, 79, 79] := by
  decide +kernel

end Gnunet.Ibf
