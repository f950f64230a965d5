import Gnunet.Defragmentation

/-!
# Counting lost fragments

An acknowledgement says which fragments are missing, and the sender counts the
fragments it sent and those that arrived, to adapt its delay to the loss.
-/

namespace Gnunet.Fragmentation

variable {mtu : Nat} {msg : List UInt8} {fragmentId : UInt32} {fc : FragmentContext}

/-- `snd_cnt` and `ack_cnt` of `GNUNET_FRAGMENT_process_ack`, whose loop compares
the masked bit with 1 and not with 0. -/
def lossCounts (fc : FragmentContext) (abits : BitVec 64) : Nat × Nat :=
  ((List.range 64).countP fun i => fc.acksMask &&& WordSet.single 64 i == 1#64,
    (List.range 64).countP fun i =>
      fc.acksMask &&& WordSet.single 64 i == 1#64 && !WordSet.contains abits i)

theorem and_single_eq_one (mask : BitVec 64) (hfirst : mask.getLsbD 0 = true) :
    (mask &&& WordSet.single 64 i == 1#64) = decide (i = 0) := by
  rw [Bool.eq_iff_iff, beq_iff_eq, decide_eq_true_iff, WordSet.single_eq, BitVec.and_twoPow]
  constructor
  · intro hone
    by_contra hi
    have hbit := congrArg (fun v => BitVec.getLsbD v 0) hone
    split at hbit <;> simp at hbit
    exact hi hbit.symm
  · rintro rfl
    rw [if_pos hfirst]
    rfl

theorem lossCounts_eq (hfirst : fc.acksMask.getLsbD 0 = true) (abits : BitVec 64) :
    lossCounts fc abits = (1, if abits.getLsbD 0 then 0 else 1) := by
  simp only [lossCounts, and_single_eq_one _ hfirst, WordSet.contains_eq]
  have hack : (fun i => decide (i = 0) && !abits.getLsbD i) =
      fun i => decide (i = 0) && !abits.getLsbD 0 := by
    funext i
    by_cases hi : i = 0 <;> simp [hi]
  rw [hack]
  cases abits.getLsbD 0 <;> decide

/-- The loss is counted correctly only for messages of one fragment. -/
theorem lossCounts_eq_iff (hcreate : contextCreate mtu msg fragmentId = some fc)
    (abits : BitVec 64) :
    lossCounts fc abits =
        (numFragments mtu msg.length,
          (List.range (numFragments mtu msg.length)).countP fun i => !abits.getLsbD i) ↔
      numFragments mtu msg.length = 1 := by
  obtain ⟨⟨hmtu, hheader, hle⟩, hfc⟩ := Option.ite_none_right_eq_some.mp hcreate
  have hpos : 0 < numFragments mtu msg.length := by
    rw [lt_numFragments_iff hmtu]
    exact (Nat.zero_mul _).trans_lt ((by decide : 0 < sizeofMessageHeader).trans_le hheader)
  have hfirst : fc.acksMask.getLsbD 0 = true := by
    cases hfc
    exact (WordSet.getLsbD_below hle 0).trans (decide_eq_true hpos)
  rw [lossCounts_eq hfirst, Prod.mk.injEq]
  constructor
  · rintro ⟨hsnd, -⟩
    exact hsnd.symm
  · intro hone
    rw [hone, List.range_one, List.countP_singleton]
    cases abits.getLsbD 0 <;> decide

theorem lossCounts_eq_iff_eight :
    ∃ fc, contextCreate 1036 (.replicate 8 0) 7 = some fc ∧ lossCounts fc 0 = (1, 1) :=
  have hcreate : contextCreate 1036 (.replicate 8 0) 7 = some _ := rfl
  ⟨_, hcreate, (lossCounts_eq_iff hcreate 0).mpr rfl⟩

/-- Of two fragments that both arrived the counters know one. -/
theorem two_fragments_counted_once :
    ∃ fc, contextCreate 1036 (.replicate 2000 0) 7 = some fc ∧
      numFragments 1036 2000 = 2 ∧ lossCounts fc 0 = (1, 1) := by
  refine ⟨_, if_pos ?_, by decide, ?_⟩
  · rw [List.length_replicate]
    decide
  · rw [List.length_replicate]
    decide +kernel

end Gnunet.Fragmentation
