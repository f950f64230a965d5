import Gnunet.BlockTree

/-!
# The CHK tree of a file

The arithmetic of `fs_tree.c`.  A file is cut into DBLOCKs, and each IBLOCK holds
the keys of up to 256 blocks of the level below.  Sizes and offsets are
`uint64_t`; where a function returns an option, `none` is a failing assertion.
-/

namespace Gnunet.Fs

open BlockTree

def dblockSize : Nat := 32 * 1024

def chkPerInode : Nat := 256

abbrev HashCode := Vector UInt8 64

/-- `struct ContentHashKey`: the hash of a block and of the encrypted block. -/
structure ContentHashKey where
  key : HashCode
  query : HashCode
  deriving DecidableEq, Repr

def ContentHashKey.zero : ContentHashKey :=
  ⟨.replicate 64 0, .replicate 64 0⟩

def ContentHashKey.bytes (chk : ContentHashKey) : List UInt8 :=
  chk.key.toList ++ chk.query.toList

def sizeofContentHashKey : Nat := 128

theorem ContentHashKey.length_bytes (chk : ContentHashKey) :
    chk.bytes.length = sizeofContentHashKey := by
  simp [bytes, sizeofContentHashKey]

def computeDepthLoop (flen : Nat) : Nat → Nat → Nat → Nat
  | 0, _, treeDepth => treeDepth
  | rounds + 1, fl, treeDepth =>
      if fl < flen then
        if fl * chkPerInode % 2 ^ 64 < fl then treeDepth + 1
        else computeDepthLoop flen rounds (fl * chkPerInode % 2 ^ 64) (treeDepth + 1)
      else treeDepth

def computeDepth (flen : Nat) : Nat :=
  computeDepthLoop flen 8 dblockSize 1

def treeComputeTreeSize : Nat → Nat
  | 0 => dblockSize
  | depth + 1 => treeComputeTreeSize depth * chkPerInode % 2 ^ 64

/-- `GNUNET_FS_tree_compute_iblock_size`; the result is a `uint16_t`. -/
def treeComputeIblockSize (depth endOffset : Nat) : Option Nat :=
  if depth = 0 ∨ endOffset = 0 then none
  else
    let bds := treeComputeTreeSize depth
    let mod := endOffset % bds
    if mod = 0 then some (chkPerInode * sizeofContentHashKey % 2 ^ 16)
    else
      let bds := bds / chkPerInode
      let ret := if mod % bds ≠ 0 then mod / bds + 1 else mod / bds
      some (ret * sizeofContentHashKey % 2 ^ 16)

def treeCalculateBlockSize (fsize offset depth : Nat) : Option Nat :=
  if fsize = 0 ∨ fsize < offset then none
  else if depth = 0 then
    if fsize < (offset + dblockSize) % 2 ^ 64 ∨ (offset + dblockSize) % 2 ^ 64 < offset then
      some (fsize - offset)
    else some dblockSize
  else
    let rsize := treeComputeTreeSize (depth - 1)
    let epos := (offset + rsize * chkPerInode) % 2 ^ 64
    let epos := if epos < offset ∨ fsize < epos then fsize else epos
    let chks := (epos - offset + rsize - 1) / rsize
    if chkPerInode < chks then none else some (chks * sizeofContentHashKey)

def computeChkOffset (depth endOffset : Nat) : Nat :=
  let endOffset := if 0 < depth then endOffset - 1 else endOffset
  endOffset / treeComputeTreeSize depth % 2 ^ 32 % chkPerInode

def chkShape : Shape where
  leaf := dblockSize
  fanout := chkPerInode
  leaf_pos := by decide
  fanout_pos := by decide

theorem span_eq (depth : Nat) : chkShape.span depth = 2 ^ (15 + 8 * depth) := by
  change 2 ^ 15 * (2 ^ 8) ^ depth = _
  rw [← pow_mul, ← pow_add]

theorem span_le (hdepth : depth ≤ 6) : chkShape.span depth ≤ 2 ^ 63 := by
  rw [span_eq]
  apply Nat.pow_le_pow_right
  · decide
  · omega

theorem span_succ' (depth : Nat) : chkShape.span (depth + 1) = chkShape.span depth * chkPerInode :=
  chkShape.span_succ depth

theorem treeComputeTreeSize_eq (hdepth : depth ≤ 6) :
    treeComputeTreeSize depth = chkShape.span depth := by
  induction depth with
  | zero => rfl
  | succ depth ih =>
    have hlt : chkShape.span (depth + 1) < 2 ^ 64 := by
      have := span_le hdepth
      omega
    rw [treeComputeTreeSize, ih (by omega), ← span_succ', Nat.mod_eq_of_lt hlt]

/-- The tree is as high as it must be for the file to have one root. -/
theorem computeDepth_spec (hsize : size ≤ 2 ^ 63) :
    1 ≤ computeDepth size ∧ computeDepth size ≤ 7 ∧ size ≤ chkShape.span (computeDepth size - 1) ∧
      (2 ≤ computeDepth size → chkShape.span (computeDepth size - 2) < size) := by
  simp only [span_eq, computeDepth, computeDepthLoop, dblockSize, chkPerInode]
  norm_num
  split_ifs <;> norm_num <;> omega

theorem count_root (hpos : 0 < size) (hsize : size ≤ 2 ^ 63) :
    chkShape.count size (computeDepth size - 1) = 1 := by
  have hroot := (computeDepth_spec hsize).2.2.1
  apply Nat.le_antisymm
  · rw [Shape.count_le_iff, Nat.one_mul]
    exact hroot
  · exact chkShape.count_pos hpos _

theorem treeCalculateBlockSize_dblock (hsize : size ≤ 2 ^ 63)
    (hnode : i < chkShape.count size 0) : treeCalculateBlockSize size (i * dblockSize) 0 =
      some (min dblockSize (size - i * dblockSize)) := by
  have hlt : i * dblockSize < size := by
    simpa [chkShape] using chkShape.lt_count_iff.mp hnode
  have hblock : dblockSize = 32768 := rfl
  unfold treeCalculateBlockSize
  rw [if_neg (by omega), if_pos rfl]
  split_ifs with hcut
  · congr 1
    omega
  · congr 1
    omega

theorem treeCalculateBlockSize_iblock (hsize : size ≤ 2 ^ 63)
    (hdepth : depth + 1 ≤ 6) (hnode : i < chkShape.count size (depth + 1)) :
    treeCalculateBlockSize size (i * chkShape.span (depth + 1)) (depth + 1) =
      some ((chkShape.children size depth i).length * sizeofContentHashKey) := by
  have hlt := chkShape.lt_count_iff.mp hnode
  have hspanLe := span_le hdepth
  have hsucc := span_succ' depth
  have hlength := chkShape.ceil_eq_length_children hnode
  have hle : (chkShape.children size depth i).length ≤ chkPerInode := by
    rw [Shape.children, List.length_range']
    exact Nat.min_le_left _ _
  have hcut : (i + 1) * chkShape.span (depth + 1) =
      i * chkShape.span (depth + 1) + chkShape.span (depth + 1) := Nat.succ_mul _ _
  have hepos : (if (i * chkShape.span (depth + 1) + chkShape.span (depth + 1)) % 2 ^ 64 <
        i * chkShape.span (depth + 1) ∨
      size < (i * chkShape.span (depth + 1) + chkShape.span (depth + 1)) % 2 ^ 64 then size
      else (i * chkShape.span (depth + 1) + chkShape.span (depth + 1)) % 2 ^ 64) =
      min size ((i + 1) * chkShape.span (depth + 1)) := by
    split_ifs <;> omega
  unfold treeCalculateBlockSize
  rw [if_neg (by omega), if_neg (by omega), Nat.add_sub_cancel, treeComputeTreeSize_eq (by omega)]
  simp only [← hsucc, hepos, hlength]
  rw [if_neg (by omega)]

end Gnunet.Fs
