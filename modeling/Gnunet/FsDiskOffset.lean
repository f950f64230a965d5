import Gnunet.FsTree

/-!
# Where a download stores its blocks

`compute_disk_offset` of `fs_download.c`.  DBLOCKs are stored where they belong
in the file, and the IBLOCKs behind its end, one level after the other.  The
space for a level is computed from that of the level below by a division in
bytes, while a level needs whole keys: where the division rounds, the last keys
of a level are overwritten by the next.
-/

namespace Gnunet.Fs

open BlockTree Nat Shape

def diskOffsetLoop : Nat → Nat → Nat → Nat → Option Nat
  | 0, loff, _, ioff => some ((loff + ioff * sizeofContentHashKey) % 2 ^ 64)
  | rounds + 1, loff, lsize, ioff =>
      let loff := (loff + lsize) % 2 ^ 64
      let lsize := (lsize + chkPerInode - 1) / chkPerInode
      if lsize = 0 ∨ ioff % chkPerInode ≠ 0 then none
      else diskOffsetLoop rounds loff lsize (ioff / chkPerInode)

def computeDiskOffset (fsize off depth : Nat) : Option Nat :=
  if depth = 0 then some off
  else
    let blocks := (fsize + dblockSize - 1) % 2 ^ 64 / dblockSize
    if off % dblockSize ≠ 0 then none
    else
      diskOffsetLoop (depth - 1) (blocks * dblockSize % 2 ^ 64)
        (blocks * sizeofContentHashKey % 2 ^ 64) (off / dblockSize % 2 ^ 32)

/-- From where and up to where node `i` at some depth is stored. -/
def diskRange (fsize depth i : Nat) : Option (Nat × Nat) :=
  (computeDiskOffset fsize (i * treeComputeTreeSize depth) depth).bind fun start =>
    (treeCalculateBlockSize fsize (i * treeComputeTreeSize depth) depth).map fun len =>
      (start, start + len)

/-- Every block of the file has a place of its own, and those of the IBLOCKs are
behind the DBLOCKs. -/
structure StoredApart (fsize : Nat) : Prop where
  stored : ∀ depth i, (depth, i) ∈ chkShape.nodes fsize (computeDepth fsize) →
    (diskRange fsize depth i).isSome
  apart : ∀ depth i depth' i' range range', (depth, i) ∈ chkShape.nodes fsize (computeDepth fsize) →
    (depth', i') ∈ chkShape.nodes fsize (computeDepth fsize) →
    (depth, i) ≠ (depth', i') →
    diskRange fsize depth i = some range → diskRange fsize depth' i' = some range' →
    range.2 ≤ range'.1 ∨ range'.2 ≤ range.1
  behind : ∀ depth i range, (depth, i) ∈ chkShape.nodes fsize (computeDepth fsize) → 0 < depth →
    diskRange fsize depth i = some range → fsize ≤ range.1

/-- The space for the IBLOCKs of depth `level + 1`, in a file of `blocks` DBLOCKs. -/
def levelSize (blocks : Nat) : Nat → Nat
  | 0 => blocks * sizeofContentHashKey
  | level + 1 => (levelSize blocks level + chkPerInode - 1) / chkPerInode

def levelStart (blocks : Nat) : Nat → Nat
  | 0 => blocks * dblockSize
  | level + 1 => levelStart blocks level + levelSize blocks level

theorem levelSize_pos (hblocks : 0 < blocks) (level : Nat) : 0 < levelSize blocks level := by
  induction level with
  | zero => exact mul_pos hblocks (by decide)
  | succ level ih =>
    unfold levelSize chkPerInode
    omega

theorem levelSize_le (blocks level : Nat) :
    levelSize blocks level ≤ blocks * sizeofContentHashKey := by
  induction level with
  | zero => exact le_rfl
  | succ level ih =>
    unfold levelSize chkPerInode
    omega

theorem levelStart_le (blocks level : Nat) : levelStart blocks level ≤
      blocks * dblockSize + level * (blocks * sizeofContentHashKey) := by
  induction level with
  | zero => simp [levelStart]
  | succ level ih =>
    have hsize := levelSize_le blocks level
    unfold levelStart
    rw [succ_mul]
    omega

theorem levelStart_lt (hblocks : blocks ≤ 2 ^ 31) (level : Nat)
    (hlevel : level ≤ 4) : levelStart blocks level < 2 ^ 62 := by
  have hstart := levelStart_le blocks level
  have hmul : level * (blocks * sizeofContentHashKey) ≤ 4 * (blocks * sizeofContentHashKey) :=
    mul_le_mul_right _ hlevel
  have hkey : sizeofContentHashKey = 128 := rfl
  have hdblock : dblockSize = 32768 := rfl
  rw [hkey] at hstart hmul
  rw [hdblock] at hstart
  omega

theorem diskOffsetLoop_eq (hpos : 0 < blocks) (hblocks : blocks ≤ 2 ^ 31)
    (rounds level : Nat) (hlevel : level + rounds ≤ 3) (hi : i * chkPerInode ≤ 2 ^ 31) :
    diskOffsetLoop rounds (levelStart blocks level) (levelSize blocks level)
        (i * chkPerInode * chkPerInode ^ rounds) =
      some (levelStart blocks (level + rounds) + i * dblockSize) := by
  induction rounds generalizing level with
  | zero =>
    have hstart := levelStart_lt hblocks level (by omega)
    have hmul : i * chkPerInode * sizeofContentHashKey = i * dblockSize := by
      rw [mul_assoc]
      rfl
    have hdblock : dblockSize = chkPerInode * 128 := rfl
    rw [diskOffsetLoop, pow_zero, mul_one, hmul, Nat.mod_eq_of_lt]
    · rfl
    · rw [hdblock, ← mul_assoc]
      omega
  | succ rounds ih =>
    have hstart := levelStart_lt hblocks (level + 1) (by omega)
    have hsize := levelSize_pos hpos (level + 1)
    have hpow : i * chkPerInode * chkPerInode ^ (rounds + 1) =
        chkPerInode * (i * chkPerInode * chkPerInode ^ rounds) := by
      ring
    have hlsize : (levelSize blocks level + chkPerInode - 1) / chkPerInode =
        levelSize blocks (level + 1) := rfl
    have hloff : (levelStart blocks level + levelSize blocks level) % 2 ^ 64 =
        levelStart blocks (level + 1) := by
      apply Nat.mod_eq_of_lt
      unfold levelStart at hstart
      omega
    unfold diskOffsetLoop
    simp only [hlsize, hloff, hpow, Nat.mul_mod_right]
    rw [if_neg (by omega), Nat.mul_div_cancel_left _ (by decide), ih (level + 1) (by omega)]
    congr 3
    omega

/-! ## The place of a block -/

section

variable {fsize depth i : Nat}

section

variable (hfsize : fsize ≤ 2 ^ 46)
include hfsize

theorem depth_le_of_mem (hnode : (depth, i) ∈ chkShape.nodes fsize (computeDepth fsize)) :
    depth ≤ 4 := by
  obtain ⟨_, -, -, _⟩ := computeDepth_spec (show fsize ≤ 2 ^ 63 by omega)
  have hdepth := (chkShape.mem_nodes.mp hnode).1
  by_contra hgt
  have hmono : chkShape.span 4 ≤ chkShape.span (computeDepth fsize - 2) := by
    rw [span_eq, span_eq]
    apply Nat.pow_le_pow_right
    · decide
    · omega
  rw [span_eq 4] at hmono
  omega

theorem diskRange_dblock (hnode : i < chkShape.count fsize 0) : diskRange fsize 0 i =
      some (i * dblockSize, i * dblockSize + min dblockSize (fsize - i * dblockSize)) := by
  have hlen := treeCalculateBlockSize_dblock (by omega) hnode
  rw [diskRange, treeComputeTreeSize, hlen]
  rfl

theorem diskRange_iblock (hdepth : depth + 1 ≤ 4) (hnode : i < chkShape.count fsize (depth + 1)) :
    diskRange fsize (depth + 1) i =
      some (levelStart (chkShape.count fsize 0) depth + i * dblockSize,
        levelStart (chkShape.count fsize 0) depth + i * dblockSize +
          (chkShape.children fsize depth i).length * sizeofContentHashKey) := by
  have hlen := treeCalculateBlockSize_iblock (by omega) (by omega) hnode
  have hlt := chkShape.lt_count_iff.mp hnode
  have hblocks : chkShape.count fsize 0 ≤ 2 ^ 31 := by
    rw [count_le_iff, span_eq]
    omega
  have hpos : 0 < chkShape.count fsize 0 := chkShape.count_pos (by omega) 0
  have hcount : (fsize + dblockSize - 1) % 2 ^ 64 / dblockSize = chkShape.count fsize 0 := by
    rw [Shape.count, Shape.span_zero, Nat.mod_eq_of_lt]
    · rfl
    · have hdblock : dblockSize = 32768 := rfl
      omega
  have hoff : i * chkShape.span (depth + 1) =
      dblockSize * (i * chkPerInode * chkPerInode ^ depth) := by
    change i * (dblockSize * chkPerInode ^ (depth + 1)) = _
    ring
  have hindex : i * chkPerInode * chkPerInode ^ depth < 2 ^ 31 := by
    have hdblock : dblockSize = 32768 := rfl
    rw [hoff, hdblock] at hlt
    omega
  have hi : i * chkPerInode ≤ 2 ^ 31 := by
    have hone : 1 ≤ chkPerInode ^ depth := one_le_pow _ _ (by decide)
    calc
      i * chkPerInode = i * chkPerInode * 1 := (mul_one _).symm
      _ ≤ i * chkPerInode * chkPerInode ^ depth := mul_le_mul_left _ hone
      _ ≤ 2 ^ 31 := hindex.le
  have hstart : computeDiskOffset fsize (i * chkShape.span (depth + 1)) (depth + 1) =
      some (levelStart (chkShape.count fsize 0) depth + i * dblockSize) := by
    have hloop := diskOffsetLoop_eq hpos hblocks depth 0 (by omega) hi
    have hfirst := levelStart_lt hblocks 0 (by omega)
    have hkeys : chkShape.count fsize 0 * sizeofContentHashKey < 2 ^ 64 := by
      have hkey : sizeofContentHashKey = 128 := rfl
      rw [hkey]
      omega
    rw [zero_add] at hloop
    unfold computeDiskOffset
    simp only [hcount]
    rw [hoff, Nat.mul_mod_right, if_neg (by simp), Nat.mul_div_cancel_left _ (by decide),
      Nat.mod_eq_of_lt (by omega : i * chkPerInode * chkPerInode ^ depth < 2 ^ 32),
      Nat.mod_eq_of_lt hkeys, Nat.add_sub_cancel,
      Nat.mod_eq_of_lt (by unfold levelStart at hfirst; omega)]
    exact hloop
  rw [diskRange, treeComputeTreeSize_eq (by omega), hstart, hlen]
  rfl

end

theorem count_succ_eq (fsize depth : Nat) :
    chkShape.count fsize (depth + 1) = (chkShape.count fsize depth + 256 - 1) / 256 :=
  chkShape.count_succ fsize depth

theorem count_levels (fsize : Nat) :
    chkShape.count fsize 1 = (chkShape.count fsize 0 + 256 - 1) / 256 ∧
      chkShape.count fsize 2 = (chkShape.count fsize 1 + 256 - 1) / 256 ∧
      chkShape.count fsize 3 = (chkShape.count fsize 2 + 256 - 1) / 256 :=
  ⟨count_succ_eq fsize 0, count_succ_eq fsize 1, count_succ_eq fsize 2⟩

/-- A block of some depth begins in the space for its level, and goes no further
than the keys of the level below. -/
theorem diskRange_iblock_bounds (hfsize : fsize ≤ 2 ^ 46) (hdepth : depth + 1 ≤ 4)
    (hnode : i < chkShape.count fsize (depth + 1)) :
    ∃ range, diskRange fsize (depth + 1) i = some range ∧
      range.1 = levelStart (chkShape.count fsize 0) depth + i * 32768 ∧
      range.1 < range.2 ∧ range.2 ≤ range.1 + 32768 ∧
      range.2 ≤ levelStart (chkShape.count fsize 0) depth + chkShape.count fsize depth * 128 ∧
      (i + 1 = chkShape.count fsize (depth + 1) →
        range.2 = levelStart (chkShape.count fsize 0) depth +
          chkShape.count fsize depth * 128) := by
  have hsucc := count_succ_eq fsize depth
  have hlength : (chkShape.children fsize depth i).length =
      min 256 (chkShape.count fsize depth - 256 * i) := by
    rw [children, List.length_range']
    rfl
  have hdblock : dblockSize = 32768 := rfl
  have hkey : sizeofContentHashKey = 128 := rfl
  refine ⟨_, diskRange_iblock hfsize hdepth hnode, ?_⟩
  rw [hdblock, hkey]
  simp only
  refine ⟨trivial, ?_, ?_, ?_, ?_⟩
  · omega
  · omega
  · omega
  · intro hlast
    omega

end

/-! ## When the levels do not overlap -/

/-- The number of DBLOCKs is such that the space for each level, where another
level follows, holds its keys. -/
def LevelsFit (blocks : Nat) : Prop :=
  blocks ≤ 2 ^ 16 ∨ (blocks % 256 = 0 ∨ blocks % 256 = 255) ∧
      (blocks ≤ 2 ^ 24 ∨ blocks % 2 ^ 16 = 0 ∨ 65025 ≤ blocks % 2 ^ 16)

theorem levelSize_one_ge_iff : (blocks + 255) / 256 * 128 ≤ levelSize blocks 1 ↔
      blocks % 256 = 0 ∨ blocks % 256 = 255 := by
  have hsize : levelSize blocks 1 = (blocks * 128 + 256 - 1) / 256 := rfl
  omega

theorem levelSize_two_ge_iff : ((blocks + 255) / 256 + 255) / 256 * 128 ≤ levelSize blocks 2 ↔
      blocks % 2 ^ 16 = 0 ∨ 65025 ≤ blocks % 2 ^ 16 := by
  have hround : levelSize blocks 2 = ((blocks * 128 + 256 - 1) / 256 + 256 - 1) / 256 := rfl
  have hsize : levelSize blocks 2 = (blocks + 511) / 512 := by
    omega
  omega

theorem levelsFit_iff (blocks : Nat) : LevelsFit blocks ↔
      (2 ^ 16 < blocks → (blocks + 255) / 256 * 128 ≤ levelSize blocks 1) ∧ (2 ^ 24 < blocks →
          ((blocks + 255) / 256 + 255) / 256 * 128 ≤ levelSize blocks 2) := by
  rw [levelSize_one_ge_iff, levelSize_two_ge_iff, LevelsFit]
  constructor
  · rintro (hsmall | ⟨hone, htwo⟩)
    · exact ⟨fun _ => by omega, fun _ => by omega⟩
    · refine ⟨fun _ => hone, fun hlarge => ?_⟩
      rcases htwo with hle | htwo
      · omega
      · exact htwo
  · rintro ⟨hone, htwo⟩
    by_cases hsmall : blocks ≤ 2 ^ 16
    · exact .inl hsmall
    · refine .inr ⟨hone (by omega), ?_⟩
      by_cases hmiddle : blocks ≤ 2 ^ 24
      · exact .inl hmiddle
      · exact .inr (htwo (by omega))

section

variable {fsize depth i depth' i' : Nat}

theorem mem_nodes_succ_iff (hfsize : fsize ≤ 2 ^ 46) (depth : Nat) :
    (depth + 1, 0) ∈ chkShape.nodes fsize (computeDepth fsize) ↔
      1 < chkShape.count fsize depth := by
  obtain ⟨_, -, _, _⟩ := computeDepth_spec (show fsize ≤ 2 ^ 63 by omega)
  have hmono {d e : Nat} (hle : d ≤ e) : chkShape.span d ≤ chkShape.span e := by
    rw [span_eq, span_eq]
    apply Nat.pow_le_pow_right
    · decide
    · omega
  rw [mem_nodes, lt_count_iff, lt_count_iff, zero_mul, one_mul]
  constructor
  · rintro ⟨_, -⟩
    have hspan := hmono (show depth ≤ computeDepth fsize - 2 by omega)
    omega
  · intro hlt
    constructor
    · by_contra hle
      have hspan := hmono (show computeDepth fsize - 1 ≤ depth by omega)
      omega
    · omega

theorem levelStart_mono (blocks level more : Nat) :
    levelStart blocks level ≤ levelStart blocks (level + more) := by
  induction more with
  | zero => exact le_rfl
  | succ more ih =>
    change _ ≤ levelStart blocks (level + more) + levelSize blocks (level + more)
    omega

theorem blocks_of_mem (hfsize : fsize ≤ 2 ^ 46) :
    ((3, 0) ∈ chkShape.nodes fsize (computeDepth fsize) ↔ 2 ^ 16 < chkShape.count fsize 0) ∧
      ((4, 0) ∈ chkShape.nodes fsize (computeDepth fsize) ↔ 2 ^ 24 < chkShape.count fsize 0) := by
  obtain ⟨_, _, _⟩ := count_levels fsize
  rw [mem_nodes_succ_iff hfsize 2, mem_nodes_succ_iff hfsize 3]
  omega

theorem keys_le_levelSize (hfsize : fsize ≤ 2 ^ 46) (hfit : LevelsFit (chkShape.count fsize 0))
    (hnode : (depth + 2, 0) ∈ chkShape.nodes fsize (computeDepth fsize)) :
    chkShape.count fsize depth * 128 ≤ levelSize (chkShape.count fsize 0) depth := by
  obtain ⟨hfirst, hsecond⟩ := (levelsFit_iff _).mp hfit
  obtain ⟨hthree, hfour⟩ := blocks_of_mem hfsize
  obtain ⟨hone, htwo, -⟩ := count_levels fsize
  have hle := depth_le_of_mem hfsize hnode
  have hcases : depth = 0 ∨ depth = 1 ∨ depth = 2 := by omega
  rcases hcases with rfl | rfl | rfl
  · exact le_rfl
  · have hfits := hfirst (hthree.mp hnode)
    rw [hone]
    exact hfits
  · have hfits := hsecond (hfour.mp hnode)
    rw [htwo, hone]
    exact hfits

theorem levelStart_ge (fsize level : Nat) : fsize ≤ levelStart (chkShape.count fsize 0) level := by
  have hmono := levelStart_mono (chkShape.count fsize 0) 0 level
  have hblocks : fsize ≤ levelStart (chkShape.count fsize 0) 0 := by
    have hle := chkShape.count_le_iff.mp (le_refl (chkShape.count fsize 0))
    rwa [Shape.span_zero] at hle
  rw [zero_add] at hmono
  exact hblocks.trans hmono

end

/-! ## The condition is exact -/

section

variable {fsize : Nat}

theorem StoredApart.ofLevelsFit (hfsize : fsize ≤ 2 ^ 46)
    (hfit : LevelsFit (chkShape.count fsize 0)) : StoredApart fsize := by
  have hrange {depth i : Nat} {range : Nat × Nat}
      (hnode : (depth + 1, i) ∈ chkShape.nodes fsize (computeDepth fsize))
      (hrange : diskRange fsize (depth + 1) i = some range) :
      range.1 = levelStart (chkShape.count fsize 0) depth + i * 32768 ∧ range.2 ≤ range.1 + 32768 ∧
        range.2 ≤ levelStart (chkShape.count fsize 0) depth + chkShape.count fsize depth * 128 := by
    obtain ⟨range', hrange', hstart, -, hlen, hend, -⟩ := diskRange_iblock_bounds hfsize
      (depth_le_of_mem hfsize hnode) (chkShape.mem_nodes.mp hnode).2
    rw [hrange'] at hrange
    cases hrange
    exact ⟨hstart, hlen, hend⟩
  have hdata {i : Nat} {range : Nat × Nat}
      (hnode : (0, i) ∈ chkShape.nodes fsize (computeDepth fsize))
      (hrange : diskRange fsize 0 i = some range) :
      range.1 = i * 32768 ∧ range.2 ≤ range.1 + 32768 ∧ range.2 ≤ fsize := by
    have hcount := (chkShape.mem_nodes.mp hnode).2
    have hlt : i * 32768 < fsize := by
      have hlt := chkShape.lt_count_iff.mp hcount
      rwa [Shape.span_zero] at hlt
    rw [diskRange_dblock hfsize hcount] at hrange
    cases hrange
    change i * 32768 = i * 32768 ∧ i * 32768 + min 32768 (fsize - i * 32768) ≤ i * 32768 + 32768 ∧
        i * 32768 + min 32768 (fsize - i * 32768) ≤ fsize
    omega
  -- a level ends before the next one begins
  have hlevels {depth i depth' i' : Nat} {range range' : Nat × Nat}
      (hnode : (depth, i) ∈ chkShape.nodes fsize (computeDepth fsize))
      (hnode' : (depth', i') ∈ chkShape.nodes fsize (computeDepth fsize))
      (hlt : depth < depth')
      (h : diskRange fsize depth i = some range)
      (h' : diskRange fsize depth' i' = some range') : range.2 ≤ range'.1 := by
    obtain ⟨above, rfl⟩ := Nat.exists_eq_add_of_lt hlt
    have hstart' := (hrange hnode' h').1
    cases depth with
    | zero =>
      have hend := (hdata hnode h).2.2
      have hbehind := levelStart_ge fsize (0 + above)
      omega
    | succ depth =>
      have hend := (hrange hnode h).2.2
      have hnext : (depth + 2, 0) ∈ chkShape.nodes fsize (computeDepth fsize) := by
        have hmem' := chkShape.mem_nodes.mp hnode'
        rw [mem_nodes]
        refine ⟨by omega, chkShape.count_pos ?_ _⟩
        have := chkShape.lt_count_iff.mp hmem'.2
        omega
      have hfits := keys_le_levelSize hfsize hfit hnext
      have hmono := levelStart_mono (chkShape.count fsize 0) (depth + 1) above
      have hsucc : levelStart (chkShape.count fsize 0) (depth + 1) =
          levelStart (chkShape.count fsize 0) depth +
            levelSize (chkShape.count fsize 0) depth := rfl
      omega
  constructor
  · intro depth i hnode
    have hmem := chkShape.mem_nodes.mp hnode
    cases depth with
    | zero =>
      rw [diskRange_dblock hfsize hmem.2]
      rfl
    | succ depth =>
      rw [diskRange_iblock hfsize (depth_le_of_mem hfsize hnode) hmem.2]
      rfl
  · intro depth i depth' i' range range' hnode hnode' hne h h'
    rcases lt_trichotomy depth depth' with hlt | rfl | hlt
    · exact .inl (hlevels hnode hnode' hlt h h')
    · have hi : i ≠ i' := fun hi => hne (by rw [hi])
      cases depth with
      | zero =>
        have hstart := hdata hnode h
        have hstart' := hdata hnode' h'
        omega
      | succ depth =>
        have hstart := hrange hnode h
        have hstart' := hrange hnode' h'
        omega
    · exact .inr (hlevels hnode' hnode hlt h' h)
  · intro depth i range hnode hpos h
    obtain ⟨level, rfl⟩ := exists_eq_succ_of_ne_zero hpos.ne'
    have hstart := (hrange hnode h).1
    have hbehind := levelStart_ge fsize level
    omega

theorem StoredApart.last_le (hfsize : fsize ≤ 2 ^ 46) (h : StoredApart fsize)
    (hnext : (depth + 2, 0) ∈ chkShape.nodes fsize (computeDepth fsize))
    (hroom : (chkShape.count fsize (depth + 1) - 1) * 32768 ≤
      levelSize (chkShape.count fsize 0) depth) :
    chkShape.count fsize depth * 128 ≤ levelSize (chkShape.count fsize 0) depth := by
  have hmem := chkShape.mem_nodes.mp hnext
  have hdepth := depth_le_of_mem hfsize hnext
  have hpos : 0 < fsize := by
    have := chkShape.lt_count_iff.mp hmem.2
    omega
  have hcount := chkShape.count_pos hpos (depth + 1)
  have hnode : (depth + 1, chkShape.count fsize (depth + 1) - 1) ∈
      chkShape.nodes fsize (computeDepth fsize) := by
    rw [mem_nodes]
    exact ⟨by omega, by omega⟩
  obtain ⟨_, hrange, _, -, -, -, _⟩ := diskRange_iblock_bounds hfsize (show depth + 1 ≤ 4 by omega)
    (show chkShape.count fsize (depth + 1) - 1 < chkShape.count fsize (depth + 1) by omega)
  obtain ⟨_, hrange', _, _, -⟩ := diskRange_iblock_bounds hfsize hdepth hmem.2
  have hapart := h.apart _ _ _ _ _ _ hnode hnext (by simp) hrange hrange'
  have hsucc : levelStart (chkShape.count fsize 0) (depth + 1) =
      levelStart (chkShape.count fsize 0) depth + levelSize (chkShape.count fsize 0) depth := rfl
  rcases hapart with hle | hle
  · omega
  · omega

theorem StoredApart.levelsFit (hfsize : fsize ≤ 2 ^ 46) (h : StoredApart fsize) :
    LevelsFit (chkShape.count fsize 0) := by
  obtain ⟨hthree, hfour⟩ := blocks_of_mem hfsize
  obtain ⟨hone, htwo, _⟩ := count_levels fsize
  have hfirstSize : levelSize (chkShape.count fsize 0) 1 =
      (chkShape.count fsize 0 * 128 + 256 - 1) / 256 := rfl
  have hsecondSize : levelSize (chkShape.count fsize 0) 2 =
      (levelSize (chkShape.count fsize 0) 1 + 256 - 1) / 256 := rfl
  rw [levelsFit_iff]
  constructor
  · intro hlarge
    have hroom : (chkShape.count fsize 2 - 1) * 32768 ≤
        levelSize (chkShape.count fsize 0) 1 := by omega
    have hlast := h.last_le hfsize (hthree.mpr hlarge) hroom
    rw [hone] at hlast
    exact hlast
  · intro hlarge
    have hroom : (chkShape.count fsize 3 - 1) * 32768 ≤
        levelSize (chkShape.count fsize 0) 2 := by omega
    have hlast := h.last_le hfsize (hfour.mpr hlarge) hroom
    rw [htwo, hone] at hlast
    exact hlast

/-- The blocks of a file of at most 2^46 bytes are stored apart exactly if every
level has the space that it needs. -/
theorem storedApart_iff_levelsFit (fsize : Nat) (hfsize : fsize ≤ 2 ^ 46) :
    StoredApart fsize ↔ LevelsFit (chkShape.count fsize 0) := by
  constructor
  · exact StoredApart.levelsFit hfsize
  · exact StoredApart.ofLevelsFit hfsize

theorem storedApart_iff_levelsFit_twoGiB :
    StoredApart (2 ^ 31) ↔ LevelsFit (chkShape.count (2 ^ 31) 0) :=
  storedApart_iff_levelsFit (2 ^ 31) (by decide)

/-- With one byte more than 2 GiB, the root overwrites keys of the level below it. -/
theorem root_overlaps_iblock :
    diskRange (2 ^ 31 + 1) 2 1 = some (2155937920, 2155938048) ∧
      diskRange (2 ^ 31 + 1) 3 0 = some (2155937921, 2155938177) ∧
      ¬ StoredApart (2 ^ 31 + 1) := by
  refine ⟨by decide, by decide, ?_⟩
  intro h
  have hapart := h.apart 2 1 3 0 (2155937920, 2155938048) (2155937921, 2155938177)
    (by rw [mem_nodes]; decide) (by rw [mem_nodes]; decide) (by decide)
    (by decide) (by decide)
  revert hapart
  decide

end

end Gnunet.Fs
