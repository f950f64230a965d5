import Gnunet.FsTree

/-!
# The tree encoder

`GNUNET_FS_tree_encoder_next` of `fs_tree.c` encrypts one block of the CHK tree
with each call.  It keeps the keys of the last blocks of every level in one array
and goes up a level when the group of a block is complete.  Above the first level
of IBLOCKs it only does so at the end of the file.
-/

namespace Gnunet.Fs

open BlockTree List Function Nat Shape

/-- The two values of `enum GNUNET_BLOCK_Type` used here. -/
inductive BlockType where
  | fsDblock
  | fsIblock
  deriving DecidableEq, Repr

/-- A URI of type `GNUNET_FS_URI_CHK`. -/
structure ChkUri where
  chk : ContentHashKey
  fileLength : Nat

/-- The arguments of `proc`, and of `progress` where they differ. -/
structure TreeBlock where
  chk : ContentHashKey
  offset : Nat
  depth : Nat
  type : BlockType
  enc : List UInt8
  size : Nat
  plain : List UInt8

structure TreeEncoder where
  size : Nat
  publishOffset : Nat
  currentDepth : Nat
  chkTreeDepth : Nat
  chkTree : Nat → ContentHashKey
  uri : Option ChkUri

/-- What a call leaves behind: a block was passed to `proc`, `cont` was called, or
an assertion failed. -/
inductive EncoderStep where
  | block (block : TreeBlock) (te : TreeEncoder)
  | cont (te : TreeEncoder)
  | abort

def treeEncoderCreate (size : Nat) : TreeEncoder where
  size := size
  publishOffset := 0
  currentDepth := 0
  chkTreeDepth := computeDepth size
  chkTree := fun _ => .zero
  uri := none

section

variable (hash : List UInt8 → HashCode) (encrypt : HashCode → List UInt8 → List UInt8)
  (reader : Nat → Nat → List UInt8)

def chkOf (plain : List UInt8) : ContentHashKey where
  key := hash plain
  query := hash (encrypt (hash plain) plain)

def plainBlock (te : TreeEncoder) : Option (Nat × List UInt8) :=
  if te.currentDepth = 0 then
    let ptSize := min dblockSize (te.size - te.publishOffset)
    some (ptSize, reader te.publishOffset ptSize)
  else
    (treeComputeIblockSize te.currentDepth te.publishOffset).map fun ptSize =>
      (ptSize, ((range' ((te.currentDepth - 1) * chkPerInode) chkPerInode).flatMap
        fun idx => (te.chkTree idx).bytes).take ptSize)

def treeEncoderNext (te : TreeEncoder) : EncoderStep :=
  if te.chkTreeDepth = te.currentDepth then
    .cont { te with uri := some ⟨te.chkTree (chkPerInode * (te.chkTreeDepth - 1)), te.size⟩ }
  else
    match plainBlock reader te with
    | none => .abort
    | some (ptSize, plain) =>
        if te.currentDepth = 0 ∧ ptSize ≠ plain.length then .cont te
        else
          let off := computeChkOffset te.currentDepth te.publishOffset
          let mychk := chkOf hash encrypt plain
          let publishOffset :=
            if te.currentDepth = 0 then te.publishOffset + ptSize else te.publishOffset
          let currentDepth :=
            if te.currentDepth = 0 then
              if publishOffset = te.size ∨ publishOffset % (chkPerInode * dblockSize) = 0 then 1
              else 0
            else if off = chkPerInode ∨ te.publishOffset = te.size then te.currentDepth + 1
            else 0
          .block
            { chk := mychk
              offset := te.publishOffset
              depth := te.currentDepth
              type := if te.currentDepth = 0 then .fsDblock else .fsIblock
              enc := encrypt mychk.key plain
              size := ptSize
              plain := plain }
            { te with
              publishOffset := publishOffset
              currentDepth := currentDepth
              chkTree := update te.chkTree (te.currentDepth * chkPerInode + off) mychk }

def drive : Nat → TreeEncoder → Option (List TreeBlock × TreeEncoder)
  | 0, _ => none
  | fuel + 1, te =>
      match treeEncoderNext hash encrypt reader te with
      | .abort => none
      | .cont te => some ([], te)
      | .block block te => (drive fuel te).map fun (blocks, te) => (block :: blocks, te)

inductive Emits : TreeEncoder → List TreeBlock → TreeEncoder → Prop where
  | nil {te : TreeEncoder} : Emits te [] te
  | cons {te te' te'' : TreeEncoder} {block : TreeBlock} {blocks : List TreeBlock}
      (hstep : treeEncoderNext hash encrypt reader te = .block block te')
      (hrest : Emits te' blocks te'') : Emits te (block :: blocks) te''

variable (file : List UInt8)

def fileReader (offset max : Nat) : List UInt8 :=
  (file.drop offset).take max

def plainOf : Nat → Nat → List UInt8
  | 0, i => (file.drop (i * dblockSize)).take dblockSize
  | depth + 1, i => (chkShape.children file.length depth i).flatMap fun j =>
      (chkOf hash encrypt (plainOf depth j)).bytes

def chkAt (depth i : Nat) : ContentHashKey :=
  chkOf hash encrypt (plainOf hash encrypt file depth i)

/-- The call for a node.  The offset is the first byte of a DBLOCK and the end of
the bytes below an IBLOCK. -/
def blockAt : Nat × Nat → TreeBlock
  | (depth, i) =>
    { chk := chkAt hash encrypt file depth i
      offset := if depth = 0 then i * dblockSize
        else min file.length ((i + 1) * chkShape.span depth)
      depth := depth
      type := if depth = 0 then .fsDblock else .fsIblock
      enc := encrypt (chkAt hash encrypt file depth i).key (plainOf hash encrypt file depth i)
      size := (treeCalculateBlockSize file.length (i * chkShape.span depth) depth).getD 0
      plain := plainOf hash encrypt file depth i }

/-- The encoder passes every node of the tree to `proc` exactly once, with the size
that belongs to it, and the URI has the key of the root. -/
def EncodesTree : Prop :=
  ∃ fuel blocks te, drive hash encrypt (fileReader file) fuel (treeEncoderCreate file.length) =
      some (blocks, te) ∧
    blocks.Perm ((chkShape.nodes file.length (computeDepth file.length)).map
      (blockAt hash encrypt file)) ∧
    (∀ depth i, (depth, i) ∈ chkShape.nodes file.length (computeDepth file.length) →
      treeCalculateBlockSize file.length (i * chkShape.span depth) depth =
        some (plainOf hash encrypt file depth i).length) ∧
    te.uri = some ⟨chkAt hash encrypt file (computeDepth file.length - 1) 0, file.length⟩

end

section

variable {hash : List UInt8 → HashCode} {encrypt : HashCode → List UInt8 → List UInt8}
  {reader : Nat → Nat → List UInt8} {te te' te'' : TreeEncoder} {blocks more : List TreeBlock}

theorem Emits.single (hstep : treeEncoderNext hash encrypt reader te = .block block te') :
    Emits hash encrypt reader te [block] te' :=
  .cons hstep .nil

theorem Emits.append (hfirst : Emits hash encrypt reader te blocks te')
    (hthen : Emits hash encrypt reader te' more te'') :
    Emits hash encrypt reader te (blocks ++ more) te'' := by
  induction hfirst with
  | nil => exact hthen
  | cons hstep _ ih => exact .cons hstep (ih hthen)

theorem drive_of_emits (hemits : Emits hash encrypt reader te blocks te')
    (hcont : treeEncoderNext hash encrypt reader te' = .cont te'') :
    drive hash encrypt reader (blocks.length + 1) te = some (blocks, te'') := by
  induction hemits with
  | nil => simp [drive, hcont]
  | cons hstep _ ih => simp [drive, hstep, ih hcont]

theorem emits_of_drive (hdrive : drive hash encrypt reader fuel te = some (blocks, te'')) :
    ∃ te', Emits hash encrypt reader te blocks te' ∧
      treeEncoderNext hash encrypt reader te' = .cont te'' := by
  induction fuel generalizing te blocks with
  | zero => cases hdrive
  | succ fuel ih =>
    rw [drive] at hdrive
    cases hstep : treeEncoderNext hash encrypt reader te with
    | abort => simp [hstep] at hdrive
    | cont te' =>
      simp only [hstep, Option.some.injEq, Prod.mk.injEq] at hdrive
      obtain ⟨rfl, rfl⟩ := hdrive
      exact ⟨te, .nil, hstep⟩
    | block block te' =>
      simp only [hstep, Option.map_eq_some_iff, Prod.mk.injEq, Prod.exists] at hdrive
      obtain ⟨_, _, hrest, rfl, rfl⟩ := hdrive
      obtain ⟨final, hemits, hcont⟩ := ih hrest
      exact ⟨final, .cons hstep hemits, hcont⟩

/-! ## One block -/

variable {file : List UInt8} {depth i : Nat}

theorem length_plainOf_dblock (i : Nat) :
    (plainOf hash encrypt file 0 i).length = min dblockSize (file.length - i * dblockSize) := by
  rw [plainOf, length_take, length_drop]

theorem length_plainOf_iblock : (plainOf hash encrypt file (depth + 1) i).length =
      (chkShape.children file.length depth i).length * sizeofContentHashKey := by
  rw [plainOf, length_flatMap]
  simp [ContentHashKey.length_bytes]

theorem treeCalculateBlockSize_plainOf (hfile : file.length ≤ 2 ^ 63) (hdepth : depth ≤ 6)
    (hnode : i < chkShape.count file.length depth) :
    treeCalculateBlockSize file.length (i * chkShape.span depth) depth =
      some (plainOf hash encrypt file depth i).length := by
  cases depth with
  | zero =>
    rw [length_plainOf_dblock, span_zero]
    exact treeCalculateBlockSize_dblock hfile hnode
  | succ depth =>
    rw [length_plainOf_iblock]
    exact treeCalculateBlockSize_iblock hfile hdepth hnode

theorem computeChkOffset_dblock : computeChkOffset 0 (i * dblockSize) = i % chkPerInode := by
  have hdvd : chkPerInode ∣ 2 ^ 32 := by decide
  change i * dblockSize / dblockSize % 2 ^ 32 % chkPerInode = _
  rw [Nat.mul_div_cancel _ (by decide), Nat.mod_mod_of_dvd _ hdvd]

theorem computeChkOffset_iblock (hdepth : depth + 1 ≤ 6)
    (hlower : i * chkShape.span (depth + 1) < endOffset)
    (hupper : endOffset ≤ (i + 1) * chkShape.span (depth + 1)) :
    computeChkOffset (depth + 1) endOffset = i % chkPerInode := by
  have hdvd : chkPerInode ∣ 2 ^ 32 := by decide
  have hdiv : (endOffset - 1) / chkShape.span (depth + 1) = i := by
    apply Nat.div_eq_of_lt_le
    · omega
    · omega
  unfold computeChkOffset
  rw [if_pos (succ_pos depth), treeComputeTreeSize_eq hdepth]
  simp only [hdiv]
  rw [Nat.mod_mod_of_dvd _ hdvd]

theorem rounded_up_eq (hr : 0 < r) :
    (if x % r ≠ 0 then x / r + 1 else x / r) = (x + r - 1) / r := by
  have hdiv : r * (x / r) + x % r = x := div_add_mod x r
  have hmod : x % r < r := Nat.mod_lt x hr
  have hmul : (x / r + 1 + 1) * r = r * (x / r) + r + r := by ring
  have hmul' : (x / r + 1) * r = r * (x / r) + r := by ring
  have hmul'' : x / r * r = r * (x / r) := Nat.mul_comm _ _
  symm
  split_ifs with hne
  · apply Nat.div_eq_of_lt_le <;> omega
  · apply Nat.div_eq_of_lt_le <;> omega

theorem treeComputeIblockSize_eq {size : Nat} (hsize : size ≤ 2 ^ 63) (hdepth : depth + 1 ≤ 6)
    (hnode : i < chkShape.count size (depth + 1)) :
    treeComputeIblockSize (depth + 1) (min size ((i + 1) * chkShape.span (depth + 1))) =
      some ((chkShape.children size depth i).length * sizeofContentHashKey) := by
  have hlt := chkShape.lt_count_iff.mp hnode
  have hspan := chkShape.span_pos (depth + 1)
  have hlength := chkShape.ceil_eq_length_children hnode
  have hcut : (i + 1) * chkShape.span (depth + 1) =
      i * chkShape.span (depth + 1) + chkShape.span (depth + 1) := succ_mul _ _
  have hle : (chkShape.children size depth i).length ≤ 256 := by
    rw [children, length_range']
    exact min_le_left _ _
  have hkey : sizeofContentHashKey = 128 := rfl
  have hinode : chkPerInode = 256 := rfl
  unfold treeComputeIblockSize
  rw [if_neg (by omega), treeComputeTreeSize_eq hdepth]
  simp only
  rcases lt_or_ge size ((i + 1) * chkShape.span (depth + 1)) with hless | hfull
  · -- the last node of its level
    rw [min_eq_left hless.le] at hlength ⊢
    have hmod : size % chkShape.span (depth + 1) = size - i * chkShape.span (depth + 1) := by
      rw [Nat.mod_eq_sub_mul_div, Nat.div_eq_of_lt_le (Nat.le_of_lt hlt) hless, Nat.mul_comm]
    have hdiv : chkShape.span (depth + 1) / chkPerInode = chkShape.span depth := by
      rw [span_succ', Nat.mul_div_cancel _ (by decide)]
    rw [hmod, hdiv, if_neg (by omega), rounded_up_eq (chkShape.span_pos depth), hlength, hkey,
      mod_eq_of_lt (by omega)]
  · rw [Nat.min_eq_right hfull] at hlength ⊢
    have hge : 256 ≤ (chkShape.children size depth i).length := by
      have hsucc : chkShape.span (depth + 1) = chkShape.span depth * 256 := span_succ' depth
      have hpos := chkShape.span_pos depth
      rw [← hlength, le_div_iff_mul_le hpos, hcut]
      omega
    rw [mul_mod_left, if_pos rfl, mod_eq_of_lt (by decide)]
    congr 2
    omega

def HoldsChildren (hash : List UInt8 → HashCode) (encrypt : HashCode → List UInt8 → List UInt8)
    (file : List UInt8) (chkTree : Nat → ContentHashKey) (depth i : Nat) : Prop :=
  ∀ j ∈ chkShape.children file.length depth i,
    chkTree (depth * chkPerInode + j % chkPerInode) = chkAt hash encrypt file depth j

theorem take_chkTree_eq_plainOf (hholds : HoldsChildren hash encrypt file chkTree depth i) :
    ((range' (depth * chkPerInode) chkPerInode).flatMap fun idx => (chkTree idx).bytes).take
      ((chkShape.children file.length depth i).length * sizeofContentHashKey) =
      plainOf hash encrypt file (depth + 1) i := by
  have hchildren : chkShape.children file.length depth i =
      range' (chkPerInode * i) (chkShape.children file.length depth i).length := by
    rw [children, length_range']
    rfl
  have hle : (chkShape.children file.length depth i).length ≤ chkPerInode := by
    rw [children, length_range']
    exact min_le_left _ _
  unfold HoldsChildren at hholds
  rw [plainOf]
  generalize (chkShape.children file.length depth i).length = n at hchildren hle ⊢
  rw [hchildren] at hholds ⊢
  have hsplit : range' (depth * chkPerInode) chkPerInode = range' (depth * chkPerInode) n ++
        range' (depth * chkPerInode + n) (chkPerInode - n) := by
    rw [range'_append_1]
    congr 1
    omega
  have hkeys : (range' (depth * chkPerInode) n).flatMap (fun idx => (chkTree idx).bytes) =
      (range' (chkPerInode * i) n).flatMap
        (fun j => (chkAt hash encrypt file depth j).bytes) := by
    rw [range'_eq_map_range, range'_eq_map_range, flatMap_map, flatMap_map]
    apply flatMap_congr
    intro k hk
    have hlt : k < n := mem_range.mp hk
    have hmod : (chkPerInode * i + k) % chkPerInode = k := by
      rw [mul_add_mod, mod_eq_of_lt (by omega)]
    have hkey := hholds (chkPerInode * i + k) (mem_range'_1.mpr ⟨by omega, by omega⟩)
    rw [hmod] at hkey
    rw [hkey]
  rw [hsplit, flatMap_append, hkeys, take_append_of_le_length, take_of_length_le]
  · rfl
  · simp [ContentHashKey.length_bytes]
  · simp [ContentHashKey.length_bytes]

theorem treeEncoderNext_of_plainBlock {plain : List UInt8}
    (hdepth : te.chkTreeDepth ≠ te.currentDepth)
    (hplain : plainBlock reader te = some (plain.length, plain)) :
    treeEncoderNext hash encrypt reader te = .block
        { chk := chkOf hash encrypt plain
          offset := te.publishOffset
          depth := te.currentDepth
          type := if te.currentDepth = 0 then .fsDblock else .fsIblock
          enc := encrypt (hash plain) plain
          size := plain.length
          plain := plain }
        { te with
          publishOffset :=
            if te.currentDepth = 0 then te.publishOffset + plain.length else te.publishOffset
          currentDepth :=
            if te.currentDepth = 0 then
              if te.publishOffset + plain.length = te.size ∨
                  (te.publishOffset + plain.length) % (chkPerInode * dblockSize) = 0 then 1
              else 0
            else if te.publishOffset = te.size then te.currentDepth + 1
            else 0
          chkTree := update te.chkTree
            (te.currentDepth * chkPerInode + computeChkOffset te.currentDepth te.publishOffset)
            (chkOf hash encrypt plain) } := by
  -- the position in the group is never the size of a group
  have hoff : computeChkOffset te.currentDepth te.publishOffset ≠ chkPerInode :=
    Nat.ne_of_lt (Nat.mod_lt _ (by decide))
  rw [treeEncoderNext, if_neg hdepth, hplain]
  simp only [ne_eq, not_true_eq_false, and_false, if_false, hoff, false_or]
  congr 2
  split_ifs <;> rfl

theorem treeEncoderNext_dblock (hfile : file.length ≤ 2 ^ 63) (hsize : te.size = file.length)
    (htree : te.chkTreeDepth = computeDepth file.length) (hdepth : te.currentDepth = 0)
    (hoffset : te.publishOffset = i * dblockSize) (hnode : i * dblockSize < file.length) :
    treeEncoderNext hash encrypt (fileReader file) te = .block (blockAt hash encrypt file (0, i))
        { te with
          publishOffset := min file.length ((i + 1) * dblockSize)
          currentDepth :=
            if file.length ≤ (i + 1) * dblockSize ∨ (i + 1) % chkPerInode = 0 then 1 else 0
          chkTree := update te.chkTree (i % chkPerInode) (chkAt hash encrypt file 0 i) } := by
  obtain ⟨_, _⟩ := computeDepth_spec hfile
  have hnode' : i < chkShape.count file.length 0 := by
    rw [lt_count_iff, span_zero]
    exact hnode
  have hcut : (i + 1) * dblockSize = i * dblockSize + dblockSize := succ_mul _ _
  have hlength : (plainOf hash encrypt file 0 i).length = _ := length_plainOf_dblock i
  have hread : plainBlock (fileReader file) te =
      some ((plainOf hash encrypt file 0 i).length, plainOf hash encrypt file 0 i) := by
    rw [plainBlock, if_pos hdepth, hsize, hoffset, hlength]
    simp only [fileReader, plainOf]
    rw [← length_drop, ← take_eq_take_min]
  have hpublish : i * dblockSize + (plainOf hash encrypt file 0 i).length =
      min file.length ((i + 1) * dblockSize) := by
    omega
  have hgroup : (min file.length ((i + 1) * dblockSize) = file.length ∨
      min file.length ((i + 1) * dblockSize) % (chkPerInode * dblockSize) = 0) ↔
      (file.length ≤ (i + 1) * dblockSize ∨ (i + 1) % chkPerInode = 0) := by
    rw [min_eq_left_iff]
    apply or_congr_right'
    intro hmore
    rw [Nat.min_eq_right (by omega), mul_mod_mul_right, mul_eq_zero]
    exact or_iff_left (by decide)
  rw [treeEncoderNext_of_plainBlock (by omega) hread, if_pos hdepth, if_pos hdepth, if_pos hdepth,
    hdepth, hoffset, hpublish, hsize, computeChkOffset_dblock, zero_mul, zero_add]
  simp only [hgroup]
  congr 1
  rw [blockAt, treeCalculateBlockSize_plainOf hfile (by omega) hnode']
  rfl

theorem treeEncoderNext_iblock (hfile : file.length ≤ 2 ^ 63) (hsize : te.size = file.length)
    (htree : te.chkTreeDepth = computeDepth file.length) (hdepth : te.currentDepth = depth + 1)
    (hlevel : depth + 1 < computeDepth file.length)
    (hnode : i < chkShape.count file.length (depth + 1))
    (hoffset : te.publishOffset = min file.length ((i + 1) * chkShape.span (depth + 1)))
    (hholds : HoldsChildren hash encrypt file te.chkTree depth i) :
    treeEncoderNext hash encrypt (fileReader file) te =
      .block (blockAt hash encrypt file (depth + 1, i)) { te with
          currentDepth :=
            if file.length ≤ (i + 1) * chkShape.span (depth + 1) then depth + 2 else 0
          chkTree := update te.chkTree ((depth + 1) * chkPerInode + i % chkPerInode)
            (chkAt hash encrypt file (depth + 1) i) } := by
  obtain ⟨_, _, _⟩ := computeDepth_spec hfile
  have hlt := chkShape.lt_count_iff.mp hnode
  have hspan := chkShape.span_pos (depth + 1)
  have hcut : (i + 1) * chkShape.span (depth + 1) =
      i * chkShape.span (depth + 1) + chkShape.span (depth + 1) := succ_mul _ _
  have hread : plainBlock (fileReader file) te =
      some ((plainOf hash encrypt file (depth + 1) i).length,
        plainOf hash encrypt file (depth + 1) i) := by
    rw [plainBlock, if_neg (by omega), hdepth, hoffset,
      treeComputeIblockSize_eq hfile (by omega) hnode, Option.map_some, Nat.add_sub_cancel,
      take_chkTree_eq_plainOf hholds, length_plainOf_iblock]
  rw [treeEncoderNext_of_plainBlock (by omega) hread, if_neg (by omega), if_neg (by omega),
    if_neg (by omega), hdepth, hoffset, hsize,
    computeChkOffset_iblock (by omega) (by omega) (min_le_right _ _)]
  simp only [min_eq_left_iff]
  congr 1
  rw [blockAt, treeCalculateBlockSize_plainOf hfile (by omega) hnode]
  rfl

/-! ## A group of DBLOCKs and the IBLOCK above it -/

section

variable {m n : Nat}

/-- The encoder at the beginning of a group, with the keys of the IBLOCKs above the
groups before it; or above the last group. -/
structure GroupStart (hash : List UInt8 → HashCode)
    (encrypt : HashCode → List UInt8 → List UInt8) (file : List UInt8) (m : Nat)
    (te : TreeEncoder) : Prop where
  size : te.size = file.length
  tree : te.chkTreeDepth = computeDepth file.length
  depth : te.currentDepth = if m < chkShape.count file.length 1 then 0 else 2
  offset : te.publishOffset = min file.length (m * chkShape.span 1)
  keys : ∀ j < m, te.chkTree (chkPerInode + j) = chkAt hash encrypt file 1 j

structure InGroup (hash : List UInt8 → HashCode)
    (encrypt : HashCode → List UInt8 → List UInt8) (file : List UInt8) (m n : Nat)
    (te : TreeEncoder) : Prop where
  size : te.size = file.length
  tree : te.chkTreeDepth = computeDepth file.length
  depth : te.currentDepth = if n < (chkShape.children file.length 0 m).length then 0 else 1
  offset : te.publishOffset = min file.length ((chkPerInode * m + n) * dblockSize)
  group : ∀ k < n, te.chkTree k = chkAt hash encrypt file 0 (chkPerInode * m + k)
  keys : ∀ j < m, te.chkTree (chkPerInode + j) = chkAt hash encrypt file 1 j

theorem length_children_dblocks (size m : Nat) : (chkShape.children size 0 m).length =
      min chkPerInode (chkShape.count size 0 - chkPerInode * m) := by
  rw [children, length_range']
  rfl

theorem children_dblocks (size m : Nat) : chkShape.children size 0 m =
      range' (chkPerInode * m) (chkShape.children size 0 m).length := by
  rw [length_children_dblocks]
  rfl

theorem GroupStart.inGroup (hstart : GroupStart hash encrypt file m te)
    (hm : m < chkShape.count file.length 1) : InGroup hash encrypt file m 0 te := by
  have hpos : 0 < (chkShape.children file.length 0 m).length := by
    have hlt : chkPerInode * m < chkShape.count file.length 0 := chkShape.lt_count_succ_iff.mp hm
    have hinode : 0 < chkPerInode := by decide
    rw [length_children_dblocks]
    omega
  constructor
  · exact hstart.size
  · exact hstart.tree
  · rw [hstart.depth, if_pos hm, if_pos hpos]
  · rw [hstart.offset, add_zero, span_succ', span_zero, Nat.mul_comm chkPerInode,
      mul_assoc, Nat.mul_comm chkPerInode]
    rfl
  · intro k hk
    omega
  · exact hstart.keys

variable (hfile : file.length ≤ 2 ^ 63)
include hfile

theorem InGroup.step (hgroup : InGroup hash encrypt file m n te)
    (hn : n < (chkShape.children file.length 0 m).length) :
    ∃ te', treeEncoderNext hash encrypt (fileReader file) te =
        .block (blockAt hash encrypt file (0, chkPerInode * m + n)) te' ∧
      InGroup hash encrypt file m (n + 1) te' := by
  have hlength := length_children_dblocks file.length m
  have hcount : chkPerInode * m + n < chkShape.count file.length 0 := by omega
  have hnode : (chkPerInode * m + n) * dblockSize < file.length := by
    have hlt := chkShape.lt_count_iff.mp hcount
    exact hlt
  have hdepth : te.currentDepth = 0 := by rw [hgroup.depth, if_pos hn]
  have hoffset : te.publishOffset = (chkPerInode * m + n) * dblockSize := by
    rw [hgroup.offset, Nat.min_eq_right hnode.le]
  have hmod : (chkPerInode * m + n) % chkPerInode = n := by
    rw [mul_add_mod, mod_eq_of_lt (by omega)]
  -- the group is complete after its last DBLOCK
  have hlast : (file.length ≤ (chkPerInode * m + n + 1) * dblockSize ∨
      (chkPerInode * m + n + 1) % chkPerInode = 0) ↔
      ¬ n + 1 < (chkShape.children file.length 0 m).length := by
    have hend : file.length ≤ (chkPerInode * m + n + 1) * dblockSize ↔
        chkShape.count file.length 0 ≤ chkPerInode * m + n + 1 := by
      rw [count_le_iff, span_zero]
      rfl
    have hfull : (chkPerInode * m + n + 1) % chkPerInode = 0 ↔ n + 1 = chkPerInode := by
      have hle : n + 1 ≤ chkPerInode := by omega
      rw [add_assoc, mul_add_mod]
      change n + 1 ≤ 256 at hle
      change (n + 1) % 256 = 0 ↔ n + 1 = 256
      omega
    omega
  refine ⟨_, treeEncoderNext_dblock hfile hgroup.size hgroup.tree hdepth hoffset hnode, ?_⟩
  constructor
  · exact hgroup.size
  · exact hgroup.tree
  · simp only [hlast, ite_not]
  · rfl
  · intro k hk
    simp only [hmod]
    rcases Nat.lt_succ_iff_lt_or_eq.mp hk with hlt | rfl
    · rw [update_of_ne (by omega)]
      exact hgroup.group k hlt
    · exact update_self _ _ _
  · intro j hj
    simp only [hmod]
    rw [update_of_ne (by omega)]
    exact hgroup.keys j hj

theorem InGroup.run (hgroup : InGroup hash encrypt file m 0 te)
    (hn : n ≤ (chkShape.children file.length 0 m).length) :
    ∃ te', Emits hash encrypt (fileReader file) te
        ((range' (chkPerInode * m) n).map fun j => blockAt hash encrypt file (0, j)) te' ∧
      InGroup hash encrypt file m n te' := by
  induction n with
  | zero => exact ⟨te, .nil, hgroup⟩
  | succ n ih =>
    obtain ⟨_, hemits, hgroup'⟩ := ih (by omega)
    obtain ⟨te'', hstep, hgroup''⟩ := hgroup'.step hfile (by omega)
    refine ⟨te'', ?_, hgroup''⟩
    rw [range'_1_concat, map_append]
    exact hemits.append (.single hstep)

theorem GroupStart.run (hlevel : 1 < computeDepth file.length)
    (hm : m < chkShape.count file.length 1) (hinode : m < chkPerInode)
    (hstart : GroupStart hash encrypt file m te) : ∃ te', Emits hash encrypt (fileReader file) te
        ((chkShape.post file.length 1 m).map (blockAt hash encrypt file)) te' ∧
      GroupStart hash encrypt file (m + 1) te' := by
  have hlength := length_children_dblocks file.length m
  obtain ⟨te', hemits, hgroup⟩ := (hstart.inGroup hm).run hfile (le_refl _)
  have hdepth : te'.currentDepth = 0 + 1 := by rw [hgroup.depth, if_neg (lt_irrefl _)]
  have hspan : (m + 1) * chkShape.span 1 = (chkPerInode * m + chkPerInode) * dblockSize := by
    change (m + 1) * (dblockSize * chkPerInode) = _
    ring
  have hoffset : te'.publishOffset = min file.length ((m + 1) * chkShape.span (0 + 1)) := by
    rw [hgroup.offset, hspan, hlength]
    rcases le_total chkPerInode (chkShape.count file.length 0 - chkPerInode * m) with
      hfull | hless
    · rw [min_eq_left hfull]
    · -- the last group ends with the file
      have hpos : chkPerInode * m < chkShape.count file.length 0 := chkShape.lt_count_succ_iff.mp hm
      have hend : file.length ≤ chkShape.count file.length 0 * dblockSize := by
        have hle := chkShape.count_le_iff.mp (le_refl (chkShape.count file.length 0))
        exact hle
      have hmore : chkShape.count file.length 0 * dblockSize ≤
          (chkPerInode * m + chkPerInode) * dblockSize := by
        apply Nat.mul_le_mul_right
        omega
      rw [Nat.min_eq_right hless, Nat.add_sub_cancel' hpos.le]
      omega
  have hholds : HoldsChildren hash encrypt file te'.chkTree 0 m := by
    intro j hj
    rw [children_dblocks, mem_range'_1] at hj
    obtain ⟨k, rfl⟩ := Nat.exists_eq_add_of_le hj.1
    rw [zero_mul, zero_add, mul_add_mod, mod_eq_of_lt (by omega)]
    exact hgroup.group k (by omega)
  have hstep := treeEncoderNext_iblock hfile hgroup.size hgroup.tree hdepth hlevel hm hoffset hholds
  have hpost : (chkShape.post file.length 1 m).map (blockAt hash encrypt file) =
      ((range' (chkPerInode * m) (chkShape.children file.length 0 m).length).map
        fun j => blockAt hash encrypt file (0, j)) ++ [blockAt hash encrypt file (1, m)] := by
    simp only [post, map_append, map_flatMap, map_cons, map_nil]
    rw [← children_dblocks, map_eq_flatMap]
  rw [hpost]
  refine ⟨_, hemits.append (.single hstep), ?_⟩
  constructor
  · exact hgroup.size
  · exact hgroup.tree
  · have hiff : m + 1 < chkShape.count file.length 1 ↔
        (m + 1) * chkShape.span (0 + 1) < file.length := chkShape.lt_count_iff
    simp only [hiff]
    split_ifs <;> omega
  · exact hoffset
  · intro j hj
    simp only [zero_add, one_mul, mod_eq_of_lt hinode]
    rcases Nat.lt_succ_iff_lt_or_eq.mp hj with hlt | rfl
    · rw [update_of_ne (by omega)]
      exact hgroup.keys j hlt
    · exact update_self _ _ _

theorem GroupStart.runAll (hlevel : 1 < computeDepth file.length)
    (hstart : GroupStart hash encrypt file 0 te) (hm : m ≤ chkShape.count file.length 1)
    (hinode : m ≤ chkPerInode) : ∃ te', Emits hash encrypt (fileReader file) te
        (((range m).flatMap (chkShape.post file.length 1)).map (blockAt hash encrypt file)) te' ∧
      GroupStart hash encrypt file m te' := by
  induction m with
  | zero => exact ⟨te, .nil, hstart⟩
  | succ m ih =>
    obtain ⟨_, hemits, hstart'⟩ := ih (by omega) (by omega)
    obtain ⟨te'', hmore, hstart''⟩ := hstart'.run hfile hlevel (by omega) (by omega)
    refine ⟨te'', ?_, hstart''⟩
    rw [range_succ, flatMap_append, flatMap_singleton, map_append]
    exact hemits.append hmore

end

/-! ## Files up to 2 GiB -/

theorem encodesTree_of_emits {nodes : List (Nat × Nat)} (hfile : file.length ≤ 2 ^ 63)
    (hemits : Emits hash encrypt (fileReader file) (treeEncoderCreate file.length)
      (nodes.map (blockAt hash encrypt file)) te)
    (hnodes : nodes.Perm (chkShape.nodes file.length (computeDepth file.length)))
    (hsize : te.size = file.length) (htree : te.chkTreeDepth = computeDepth file.length)
    (hdepth : te.currentDepth = computeDepth file.length)
    (hroot : te.chkTree (chkPerInode * (computeDepth file.length - 1)) =
      chkAt hash encrypt file (computeDepth file.length - 1) 0) :
    EncodesTree hash encrypt file := by
  have hcont : treeEncoderNext hash encrypt (fileReader file) te = .cont { te with
        uri := some ⟨te.chkTree (chkPerInode * (te.chkTreeDepth - 1)), te.size⟩ } := by
    rw [treeEncoderNext, if_pos (by rw [htree, hdepth])]
  refine ⟨_, _, _, drive_of_emits hemits hcont, hnodes.map _, ?_, ?_⟩
  · intro depth i hnode
    obtain ⟨_, hi⟩ := chkShape.mem_nodes.mp hnode
    obtain ⟨_, _, _⟩ := computeDepth_spec hfile
    exact treeCalculateBlockSize_plainOf hfile (by omega) hi
  · simp only [htree, hroot, hsize]

theorem encodesTree_of_one_dblock (hpos : 0 < file.length) (hfile : file.length ≤ 2 ^ 63)
    (hone : computeDepth file.length = 1) : EncodesTree hash encrypt file := by
  have hroot := (computeDepth_spec hfile).2.2.1
  rw [hone, Nat.sub_self, span_zero] at hroot
  change file.length ≤ dblockSize at hroot
  have hoffset : (treeEncoderCreate file.length).publishOffset = 0 * dblockSize := by
    rfl
  have hstep : treeEncoderNext hash encrypt (fileReader file) (treeEncoderCreate file.length) = _ :=
    treeEncoderNext_dblock hfile rfl rfl rfl hoffset (by omega)
  have hcount : chkShape.count file.length 0 = 1 := by
    have hcount := count_root hpos hfile
    rw [hone] at hcount
    exact hcount
  have hemits : Emits hash encrypt (fileReader file) (treeEncoderCreate file.length)
      ([(0, 0)].map (blockAt hash encrypt file)) _ := .single hstep
  apply encodesTree_of_emits hfile hemits
  · rw [hone]
    simp [nodes, hcount]
  · rfl
  · rfl
  · rw [if_pos (by omega), hone]
  · simp only [hone]
    exact update_self _ _ _

theorem groupStart_create (hpos : 0 < file.length) :
    GroupStart hash encrypt file 0 (treeEncoderCreate file.length) := by
  constructor
  · rfl
  · rfl
  · rw [if_pos (chkShape.count_pos hpos 1)]
    rfl
  · rw [zero_mul, Nat.min_eq_right (zero_le _)]
    rfl
  · intro j hj
    omega

/-- The encoder is right up to the first file that has two IBLOCKs at depth 2. -/
theorem encodesTree_of_le (hpos : 0 < file.length) (hsmall : file.length ≤ 2 ^ 31) :
    EncodesTree hash encrypt file := by
  have hfile : file.length ≤ 2 ^ 63 := by omega
  have hspan : chkShape.span (1 + 1) = 2 ^ 31 := span_eq 2
  obtain ⟨_, _, _, _⟩ := computeDepth_spec hfile
  have hthree : computeDepth file.length ≤ 3 := by
    by_contra hmore
    have hle : chkShape.span (1 + 1) ≤ chkShape.span (computeDepth file.length - 2) := by
      rw [span_eq, span_eq]
      apply Nat.pow_le_pow_right (by decide)
      omega
    omega
  have hcount : chkShape.count file.length 1 ≤ chkPerInode := by
    rw [count_le_iff, Nat.mul_comm, ← span_succ']
    omega
  have hpositive := chkShape.count_pos hpos 1
  rcases lt_or_ge 1 (computeDepth file.length) with hlevel | hle
  · have hstart : GroupStart hash encrypt file 0 (treeEncoderCreate file.length) :=
      groupStart_create hpos
    obtain ⟨te, hemits, hgroups⟩ := hstart.runAll hfile hlevel (le_refl _) hcount
    have hdepth : te.currentDepth = 2 := by
      rw [hgroups.depth, if_neg (lt_irrefl _)]
    rcases lt_or_ge 2 (computeDepth file.length) with htwo | hle
    · -- one IBLOCK above all groups
      have hcd : computeDepth file.length = 3 := by omega
      have hnode : chkShape.count file.length 2 = 1 := by
        have hroot := count_root hpos hfile
        rw [hcd] at hroot
        exact hroot
      have hchildren : chkShape.children file.length 1 0 =
          range (chkShape.count file.length 1) := by
        rw [children, Nat.mul_zero, Nat.sub_zero, range_eq_range']
        congr 1
        exact Nat.min_eq_right hcount
      have hholds : HoldsChildren hash encrypt file te.chkTree 1 0 := by
        intro j hj
        rw [hchildren, mem_range] at hj
        rw [one_mul, mod_eq_of_lt (by omega)]
        exact hgroups.keys j hj
      have hoffset : te.publishOffset = min file.length ((0 + 1) * chkShape.span (1 + 1)) := by
        have hend := chkShape.count_le_iff.mp (le_refl (chkShape.count file.length 1))
        rw [hgroups.offset, min_eq_left hend]
        omega
      have hstep := treeEncoderNext_iblock hfile hgroups.size hgroups.tree hdepth htwo
        (show 0 < chkShape.count file.length 2 by omega) hoffset hholds
      have hall : (chkShape.post file.length 2 0).map (blockAt hash encrypt file) =
          ((range (chkShape.count file.length 1)).flatMap
            (chkShape.post file.length 1)).map (blockAt hash encrypt file) ++
            [blockAt hash encrypt file (2, 0)] := by
        rw [post, hchildren, map_append, map_singleton]
      have hwhole := hemits.append (.single hstep)
      rw [← hall] at hwhole
      apply encodesTree_of_emits hfile hwhole
      · have hperm := chkShape.flatMap_post_perm file.length 2
        rw [hnode] at hperm
        rw [hcd]
        simpa using hperm
      · exact hgroups.size
      · exact hgroups.tree
      · rw [if_pos (by omega), hcd]
      · have hindex : chkPerInode * (3 - 1) = (1 + 1) * chkPerInode + 0 % chkPerInode := by decide
        rw [hcd, hindex]
        simp only [update_self]
    · have hcd : computeDepth file.length = 2 := by omega
      apply encodesTree_of_emits hfile hemits
      · rw [hcd]
        exact chkShape.flatMap_post_perm file.length 1
      · exact hgroups.size
      · exact hgroups.tree
      · omega
      · rw [hcd]
        exact hgroups.keys 0 hpositive
  · exact encodesTree_of_one_dblock hpos hfile (by omega)

/-! ## Larger files -/

/-- At depth 2 and above the whole file was read, and `seen` blocks of depth 2 were
passed to `proc`. -/
def AboveAtEnd (seen : Nat) (te : TreeEncoder) : Prop :=
  (2 ≤ te.currentDepth → te.publishOffset = te.size) ∧ seen = if 3 ≤ te.currentDepth then 1 else 0

theorem position_of_block (hstep : treeEncoderNext hash encrypt reader te = .block block te') :
    block.depth = te.currentDepth ∧ te'.size = te.size ∧
      (te.currentDepth = 0 ∧ te'.currentDepth ≤ 1 ∨
        0 < te.currentDepth ∧ te'.publishOffset = te.publishOffset ∧ te'.currentDepth =
            if te.publishOffset = te.size then te.currentDepth + 1 else 0) := by
  have hoff : computeChkOffset te.currentDepth te.publishOffset ≠ chkPerInode :=
    Nat.ne_of_lt (Nat.mod_lt _ (by decide))
  rw [treeEncoderNext] at hstep
  by_cases hend : te.chkTreeDepth = te.currentDepth
  · rw [if_pos hend] at hstep
    cases hstep
  rw [if_neg hend] at hstep
  cases hplain : plainBlock reader te with
  | none =>
    rw [hplain] at hstep
    cases hstep
  | some found =>
    obtain ⟨ptSize, plain⟩ := found
    rw [hplain] at hstep
    simp only [hoff, false_or] at hstep
    by_cases hread : te.currentDepth = 0 ∧ ptSize ≠ plain.length
    · rw [if_pos hread] at hstep
      cases hstep
    rw [if_neg hread] at hstep
    cases hstep
    refine ⟨rfl, rfl, ?_⟩
    rcases Nat.eq_zero_or_pos te.currentDepth with hzero | hpos
    · left
      refine ⟨hzero, ?_⟩
      simp only [hzero, if_true]
      split_ifs <;> omega
    · right
      refine ⟨hpos, ?_, ?_⟩
      · simp only [pos_iff_ne_zero.mp hpos, if_false]
      · simp only [pos_iff_ne_zero.mp hpos, if_false]

theorem AboveAtEnd.step (habove : AboveAtEnd seen te)
    (hstep : treeEncoderNext hash encrypt reader te = .block block te') :
    AboveAtEnd (seen + if block.depth = 2 then 1 else 0) te' := by
  obtain ⟨_, hseen⟩ := habove
  obtain ⟨hdepth, hsize, hmove⟩ := position_of_block hstep
  rw [hdepth, hseen]
  unfold AboveAtEnd
  rw [hsize]
  rcases hmove with ⟨_, _⟩ | ⟨_, hoffset, hnext⟩
  · constructor
    · omega
    · rw [if_neg (by omega), if_neg (by omega), if_neg (by omega)]
  · rw [hoffset, hnext]
    by_cases hlast : te.publishOffset = te.size
    · constructor
      · intro _
        exact hlast
      · split_ifs <;> omega
    · -- before the end of the file the encoder was at depth 1
      rw [if_neg hlast]
      constructor
      · omega
      · split_ifs <;> omega

theorem AboveAtEnd.run (hemits : Emits hash encrypt reader te blocks te')
    (habove : AboveAtEnd seen te) : AboveAtEnd (seen + blocks.countP (·.depth = 2)) te' := by
  induction hemits generalizing seen with
  | nil => exact habove
  | @cons te te' te'' block blocks hstep _ ih =>
    have hrest := ih (habove.step hstep)
    convert hrest using 1
    by_cases hdepth : block.depth = 2
    · simp [hdepth]
      omega
    · simp [hdepth]

theorem countP_depth_two_le {fuel size : Nat}
    (hdrive : drive hash encrypt reader fuel (treeEncoderCreate size) = some (blocks, final)) :
    blocks.countP (·.depth = 2) ≤ 1 := by
  obtain ⟨_, hemits, _⟩ := emits_of_drive hdrive
  have hstart : AboveAtEnd 0 (treeEncoderCreate size) := by
    constructor
    · intro hdepth
      exact absurd hdepth (by simp [treeEncoderCreate])
    · rfl
  have hrun := (hstart.run hemits).2
  rw [zero_add] at hrun
  rw [hrun]
  split_ifs <;> omega

end

section

variable (hash : List UInt8 → HashCode) (encrypt : HashCode → List UInt8 → List UInt8)

theorem count_le_countP_depth_two (file : List UInt8) (hlevels : 2 < levels) :
    chkShape.count file.length 2 ≤
      ((chkShape.nodes file.length levels).map (blockAt hash encrypt file)).countP
        (·.depth = 2) := by
  have hsublist : ((range (chkShape.count file.length 2)).map ((2, ·))).Sublist
      (chkShape.nodes file.length levels) := by
    apply sublist_flatten_of_mem
    exact mem_map.mpr ⟨2, mem_range.mpr hlevels, rfl⟩
  have hcount : (((range (chkShape.count file.length 2)).map ((2, ·))).map
      (blockAt hash encrypt file)).countP (·.depth = 2) = chkShape.count file.length 2 := by
    rw [countP_eq_length.mpr]
    · simp
    · simp [blockAt]
  rw [← hcount]
  exact (hsublist.map _).countP_le

theorem not_encodesTree_of_lt {file : List UInt8} (hlarge : 2 ^ 31 < file.length)
    (hsize : file.length ≤ 2 ^ 62) : ¬ EncodesTree hash encrypt file := by
  rintro ⟨_, _, _, hdrive, hperm, _⟩
  have hspan : chkShape.span 2 = 2 ^ 31 := span_eq 2
  have hfile : file.length ≤ 2 ^ 63 := by omega
  have hroot := (computeDepth_spec hfile).2.2.1
  have hlevels : 2 < computeDepth file.length := by
    by_contra hle
    have hmono : chkShape.span (computeDepth file.length - 1) ≤ chkShape.span 2 := by
      rw [span_eq, span_eq]
      apply Nat.pow_le_pow_right (by decide)
      omega
    omega
  have htwo : 1 < chkShape.count file.length 2 := by
    rw [lt_count_iff]
    omega
  have hmany := count_le_countP_depth_two hash encrypt file hlevels
  have hone := countP_depth_two_le hdrive
  rw [hperm.countP_eq] at hone
  omega

/-- The encoder passes every node of the tree to `proc` exactly if the file has at
most 2 GiB. -/
theorem encodesTree_iff_le (file : List UInt8) (hpos : 1 ≤ file.length)
    (hsize : file.length ≤ 2 ^ 62) : EncodesTree hash encrypt file ↔ file.length ≤ 2 ^ 31 := by
  constructor
  · intro hencodes
    by_contra hlarge
    exact not_encodesTree_of_lt hash encrypt (by omega) hsize hencodes
  · exact encodesTree_of_le hpos

end

/-- A file of two DBLOCKs and the IBLOCK over them. -/
theorem encodesTree_iff_le_iblock : computeDepth 40000 = 2 ∧
      EncodesTree (fun _ => .replicate 64 0) (fun _ plain => plain) (replicate 40000 65) :=
  ⟨by decide, (encodesTree_iff_le _ _ _ (by rw [length_replicate]; decide)
    (by rw [length_replicate]; decide)).mpr (by rw [length_replicate]; decide)⟩

/-- For a file of 2 GiB and one byte the first IBLOCK of depth 2 is left out. -/
theorem two_gib_and_one_byte_not_encoded :
    ¬ EncodesTree (fun _ => .replicate 64 0) (fun _ plain => plain)
      (replicate (2 ^ 31 + 1) 0) := by
  apply not_encodesTree_of_lt
  · rw [length_replicate]
    omega
  · rw [length_replicate]
    omega

end Gnunet.Fs
