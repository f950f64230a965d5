import Gnunet.FsTree

/-!
# The request tree of a partial download

`create_download_request` of `fs_download.c` builds the part of the CHK tree that
is needed for a range of a file.  The tree is right for most ranges.  The number
of children is cut to the size of an IBLOCK only after the blocks in front of the
range were subtracted, and it is counted in 32 bits.
-/

namespace Gnunet.Fs

open BlockTree List Nat

/-- `struct DownloadRequest`; the parent is the request it is a child of.  The state
and the key of a request belong to the download and are not part of the tree. -/
inductive DownloadRequest where
  | mk (offset depth chkIdx : Nat) (children : List DownloadRequest)

namespace DownloadRequest

def offset : DownloadRequest → Nat
  | mk offset _ _ _ => offset

def depth : DownloadRequest → Nat
  | mk _ depth _ _ => depth

def chkIdx : DownloadRequest → Nat
  | mk _ _ chkIdx _ => chkIdx

def children : DownloadRequest → List DownloadRequest
  | mk _ _ _ children => children

mutual

def all : DownloadRequest → List DownloadRequest
  | mk offset depth chkIdx children => mk offset depth chkIdx children :: allOf children

def allOf : List DownloadRequest → List DownloadRequest
  | [] => []
  | dr :: rest => all dr ++ allOf rest

end

def leaves (dr : DownloadRequest) : List DownloadRequest :=
  dr.all.filter (·.depth = 0)

theorem allOf_eq : allOf requests = requests.flatMap all := by
  induction requests with
  | nil => rfl
  | cons dr rest ih => rw [allOf, ih, flatMap_cons]

theorem all_eq (dr : DownloadRequest) : dr.all = dr :: dr.children.flatMap all := by
  cases dr
  rw [all, allOf_eq, children]

theorem leaves_eq {dr : DownloadRequest} (hdepth : dr.depth ≠ 0) :
    dr.leaves = dr.children.flatMap leaves := by
  rw [leaves, all_eq, filter_cons_of_neg (by simpa using hdepth), filter_flatMap]
  rfl

end DownloadRequest

/-- The children that `create_download_request` gives to a request at `drOffset`:
how many blocks are skipped in front of them, and how many they are. -/
def childRange (childBlockSize drOffset fileStartOffset desiredLength : Nat) : Option (Nat × Nat) :=
  let headSkip :=
    if drOffset < fileStartOffset then
      (fileStartOffset - drOffset) / childBlockSize % 2 ^ 32
    else 0
  let wanted := (fileStartOffset + desiredLength + 2 ^ 64 - drOffset) % 2 ^ 64
  let numChildren := wanted / childBlockSize % 2 ^ 32
  let numChildren :=
    if numChildren * childBlockSize % 2 ^ 64 < wanted then (numChildren + 1) % 2 ^ 32
    else numChildren
  if numChildren ≤ headSkip then none
  else some (headSkip, min chkPerInode (numChildren - headSkip))

/-- `create_download_request`; `none` where its assertion fails. -/
def createDownloadRequest (fileStartOffset desiredLength : Nat) :
    Nat → Nat → Nat → Option DownloadRequest
  | 0, chkIdx, drOffset => some (.mk drOffset 0 chkIdx [])
  | depth + 1, chkIdx, drOffset => do
      let childBlockSize := treeComputeTreeSize depth
      let (headSkip, numChildren) ←
        childRange childBlockSize drOffset fileStartOffset desiredLength
      let children ← (range' headSkip numChildren).mapM fun idx =>
        createDownloadRequest fileStartOffset desiredLength depth (idx % 2 ^ 32)
          ((drOffset + idx % 2 ^ 32 * childBlockSize) % 2 ^ 64)
      return .mk drOffset (depth + 1) chkIdx children

section

variable {α β : Type} {xs : List α} {ys : List β}

theorem mapM_eq_some_iff : xs.mapM f = some ys ↔ Forall₂ (fun x y => f x = some y) xs ys := by
  induction xs generalizing ys with
  | nil => simp [mapM_nil, eq_comm]
  | cons x xs ih =>
    rw [mapM_cons]
    constructor
    · intro hmap
      cases hx : f x with
      | none => simp [hx] at hmap
      | some y =>
        cases hxs : xs.mapM f with
        | none => simp [hx, hxs] at hmap
        | some rest =>
          simp only [hx, hxs, Option.pure_def, Option.bind_eq_bind, Option.bind_some,
            Option.some.injEq] at hmap
          subst hmap
          exact .cons hx (ih.mp hxs)
    · intro hall
      cases hall with
      | cons hx hrest => simp [hx, ih.mpr hrest]

theorem mapM_congr {f g : α → Option β} (heq : ∀ x ∈ xs, f x = g x) : xs.mapM f = xs.mapM g := by
  induction xs with
  | nil => rfl
  | cons x xs ih =>
    rw [mapM_cons, mapM_cons, heq x mem_cons_self, ih fun x' hx' => heq x' (mem_cons_of_mem _ hx')]

variable {R : α → β → Prop}

theorem exists_forall₂ (hall : ∀ x ∈ xs, ∃ y, R x y) : ∃ ys, Forall₂ R xs ys := by
  induction xs with
  | nil => exact ⟨[], .nil⟩
  | cons x xs ih =>
    obtain ⟨y, hy⟩ := hall x mem_cons_self
    obtain ⟨ys, hys⟩ := ih fun x' hx' => hall x' (mem_cons_of_mem _ hx')
    exact ⟨y :: ys, .cons hy hys⟩

variable (hall : Forall₂ R xs ys)
include hall

theorem Forall₂.exists_left (hy : y ∈ ys) : ∃ x ∈ xs, R x y := by
  induction hall with
  | nil => cases hy
  | cons hxy _ ih =>
    rcases mem_cons.mp hy with rfl | hy
    · exact ⟨_, mem_cons_self, hxy⟩
    · obtain ⟨x, hx, hR⟩ := ih hy
      exact ⟨x, mem_cons_of_mem _ hx, hR⟩

theorem Forall₂.exists_right (hx : x ∈ xs) : ∃ y ∈ ys, R x y :=
  Forall₂.exists_left hall.flip hx

theorem Forall₂.pairwise {S : α → α → Prop} {T : β → β → Prop} (hxs : xs.Pairwise S)
    (hmap : ∀ {x x' y y'}, R x y → R x' y' → S x x' → T y y') : ys.Pairwise T := by
  induction hall with
  | nil => exact .nil
  | cons hxy hrest ih =>
    rw [pairwise_cons] at hxs ⊢
    constructor
    · intro y' hy'
      obtain ⟨x', hx', hR⟩ := Forall₂.exists_left hrest hy'
      exact hmap hxy hR (hxs.1 x' hx')
    · exact ih hxs.2

end

/-! ## The children of one request -/

/-- The number of blocks that some bytes need, rounded up in 32 bits. -/
def roundedBlocks (bytes block : Nat) : Nat :=
  let whole := bytes / block % 2 ^ 32
  if whole * block < bytes then (whole + 1) % 2 ^ 32 else whole

variable {block : Nat}

theorem mul_lt_of_lt_roundedBlocks (hidx : idx < roundedBlocks bytes block) :
    idx * block < bytes := by
  have hwhole : bytes / block % 2 ^ 32 * block ≤ bytes :=
    le_trans (Nat.mul_le_mul_right _ (mod_le _ _)) (div_mul_le_self _ _)
  unfold roundedBlocks at hidx
  simp only at hidx
  split_ifs at hidx with hmore
  · have hle : idx ≤ bytes / block % 2 ^ 32 := by
      omega
    exact lt_of_le_of_lt (Nat.mul_le_mul_right _ hle) hmore
  · rcases Nat.eq_zero_or_pos block with rfl | hblock
    · simp at hidx
    · exact lt_of_lt_of_le (mul_lt_mul_of_pos_right hidx hblock) hwhole

theorem lt_roundedBlocks_iff (hblock : 0 < block) (hbytes : bytes ≤ chkPerInode * block) :
    idx < roundedBlocks bytes block ↔ idx * block < bytes := by
  constructor
  · exact mul_lt_of_lt_roundedBlocks
  intro hidx
  have hdiv : bytes / block ≤ chkPerInode := Nat.div_le_of_le_mul (by
    rw [mul_comm]
    exact hbytes)
  have hinode : chkPerInode = 256 := rfl
  have hle : idx ≤ bytes / block := (le_div_iff_mul_le hblock).mpr hidx.le
  unfold roundedBlocks
  simp only
  rw [mod_eq_of_lt (by omega)]
  split_ifs with hmore
  · omega
  · apply lt_of_le_of_ne hle
    rintro rfl
    exact hmore hidx

variable {drOffset : Nat}

theorem skipped_lt (hblock : 0 < block) (hbehind : start < drOffset + chkPerInode * block) :
    (start - drOffset) / block < chkPerInode := by
  have hpos : 0 < chkPerInode * block := Nat.mul_pos (by decide) hblock
  rw [div_lt_iff_lt_mul hblock]
  omega

theorem childRange_eq {start length : Nat} (hblock : 0 < block) (hfile : start + length ≤ 2 ^ 63)
    (hbefore : drOffset < start + length) (hbehind : start < drOffset + chkPerInode * block) :
    childRange block drOffset start length =
      if roundedBlocks (start + length - drOffset) block ≤ (start - drOffset) / block then none
      else some ((start - drOffset) / block, min chkPerInode
          (roundedBlocks (start + length - drOffset) block - (start - drOffset) / block)) := by
  have hskip := skipped_lt hblock hbehind
  have hinode : chkPerInode = 256 := rfl
  have hhead : (if drOffset < start then (start - drOffset) / block % 2 ^ 32 else 0) =
      (start - drOffset) / block := by
    split_ifs with hlt
    · exact mod_eq_of_lt (by omega)
    · rw [Nat.sub_eq_zero_of_le (by omega), Nat.zero_div]
  have hwanted : (start + length + 2 ^ 64 - drOffset) % 2 ^ 64 = start + length - drOffset := by
    omega
  have hwhole : (start + length - drOffset) / block % 2 ^ 32 * block % 2 ^ 64 =
      (start + length - drOffset) / block % 2 ^ 32 * block := by
    apply mod_eq_of_lt
    have hle : (start + length - drOffset) / block % 2 ^ 32 * block ≤ start + length - drOffset :=
      le_trans (Nat.mul_le_mul_right _ (mod_le _ _)) (div_mul_le_self _ _)
    omega
  simp only [childRange, hhead, hwanted, hwhole]
  rfl

/-! ## The nodes of the tree

A node is given by its depth and its number in the level. -/

section

variable (start length : Nat)

/-- Whether the range has bytes of a node. -/
def Meets (depth i : Nat) : Prop :=
  i * chkShape.span depth < start + length ∧ start < (i + 1) * chkShape.span depth

def blocksToEnd (depth i : Nat) : Nat :=
  roundedBlocks (start + length - i * chkShape.span (depth + 1)) (chkShape.span depth)

def blocksSkipped (depth i : Nat) : Nat :=
  (start - i * chkShape.span (depth + 1)) / chkShape.span depth

def childKeys (depth i : Nat) : List Nat :=
  range' (blocksSkipped start depth i)
    (min chkPerInode (blocksToEnd start length depth i - blocksSkipped start depth i))

/-- The range ends below the node, or the number of blocks to its end is cut at
the end of the node. -/
def Fits (depth i : Nat) : Prop :=
  start + length ≤ (i + 1) * chkShape.span (depth + 1) ∨
    blocksToEnd start length depth i = chkPerInode ∨
    start < i * chkShape.span (depth + 1) + chkShape.span depth ∧
      chkPerInode ≤ blocksToEnd start length depth i

instance (depth i : Nat) : Decidable (Meets start length depth i) :=
  inferInstanceAs (Decidable (_ ∧ _))

instance (depth i : Nat) : Decidable (Fits start length depth i) :=
  inferInstanceAs (Decidable (_ ∨ _))

end

/-- The request for a node of the tree. -/
def Created (start length depth i chkIdx : Nat) (dr : DownloadRequest) : Prop :=
  createDownloadRequest start length depth chkIdx (i * chkShape.span depth) = some dr

section

variable {start length depth i k : Nat}

theorem child_offset (depth i k : Nat) : (chkPerInode * i + k) * chkShape.span depth =
      i * chkShape.span (depth + 1) + k * chkShape.span depth := by
  rw [span_succ']
  ring

theorem child_end_le (depth : Nat) (hk : k < chkPerInode) :
    (k + 1) * chkShape.span depth ≤ chkPerInode * chkShape.span depth :=
  Nat.mul_le_mul_right _ hk

theorem node_end : (i + 1) * chkShape.span (depth + 1) =
      i * chkShape.span (depth + 1) + chkPerInode * chkShape.span depth := by
  rw [span_succ']
  ring

theorem blocksSkipped_lt (hmeets : Meets start length (depth + 1) i) :
    blocksSkipped start depth i < chkPerInode := by
  apply skipped_lt (chkShape.span_pos depth)
  rw [← node_end]
  exact hmeets.2

theorem blocksSkipped_le_iff : blocksSkipped start depth i ≤ k ↔
      start < (chkPerInode * i + k + 1) * chkShape.span depth := by
  have hspan := chkShape.span_pos depth
  have hpos : 0 < (k + 1) * chkShape.span depth := Nat.mul_pos (Nat.succ_pos k) hspan
  rw [Nat.add_assoc, child_offset, blocksSkipped, ← Nat.lt_add_one_iff, div_lt_iff_lt_mul hspan]
  omega

theorem offset_lt_of_lt_blocksToEnd (hk : k < blocksToEnd start length depth i) :
    (chkPerInode * i + k) * chkShape.span depth < start + length := by
  have hlt := mul_lt_of_lt_roundedBlocks hk
  rw [child_offset]
  omega

theorem meets_of_mem_childKeys (hk : k ∈ childKeys start length depth i) :
    Meets start length depth (chkPerInode * i + k) := by
  rw [childKeys, mem_range'_1] at hk
  constructor
  · apply offset_lt_of_lt_blocksToEnd
    omega
  · exact blocksSkipped_le_iff.mp hk.1

theorem mem_childKeys_iff_of_fits (hmeets : Meets start length (depth + 1) i)
    (hfits : Fits start length depth i) : k ∈ childKeys start length depth i ↔
      k < chkPerInode ∧ Meets start length depth (chkPerInode * i + k) := by
  have hskip := blocksSkipped_lt hmeets
  have hlt : k < blocksToEnd start length depth i →
      (chkPerInode * i + k) * chkShape.span depth < start + length :=
    offset_lt_of_lt_blocksToEnd
  rw [childKeys, mem_range'_1, Meets, ← blocksSkipped_le_iff]
  rcases hfits with hend | hcut | ⟨_, _⟩
  · have hspan := chkShape.span_pos depth
    rw [node_end] at hend
    have hiff : ∀ k, k < blocksToEnd start length depth i ↔
        (chkPerInode * i + k) * chkShape.span depth < start + length := by
      intro k
      rw [blocksToEnd, lt_roundedBlocks_iff hspan (by omega), child_offset]
      omega
    have hle : blocksToEnd start length depth i ≤ chkPerInode := by
      rw [← not_lt, hiff, child_offset]
      omega
    rw [← hiff k]
    omega
  · omega
  · have hzero : blocksSkipped start depth i ≤ 0 := by
      rw [blocksSkipped_le_iff, Nat.add_assoc, child_offset]
      omega
    omega

/-- A node fits when it has no key too many and its last block, if the range goes
beyond it. -/
theorem fits_of_childKeys (hkeys : ∀ k ∈ childKeys start length depth i, k < chkPerInode)
    (hlast : (i + 1) * chkShape.span (depth + 1) < start + length →
      chkPerInode - 1 ∈ childKeys start length depth i) : Fits start length depth i := by
  by_cases hend : start + length ≤ (i + 1) * chkShape.span (depth + 1)
  · exact Or.inl hend
  have hmem := hlast (by omega)
  rw [childKeys, mem_range'_1] at hmem
  -- the last key is the last of the block
  have hfull : blocksSkipped start depth i +
      min chkPerInode (blocksToEnd start length depth i - blocksSkipped start depth i) ≤
        chkPerInode := by
    have hle := hkeys (blocksSkipped start depth i +
      min chkPerInode (blocksToEnd start length depth i - blocksSkipped start depth i) - 1)
    rw [childKeys, mem_range'_1] at hle
    omega
  rcases Nat.eq_zero_or_pos (blocksSkipped start depth i) with hzero | hpos
  · have hfirst := blocksSkipped_le_iff.mp (le_of_eq hzero)
    rw [Nat.add_assoc, child_offset] at hfirst
    right
    right
    constructor <;> omega
  · right
    left
    omega

theorem blocksSkipped_lt_blocksToEnd_of_fits (hlength : 0 < length)
    (hmeets : Meets start length (depth + 1) i) (hfits : Fits start length depth i) :
    blocksSkipped start depth i < blocksToEnd start length depth i := by
  have hskip := blocksSkipped_lt hmeets
  rcases hfits with hend | hcut | ⟨_, _⟩
  · have hspan := chkShape.span_pos depth
    have hle : blocksSkipped start depth i * chkShape.span depth ≤
        start - i * chkShape.span (depth + 1) := div_mul_le_self _ _
    have hbefore := hmeets.1
    rw [node_end] at hend
    rw [blocksToEnd, lt_roundedBlocks_iff hspan (by omega)]
    omega
  · omega
  · omega

/-- What `create_download_request` does for an inner node that meets the range. -/
theorem createDownloadRequest_succ_iff {dr : DownloadRequest}
    (hdepth : depth + 1 ≤ 6) (hfile : start + length ≤ 2 ^ 63)
    (hmeets : Meets start length (depth + 1) i) : Created start length (depth + 1) i chkIdx dr ↔
      blocksSkipped start depth i < blocksToEnd start length depth i ∧
        ∃ children, dr = .mk (i * chkShape.span (depth + 1)) (depth + 1) chkIdx children ∧ Forall₂
            (fun k child => Created start length depth (chkPerInode * i + k) k child)
            (childKeys start length depth i) children := by
  have hspan := chkShape.span_pos depth
  have hbehind := hmeets.2
  rw [node_end] at hbehind
  have hskip := blocksSkipped_lt hmeets
  have hinode : chkPerInode = 256 := rfl
  -- the arithmetic of the children does not wrap around
  have hcong : (childKeys start length depth i).mapM
      (fun k => createDownloadRequest start length depth (k % 2 ^ 32)
        ((i * chkShape.span (depth + 1) + k % 2 ^ 32 * chkShape.span depth) % 2 ^ 64)) =
      (childKeys start length depth i).mapM (fun k => createDownloadRequest start length depth k
          ((chkPerInode * i + k) * chkShape.span depth)) := by
    apply mapM_congr
    intro k hk
    have hlt := (meets_of_mem_childKeys hk).1
    rw [childKeys, mem_range'_1] at hk
    rw [mod_eq_of_lt (show k < 2 ^ 32 by omega), ← child_offset, mod_eq_of_lt (by omega)]
  have hrange : childRange (chkShape.span depth) (i * chkShape.span (depth + 1)) start length =
      if blocksToEnd start length depth i ≤ blocksSkipped start depth i then none
      else some (blocksSkipped start depth i,
        min chkPerInode (blocksToEnd start length depth i - blocksSkipped start depth i)) :=
    childRange_eq hspan hfile hmeets.1 hbehind
  rw [Created, createDownloadRequest, treeComputeTreeSize_eq (by omega), hrange]
  by_cases hle : blocksToEnd start length depth i ≤ blocksSkipped start depth i
  · rw [if_pos hle]
    constructor
    · intro hnone
      cases hnone
    · intro hlt
      omega
  rw [if_neg hle]
  simp only [Option.bind_eq_bind, Option.bind_some]
  rw [← childKeys, hcong, Option.bind_eq_some_iff]
  constructor
  · rintro ⟨children, hmap, hdr⟩
    exact ⟨by omega, children, (Option.some.inj hdr).symm, mapM_eq_some_iff.mp hmap⟩
  · rintro ⟨_, children, rfl, hmap⟩
    exact ⟨children, mapM_eq_some_iff.mpr hmap, rfl⟩

end

/-! ## The tree -/

/-- The tree asks for a range of a file: its leaves are the DBLOCKs that meet the
range, each once, and the key of every child is in the block of its parent. -/
structure DownloadRequest.Covers (dr : DownloadRequest) (size start length : Nat) : Prop where
  once : (dr.leaves.map offset).Nodup
  leaves : ∀ offset, offset ∈ dr.leaves.map DownloadRequest.offset ↔
    ∃ j, offset = j * dblockSize ∧ Meets start length 0 j
  keys : ∀ parent ∈ dr.all, ∀ child ∈ parent.children, child.chkIdx < chkPerInode ∧
    ∃ blockSize, treeCalculateBlockSize size parent.offset parent.depth = some blockSize ∧
      (child.chkIdx + 1) * sizeofContentHashKey ≤ blockSize

section

variable {start length : Nat}

theorem createDownloadRequest_fields
    (hcreate : createDownloadRequest start length depth chkIdx drOffset = some dr) :
    dr.offset = drOffset ∧ dr.depth = depth ∧ dr.chkIdx = chkIdx := by
  cases depth with
  | zero =>
    cases hcreate
    exact ⟨rfl, rfl, rfl⟩
  | succ depth =>
    obtain ⟨_, _, hrest⟩ := Option.bind_eq_some_iff.mp hcreate
    obtain ⟨_, _, hdr⟩ := Option.bind_eq_some_iff.mp hrest
    cases hdr
    exact ⟨rfl, rfl, rfl⟩

theorem leaves_of_leaf : (DownloadRequest.mk drOffset 0 chkIdx []).leaves =
      [.mk drOffset 0 chkIdx []] := by
  simp [DownloadRequest.leaves, DownloadRequest.all_eq, DownloadRequest.depth,
    DownloadRequest.children]

theorem mem_all_of_child {dr child other : DownloadRequest} (hchild : child ∈ dr.children)
    (hother : other ∈ child.all) : other ∈ dr.all := by
  rw [DownloadRequest.all_eq]
  exact mem_cons_of_mem _ (mem_flatMap.mpr ⟨child, hchild, hother⟩)

def KeysInBlock (dr : DownloadRequest) : Prop :=
  ∀ parent ∈ dr.all, ∀ child ∈ parent.children, child.chkIdx < chkPerInode

theorem KeysInBlock.child {dr child : DownloadRequest} (hkeys : KeysInBlock dr)
    (hchild : child ∈ dr.children) : KeysInBlock child :=
  fun parent hparent => hkeys parent (mem_all_of_child hchild hparent)

theorem KeysInBlock.lt {dr child : DownloadRequest} (hkeys : KeysInBlock dr)
    (hchild : child ∈ dr.children)
    (hcreated : createDownloadRequest start length depth k drOffset = some child) :
    k < chkPerInode := by
  rw [← (createDownloadRequest_fields hcreated).2.2]
  exact hkeys dr (by rw [DownloadRequest.all_eq]; exact mem_cons_self) child hchild

section

variable {depth chkIdx i : Nat} {dr : DownloadRequest} (hdepth : depth + 1 ≤ 6)
  (hfile : start + length ≤ 2 ^ 63) (hmeets : Meets start length (depth + 1) i)
include hdepth hfile hmeets

theorem createDownloadRequest_children (hcreate : Created start length (depth + 1) i chkIdx dr) :
    Forall₂ (fun k child => Created start length depth (chkPerInode * i + k) k child)
      (childKeys start length depth i) dr.children := by
  obtain ⟨_, _, rfl, hchildren⟩ := (createDownloadRequest_succ_iff hdepth hfile hmeets).mp hcreate
  exact hchildren

theorem leaf_of_created (hcreate : Created start length (depth + 1) i chkIdx dr) :
    offset ∈ dr.leaves.map DownloadRequest.offset ↔
      ∃ k ∈ childKeys start length depth i, ∃ child ∈ dr.children,
        Created start length depth (chkPerInode * i + k) k child ∧
        offset ∈ child.leaves.map DownloadRequest.offset := by
  have hne : dr.depth ≠ 0 := by
    rw [(createDownloadRequest_fields hcreate).2.1]
    exact succ_ne_zero depth
  rw [DownloadRequest.leaves_eq hne, map_flatMap, mem_flatMap]
  constructor
  · rintro ⟨child, hchild, hoffset⟩
    obtain ⟨k, hk, hcreated⟩ := Forall₂.exists_left
      (createDownloadRequest_children hdepth hfile hmeets hcreate) hchild
    exact ⟨k, hk, child, hchild, hcreated, hoffset⟩
  · rintro ⟨_, _, child, hchild, _, hoffset⟩
    exact ⟨child, hchild, hoffset⟩

end

/-- Leaves stay below their node as long as no key is beyond its block. -/
theorem leaf_below_node {depth chkIdx i : Nat} (hdepth : depth ≤ 6)
    (hfile : start + length ≤ 2 ^ 63) (hmeets : Meets start length depth i)
    (hcreate : Created start length depth i chkIdx dr) (hkeys : KeysInBlock dr) {offset : Nat}
    (hleaf : offset ∈ dr.leaves.map DownloadRequest.offset) :
    i * chkShape.span depth ≤ offset ∧ offset < (i + 1) * chkShape.span depth := by
  induction depth generalizing chkIdx i dr with
  | zero =>
    cases hcreate
    cases mem_singleton.mp hleaf
    constructor
    · exact le_refl _
    · exact mul_lt_mul_of_pos_right (Nat.lt_succ_self i) (chkShape.span_pos 0)
  | succ depth ih =>
    obtain ⟨_, hk, _, hchild, hcreated, hoffset⟩ :=
      (leaf_of_created hdepth hfile hmeets hcreate).mp hleaf
    have hlt := hkeys.lt hchild hcreated
    have hbelow := ih (by omega) (meets_of_mem_childKeys hk) hcreated (hkeys.child hchild) hoffset
    rw [Nat.add_assoc, child_offset, child_offset] at hbelow
    have hmul := child_end_le depth hlt
    rw [node_end]
    omega

/-! ### Where the tree is right, every node fits -/

structure Complete (start length depth i : Nat) (dr : DownloadRequest) : Prop where
  created : ∃ chkIdx,
    createDownloadRequest start length depth chkIdx (i * chkShape.span depth) = some dr
  keys : KeysInBlock dr
  leaves : ∀ j, Meets start length 0 j → i * chkShape.span depth ≤ j * dblockSize →
    j * dblockSize < (i + 1) * chkShape.span depth →
      j * dblockSize ∈ dr.leaves.map DownloadRequest.offset

variable {depth i k : Nat} {dr : DownloadRequest}

theorem exists_last_dblock (hbehind : start < (c + 1) * chkShape.span depth)
    (hend : (c + 1) * chkShape.span depth < start + length) :
    ∃ j, Meets start length 0 j ∧ c * chkShape.span depth ≤ j * dblockSize ∧
      j * dblockSize < (c + 1) * chkShape.span depth := by
  have hspan : chkShape.span depth = chkPerInode ^ depth * dblockSize := mul_comm _ _
  have hpow : 0 < chkPerInode ^ depth := Nat.pow_pos (by decide)
  have hmul : (c + 1) * chkShape.span depth =
      ((c + 1) * chkPerInode ^ depth - 1 + 1) * dblockSize := by
    rw [Nat.sub_add_cancel (Nat.mul_pos (Nat.succ_pos c) hpow), hspan, Nat.mul_assoc]
  have hlt : ((c + 1) * chkPerInode ^ depth - 1) * dblockSize < (c + 1) * chkShape.span depth := by
    rw [hmul]
    exact mul_lt_mul_of_pos_right (Nat.lt_succ_self _) (by decide)
  refine ⟨(c + 1) * chkPerInode ^ depth - 1, ⟨?_, ?_⟩, ?_, hlt⟩
  · exact lt_trans hlt hend
  · exact lt_of_lt_of_eq hbehind hmul
  · rw [hspan, ← Nat.mul_assoc]
    apply Nat.mul_le_mul_right
    have : (c + 1) * chkPerInode ^ depth = c * chkPerInode ^ depth + chkPerInode ^ depth :=
      succ_mul _ _
    omega

section

variable (hdepth : depth + 1 ≤ 6) (hfile : start + length ≤ 2 ^ 63)
  (hmeets : Meets start length (depth + 1) i) (hcomplete : Complete start length (depth + 1) i dr)
include hdepth hfile hmeets hcomplete

/-- A DBLOCK below a complete node is below the child it belongs to. -/
theorem Complete.leaf_of_child (hk : k < chkPerInode) (hj : Meets start length 0 j)
    (hlower : (chkPerInode * i + k) * chkShape.span depth ≤ j * dblockSize)
    (hupper : j * dblockSize < (chkPerInode * i + k + 1) * chkShape.span depth) :
    k ∈ childKeys start length depth i ∧ ∃ child ∈ dr.children,
      Created start length depth (chkPerInode * i + k) k child ∧
        j * dblockSize ∈ child.leaves.map DownloadRequest.offset := by
  obtain ⟨_, hcreate⟩ := hcomplete.created
  have hmul := child_end_le depth hk
  have hleaf : j * dblockSize ∈ dr.leaves.map DownloadRequest.offset := by
    rw [child_offset] at hlower
    rw [Nat.add_assoc, child_offset] at hupper
    apply hcomplete.leaves j hj
    · omega
    · rw [node_end]
      omega
  obtain ⟨k', hk', child, hchild, hcreated, hoffset⟩ :=
    (leaf_of_created hdepth hfile hmeets hcreate).mp hleaf
  have hbelow := leaf_below_node (by omega) hfile (meets_of_mem_childKeys hk') hcreated
    (hcomplete.keys.child hchild) hoffset
  -- both nodes have the block, so they are the same
  have heq : k' = k := by
    have hle : chkPerInode * i + k' < chkPerInode * i + k + 1 :=
      Nat.lt_of_mul_lt_mul_right (lt_of_le_of_lt hbelow.1 hupper)
    have hge : chkPerInode * i + k < chkPerInode * i + k' + 1 :=
      Nat.lt_of_mul_lt_mul_right (lt_of_le_of_lt hlower hbelow.2)
    omega
  subst heq
  exact ⟨hk', child, hchild, hcreated, hoffset⟩

theorem Complete.fits : Fits start length depth i := by
  apply fits_of_childKeys
  · intro k hk
    obtain ⟨_, hcreate⟩ := hcomplete.created
    obtain ⟨_, hchild, hcreated⟩ := Forall₂.exists_right
      (createDownloadRequest_children hdepth hfile hmeets hcreate) hk
    exact hcomplete.keys.lt hchild hcreated
  · intro hend
    have hlast : (chkPerInode * i + (chkPerInode - 1) + 1) * chkShape.span depth =
        (i + 1) * chkShape.span (depth + 1) := by
      rw [span_succ']
      change (256 * i + 255 + 1) * _ = (i + 1) * (_ * 256)
      ring
    obtain ⟨_, hj, hlower, hupper⟩ := exists_last_dblock
      (c := chkPerInode * i + (chkPerInode - 1)) (by rw [hlast]; exact hmeets.2)
      (by rw [hlast]; exact hend)
    exact (hcomplete.leaf_of_child hdepth hfile hmeets (by decide) hj hlower hupper).1

theorem Complete.child (hk : k < chkPerInode)
    (hchild : Meets start length depth (chkPerInode * i + k)) :
    ∃ child, Complete start length depth (chkPerInode * i + k) child := by
  obtain ⟨_, hcreate⟩ := hcomplete.created
  have hmem := (mem_childKeys_iff_of_fits hmeets
    (hcomplete.fits hdepth hfile hmeets)).mpr ⟨hk, hchild⟩
  obtain ⟨child, hmemChild, hcreated⟩ := Forall₂.exists_right
    (createDownloadRequest_children hdepth hfile hmeets hcreate) hmem
  refine ⟨child, ⟨k, hcreated⟩, hcomplete.keys.child hmemChild, ?_⟩
  intro j hj hlower hupper
  obtain ⟨_, _, _, hcreated', hleaf⟩ :=
    hcomplete.leaf_of_child hdepth hfile hmeets hk hj hlower hupper
  cases hcreated.symm.trans hcreated'
  exact hleaf

end

theorem Meets.parent (hmeets : Meets start length depth i) :
    Meets start length (depth + 1) (i / chkPerInode) := by
  have hdiv : chkPerInode * (i / chkPerInode) + i % chkPerInode = i := div_add_mod i _
  have hmod : i % chkPerInode + 1 ≤ chkPerInode := mod_lt i (by decide)
  have hmul : (i % chkPerInode + 1) * chkShape.span depth ≤ chkPerInode * chkShape.span depth :=
    Nat.mul_le_mul_right _ hmod
  have hbefore := hmeets.1
  have hbehind := hmeets.2
  rw [← hdiv, child_offset] at hbefore
  rw [← hdiv, Nat.add_assoc, child_offset] at hbehind
  constructor
  · omega
  · rw [node_end]
    omega

theorem Complete.below (hroot : root ≤ 6) (hfile : start + length ≤ 2 ^ 63)
    (hend : start + length ≤ chkShape.span root) (hcomplete : Complete start length root 0 dr)
    (hle : depth ≤ root) (hmeets : Meets start length depth i) :
    ∃ dr', Complete start length depth i dr' := by
  induction hle using Nat.decreasingInduction generalizing i with
  | self =>
    -- the root is the only node of its level
    have hzero : i = 0 := by
      by_contra hne
      have hle : 1 * chkShape.span root ≤ i * chkShape.span root :=
        Nat.mul_le_mul_right _ (one_le_iff_ne_zero.mpr hne)
      have hbefore := hmeets.1
      omega
    rw [hzero]
    exact ⟨dr, hcomplete⟩
  | of_succ depth hlt ih =>
    obtain ⟨_, hparent⟩ := ih hmeets.parent
    have hdiv : chkPerInode * (i / chkPerInode) + i % chkPerInode = i := div_add_mod i _
    have hchild := hparent.child (by omega) hfile hmeets.parent
      (mod_lt i (by decide)) (by rw [hdiv]; exact hmeets)
    rw [hdiv] at hchild
    exact hchild

/-! ### Where every node fits, the tree is right -/

structure Right (size start length depth i : Nat) (dr : DownloadRequest) : Prop where
  sorted : (dr.leaves.map DownloadRequest.offset).Pairwise (· < ·)
  leaves : ∀ offset, offset ∈ dr.leaves.map DownloadRequest.offset ↔
    ∃ j, offset = j * dblockSize ∧ Meets start length 0 j ∧
      i * chkShape.span depth ≤ offset ∧ offset < (i + 1) * chkShape.span depth
  keys : ∀ parent ∈ dr.all, ∀ child ∈ parent.children, child.chkIdx < chkPerInode ∧
    ∃ blockSize, treeCalculateBlockSize size parent.offset parent.depth = some blockSize ∧
      (child.chkIdx + 1) * sizeofContentHashKey ≤ blockSize

variable {size : Nat}

theorem right_leaf (chkIdx : Nat) (hmeets : Meets start length 0 i) :
    Right size start length 0 i (.mk (i * chkShape.span 0) 0 chkIdx []) := by
  have hspan := chkShape.span_pos 0
  constructor
  · exact pairwise_singleton _ _
  · intro offset
    rw [leaves_of_leaf, map_singleton, mem_singleton]
    constructor
    · rintro rfl
      refine ⟨i, by rw [Shape.span_zero]; rfl, hmeets, le_refl _, ?_⟩
      exact mul_lt_mul_of_pos_right (Nat.lt_succ_self i) hspan
    · rintro ⟨j, rfl, _, hlower, hupper⟩
      have hge : i ≤ j := le_of_mul_le_mul_right hlower hspan
      have hlt : j < i + 1 := Nat.lt_of_mul_lt_mul_right hupper
      have heq : j = i := by omega
      rw [heq, Shape.span_zero]
      rfl
  · intro parent hparent child hchild
    cases mem_singleton.mp hparent
    cases hchild

theorem sorted_of_children (hdepth : depth + 1 ≤ 6)
    (hfile : start + length ≤ 2 ^ 63) (hmeets : Meets start length (depth + 1) i)
    (hcreate : Created start length (depth + 1) i chkIdx dr)
    (hright : ∀ k child, k ∈ childKeys start length depth i →
      Created start length depth (chkPerInode * i + k) k child →
      Right size start length depth (chkPerInode * i + k) child) :
    (dr.leaves.map DownloadRequest.offset).Pairwise (· < ·) := by
  have hchildren := createDownloadRequest_children hdepth hfile hmeets hcreate
  have hne : dr.depth ≠ 0 := by
    rw [(createDownloadRequest_fields hcreate).2.1]
    exact succ_ne_zero depth
  rw [DownloadRequest.leaves_eq hne, map_flatMap, pairwise_flatMap]
  constructor
  · intro child hchild
    obtain ⟨k, hk, hcreated⟩ := Forall₂.exists_left hchildren hchild
    exact (hright k child hk hcreated).sorted
  · have hboth := (forall₂_and_left
      (R := fun k child => Created start length depth (chkPerInode * i + k) k child)
      (p := fun k => k ∈ childKeys start length depth i) _ _).mpr ⟨fun _ hk => hk, hchildren⟩
    apply Forall₂.pairwise hboth (S := (· < ·))
    · exact pairwise_lt_range'
    · rintro k k' child child' ⟨hk, hcreated⟩ ⟨hk', hcreated'⟩ _ x hx y hy
      obtain ⟨_, _, _, _, _⟩ := ((hright k child hk hcreated).leaves x).mp hx
      obtain ⟨_, _, _, _, _⟩ := ((hright k' child' hk' hcreated').leaves y).mp hy
      have hle : (chkPerInode * i + k + 1) * chkShape.span depth ≤
          (chkPerInode * i + k') * chkShape.span depth := by
        apply Nat.mul_le_mul_right
        omega
      omega

theorem dblock_below (depth j : Nat) :
    j / chkPerInode ^ depth * chkShape.span depth ≤ j * dblockSize ∧
      (j + 1) * dblockSize ≤ (j / chkPerInode ^ depth + 1) * chkShape.span depth := by
  have hspan : chkShape.span depth = chkPerInode ^ depth * dblockSize := mul_comm _ _
  rw [hspan, ← Nat.mul_assoc, ← Nat.mul_assoc]
  constructor
  · exact Nat.mul_le_mul_right _ (div_mul_le_self _ _)
  · exact Nat.mul_le_mul_right _ (Nat.lt_mul_of_div_lt (Nat.lt_succ_self _)
      (Nat.pow_pos (by decide)))

theorem exists_child_of_dblock (hj : Meets start length 0 j)
    (hlower : i * chkShape.span (depth + 1) ≤ j * dblockSize)
    (hupper : j * dblockSize < (i + 1) * chkShape.span (depth + 1)) :
    ∃ k, k < chkPerInode ∧ Meets start length depth (chkPerInode * i + k) ∧
      (chkPerInode * i + k) * chkShape.span depth ≤ j * dblockSize ∧
      j * dblockSize < (chkPerInode * i + k + 1) * chkShape.span depth := by
  obtain ⟨hbelow, habove⟩ := dblock_below depth j
  generalize j / chkPerInode ^ depth = c at hbelow habove
  have hblock : (j + 1) * dblockSize = j * dblockSize + dblockSize := succ_mul _ _
  have hdblock : 0 < dblockSize := by decide
  have hge : chkPerInode * i < c + 1 := by
    apply Nat.lt_of_mul_lt_mul_right (a := chkShape.span depth)
    have hoffset := child_offset depth i 0
    rw [add_zero, zero_mul] at hoffset
    omega
  have hlt : c < chkPerInode * (i + 1) := by
    apply Nat.lt_of_mul_lt_mul_right (a := chkShape.span depth)
    have hoffset := child_offset depth (i + 1) 0
    rw [add_zero, zero_mul] at hoffset
    omega
  have hmul : chkPerInode * (i + 1) = chkPerInode * i + chkPerInode := mul_succ _ _
  have hc : chkPerInode * i + (c - chkPerInode * i) = c := by omega
  have hbefore := hj.1
  have hbehind := hj.2
  change j * dblockSize < _ at hbefore
  change _ < (j + 1) * dblockSize at hbehind
  refine ⟨c - chkPerInode * i, by omega, ?_⟩
  rw [hc]
  exact ⟨⟨by omega, by omega⟩, hbelow, by omega⟩

theorem key_in_block (hdepth : depth + 1 ≤ 6) (hsize : size ≤ 2 ^ 63)
    (hfile : start + length ≤ size) (hmeets : Meets start length (depth + 1) i)
    (hk : k < chkPerInode) (hchild : Meets start length depth (chkPerInode * i + k)) :
    ∃ blockSize, treeCalculateBlockSize size (i * chkShape.span (depth + 1)) (depth + 1) =
        some blockSize ∧ (k + 1) * sizeofContentHashKey ≤ blockSize := by
  have hnode : i < chkShape.count size (depth + 1) := by
    rw [Shape.lt_count_iff]
    have := hmeets.1
    omega
  have hcount : chkPerInode * i + k < chkShape.count size depth := by
    rw [Shape.lt_count_iff]
    have := hchild.1
    omega
  refine ⟨_, treeCalculateBlockSize_iblock (by omega) hdepth hnode, ?_⟩
  apply Nat.mul_le_mul_right
  rw [Shape.children, length_range']
  change k + 1 ≤ min chkPerInode (chkShape.count size depth - chkPerInode * i)
  omega

theorem right_inner (hdepth : depth + 1 ≤ 6) (hsize : size ≤ 2 ^ 63)
    (hfile : start + length ≤ size) (hmeets : Meets start length (depth + 1) i)
    (hfits : Fits start length depth i) (hcreate : Created start length (depth + 1) i chkIdx dr)
    (hright : ∀ k child, k ∈ childKeys start length depth i →
      Created start length depth (chkPerInode * i + k) k child →
      Right size start length depth (chkPerInode * i + k) child) :
    Right size start length (depth + 1) i dr := by
  have hrange : start + length ≤ 2 ^ 63 := by omega
  have hchildren := createDownloadRequest_children hdepth hrange hmeets hcreate
  obtain ⟨hoffset, hdepthEq, _⟩ := createDownloadRequest_fields hcreate
  constructor
  · exact sorted_of_children hdepth hrange hmeets hcreate hright
  · intro offset
    rw [leaf_of_created hdepth hrange hmeets hcreate]
    constructor
    · rintro ⟨k, hk, child, _, hcreated, hleaf⟩
      obtain ⟨j, heq, hj, hlower, hupper⟩ := ((hright k child hk hcreated).leaves offset).mp hleaf
      have hlt := ((mem_childKeys_iff_of_fits hmeets hfits).mp hk).1
      have hmul := child_end_le depth hlt
      rw [child_offset] at hlower
      rw [Nat.add_assoc, child_offset] at hupper
      rw [node_end]
      exact ⟨j, heq, hj, by omega, by omega⟩
    · rintro ⟨j, rfl, hj, hlower, hupper⟩
      obtain ⟨k, hk, hchild, hbelow, habove⟩ := exists_child_of_dblock hj hlower hupper
      have hmem := (mem_childKeys_iff_of_fits hmeets hfits).mpr ⟨hk, hchild⟩
      obtain ⟨child, hmemChild, hcreated⟩ := Forall₂.exists_right hchildren hmem
      refine ⟨k, hmem, child, hmemChild, hcreated, ?_⟩
      rw [(hright k child hmem hcreated).leaves]
      exact ⟨j, rfl, hj, hbelow, habove⟩
  · intro parent hparent child hchild
    rw [DownloadRequest.all_eq, mem_cons, mem_flatMap] at hparent
    rcases hparent with rfl | ⟨below, hbelow, hparent⟩
    · obtain ⟨k, hk, hcreated⟩ := Forall₂.exists_left hchildren hchild
      obtain ⟨hlt, hmeetsChild⟩ := (mem_childKeys_iff_of_fits hmeets hfits).mp hk
      rw [(createDownloadRequest_fields hcreated).2.2, hoffset, hdepthEq]
      exact ⟨hlt, key_in_block hdepth hsize hfile hmeets hlt hmeetsChild⟩
    · obtain ⟨k, hk, hcreated⟩ := Forall₂.exists_left hchildren hbelow
      exact (hright k below hk hcreated).keys parent hparent child hchild

theorem exists_right (hsize : size ≤ 2 ^ 63) (hfile : start + length ≤ size)
    (hlength : 0 < length) (hdepth : depth ≤ 6) (chkIdx : Nat)
    (hfits : ∀ d i, d + 1 ≤ depth → Meets start length (d + 1) i → Fits start length d i)
    (hmeets : Meets start length depth i) : ∃ dr, Created start length depth i chkIdx dr ∧
      Right size start length depth i dr := by
  induction depth generalizing chkIdx i with
  | zero => exact ⟨_, rfl, right_leaf chkIdx hmeets⟩
  | succ depth ih =>
    have hbelow : ∀ k ∈ childKeys start length depth i, ∃ child,
        Created start length depth (chkPerInode * i + k) k child ∧
        Right size start length depth (chkPerInode * i + k) child := by
      intro k hk
      apply ih (by omega) k
      · intro d i' hd
        exact hfits d i' (by omega)
      · exact meets_of_mem_childKeys hk
    have hnode := hfits depth i (le_refl _) hmeets
    obtain ⟨children, hchildren⟩ := exists_forall₂ fun k hk =>
      (hbelow k hk).imp fun _ => And.left
    have hcreate : createDownloadRequest start length (depth + 1) chkIdx
        (i * chkShape.span (depth + 1)) = _ :=
      (createDownloadRequest_succ_iff hdepth (by omega) hmeets).mpr
        ⟨blocksSkipped_lt_blocksToEnd_of_fits hlength hmeets hnode, children, rfl, hchildren⟩
    refine ⟨_, hcreate, right_inner hdepth hsize hfile hmeets hnode hcreate ?_⟩
    intro k child hk hcreated
    obtain ⟨_, hcreated', hright⟩ := hbelow k hk
    cases hcreated.symm.trans hcreated'
    exact hright

end

theorem fits_of_covers {size start length : Nat}
    (hfile : start + length ≤ size) (hsize : size ≤ 2 ^ 63)
    (hcreate : createDownloadRequest start length (computeDepth size - 1) 0 0 = some dr)
    (hcovers : dr.Covers size start length) {depth i : Nat} (hdepth : depth + 1 < computeDepth size)
    (hmeets : Meets start length (depth + 1) i) : Fits start length depth i := by
  obtain ⟨_, _, _, _⟩ := computeDepth_spec hsize
  have hcomplete : Complete start length (computeDepth size - 1) 0 dr := by
    refine ⟨⟨0, by rwa [zero_mul]⟩, ?_, ?_⟩
    · intro parent hparent child hchild
      exact (hcovers.keys parent hparent child hchild).1
    · intro j hj _ _
      exact (hcovers.leaves _).mpr ⟨j, rfl, hj⟩
  have hle : depth + 1 ≤ computeDepth size - 1 := by omega
  obtain ⟨_, hcomplete'⟩ := hcomplete.below (by omega) (by omega) (by omega) hle hmeets
  exact hcomplete'.fits (by omega) (by omega) hmeets

theorem exists_covers_of_fits {size start length : Nat} (hlength : 0 < length)
    (hfile : start + length ≤ size) (hsize : size ≤ 2 ^ 63)
    (hfits : ∀ depth i, depth + 1 < computeDepth size → Meets start length (depth + 1) i →
      Fits start length depth i) :
    ∃ dr, createDownloadRequest start length (computeDepth size - 1) 0 0 = some dr ∧
      dr.Covers size start length := by
  obtain ⟨_, _, _, _⟩ := computeDepth_spec hsize
  have hmeets : Meets start length (computeDepth size - 1) 0 := by
    constructor <;> omega
  obtain ⟨dr, hcreate, hright⟩ := exists_right hsize hfile hlength
    (show computeDepth size - 1 ≤ 6 by omega) 0
    (fun depth i hdepth => hfits depth i (by omega)) hmeets
  rw [Created, zero_mul] at hcreate
  refine ⟨dr, hcreate, hright.sorted.imp (fun hlt => ne_of_lt hlt), ?_, hright.keys⟩
  intro offset
  rw [hright.leaves]
  constructor
  · rintro ⟨j, heq, hj, _⟩
    exact ⟨j, heq, hj⟩
  · rintro ⟨j, rfl, hj⟩
    refine ⟨j, rfl, hj, by omega, ?_⟩
    have hbefore := hj.1
    change j * dblockSize < _ at hbefore
    omega

/-- The request tree of a range asks for the DBLOCKs of the range, and for nothing
else, exactly if at every node that the range goes beyond the children are cut at
the end of the node. -/
theorem covers_iff_fits {size start length : Nat} (hlength : 0 < length)
    (hfile : start + length ≤ size) (hsize : size ≤ 2 ^ 62) :
    (∃ dr, createDownloadRequest start length (computeDepth size - 1) 0 0 = some dr ∧
        dr.Covers size start length) ↔
      ∀ depth i, depth + 1 < computeDepth size → Meets start length (depth + 1) i →
        Fits start length depth i := by
  have hsize' : size ≤ 2 ^ 63 := by omega
  constructor
  · rintro ⟨_, hcreate, hcovers⟩ _ _ hdepth hmeets
    exact fits_of_covers hfile hsize' hcreate hcovers hdepth hmeets
  · exact exists_covers_of_fits hlength hfile hsize'

theorem covers_iff_fits_threeBlocks :
    0 < 50000 ∧ 40000 + 50000 ≤ 100000 ∧ 100000 ≤ 2 ^ 62 ∧
      ((∃ dr, createDownloadRequest 40000 50000 (computeDepth 100000 - 1) 0 0 = some dr ∧
          dr.Covers 100000 40000 50000) ↔
        ∀ depth i, depth + 1 < computeDepth 100000 → Meets 40000 50000 (depth + 1) i →
          Fits 40000 50000 depth i) :=
  ⟨by decide, by decide, by decide, covers_iff_fits (by decide) (by decide) (by decide)⟩

/-- A range from the second DBLOCK of the first IBLOCK to the end of the first
DBLOCK of the second: the first IBLOCK has a child for a key it does not have. -/
theorem range_over_two_iblocks_not_covered :
    ¬ ∃ dr, createDownloadRequest 32768 8388608 (computeDepth 8421376 - 1) 0 0 = some dr ∧
      dr.Covers 8421376 32768 8388608 := by
  rintro ⟨_, hcreate, hcovers⟩
  have hfits : Fits 32768 8388608 0 0 := by
    apply fits_of_covers (by decide) (by decide) hcreate hcovers
    · decide
    · decide
  exact absurd hfits (by decide)

end Gnunet.Fs
