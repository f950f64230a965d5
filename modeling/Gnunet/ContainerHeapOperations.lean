import Gnunet.ContainerHeapRefinement

/-!
# Every call keeps the nodes of a heap a tree

Each function of the heap is a function on trees: insertion grafts a single node,
removal grafts the children of the removed node onto what is above it.  A run of
calls therefore ends in a heap that is again a tree in heap order, and no call
fails.
-/

namespace Gnunet.Container

open BinaryTree HeapOrderedTree List Option

variable {Ptr Element Cost : Type} [DecidableEq Ptr] [LinearOrder Cost]

namespace Heap

/-! ## Joining two trees -/

variable {heap heap' : Heap Ptr Element Cost}
  {tree other left right : BinaryTree (Cell Ptr Element Cost)}

def SameHead (heap heap' : Heap Ptr Element Cost) : Prop :=
  heap'.size = heap.size ∧ heap'.order = heap.order ∧ heap'.walkPos = heap.walkPos

structure Joined (heap heap' : Heap Ptr Element Cost)
    (tree other : BinaryTree (Cell Ptr Element Cost)) : Prop where
  root : heap'.root = rootPtr (graftCells heap.order tree other)
  stored : heap'.Stored none 0 (graftCells heap.order tree other)
  frame : ∀ ptr, ptr ∉ ptrs tree → ptr ∉ ptrs other → heap'.read ptr = heap.read ptr
  head : heap.SameHead heap'

omit [DecidableEq Ptr] in
theorem ptrs_graftCells (order : HeapOrder) (tree other : BinaryTree (Cell Ptr Element Cost)) :
    (ptrs (graftCells order tree other)).Perm (ptrs tree ++ ptrs other) := by
  have hlabels : (labels (graftCells order tree other)).Perm (labels tree ++ labels other) :=
    labels_graft order.above_total tree other
  have hptrs := hlabels.map Cell.ptr
  rw [map_append] at hptrs
  exact hptrs

theorem attach_spec (hroot : heap.root = rootPtr tree)
    (htree : heap.Stored none 0 tree) (hother : heap.Stored none 0 other)
    (hnodup : (ptrs tree ++ ptrs other).Nodup) (hnew : rootPtr other = some new) :
    ∃ heap', heap.attach new = some heap' ∧ heap.Joined heap' tree other := by
  rw [attach]
  cases tree with
  | nil =>
    rw [hroot]
    refine ⟨_, rfl, ?_, ?_, fun _ _ _ => rfl, rfl, rfl, rfl⟩
    · rw [graftCells, graft_nil_left, hnew]
    · rw [graftCells, graft_nil_left]
      exact hother.congr fun _ _ => rfl
  | node a l r =>
    have hready : heap.Ready none 0 (node a l r) other := by
      refine ⟨htree, hother, hnodup, by simp, fun ptr hptr => ?_, by simp⟩
      exact hroot.trans hptr
    obtain ⟨heap', hinsert, hdone⟩ := insertNode_spec hready rfl hnew (.inl rfl)
    rw [hroot]
    refine ⟨heap', hinsert, ?_, hdone.stored, ?_, hdone.size, hdone.order, hdone.walkPos⟩
    · rw [hdone.root, if_pos rfl]
    · exact fun ptr htree hother => hdone.frame ptr htree hother (by simp)

omit [LinearOrder Cost] in
theorem setParent_spec {root : Ptr} (htree : heap.Stored parent 0 tree)
    (hnodup : (ptrs tree).Nodup) (hroot : rootPtr tree = some root) :
    ∃ heap', heap.setParent root none = some heap' ∧ heap'.Stored none 0 tree ∧
      (∀ ptr, ptr ∉ ptrs tree → heap'.read ptr = heap.read ptr) ∧
      heap'.root = heap.root ∧ heap.SameHead heap' := by
  cases tree with
  | nil => cases hroot
  | node a l r =>
    cases hroot
    obtain ⟨hread, hleft, hright⟩ := htree
    rw [ptrs_node] at hnodup
    have hne : ∀ ptr ∈ ptrs l ++ ptrs r, ptr ≠ a.ptr := by
      rintro ptr hptr rfl
      exact (nodup_cons.mp hnodup).1 hptr
    refine ⟨_, update_eq hread, ⟨read_write_self, ?_, ?_⟩, ?_, rfl, rfl, rfl, rfl⟩
    · exact hleft.congr fun ptr hptr => read_write_ne (hne ptr (mem_append_left _ hptr))
    · exact hright.congr fun ptr hptr => read_write_ne (hne ptr (mem_append_right _ hptr))
    · intro ptr hptr
      apply read_write_ne
      rintro rfl
      exact hptr (by simp)

theorem joinChildren_spec (hleft : heap.Stored parent 0 left)
    (hright : heap.Stored parent 0 right) (hnodup : (ptrs left ++ ptrs right).Nodup) :
    ∃ heap', heap.joinChildren (rootPtr left) (rootPtr right) = some heap' ∧
      heap.Joined heap' left right := by
  obtain ⟨hnodupLeft, hnodupRight, hdisjoint⟩ := nodup_append'.mp hnodup
  cases left with
  | nil =>
    cases right with
    | nil =>
      refine ⟨_, rfl, ?_, ?_, fun _ _ _ => rfl, rfl, rfl, rfl⟩
      · rw [graftCells, graft_nil_left]
        rfl
      · rw [graftCells, graft_nil_left]
        trivial
    | node b l r =>
      have hright' : Stored { heap with root := some b.ptr } parent 0 (node b l r) :=
        hright.congr fun _ _ => rfl
      obtain ⟨heap', hset, hstored, hframe, hroot, hhead⟩ := setParent_spec hright' hnodupRight rfl
      refine ⟨heap', hset, ?_, ?_, fun ptr _ hother => hframe ptr hother, hhead⟩
      · rw [graftCells, graft_nil_left, hroot]
        rfl
      · rw [graftCells, graft_nil_left]
        exact hstored
  | node a l r =>
    have hleft' : Stored { heap with root := some a.ptr } parent 0 (node a l r) :=
      hleft.congr fun _ _ => rfl
    obtain ⟨next, hset, hstored, hframe, hroot, hhead⟩ := setParent_spec hleft' hnodupLeft rfl
    cases right with
    | nil =>
      refine ⟨next, hset, ?_, ?_, fun ptr htree _ => hframe ptr htree, hhead⟩
      · rw [graftCells, graft_nil_right, hroot]
        rfl
      · rw [graftCells, graft_nil_right]
        exact hstored
    | node b l' r' =>
      have hright' : next.Stored parent 0 (node b l' r') := by
        apply hright.congr
        intro ptr hptr
        exact hframe ptr fun hmem => hdisjoint hmem hptr
      obtain ⟨loose, hset', hstored', hframe', hroot', hhead'⟩ :=
        setParent_spec hright' hnodupRight rfl
      have hready : loose.Ready none 0 (node a l r) (node b l' r') := by
        refine ⟨?_, hstored', hnodup, by simp, fun ptr hptr => ?_, by simp⟩
        · exact hstored.congr fun ptr hptr => hframe' ptr fun hmem => hdisjoint hptr hmem
        · exact (hroot'.trans hroot).trans hptr
      obtain ⟨heap', hinsert, hdone⟩ := insertNode_spec hready rfl rfl (.inl rfl)
      have horder : loose.order = heap.order := hhead'.2.1.trans hhead.2.1
      refine ⟨heap', ?_, ?_, ?_, ?_, ?_⟩
      · rw [rootPtr_node, rootPtr_node, joinChildren, hset, bind_some, hset', bind_some, hinsert]
      · rw [hdone.root, if_pos rfl, horder]
      · rw [← horder]
        exact hdone.stored
      · intro ptr htree hother
        rw [hdone.frame ptr htree hother (by simp), hframe' ptr hother, hframe ptr htree]
        rfl
      · exact ⟨hdone.size.trans (hhead'.1.trans hhead.1), hdone.order.trans horder,
          hdone.walkPos.trans (hhead'.2.2.trans hhead.2.2)⟩

/-! ## Paths in memory -/

def pathPtr (path : List (Frame (Cell Ptr Element Cost))) : Option Ptr :=
  path.head?.map fun frame => frame.label.ptr

def pathPtrs (path : List (Frame (Cell Ptr Element Cost))) : List Ptr :=
  (pathLabels path).map Cell.ptr

def StoredPath (heap : Heap Ptr Element Cost) :
    List (Frame (Cell Ptr Element Cost)) → Option Ptr → Nat → Prop
  | [], hole, _ => heap.root = hole
  | frame :: path, hole, count =>
      heap.read frame.label.ptr = some (frameNode frame (pathPtr path) hole
        (UInt32.ofNat (count + frame.sibling.numNodes))) ∧
      heap.Stored (some frame.label.ptr) 0 frame.sibling ∧
      heap.StoredPath path (some frame.label.ptr) (count + frame.sibling.numNodes + 1)

section

variable {path : List (Frame (Cell Ptr Element Cost))} {count : Nat}
omit [LinearOrder Cost]

omit [DecidableEq Ptr] in
theorem pathPtrs_cons :
    pathPtrs (frame :: path) = frame.label.ptr :: (ptrs frame.sibling ++ pathPtrs path) := by
  rw [pathPtrs, pathLabels, flatMap_cons, map_append, map_cons]
  rfl

omit [DecidableEq Ptr] in
theorem ptrs_plug (path : List (Frame (Cell Ptr Element Cost)))
    (tree : BinaryTree (Cell Ptr Element Cost)) :
    (ptrs (plug path tree)).Perm (ptrs tree ++ pathPtrs path) := by
  have hlabels := (labels_plug path tree).map Cell.ptr
  rw [map_append] at hlabels
  exact hlabels

theorem StoredPath.congr (hpath : heap.StoredPath path hole count) (hroot : heap'.root = heap.root)
    (hsame : ∀ ptr ∈ pathPtrs path, heap'.read ptr = heap.read ptr) :
    heap'.StoredPath path hole count := by
  induction path generalizing hole count with
  | nil => exact hroot.trans hpath
  | cons frame path ih =>
    obtain ⟨hread, hsibling, hrest⟩ := hpath
    rw [pathPtrs_cons] at hsame
    refine ⟨?_, hsibling.congr fun ptr hptr => ?_, ih hrest fun ptr hptr => ?_⟩
    · rw [hsame _ mem_cons_self]
      exact hread
    · exact hsame ptr (mem_cons_of_mem _ (mem_append_left _ hptr))
    · exact hsame ptr (mem_cons_of_mem _ (mem_append_right _ hptr))

theorem stored_plug_iff :
    heap.root = rootPtr (plug path tree) ∧ heap.Stored none 0 (plug path tree) ↔
      heap.StoredPath path (rootPtr tree) tree.numNodes ∧ heap.Stored (pathPtr path) 0 tree := by
  induction path generalizing tree with
  | nil => exact Iff.rfl
  | cons frame path ih =>
    rw [plug, ih, rootPtr_fill, numNodes_fill, stored_fill_iff, Nat.add_zero]
    constructor
    · rintro ⟨hrest, hread, htree, hsibling⟩
      exact ⟨⟨hread, hsibling, hrest⟩, htree⟩
    · rintro ⟨⟨hread, hsibling, hrest⟩, htree⟩
      exact ⟨hrest, hread, htree, hsibling⟩

theorem StoredPath.linked (hpath : heap.StoredPath path (some hole) count) :
    heap.Linked (pathPtr path) hole := by
  cases path with
  | nil => exact hpath
  | cons frame path =>
    refine ⟨_, hpath.1, ?_⟩
    obtain ⟨_, holeLeft, _⟩ := frame
    cases holeLeft with
    | true => exact .inl rfl
    | false => exact .inr rfl

theorem shrinkAncestors_spec
    (hpath : heap.StoredPath path hole (count + 1)) (hnodup : (pathPtrs path).Nodup)
    (hread : heap.read ptr = some value) (hparent : value.parent = pathPtr path)
    (hrounds : path.length < rounds) :
    ∃ heap', shrinkAncestors rounds heap ptr = some heap' ∧ heap'.StoredPath path hole count ∧
      (∀ ptr, ptr ∉ pathPtrs path → heap'.read ptr = heap.read ptr) ∧
      heap'.root = heap.root ∧ heap.SameHead heap' := by
  induction path generalizing heap hole count rounds ptr value with
  | nil =>
    obtain ⟨left, rfl⟩ : ∃ left, rounds = left + 1 := ⟨rounds - 1, by omega⟩
    refine ⟨heap, ?_, hpath, fun _ _ => rfl, rfl, rfl, rfl, rfl⟩
    rw [shrinkAncestors, hread, bind_some, hparent]
    rfl
  | cons frame path ih =>
    obtain ⟨left, rfl⟩ : ∃ left, rounds = left + 1 := ⟨rounds - 1, by omega⟩
    obtain ⟨hframe, hsibling, hrest⟩ := hpath
    rw [pathPtrs_cons, nodup_cons] at hnodup
    obtain ⟨hlabel, hnodupRest⟩ := hnodup
    obtain ⟨-, hnodupPath, hdisjoint⟩ := nodup_append'.mp hnodupRest
    set next := heap.write frame.label.ptr (frameNode frame (pathPtr path) hole
      (UInt32.ofNat (count + frame.sibling.numNodes))) with hnext
    have hsame : ∀ ptr, ptr ≠ frame.label.ptr → next.read ptr = heap.read ptr :=
      fun ptr hne => read_write_ne hne
    have hrest' : next.StoredPath path (some frame.label.ptr)
        (count + frame.sibling.numNodes + 1 + 1) := by
      rw [show count + frame.sibling.numNodes + 1 + 1 =
        count + 1 + frame.sibling.numNodes + 1 by omega]
      refine hrest.congr (show next.root = heap.root from rfl) fun ptr hptr => ?_
      apply hsame
      rintro rfl
      exact hlabel (mem_append_right _ hptr)
    have hupdate : heap.update frame.label.ptr
        (fun p => { p with treeSize := p.treeSize - 1 }) = some next := by
      rw [update_eq hframe, hnext]
      congr 2
      simp only [frameNode, HeapNode.mk.injEq, true_and]
      rw [Nat.add_right_comm, UInt32.ofNat_add]
      grind
    obtain ⟨heap', hloop, hpath', hframe', hroot', hhead'⟩ :=
      ih hrest' hnodupPath read_write_self rfl (by simpa using hrounds)
    refine ⟨heap', ?_, ⟨?_, ?_, hpath'⟩, ?_, hroot', hhead'⟩
    · rw [shrinkAncestors, hread, bind_some, hparent]
      show ((heap.update frame.label.ptr _).bind _) = _
      rw [hupdate, bind_some, hloop]
    · rw [hframe' _ fun hmem => hlabel (mem_append_right _ hmem), hnext, read_write_self]
    · apply hsibling.congr
      intro ptr hptr
      rw [hframe' ptr fun hmem => hdisjoint hptr hmem]
      apply hsame
      rintro rfl
      exact hlabel (mem_append_left _ hptr)
    · intro ptr hptr
      rw [pathPtrs_cons, mem_cons, mem_append, not_or, not_or] at hptr
      rw [hframe' ptr hptr.2.2]
      exact hsame ptr hptr.1

/-! ## Taking a node out -/

/-- The other child of the node above the hole is not a node outside of the path. -/
theorem StoredPath.loose {hole root ptr : Ptr}
    (hpath : heap.StoredPath path (some hole) count) (hptr : pathPtr path = some ptr)
    (habove : heap.read ptr = some above) (hne : root ≠ hole) (hroot : root ∉ pathPtrs path) :
    above.leftChild ≠ some root := by
  cases path with
  | nil => cases hptr
  | cons frame path =>
    cases hptr
    cases hpath.1.symm.trans habove
    rw [pathPtrs_cons] at hroot
    intro hleft
    obtain ⟨_, holeLeft, _⟩ := frame
    cases holeLeft with
    | true =>
      cases hleft
      exact hne rfl
    | false =>
      apply hroot
      exact mem_cons_of_mem _ (mem_append_left _ (rootPtr_mem hleft))

theorem childSize_spec (htree : heap.Stored parent 0 tree) :
    heap.childSize (rootPtr tree) = some (UInt32.ofNat tree.numNodes) := by
  cases tree with
  | nil => rfl
  | node a l r =>
    rw [rootPtr_node, childSize, htree.1, map_some, numNodes, Nat.add_zero,
      UInt32.ofNat_add (_ + _) 1, UInt32.add_comm]
    rfl

omit [DecidableEq Ptr] in
theorem pathPtr_mem (hptr : pathPtr path = some ptr) : ptr ∈ pathPtrs path := by
  cases path with
  | nil => cases hptr
  | cons frame path =>
    cases hptr
    exact mem_cons_self

end

section

variable {parent : Option Ptr} {path : List (Frame (Cell Ptr Element Cost))} {extra count : Nat}
  {a b : Cell Ptr Element Cost}

omit [LinearOrder Cost] in
/-- A child is taken off its parent, and its nodes off the size of its new parent. -/
theorem exists_shrunk
    (htree : heap.Stored (pathPtr path) ((node b left right).numNodes + extra) tree)
    (ha : root? tree = some a) (hother : heap.Stored parent 0 (node b left right))
    (hpath : heap.StoredPath path (some a.ptr) count)
    (hnodup : (ptrs tree ++ ptrs (node b left right) ++ pathPtrs path).Nodup) :
    ∃ first c next, heap.setParent b.ptr none = some first ∧ first.read b.ptr = some c ∧
      first.update a.ptr (fun p => { p with treeSize := p.treeSize - (1 + c.treeSize) }) =
        some next ∧
      next.Ready (pathPtr path) extra tree (node b left right) ∧
      (∀ ptr, ptr ∉ ptrs tree → ptr ∉ ptrs (node b left right) → next.read ptr = heap.read ptr) ∧
      next.root = heap.root ∧ heap.SameHead next := by
  obtain ⟨hnodupBoth, -, hpathDisjoint⟩ := nodup_append'.mp hnodup
  obtain ⟨hnodupTree, hnodupOther, hdisjoint⟩ := nodup_append'.mp hnodupBoth
  obtain ⟨first, hset, hstored, hframe, hroot, hhead⟩ := setParent_spec hother hnodupOther rfl
  cases tree with
  | nil => cases ha
  | node a l r =>
    cases ha
    obtain ⟨hread, hleft, hright⟩ := htree
    rw [ptrs_node, nodup_cons] at hnodupTree
    set next := first.write a.ptr ⟨pathPtr path, rootPtr l, rootPtr r, a.element, a.cost,
      UInt32.ofNat (l.numNodes + r.numNodes + extra)⟩ with hnext
    have hsame : ∀ ptr, ptr ≠ a.ptr → ptr ∉ ptrs (node b left right) →
        next.read ptr = heap.read ptr :=
      fun ptr hptr hother => (read_write_ne hptr).trans (hframe ptr hother)
    have hinside : ∀ ptr ∈ ptrs l ++ ptrs r, next.read ptr = heap.read ptr := by
      intro ptr hptr
      apply hsame ptr (fun heq => hnodupTree.1 (heq ▸ hptr))
      apply hdisjoint
      rw [ptrs_node]
      exact mem_cons_of_mem _ hptr
    have hoff : ∀ ptr ∈ pathPtrs path,
        ptr ∉ ptrs (node a l r) ∧ ptr ∉ ptrs (node b left right) := by
      intro ptr hptr
      exact ⟨fun hmem => hpathDisjoint (mem_append_left _ hmem) hptr,
        fun hmem => hpathDisjoint (mem_append_right _ hmem) hptr⟩
    have hframe' : ∀ ptr, ptr ∉ ptrs (node a l r) → ptr ∉ ptrs (node b left right) →
        next.read ptr = heap.read ptr := by
      intro ptr htree hother
      apply hsame ptr _ hother
      rintro rfl
      exact htree (by simp)
    have hpath' : next.StoredPath path (some a.ptr) count :=
      hpath.congr hroot fun ptr hptr => hframe' ptr (hoff ptr hptr).1 (hoff ptr hptr).2
    refine ⟨first, _, next, hset, hstored.1, ?_, ?_, hframe', hroot, hhead⟩
    · have hread' := (hframe a.ptr fun hmem => hdisjoint (by simp) hmem).trans hread
      rw [update_eq hread', hnext]
      congr 2
      simp only [HeapNode.mk.injEq, true_and, numNodes, UInt32.ofNat_add]
      grind
    · refine ⟨⟨read_write_self, ?_, ?_⟩, ?_, hnodupBoth, ?_, ?_, ?_⟩
      · exact hleft.congr fun ptr hptr => hinside ptr (mem_append_left _ hptr)
      · exact hright.congr fun ptr hptr => hinside ptr (mem_append_right _ hptr)
      · apply hstored.congr
        intro ptr hptr
        apply read_write_ne
        rintro rfl
        exact hdisjoint (by simp) hptr
      · exact fun ptr hptr => hoff ptr (pathPtr_mem hptr)
      · rintro ptr ⟨⟩
        exact hpath'.linked
      · rintro ptr above hptr habove root ⟨⟩
        apply hpath'.loose hptr habove
        · intro heq
          exact hdisjoint (by simp) (by simp [heq] : a.ptr ∈ ptrs (node b left right))
        · exact fun hmem => (hoff b.ptr hmem).2 (by simp)

/-- A subtree goes below a node that is above it and whose size counts it already. -/
theorem reinsert_spec (htree : heap.Stored (pathPtr path) (other.numNodes + extra) tree)
    (ha : root? tree = some a) (hother : heap.Stored parent 0 other)
    (hpath : heap.StoredPath path (some a.ptr) count)
    (hnodup : (ptrs tree ++ ptrs other ++ pathPtrs path).Nodup)
    (hbelow : ∀ b ∈ root? other, heap.order.cellAbove a b) :
    ∃ heap', heap.reinsert a.ptr (rootPtr other) = some heap' ∧
      heap'.Stored (pathPtr path) extra (graftCells heap.order tree other) ∧
      (∀ ptr, ptr ∉ ptrs tree → ptr ∉ ptrs other → heap'.read ptr = heap.read ptr) ∧
      heap'.root = heap.root ∧ heap.SameHead heap' := by
  cases other with
  | nil =>
    refine ⟨heap, rfl, ?_, fun _ _ _ => rfl, rfl, rfl, rfl, rfl⟩
    rw [graftCells, graft_nil_right]
    rw [numNodes, Nat.zero_add] at htree
    exact htree
  | node b left right =>
    obtain ⟨_, _, next, hset, hread, hupdate, hready, hframe, hroot, hhead⟩ :=
      exists_shrunk htree ha hother hpath hnodup
    have horder : next.order = heap.order := hhead.2.1
    have htreeRoot : rootPtr tree = some a.ptr := by rw [rootPtr, ha, map_some]
    have hlinked := hready.linked a.ptr htreeRoot
    obtain ⟨heap', hinsert, hdone⟩ := insertNode_spec hready htreeRoot rfl (.inr (by
      rw [ha, horder]
      rintro _ ⟨⟩
      exact hbelow))
    have hkept : rootPtr (graftCells next.order tree (node b left right)) = some a.ptr := by
      rw [horder, rootPtr, graftCells, root?_graft ha hbelow, map_some]
    refine ⟨heap', ?_, ?_, ?_, ?_, ?_⟩
    · rw [rootPtr_node, reinsert, hset, bind_some, hread, bind_some, hupdate, bind_some, hinsert]
    · rw [← horder]
      exact hdone.stored
    · intro ptr htree hother
      rw [← hframe ptr htree hother]
      by_cases hptr : pathPtr path = some ptr
      · -- the root stays where it was, so its parent is not changed
        rw [hptr] at hlinked
        obtain ⟨value, hvalue, hchild⟩ := hlinked
        rw [hdone.parentNode ptr a.ptr value hptr htreeRoot hvalue, hkept,
          replaceChild_self hchild, hvalue]
      · exact hdone.frame ptr htree hother hptr
    · rw [hdone.root, ← hroot]
      split_ifs with hnone
      · rw [hnone] at hlinked
        rw [hkept]
        exact Eq.symm hlinked
      · rfl
    · exact ⟨hdone.size.trans hhead.1, hdone.order.trans horder, hdone.walkPos.trans hhead.2.2⟩

end

/-- The children of a node that is not the root go below its parent. -/
theorem replaceNode_below
    (hpath : heap.StoredPath (frame :: path) (some ptr) (left.numNodes + right.numNodes))
    (hleft : heap.Stored (some ptr) 0 left) (hright : heap.Stored (some ptr) 0 right)
    (hnodup : (ptr :: (ptrs (frame.fill nil) ++ ptrs left ++ ptrs right ++ pathPtrs path)).Nodup)
    (hleftBelow : ∀ b ∈ root? left, heap.order.cellAbove frame.label b)
    (hrightBelow : ∀ b ∈ root? right, heap.order.cellAbove frame.label b) :
    ∃ heap', heap.replaceNode ptr (some frame.label.ptr) (rootPtr left) (rootPtr right) =
        some heap' ∧ heap'.StoredPath path (some frame.label.ptr)
        (left.numNodes + right.numNodes + frame.sibling.numNodes + 1) ∧
      heap'.Stored (pathPtr path) 0 (graftCells heap.order
        (graftCells heap.order (frame.fill nil) left) right) ∧
      (∀ ptr, ptr ∉ ptrs (frame.fill nil) → ptr ∉ ptrs left → ptr ∉ ptrs right →
        heap'.read ptr = heap.read ptr) ∧ heap'.root = heap.root ∧ heap.SameHead heap' := by
  obtain ⟨hframe, hsibling, hrest⟩ := hpath
  obtain ⟨hout, hnodup⟩ := nodup_cons.mp hnodup
  obtain ⟨hnodupTrees, -, hpathDisjoint⟩ := nodup_append'.mp hnodup
  obtain ⟨hnodupFirst, -, hrightDisjoint⟩ := nodup_append'.mp hnodupTrees
  obtain ⟨hnodupFrame, -, hleftDisjoint⟩ := nodup_append'.mp hnodupFirst
  have hperm : (ptrs (frame.fill nil)).Perm (frame.label.ptr :: ptrs frame.sibling) :=
    (labels_fill frame nil).map Cell.ptr
  have hlabel : frame.label.ptr ∈ ptrs (frame.fill nil) := hperm.mem_iff.mpr mem_cons_self
  have hsiblingMem : ∀ x ∈ ptrs frame.sibling, x ∈ ptrs (frame.fill nil) :=
    fun x hx => hperm.mem_iff.mpr (mem_cons_of_mem _ hx)
  set first := heap.write frame.label.ptr (frameNode frame (pathPtr path) none
    (UInt32.ofNat (left.numNodes + right.numNodes + frame.sibling.numNodes))) with hfirst
  have hupdate : (heap.update frame.label.ptr fun p => p.replaceChild ptr none) = some first := by
    rw [update_eq hframe, replaceChild_frameNode]
    intro hroot
    apply hout
    simp only [mem_append]
    exact .inl (.inl (.inl (hsiblingMem _ (rootPtr_mem hroot))))
  have hsame : ∀ x, x ≠ frame.label.ptr → first.read x = heap.read x := fun x hx => read_write_ne hx
  have hfill : first.Stored (pathPtr path) (left.numNodes + right.numNodes) (frame.fill nil) := by
    refine stored_fill_iff.mpr ⟨?_, trivial, ?_⟩
    · rw [hfirst, read_write_self, rootPtr_nil, numNodes, Nat.zero_add,
        Nat.add_comm frame.sibling.numNodes]
    · apply hsibling.congr
      intro x hx
      apply hsame
      rintro rfl
      exact (nodup_cons.mp (hperm.nodup_iff.mp hnodupFrame)).1 hx
  have hleft' : first.Stored (some ptr) 0 left :=
    hleft.congr fun x hx => hsame x fun heq => hleftDisjoint hlabel (heq ▸ hx)
  have hright' : first.Stored (some ptr) 0 right := hright.congr fun x hx => hsame x fun heq =>
      hrightDisjoint (mem_append_left _ hlabel) (heq ▸ hx)
  have hrest' := hrest.congr (show first.root = heap.root from rfl) fun x hx =>
    hsame x fun heq => hpathDisjoint (mem_append_left _ (mem_append_left _ hlabel)) (heq ▸ hx)
  obtain ⟨second, hinsert, hstored, hframe', hroot, hhead⟩ :=
    reinsert_spec hfill (root?_fill frame nil) hleft' hrest'
      (hnodup.sublist ((sublist_append_left _ _).append_right _)) hleftBelow
  have hright'' : second.Stored (some ptr) 0 right := by
    apply hright'.congr
    intro x hx
    apply hframe'
    · exact fun hmem => hrightDisjoint (mem_append_left _ hmem) hx
    · exact fun hmem => hrightDisjoint (mem_append_right _ hmem) hx
  have hrest'' := hrest'.congr hroot fun x hx => by
    apply hframe'
    · exact fun hmem => hpathDisjoint (mem_append_left _ (mem_append_left _ hmem)) hx
    · exact fun hmem => hpathDisjoint (mem_append_left _ (mem_append_right _ hmem)) hx
  have hboth := ptrs_graftCells first.order (frame.fill nil) left
  have horder : second.order = heap.order := hhead.2.1
  have hnotBoth : ∀ x, x ∉ ptrs (frame.fill nil) → x ∉ ptrs left →
      x ∉ ptrs (graftCells first.order (frame.fill nil) left) := by
    intro x hfillNot hleftNot hmem
    exact (mem_append.mp (hboth.mem_iff.mp hmem)).elim hfillNot hleftNot
  have hkept : root? (graftCells first.order (frame.fill nil) left) = some frame.label :=
    root?_graft (root?_fill frame nil) hleftBelow
  rw [← Nat.add_zero right.numNodes] at hstored
  obtain ⟨third, hinsert', hstored', hframe'', hroot', hhead'⟩ :=
    reinsert_spec hstored hkept hright'' hrest''
      (((hboth.append_right _).append_right _).nodup_iff.mpr hnodup) (by rwa [horder])
  refine ⟨third, ?_, ?_, ?_, ?_, hroot'.trans hroot, ?_⟩
  · rw [replaceNode, hupdate, bind_some, hinsert, bind_some, hinsert']
  · refine hrest''.congr hroot' fun x hx => hframe'' x (hnotBoth x ?_ ?_) ?_
    · exact fun hmem => hpathDisjoint (mem_append_left _ (mem_append_left _ hmem)) hx
    · exact fun hmem => hpathDisjoint (mem_append_left _ (mem_append_right _ hmem)) hx
    · exact fun hmem => hpathDisjoint (mem_append_right _ hmem) hx
  · rw [horder] at hstored'
    exact hstored'
  · intro x hfillNot hleftNot hrightNot
    rw [hframe'' x (hnotBoth x hfillNot hleftNot) hrightNot, hframe' x hfillNot hleftNot]
    exact hsame x fun heq => hfillNot (heq ▸ hlabel)
  · exact ⟨hhead'.1.trans hhead.1, hhead'.2.1.trans horder, hhead'.2.2.trans hhead.2.2⟩

structure Unlinked (heap heap' : Heap Ptr Element Cost) (cell : Cell Ptr Element Cost)
    (tree tree' : BinaryTree (Cell Ptr Element Cost)) : Prop where
  root : heap'.root = rootPtr tree'
  stored : heap'.Stored none 0 tree'
  node : heap'.read cell.ptr = some ⟨none, none, none, cell.element, cell.cost, 0⟩
  frame : ∀ ptr, ptr ∉ ptrs tree → heap'.read ptr = heap.read ptr
  head : heap.SameHead heap'

def removeCell (order : HeapOrder) (path : List (Frame (Cell Ptr Element Cost)))
    (left right : BinaryTree (Cell Ptr Element Cost)) : BinaryTree (Cell Ptr Element Cost) :=
  removeAt order.cellAbove smallerLeft path left right

omit [DecidableEq Ptr] in
theorem ptrs_removeCell (order : HeapOrder) (path : List (Frame (Cell Ptr Element Cost)))
    (a : Cell Ptr Element Cost) (left right : BinaryTree (Cell Ptr Element Cost)) :
    (ptrs (plug path (node a left right))).Perm
      (a.ptr :: ptrs (removeCell order path left right)) := by
  have hlabels : (labels (plug path (node a left right))).Perm
      (a :: labels (removeCell order path left right)) :=
    labels_removeAt order.above_total path a left right
  exact hlabels.map Cell.ptr

theorem replaceNode_spec {a : Cell Ptr Element Cost}
    (hpath : heap.StoredPath path (some a.ptr) (left.numNodes + right.numNodes))
    (hleft : heap.Stored (some a.ptr) 0 left) (hright : heap.Stored (some a.ptr) 0 right)
    (hnodup : (ptrs (plug path (node a left right))).Nodup)
    (hordered : Ordered heap.order.cellAbove (plug path (node a left right))) :
    ∃ heap', heap.replaceNode a.ptr (pathPtr path) (rootPtr left) (rootPtr right) = some heap' ∧
      heap'.root = rootPtr (removeCell heap.order path left right) ∧
      heap'.Stored none 0 (removeCell heap.order path left right) ∧
      (∀ ptr, ptr ∉ ptrs (removeCell heap.order path left right) →
        heap'.read ptr = heap.read ptr) ∧ heap.SameHead heap' := by
  cases path with
  | nil =>
    have hparts := (nodup_cons.mp (by rwa [plug, ptrs_node] at hnodup)).2
    obtain ⟨heap', hjoin, hjoined⟩ := joinChildren_spec hleft hright hparts
    have hperm := ptrs_graftCells heap.order left right
    refine ⟨heap', hjoin, hjoined.root, hjoined.stored, fun ptr hptr => ?_, hjoined.head⟩
    have hnot : ptr ∉ ptrs left ++ ptrs right := fun hmem => hptr (hperm.mem_iff.mpr hmem)
    rw [mem_append, not_or] at hnot
    exact hjoined.frame ptr hnot.1 hnot.2
  | cons frame path =>
    -- the node has a parent, and what is below the node is below its parent
    set outer := graftCells heap.order (graftCells heap.order (frame.fill nil) left) right
      with houter
    have hperm : (ptrs outer).Perm (ptrs (frame.fill nil) ++ ptrs left ++ ptrs right) :=
      (ptrs_graftCells heap.order _ right).trans
        ((ptrs_graftCells heap.order (frame.fill nil) left).append_right _)
    have hnodup' : (a.ptr :: (ptrs outer ++ pathPtrs path)).Nodup :=
      (((ptrs_removeCell heap.order (frame :: path) a left right).trans
        ((ptrs_plug path outer).cons a.ptr)).nodup_iff).mp hnodup
    obtain ⟨ha, hinner, -⟩ := (ordered_fill_iff frame _).mp (Ordered.of_plug hordered)
    have hbelow : ∀ b, heap.order.cellAbove a b → heap.order.cellAbove frame.label b :=
      fun b hab => heap.order.above_trans _ _ _ (ha a rfl) hab
    obtain ⟨heap', hunlink, hpath', hstored, hframe, -, hhead⟩ :=
      replaceNode_below hpath hleft hright
        (((hperm.append_right (pathPtrs path)).cons a.ptr).nodup_iff.mp hnodup')
        (fun b hb => hbelow b (hinner.1 b hb)) (fun b hb => hbelow b (hinner.2.1 b hb))
    have hkept : root? (graftCells heap.order (frame.fill nil) left) = some frame.label :=
      root?_graft (root?_fill frame nil) fun b hb => hbelow b (hinner.1 b hb)
    have houterRoot : root? outer = some frame.label :=
      root?_graft hkept fun b hb => hbelow b (hinner.2.1 b hb)
    have hcount : outer.numNodes =
        left.numNodes + right.numNodes + frame.sibling.numNodes + 1 := by
      rw [houter, numNodes_graftCells, numNodes_graftCells, numNodes_fill, numNodes]
      omega
    obtain ⟨hroot, hstored'⟩ : heap'.root = rootPtr (plug path outer) ∧
        heap'.Stored none 0 (plug path outer) := by
      apply stored_plug_iff.mpr
      rw [rootPtr, houterRoot, hcount]
      exact ⟨hpath', hstored⟩
    refine ⟨heap', hunlink, hroot, hstored', fun ptr hptr => ?_, hhead⟩
    have hnot : ptr ∉ ptrs (frame.fill nil) ++ ptrs left ++ ptrs right := fun hmem =>
      hptr ((ptrs_plug path outer).mem_iff.mpr (mem_append_left _ (hperm.mem_iff.mpr hmem)))
    simp only [mem_append, not_or] at hnot
    exact hframe ptr hnot.1.1 hnot.1.2 hnot.2

omit [DecidableEq Ptr] [LinearOrder Cost] in
theorem length_le_pathPtrs (path : List (Frame (Cell Ptr Element Cost))) :
    path.length ≤ (pathPtrs path).length := by
  induction path with
  | nil => exact Nat.zero_le _
  | cons frame path ih =>
    rw [pathPtrs_cons, length_cons, length_cons, length_append]
    omega

theorem unlinkNode_spec (hroot : heap.root = rootPtr (plug path (node a left right)))
    (hstored : heap.Stored none 0 (plug path (node a left right)))
    (hnodup : (ptrs (plug path (node a left right))).Nodup)
    (hordered : Ordered heap.order.cellAbove (plug path (node a left right))) :
    ∃ heap', heap.unlinkNode a.ptr = some heap' ∧
      heap.Unlinked heap' a (plug path (node a left right))
        (removeCell heap.order path left right) := by
  have hperm := ptrs_plug path (node a left right)
  have hrounds : path.length < heap.memory.keys.length + 1 := by
    have hcount := numNodes_le hstored (show heap.Stored none 0 nil from trivial) (by simpa)
    have hlength := hperm.length_eq
    have hpathLength := length_le_pathPtrs path
    rw [length_ptrs, length_append] at hlength
    omega
  obtain ⟨hpath, hread, hleft, hright⟩ := stored_plug_iff.mp ⟨hroot, hstored⟩
  rw [ptrs_node] at hperm
  obtain ⟨hinside, hnodupPath, hdisjoint⟩ := nodup_append'.mp (hperm.nodup_iff.mp hnodup)
  obtain ⟨haNot, -⟩ := nodup_cons.mp hinside
  -- the sizes of the ancestors
  obtain ⟨first, hshrink, hpathFirst, hframeFirst, -, hheadFirst⟩ :=
    shrinkAncestors_spec hpath hnodupPath hread rfl hrounds
  have hsameFirst : ∀ x ∈ a.ptr :: (ptrs left ++ ptrs right), first.read x = heap.read x :=
    fun x hx => hframeFirst x fun hmem => hdisjoint hx hmem
  have hreadFirst := (hsameFirst a.ptr mem_cons_self).trans hread
  have hleftFirst : first.Stored (some a.ptr) 0 left :=
    hleft.congr fun x hx => hsameFirst x (by simp [hx])
  have hrightFirst : first.Stored (some a.ptr) 0 right :=
    hright.congr fun x hx => hsameFirst x (by simp [hx])
  -- the size of the node itself
  set second := first.write a.ptr ⟨pathPtr path, rootPtr left, rootPtr right, a.element, a.cost,
    0⟩ with hsecond
  have hsameSecond : ∀ x, x ≠ a.ptr → second.read x = first.read x := fun x hx => read_write_ne hx
  have hupdate : (first.update a.ptr fun n =>
      { n with
        treeSize := n.treeSize - UInt32.ofNat left.numNodes - UInt32.ofNat right.numNodes }) =
      some second := by
    rw [update_eq hreadFirst, hsecond]
    congr 2
    simp only [HeapNode.mk.injEq, true_and, UInt32.ofNat_add]
    grind
  have horder : second.order = heap.order := hheadFirst.2.1
  obtain ⟨third, hunlink, hrootThird, hstoredThird, hframeThird, hheadThird⟩ := replaceNode_spec
      (hpathFirst.congr (show second.root = first.root from rfl) fun x hx =>
        hsameSecond x fun heq => hdisjoint mem_cons_self (heq ▸ hx))
      (hleftFirst.congr fun x hx =>
        hsameSecond x fun heq => haNot (mem_append_left _ (heq ▸ hx)))
      (hrightFirst.congr fun x hx =>
        hsameSecond x fun heq => haNot (mem_append_right _ (heq ▸ hx)))
      hnodup (by rwa [horder])
  rw [horder] at hrootThird hstoredThird hframeThird
  have hgone := ptrs_removeCell heap.order path a left right
  have hnot := (nodup_cons.mp (hgone.nodup_iff.mp hnodup)).1
  have hreadThird := (hframeThird a.ptr hnot).trans (read_write_self : second.read a.ptr = some _)
  refine ⟨third.write a.ptr ⟨none, none, none, a.element, a.cost, 0⟩, ?_, hrootThird, ?_,
    read_write_self, ?_, ?_⟩
  · rw [unlinkNode, hshrink, bind_some, hreadFirst, bind_some,
      childSize_spec hleftFirst, bind_some, childSize_spec hrightFirst, bind_some,
      hupdate, bind_some, hunlink, bind_some, update_eq hreadThird,
      bind_some, read_write_self, bind_some, if_pos rfl]
  · exact hstoredThird.congr fun x hx => read_write_ne fun heq => hnot (heq ▸ hx)
  · intro x hx
    have hx' := fun hmem => hx (hgone.mem_iff.mpr hmem)
    have hne : x ≠ a.ptr := fun heq => hx' (heq ▸ mem_cons_self)
    rw [read_write_ne hne, hframeThird x fun hmem => hx' (mem_cons_of_mem _ hmem),
      hsameSecond x hne, hframeFirst x fun hmem => hx (hperm.mem_iff.mpr (by simp [hmem]))]
  · exact ⟨hheadThird.1.trans hheadFirst.1, hheadThird.2.1.trans horder,
      hheadThird.2.2.trans hheadFirst.2.2⟩

end Heap

end Gnunet.Container
