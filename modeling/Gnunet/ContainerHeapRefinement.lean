import Gnunet.ContainerHeap
import Gnunet.GuardedRun

/-!
# The nodes of a heap are a tree in heap order

The memory of a heap is that of a tree: every node has the pointers of its parent
and its children and the number of nodes below it.  `insert_node` is a graft, and
removing a node grafts its children onto its parent.  While a node is moved, the
sizes on its way are already those that they will be; `extra` is what the size of
the first node is ahead of its subtrees.
-/

namespace Gnunet.Container

open BinaryTree HeapOrderedTree List Option UInt32

variable {Ptr Element Cost : Type}

def rootPtr (tree : BinaryTree (Cell Ptr Element Cost)) : Option Ptr :=
  (root? tree).map Cell.ptr

def ptrs (tree : BinaryTree (Cell Ptr Element Cost)) : List Ptr :=
  (labels tree).map Cell.ptr

@[simp] theorem rootPtr_nil : rootPtr (nil : BinaryTree (Cell Ptr Element Cost)) = none := rfl

@[simp] theorem rootPtr_node (cell : Cell Ptr Element Cost)
    (left right : BinaryTree (Cell Ptr Element Cost)) :
    rootPtr (node cell left right) = some cell.ptr := rfl

@[simp] theorem ptrs_nil : ptrs (nil : BinaryTree (Cell Ptr Element Cost)) = [] := rfl

@[simp] theorem ptrs_node (cell : Cell Ptr Element Cost)
    (left right : BinaryTree (Cell Ptr Element Cost)) :
    ptrs (node cell left right) = cell.ptr :: (ptrs left ++ ptrs right) := by
  rw [ptrs, labels_node, map_cons, map_append]
  rfl

theorem length_ptrs : (ptrs tree).length = tree.numNodes := by
  rw [ptrs, length_map, length_labels]

theorem rootPtr_mem (hroot : rootPtr tree = some ptr) : ptr ∈ ptrs tree := by
  obtain ⟨_, hcell, rfl⟩ := map_eq_some_iff.mp hroot
  exact mem_map_of_mem (mem_labels_of_root? hcell)

def HeapOrder.cellAbove [LE Cost] (order : HeapOrder) (a b : Cell Ptr Element Cost) : Prop :=
  order.Above a.cost b.cost

instance [LE Cost] [DecidableLE Cost] (order : HeapOrder) :
    DecidableRel
      (order.cellAbove : Cell Ptr Element Cost → Cell Ptr Element Cost → Prop) :=
  fun a b => inferInstanceAs (Decidable (order.Above a.cost b.cost))

def smallerLeft (left right : BinaryTree (Cell Ptr Element Cost)) : Bool :=
  ofNat (left.numNodes - 1) < ofNat (right.numNodes - 1)

section

variable [LinearOrder Cost] (order : HeapOrder)

theorem HeapOrder.above_total (a b : Cell Ptr Element Cost) :
    order.cellAbove a b ∨ order.cellAbove b a := by
  cases order with
  | max => exact le_total b.cost a.cost
  | min => exact le_total a.cost b.cost

theorem HeapOrder.above_trans (a b c : Cell Ptr Element Cost) (hab : order.cellAbove a b)
    (hbc : order.cellAbove b c) : order.cellAbove a c := by
  cases order with
  | max => exact LE.le.trans hbc hab
  | min => exact LE.le.trans hab hbc

def graftCells (tree other : BinaryTree (Cell Ptr Element Cost)) :
    BinaryTree (Cell Ptr Element Cost) :=
  graft order.cellAbove smallerLeft tree other

theorem numNodes_graftCells (tree other : BinaryTree (Cell Ptr Element Cost)) :
    (graftCells order tree other).numNodes = tree.numNodes + other.numNodes :=
  numNodes_graft order.above_total tree other

end

/-! ## Memory -/

namespace Heap

variable [DecidableEq Ptr] {heap : Heap Ptr Element Cost} {ptr other : Ptr}
  {value : HeapNode Ptr Element Cost}

@[simp] theorem read_write_self : (heap.write ptr value).read ptr = some value :=
  AList.lookup_insert _

theorem read_write_ne (hne : other ≠ ptr) : (heap.write ptr value).read other = heap.read other :=
  AList.lookup_insert_ne hne

theorem update_eq
    (hread : heap.read ptr = some value) : heap.update ptr f = some (heap.write ptr (f value)) := by
  rw [update, hread, map_some]

@[simp] theorem write_write : (heap.write ptr first).write ptr value = heap.write ptr value := by
  rw [write, write, write, AList.insert_insert]

theorem read_free_ne (hne : other ≠ ptr) : (heap.free ptr).read other = heap.read other :=
  AList.lookup_erase_ne hne

/-- The memory holds a tree below the given parent. -/
def Stored (heap : Heap Ptr Element Cost) :
    Option Ptr → Nat → BinaryTree (Cell Ptr Element Cost) → Prop
  | _, _, .nil => True
  | parent, extra, .node cell left right =>
      heap.read cell.ptr = some ⟨parent, rootPtr left, rootPtr right, cell.element, cell.cost,
        ofNat (left.numNodes + right.numNodes + extra)⟩ ∧
      heap.Stored (some cell.ptr) 0 left ∧ heap.Stored (some cell.ptr) 0 right

theorem Stored.congr {heap' : Heap Ptr Element Cost} (hstored : heap.Stored parent extra tree)
    (hsame : ∀ ptr ∈ ptrs tree, heap'.read ptr = heap.read ptr) :
    heap'.Stored parent extra tree := by
  induction tree generalizing parent extra with
  | nil => trivial
  | node cell left right ihLeft ihRight =>
    obtain ⟨hcell, hleft, hright⟩ := hstored
    refine ⟨?_, ihLeft hleft fun ptr hptr => ?_, ihRight hright fun ptr hptr => ?_⟩
    · rw [hsame cell.ptr (by simp)]
      exact hcell
    · exact hsame ptr (by simp [hptr])
    · exact hsame ptr (by simp [hptr])

theorem Stored.read_ne_none (hstored : heap.Stored parent extra tree) :
    ∀ ptr ∈ ptrs tree, ptr ∈ heap.memory.keys := by
  induction tree generalizing parent extra with
  | nil => simp
  | node cell left right ihLeft ihRight =>
    obtain ⟨hcell, hleft, hright⟩ := hstored
    intro ptr hptr
    rw [ptrs_node] at hptr
    rcases mem_cons.mp hptr with rfl | hptr
    · rw [← AList.mem_keys, ← AList.lookup_isSome]
      exact isSome_iff_exists.mpr ⟨_, hcell⟩
    · rcases mem_append.mp hptr with hptr | hptr
      · exact ihLeft hleft ptr hptr
      · exact ihRight hright ptr hptr

theorem numNodes_le {tree other : BinaryTree (Cell Ptr Element Cost)} {extra extra' : Nat}
    (htree : heap.Stored parent extra tree) (hother : heap.Stored parent' extra' other)
    (hnodup : (ptrs tree ++ ptrs other).Nodup) :
    tree.numNodes + other.numNodes ≤ heap.memory.keys.length := by
  rw [← length_ptrs, ← length_ptrs, ← length_append]
  apply Subperm.length_le
  apply subperm_of_subset hnodup
  intro ptr hptr
  rcases mem_append.mp hptr with hptr | hptr
  · exact htree.read_ne_none ptr hptr
  · exact hother.read_ne_none ptr hptr

def frameNode (frame : Frame (Cell Ptr Element Cost)) (parent hole : Option Ptr)
    (treeSize : UInt32) : HeapNode Ptr Element Cost :=
  ⟨parent, if frame.holeLeft then hole else rootPtr frame.sibling,
    if frame.holeLeft then rootPtr frame.sibling else hole, frame.label.element,
    frame.label.cost, treeSize⟩

theorem stored_fill_iff {frame : Frame (Cell Ptr Element Cost)} :
    heap.Stored parent extra (frame.fill tree) ↔
      heap.read frame.label.ptr = some (frameNode frame parent (rootPtr tree)
        (ofNat (tree.numNodes + frame.sibling.numNodes + extra))) ∧
      heap.Stored (some frame.label.ptr) 0 tree ∧
      heap.Stored (some frame.label.ptr) 0 frame.sibling := by
  obtain ⟨_, holeLeft, _⟩ := frame
  cases holeLeft with
  | true => exact Iff.rfl
  | false =>
    rw [Nat.add_comm tree.numNodes]
    exact ⟨fun ⟨hcell, hsibling, htree⟩ => ⟨hcell, htree, hsibling⟩,
      fun ⟨hcell, htree, hsibling⟩ => ⟨hcell, hsibling, htree⟩⟩

theorem replaceChild_self (hchild : value.leftChild = some ptr ∨ value.rightChild = some ptr) :
    value.replaceChild ptr (some ptr) = value := by
  obtain ⟨_, _, _, _, _, _⟩ := value
  rw [HeapNode.replaceChild]
  rcases hchild with hleft | hright
  · rw [if_pos hleft]
    cases hleft
    rfl
  · split_ifs with hleft
    · cases hleft
      rfl
    · cases hright
      rfl

theorem replaceChild_frameNode {frame : Frame (Cell Ptr Element Cost)} (new : Option Ptr)
    (hsibling : rootPtr frame.sibling ≠ some hole) :
    (frameNode frame parent (some hole) treeSize).replaceChild hole new =
      frameNode frame parent new treeSize := by
  obtain ⟨_, holeLeft, _⟩ := frame
  cases holeLeft with
  | true => exact if_pos rfl
  | false => exact if_neg hsibling

/-! ## Grafting in memory -/

variable [LinearOrder Cost]

structure Grafted (heap heap' : Heap Ptr Element Cost) (parent : Option Ptr) (extra : Nat)
    (tree other : BinaryTree (Cell Ptr Element Cost)) : Prop where
  stored : heap'.Stored parent extra (graftCells heap.order tree other)
  frame : ∀ ptr, ptr ∉ ptrs tree → ptr ∉ ptrs other → parent ≠ some ptr →
    heap'.read ptr = heap.read ptr
  parentNode : ∀ ptr old node, parent = some ptr → rootPtr tree = some old →
    heap.read ptr = some node → heap'.read ptr =
      some (node.replaceChild old (rootPtr (graftCells heap.order tree other)))
  root : heap'.root =
    if parent = none then rootPtr (graftCells heap.order tree other) else heap.root
  size : heap'.size = heap.size
  order : heap'.order = heap.order
  walkPos : heap'.walkPos = heap.walkPos

def Linked (heap : Heap Ptr Element Cost) (parent : Option Ptr) (ptr : Ptr) : Prop :=
  match parent with
  | none => heap.root = some ptr
  | some above => ∃ node, heap.read above = some node ∧
      (node.leftChild = some ptr ∨ node.rightChild = some ptr)

def Chosen (frame : Frame (Cell Ptr Element Cost))
    (child : BinaryTree (Cell Ptr Element Cost)) : Prop :=
  if frame.holeLeft then goesLeft smallerLeft child frame.sibling = true
  else goesLeft smallerLeft frame.sibling child = false

omit [DecidableEq Ptr] in
theorem exists_fill_eq (order : HeapOrder) (a : Cell Ptr Element Cost)
    (left right : BinaryTree (Cell Ptr Element Cost)) :
    ∃ frame child, node a left right = Frame.fill frame child ∧ frame.label = a ∧
      Chosen frame child ∧ ∀ b left' right', order.cellAbove a b →
        graftCells order (node a left right) (node b left' right') =
          Frame.fill frame (graftCells order child (node b left' right')) := by
  cases hside : goesLeft smallerLeft left right with
  | true =>
    refine ⟨⟨a, true, right⟩, left, rfl, rfl, hside, fun b left' right' hab => ?_⟩
    rw [graftCells, graft_of_above hab, if_pos hside]
    rfl
  | false =>
    refine ⟨⟨a, false, left⟩, right, rfl, rfl, hside, fun b left' right' hab => ?_⟩
    rw [graftCells, graft_of_above hab, if_neg (by rw [hside]; decide)]
    rfl

section

variable {rounds : Nat} {heap : Heap Ptr Element Cost} {parent : Option Ptr} {extra : Nat}
  {frame : Frame (Cell Ptr Element Cost)} {b : Cell Ptr Element Cost}
  {left right : BinaryTree (Cell Ptr Element Cost)}

/-- The heap in which the tree below `b` is at the hole of a frame. -/
def hung (heap : Heap Ptr Element Cost) (parent : Option Ptr)
    (frame : Frame (Cell Ptr Element Cost)) (size : UInt32) (b : Cell Ptr Element Cost)
    (left right : BinaryTree (Cell Ptr Element Cost)) : Heap Ptr Element Cost :=
  (heap.write frame.label.ptr (frameNode frame parent (some b.ptr) size)).write b.ptr
    ⟨some frame.label.ptr, rootPtr left, rootPtr right, b.element, b.cost,
      ofNat (left.numNodes + right.numNodes + 0)⟩

theorem insertLoop_attach (htree : heap.Stored parent extra (frame.fill nil))
    (hother : heap.Stored none 0 (node b left right)) (hne : b.ptr ≠ frame.label.ptr)
    (hchosen : Chosen frame nil) (hab : heap.order.cellAbove frame.label b) :
    insertLoop (rounds + 1) heap frame.label.ptr b.ptr =
      some (heap.hung parent frame (ofNat (0 + frame.sibling.numNodes + extra) +
        (1 + ofNat (left.numNodes + right.numNodes + 0))) b left right) := by
  obtain ⟨hread, -, -⟩ := stored_fill_iff.mp htree
  obtain ⟨hnode, -, -⟩ := hother
  have hnode' : ∀ value, (heap.write frame.label.ptr value).read b.ptr = heap.read b.ptr :=
    fun value => read_write_ne hne
  have habove : heap.order.Above frame.label.cost b.cost := hab
  rw [insertLoop, hread, bind_some, hnode, bind_some]
  refine (if_pos habove).trans ?_
  rw [update_eq hread, bind_some]
  obtain ⟨_, holeLeft, sibling⟩ := frame
  cases holeLeft with
  | true =>
    rw [update_eq read_write_self, bind_some, write_write, setParent,
      update_eq ((hnode' _).trans hnode)]
    rfl
  | false =>
    cases sibling with
    | nil => cases hchosen
    | node c cl cr =>
      simp only [frameNode, rootPtr_nil, rootPtr_node, Bool.false_eq_true, if_false]
      rw [update_eq read_write_self, bind_some, write_write, setParent,
        update_eq ((hnode' _).trans hnode)]
      rfl

theorem insertLoop_descend (htree : heap.Stored parent extra (frame.fill (node c cl cr)))
    (hother : heap.Stored none 0 (node b left right))
    (hinside : ∀ ptr ∈ ptrs (node c cl cr) ++ ptrs frame.sibling, ptr ≠ frame.label.ptr)
    (hchosen : Chosen frame (node c cl cr)) (hab : heap.order.cellAbove frame.label b) :
    insertLoop (rounds + 1) heap frame.label.ptr b.ptr =
      insertLoop rounds (heap.write frame.label.ptr (frameNode frame parent (some c.ptr)
        (ofNat ((node c cl cr).numNodes + frame.sibling.numNodes + extra) +
          (1 + ofNat (left.numNodes + right.numNodes + 0))))) c.ptr b.ptr := by
  obtain ⟨hread, hchild, hsibling⟩ := stored_fill_iff.mp htree
  obtain ⟨hnode, -, -⟩ := hother
  have hsame : ∀ ptr ∈ ptrs (node c cl cr) ++ ptrs frame.sibling, ∀ value,
      (heap.write frame.label.ptr value).read ptr = heap.read ptr :=
    fun ptr hptr value => read_write_ne (hinside ptr hptr)
  have hc := fun value => (hsame c.ptr (by simp) value).trans hchild.1
  have habove : heap.order.Above frame.label.cost b.cost := hab
  rw [insertLoop, hread, bind_some, hnode, bind_some]
  refine (if_pos habove).trans ?_
  rw [update_eq hread, bind_some]
  obtain ⟨_, holeLeft, sibling⟩ := frame
  cases sibling with
  | nil =>
    cases holeLeft with
    | _ => cases hchosen
  | node s sl sr =>
    have hs := fun value => (hsame s.ptr (by simp) value).trans hsibling.1
    cases holeLeft with
    | true =>
      have hsmaller : ofNat (cl.numNodes + cr.numNodes) <
          ofNat (sl.numNodes + sr.numNodes) := of_decide_eq_true hchosen
      simp only [frameNode, rootPtr_node, if_true]
      rw [hc, bind_some, hs, bind_some]
      simp only [Nat.add_zero, if_pos hsmaller]
    | false =>
      have hlarger : ¬ ofNat (sl.numNodes + sr.numNodes) <
          ofNat (cl.numNodes + cr.numNodes) := of_decide_eq_false hchosen
      simp only [frameNode, rootPtr_node, Bool.false_eq_true, if_false]
      rw [hs, bind_some, hc, bind_some]
      simp only [Nat.add_zero, if_neg hlarger]

end

structure Ready (heap : Heap Ptr Element Cost) (parent : Option Ptr) (extra : Nat)
    (tree other : BinaryTree (Cell Ptr Element Cost)) : Prop where
  storedTree : heap.Stored parent extra tree
  storedOther : heap.Stored none 0 other
  nodup : (ptrs tree ++ ptrs other).Nodup
  parent_not_mem : ∀ ptr, parent = some ptr → ptr ∉ ptrs tree ∧ ptr ∉ ptrs other
  linked : ∀ ptr, rootPtr tree = some ptr → heap.Linked parent ptr
  loose : ∀ ptr above, parent = some ptr → heap.read ptr = some above →
    ∀ root, rootPtr other = some root → above.leftChild ≠ some root

omit [DecidableEq Ptr] [LinearOrder Cost] in
theorem mem_ptrs_fill {frame : Frame (Cell Ptr Element Cost)} : ptr ∈ ptrs (frame.fill tree) ↔
      ptr ∈ ptrs tree ∨ ptr = frame.label.ptr ∨ ptr ∈ ptrs frame.sibling := by
  rw [ptrs, ((labels_fill frame tree).map Cell.ptr).mem_iff, map_append, mem_append,
    map_cons, mem_cons]
  rfl

omit [DecidableEq Ptr] [LinearOrder Cost] in
theorem nodup_fill {frame : Frame (Cell Ptr Element Cost)}
    {tree other : BinaryTree (Cell Ptr Element Cost)}
    (hnodup : (ptrs (frame.fill tree) ++ ptrs other).Nodup) : (ptrs tree ++ ptrs other).Nodup ∧
      (∀ ptr, ptr ∈ ptrs tree ∨ ptr ∈ ptrs frame.sibling ∨ ptr ∈ ptrs other →
        ptr ≠ frame.label.ptr) ∧
      ∀ ptr ∈ ptrs frame.sibling, ptr ∉ ptrs tree ∧ ptr ∉ ptrs other := by
  have hperm : (ptrs (frame.fill tree) ++ ptrs other).Perm
      (frame.label.ptr :: (ptrs frame.sibling ++ (ptrs tree ++ ptrs other))) := by
    have hfill := ((labels_fill frame tree).map Cell.ptr).append_right (ptrs other)
    rw [map_append, map_cons] at hfill
    have hmiddle : (ptrs tree ++ frame.label.ptr :: ptrs frame.sibling).Perm
        (frame.label.ptr :: (ptrs frame.sibling ++ ptrs tree)) :=
      perm_middle.trans (perm_append_comm.cons _)
    refine hfill.trans ((hmiddle.append_right (ptrs other)).trans ?_)
    rw [cons_append, append_assoc]
  have hparts := nodup_cons.mp (hperm.nodup_iff.mp hnodup)
  obtain ⟨hlabel, hrest⟩ := hparts
  obtain ⟨-, hboth, hdisjoint⟩ := nodup_append'.mp hrest
  refine ⟨hboth, fun ptr hptr heq => ?_, fun ptr hptr => ?_⟩
  · apply hlabel
    rw [← heq]
    simp only [mem_append]
    tauto
  · have hnot : ptr ∉ ptrs tree ++ ptrs other := fun hmem => hdisjoint hptr hmem
    rw [mem_append] at hnot
    tauto

section

variable {heap heap' : Heap Ptr Element Cost} {parent : Option Ptr} {extra : Nat}
  {tree other : BinaryTree (Cell Ptr Element Cost)}

theorem Ready.grafted (hready : heap.Ready parent extra tree other)
    (htree : rootPtr tree = some ptr)
    (hroot : rootPtr (graftCells heap.order tree other) = some ptr)
    (hstored : heap'.Stored parent extra (graftCells heap.order tree other))
    (hframe : ∀ ptr, ptr ∉ ptrs tree → ptr ∉ ptrs other → heap'.read ptr = heap.read ptr)
    (hrest : heap'.root = heap.root ∧ heap'.size = heap.size ∧ heap'.order = heap.order ∧
      heap'.walkPos = heap.walkPos) : Grafted heap heap' parent extra tree other := by
  obtain ⟨hheapRoot, hsize, horder, hwalk⟩ := hrest
  have hlinked := hready.linked ptr htree
  refine ⟨hstored, fun ptr htree hother _ => hframe ptr htree hother, ?_, ?_, hsize, horder, hwalk⟩
  · rintro above old value rfl hold hvalue
    obtain ⟨hnotTree, hnotOther⟩ := hready.parent_not_mem above rfl
    obtain ⟨_, hvalue', hchild⟩ := hlinked
    cases hold.symm.trans htree
    cases hvalue.symm.trans hvalue'
    rw [hframe above hnotTree hnotOther, hvalue, hroot, replaceChild_self hchild]
  · cases parent with
    | none =>
      rw [if_pos rfl, hheapRoot, hroot]
      exact hlinked
    | some above =>
      rw [if_neg (by simp), hheapRoot]

variable {frame : Frame (Cell Ptr Element Cost)} {child : BinaryTree (Cell Ptr Element Cost)}
  {b : Cell Ptr Element Cost} {left right : BinaryTree (Cell Ptr Element Cost)}

omit [DecidableEq Ptr] [LinearOrder Cost] in
theorem rootPtr_fill : rootPtr (frame.fill child) = some frame.label.ptr := by
  rw [rootPtr, root?_fill, map_some]

theorem grafted_attach (hready : heap.Ready parent extra (frame.fill nil) (node b left right))
    (hgraft : graftCells heap.order (frame.fill nil) (node b left right) =
      frame.fill (node b left right)) :
    Grafted heap (heap.hung parent frame (ofNat (0 + frame.sibling.numNodes + extra) +
        (1 + ofNat (left.numNodes + right.numNodes + 0))) b left right)
      parent extra (frame.fill nil) (node b left right) := by
  obtain ⟨-, -, hsibling⟩ := stored_fill_iff.mp hready.storedTree
  obtain ⟨-, hleft, hright⟩ := hready.storedOther
  obtain ⟨hboth, hlabel, happart⟩ := nodup_fill hready.nodup
  rw [ptrs_nil, nil_append, ptrs_node, nodup_cons] at hboth
  have hsize : ofNat (0 + frame.sibling.numNodes + extra) +
      (1 + ofNat (left.numNodes + right.numNodes + 0)) =
      ofNat ((node b left right).numNodes + frame.sibling.numNodes + extra) := by
    simp only [numNodes, ofNat_add]
    grind
  rw [hsize]
  set written := heap.hung parent frame
    (ofNat ((node b left right).numNodes + frame.sibling.numNodes + extra)) b left right
  have hsame : ∀ ptr, ptr ≠ frame.label.ptr → ptr ≠ b.ptr →
      written.read ptr = heap.read ptr := fun ptr hlabel hb =>
    (read_write_ne hb).trans (read_write_ne hlabel)
  have hinside : ∀ ptr ∈ ptrs left ++ ptrs right, written.read ptr = heap.read ptr := by
    intro ptr hptr
    apply hsame
    · apply hlabel
      rw [ptrs_node]
      exact .inr (.inr (mem_cons_of_mem _ hptr))
    · rintro rfl
      exact hboth.1 hptr
  refine hready.grafted rootPtr_fill (by rw [hgraft, rootPtr_fill]) ?_ ?_ ⟨rfl, rfl, rfl, rfl⟩
  · rw [hgraft]
    refine stored_fill_iff.mpr ⟨?_, ⟨read_write_self, ?_, ?_⟩, ?_⟩
    · have hne : frame.label.ptr ≠ b.ptr := (hlabel b.ptr (by simp)).symm
      exact (read_write_ne hne).trans read_write_self
    · exact hleft.congr fun ptr hptr => hinside ptr (mem_append_left _ hptr)
    · exact hright.congr fun ptr hptr => hinside ptr (mem_append_right _ hptr)
    · apply hsibling.congr
      intro ptr hptr
      apply hsame
      · exact hlabel ptr (.inr (.inl hptr))
      · rintro rfl
        exact (happart _ hptr).2 (by simp)
  · intro ptr hnotTree hnotOther
    apply hsame
    · rintro rfl
      exact hnotTree (mem_ptrs_fill.mpr (.inr (.inl rfl)))
    · rintro rfl
      exact hnotOther (by simp)

theorem grafted_descend (hready : heap.Ready parent extra (frame.fill child) other)
    (hgraft : graftCells heap.order (frame.fill child) other =
      frame.fill (graftCells heap.order child other)) (hchild : rootPtr child = some hole)
    {size : UInt32}
    (hsize : size = ofNat (child.numNodes + other.numNodes + frame.sibling.numNodes + extra))
    (hdone : Grafted (heap.write frame.label.ptr (frameNode frame parent (some hole) size)) heap'
      (some frame.label.ptr) 0 child other) :
    Grafted heap heap' parent extra (frame.fill child) other := by
  obtain ⟨-, -, hsibling⟩ := stored_fill_iff.mp hready.storedTree
  obtain ⟨_, hlabel, happart⟩ := nodup_fill hready.nodup
  have hother : rootPtr frame.sibling ≠ some hole := by
    intro hroot
    exact (happart hole (rootPtr_mem hroot)).1 (rootPtr_mem hchild)
  have hsame : ∀ ptr, ptr ∉ ptrs child → ptr ∉ ptrs other → ptr ≠ frame.label.ptr →
      heap'.read ptr = heap.read ptr := by
    intro ptr hnotChild hnotOther hne
    rw [hdone.frame ptr hnotChild hnotOther (fun heq => hne (Option.some.inj heq).symm)]
    exact read_write_ne hne
  have hroot : heap'.root = heap.root := by
    rw [hdone.root, if_neg (by simp)]
    rfl
  refine hready.grafted rootPtr_fill (by rw [hgraft, rootPtr_fill]) ?_ ?_
    ⟨hroot, hdone.size, hdone.order, hdone.walkPos⟩
  · rw [hgraft]
    refine stored_fill_iff.mpr ⟨?_, hdone.stored, ?_⟩
    · rw [hdone.parentNode _ hole _ rfl hchild read_write_self,
        replaceChild_frameNode _ hother, hsize, numNodes_graftCells]
      rfl
    · apply hsibling.congr
      intro ptr hptr
      obtain ⟨hnotChild, hnotOther⟩ := happart ptr hptr
      exact hsame ptr hnotChild hnotOther (hlabel ptr (.inr (.inl hptr)))
  · intro ptr hnotTree hnotOther
    have hnot := fun h => hnotTree (mem_ptrs_fill.mpr h)
    exact hsame ptr (fun h => hnot (.inl h)) hnotOther (fun h => hnot (.inr (.inl h)))

section

omit [LinearOrder Cost]

theorem relink_spec (pos new : Ptr)
    (hparent : ∀ ptr, parent = some ptr → ∃ value, heap.read ptr = some value) :
    ∃ heap', heap.relink parent pos new = some heap' ∧
      (∀ ptr, parent ≠ some ptr → heap'.read ptr = heap.read ptr) ∧
      (∀ ptr value, parent = some ptr → heap.read ptr = some value →
        heap'.read ptr = some (value.replaceChild pos (some new))) ∧
      heap'.root = (if parent = none then some new else heap.root) ∧
      heap'.size = heap.size ∧ heap'.order = heap.order ∧ heap'.walkPos = heap.walkPos := by
  cases parent with
  | none =>
    refine ⟨{ heap with root := some new }, rfl, fun _ _ => rfl, ?_, rfl, rfl, rfl, rfl⟩
    rintro ptr value hptr
    cases hptr
  | some above =>
    obtain ⟨value, hvalue⟩ := hparent above rfl
    refine ⟨heap.write above (value.replaceChild pos (some new)), update_eq hvalue, ?_, ?_, rfl,
      rfl, rfl, rfl⟩
    · intro ptr hne
      exact read_write_ne fun heq => hne (congrArg some heq.symm)
    · rintro ptr value' hptr hvalue'
      cases hptr
      cases hvalue.symm.trans hvalue'
      exact read_write_self

theorem replaceChild_twice {value : HeapNode Ptr Element Cost}
    (hleft : value.leftChild ≠ some new) (third : Option Ptr) :
    (value.replaceChild pos (some new)).replaceChild new third = value.replaceChild pos third := by
  by_cases hpos : value.leftChild = some pos
  · simp [HeapNode.replaceChild, hpos]
  · simp [HeapNode.replaceChild, hpos, hleft]

theorem replaceChild_leftChild_ne {value : HeapNode Ptr Element Cost}
    (hne : new ≠ pos) : (value.replaceChild pos (some new)).leftChild ≠ some pos := by
  rw [HeapNode.replaceChild]
  split_ifs with hpos
  · exact fun heq => hne (Option.some.inj heq)
  · exact hpos

end

theorem exists_swapped (hready : heap.Ready parent 0 (node a left right) (node b left' right'))
    (hab : ¬ heap.order.cellAbove a b) :
    ∃ next, next.order = heap.order ∧ (∀ rounds, insertLoop (rounds + 1) heap a.ptr b.ptr =
        insertLoop rounds next b.ptr a.ptr) ∧
      next.Ready parent 0 (node b left' right') (node a left right) ∧
      ∀ heap', Grafted next heap' parent 0 (node b left' right') (node a left right) →
        Grafted heap heap' parent 0 (node a left right) (node b left' right') := by
  obtain ⟨hreadA, hleft, hright⟩ := hready.storedTree
  obtain ⟨hreadB, hleft', hright'⟩ := hready.storedOther
  obtain ⟨-, -, hdisjoint⟩ := nodup_append'.mp hready.nodup
  have hne : b.ptr ≠ a.ptr := fun heq =>
    hdisjoint (show a.ptr ∈ _ by simp) (by simp [heq])
  set detached := (heap.write a.ptr ⟨none, rootPtr left, rootPtr right, a.element, a.cost,
    ofNat (left.numNodes + right.numNodes + 0)⟩).write b.ptr
    ⟨parent, rootPtr left', rootPtr right', b.element, b.cost,
      ofNat (left'.numNodes + right'.numNodes + 0)⟩ with hdetached
  have hother : ∀ ptr, ptr ≠ a.ptr → ptr ≠ b.ptr → detached.read ptr = heap.read ptr :=
    fun ptr ha hb => (read_write_ne hb).trans (read_write_ne ha)
  have habove : ∀ ptr, parent = some ptr → ptr ≠ a.ptr ∧ ptr ≠ b.ptr := by
    intro ptr hptr
    obtain ⟨hnotTree, hnotOther⟩ := hready.parent_not_mem ptr hptr
    exact ⟨fun heq => hnotTree (by simp [heq]), fun heq => hnotOther (by simp [heq])⟩
  have hlinked : ∀ ptr, parent = some ptr → ∃ value, heap.read ptr = some value ∧
      (value.leftChild = some a.ptr ∨ value.rightChild = some a.ptr) := by
    rintro ptr rfl
    exact hready.linked a.ptr rfl
  have hparentRead : ∀ ptr, parent = some ptr → ∃ value, detached.read ptr = some value := by
    intro ptr hptr
    obtain ⟨value, hvalue, -⟩ := hlinked ptr hptr
    exact ⟨value, (hother ptr (habove ptr hptr).1 (habove ptr hptr).2).trans hvalue⟩
  obtain ⟨next, hrelink, hsame, hparentNode, hroot, hsize, horder, hwalk⟩ :=
    relink_spec a.ptr b.ptr hparentRead
  have hnextSame : ∀ ptr, ptr ≠ a.ptr → ptr ≠ b.ptr → parent ≠ some ptr →
      next.read ptr = heap.read ptr :=
    fun ptr ha hb hptr => (hsame ptr hptr).trans (hother ptr ha hb)
  have hnextA : next.read a.ptr = _ := (hsame a.ptr fun hptr => (habove _ hptr).1 rfl).trans
      ((read_write_ne hne.symm).trans read_write_self)
  have hnextB : next.read b.ptr = _ :=
    (hsame b.ptr fun hptr => (habove _ hptr).2 rfl).trans read_write_self
  -- neither subtree is written to
  have hinside : ∀ ptr ∈ (ptrs left ++ ptrs right) ++ (ptrs left' ++ ptrs right'),
      next.read ptr = heap.read ptr := by
    intro ptr hptr
    have hnodup := hready.nodup
    rw [ptrs_node, ptrs_node, cons_append, (perm_middle.cons _).nodup_iff, nodup_cons,
      nodup_cons] at hnodup
    apply hnextSame
    · rintro rfl
      exact hnodup.1 (mem_cons_of_mem _ hptr)
    · rintro rfl
      exact hnodup.2.1 hptr
    · intro heq
      obtain ⟨hnotTree, hnotOther⟩ := hready.parent_not_mem ptr heq
      rw [ptrs_node] at hnotTree hnotOther
      exact (mem_append.mp hptr).elim (fun h => hnotTree (mem_cons_of_mem _ h))
        fun h => hnotOther (mem_cons_of_mem _ h)
  have hinsideA := fun ptr hptr => hinside ptr (mem_append_left _ hptr)
  have hinsideB := fun ptr hptr => hinside ptr (mem_append_right _ hptr)
  refine ⟨next, horder, fun rounds => ?_, ?_, fun heap' hdone => ?_⟩
  · have hcond : ¬ heap.order.Above a.cost b.cost := hab
    have hreadB' : ∀ value, (heap.write a.ptr value).read b.ptr = heap.read b.ptr :=
      fun value => read_write_ne hne
    rw [insertLoop, hreadA, bind_some, hreadB, bind_some]
    refine (if_neg hcond).trans ?_
    rw [setParent, update_eq hreadA, bind_some, setParent,
      update_eq ((hreadB' _).trans hreadB), bind_some, hrelink, bind_some, hnextA, bind_some, if_pos rfl]
  · refine ⟨⟨hnextB, ?_, ?_⟩, ⟨hnextA, ?_, ?_⟩, ?_, ?_, ?_, ?_⟩
    · exact hleft'.congr fun ptr hptr => hinsideB ptr (mem_append_left _ hptr)
    · exact hright'.congr fun ptr hptr => hinsideB ptr (mem_append_right _ hptr)
    · exact hleft.congr fun ptr hptr => hinsideA ptr (mem_append_left _ hptr)
    · exact hright.congr fun ptr hptr => hinsideA ptr (mem_append_right _ hptr)
    · exact perm_append_comm.nodup_iff.mp hready.nodup
    · exact fun ptr hptr => (hready.parent_not_mem ptr hptr).symm
    · intro ptr hptr
      cases hptr
      cases parent with
      | none => exact hroot
      | some above =>
        obtain ⟨value, hvalue⟩ := hparentRead above rfl
        refine ⟨_, hparentNode above value rfl hvalue, ?_⟩
        rw [HeapNode.replaceChild]
        split_ifs
        · exact .inl rfl
        · exact .inr rfl
    · intro ptr above hptr habove root hrootPtr
      cases hrootPtr
      obtain ⟨value, hvalue⟩ := hparentRead ptr hptr
      cases (hparentNode ptr value hptr hvalue).symm.trans habove
      exact replaceChild_leftChild_ne hne
  · have hba := (heap.order.above_total a b).resolve_left hab
    have hgraft : graftCells heap.order (node a left right) (node b left' right') =
        graftCells next.order (node b left' right') (node a left right) := by
      rw [horder]
      exact graft_swap hab hba
    refine ⟨?_, ?_, ?_, ?_, hdone.size.trans hsize, hdone.order.trans horder,
      hdone.walkPos.trans hwalk⟩
    · rw [hgraft]
      exact hdone.stored
    · intro ptr hnotTree hnotOther hptr
      rw [hdone.frame ptr hnotOther hnotTree hptr]
      apply hnextSame ptr _ _ hptr
      · rintro rfl
        exact hnotTree (by simp)
      · rintro rfl
        exact hnotOther (by simp)
    · intro ptr old value hptr hold hvalue
      cases hold
      have hdetachedValue := (hother ptr (habove ptr hptr).1 (habove ptr hptr).2).trans hvalue
      rw [hdone.parentNode ptr b.ptr _ hptr rfl (hparentNode ptr value hptr hdetachedValue),
        replaceChild_twice (hready.loose ptr value hptr hvalue b.ptr rfl), hgraft]
    · rw [hdone.root, hgraft, hroot]
      split_ifs
      · rfl
      · rfl

omit [LinearOrder Cost] in
theorem Ready.descend (hready : heap.Ready parent extra (frame.fill child) other) {hole : Ptr}
    (hchild : rootPtr child = some hole) (size : UInt32) :
    (heap.write frame.label.ptr (frameNode frame parent (some hole) size)).Ready
      (some frame.label.ptr) 0 child other := by
  obtain ⟨-, hstored, -⟩ := stored_fill_iff.mp hready.storedTree
  obtain ⟨hboth, hlabel, happart⟩ := nodup_fill hready.nodup
  refine ⟨?_, ?_, hboth, ?_, ?_, ?_⟩
  · exact hstored.congr fun ptr hptr => read_write_ne (hlabel ptr (.inl hptr))
  · exact hready.storedOther.congr fun ptr hptr =>
      read_write_ne (hlabel ptr (.inr (.inr hptr)))
  · intro ptr hptr
    cases hptr
    exact ⟨fun hmem => hlabel _ (.inl hmem) rfl, fun hmem => hlabel _ (.inr (.inr hmem)) rfl⟩
  · intro ptr hptr
    cases hchild.symm.trans hptr
    refine ⟨_, read_write_self, ?_⟩
    obtain ⟨label, holeLeft, sibling⟩ := frame
    cases holeLeft with
    | true => exact .inl rfl
    | false => exact .inr rfl
  · intro ptr above hptr habove root hroot hleft
    cases hptr
    cases read_write_self.symm.trans habove
    have hmem := rootPtr_mem hroot
    obtain ⟨_, holeLeft, _⟩ := frame
    cases holeLeft with
    | true =>
      cases hleft
      exact (nodup_append'.mp hboth).2.2 (rootPtr_mem hchild) hmem
    | false => exact (happart root (rootPtr_mem hleft)).2 hmem

/-- `insert_node`, with as many rounds as both trees can need. -/
theorem insertLoop_spec {a : Cell Ptr Element Cost}
    (hready : heap.Ready parent extra (node a left right) (node b left' right'))
    (hextra : extra = 0 ∨ heap.order.cellAbove a b)
    (hrounds : 2 * ((node a left right).numNodes + (node b left' right').numNodes) +
      (if heap.order.cellAbove a b then 0 else 1) ≤ rounds) :
    ∃ heap', insertLoop rounds heap a.ptr b.ptr = some heap' ∧
      Grafted heap heap' parent extra (node a left right) (node b left' right') := by
  induction rounds generalizing heap parent extra a left right b left' right' with
  | zero =>
    rw [numNodes] at hrounds
    omega
  | succ rounds ih =>
    by_cases hab : heap.order.cellAbove a b
    · obtain ⟨frame, child, hfill, rfl, hchosen, hgraft⟩ :=
        exists_fill_eq heap.order a left right
      have hdown := hgraft b left' right' hab
      rw [hfill] at hready hrounds hdown ⊢
      obtain ⟨-, hlabel, -⟩ := nodup_fill hready.nodup
      cases child with
      | nil =>
        have hne : b.ptr ≠ frame.label.ptr := hlabel b.ptr (by simp)
        refine ⟨_, insertLoop_attach hready.storedTree hready.storedOther hne hchosen hab, ?_⟩
        apply grafted_attach hready
        rw [hdown, graftCells, graft_nil_left]
      | node c cl cr =>
        have hinside : ∀ ptr ∈ ptrs (node c cl cr) ++ ptrs frame.sibling,
            ptr ≠ frame.label.ptr := by
          intro ptr hptr
          apply hlabel
          rw [mem_append] at hptr
          tauto
        have hcount : 2 * ((node c cl cr).numNodes + (node b left' right').numNodes) + 1 ≤
            rounds := by
          rw [numNodes_fill] at hrounds
          omega
        rw [insertLoop_descend hready.storedTree hready.storedOther hinside hchosen hab]
        obtain ⟨heap', hloop, hdone⟩ := ih (hready.descend rfl _) (.inl rfl)
          (le_trans (by split_ifs <;> omega) hcount)
        refine ⟨heap', hloop, grafted_descend hready hdown rfl ?_ hdone⟩
        simp only [numNodes, ofNat_add]
        grind
    · obtain rfl : extra = 0 := hextra.resolve_right hab
      obtain ⟨_, horder, heval, hnext, hback⟩ := exists_swapped hready hab
      have hba := (heap.order.above_total a b).resolve_left hab
      rw [if_neg hab] at hrounds
      obtain ⟨heap', hloop, hdone⟩ := ih hnext (.inl rfl) (by rw [horder, if_pos hba]; omega)
      refine ⟨heap', ?_, hback heap' hdone⟩
      rw [heval]
      exact hloop

theorem insertNode_spec {pos new : Ptr} (hready : heap.Ready parent extra tree other)
    (hpos : rootPtr tree = some pos) (hnew : rootPtr other = some new)
    (hextra : extra = 0 ∨ ∀ a ∈ root? tree, ∀ b ∈ root? other, heap.order.cellAbove a b) :
    ∃ heap', heap.insertNode pos new = some heap' ∧ Grafted heap heap' parent extra tree other := by
  have hcount := numNodes_le hready.storedTree hready.storedOther hready.nodup
  cases tree with
  | nil => cases hpos
  | node a left right =>
    cases other with
    | nil => cases hnew
    | node b left' right' =>
      cases hpos
      cases hnew
      obtain ⟨hread, -, -⟩ := hready.storedOther
      rw [insertNode, hread, bind_some, if_pos rfl]
      apply insertLoop_spec hready
      · exact hextra.imp_right fun h => h a rfl b rfl
      · refine le_trans ?_ (Nat.add_le_add_right (Nat.mul_le_mul_left 2 hcount) 1)
        split_ifs
        · exact Nat.le_succ _
        · exact le_rfl

end

end Heap

end Gnunet.Container
