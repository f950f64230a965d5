import Gnunet.ContainerHeapOperations

/-!
# Heaps over whole runs

A heap represents a tree if its memory holds the nodes of that tree and no others.
Every call is then a function on trees, so the invariant goes from call to call;
the elements that a call adds and removes are read off the labels.
-/

namespace Gnunet.Container

open BinaryTree HeapOrderedTree Option Protocol
open List hiding nil

variable {Ptr Element Cost : Type} [DecidableEq Ptr] [LinearOrder Cost]

namespace Heap

/-- The heap is a tree in heap order.  The sizes are of type `unsigned int`. -/
structure Represents (heap : Heap Ptr Element Cost)
    (tree : BinaryTree (Cell Ptr Element Cost)) : Prop where
  root : heap.root = rootPtr tree
  /-- The links agree, and every `tree_size` is the number of nodes below. -/
  stored : heap.Stored none 0 tree
  nodup : (ptrs tree).Nodup
  /-- No cost is out of order with that of its parent. -/
  ordered : Ordered heap.order.cellAbove tree
  allocated : ∀ ptr, heap.read ptr ≠ none → ptr ∈ ptrs tree
  size : heap.size = UInt32.ofNat tree.numNodes
  walkPos : ∀ ptr, heap.walkPos = some ptr → ptr ∈ ptrs tree

variable {heap heap' : Heap Ptr Element Cost} {tree left right : BinaryTree (Cell Ptr Element Cost)}
  {a cell : Cell Ptr Element Cost} {ptr : Ptr}

theorem represents_create (order : HeapOrder) :
    (create order : Heap Ptr Element Cost).Represents nil := by
  refine ⟨rfl, trivial, nodup_nil, trivial, fun ptr hread => absurd rfl hread, rfl, ?_⟩
  rintro ptr ⟨⟩

omit [LinearOrder Cost] in
theorem Stored.read_cell (hstored : heap.Stored parent extra tree) (hcell : cell ∈ labels tree) :
    ∃ value, heap.read cell.ptr = some value ∧ value.element = cell.element ∧
      value.cost = cell.cost ∧ (∀ child, value.leftChild = some child → child ∈ ptrs tree) ∧
      ∀ child, value.rightChild = some child → child ∈ ptrs tree := by
  induction tree generalizing parent extra with
  | nil => cases hcell
  | node a l r ihLeft ihRight =>
    obtain ⟨hread, hleft, hright⟩ := hstored
    rw [ptrs_node]
    rw [labels_node, mem_cons, mem_append] at hcell
    rcases hcell with rfl | hcell | hcell
    · refine ⟨_, hread, rfl, rfl, fun child hchild => ?_, fun child hchild => ?_⟩
      · exact mem_cons_of_mem _ (mem_append_left _ (rootPtr_mem hchild))
      · exact mem_cons_of_mem _ (mem_append_right _ (rootPtr_mem hchild))
    · obtain ⟨value, hvalue, helement, hcost, hl, hr⟩ := ihLeft hleft hcell
      refine ⟨value, hvalue, helement, hcost, fun child hchild => ?_, fun child hchild => ?_⟩
      · exact mem_cons_of_mem _ (mem_append_left _ (hl child hchild))
      · exact mem_cons_of_mem _ (mem_append_left _ (hr child hchild))
    · obtain ⟨value, hvalue, helement, hcost, hl, hr⟩ := ihRight hright hcell
      refine ⟨value, hvalue, helement, hcost, fun child hchild => ?_, fun child hchild => ?_⟩
      · exact mem_cons_of_mem _ (mem_append_right _ (hl child hchild))
      · exact mem_cons_of_mem _ (mem_append_right _ (hr child hchild))

section

variable (hheap : heap.Represents tree)
include hheap

theorem Represents.exists_cell (hread : heap.read ptr ≠ none) :
    ∃ cell ∈ labels tree, cell.ptr = ptr :=
  List.mem_map.mp (hheap.allocated ptr hread)

theorem Represents.not_mem (hread : heap.read ptr = none) : ptr ∉ ptrs tree := by
  intro hmem
  obtain ⟨_, hcell, rfl⟩ := List.mem_map.mp hmem
  obtain ⟨_, hvalue, -⟩ := hheap.stored.read_cell hcell
  cases hvalue.symm.trans hread

theorem Represents.contents_eq : heap.contents = Multiset.ofList (labels tree) := by
  apply Multiset.coe_eq_coe.mpr
  have hkeys : ((heap.memory.entries.map fun entry =>
      (⟨entry.1, entry.2.element, entry.2.cost⟩ : Cell Ptr Element Cost)).map Cell.ptr).Nodup := by
    rw [List.map_map]
    exact heap.memory.nodupKeys
  apply (perm_ext_iff_of_nodup (List.Nodup.of_map _ hkeys) (List.Nodup.of_map _ hheap.nodup)).mpr
  intro cell
  rw [List.mem_map]
  constructor
  · rintro ⟨⟨ptr, value⟩, hentry, rfl⟩
    have hread : heap.read ptr = some value := AList.mem_lookup_iff.mpr hentry
    obtain ⟨cell, hcell, rfl⟩ := hheap.exists_cell (by rw [hread]; exact some_ne_none _)
    obtain ⟨_, hvalue, helement, hcost, -⟩ := hheap.stored.read_cell hcell
    cases hread.symm.trans hvalue
    rw [helement, hcost]
    exact hcell
  · intro hcell
    obtain ⟨value, hvalue, helement, hcost, -⟩ := hheap.stored.read_cell hcell
    refine ⟨⟨cell.ptr, value⟩, AList.mem_lookup_iff.mp hvalue, ?_⟩
    rw [helement, hcost]

end

/-! ## The calls -/

theorem represents_free (hroot : heap.root = rootPtr tree) (hstored : heap.Stored none 0 tree)
    (hnodup : (ptr :: ptrs tree).Nodup) (hordered : Ordered heap.order.cellAbove tree)
    (hallocated : ∀ x, heap.read x ≠ none → x ∈ ptr :: ptrs tree)
    {size : UInt32} (hsize : size = UInt32.ofNat tree.numNodes) {walkPos : Option Ptr}
    (hwalkPos : ∀ x, walkPos = some x → x ∈ ptrs tree) :
    (free { heap with size, walkPos } ptr).Represents tree := by
  obtain ⟨hnot, hnodup⟩ := nodup_cons.mp hnodup
  refine ⟨hroot, ?_, hnodup, hordered, fun x hread => ?_, hsize, hwalkPos⟩
  · exact hstored.congr fun x hx => read_free_ne fun heq => hnot (heq ▸ hx)
  · have hne : x ≠ ptr := by
      rintro rfl
      exact hread (AList.lookup_erase _ _)
    rw [read_free_ne hne] at hread
    exact (mem_cons.mp (hallocated x hread)).resolve_left hne

theorem represents_attach (hroot : heap.root = rootPtr tree) (hstored : heap.Stored none 0 tree)
    (hnode : heap.read ptr = some ⟨none, none, none, element, cost, 0⟩)
    (hnodup : (ptr :: ptrs tree).Nodup) (hordered : Ordered heap.order.cellAbove tree)
    (hallocated : ∀ x, heap.read x ≠ none → x ∈ ptr :: ptrs tree)
    (hsize : heap.size = UInt32.ofNat (tree.numNodes + 1))
    (hwalkPos : ∀ x, heap.walkPos = some x → x ∈ ptr :: ptrs tree) :
    ∃ heap', heap.attach ptr = some heap' ∧
      heap'.Represents (graftCells heap.order tree (node ⟨ptr, element, cost⟩ nil nil)) ∧
      heap'.order = heap.order := by
  have hleaf : (ptr :: ptrs tree).Perm
      (ptrs (graftCells heap.order tree (node ⟨ptr, element, cost⟩ nil nil))) :=
    perm_append_comm.trans
      (ptrs_graftCells heap.order tree (node ⟨ptr, element, cost⟩ nil nil)).symm
  obtain ⟨heap', hattach, hjoined⟩ := attach_spec hroot hstored
    (show heap.Stored none 0 (node ⟨ptr, element, cost⟩ nil nil) from ⟨hnode, trivial, trivial⟩)
    (perm_append_comm.nodup_iff.mp hnodup) rfl
  have horder : heap'.order = heap.order := hjoined.head.2.1
  refine ⟨heap', hattach, ⟨hjoined.root, hjoined.stored, hleaf.nodup_iff.mp hnodup, ?_, ?_, ?_, ?_⟩,
    horder⟩
  · rw [horder]
    exact ordered_graft heap.order.above_total hordered
      ⟨nofun, nofun, trivial, trivial⟩
  · intro x hread
    apply hleaf.mem_iff.mp
    by_contra hout
    obtain ⟨hne, hnot⟩ := not_or.mp (mt mem_cons.mpr hout)
    apply hout
    apply hallocated
    rwa [hjoined.frame x hnot fun hmem => hne (mem_singleton.mp hmem)] at hread
  · rw [hjoined.head.1, hsize, numNodes_graftCells]
    rfl
  · intro x hx
    rw [hjoined.head.2.2] at hx
    exact hleaf.mem_iff.mp (hwalkPos x hx)

theorem Represents.insert (hheap : heap.Represents tree) (hptr : heap.read ptr = none)
    (element : Element) (cost : Cost) : ∃ heap', heap.insert ptr element cost = some heap' ∧
      heap'.Represents (graftCells heap.order tree (node ⟨ptr, element, cost⟩ nil nil)) ∧
      heap'.order = heap.order := by
  set first : Heap Ptr Element Cost :=
    { heap.write ptr ⟨none, none, none, element, cost, 0⟩ with size := heap.size + 1 }
  have hnot := hheap.not_mem hptr
  have hsame : ∀ x, x ≠ ptr → first.read x = heap.read x := fun x hx => read_write_ne hx
  obtain ⟨heap', hattach, hrepresents, horder⟩ := represents_attach
    (show first.root = rootPtr tree from hheap.root)
    (hheap.stored.congr fun x hx => hsame x fun heq => hnot (heq ▸ hx)) read_write_self
    (nodup_cons.mpr ⟨hnot, hheap.nodup⟩) hheap.ordered
    (fun x hx => by
      by_cases hne : x = ptr
      · exact mem_cons.mpr (.inl hne)
      · rw [hsame x hne] at hx
        exact mem_cons_of_mem _ (hheap.allocated x hx))
    (show heap.size + 1 = UInt32.ofNat (tree.numNodes + 1) by
      rw [hheap.size, UInt32.ofNat_add]
      rfl)
    (fun x hx => mem_cons_of_mem _ (hheap.walkPos x hx))
  refine ⟨heap', ?_, hrepresents, horder⟩
  -- the assertion on the size of the root
  have hcount : (graftCells heap.order tree (node ⟨ptr, element, cost⟩ nil nil)).numNodes =
      tree.numNodes + 1 := numNodes_graftCells heap.order tree _
  rw [Heap.insert, hattach, bind_some]
  cases htree : graftCells heap.order tree (node ⟨ptr, element, cost⟩ nil nil) with
  | nil =>
    rw [htree] at hcount
    cases hcount
  | node b l r =>
    have hstored : heap'.Represents (node b l r) := htree ▸ hrepresents
    rw [hstored.root, rootPtr_node, bind_some, hstored.stored.1, bind_some, hstored.size]
    apply if_pos
    rw [numNodes, UInt32.ofNat_add, Nat.add_zero]
    rfl

theorem Represents.removeRoot (hheap : heap.Represents (node a left right)) :
    ∃ heap', heap.removeRoot = some (some a.element, heap') ∧
      heap'.Represents (graftCells heap.order left right) ∧ heap'.order = heap.order := by
  obtain ⟨hread, hleft, hright⟩ := hheap.stored
  have hperm := ptrs_graftCells heap.order left right
  have hnodup := hheap.nodup
  rw [ptrs_node] at hnodup
  set first : Heap Ptr Element Cost := { heap with size := heap.size - 1 }
  obtain ⟨next, hjoin, hjoined⟩ := joinChildren_spec
    (show first.Stored (some a.ptr) 0 left from hleft.congr fun _ _ => rfl)
    (show first.Stored (some a.ptr) 0 right from hright.congr fun _ _ => rfl)
    (nodup_cons.mp hnodup).2
  have hsize : next.size = UInt32.ofNat (graftCells heap.order left right).numNodes := by
    rw [hjoined.head.1, numNodes_graftCells]
    show heap.size - 1 = _
    rw [hheap.size, numNodes, UInt32.ofNat_add (_ + _) 1]
    exact UInt32.add_sub_cancel _ _
  have hallocated : ∀ x, next.read x ≠ none → x ∈ a.ptr :: ptrs (graftCells heap.order left right) := by
    intro x hx
    rw [mem_cons, hperm.mem_iff, mem_append]
    by_contra hout
    simp only [not_or] at hout
    rw [hjoined.frame x hout.2.1 hout.2.2] at hx
    have hmem := hheap.allocated x hx
    rw [ptrs_node, mem_cons, mem_append] at hmem
    tauto
  have hordered : Ordered next.order.cellAbove (graftCells heap.order left right) := by
    rw [hjoined.head.2.1]
    exact ordered_graft heap.order.above_total hheap.ordered.2.2.1 hheap.ordered.2.2.2
  have hwalkPos : ∀ x, next.walkPos = some x →
      x = a.ptr ∨ x ∈ ptrs (graftCells heap.order left right) := by
    intro x hx
    rw [hjoined.head.2.2] at hx
    have hmem := hheap.walkPos x hx
    rwa [ptrs_node, mem_cons, ← hperm.mem_iff] at hmem
  have hnodup' := (hperm.cons a.ptr).nodup_iff.mpr hnodup
  have heval : heap.removeRoot = some (some a.element,
      (if next.walkPos = some a.ptr then { next with walkPos := next.root } else next).free
        a.ptr) := by
    rw [Heap.removeRoot]
    split
    · next hnone => cases hnone.symm.trans hheap.root
    · next root hroot =>
      cases hroot.symm.trans hheap.root
      rw [hread, bind_some]
      exact congrArg (Option.map _) hjoin
  refine ⟨_, heval, ?_, ?_⟩
  · split_ifs with hwalk
    · refine represents_free hjoined.root hjoined.stored hnodup' hordered hallocated hsize
        fun x hx => ?_
      exact rootPtr_mem (hjoined.root.symm.trans hx)
    · refine represents_free hjoined.root hjoined.stored hnodup' hordered hallocated hsize
        fun x (hx : next.walkPos = some x) => ?_
      apply (hwalkPos x hx).resolve_left
      rintro rfl
      exact hwalk hx
  · split_ifs
    · exact hjoined.head.2.1
    · exact hjoined.head.2.1

theorem Represents.walk (hheap : heap.Represents tree) {walkPos : Option Ptr}
    (hwalkPos : ∀ x, walkPos = some x → x ∈ ptrs tree) : Represents { heap with walkPos } tree :=
  ⟨hheap.root, hheap.stored.congr fun _ _ => rfl, hheap.nodup, hheap.ordered, hheap.allocated,
    hheap.size, hwalkPos⟩

theorem Represents.walkGetNext (hheap : heap.Represents tree) (bit : Bool) :
    ∃ element walkPos, heap.walkGetNext bit = some (element, { heap with walkPos }) ∧
      Represents { heap with walkPos } tree ∧
      (element = none ∧ tree = nil ∨ ∃ cell ∈ labels tree, element = some cell.element) := by
  cases htree : tree with
  | nil =>
    have hroot : heap.root = none := by rw [hheap.root, htree, rootPtr_nil]
    refine ⟨none, heap.walkPos, ?_, htree ▸ hheap, .inl ⟨rfl, rfl⟩⟩
    rw [Heap.walkGetNext]
    split
    · rfl
    · next hsome => cases hroot.symm.trans hsome
  | node a left right =>
    have hroot : heap.root = some a.ptr := by rw [hheap.root, htree, rootPtr_node]
    rw [← htree]
    have hpos : heap.walkPos.getD a.ptr ∈ ptrs tree := by
      cases hwalk : heap.walkPos with
      | none => exact rootPtr_mem (hheap.root.symm.trans hroot)
      | some pos => exact hheap.walkPos pos hwalk
    obtain ⟨cell, hcell, hptr⟩ := List.mem_map.mp hpos
    obtain ⟨value, hread, helement, -, hleft, hright⟩ := hheap.stored.read_cell hcell
    refine ⟨some cell.element, if bit then value.leftChild else value.rightChild, ?_, ?_,
      .inr ⟨cell, hcell, rfl⟩⟩
    · rw [Heap.walkGetNext, hroot]
      dsimp only
      rw [← hptr, hread, map_some, helement]
    · apply hheap.walk
      intro x hx
      split_ifs at hx
      · exact hleft x hx
      · exact hright x hx

variable {path : List (Frame (Cell Ptr Element Cost))}

section

variable (hheap : heap.Represents (plug path (node a left right)))
include hheap

theorem Represents.unlinkNode : ∃ heap', heap.unlinkNode a.ptr = some heap' ∧
      heap.Unlinked heap' a (plug path (node a left right))
        (removeCell heap.order path left right) ∧
      (a.ptr :: ptrs (removeCell heap.order path left right)).Nodup ∧
      Ordered heap.order.cellAbove (removeCell heap.order path left right) ∧
      (∀ x, heap'.read x ≠ none → x ∈ a.ptr :: ptrs (removeCell heap.order path left right)) ∧
      heap.size = UInt32.ofNat ((removeCell heap.order path left right).numNodes + 1) ∧
      ∀ x, heap.walkPos = some x → x ∈ a.ptr :: ptrs (removeCell heap.order path left right) := by
  obtain ⟨heap', hunlink, hunlinked⟩ :=
    unlinkNode_spec hheap.root hheap.stored hheap.nodup hheap.ordered
  have hperm := ptrs_removeCell heap.order path a left right
  refine ⟨heap', hunlink, hunlinked, hperm.nodup_iff.mp hheap.nodup, ?_, fun x hx => ?_, ?_,
    fun x hx => ?_⟩
  · exact ordered_removeAt heap.order.above_total heap.order.above_trans hheap.ordered
  · apply hperm.mem_iff.mp
    by_contra hout
    rw [hunlinked.frame x hout] at hx
    exact hout (hheap.allocated x hx)
  · rw [hheap.size, ← length_ptrs, hperm.length_eq, length_cons, length_ptrs]
  · exact hperm.mem_iff.mp (hheap.walkPos x hx)

theorem Represents.removeNode (bit : Bool) :
    ∃ heap', heap.removeNode a.ptr bit = some (some a.element, heap') ∧
      heap'.Represents (removeCell heap.order path left right) ∧ heap'.order = heap.order := by
  -- a walk at the node goes on before the node is taken out
  obtain ⟨walkPos, hwalk, hfirst⟩ : ∃ walkPos,
      (if heap.walkPos = some a.ptr then (heap.walkGetNext bit).map Prod.snd else some heap) =
        some { heap with walkPos } ∧
      Represents { heap with walkPos } (plug path (node a left right)) := by
    split_ifs
    · obtain ⟨_, walkPos, hnext, hrepresents, -⟩ := hheap.walkGetNext bit
      exact ⟨walkPos, by rw [hnext, map_some], hrepresents⟩
    · exact ⟨heap.walkPos, rfl, hheap⟩
  obtain ⟨next, hunlink, hunlinked, hnodup, hordered, hallocated, hsize, hpos⟩ := hfirst.unlinkNode
  have hsize' : next.size - 1 = UInt32.ofNat (removeCell heap.order path left right).numNodes := by
    rw [hunlinked.head.1, hsize, UInt32.ofNat_add]
    exact UInt32.add_sub_cancel _ _
  have horder : next.order = heap.order := hunlinked.head.2.1
  have heval : heap.removeNode a.ptr bit = some (some a.element, (if next.walkPos = some a.ptr then
        { next with size := next.size - 1, walkPos := none }
      else { next with size := next.size - 1 }).free a.ptr) := by
    rw [Heap.removeNode, hwalk, bind_some, hunlink, bind_some, hunlinked.node]
    rfl
  have hordered' : Ordered next.order.cellAbove (removeCell heap.order path left right) := by
    rw [horder]
    exact hordered
  refine ⟨_, heval, ?_, ?_⟩
  · split_ifs with hat
    · refine represents_free hunlinked.root hunlinked.stored hnodup hordered' hallocated hsize'
        fun x hx => ?_
      cases hx
    · refine represents_free hunlinked.root hunlinked.stored hnodup hordered' hallocated hsize'
        fun x (hx : next.walkPos = some x) => ?_
      apply (mem_cons.mp (hpos x (hunlinked.head.2.2.symm.trans hx))).resolve_left
      rintro rfl
      exact hat hx
  · split_ifs
    · exact horder
    · exact horder

theorem Represents.updateCost (newCost : Cost) :
    ∃ heap', heap.updateCost a.ptr newCost = some heap' ∧
      heap'.Represents (graftCells heap.order (removeCell heap.order path left right)
        (node ⟨a.ptr, a.element, newCost⟩ nil nil)) ∧ heap'.order = heap.order := by
  obtain ⟨next, hunlink, hunlinked, hnodup, _, hallocated, hsize, hpos⟩ := hheap.unlinkNode
  set first := next.write a.ptr ⟨none, none, none, a.element, newCost, 0⟩
  have hsame : ∀ x, x ≠ a.ptr → first.read x = next.read x := fun x hx => read_write_ne hx
  have horder : first.order = heap.order := hunlinked.head.2.1
  obtain ⟨heap', hattach, hrepresents, horder'⟩ := represents_attach
    (show first.root = _ from hunlinked.root)
    (hunlinked.stored.congr fun x hx => hsame x fun heq =>
      (nodup_cons.mp hnodup).1 (heq ▸ hx))
    read_write_self hnodup (by rwa [horder])
    (fun x hx => by
      by_cases hne : x = a.ptr
      · exact mem_cons.mpr (.inl hne)
      · rw [hsame x hne] at hx
        exact hallocated x hx)
    (hunlinked.head.1.trans hsize) (fun x hx => hpos x (hunlinked.head.2.2.symm.trans hx))
  rw [horder] at hrepresents horder'
  refine ⟨heap', ?_, hrepresents, horder'⟩
  rw [Heap.updateCost, hunlink, bind_some, update_eq hunlinked.node, bind_some]
  exact hattach

end

/-! ## Runs -/

/-- What a call is for: the element that it returns and the contents that it leaves.
For `GNUNET_CONTAINER_heap_remove_root` no other cost is nearer to the root. -/
def Prescribed (heap : Heap Ptr Element Cost) (element : Option Element)
    (heap' : Heap Ptr Element Cost) : HeapCall Ptr Element Cost → Prop
  | .insert ptr new cost => heap'.contents = ⟨ptr, new, cost⟩ ::ₘ heap.contents
  | .removeRoot =>
      (element = none ∧ heap.contents = 0 ∧ heap'.contents = 0) ∨
      ∃ cell, element = some cell.element ∧ heap.contents = cell ::ₘ heap'.contents ∧
        ∀ other ∈ heap.contents, heap.order.Above cell.cost other.cost
  | .removeNode ptr _ =>
      ∃ cell, cell.ptr = ptr ∧ element = some cell.element ∧ heap.contents = cell ::ₘ heap'.contents
  | .updateCost ptr newCost =>
      ∃ cell rest, cell.ptr = ptr ∧ heap.contents = cell ::ₘ rest ∧
        heap'.contents = ⟨ptr, cell.element, newCost⟩ ::ₘ rest
  | .walkGetNext _ =>
      heap'.contents = heap.contents ∧
      ((element = none ∧ heap.contents = 0) ∨ ∃ cell ∈ heap.contents, element = some cell.element)

omit [DecidableEq Ptr] in
theorem labels_graftCells_leaf (order : HeapOrder) (tree : BinaryTree (Cell Ptr Element Cost))
    (cell : Cell Ptr Element Cost) :
    Multiset.ofList (labels (graftCells order tree (node cell nil nil))) =
      cell ::ₘ Multiset.ofList (labels tree) := by
  apply Multiset.coe_eq_coe.mpr
  refine (labels_graft order.above_total tree _).trans ?_
  exact perm_append_comm

omit [DecidableEq Ptr] in
theorem labels_removeCell (order : HeapOrder) (path : List (Frame (Cell Ptr Element Cost)))
    (a : Cell Ptr Element Cost) (left right : BinaryTree (Cell Ptr Element Cost)) :
    Multiset.ofList (labels (plug path (node a left right))) =
      a ::ₘ Multiset.ofList (labels (removeCell order path left right)) :=
  Multiset.coe_eq_coe.mpr (labels_removeAt order.above_total path a left right)

theorem Represents.exists_path (hheap : heap.Represents tree) (hread : heap.read ptr ≠ none) :
    ∃ path a left right, tree = plug path (node a left right) ∧ a.ptr = ptr := by
  obtain ⟨a, ha, hptr⟩ := hheap.exists_cell hread
  obtain ⟨path, left, right, hplug⟩ := exists_plug_eq ha
  exact ⟨path, a, left, right, hplug, hptr⟩

theorem Represents.call (hheap : heap.Represents tree) (hallowed : heap.Allowed event) :
    ∃ element heap' tree', heap.call event = some (element, heap') ∧ heap'.Represents tree' ∧
      heap'.order = heap.order ∧ heap.Prescribed element heap' event := by
  cases event with
  | insert ptr new cost =>
    obtain ⟨heap', hinsert, hrepresents, horder⟩ := hheap.insert hallowed new cost
    refine ⟨none, heap', _, ?_, hrepresents, horder, ?_⟩
    · rw [Heap.call, hinsert, map_some]
    · rw [Prescribed, hrepresents.contents_eq, hheap.contents_eq, labels_graftCells_leaf]
  | removeRoot =>
    cases tree with
    | nil =>
      refine ⟨none, heap, nil, ?_, hheap, rfl, .inl ⟨rfl, hheap.contents_eq, hheap.contents_eq⟩⟩
      rw [Heap.call, Heap.removeRoot]
      split
      · rfl
      · next hsome => cases hheap.root.symm.trans hsome
    | node a left right =>
      obtain ⟨heap', hremove, hrepresents, horder⟩ := hheap.removeRoot
      refine ⟨some a.element, heap', _, hremove, hrepresents, horder, .inr ⟨a, rfl, ?_, ?_⟩⟩
      · rw [hrepresents.contents_eq, hheap.contents_eq]
        exact labels_removeCell heap.order [] a left right
      · intro other hother
        rw [hheap.contents_eq] at hother
        rcases hheap.ordered.root_above heap.order.above_trans rfl hother with rfl | habove
        · exact (heap.order.above_total other other).elim id id
        · exact habove
  | removeNode ptr bit =>
    obtain ⟨path, a, left, right, rfl, rfl⟩ := hheap.exists_path hallowed
    obtain ⟨heap', hremove, hrepresents, horder⟩ := hheap.removeNode bit
    refine ⟨some a.element, heap', _, hremove, hrepresents, horder, a, rfl, rfl, ?_⟩
    rw [hrepresents.contents_eq, hheap.contents_eq, labels_removeCell]
  | updateCost ptr newCost =>
    obtain ⟨path, a, left, right, rfl, rfl⟩ := hheap.exists_path hallowed
    obtain ⟨heap', hupdate, hrepresents, horder⟩ := hheap.updateCost newCost
    refine ⟨none, heap', _, ?_, hrepresents, horder, a,
      Multiset.ofList (labels (removeCell heap.order path left right)), rfl, ?_, ?_⟩
    · rw [Heap.call, hupdate, map_some]
    · rw [hheap.contents_eq, labels_removeCell]
    · rw [hrepresents.contents_eq, labels_graftCells_leaf]
  | walkGetNext bit =>
    obtain ⟨element, _, hwalk, hrepresents, hreturned⟩ := hheap.walkGetNext bit
    refine ⟨element, _, tree, hwalk, hrepresents, rfl, rfl, ?_⟩
    rw [hheap.contents_eq]
    rcases hreturned with ⟨hnone, rfl⟩ | ⟨cell, hcell, hsome⟩
    · exact .inl ⟨hnone, rfl⟩
    · exact .inr ⟨cell, hcell, hsome⟩

theorem exists_represents {order : HeapOrder} (hrun : Run step Allowed (create order) events heap) :
    heap.order = order ∧ ∃ tree, heap.Represents tree := by
  apply hrun.invariant (fun heap => heap.order = order ∧ ∃ tree, heap.Represents tree)
  · exact ⟨rfl, nil, represents_create order⟩
  · rintro before event after ⟨horder, _, hheap⟩ hallowed hstep
    obtain ⟨_, _, tree', hcall, hrepresents, horder', -⟩ := hheap.call hallowed
    rw [step, hcall, map_some] at hstep
    cases hstep
    exact ⟨horder'.trans horder, tree', hrepresents⟩

/-- After any calls the nodes are a tree in heap order with the right sizes, and the
next call does not fail an assertion and does what it is for. -/
theorem runs_keep_heap {order : HeapOrder} {events : List (HeapCall Ptr Element Cost)}
    (hrun : Run step Allowed (create order) events heap) :
    heap.order = order ∧ (∃ tree, heap.Represents tree) ∧
      heap.size = UInt32.ofNat heap.contents.card ∧
      ∀ event, heap.Allowed event → ∃ element heap' tree',
        heap.call event = some (element, heap') ∧ heap'.Represents tree' ∧
          heap.Prescribed element heap' event := by
  obtain ⟨horder, tree, hheap⟩ := exists_represents hrun
  refine ⟨horder, ⟨tree, hheap⟩, ?_, fun event hallowed => ?_⟩
  · rw [hheap.size, hheap.contents_eq, Multiset.coe_card, length_labels]
  · obtain ⟨element, heap', tree', hcall, hrepresents, -, hprescribed⟩ := hheap.call hallowed
    exact ⟨element, heap', tree', hcall, hrepresents, hprescribed⟩

theorem runs_keep_heap_three :
    ∃ heap : Heap Nat String Nat,
      Run step Allowed (create .min)
        [.insert 0 "a" 5, .insert 1 "b" 3, .insert 2 "c" 4, .walkGetNext true, .updateCost 0 1,
          .removeNode 2 false] heap ∧
      heap.Allowed .removeRoot ∧ heap.size = UInt32.ofNat heap.contents.card ∧
      ∃ element heap' tree', heap.call .removeRoot = some (element, heap') ∧
        heap'.Represents tree' ∧ heap.Prescribed element heap' .removeRoot := by
  have hsome : (exec step Allowed (create .min : Heap Nat String Nat)
      [.insert 0 "a" 5, .insert 1 "b" 3, .insert 2 "c" 4, .walkGetNext true, .updateCost 0 1,
        .removeNode 2 false]).isSome := by
    decide +kernel
  obtain ⟨heap, hexec⟩ := isSome_iff_exists.mp hsome
  have hrun := Run.of_exec hexec
  obtain ⟨-, -, hsize, hcalls⟩ := runs_keep_heap hrun
  exact ⟨heap, hrun, trivial, hsize, hcalls .removeRoot trivial⟩

/-- The loop of a caller that removes the root until there is none. -/
def drain : Nat → Heap Ptr Element Cost → Option (List Element × Heap Ptr Element Cost)
  | 0, heap => some ([], heap)
  | rounds + 1, heap => heap.removeRoot.bind fun (element, heap) =>
    match element with
    | none => some ([], heap)
    | some element => (drain rounds heap).map fun (elements, heap) => (element :: elements, heap)

/-- The loop takes out the cells, which are all that is in the heap, in the order of
their costs. -/
def DrainsTo (heap : Heap Ptr Element Cost) (rounds : Nat)
    (cells : List (Cell Ptr Element Cost)) : Prop :=
  ∃ last, heap.drain rounds = some (cells.map Cell.element, last) ∧ last.contents = 0 ∧
    Multiset.ofList cells = heap.contents ∧
    cells.Pairwise fun a b => heap.order.Above a.cost b.cost

theorem Represents.drain (hheap : heap.Represents tree)
    (hrounds : heap.contents.card < rounds) : ∃ cells, heap.DrainsTo rounds cells := by
  -- every round takes one cell out, and the last one finds the heap empty
  induction rounds generalizing heap tree with
  | zero => cases hrounds
  | succ rounds ih =>
    have hallowed : heap.Allowed .removeRoot := trivial
    obtain ⟨element, next, _, hcall, hnext, horder, hroot⟩ := hheap.call hallowed
    simp only [DrainsTo, Heap.drain, show heap.removeRoot = _ from hcall, bind_some]
    rcases hroot with ⟨rfl, hempty, hlast⟩ | ⟨cell, rfl, hcontents, habove⟩
    · exact ⟨[], next, rfl, hlast, hempty.symm, .nil⟩
    · rw [hcontents, Multiset.card_cons] at hrounds
      obtain ⟨cells, last, hdrain, hlast, hcells, hsorted⟩ := ih hnext (by omega)
      rw [hcontents, ← hcells] at habove ⊢
      rw [horder] at hsorted
      refine ⟨cell :: cells, last, by rw [hdrain]; rfl, hlast, rfl,
        pairwise_cons.mpr ⟨fun other hother => ?_, hsorted⟩⟩
      exact habove other (mem_cons_of_mem _ hother)

/-- Whatever was called before, the loop ends and has emptied the heap in order. -/
theorem drained_in_order {order : HeapOrder} {events : List (HeapCall Ptr Element Cost)}
    (hrun : Run step Allowed (create order) events heap) :
    heap.order = order ∧ ∃ cells, heap.DrainsTo (heap.contents.card + 1) cells := by
  obtain ⟨horder, _, hheap⟩ := exists_represents hrun
  exact ⟨horder, hheap.drain (Nat.lt_succ_self _)⟩

theorem drained_in_order_three :
    ∃ heap : Heap Nat String Nat,
      Run step Allowed (create .min) [.insert 0 "a" 5, .insert 1 "b" 3, .insert 2 "c" 4] heap ∧
      ∃ cells, heap.DrainsTo (heap.contents.card + 1) cells := by
  have hsome : (exec step Allowed (create .min : Heap Nat String Nat)
      [.insert 0 "a" 5, .insert 1 "b" 3, .insert 2 "c" 4]).isSome := by
    decide +kernel
  obtain ⟨heap, hexec⟩ := isSome_iff_exists.mp hsome
  exact ⟨heap, Run.of_exec hexec, (drained_in_order (Run.of_exec hexec)).2⟩

end Heap

end Gnunet.Container
