import Gnunet.HeapOrderedTree
import Mathlib.Data.List.AList

/-!
# Heaps

`container_heap.c`.  The nodes are in a memory that maps pointers to nodes; a
pointer to a node that was freed is mapped to none.  Pointers, elements and costs
are arbitrary.  Where a function returns an option, `none` is a failing assertion
or an access to memory that is not a node.

A loop may run once for every node in memory, and twice where the nodes may change
their roles in between.
-/

namespace Gnunet.Container

inductive HeapOrder where
  | max
  | min
  deriving DecidableEq, Repr

structure HeapNode (Ptr Element Cost : Type) where
  parent : Option Ptr
  leftChild : Option Ptr
  rightChild : Option Ptr
  element : Element
  cost : Cost
  treeSize : UInt32
  deriving DecidableEq, Repr

/-- `struct GNUNET_CONTAINER_Heap`, with the memory of its nodes. -/
structure Heap (Ptr Element Cost : Type) where
  root : Option Ptr
  walkPos : Option Ptr
  size : UInt32
  order : HeapOrder
  memory : AList fun _ : Ptr => HeapNode Ptr Element Cost

structure Cell (Ptr Element Cost : Type) where
  ptr : Ptr
  element : Element
  cost : Cost

variable {Ptr Element Cost : Type}

def HeapOrder.Above [LE Cost] (order : HeapOrder) (pos node : Cost) : Prop :=
  match order with
  | .max => node ≤ pos
  | .min => pos ≤ node

instance [LE Cost] [DecidableLE Cost] (order : HeapOrder) (pos node : Cost) :
    Decidable (order.Above pos node) := by
  cases order <;> unfold HeapOrder.Above <;> infer_instance

def HeapNode.replaceChild [DecidableEq Ptr] (parent : HeapNode Ptr Element Cost) (pos : Ptr)
    (node : Option Ptr) : HeapNode Ptr Element Cost :=
  if parent.leftChild = some pos then { parent with leftChild := node }
  else { parent with rightChild := node }

namespace Heap

def create (order : HeapOrder) : Heap Ptr Element Cost :=
  ⟨none, none, 0, order, ∅⟩

variable [DecidableEq Ptr]

def read (heap : Heap Ptr Element Cost) (ptr : Ptr) : Option (HeapNode Ptr Element Cost) :=
  heap.memory.lookup ptr

def write (heap : Heap Ptr Element Cost) (ptr : Ptr) (node : HeapNode Ptr Element Cost) :
    Heap Ptr Element Cost :=
  { heap with memory := heap.memory.insert ptr node }

def free (heap : Heap Ptr Element Cost) (ptr : Ptr) : Heap Ptr Element Cost :=
  { heap with memory := heap.memory.erase ptr }

def update (heap : Heap Ptr Element Cost) (ptr : Ptr)
    (f : HeapNode Ptr Element Cost → HeapNode Ptr Element Cost) : Option (Heap Ptr Element Cost) :=
  (heap.read ptr).map fun node => heap.write ptr (f node)

def setParent (heap : Heap Ptr Element Cost) (ptr : Ptr) (parent : Option Ptr) :
    Option (Heap Ptr Element Cost) :=
  heap.update ptr fun node => { node with parent }

def relink (heap : Heap Ptr Element Cost) (parent : Option Ptr) (pos node : Ptr) :
    Option (Heap Ptr Element Cost) :=
  match parent with
  | none => some { heap with root := some node }
  | some parent => heap.update parent fun above => above.replaceChild pos (some node)

variable [LinearOrder Cost]

def insertLoop : Nat → Heap Ptr Element Cost → Ptr → Ptr → Option (Heap Ptr Element Cost)
  | 0, _, _, _ => none
  | rounds + 1, heap, pos, node =>
      (heap.read pos).bind fun p => (heap.read node).bind fun n =>
      if heap.order.Above p.cost n.cost then
        (heap.update pos fun p => { p with treeSize := p.treeSize + (1 + n.treeSize) }).bind
          fun heap =>
        match p.leftChild, p.rightChild with
        | none, _ =>
            (heap.update pos fun p => { p with leftChild := some node }).bind fun heap =>
              heap.setParent node (some pos)
        | some _, none =>
            (heap.update pos fun p => { p with rightChild := some node }).bind fun heap =>
              heap.setParent node (some pos)
        | some left, some right =>
            (heap.read left).bind fun l => (heap.read right).bind fun r =>
              insertLoop rounds heap (if l.treeSize < r.treeSize then left else right) node
      else
        (heap.setParent pos none).bind fun heap =>
        (heap.setParent node p.parent).bind fun heap =>
        (heap.relink p.parent pos node).bind fun heap =>
        (heap.read pos).bind fun p =>
          if p.parent = none then insertLoop rounds heap node pos else none

def insertNode (heap : Heap Ptr Element Cost) (pos node : Ptr) : Option (Heap Ptr Element Cost) :=
  (heap.read node).bind fun n =>
    if n.parent = none then insertLoop (2 * heap.memory.keys.length + 1) heap pos node else none

def attach (heap : Heap Ptr Element Cost) (node : Ptr) : Option (Heap Ptr Element Cost) :=
  match heap.root with
  | none => some { heap with root := some node }
  | some root => heap.insertNode root node

def insert (heap : Heap Ptr Element Cost) (ptr : Ptr) (element : Element) (cost : Cost) :
    Option (Heap Ptr Element Cost) :=
  let heap := { heap.write ptr ⟨none, none, none, element, cost, 0⟩ with size := heap.size + 1 }
  (heap.attach ptr).bind fun heap =>
  heap.root.bind fun root => (heap.read root).bind fun r =>
    if heap.size = r.treeSize + 1 then some heap else none

/-! ## Removing -/

def joinChildren (heap : Heap Ptr Element Cost) (left right : Option Ptr) :
    Option (Heap Ptr Element Cost) :=
  match left, right with
  | none, none => some { heap with root := none }
  | none, some right => setParent { heap with root := some right } right none
  | some left, none => setParent { heap with root := some left } left none
  | some left, some right =>
      (setParent { heap with root := some left } left none).bind fun heap =>
      (heap.setParent right none).bind fun heap => heap.insertNode left right

def removeRoot (heap : Heap Ptr Element Cost) : Option (Option Element × Heap Ptr Element Cost) :=
  match heap.root with
  | none => some (none, heap)
  | some root =>
      (heap.read root).bind fun r =>
      (joinChildren { heap with size := heap.size - 1 } r.leftChild r.rightChild).map fun heap =>
        let heap := if heap.walkPos = some root then { heap with walkPos := heap.root } else heap
        (some r.element, heap.free root)

def shrinkAncestors : Nat → Heap Ptr Element Cost → Ptr → Option (Heap Ptr Element Cost)
  | 0, _, _ => none
  | rounds + 1, heap, ancestor =>
      (heap.read ancestor).bind fun a =>
        match a.parent with
        | none => some heap
        | some parent =>
            (heap.update parent fun p => { p with treeSize := p.treeSize - 1 }).bind fun heap =>
              shrinkAncestors rounds heap parent

def childSize (heap : Heap Ptr Element Cost) : Option Ptr → Option UInt32
  | none => some 0
  | some child => (heap.read child).map fun c => 1 + c.treeSize

def reinsert (heap : Heap Ptr Element Cost) (parent : Ptr) (child : Option Ptr) :
    Option (Heap Ptr Element Cost) :=
  match child with
  | none => some heap
  | some child =>
      (heap.setParent child none).bind fun heap => (heap.read child).bind fun c =>
      (heap.update parent fun p => { p with treeSize := p.treeSize - (1 + c.treeSize) }).bind
        fun heap => heap.insertNode parent child

def replaceNode (heap : Heap Ptr Element Cost) (node : Ptr) (parent left right : Option Ptr) :
    Option (Heap Ptr Element Cost) :=
  match parent with
  | none => heap.joinChildren left right
  | some parent =>
      (heap.update parent fun p => p.replaceChild node none).bind fun heap =>
      (heap.reinsert parent left).bind fun heap => heap.reinsert parent right

def unlinkNode (heap : Heap Ptr Element Cost) (node : Ptr) : Option (Heap Ptr Element Cost) :=
  (shrinkAncestors (heap.memory.keys.length + 1) heap node).bind fun heap =>
  (heap.read node).bind fun n =>
  (heap.childSize n.leftChild).bind fun left => (heap.childSize n.rightChild).bind fun right =>
  (heap.update node fun n => { n with treeSize := n.treeSize - left - right }).bind fun heap =>
  (heap.replaceNode node n.parent n.leftChild n.rightChild).bind fun heap =>
  (heap.update node fun n =>
    { n with parent := none, leftChild := none, rightChild := none }).bind fun heap =>
  (heap.read node).bind fun n => if n.treeSize = 0 then some heap else none

/-- `GNUNET_CONTAINER_heap_walk_get_next`; the random number is a bit. -/
def walkGetNext (heap : Heap Ptr Element Cost) (bit : Bool) :
    Option (Option Element × Heap Ptr Element Cost) :=
  match heap.root with
  | none => some (none, heap)
  | some root =>
      let pos := heap.walkPos.getD root
      (heap.read pos).map fun p =>
        (some p.element, { heap with walkPos := if bit then p.leftChild else p.rightChild })

def removeNode (heap : Heap Ptr Element Cost) (node : Ptr) (bit : Bool) :
    Option (Option Element × Heap Ptr Element Cost) :=
  (if heap.walkPos = some node then (heap.walkGetNext bit).map Prod.snd else some heap).bind
    fun heap =>
  (heap.unlinkNode node).bind fun heap =>
  (heap.read node).map fun n =>
    let heap := { heap with size := heap.size - 1 }
    let heap := if heap.walkPos = some node then { heap with walkPos := none } else heap
    (some n.element, heap.free node)

def updateCost (heap : Heap Ptr Element Cost) (node : Ptr) (newCost : Cost) :
    Option (Heap Ptr Element Cost) :=
  (heap.unlinkNode node).bind fun heap =>
  (heap.update node fun n => { n with cost := newCost }).bind fun heap => heap.attach node

end Heap

/-- The functions that change a heap, with the choices of the allocator and of the
random number generator. -/
inductive HeapCall (Ptr Element Cost : Type) where
  | insert (ptr : Ptr) (element : Element) (cost : Cost)
  | removeRoot
  | removeNode (node : Ptr) (bit : Bool)
  | updateCost (node : Ptr) (newCost : Cost)
  | walkGetNext (bit : Bool)

namespace Heap

variable [DecidableEq Ptr] [LinearOrder Cost]

def call (heap : Heap Ptr Element Cost) :
    HeapCall Ptr Element Cost → Option (Option Element × Heap Ptr Element Cost)
  | .insert ptr element cost => (heap.insert ptr element cost).map (none, ·)
  | .removeRoot => heap.removeRoot
  | .removeNode node bit => heap.removeNode node bit
  | .updateCost node newCost => (heap.updateCost node newCost).map (none, ·)
  | .walkGetNext bit => heap.walkGetNext bit

def step (heap : Heap Ptr Element Cost) (event : HeapCall Ptr Element Cost) :
    Option (Heap Ptr Element Cost) :=
  (heap.call event).map Prod.snd

/-- New memory is not in use, and the caller gives a node of the heap. -/
def Allowed (heap : Heap Ptr Element Cost) : HeapCall Ptr Element Cost → Prop
  | .insert ptr _ _ => heap.read ptr = none
  | .removeRoot => True
  | .removeNode node _ => heap.read node ≠ none
  | .updateCost node _ => heap.read node ≠ none
  | .walkGetNext _ => True

instance (heap : Heap Ptr Element Cost) (event : HeapCall Ptr Element Cost) :
    Decidable (heap.Allowed event) := by
  cases event <;> unfold Allowed <;> infer_instance

def contents (heap : Heap Ptr Element Cost) : Multiset (Cell Ptr Element Cost) :=
  Multiset.ofList (heap.memory.entries.map fun entry =>
    ⟨entry.1, entry.2.element, entry.2.cost⟩)

end Heap

end Gnunet.Container
