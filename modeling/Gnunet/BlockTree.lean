import Mathlib.Data.List.Perm.Basic
import Mathlib.Tactic

/-!
# Trees of blocks over a range of bytes

A range of bytes is cut into leaves of one size, and the nodes of a level are
grouped, always the same number of them, below the nodes of the next level.
Node `i` at some depth stands for the bytes from `i * span depth` on, and the
last node of a level may be incomplete.
-/

namespace BlockTree

open List Nat

structure Shape where
  leaf : Nat
  fanout : Nat
  leaf_pos : 0 < leaf
  fanout_pos : 0 < fanout

namespace Shape

variable (shape : Shape)

/-- The number of bytes below a complete node. -/
def span (depth : Nat) : Nat :=
  shape.leaf * shape.fanout ^ depth

def count (size depth : Nat) : Nat :=
  (size + shape.span depth - 1) / shape.span depth

def children (size depth i : Nat) : List Nat :=
  range' (shape.fanout * i) (min shape.fanout (shape.count size depth - shape.fanout * i))

def nodes (size levels : Nat) : List (Nat × Nat) :=
  (range levels).flatMap fun depth =>
    (range (shape.count size depth)).map (depth, ·)

/-- The nodes below a node and the node itself, each after those below it. -/
def post (size : Nat) : Nat → Nat → List (Nat × Nat)
  | 0, i => [(0, i)]
  | depth + 1, i =>
      (shape.children size depth i).flatMap (post size depth) ++ [(depth + 1, i)]

theorem span_pos (depth : Nat) : 0 < shape.span depth :=
  Nat.mul_pos shape.leaf_pos (Nat.pow_pos shape.fanout_pos)

@[simp] theorem span_zero : shape.span 0 = shape.leaf := by
  simp [span]

theorem span_succ (depth : Nat) : shape.span (depth + 1) = shape.span depth * shape.fanout := by
  rw [span, span, pow_succ, mul_assoc]

theorem ceil_le_iff (hr : 0 < r) : (x + r - 1) / r ≤ n ↔ x ≤ n * r := by
  rw [← not_lt, lt_div_iff_mul_lt hr]
  omega

variable {depth size : Nat}

theorem count_le_iff : shape.count size depth ≤ n ↔ size ≤ n * shape.span depth :=
  ceil_le_iff (shape.span_pos depth)

variable {i : Nat}

theorem lt_count_iff : i < shape.count size depth ↔ i * shape.span depth < size := by
  rw [← not_le, count_le_iff, not_le]

theorem count_pos (hsize : 0 < size) (depth : Nat) : 0 < shape.count size depth := by
  rw [lt_count_iff, zero_mul]
  exact hsize

theorem lt_count_succ_iff :
    i < shape.count size (depth + 1) ↔ shape.fanout * i < shape.count size depth := by
  rw [lt_count_iff, lt_count_iff, span_succ]
  have hmul : shape.fanout * i * shape.span depth = i * (shape.span depth * shape.fanout) := by ring
  rw [hmul]

theorem count_succ (size depth : Nat) : shape.count size (depth + 1) =
      (shape.count size depth + shape.fanout - 1) / shape.fanout := by
  apply eq_of_forall_lt_iff
  intro i
  rw [lt_count_succ_iff, ← not_le, ← not_le, ceil_le_iff shape.fanout_pos, mul_comm i]

/-- The bytes below a node, counted in spans of the level below it. -/
theorem ceil_eq_length_children (hnode : i < shape.count size (depth + 1)) :
    (min size ((i + 1) * shape.span (depth + 1)) - i * shape.span (depth + 1) +
        shape.span depth - 1) / shape.span depth = (shape.children size depth i).length := by
  have hlt := shape.lt_count_iff.mp hnode
  have hspan := shape.span_pos depth
  apply eq_of_forall_ge_iff
  intro n
  have hcut : (i + 1) * shape.span (depth + 1) =
      i * shape.span (depth + 1) + shape.span (depth + 1) := succ_mul _ _
  have hfull : shape.span (depth + 1) ≤ n * shape.span depth ↔ shape.fanout ≤ n := by
    rw [span_succ, mul_comm n]
    exact Nat.mul_le_mul_left_iff hspan
  have hcount : shape.count size depth ≤ n + shape.fanout * i ↔
      size ≤ n * shape.span depth + i * shape.span (depth + 1) := by
    rw [count_le_iff, span_succ, add_mul]
    have hmul : shape.fanout * i * shape.span depth =
        i * (shape.span depth * shape.fanout) := by ring
    rw [hmul]
  rw [ceil_le_iff hspan, children, length_range', hcut]
  omega

theorem mem_nodes : (depth, i) ∈ shape.nodes size levels ↔
      depth < levels ∧ i < shape.count size depth := by
  simp [nodes]

theorem flatMap_children : (range n).flatMap (shape.children size depth) =
      range (min (shape.fanout * n) (shape.count size depth)) := by
  induction n with
  | zero => simp
  | succ n ih =>
    have hmul : shape.fanout * (n + 1) = shape.fanout * n + shape.fanout := mul_succ _ _
    rw [range_succ, flatMap_append, ih, flatMap_singleton, children]
    rcases le_total (shape.count size depth) (shape.fanout * n) with hle | hle
    · have hempty : min shape.fanout
          (shape.count size depth - shape.fanout * n) = 0 := by omega
      have hmin : min (shape.fanout * (n + 1)) (shape.count size depth) =
          min (shape.fanout * n) (shape.count size depth) := by omega
      rw [hempty, hmin]
      simp
    · have happend (more : Nat) : range' 0 (shape.fanout * n) ++
          range' (shape.fanout * n) more = range' 0 (shape.fanout * n + more) := by
        rw [← range'_append_1, zero_add]
      rw [min_eq_left hle, range_eq_range', happend, range_eq_range']
      congr 1
      omega

theorem flatMap_children_all :
    (range (shape.count size (depth + 1))).flatMap (shape.children size depth) =
      range (shape.count size depth) := by
  have hlast : shape.count size depth ≤ shape.fanout * shape.count size (depth + 1) := by
    rw [← not_lt, ← lt_count_succ_iff]
    exact lt_irrefl _
  rw [flatMap_children, min_eq_right hlast]

/-- Below the nodes of a level is every node of the levels up to it once. -/
theorem flatMap_post_perm (size depth : Nat) :
    ((range (shape.count size depth)).flatMap (shape.post size depth)).Perm
      (shape.nodes size (depth + 1)) := by
  induction depth with
  | zero => simp [nodes, post, map_eq_flatMap]
  | succ depth ih =>
    have hsplit := (flatMap_append_perm (range (shape.count size (depth + 1)))
      (fun i => (shape.children size depth i).flatMap (shape.post size depth))
      (fun i => [(depth + 1, i)])).symm
    refine hsplit.trans ?_
    have hbelow : (range (shape.count size (depth + 1))).flatMap
        (fun i => (shape.children size depth i).flatMap (shape.post size depth)) =
        (range (shape.count size depth)).flatMap (shape.post size depth) := by
      rw [← flatMap_assoc, flatMap_children_all]
    rw [hbelow, nodes, range_succ, flatMap_append, flatMap_singleton, map_eq_flatMap]
    exact ih.append_right _

end Shape

end BlockTree
