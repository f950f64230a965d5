import Mathlib.Tactic

/-!
# Records that are filled from both ends

Each item has an entry and a payload.  The entries stand in order from the
front, the payloads from the end: that of the first item is the last.  Without
its first item the record is an inner part of what it was.
-/

namespace TwoEndedLayout

variable {A B : Type} (entry payload : A → List B)

def stack : List A → List B
  | [] => []
  | a :: as => stack as ++ payload a

def layout (as : List A) : List B :=
  as.flatMap entry ++ stack payload as

/-- Writing the payloads one by one, each in front of those before it. -/
theorem foldl_eq_stack (as : List A) :
    as.foldl (fun written a => payload a ++ written) written = stack payload as ++ written := by
  induction as generalizing written with
  | nil => rfl
  | cons a as ih => rw [List.foldl_cons, ih, stack, List.append_assoc]

theorem layout_cons : layout entry payload (a :: as) =
      entry a ++ (layout entry payload as ++ payload a) := by
  simp only [layout, stack, List.flatMap_cons, List.append_assoc]

variable {entry payload}

theorem length_layout (as : List A) : (layout entry payload as).length =
      (as.map fun a => (entry a).length + (payload a).length).sum := by
  induction as with
  | nil => rfl
  | cons a as ih =>
    rw [layout_cons, List.length_append, List.length_append, ih, List.map_cons, List.sum_cons]
    omega

end TwoEndedLayout
