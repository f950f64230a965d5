import Mathlib.Data.Tree.Basic
import Mathlib.Data.List.Perm.Basic
import Mathlib.Tactic

/-!
# Trees in heap order

A tree is in heap order if no label is below those of its children.  `graft` puts
one such tree below another: the smaller of the two roots stays on top and the
other tree goes down on one side, into an empty subtree if there is one.  Inner
trees are reached by paths, and removed by grafting their subtrees onto the tree
around them.
-/

namespace HeapOrderedTree

open BinaryTree
open List hiding nil

variable {A : Type}

def labels : BinaryTree A → List A
  | nil => []
  | node a left right => a :: (labels left ++ labels right)

def root? : BinaryTree A → Option A
  | nil => none
  | node a _ _ => some a

@[simp] theorem labels_nil : labels (nil : BinaryTree A) = [] := rfl

@[simp] theorem labels_node (a : A) (left right : BinaryTree A) :
    labels (node a left right) = a :: (labels left ++ labels right) := rfl

@[simp] theorem root?_nil : root? (nil : BinaryTree A) = none := rfl

@[simp] theorem root?_node (a : A) (left right : BinaryTree A) :
    root? (node a left right) = some a := rfl

theorem length_labels : (labels tree).length = tree.numNodes := by
  induction tree with
  | nil => rfl
  | node a left right ihLeft ihRight =>
    rw [labels, numNodes, length_cons, length_append, ihLeft, ihRight]

variable {tree : BinaryTree A}

theorem mem_labels_of_root? (ha : a ∈ root? tree) : a ∈ labels tree := by
  cases tree with
  | nil => cases ha
  | node b left right =>
    cases ha
    exact mem_cons_self

/-! ## Grafting -/

variable {other : BinaryTree A}

section

variable (above : A → A → Prop) (side : BinaryTree A → BinaryTree A → Bool)

def Ordered : BinaryTree A → Prop
  | nil => True
  | node a left right =>
      (∀ b ∈ root? left, above a b) ∧ (∀ b ∈ root? right, above a b) ∧ Ordered left ∧ Ordered right

def goesLeft (left right : BinaryTree A) : Bool :=
  match left, right with
  | nil, _ => true
  | node _ _ _, nil => false
  | left, right => side left right

variable [DecidableRel above]

def graft : BinaryTree A → BinaryTree A → BinaryTree A
  | nil, other => other
  | node a left right, nil => node a left right
  | node a left right, node b left' right' =>
      if above a b then
        if goesLeft side left right then node a (graft left (node b left' right')) right
        else node a left (graft right (node b left' right'))
      else
        if goesLeft side left' right' then node b (graft left' (node a left right)) right'
        else node b left' (graft right' (node a left right))
termination_by tree other => tree.numNodes + other.numNodes
decreasing_by all_goals simp only [numNodes]; omega

variable {above side}

@[simp] theorem graft_nil_left : graft above side nil other = other := by
  rw [graft]

@[simp] theorem graft_nil_right : graft above side tree nil = tree := by
  cases tree <;> rw [graft]

variable {a b : A} {left right left' right' : BinaryTree A}

theorem graft_of_above (hab : above a b) :
    graft above side (node a left right) (node b left' right') = if goesLeft side left right then
        node a (graft above side left (node b left' right')) right
      else node a left (graft above side right (node b left' right')) := by
  rw [graft, if_pos hab]

theorem graft_swap (hab : ¬ above a b) (hba : above b a) :
    graft above side (node a left right) (node b left' right') =
      graft above side (node b left' right') (node a left right) := by
  rw [graft, if_neg hab, graft_of_above hba]

theorem root?_graft_of_above (hab : above a b) :
    root? (graft above side (node a left right) (node b left' right')) = some a := by
  rw [graft_of_above hab]
  split_ifs
  · rfl
  · rfl

theorem root?_graft (htree : root? tree = some a) (hother : ∀ b ∈ root? other, above a b) :
    root? (graft above side tree other) = some a := by
  cases tree with
  | nil => cases htree
  | node c left right =>
    cases htree
    cases other with
    | nil => rw [graft_nil_right, root?_node]
    | node b left' right' => exact root?_graft_of_above (hother b rfl)

/-- A fact about `graft` for all trees, from what it does on top. -/
theorem graft_induction {P : BinaryTree A → BinaryTree A → BinaryTree A → Prop}
    (htotal : ∀ a b, above a b ∨ above b a)
    (hnil : ∀ other, P nil other other) (hnone : ∀ tree, P tree nil tree)
    (hleft : ∀ a left right b left' right' result, above a b → P left (node b left' right') result →
      P (node a left right) (node b left' right') (node a result right))
    (hright : ∀ a left right b left' right' result, above a b →
      P right (node b left' right') result →
      P (node a left right) (node b left' right') (node a left result))
    (hswap : ∀ tree other result, P tree other result → P other tree result)
    (tree other : BinaryTree A) : P tree other (graft above side tree other) := by
  -- the induction is on both trees together; the root on top leaves its tree
  induction hsize : tree.numNodes + other.numNodes using Nat.strong_induction_on
    generalizing tree other with
  | _ size ih =>
    have hdown : ∀ a left right b left' right', above a b →
        (node a left right).numNodes + (node b left' right').numNodes = size →
        P (node a left right) (node b left' right')
          (graft above side (node a left right) (node b left' right')) := by
      intro a left right b left' right' hab hsize
      rw [numNodes] at hsize
      rw [graft_of_above hab]
      split_ifs
      · exact hleft _ _ _ _ _ _ _ hab (ih _ (by omega) _ _ rfl)
      · exact hright _ _ _ _ _ _ _ hab (ih _ (by omega) _ _ rfl)
    cases tree with
    | nil =>
      rw [graft_nil_left]
      exact hnil other
    | node a left right =>
      cases other with
      | nil =>
        rw [graft_nil_right]
        exact hnone _
      | node b left' right' =>
        by_cases hab : above a b
        · exact hdown _ _ _ _ _ _ hab hsize
        · have hba := (htotal a b).resolve_left hab
          rw [graft_swap hab hba]
          exact hswap _ _ _ (hdown _ _ _ _ _ _ hba (by omega))

variable (htotal : ∀ a b, above a b ∨ above b a)
include htotal

theorem labels_graft (tree other : BinaryTree A) :
    (labels (graft above side tree other)).Perm (labels tree ++ labels other) := by
  apply graft_induction (P := fun tree other result =>
    (labels result).Perm (labels tree ++ labels other)) htotal
  · exact fun other => List.Perm.refl _
  · intro tree
    rw [labels_nil, append_nil]
  · intro a left right b left' right' result _ hresult
    rw [labels_node a result, labels_node a left, cons_append, append_assoc]
    apply List.Perm.cons
    calc
      (labels result ++ labels right).Perm
          (labels left ++ labels (node b left' right') ++ labels right) :=
        hresult.append_right _
      List.Perm _ (labels left ++ (labels right ++ labels (node b left' right'))) := by
        rw [append_assoc]
        exact perm_append_comm.append_left _
  · intro a left right b left' right' result _ hresult
    rw [labels_node a left result, labels_node a left right, cons_append, append_assoc]
    exact (hresult.append_left _).cons _
  · exact fun tree other result hresult => hresult.trans perm_append_comm

theorem numNodes_graft (tree other : BinaryTree A) :
    (graft above side tree other).numNodes = tree.numNodes + other.numNodes := by
  rw [← length_labels, (labels_graft htotal tree other).length_eq, length_append,
    length_labels, length_labels]

theorem ordered_graft (htree : Ordered above tree) (hother : Ordered above other) :
    Ordered above (graft above side tree other) := by
  -- the root of the result is one of the two roots, which is what the label above needs
  refine (graft_induction (P := fun tree other result =>
    Ordered above tree → Ordered above other → Ordered above result ∧
      ∀ c ∈ root? result, c ∈ root? tree ∨ c ∈ root? other) htotal
    (fun other _ hother => ⟨hother, fun c hc => .inr hc⟩)
    (fun tree htree _ => ⟨htree, fun c hc => .inl hc⟩) ?_ ?_
    (fun tree other result hresult hother htree =>
      ⟨(hresult htree hother).1, fun c hc => ((hresult htree hother).2 c hc).symm⟩)
    tree other htree hother).1
  · rintro a left right b left' right' result hab hresult ⟨hl, hr, hleft, hright⟩ hother
    obtain ⟨hordered, hroot⟩ := hresult hleft hother
    refine ⟨⟨fun c hc => ?_, hr, hordered, hright⟩, fun c hc => .inl hc⟩
    rcases hroot c hc with hc | hc
    · exact hl c hc
    · cases hc
      exact hab
  · rintro a left right b left' right' result hab hresult ⟨hl, hr, hleft, hright⟩ hother
    obtain ⟨hordered, hroot⟩ := hresult hright hother
    refine ⟨⟨hl, fun c hc => ?_, hleft, hordered⟩, fun c hc => .inl hc⟩
    rcases hroot c hc with hc | hc
    · exact hr c hc
    · cases hc
      exact hab

end

section

variable {above : A → A → Prop}

theorem Ordered.root_above (htrans : ∀ a b c, above a b → above b c → above a c)
    (htree : Ordered above tree) (ha : a ∈ root? tree) (hb : b ∈ labels tree) :
    b = a ∨ above a b := by
  induction tree generalizing a with
  | nil => cases ha
  | node c left right ihLeft ihRight =>
    cases ha
    obtain ⟨hl, hr, hleft, hright⟩ := htree
    have hsub : ∀ {sub : BinaryTree A}, (∀ d ∈ root? sub, above c d) →
        (∀ {d}, d ∈ root? sub → b = d ∨ above d b) → b ∈ labels sub → b = c ∨ above c b := by
      intro sub hroot hbelow hmem
      cases sub with
      | nil => cases hmem
      | node d l r =>
        have hcd := hroot d rfl
        rcases @hbelow d rfl with rfl | hdb
        · exact .inr hcd
        · exact .inr (htrans _ _ _ hcd hdb)
    rcases mem_cons.mp hb with rfl | hmem
    · exact .inl rfl
    · rcases mem_append.mp hmem with hmem | hmem
      · exact hsub hl (fun hd => ihLeft hleft hd hmem) hmem
      · exact hsub hr (fun hd => ihRight hright hd hmem) hmem

end

/-! ## Paths -/

structure Frame (A : Type) where
  label : A
  holeLeft : Bool
  sibling : BinaryTree A

def Frame.fill (frame : Frame A) (tree : BinaryTree A) : BinaryTree A :=
  if frame.holeLeft then node frame.label tree frame.sibling
  else node frame.label frame.sibling tree

def plug : List (Frame A) → BinaryTree A → BinaryTree A
  | [], tree => tree
  | frame :: path, tree => plug path (frame.fill tree)

def pathLabels (path : List (Frame A)) : List A :=
  path.flatMap fun frame => frame.label :: labels frame.sibling

theorem labels_fill (frame : Frame A) (tree : BinaryTree A) :
    (labels (frame.fill tree)).Perm (labels tree ++ (frame.label :: labels frame.sibling)) := by
  rw [Frame.fill]
  split_ifs
  · exact perm_middle.symm
  · exact (perm_append_comm.cons _).trans perm_middle.symm

theorem root?_fill (frame : Frame A) (tree : BinaryTree A) :
    root? (frame.fill tree) = some frame.label := by
  rw [Frame.fill]
  split_ifs
  · rfl
  · rfl

theorem numNodes_fill (frame : Frame A) :
    (frame.fill tree).numNodes = tree.numNodes + frame.sibling.numNodes + 1 := by
  rw [Frame.fill]
  split_ifs
  · rfl
  · rw [numNodes]
    omega

theorem labels_plug (path : List (Frame A)) (tree : BinaryTree A) :
    (labels (plug path tree)).Perm (labels tree ++ pathLabels path) := by
  induction path generalizing tree with
  | nil => rw [plug, pathLabels, flatMap_nil, append_nil]
  | cons frame path ih =>
    have hfill := (labels_fill frame tree).append_right (pathLabels path)
    rw [append_assoc] at hfill
    exact (ih (frame.fill tree)).trans hfill

theorem plug_append (path more : List (Frame A)) (tree : BinaryTree A) :
    plug (path ++ more) tree = plug more (plug path tree) := by
  induction path generalizing tree with
  | nil => rfl
  | cons frame path ih => exact ih (frame.fill tree)

theorem exists_plug_eq (ha : a ∈ labels tree) :
    ∃ path left right, tree = plug path (node a left right) := by
  induction tree with
  | nil => cases ha
  | node b l r ihLeft ihRight =>
    rcases mem_cons.mp ha with rfl | hmem
    · exact ⟨[], l, r, rfl⟩
    · rcases mem_append.mp hmem with hmem | hmem
      · obtain ⟨path, left, right, hpath⟩ := ihLeft hmem
        refine ⟨path ++ [⟨b, true, r⟩], left, right, ?_⟩
        rw [plug_append, ← hpath]
        rfl
      · obtain ⟨path, left, right, hpath⟩ := ihRight hmem
        refine ⟨path ++ [⟨b, false, l⟩], left, right, ?_⟩
        rw [plug_append, ← hpath]
        rfl

section

variable {above : A → A → Prop}

theorem ordered_fill_iff (frame : Frame A) (tree : BinaryTree A) :
    Ordered above (frame.fill tree) ↔ (∀ b ∈ root? tree, above frame.label b) ∧
      Ordered above tree ∧ (∀ b ∈ root? frame.sibling, above frame.label b) ∧
      Ordered above frame.sibling := by
  rw [Frame.fill]
  split_ifs
  · exact ⟨fun ⟨hl, hr, htree, hsibling⟩ => ⟨hl, htree, hr, hsibling⟩,
      fun ⟨hl, htree, hr, hsibling⟩ => ⟨hl, hr, htree, hsibling⟩⟩
  · exact ⟨fun ⟨hl, hr, hsibling, htree⟩ => ⟨hr, htree, hl, hsibling⟩,
      fun ⟨hr, htree, hl, hsibling⟩ => ⟨hl, hr, hsibling, htree⟩⟩

variable {path : List (Frame A)}

/-- An inner tree may be replaced by one with the same root. -/
theorem ordered_plug (hplug : Ordered above (plug path tree)) (hroot : root? other = root? tree)
    (hother : Ordered above tree → Ordered above other) : Ordered above (plug path other) := by
  induction path generalizing tree other with
  | nil => exact hother hplug
  | cons frame path ih =>
    apply ih hplug
    · rw [root?_fill, root?_fill]
    · intro hfill
      obtain ⟨habove, htree, hsibling⟩ := (ordered_fill_iff frame tree).mp hfill
      exact (ordered_fill_iff frame other).mpr ⟨hroot ▸ habove, hother htree, hsibling⟩

theorem Ordered.of_plug (hplug : Ordered above (plug path tree)) : Ordered above tree := by
  induction path generalizing tree with
  | nil => exact hplug
  | cons frame path ih => exact ((ordered_fill_iff frame tree).mp (ih hplug)).2.1

variable (above) (side : BinaryTree A → BinaryTree A → Bool) [DecidableRel above]

/-- A tree without the root of an inner tree, whose subtrees are grafted onto the
node above. -/
def removeAt (path : List (Frame A)) (left right : BinaryTree A) : BinaryTree A :=
  match path with
  | [] => graft above side left right
  | frame :: path =>
      plug path (graft above side (graft above side (frame.fill nil) left) right)

variable {above side} (htotal : ∀ a b, above a b ∨ above b a)
include htotal

theorem labels_removeAt (path : List (Frame A)) (a : A) (left right : BinaryTree A) :
    (labels (plug path (node a left right))).Perm
      (a :: labels (removeAt above side path left right)) := by
  cases path with
  | nil => exact (labels_graft htotal left right).symm.cons a
  | cons frame path =>
    have hgraft : (labels (graft above side (graft above side (frame.fill nil) left) right)).Perm
        (labels left ++ labels right ++ (frame.label :: labels frame.sibling)) := by
      calc
        (labels (graft above side (graft above side (frame.fill nil) left) right)).Perm
            (labels (graft above side (frame.fill nil) left) ++ labels right) :=
          labels_graft htotal _ _
        List.Perm _ (labels (frame.fill nil) ++ labels left ++ labels right) :=
          (labels_graft htotal _ _).append_right _
        List.Perm _ (frame.label :: labels frame.sibling ++ labels left ++ labels right) :=
          ((labels_fill frame nil).append_right _).append_right _
        List.Perm _ _ := by
          rw [append_assoc]
          exact perm_append_comm
    calc
      (labels (plug (frame :: path) (node a left right))).Perm
          (labels (frame.fill (node a left right)) ++ pathLabels path) :=
        labels_plug path _
      List.Perm _ (a :: (labels left ++ labels right) ++
          (frame.label :: labels frame.sibling) ++ pathLabels path) :=
        (labels_fill frame _).append_right _
      List.Perm _ (a :: (labels (graft above side (graft above side (frame.fill nil) left)
          right) ++ pathLabels path)) :=
        (hgraft.symm.append_right _).cons a
      List.Perm _ _ := (labels_plug path _).symm.cons a

/-- The subtrees of an inner node are below the node above it. -/
theorem ordered_removeAt (htrans : ∀ a b c, above a b → above b c → above a c)
    {left right : BinaryTree A} (hplug : Ordered above (plug path (node a left right))) :
    Ordered above (removeAt above side path left right) := by
  obtain ⟨hl, hr, hleft, hright⟩ := hplug.of_plug
  cases path with
  | nil => exact ordered_graft htotal hleft hright
  | cons frame path =>
    obtain ⟨habove, -, hsibling, hordered⟩ := (ordered_fill_iff frame _).mp (Ordered.of_plug hplug)
    have hfa := habove a rfl
    have hempty : Ordered above (frame.fill nil) :=
      (ordered_fill_iff frame nil).mpr ⟨by simp, trivial, hsibling, hordered⟩
    have hinner : Ordered above (plug path (frame.fill (node a left right))) := hplug
    apply ordered_plug hinner
    · rw [root?_fill]
      apply root?_graft
      · exact root?_graft (root?_fill frame nil) fun b hb => htrans _ _ _ hfa (hl b hb)
      · exact fun b hb => htrans _ _ _ hfa (hr b hb)
    · intro _
      exact ordered_graft htotal (ordered_graft htotal hempty hleft) hright

end

end HeapOrderedTree
