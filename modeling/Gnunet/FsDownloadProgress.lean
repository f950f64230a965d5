import Gnunet.FsDownload

/-!
# The progress of a download

The number of bytes that a download counts as complete is the number of bytes of
the range whose DBLOCKs are done, as long as `reconstruct_cb` does not find a block
that begins before the range: it counts such a block from its first byte on.
-/

namespace Gnunet.Fs

open BlockTree List Option Function DownloadContext Protocol

theorem Forall₂.getElem? {α β : Type} {R : α → β → Prop} {xs : List α} {ys : List β}
    (hall : Forall₂ R xs ys) {n : Nat} {y : β} (hy : ys[n]? = some y) :
    ∃ x, xs[n]? = some x ∧ R x y := by
  induction hall generalizing n with
  | nil => cases hy
  | @cons x y' xs ys hxy _ ih =>
    cases n with
    | zero =>
      cases hy
      exact ⟨x, rfl, hxy⟩
    | succ n => exact ih hy

/-! ## Positions in the tree of a range -/

structure RightTree (start length root : Nat) (top : DownloadRequest) : Prop where
  depth : root ≤ 6
  file : start + length ≤ 2 ^ 63
  inside : start + length ≤ chkShape.span root
  nonempty : 0 < length
  created : createDownloadRequest start length root 0 0 = some top
  fits : ∀ depth i, depth + 1 ≤ root → Meets start length (depth + 1) i → Fits start length depth i

structure RequestOf (start length root depth i : Nat) (dr : DownloadRequest) : Prop where
  created : ∃ chkIdx,
    createDownloadRequest start length depth chkIdx (i * chkShape.span depth) = some dr
  meets : Meets start length depth i
  level : depth ≤ root

/-- Whether a byte of the file is below the request at a position. -/
def Below (top : DownloadRequest) (b : Nat) (position : Position) : Prop :=
  ∃ dr, top.find position = some dr ∧ dr.offset ≤ b ∧ b < dr.offset + chkShape.span dr.depth

variable {b i : Nat} {q : Position}

section

variable {start length root : Nat} {top : DownloadRequest}

theorem RequestOf.offset
    (hnode : RequestOf start length root depth i dr) : dr.offset = i * chkShape.span depth := by
  obtain ⟨_, hcreate⟩ := hnode.created
  exact (createDownloadRequest_fields hcreate).1

theorem RequestOf.depth {depth : Nat}
    (hnode : RequestOf start length root depth i dr) : dr.depth = depth := by
  obtain ⟨_, hcreate⟩ := hnode.created
  exact (createDownloadRequest_fields hcreate).2.1

variable {a : Nat}

section

variable (htree : RightTree start length root top)
include htree

theorem RequestOf.child {depth : Nat} {dr child : DownloadRequest}
    (hnode : RequestOf start length root (depth + 1) i dr) (hchild : dr.children[a]? = some child) :
    ∃ k, k = blocksSkipped start depth i + a ∧ k ∈ childKeys start length depth i ∧
      child.chkIdx = k ∧ RequestOf start length root depth (chkPerInode * i + k) child := by
  obtain ⟨_, hcreate⟩ := hnode.created
  have hroot := htree.depth
  have hlevel := hnode.level
  obtain ⟨k, hk, hcreated⟩ := Forall₂.getElem?
    (createDownloadRequest_children (by omega) htree.file hnode.meets hcreate) hchild
  have hmem : k ∈ childKeys start length depth i := mem_of_getElem? hk
  refine ⟨k, ?_, hmem, (createDownloadRequest_fields hcreated).2.2,
    ⟨k, hcreated⟩, meets_of_mem_childKeys hmem, by omega⟩
  obtain ⟨_, heq⟩ := List.getElem?_eq_some_iff.mp hk
  rw [← heq]
  simp [childKeys]

theorem RequestOf.exists_child {depth k : Nat}
    (hnode : RequestOf start length root (depth + 1) i dr) (hk : k < chkPerInode)
    (hmeets : Meets start length depth (chkPerInode * i + k)) :
    ∃ (a : Nat) (child : DownloadRequest), dr.children[a]? = some child ∧
      RequestOf start length root depth (chkPerInode * i + k) child := by
  obtain ⟨_, hcreate⟩ := hnode.created
  have hroot := htree.depth
  have hlevel := hnode.level
  have hfits := htree.fits depth i hlevel hnode.meets
  have hmem := (mem_childKeys_iff_of_fits hnode.meets hfits).mpr ⟨hk, hmeets⟩
  obtain ⟨child, hchild, hcreated⟩ := Forall₂.exists_right
    (createDownloadRequest_children (by omega) htree.file hnode.meets hcreate) hmem
  obtain ⟨a, ha⟩ := mem_iff_getElem?.mp hchild
  exact ⟨a, child, ha, ⟨k, hcreated⟩, hmeets, by omega⟩

theorem RightTree.top_request : RequestOf start length root root 0 top := by
  have hinside := htree.inside
  have hnonempty := htree.nonempty
  refine ⟨⟨0, ?_⟩, ⟨?_, ?_⟩, Nat.le_refl _⟩
  · rw [Nat.zero_mul]
    exact htree.created
  · omega
  · omega

end

theorem RequestOf.children_eq_nil
    (hnode : RequestOf start length root 0 i dr) : dr.children = [] := by
  obtain ⟨_, hcreate⟩ := hnode.created
  cases hcreate
  rfl

theorem RightTree.request_of_find (htree : RightTree start length root top) {p : Position}
    (hfind : top.find p = some dr) : ∃ depth i, RequestOf start length root depth i dr := by
  induction p generalizing dr with
  | nil =>
    cases hfind
    exact ⟨root, 0, htree.top_request⟩
  | cons a p ih =>
    obtain ⟨_, hparent, hchild⟩ := bind_eq_some_iff.mp hfind
    obtain ⟨depth, i, hnode⟩ := ih hparent
    cases depth with
    | zero =>
      rw [hnode.children_eq_nil] at hchild
      cases hchild
    | succ depth =>
      obtain ⟨k, _, _, _, hrequest⟩ := hnode.child htree hchild
      exact ⟨depth, chkPerInode * i + k, hrequest⟩

theorem RightTree.parent_of_find (htree : RightTree start length root top) {p : Position}
    (hfind : top.find (a :: p) = some child) :
    ∃ dr depth i k, top.find p = some dr ∧ RequestOf start length root (depth + 1) i dr ∧
      k = blocksSkipped start depth i + a ∧ k < chkPerInode ∧
      RequestOf start length root depth (chkPerInode * i + k) child := by
  obtain ⟨parent, hparent, hchild⟩ := bind_eq_some_iff.mp hfind
  obtain ⟨depth, i, hnode⟩ := htree.request_of_find hparent
  cases depth with
  | zero =>
    rw [hnode.children_eq_nil] at hchild
    cases hchild
  | succ depth =>
    obtain ⟨k, hk, hmem, _, hrequest⟩ := hnode.child htree hchild
    have hfits := htree.fits depth i hnode.level hnode.meets
    have hlt := ((mem_childKeys_iff_of_fits hnode.meets hfits).mp hmem).1
    exact ⟨parent, depth, i, k, hparent, hnode, hk, hlt, hrequest⟩

theorem Below.iff_of_request
    (hfind : top.find p = some dr) (hnode : RequestOf start length root depth i dr) :
    Below top b p ↔ i * chkShape.span depth ≤ b ∧ b < (i + 1) * chkShape.span depth := by
  have hcut : (i + 1) * chkShape.span depth =
      i * chkShape.span depth + chkShape.span depth := Nat.succ_mul _ _
  rw [hcut]
  constructor
  · rintro ⟨_, hfind', hbelow⟩
    rw [hfind] at hfind'
    cases hfind'
    rw [hnode.offset, hnode.depth] at hbelow
    exact hbelow
  · intro hbelow
    refine ⟨dr, hfind, ?_⟩
    rw [hnode.offset, hnode.depth]
    exact hbelow

variable (htree : RightTree start length root top)
include htree

theorem Below.parent (hbelow : Below top b (a :: p)) : Below top b p := by
  have ⟨child, hfind, _⟩ := hbelow
  obtain ⟨_, depth, _, _, hparent, hnode, _, hk, hchild⟩ := htree.parent_of_find hfind
  rw [iff_of_request hfind hchild, Nat.add_assoc, child_offset, child_offset] at hbelow
  rw [iff_of_request hparent hnode, node_end]
  have hmul := child_end_le depth hk
  omega

theorem Below.suffix (r : Position) (hbelow : Below top b (r ++ p)) : Below top b p := by
  induction r with
  | nil => exact hbelow
  | cons a r ih => exact ih (hbelow.parent htree)

theorem Below.unique (hp : Below top b p) (hq : Below top b q)
    (hlength : p.length = q.length) : p = q := by
  induction p generalizing q with
  | nil => exact (length_eq_zero_iff.mp hlength.symm).symm
  | cons a p ih =>
    cases q with
    | nil => cases hlength
    | cons a' q =>
      have heq := ih (hp.parent htree) (hq.parent htree) (Nat.succ.inj hlength)
      subst heq
      have ⟨child, hfind, _⟩ := hp
      have ⟨child', hfind', _⟩ := hq
      obtain ⟨_, _, i, k, hparent, hnode, _, _, hchild⟩ := htree.parent_of_find hfind
      obtain ⟨_, _, _, k', hparent', hnode', _, _, hchild'⟩ := htree.parent_of_find hfind'
      rw [hparent] at hparent'
      cases hparent'
      have hdepth := hnode.depth.symm.trans hnode'.depth
      cases hdepth
      have hoffset := hnode.offset.symm.trans hnode'.offset
      cases Nat.eq_of_mul_eq_mul_right (chkShape.span_pos _) hoffset
      rw [iff_of_request hfind hchild] at hp
      rw [iff_of_request hfind' hchild'] at hq
      have hle : chkPerInode * i + k < chkPerInode * i + k' + 1 :=
        Nat.lt_of_mul_lt_mul_right (lt_of_le_of_lt hp.1 hq.2)
      have hge : chkPerInode * i + k' < chkPerInode * i + k + 1 :=
        Nat.lt_of_mul_lt_mul_right (lt_of_le_of_lt hq.1 hp.2)
      have ha : a = a' := by omega
      rw [ha]

theorem Below.comparable (hp : Below top b p) (hq : Below top b q)
    (hlength : p.length ≤ q.length) : p <:+ q := by
  have hdrop : Below top b (q.drop (q.length - p.length)) := by
    apply suffix htree (q.take (q.length - p.length))
    rw [take_append_drop]
    exact hq
  have heq : p = q.drop (q.length - p.length) := by
    apply hp.unique htree hdrop
    rw [length_drop]
    omega
  rw [heq]
  exact drop_suffix _ _

/-- A byte of the range below an inner request is below one of its children. -/
theorem Below.exists_child {depth : Nat} {dr : DownloadRequest}
    (hfind : top.find p = some dr) (hnode : RequestOf start length root (depth + 1) i dr)
    (hbelow : Below top b p) (hb : start ≤ b ∧ b < start + length) :
    ∃ a child j, a < dr.children.length ∧ top.find (a :: p) = some child ∧
      RequestOf start length root depth j child ∧ Below top b (a :: p) := by
  rw [iff_of_request hfind hnode, node_end] at hbelow
  have hspan := chkShape.span_pos depth
  have hlt : (b - i * chkShape.span (depth + 1)) / chkShape.span depth < chkPerInode := by
    rw [Nat.div_lt_iff_lt_mul hspan]
    omega
  have hlower := Nat.div_mul_le_self (b - i * chkShape.span (depth + 1)) (chkShape.span depth)
  have hupper := Nat.lt_div_mul_add (a := b - i * chkShape.span (depth + 1)) hspan
  generalize (b - i * chkShape.span (depth + 1)) / chkShape.span depth = k at hlt hlower hupper
  have hchild : (chkPerInode * i + k) * chkShape.span depth ≤ b ∧
      b < (chkPerInode * i + k + 1) * chkShape.span depth := by
    have hcut : (k + 1) * chkShape.span depth = k * chkShape.span depth + chkShape.span depth :=
      Nat.succ_mul _ _
    rw [Nat.add_assoc, child_offset, child_offset]
    omega
  obtain ⟨a, child, ha, hrequest⟩ := hnode.exists_child htree hlt ⟨by omega, by omega⟩
  have hfindChild : top.find (a :: p) = some child := by
    rw [DownloadRequest.find, hfind]
    exact ha
  exact ⟨a, child, _, (List.getElem?_eq_some_iff.mp ha).1, hfindChild, hrequest,
    (iff_of_request hfindChild hrequest).mpr hchild⟩

theorem Below.exists_leaf (hfind : top.find p = some dr)
    (hbelow : Below top b p) (hb : start ≤ b ∧ b < start + length) :
    ∃ r leaf, top.find (r ++ p) = some leaf ∧ leaf.depth = 0 ∧ Below top b (r ++ p) := by
  obtain ⟨depth, i, hnode⟩ := htree.request_of_find hfind
  induction depth generalizing p dr i with
  | zero => exact ⟨[], dr, hfind, hnode.depth, hbelow⟩
  | succ depth ih =>
    obtain ⟨a, _, _, _, hfindChild, hrequest, hchild⟩ := hbelow.exists_child htree hfind hnode hb
    obtain ⟨r, leaf, hleaf⟩ := ih hfindChild hchild _ hrequest
    refine ⟨r ++ [a], leaf, ?_⟩
    rw [append_assoc]
    exact hleaf

end

/-! ## The states of the requests -/

section

variable {start length root : Nat} {top : DownloadRequest}
  {state : Position → BlockRequestState} {p : Position}

/-- Requests are known from the top down: as long as a block was not received nothing
below it is known, and below a request that is done nothing is waiting. -/
structure Disciplined (top : DownloadRequest) (state : Position → BlockRequestState) : Prop where
  placed : ∀ p, state p ≠ .init → (top.find p).isSome
  quiet : ∀ p r, r ≠ [] → state p = .init ∨ state p = .chkSet ∨ state p = .error →
    state (r ++ p) = .init
  done : ∀ p r, r ≠ [] → state p = .downloadUp →
    state (r ++ p) = .init ∨ state (r ++ p) = .downloadUp

variable {r : Position}

/-- Above a request that is waiting or was received, everything was received. -/
theorem Disciplined.above (hstates : Disciplined top state) (hr : r ≠ [])
    (hinit : state (r ++ q) ≠ .init) (hup : state (r ++ q) ≠ .downloadUp) :
    state q = .downloadDown := by
  cases hq : state q with
  | init => exact absurd (hstates.quiet q r hr (.inl hq)) hinit
  | chkSet => exact absurd (hstates.quiet q r hr (.inr (.inl hq))) hinit
  | downloadDown => rfl
  | downloadUp =>
    rcases hstates.done q r hr hq with h | h
    · exact absurd h hinit
    · exact absurd h hup
  | error => exact absurd (hstates.quiet q r hr (.inr (.inr hq))) hinit

theorem append_ne_self (hr : r ≠ []) : r ++ p ≠ p := by
  intro heq
  apply hr
  have hlength := congrArg List.length heq
  rw [length_append] at hlength
  exact length_eq_zero_iff.mp (by omega)

/-- A request may change its state if all above it was received and what is below it
agrees with the new state. -/
theorem Disciplined.update (hstates : Disciplined top state)
    (hplaced : (top.find p).isSome) (habove : ∀ q r, r ≠ [] → r ++ q = p → state q = .downloadDown)
    (hquiet : new = .init ∨ new = .chkSet ∨ new = .error → ∀ r, r ≠ [] → state (r ++ p) = .init)
    (hdone : new = .downloadUp → ∀ r, r ≠ [] →
      state (r ++ p) = .init ∨ state (r ++ p) = .downloadUp) :
    Disciplined top (Function.update state p new) := by
  constructor
  · intro q hq
    by_cases heq : q = p
    · rw [heq]
      exact hplaced
    · rw [update_of_ne heq] at hq
      exact hstates.placed q hq
  · intro q r hr hq
    by_cases heq : q = p
    · subst heq
      rw [update_self] at hq
      rw [update_of_ne (append_ne_self hr)]
      exact hquiet hq r hr
    · rw [update_of_ne heq] at hq
      by_cases happ : r ++ q = p
      · rw [habove q r hr happ] at hq
        simp at hq
      · rw [update_of_ne happ]
        exact hstates.quiet q r hr hq
  · intro q r hr hq
    by_cases heq : q = p
    · subst heq
      rw [update_self] at hq
      rw [update_of_ne (append_ne_self hr)]
      exact hdone hq r hr
    · rw [update_of_ne heq] at hq
      by_cases happ : r ++ q = p
      · rw [habove q r hr happ] at hq
        cases hq
      · rw [update_of_ne happ]
        exact hstates.done q r hr hq

theorem Disciplined.update_chkSet (hstates : Disciplined top state) (hp : state p = .chkSet)
    (new : BlockRequestState) : Disciplined top (Function.update state p new) := by
  have hbelow : ∀ r, r ≠ [] → state (r ++ p) = .init := fun r hr =>
    hstates.quiet p r hr (.inr (.inl hp))
  apply hstates.update
  · exact hstates.placed p (by simp [hp])
  · rintro q r hr rfl
    exact hstates.above hr (by simp [hp]) (by simp [hp])
  · intro _
    exact hbelow
  · intro _ r hr
    exact .inl (hbelow r hr)

open Classical in
noncomputable def upBytes (start length : Nat) (top : DownloadRequest)
    (state : Position → BlockRequestState) : Finset Nat :=
  (Finset.Ico start (start + length)).filter fun b =>
    ∃ q, Below top b q ∧ state q = .downloadUp

open Classical in
noncomputable def bytesBelow (start length : Nat) (top : DownloadRequest) (p : Position) :
    Finset Nat :=
  (Finset.Ico start (start + length)).filter fun b => Below top b p

theorem mem_upBytes : b ∈ upBytes start length top state ↔
      (start ≤ b ∧ b < start + length) ∧ ∃ q, Below top b q ∧ state q = .downloadUp := by
  classical
  rw [upBytes, Finset.mem_filter, Finset.mem_Ico]

theorem mem_bytesBelow :
    b ∈ bytesBelow start length top p ↔ (start ≤ b ∧ b < start + length) ∧ Below top b p := by
  classical
  rw [bytesBelow, Finset.mem_filter, Finset.mem_Ico]

theorem card_upBytes_le : (upBytes start length top state).card ≤ length := by
  classical
  have hle := Finset.card_filter_le (Finset.Ico start (start + length))
    (fun b => ∃ q, Below top b q ∧ state q = .downloadUp)
  rw [Nat.card_Ico, Nat.add_sub_cancel_left] at hle
  exact hle

theorem card_bytesBelow (hfind : top.find p = some dr) : (bytesBelow start length top p).card =
      min (start + length) (dr.offset + chkShape.span dr.depth) - max start dr.offset := by
  have heq : bytesBelow start length top p =
      Finset.Ico (max start dr.offset) (min (start + length) (dr.offset + chkShape.span dr.depth)) := by
    ext b
    rw [mem_bytesBelow, Finset.mem_Ico, Below, hfind]
    simp only [Option.some.injEq, exists_eq_left']
    omega
  rw [heq, Nat.card_Ico]

theorem upBytes_update_of_ne (hp : state p ≠ .downloadUp) (hnew : new ≠ .downloadUp) :
    upBytes start length top (Function.update state p new) = upBytes start length top state := by
  ext b
  rw [mem_upBytes, mem_upBytes]
  apply and_congr_right
  intro _
  apply exists_congr
  intro q
  by_cases heq : q = p
  · subst heq
    simp [hp, hnew]
  · rw [update_of_ne heq]

theorem upBytes_update_up : upBytes start length top (Function.update state p .downloadUp) =
      upBytes start length top state ∪ bytesBelow start length top p := by
  classical
  ext b
  rw [Finset.mem_union, mem_upBytes, mem_upBytes, mem_bytesBelow]
  constructor
  · rintro ⟨hb, q, hbelow, hq⟩
    by_cases heq : q = p
    · rw [heq] at hbelow
      exact .inr ⟨hb, hbelow⟩
    · rw [update_of_ne heq] at hq
      exact .inl ⟨hb, q, hbelow, hq⟩
  · rintro (⟨hb, q, hbelow, hq⟩ | ⟨hb, hbelow⟩)
    · refine ⟨hb, q, hbelow, ?_⟩
      by_cases heq : q = p
      · rw [heq, update_self]
      · rw [update_of_ne heq]
        exact hq
    · exact ⟨hb, p, hbelow, update_self _ _ _⟩

theorem disjoint_bytesBelow (htree : RightTree start length root top)
    (hstates : Disciplined top state) (hp : state p = .chkSet) :
    Disjoint (upBytes start length top state) (bytesBelow start length top p) := by
  rw [Finset.disjoint_left]
  intro b hup hbelow
  obtain ⟨_, q, hq, hdone⟩ := mem_upBytes.mp hup
  have hbelowP := (mem_bytesBelow.mp hbelow).2
  rcases Nat.le_total p.length q.length with hle | hle
  · obtain ⟨r, rfl⟩ := hbelowP.comparable htree hq hle
    by_cases hr : r = []
    · rw [hr, nil_append, hp] at hdone
      cases hdone
    · rw [hstates.quiet p r hr (.inr (.inl hp))] at hdone
      cases hdone
  · obtain ⟨r, rfl⟩ := hq.comparable htree hbelowP hle
    by_cases hr : r = []
    · rw [hr, nil_append, hdone] at hp
      cases hp
    · rcases hstates.done q r hr hdone with h | h
      · rw [hp] at h
        cases h
      · rw [hp] at h
        cases h

theorem card_upBytes_finish (htree : RightTree start length root top)
    (hstates : Disciplined top state) (hp : state p = .chkSet) :
    (upBytes start length top (Function.update state p .downloadUp)).card =
      (upBytes start length top state).card + (bytesBelow start length top p).card := by
  classical
  rw [upBytes_update_up, Finset.card_union_of_disjoint (disjoint_bytesBelow htree hstates hp)]

/-! ### Propagation -/

theorem find_append_eq_none (hfind : top.find p = none) : top.find (r ++ p) = none := by
  induction r with
  | nil => exact hfind
  | cons a r ih =>
    rw [cons_append, DownloadRequest.find, ih]
    rfl

/-- A request whose children are all done is done; nothing is gained by that. -/
theorem update_of_children_up (htree : RightTree start length root top)
    (hstates : Disciplined top state)
    (hfind : top.find p = some parent) (hnode : RequestOf start length root (depth + 1) i parent)
    (habove : ∀ q r, r ≠ [] → r ++ q = p → state q = .downloadDown)
    (hchildren : ∀ j < parent.children.length, state (j :: p) = .downloadUp) :
    Disciplined top (Function.update state p .downloadUp) ∧
      upBytes start length top (Function.update state p .downloadUp) =
        upBytes start length top state := by
  constructor
  · apply hstates.update
    · rw [hfind]
      rfl
    · exact habove
    · rintro (h | h | h) <;> cases h
    · intro _ r hr
      -- a position below `p` is at or below a child
      obtain ⟨r', j, rfl⟩ := (eq_nil_or_concat' r).resolve_left hr
      rw [append_assoc, singleton_append]
      by_cases hj : j < parent.children.length
      · by_cases hr' : r' = []
        · rw [hr']
          exact .inr (hchildren j hj)
        · exact hstates.done (j :: p) r' hr' (hchildren j hj)
      · left
        by_contra hne
        have hplaced := hstates.placed _ hne
        have hnone : top.find (j :: p) = none := by
          rw [DownloadRequest.find, hfind]
          exact getElem?_eq_none (by omega)
        rw [find_append_eq_none hnone] at hplaced
        cases hplaced
  · classical
    rw [upBytes_update_up, Finset.union_eq_left]
    intro b hb
    obtain ⟨hrange, hbelow⟩ := mem_bytesBelow.mp hb
    obtain ⟨a, _, _, ha, _, _, hchild⟩ := hbelow.exists_child htree hfind hnode hrange
    exact mem_upBytes.mpr ⟨hrange, a :: p, hchild, hchildren a ha⟩

theorem propagateUp_cons (top : DownloadRequest) (i : Nat) (up : Position)
    (state : Position → BlockRequestState) :
    propagateUp top (i :: up) state = Function.update state (i :: up) .downloadUp ∨
      propagateUp top (i :: up) state =
        propagateUp top up (Function.update state (i :: up) .downloadUp) := by
  rw [propagateUp]
  cases top.find up with
  | none => exact .inl rfl
  | some parent =>
    dsimp only
    split_ifs
    · exact .inr rfl
    · exact .inl rfl

theorem propagateUp_eq_or (top : DownloadRequest) (p : Position)
    (state : Position → BlockRequestState) (q : Position) :
    propagateUp top p state q = state q ∨ propagateUp top p state q = .downloadUp := by
  have hfirst : ∀ p (state : Position → BlockRequestState),
      Function.update state p .downloadUp q = state q ∨
        Function.update state p .downloadUp q = .downloadUp := by
    intro p state
    rw [update_apply]
    split_ifs
    · exact .inr rfl
    · exact .inl rfl
  induction p generalizing state with
  | nil => exact hfirst _ _
  | cons i up ih =>
    rcases propagateUp_cons top i up state with heq | heq
    · rw [heq]
      exact hfirst _ _
    · rw [heq]
      rcases ih (Function.update state (i :: up) .downloadUp) with hsame | hup
      · rw [hsame]
        exact hfirst _ _
      · exact .inr hup

theorem propagateUp_self (top : DownloadRequest) (p : Position)
    (state : Position → BlockRequestState) : propagateUp top p state p = .downloadUp := by
  cases p with
  | nil => exact update_self _ _ _
  | cons i up =>
    rcases propagateUp_cons top i up state with heq | heq
    · rw [heq, update_self]
    · rw [heq]
      rcases propagateUp_eq_or top up (Function.update state (i :: up) .downloadUp)
          (i :: up) with hsame | hup
      · rw [hsame, update_self]
      · exact hup

/-- `propagate_up` counts nothing twice, and changes only requests above that were
received. -/
theorem propagateUp_spec (htree : RightTree start length root top) (hplaced : (top.find p).isSome)
    (habove : ∀ q r, r ≠ [] → r ++ q = p → state q = .downloadDown)
    (hstates : Disciplined top (Function.update state p .downloadUp)) :
    Disciplined top (propagateUp top p state) ∧ upBytes start length top (propagateUp top p state) =
        upBytes start length top (Function.update state p .downloadUp) ∧
      ∀ q, propagateUp top p state q = Function.update state p .downloadUp q ∨
        state q = .downloadDown := by
  induction p generalizing state with
  | nil => exact ⟨hstates, rfl, fun q => .inl rfl⟩
  | cons i up ih =>
    obtain ⟨_, hdr⟩ := isSome_iff_exists.mp hplaced
    obtain ⟨_, _, _, _, hparent, hnode, _⟩ := htree.parent_of_find hdr
    rw [propagateUp]
    simp only [hparent]
    split_ifs with hall
    · have hne : ∀ q r, r ≠ [] → r ++ q = up → q ≠ i :: up := by
        rintro q r _ rfl
        exact (append_ne_self (cons_ne_nil i r)).symm
      have habove' : ∀ q r, r ≠ [] → r ++ q = up →
          Function.update state (i :: up) .downloadUp q = .downloadDown := by
        intro q r hr heq
        rw [update_of_ne (hne q r hr heq)]
        exact habove q (i :: r) (by simp) (by rw [cons_append, heq])
      obtain ⟨hdisciplined, hbytes⟩ :=
        update_of_children_up htree hstates hparent hnode habove' hall
      obtain ⟨hafter, hsame, hchanged⟩ := ih (by rw [hparent]; rfl) habove' hdisciplined
      refine ⟨hafter, hsame.trans hbytes, ?_⟩
      intro q
      rcases hchanged q with heq | hdown
      · by_cases hq : q = up
        · right
          rw [hq]
          exact habove up [i] (by simp) rfl
        · left
          rw [heq, update_of_ne hq]
      · by_cases hq : q = i :: up
        · rw [hq, update_self] at hdown
          cases hdown
        · rw [update_of_ne hq] at hdown
          exact .inr hdown
    · exact ⟨hstates, rfl, fun q => .inl rfl⟩

end

/-! ## The download -/

/-- A download whose counter is right, with the facts that keep it so. -/
structure Tracked (dc : DownloadContext) (top : DownloadRequest) : Prop where
  found : dc.topRequest = some top
  depth : dc.treedepth = computeDepth dc.fileSize
  file : dc.offset + dc.length ≤ dc.fileSize
  size : dc.fileSize ≤ 2 ^ 63
  tree : RightTree dc.offset dc.length (dc.treedepth - 1) top
  states : Disciplined top dc.state
  counted : dc.completed = (upBytes dc.offset dc.length top dc.state).card
  active : ∀ query p, (query, p) ∈ dc.active → dc.state p = .chkSet ∧ query = (dc.chk p).query
  once : dc.active.Nodup
  idle : dc.issueRequests = false → dc.active = []

variable {decrypt : HashCode → List UInt8 → Option (List UInt8)}

section

variable {dc dc' : DownloadContext} {top dr : DownloadRequest} {p : Position}

theorem Tracked.completed_le (htracked : Tracked dc top) : dc.completed ≤ dc.length := by
  rw [htracked.counted]
  exact card_upBytes_le

variable {query : HashCode}

theorem Tracked.decided (htracked : Tracked dc top) (hquery : query = (dc.chk p).query)
    {state : Position → BlockRequestState} {completed : Nat} (hstates : Disciplined top state)
    (hcounted : completed = (upBytes dc.offset dc.length top state).card)
    (hkept : ∀ q, q ≠ p → dc.state q = .chkSet → state q = .chkSet) :
    Tracked { dc with active := dc.active.erase (query, p), state, completed } top := by
  refine { htracked with
    states := hstates, counted := hcounted, active := ?_, once := htracked.once.erase _
    idle := ?_ }
  · intro query' q hmem
    obtain ⟨hne, hmem⟩ := htracked.once.mem_erase_iff.mp hmem
    obtain ⟨hstate, hq⟩ := htracked.active _ _ hmem
    refine ⟨hkept q ?_ hstate, hq⟩
    rintro rfl
    exact hne (by rw [hq, hquery])
  · intro hidle
    change dc.active.erase (query, p) = []
    rw [htracked.idle hidle]
    rfl

theorem Tracked.putActive (htracked : Tracked dc top) (hissue : dc.issueRequests = true)
    (hp : dc.state p = .chkSet) : Tracked (dc.putActive p) top := by
  unfold DownloadContext.putActive
  split_ifs with hmem
  · exact htracked
  · refine { htracked with active := ?_, once := ?_, idle := ?_ }
    · intro query q hq
      rcases mem_cons.mp hq with heq | hq
      · cases heq
        exact ⟨hp, rfl⟩
      · exact htracked.active query q hq
    · exact nodup_cons.mpr ⟨hmem, htracked.once⟩
    · intro hidle
      rw [hissue] at hidle
      cases hidle

theorem putActive_state : (dc.putActive p).state = dc.state := by
  unfold DownloadContext.putActive
  split_ifs <;> rfl

theorem putActive_issueRequests : (dc.putActive p).issueRequests = dc.issueRequests := by
  unfold DownloadContext.putActive
  split_ifs <;> rfl

theorem Tracked.scheduleBlockDownload (rounds : Nat) (htracked : Tracked dc top)
    (hissue : dc.issueRequests = true)
    (hschedule : scheduleBlockDownload rounds dr p dc = some dc') :
    Tracked dc' top ∧ dc'.issueRequests = true := by
  induction rounds generalizing dc dc' dr p with
  | zero => cases hschedule
  | succ rounds ih =>
    rw [scheduleBlockDownload] at hschedule
    cases hp : dc.state p with
    | init =>
      rw [hp] at hschedule
      cases hschedule
    | chkSet =>
      rw [hp] at hschedule
      cases hschedule
      exact ⟨htracked.putActive hissue hp, putActive_issueRequests.trans hissue⟩
    | downloadDown =>
      simp only [hp] at hschedule
      apply (Run.of_foldlM hschedule).invariant
        (fun dc => Tracked dc top ∧ dc.issueRequests = true) ⟨htracked, hissue⟩
      rintro before i after ⟨hbefore, hissue⟩ _ hround
      obtain ⟨_, _, hchild⟩ := bind_eq_some_iff.mp hround
      exact ih hbefore hissue hchild
    | downloadUp =>
      rw [hp] at hschedule
      cases hschedule
      exact ⟨htracked, hissue⟩
    | error =>
      rw [hp] at hschedule
      cases hschedule
      exact ⟨htracked, hissue⟩

variable {block : List UInt8} {size : Nat}

theorem Tracked.setChildKey (htracked : Tracked dc top) (hfind : top.find p = some dr)
    (hp : dc.state p = .downloadDown)
    (hset : DownloadContext.setChildKey dr p block size dc i = some dc') :
    Tracked dc' top ∧ dc'.state p = .downloadDown ∧ dc'.state (i :: p) = .chkSet ∧
      ∀ q, dc.state q = .chkSet → dc'.state q = .chkSet := by
  obtain ⟨drc, hdrc, hset⟩ := bind_eq_some_iff.mp hset
  split_ifs at hset with hinit hsize
  have hinit : dc.state (i :: p) = .init := not_not.mp hinit
  have hne : p ≠ i :: p := fun heq => append_ne_self (cons_ne_nil i []) heq.symm
  have hfindChild : top.find (i :: p) = some drc := by
    rw [DownloadRequest.find, hfind]
    exact hdrc
  -- the context before the request is scheduled
  have hkey : Tracked { dc with
      chk := Function.update dc.chk (i :: p) (keyOfBlock block drc.chkIdx)
      state := Function.update dc.state (i :: p) .chkSet } top := by
    refine { htracked with states := ?_, counted := ?_, active := ?_ }
    · apply htracked.states.update
      · rw [hfindChild]
        rfl
      · intro q r hr heq
        cases r with
        | nil => exact absurd rfl hr
        | cons j r =>
          rw [cons_append] at heq
          have hup := (cons.inj heq).2
          by_cases hr' : r = []
          · rw [hr', nil_append] at hup
            rw [hup]
            exact hp
          · apply htracked.states.above hr'
            · simp [hup, hp]
            · simp [hup, hp]
      · intro _ r hr
        exact htracked.states.quiet (i :: p) r hr (.inl hinit)
      · intro h
        cases h
    · rw [htracked.counted]
      exact (congrArg Finset.card (upBytes_update_of_ne (by simp [hinit]) (by decide))).symm
    · intro query q hq
      obtain ⟨hstate, hquery⟩ := htracked.active query q hq
      have hq : q ≠ i :: p := by
        rintro rfl
        rw [hinit] at hstate
        cases hstate
      simp only [update_of_ne hq]
      exact ⟨hstate, hquery⟩
  have hstate : dc'.state = Function.update dc.state (i :: p) .chkSet ∧ Tracked dc' top := by
    simp only [Option.pure_def, Option.some.injEq] at hset
    split_ifs at hset with hissue
    · subst hset
      exact ⟨putActive_state, hkey.putActive hissue (update_self _ _ _)⟩
    · subst hset
      exact ⟨rfl, hkey⟩
  refine ⟨hstate.2, ?_, ?_, ?_⟩
  · rw [hstate.1, update_of_ne hne]
    exact hp
  · rw [hstate.1, update_self]
  · intro q hq
    rw [hstate.1]
    by_cases heq : q = i :: p
    · rw [heq, update_self]
    · rw [update_of_ne heq]
      exact hq

theorem Tracked.setChildKeys (htracked : Tracked dc top) (hfind : top.find p = some dr)
    (hp : dc.state p = .downloadDown) {children : List Nat}
    (hset : children.foldlM (DownloadContext.setChildKey dr p block size) dc = some dc') :
    Tracked dc' top ∧ dc'.state p = .downloadDown ∧ (∀ i ∈ children, dc'.state (i :: p) = .chkSet) ∧
      ∀ q, dc.state q = .chkSet → dc'.state q = .chkSet := by
  induction children generalizing dc with
  | nil =>
    cases hset
    exact ⟨htracked, hp, by simp, fun _ hq => hq⟩
  | cons i children ih =>
    obtain ⟨_, hfirst, hrest⟩ := bind_eq_some_iff.mp hset
    obtain ⟨htracked1, hp1, hi, hkept⟩ := htracked.setChildKey hfind hp hfirst
    obtain ⟨htracked', hp', hall, hkept'⟩ := ih htracked1 hp1 hrest
    refine ⟨htracked', hp', ?_, fun q hq => hkept' q (hkept q hq)⟩
    intro j hj
    rcases mem_cons.mp hj with rfl | hj
    · exact hkept' _ hi
    · exact hall j hj

theorem countDblock_eq {fileSize : Nat} (hcount : dc.countDblock dr size = some dc')
    (hfile : dc.offset + dc.length ≤ fileSize)
    (hsize : size = min dblockSize (fileSize - dr.offset))
    (hbefore : dr.offset < dc.offset + dc.length) :
    dc' = { dc with
      completed := (dc.completed + (min (dc.offset + dc.length) (dr.offset + dblockSize) -
        max dc.offset dr.offset)) % 2 ^ 64 } := by
  obtain ⟨front, hfront, hcount⟩ := bind_eq_some_iff.mp hcount
  obtain ⟨app, happ, hcount⟩ := bind_eq_some_iff.mp hcount
  have hbytes : app = min (dc.offset + dc.length) (dr.offset + dblockSize) -
      max dc.offset dr.offset := by
    have hfrontEq : front = size - (dc.offset - dr.offset) := by
      unfold clipFront at hfront
      split_ifs at hfront
      · cases hfront
        rfl
      · cases hfront
        omega
    unfold clipEnd at happ
    split_ifs at happ
    · cases happ
      omega
    · cases happ
      omega
  cases hcount
  rw [hbytes]

section

variable (htracked : Tracked dc top) (hfind : top.find p = some dr) (hp : dc.state p = .chkSet)
  (hquery : query = (dc.chk p).query)
include htracked hfind hp hquery

theorem Tracked.finishDblock
    (hsize : treeCalculateBlockSize dc.fileSize dr.offset dr.depth = some size)
    (hdepth : dr.depth = 0)
    (hfinish : { dc with active := dc.active.erase (query, p) }.finishDblock top dr p size =
      some dc') : Tracked dc' top ∧ dc'.state p = .downloadUp := by
  have htree := htracked.tree
  obtain ⟨depth, i, hnode⟩ := htree.request_of_find hfind
  have hzero : depth = 0 := hnode.depth.symm.trans hdepth
  subst hzero
  have hoffset : dr.offset = i * dblockSize := hnode.offset
  have hbefore : dr.offset < dc.offset + dc.length := by
    rw [hnode.offset]
    exact hnode.meets.1
  have hfile := htracked.file
  have hbytes : size = min dblockSize (dc.fileSize - dr.offset) := by
    have hcount : i < chkShape.count dc.fileSize 0 := by
      rw [Shape.lt_count_iff, ← hnode.offset]
      omega
    rw [hdepth, hoffset, treeCalculateBlockSize_dblock htracked.size hcount] at hsize
    rw [hoffset]
    exact (Option.some.inj hsize).symm
  obtain ⟨_, hcount, hfinish⟩ := bind_eq_some_iff.mp hfinish
  have hdc1 := countDblock_eq hcount hfile hbytes hbefore
  subst hdc1
  split_ifs at hfinish with hover
  cases hfinish
  have habove : ∀ q r, r ≠ [] → r ++ q = p →
      Function.update dc.state p .downloadDown q = .downloadDown := by
    rintro q r hr rfl
    rw [update_of_ne (append_ne_self hr).symm]
    exact htracked.states.above hr (by simp [hp]) (by simp [hp])
  have hfinal : Disciplined top
      (Function.update (Function.update dc.state p .downloadDown) p .downloadUp) := by
    rw [update_idem]
    exact htracked.states.update_chkSet hp _
  have hspec := propagateUp_spec htree (by rw [hfind]; rfl) habove hfinal
  rw [update_idem] at hspec
  obtain ⟨hstates, hup, hchanged⟩ := hspec
  have hcard : (bytesBelow dc.offset dc.length top p).card = _ := card_bytesBelow hfind
  rw [hdepth, Shape.span_zero] at hcard
  change _ = min _ (dr.offset + dblockSize) - _ at hcard
  have hadd := card_upBytes_finish htree htracked.states hp
  have hcompleted : (dc.completed + (min (dc.offset + dc.length) (dr.offset + dblockSize) -
      max dc.offset dr.offset)) % 2 ^ 64 =
      (upBytes dc.offset dc.length top (Function.update dc.state p .downloadUp)).card := by
    have hle : (upBytes dc.offset dc.length top
        (Function.update dc.state p .downloadUp)).card ≤ dc.length := card_upBytes_le
    have hrange := htree.file
    rw [htracked.counted, ← hcard, ← hadd]
    exact Nat.mod_eq_of_lt (by omega)
  constructor
  · refine htracked.decided hquery hstates (by rw [hup]; exact hcompleted) ?_
    intro q hne hstate
    rcases hchanged q with heq | hdown
    · rw [heq, update_of_ne hne]
      exact hstate
    · rw [update_of_ne hne, hstate] at hdown
      cases hdown
  · exact propagateUp_self _ _ _

theorem Tracked.expandIblock
    (hexpand : { dc with active := dc.active.erase (query, p) }.expandIblock dr p block size =
      some dc') :
    Tracked dc' top ∧ dc'.state p = .downloadDown ∧
      ∀ i < dr.children.length, dc'.state (i :: p) = .chkSet := by
  unfold DownloadContext.expandIblock at hexpand
  split_ifs at hexpand
  have hdown : Tracked { dc with
      active := dc.active.erase (query, p)
      state := Function.update dc.state p .downloadDown } top := by
    refine htracked.decided hquery (htracked.states.update_chkSet hp _) ?_ ?_
    · rw [htracked.counted]
      exact (congrArg Finset.card (upBytes_update_of_ne (by simp [hp]) (by decide))).symm
    · intro q hne hstate
      rw [update_of_ne hne]
      exact hstate
  obtain ⟨htracked', hp', hchildren, _⟩ := hdown.setChildKeys hfind (update_self _ _ _) hexpand
  refine ⟨htracked', hp', ?_⟩
  intro i hi
  apply hchildren
  rw [mem_reverse, mem_range]
  exact hi

theorem Tracked.processResult
    (hprocess : dc.processResultWithRequest decrypt p query data stored = some dc') :
    (dc'.topRequest = none ∧ dc'.completed = dc.completed ∧ dc'.length = dc.length) ∨
      Tracked dc' top ∧ (dr.depth = 0 → dc'.state p = .downloadUp) ∧
        (dr.depth ≠ 0 → dc'.state p = .downloadDown ∧
          ∀ i < dr.children.length, dc'.state (i :: p) = .chkSet) := by
  obtain ⟨_, htop', hprocess⟩ := bind_eq_some_iff.mp hprocess
  rw [htracked.found] at htop'
  cases htop'
  obtain ⟨_, hdr', hprocess⟩ := bind_eq_some_iff.mp hprocess
  rw [hfind] at hdr'
  cases hdr'
  obtain ⟨bs, hbs, hprocess⟩ := bind_eq_some_iff.mp hprocess
  by_cases hsize : data.length ≠ bs
  · rw [if_pos hsize] at hprocess
    cases hprocess
    exact .inl ⟨rfl, rfl, rfl⟩
  rw [if_neg hsize] at hprocess
  cases hdecrypt : decrypt (dc.chk p).key data with
  | none =>
    simp only [hdecrypt] at hprocess
    cases hprocess
    exact .inl ⟨rfl, rfl, rfl⟩
  | some pt =>
    simp only [hdecrypt] at hprocess
    obtain ⟨_, _, hprocess⟩ := bind_eq_some_iff.mp hprocess
    rw [not_ne_iff] at hsize
    split_ifs at hprocess with hstored hdepth
    · cases hprocess
      exact .inl ⟨rfl, rfl, rfl⟩
    · right
      rw [← hsize] at hbs
      obtain ⟨htracked', hup⟩ := htracked.finishDblock hfind hp hquery hbs hdepth hprocess
      exact ⟨htracked', fun _ => hup, fun hne => absurd hdepth hne⟩
    · right
      obtain ⟨htracked', hchildren⟩ := htracked.expandIblock hfind hp hquery hprocess
      exact ⟨htracked', fun hzero => absurd hzero hdepth, fun _ => hchildren⟩

end

theorem topDownChildren_of_chkSet (hchildren : ∀ i ∈ children, dc.state (i :: p) = .chkSet)
    (hloop : topDownChildren recurse dr p block dc children = some (dc', upDone)) :
    dc' = dc ∧ (upDone = true → children = []) := by
  induction children generalizing upDone dc' with
  | nil =>
    cases hloop
    exact ⟨rfl, fun _ => rfl⟩
  | cons i children ih =>
    have hi := hchildren i mem_cons_self
    obtain ⟨dc1, hchild, hrest⟩ := bind_eq_some_iff.mp hloop
    clear hloop
    obtain ⟨⟨_, _⟩, hrest, hlast⟩ := bind_eq_some_iff.mp hrest
    have hsame : dc1 = dc := by
      obtain ⟨_, _, hchild⟩ := bind_eq_some_iff.mp hchild
      split_ifs at hchild with _ hinit
      · exact (Option.some.inj hchild).symm
      · rw [not_not, hi] at hinit
        cases hinit
    subst hsame
    obtain ⟨hdc2, _⟩ := ih (fun j hj => hchildren j (mem_cons_of_mem _ hj)) hrest
    cases hlast
    refine ⟨hdc2, ?_⟩
    intro hdone
    simp [hi] at hdone

theorem RightTree.children_ne_nil {start length root : Nat}
    (htree : RightTree start length root top) (hfind : top.find p = some dr)
    (hdepth : dr.depth ≠ 0) : 0 < dr.children.length := by
  obtain ⟨_ | depth, i, hnode⟩ := htree.request_of_find hfind
  · exact absurd hnode.depth hdepth
  have hnonempty := htree.nonempty
  have hspan := chkShape.span_pos (depth + 1)
  have hcut : (i + 1) * chkShape.span (depth + 1) =
      i * chkShape.span (depth + 1) + chkShape.span (depth + 1) := Nat.succ_mul _ _
  have hbefore := hnode.meets.1
  have hbehind := hnode.meets.2
  have hbelow : Below top (max start (i * chkShape.span (depth + 1))) p := by
    rw [Below.iff_of_request hfind hnode]
    omega
  obtain ⟨_, _, _, _, _⟩ := hbelow.exists_child htree hfind hnode (by omega)
  omega

/-- The top-down reconstruction finds at most the block of the top request. -/
theorem Tracked.topDown {hash : List UInt8 → HashCode} {disk : List UInt8} {rounds : Nat}
    (htracked : Tracked dc top) (hidle : dc.issueRequests = false) (hp : dc.state [] = .chkSet)
    (htry : tryTopDownReconstruction hash encrypt decrypt disk rounds [] dc =
      some dc') : Tracked dc' top := by
  have hfailed : Tracked { dc with state := propagateError [] dc.state } top := by
    refine { htracked with states := ?_, counted := ?_, active := ?_ }
    · exact htracked.states.update_chkSet hp _
    · rw [htracked.counted]
      exact (congrArg Finset.card (upBytes_update_of_ne (by simp [hp]) (by decide))).symm
    · intro query q hq
      simp only [htracked.idle hidle] at hq
      cases hq
  cases rounds with
  | zero => cases htry
  | succ rounds =>
    obtain ⟨_, htop', htry⟩ := bind_eq_some_iff.mp htry
    rw [htracked.found] at htop'
    cases htop'
    obtain ⟨_, hdr, htry⟩ := bind_eq_some_iff.mp htry
    cases hdr
    split_ifs at htry
    obtain ⟨len, _, htry⟩ := bind_eq_some_iff.mp htry
    split_ifs at htry
    obtain ⟨off, _, htry⟩ := bind_eq_some_iff.mp htry
    dsimp only at htry
    split_ifs at htry
    · cases htry
      exact htracked
    · cases htry
      exact htracked
    cases hencrypt : encrypt (dc.chk []).key ((disk.drop off).take len) with
    | none =>
      simp only [hencrypt] at htry
      cases htry
      exact hfailed
    | some enc =>
      simp only [hencrypt] at htry
      split_ifs at htry
      · cases htry
        exact hfailed
      obtain ⟨dc1, hprocess, htry⟩ := bind_eq_some_iff.mp htry
      obtain ⟨_, hfreed, htry⟩ := bind_eq_some_iff.mp htry
      obtain ⟨⟨_, upDone⟩, hloop, htry⟩ := bind_eq_some_iff.mp htry
      rcases htracked.processResult rfl hp rfl hprocess with ⟨hnone, _⟩ | ⟨htracked1, hleaf, hinner⟩
      · rw [hnone] at hfreed
        cases hfreed
      by_cases hdepth : top.depth = 0
      · -- a file of one DBLOCK: the state is set back and then up again
        have hup := hleaf hdepth
        have hchildren : top.children = [] := by
          obtain ⟨depth, i, hnode⟩ := htracked.tree.request_of_find (p := []) rfl
          have hzero : depth = 0 := hnode.depth.symm.trans hdepth
          subst hzero
          exact hnode.children_eq_nil
        rw [hchildren] at hloop
        cases hloop
        cases htry
        have hsame : Function.update (Function.update dc1.state [] .downloadDown) []
            .downloadUp = dc1.state := by
          rw [update_idem, ← hup, update_eq_self]
        simp only [if_true, propagateUp, hsame]
        exact htracked1
      · -- the children have their keys, and are not done
        obtain ⟨hdown, hchildren⟩ := hinner hdepth
        have hsame : Function.update dc1.state [] .downloadDown = dc1.state := by
          rw [← hdown, update_eq_self]
        rw [hsame] at hloop
        obtain ⟨hdc2, hdone⟩ := topDownChildren_of_chkSet
          (fun i hi => hchildren i (mem_range.mp hi)) hloop
        have hnot : upDone ≠ true := by
          intro htrue
          have hpos := htracked.tree.children_ne_nil (p := []) rfl hdepth
          have hnil := hdone htrue
          rw [range_eq_nil] at hnil
          omega
        cases htry
        simp only [hnot, hdc2]
        exact htracked1

/-- A block that the tree encoder finds in the file, for a request in the range. -/
theorem Tracked.reconstructCb {chk : ContentHashKey} {offset depth : Nat}
    (htracked : Tracked dc top)
    (hinside : ∀ p dr, matchRequest offset depth (top.depth + 1) top [] =
        some (some p) → top.find p = some dr → dc.state p = .chkSet → dc.chk p = chk →
      dc.offset ≤ dr.offset)
    (hreconstruct : dc.reconstructCb chk offset depth = some dc') : Tracked dc' top := by
  have htree := htracked.tree
  obtain ⟨_, htop', hreconstruct⟩ := bind_eq_some_iff.mp hreconstruct
  rw [htracked.found] at htop'
  cases htop'
  obtain ⟨found, hmatch, hreconstruct⟩ := bind_eq_some_iff.mp hreconstruct
  cases found with
  | none =>
    cases hreconstruct
    exact htracked
  | some p =>
    obtain ⟨dr, hfind, hreconstruct⟩ := bind_eq_some_iff.mp hreconstruct
    split_ifs at hreconstruct with hwaits
    · obtain ⟨hp, hchk⟩ := hwaits
      cases hreconstruct
      have hfront := hinside p dr hmatch hfind hp hchk
      obtain ⟨_, _, hnode⟩ := htree.request_of_find hfind
      have hlevel : dr.depth ≤ 6 := by
        have := hnode.depth
        have := hnode.level
        have := htree.depth
        omega
      have hbefore : dr.offset < dc.offset + dc.length := by
        rw [hnode.offset]
        exact hnode.meets.1
      have hrange := htree.file
      have hcard : (bytesBelow dc.offset dc.length top p).card = _ := card_bytesBelow hfind
      have hadd := card_upBytes_finish htree htracked.states hp
      have hle : (upBytes dc.offset dc.length top
          (Function.update dc.state p .downloadUp)).card ≤ dc.length := card_upBytes_le
      -- the block begins in the range, so that only its end is cut
      have hblen : min (treeComputeTreeSize dr.depth)
          ((dc.length + dc.offset + 2 ^ 64 - dr.offset) % 2 ^ 64) =
          (bytesBelow dc.offset dc.length top p).card := by
        rw [hcard, treeComputeTreeSize_eq hlevel]
        omega
      refine htracked.decided rfl (htracked.states.update_chkSet hp _) ?_ ?_
      · rw [hblen, htracked.counted, ← hadd]
        exact Nat.mod_eq_of_lt (by omega)
      · intro q hne hstate
        rw [update_of_ne hne]
        exact hstate
    · cases hreconstruct
      exact htracked

end

/-! ## Whole downloads -/

open Classical in
/-- The bytes of the range in DBLOCKs that are finished: they, or a request above
them, are in state `BRS_DOWNLOAD_UP`. -/
noncomputable def finishedBytes (dc : DownloadContext) (top : DownloadRequest) : Finset Nat :=
  (Finset.Ico dc.offset (dc.offset + dc.length)).filter fun b =>
    ∃ p leaf, top.find p = some leaf ∧ leaf.depth = 0 ∧
      (leaf.offset ≤ b ∧ b < leaf.offset + dblockSize) ∧
      ∃ q, q <:+ p ∧ dc.state q = .downloadUp

/-- `completed` is the number of finished bytes of the range. -/
structure Accounted (dc : DownloadContext) : Prop where
  bounded : dc.completed ≤ dc.length
  counted : ∀ top, dc.topRequest = some top → dc.completed = (finishedBytes dc top).card
  complete : ∀ top, dc.topRequest = some top → (dc.completed = dc.length ↔
      ∀ b, dc.offset ≤ b → b < dc.offset + dc.length → b ∈ finishedBytes dc top)

/-- A block that `reconstruct_cb` takes begins in the range. -/
def BeginsInRange (dc : DownloadContext) : DownloadContext.DownloadEvent → Prop
  | .reconstruct chk offset depth =>
      ∀ top p dr, dc.topRequest = some top →
        matchRequest offset depth (top.depth + 1) top [] = some (some p) →
        top.find p = some dr → dc.state p = .chkSet → dc.chk p = chk → dc.offset ≤ dr.offset
  | _ => True

section

variable {dc dc' : DownloadContext} {top : DownloadRequest}

theorem Tracked.finishedBytes_eq (htracked : Tracked dc top) :
    finishedBytes dc top = upBytes dc.offset dc.length top dc.state := by
  classical
  have htree := htracked.tree
  ext b
  rw [finishedBytes, Finset.mem_filter, Finset.mem_Ico, mem_upBytes]
  apply and_congr_right
  intro hb
  constructor
  · rintro ⟨_, leaf, hfind, hdepth, hin, q, ⟨r, rfl⟩, hq⟩
    have hbelow : Below top b (r ++ q) := by
      refine ⟨leaf, hfind, ?_⟩
      rw [hdepth, Shape.span_zero]
      exact hin
    exact ⟨q, hbelow.suffix htree r, hq⟩
  · rintro ⟨q, hbelow, hq⟩
    have ⟨dr, hfind, _⟩ := hbelow
    obtain ⟨r, leaf, hleaf, hdepth, _, hleaf', hin⟩ := hbelow.exists_leaf htree hfind hb
    rw [hleaf] at hleaf'
    cases hleaf'
    rw [hdepth, Shape.span_zero] at hin
    exact ⟨r ++ q, leaf, hleaf, hdepth, hin, q, suffix_append r q, hq⟩

theorem Tracked.accounted (htracked : Tracked dc top) : Accounted dc := by
  classical
  have hfound : ∀ top', dc.topRequest = some top' → top' = top := by
    intro top' htop'
    rw [htracked.found] at htop'
    exact (Option.some.inj htop').symm
  have hcounted : dc.completed = (finishedBytes dc top).card := by
    rw [htracked.finishedBytes_eq]
    exact htracked.counted
  refine ⟨htracked.completed_le, ?_, ?_⟩
  · intro top' htop'
    rw [hfound top' htop']
    exact hcounted
  · intro top' htop'
    rw [hfound top' htop', hcounted]
    have hsubset : finishedBytes dc top ⊆ Finset.Ico dc.offset (dc.offset + dc.length) :=
      Finset.filter_subset _ _
    have hlength : (Finset.Ico dc.offset (dc.offset + dc.length)).card = dc.length := by
      rw [Nat.card_Ico, Nat.add_sub_cancel_left]
    constructor
    · intro hall b hlower hupper
      have heq := Finset.eq_of_subset_of_card_le hsubset (by omega)
      rw [heq, Finset.mem_Ico]
      exact ⟨hlower, hupper⟩
    · intro hall
      rw [← hlength]
      congr 1
      apply Finset.Subset.antisymm hsubset
      intro b hb
      obtain ⟨hlower, hupper⟩ := Finset.mem_Ico.mp hb
      exact hall b hlower hupper

/-- A download with its tree, or one that ended with an error or needs no block. -/
def Sound (dc : DownloadContext) : Prop :=
  dc.completed ≤ dc.length ∧ ∀ top, dc.topRequest = some top → Tracked dc top

theorem Sound.of_tracked (htracked : Tracked dc top) : Sound dc := by
  refine ⟨htracked.completed_le, ?_⟩
  intro top' htop'
  rw [htracked.found] at htop'
  cases htop'
  exact htracked

theorem Sound.step {hash : List UInt8 → HashCode}
    {event : DownloadContext.DownloadEvent} (hsound : Sound dc) (hguard : BeginsInRange dc event)
    (hstep : dc.downloadStep hash encrypt decrypt event = some dc') : Sound dc' := by
  cases event with
  | topDown disk =>
    rw [downloadStep] at hstep
    split_ifs at hstep with hissue hp
    · cases htop : dc.topRequest with
      | none =>
        cases hrounds : dc.treedepth with
        | zero =>
          rw [hrounds] at hstep
          cases hstep
        | succ rounds =>
          rw [hrounds, tryTopDownReconstruction, htop] at hstep
          cases hstep
      | some top =>
        exact .of_tracked ((hsound.2 top htop).topDown (by simpa using hissue) hp hstep)
    · cases hstep
      exact hsound
  | reconstruct chk offset depth =>
    obtain ⟨top, htop, _⟩ := bind_eq_some_iff.mp hstep
    have htracked := hsound.2 top htop
    exact .of_tracked (htracked.reconstructCb (fun p dr => hguard top p dr htop) hstep)
  | reconstructCont =>
    obtain ⟨top, htop, hschedule⟩ := bind_eq_some_iff.mp hstep
    have htracked := hsound.2 top htop
    have hissue : Tracked { dc with issueRequests := true } top := by
      refine { htracked with idle := ?_ }
      intro hidle
      cases hidle
    exact .of_tracked (hissue.scheduleBlockDownload _ rfl hschedule).1
  | receive p data stored =>
    rw [downloadStep] at hstep
    split_ifs at hstep with hactive
    obtain ⟨top, htop, _⟩ := bind_eq_some_iff.mp hstep
    have htracked := hsound.2 top htop
    obtain ⟨hp, hquery⟩ := htracked.active _ _ hactive
    obtain ⟨_, hfind⟩ := isSome_iff_exists.mp (htracked.states.placed p (by simp [hp]))
    rcases htracked.processResult hfind hp hquery hstep with
      ⟨hnone, hcompleted, hlength⟩ | ⟨htracked', _⟩
    · refine ⟨by rw [hcompleted, hlength]; exact hsound.1, ?_⟩
      intro top' htop'
      rw [hnone] at htop'
      cases htop'
    · exact .of_tracked htracked'

theorem Sound.accounted (hsound : Sound dc) : Accounted dc := by
  cases htop : dc.topRequest with
  | some top => exact (hsound.2 top htop).accounted
  | none =>
    refine ⟨hsound.1, ?_, ?_⟩
    · intro top htop'
      rw [htop] at htop'
      cases htop'
    · intro top htop'
      rw [htop] at htop'
      cases htop'

theorem sound_start {fileSize offset length oldFileSize : Nat} {chk : ContentHashKey}
    (hsize : fileSize ≤ 2 ^ 63)
    (hfits : ∀ depth i, depth + 1 < computeDepth fileSize → Meets offset length (depth + 1) i →
      Fits offset length depth i)
    (hstart : downloadStart fileSize offset length oldFileSize chk = some dc) : Sound dc := by
  unfold downloadStart at hstart
  split_ifs at hstart with hbounds hlength
  · cases hstart
    refine ⟨Nat.zero_le _, ?_⟩
    intro top htop
    cases htop
  · obtain ⟨top, hcreate, hdc⟩ := map_eq_some_iff.mp hstart
    cases hdc
    obtain ⟨_, _, _, _⟩ := computeDepth_spec hsize
    have hinit : ∀ p : Position, p ≠ [] →
        Function.update (fun _ : Position => BlockRequestState.init) [] .chkSet p = .init :=
      fun p hp => update_of_ne hp _ _
    have hne : ∀ p : Position,
        Function.update (fun _ : Position => BlockRequestState.init) [] .chkSet p ≠
          .downloadUp := by
      intro p
      by_cases hp : p = []
      · rw [hp, update_self]
        decide
      · rw [hinit p hp]
        decide
    have hfile : offset + length ≤ fileSize := by omega
    have htree : RightTree offset length (computeDepth fileSize - 1) top :=
      { depth := by omega
        file := by omega
        inside := by omega
        nonempty := by omega
        created := hcreate
        fits := fun depth i hdepth => hfits depth i (by omega) }
    have hstates : Disciplined top
        (Function.update (fun _ : Position => BlockRequestState.init) [] .chkSet) := by
      constructor
      · intro p hp
        by_cases heq : p = []
        · rw [heq]
          rfl
        · exact absurd (hinit p heq) hp
      · intro p r hr _
        exact hinit _ (by simp [hr])
      · intro p r _ hp
        exact absurd hp (hne p)
    refine ⟨Nat.zero_le _, ?_⟩
    intro top' htop'
    cases htop'
    refine
      { found := rfl, depth := rfl, file := hfile, size := hsize, tree := htree
        states := hstates, counted := ?_, active := ?_, once := nodup_nil
        idle := fun _ => rfl }
    · symm
      rw [Finset.card_eq_zero, Finset.eq_empty_iff_forall_notMem]
      intro b hb
      obtain ⟨_, q, _, hq⟩ := mem_upBytes.mp hb
      exact hne q hq
    · intro query p hp
      cases hp

/-- However the blocks of a download are found or received, as long as those that are
found from the bottom up begin in the range: the number of complete bytes is the number
of bytes of the range in finished DBLOCKs. -/
theorem run_accounted (hash : List UInt8 → HashCode)
    (encrypt decrypt : HashCode → List UInt8 → Option (List UInt8))
    {fileSize offset length oldFileSize : Nat} {chk : ContentHashKey} {start : DownloadContext}
    {events : List DownloadContext.DownloadEvent} (hsize : fileSize ≤ 2 ^ 63)
    (hfits : ∀ depth i, depth + 1 < computeDepth fileSize → Meets offset length (depth + 1) i →
      Fits offset length depth i)
    (hstart : downloadStart fileSize offset length oldFileSize chk = some start)
    (hrun : Run (fun dc => dc.downloadStep hash encrypt decrypt) BeginsInRange
      start events dc) : Accounted dc := by
  apply Sound.accounted
  apply hrun.invariant Sound (sound_start hsize hfits hstart)
  intro before event after hbefore hguard hstep
  exact hbefore.step hguard hstep

end

instance (dc : DownloadContext) (event : DownloadContext.DownloadEvent) :
    Decidable (BeginsInRange dc event) :=
  match event with
  | .reconstruct chk offset depth =>
    decidable_of_iff (∀ top ∈ dc.topRequest, ∀ found ∈ matchRequest offset depth (top.depth + 1)
        top [], ∀ p ∈ found, ∀ dr ∈ top.find p,
          dc.state p = .chkSet → dc.chk p = chk → dc.offset ≤ dr.offset)
      ⟨fun h top p dr htop hfound hdr => h top htop _ hfound p rfl dr hdr,
        fun h top htop _ hfound p hp dr hdr => h top p dr htop (hp ▸ hfound) hdr⟩
  | .topDown _ | .reconstructCont | .receive _ _ _ => .isTrue trivial

/-- Of a file of three DBLOCKs a range in the last two is downloaded; the IBLOCK is received,
and the last DBLOCK is found in the existing file. -/
theorem run_accounted_partOfFile :
    ∃ dc dc', downloadStart 98304 40000 30000 98304 .zero = some dc ∧
      Run (fun dc => dc.downloadStep (fun _ => .replicate 64 0)
        (fun _ plain => some plain) (fun _ data => some data)) BeginsInRange dc
        [.reconstructCont, .receive [] (replicate 384 0) true, .reconstruct .zero 65536 0] dc' ∧
      dc'.completed = 4464 ∧ Accounted dc' := by
  obtain ⟨dc, hstart, hexec⟩ : ∃ dc, downloadStart 98304 40000 30000 98304 .zero = some dc ∧
      (exec (fun dc => dc.downloadStep (fun _ => .replicate 64 0) (fun _ plain => some plain)
        (fun _ data => some data)) BeginsInRange dc [.reconstructCont,
          .receive [] (replicate 384 0) true, .reconstruct .zero 65536 0]).any
        (fun dc' => decide (dc'.completed = 4464)) = true := ⟨_, rfl, by decide +kernel⟩
  obtain ⟨dc', hrun, hcompleted⟩ := Run.exists_of_exec hexec
  refine ⟨dc, dc', hstart, hrun, hcompleted, ?_⟩
  apply run_accounted _ _ _ (by decide) ?_ hstart hrun
  intro depth i hdepth _
  have htwo : computeDepth 98304 = 2 := by decide
  obtain rfl : depth = 0 := by omega
  have hspan : chkShape.span 1 = 2 ^ 23 := span_eq 1
  exact .inl (by rw [hspan]; omega)

/-- With a range that begins at byte 10, the bytes before it are counted too. -/
theorem block_before_range_counted :
    ∃ dc dc', downloadStart 100 10 90 100 .zero = some dc ∧
      Run (fun dc => dc.downloadStep (fun _ => .replicate 64 0)
        (fun _ plain => some plain) (fun _ data => some data)) (fun _ _ => True)
        dc [.reconstruct .zero 0 0] dc' ∧
      dc'.completed = 100 ∧ ¬ Accounted dc' := by
  refine ⟨_, _, rfl, .single trivial rfl, rfl, ?_⟩
  intro haccounted
  exact absurd haccounted.bounded (by decide)

end Gnunet.Fs
