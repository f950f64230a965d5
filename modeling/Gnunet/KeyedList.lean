import Mathlib.Tactic

/-!
# Lists that are searched for a key

The first element with a key is found and changed.  A change keeps the keys, so
that it is seen by the searches for its key and by no other.
-/

namespace KeyedList

open List

variable {A K : Type} [DecidableEq K] (key : A → K)

def find (k : K) (as : List A) : Option A :=
  as.find? fun a => key a = k

def modify (k : K) (f : A → A) : List A → List A
  | [] => []
  | a :: as => if key a = k then f a :: as else a :: modify k f as

def Distinct (as : List A) : Prop :=
  as.Pairwise fun a b => key a ≠ key b

variable {key} {k : K} {f : A → A} {a : A} {as : List A}

@[simp] theorem find_nil : find key k [] = none := rfl

theorem find_cons (k : K) (a : A) (as : List A) :
    find key k (a :: as) = if key a = k then some a else find key k as := by
  rw [find, find?_cons]
  by_cases hkey : key a = k
  · simp [hkey]
  · simp [hkey, find]

theorem key_of_find (hfind : find key k as = some a) : key a = k := by
  simpa using find?_some hfind

theorem mem_of_find (hfind : find key k as = some a) : a ∈ as := mem_of_find?_eq_some hfind

theorem find_eq_none : find key k as = none ↔ ∀ a ∈ as, key a ≠ k := by
  simp [find]

theorem find_modify (hf : ∀ a, key (f a) = key a) (k' : K) : find key k' (modify key k f as) =
      if k' = k then (find key k as).map f else find key k' as := by
  induction as with
  | nil => simp [modify]
  | cons a as ih =>
    rw [modify]
    by_cases hkey : key a = k
    · rw [if_pos hkey, find_cons, hf, find_cons k a, find_cons k' a, if_pos hkey]
      by_cases hk : k' = k
      · rw [if_pos hk, if_pos (hkey.trans hk.symm), Option.map_some]
      · rw [if_neg hk, if_neg (fun h => hk (h.symm.trans hkey)),
          if_neg (fun h => hk (h.symm.trans hkey))]
    · rw [if_neg hkey, find_cons k' a, ih, find_cons k a, find_cons k' a, if_neg hkey]
      by_cases hk : k' = k
      · rw [if_pos hk, if_pos hk, hk, if_neg hkey]
      · rw [if_neg hk, if_neg hk]

theorem mem_modify (hmem : a ∈ modify key k f as) : a ∈ as ∨ ∃ b ∈ as, key b = k ∧ a = f b := by
  induction as with
  | nil => cases hmem
  | cons b as ih =>
    rw [modify] at hmem
    split at hmem
    next hkey =>
      rcases mem_cons.mp hmem with rfl | hmem
      · exact .inr ⟨b, mem_cons_self, hkey, rfl⟩
      · exact .inl (mem_cons_of_mem _ hmem)
    · rcases mem_cons.mp hmem with rfl | hmem
      · exact .inl mem_cons_self
      · rcases ih hmem with hold | ⟨c, hc, hchanged⟩
        · exact .inl (mem_cons_of_mem _ hold)
        · exact .inr ⟨c, mem_cons_of_mem _ hc, hchanged⟩

theorem map_key_modify (hf : ∀ a, key (f a) = key a) :
    (modify key k f as).map key = as.map key := by
  induction as with
  | nil => rfl
  | cons a as ih =>
    rw [modify]
    split
    · rw [map_cons, map_cons, hf]
    · rw [map_cons, map_cons, ih]

omit [DecidableEq K] in
theorem distinct_iff : Distinct key as ↔ (as.map key).Nodup := pairwise_map.symm

theorem Distinct.modify (hdistinct : Distinct key as) (hf : ∀ a, key (f a) = key a) :
    Distinct key (modify key k f as) := by
  rw [distinct_iff, map_key_modify hf]
  exact distinct_iff.mp hdistinct

theorem Distinct.cons (hdistinct : Distinct key as) (hfresh : find key (key a) as = none) :
    Distinct key (a :: as) :=
  pairwise_cons.mpr ⟨fun b hb hkey => find_eq_none.mp hfresh b hb hkey.symm, hdistinct⟩

omit [DecidableEq K] in
theorem Distinct.eq_of_key (hdistinct : Distinct key as) (ha : a ∈ as) (hb : b ∈ as)
    (hkey : key a = key b) : a = b :=
  inj_on_of_nodup_map (distinct_iff.mp hdistinct) ha hb hkey

theorem find_eq_some_iff (hdistinct : Distinct key as) :
    find key k as = some a ↔ a ∈ as ∧ key a = k := by
  refine ⟨fun hfind => ⟨mem_of_find hfind, key_of_find hfind⟩, fun ⟨hmem, hkey⟩ => ?_⟩
  cases hfind : find key k as with
  | none => exact absurd hkey (find_eq_none.mp hfind a hmem)
  | some b =>
    rw [hdistinct.eq_of_key (mem_of_find hfind) hmem ((key_of_find hfind).trans hkey.symm)]

theorem find_eraseP (hdistinct : Distinct key as) (k' : K) :
    find key k' (as.eraseP fun a => key a = k) = if k' = k then none else find key k' as := by
  induction as with
  | nil => simp
  | cons a as ih =>
    obtain ⟨hne, hrest⟩ := pairwise_cons.mp hdistinct
    rw [find_cons k' a as]
    by_cases hkey : key a = k
    · subst hkey
      rw [eraseP_cons_of_pos (by simp)]
      by_cases hk : k' = key a
      · rw [if_pos hk, hk]
        exact find_eq_none.mpr fun b hb => (hne b hb).symm
      · rw [if_neg hk, if_neg (Ne.symm hk)]
    · rw [eraseP_cons_of_neg (by simpa using hkey), find_cons, ih hrest]
      by_cases hk : k' = k
      · rw [if_pos hk, if_neg fun h => hkey (h.trans hk), if_pos hk]
      · rw [if_neg hk, if_neg hk]

end KeyedList
