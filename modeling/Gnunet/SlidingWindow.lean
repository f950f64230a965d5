import Mathlib.Data.List.Sort
import Mathlib.Tactic

/-!
# Sliding windows and wrapping identifiers

Messages are numbered from 0.  The receiver has taken all numbers below `next` and
holds some early ones, none further ahead than the size of the window.  The sender
may run ahead of the receiver by a bounded number of missing messages.  On the
wire the unbounded numbers are cut to `width` bits, which keeps distances that are
below `2 ^ width`.
-/

namespace Protocol

open List

section

variable {width a b : Nat}

theorem serial_sub_of_le (hle : b ≤ a) (hlt : a < b + 2 ^ width) :
    (BitVec.ofNat width a - BitVec.ofNat width b).toNat = a - b := by
  have hsplit : BitVec.ofNat width a = BitVec.ofNat width (a - b) + BitVec.ofNat width b := by
    rw [← BitVec.ofNat_add, Nat.sub_add_cancel hle]
  rw [hsplit, BitVec.add_sub_cancel, BitVec.toNat_ofNat]
  exact Nat.mod_eq_of_lt (by omega)

theorem serial_sub_of_lt (hlt : a < b) (hle : b ≤ a + 2 ^ width) :
    (BitVec.ofNat width a - BitVec.ofNat width b).toNat = a + 2 ^ width - b := by
  have hwrap : BitVec.ofNat width a = BitVec.ofNat width (a + 2 ^ width) := by
    apply BitVec.eq_of_toNat_eq
    simp
  rw [hwrap]
  exact serial_sub_of_le hle (by omega)

theorem serial_eq_of_near (hab : a < b + 2 ^ width) (hba : b < a + 2 ^ width)
    (heq : BitVec.ofNat width a = BitVec.ofNat width b) : a = b := by
  have hzero : (BitVec.ofNat width a - BitVec.ofNat width b).toNat = 0 := by
    rw [heq, BitVec.sub_self]
    rfl
  rcases Nat.lt_or_ge a b with hlt | hle
  · rw [serial_sub_of_lt hlt hba.le] at hzero
    omega
  · rw [serial_sub_of_le hle hab] at hzero
    omega

end

theorem forall₂_orderedInsert {α β : Type} {R : α → β → Prop}
    {r : α → α → Prop} {s : β → β → Prop} [DecidableRel r] [DecidableRel s]
    {x : α} {y : β} {xs : List α} {ys : List β} (hxy : R x y) (hall : Forall₂ R xs ys)
    (horder : ∀ a ∈ xs, ∀ b, R a b → (r x a ↔ s y b)) :
    Forall₂ R (xs.orderedInsert r x) (ys.orderedInsert s y) := by
  induction hall with
  | nil => exact .cons hxy .nil
  | @cons a b as bs hab htail ih =>
    have hiff : r x a ↔ s y b := horder a (by simp) b hab
    rw [orderedInsert_cons, orderedInsert_cons]
    by_cases hr : r x a
    · rw [if_pos hr, if_pos (hiff.mp hr)]
      exact .cons hxy (.cons hab htail)
    · rw [if_neg hr, if_neg (fun hs => hr (hiff.mpr hs))]
      exact .cons hab (ih fun a' ha' => horder a' (by simp [ha']))

/-! ## The window -/

def missing (sent next : Nat) (held : List Nat) : Finset Nat :=
  (Finset.Ico next sent).filter (· ∉ held)

structure SlidingWindow (size : Nat) where
  sent : Nat
  next : Nat
  held : List Nat
  sorted : held.Pairwise (· < ·)
  within : ∀ n ∈ held, next ≤ n ∧ n ≤ next + size ∧ n < sent
  next_le : next ≤ sent
  missing_le : (missing sent next held).card ≤ size + 1

namespace SlidingWindow

variable {size : Nat} (w : SlidingWindow size)

def Received (n : Nat) : Prop :=
  n < w.next ∨ n ∈ w.held

theorem sent_le : w.sent ≤ w.next + 2 * size + 2 := by
  have hsub : Finset.Ico (w.next + size + 1) w.sent ⊆ missing w.sent w.next w.held := by
    intro n hn
    rw [Finset.mem_Ico] at hn
    rw [missing, Finset.mem_filter, Finset.mem_Ico]
    refine ⟨⟨by omega, hn.2⟩, fun hheld => ?_⟩
    have hwithin := w.within n hheld
    omega
  have hcard := (Finset.card_le_card hsub).trans w.missing_le
  rw [Nat.card_Ico] at hcard
  omega

def empty (size : Nat) : SlidingWindow size where
  sent := 0
  next := 0
  held := []
  sorted := .nil
  within := by simp
  next_le := le_rfl
  missing_le := by simp [missing]

def send (hroom : (missing w.sent w.next w.held).card ≤ size) : SlidingWindow size where
  sent := w.sent + 1
  next := w.next
  held := w.held
  sorted := w.sorted
  within := fun n hn => by
    have hwithin := w.within n hn
    omega
  next_le := by
    have hnext := w.next_le
    omega
  missing_le := by
    have hsub : missing (w.sent + 1) w.next w.held ⊆
        insert w.sent (missing w.sent w.next w.held) := by
      intro n hn
      simp only [missing, Finset.mem_insert, Finset.mem_filter, Finset.mem_Ico] at hn ⊢
      rcases Nat.lt_succ_iff_lt_or_eq.mp hn.1.2 with hlt | rfl
      · exact .inr ⟨⟨hn.1.1, hlt⟩, hn.2⟩
      · exact .inl rfl
    have hcard := (Finset.card_le_card hsub).trans (Finset.card_insert_le _ _)
    omega

def hold (n : Nat) (hnew : n ∉ w.held) (hin : w.next ≤ n ∧ n ≤ w.next + size ∧ n < w.sent) :
    SlidingWindow size where
  sent := w.sent
  next := w.next
  held := w.held.orderedInsert (· ≤ ·) n
  sorted := by
    have hle : (w.held.orderedInsert (· ≤ ·) n).Pairwise (· ≤ ·) :=
      (w.sorted.imp le_of_lt).orderedInsert n _
    have hnodup : (w.held.orderedInsert (· ≤ ·) n).Nodup := by
      rw [(perm_orderedInsert (· ≤ ·) n w.held).nodup_iff]
      exact nodup_cons.mpr ⟨hnew, w.sorted.imp ne_of_lt⟩
    exact (hle.and hnodup).imp fun hab => lt_of_le_of_ne hab.1 hab.2
  within := fun m hm => by
    rcases (mem_orderedInsert _).mp hm with rfl | hm
    · exact hin
    · exact w.within m hm
  next_le := w.next_le
  missing_le := by
    refine (Finset.card_le_card ?_).trans w.missing_le
    intro m hm
    simp only [missing, Finset.mem_filter, mem_orderedInsert, not_or] at hm ⊢
    exact ⟨hm.1, hm.2.2⟩

def advance (hsent : w.next < w.sent) : SlidingWindow size where
  sent := w.sent
  next := w.next + 1
  held := w.held.filter (· ≠ w.next)
  sorted := w.sorted.filter _
  within := fun n hn => by
    simp only [mem_filter, decide_eq_true_eq] at hn
    have hwithin := w.within n hn.1
    omega
  next_le := hsent
  missing_le := by
    refine (Finset.card_le_card ?_).trans w.missing_le
    intro m hm
    simp only [missing, Finset.mem_filter, Finset.mem_Ico, mem_filter,
      decide_eq_true_eq, not_and, not_not] at hm ⊢
    refine ⟨⟨by omega, hm.1.2⟩, fun hheld => ?_⟩
    have heq := hm.2 hheld
    omega

variable {w}

theorem received_hold : (w.hold n hnew hin).Received m ↔ m = n ∨ w.Received m := by
  simp only [Received, hold, mem_orderedInsert]
  tauto

structure Extends (w w' : SlidingWindow size) : Prop where
  sent : w'.sent = w.sent
  next_le : w.next ≤ w'.next
  received : ∀ n, w.Received n → w'.Received n

theorem extends_refl (w : SlidingWindow size) : Extends w w := ⟨rfl, le_rfl, fun _ hn => hn⟩

theorem extends_advance (hsent : w.next < w.sent) : Extends w (w.advance hsent) where
  sent := rfl
  next_le := Nat.le_succ _
  received := by
    intro n hn
    simp only [Received, advance, mem_filter, decide_eq_true_eq] at hn ⊢
    by_cases heq : n = w.next
    · exact .inl (by omega)
    · rcases hn with hlt | hheld
      · exact .inl (by omega)
      · exact .inr ⟨hheld, heq⟩

theorem received_advance (hn : (w.advance hsent).Received n) : n = w.next ∨ w.Received n := by
  simp only [Received, advance, mem_filter, decide_eq_true_eq] at hn ⊢
  rcases hn with hlt | hheld
  · omega
  · exact .inr (.inr hheld.1)

theorem held_advance_of_notMem (hsent : w.next < w.sent)
    (hnext : w.next ∉ w.held) : (w.advance hsent).held = w.held := by
  simp only [advance, filter_eq_self, decide_eq_true_eq]
  rintro n hn rfl
  exact hnext hn

theorem held_advance_of_cons (hsent : w.next < w.sent)
    (hheld : w.held = w.next :: rest) : (w.advance hsent).held = rest := by
  have hsorted := w.sorted
  rw [hheld, pairwise_cons] at hsorted
  simp only [advance, hheld, ne_eq, not_true_eq_false, decide_false,
    Bool.false_eq_true, not_false_eq_true, filter_cons_of_neg,
    filter_eq_self, decide_eq_true_eq]
  intro n hn
  exact (hsorted.1 n hn).ne'

theorem next_notMem_of_cons (hheld : w.held = n :: rest) (hne : n ≠ w.next) : w.next ∉ w.held := by
  have hsorted := w.sorted
  have hn := w.within n (by simp [hheld])
  rw [hheld, pairwise_cons] at hsorted
  rw [hheld, mem_cons, not_or]
  refine ⟨hne.symm, fun hmem => ?_⟩
  have hlt := hsorted.1 _ hmem
  omega

end SlidingWindow

end Protocol
