import Mathlib.Data.Prod.Lex
import Mathlib.Tactic

/-!
# The window of a receiver with skipped messages

Messages are numbered within chains, and the chains are numbered as well.  A
receiver remembers the next number it expects in its current chain and a
bounded list of labels that it skipped.  A label is pending when a message
with this label can still be taken: it lies ahead, or it is on the list.
Taking a message only ever removes pending labels, and always its own.
-/

namespace Protocol

open List Prod.Lex

/-- Chain and number of a message, in the order of sending. -/
abbrev Label := Nat ×ₗ Nat

structure Window (capacity : Nat) where
  chain : Nat
  next : Nat
  skipped : List Label
  sorted : skipped.Pairwise (· > ·)
  before : ∀ l ∈ skipped, l < toLex (chain, next)
  bounded : skipped.length ≤ capacity

namespace Window

variable {capacity : Nat}

def skippedRange (chain lo hi : Nat) : List Label :=
  (range' lo (hi - lo)).reverse.map fun n => toLex (chain, n)

theorem mem_skippedRange {chain lo hi : Nat} : l ∈ skippedRange chain lo hi ↔
      (ofLex l).1 = chain ∧ lo ≤ (ofLex l).2 ∧ (ofLex l).2 < hi := by
  simp only [skippedRange, mem_map, mem_reverse, mem_range'_1]
  constructor
  · rintro ⟨n, hn, rfl⟩
    refine ⟨rfl, hn.1, ?_⟩
    have hlt : n < hi := by omega
    exact hlt
  · rintro ⟨rfl, _, _⟩
    exact ⟨(ofLex l).2, by omega, rfl⟩

theorem skippedRange_sorted (chain lo hi : Nat) : (skippedRange chain lo hi).Pairwise (· > ·) := by
  unfold skippedRange
  rw [pairwise_map, pairwise_reverse]
  apply Pairwise.imp _ (pairwise_lt_range' (s := lo))
  intro a b hab
  simp [lt_iff, hab]

@[simp] theorem skippedRange_length (chain lo hi : Nat) :
    (skippedRange chain lo hi).length = hi - lo := by
  simp [skippedRange]

theorem skippedRange_self (chain n : Nat) : skippedRange chain n n = [] := by
  simp [skippedRange]

theorem skippedRange_of_lt (chain : Nat) (hlt : lo < hi) : skippedRange chain lo hi =
      skippedRange chain (lo + 1) hi ++ [toLex (chain, lo)] := by
  obtain ⟨count, rfl⟩ := Nat.exists_eq_add_of_lt hlt
  have hcount : lo + count + 1 - lo = count + 1 := by omega
  have hrest : lo + count + 1 - (lo + 1) = count := by omega
  simp [skippedRange, hcount, hrest, range'_succ]

def empty (chain : Nat) : Window capacity where
  chain := chain
  next := 0
  skipped := []
  sorted := Pairwise.nil
  before := by simp
  bounded := Nat.zero_le _

def advance (w : Window capacity) (n : Nat) (hn : w.next ≤ n) : Window capacity where
  chain := w.chain
  next := n + 1
  skipped := (skippedRange w.chain w.next n ++ w.skipped).take capacity
  sorted := by
    apply Pairwise.take
    rw [pairwise_append]
    refine ⟨skippedRange_sorted _ _ _, w.sorted, ?_⟩
    intro l hl l' hl'
    rw [mem_skippedRange] at hl
    have hbefore := w.before l' hl'
    simp only [lt_iff, gt_iff_lt, ofLex_toLex] at hbefore ⊢
    omega
  before := by
    intro l hl
    rcases mem_append.mp (mem_of_mem_take hl) with hnew | hold
    · rw [mem_skippedRange] at hnew
      simp only [lt_iff, ofLex_toLex]
      omega
    · have hbefore := w.before l hold
      simp only [lt_iff, ofLex_toLex] at hbefore ⊢
      omega
  bounded := by
    rw [length_take]
    exact Nat.min_le_left _ _

def switch (w : Window capacity) (chain : Nat) (hchain : w.chain < chain) : Window capacity where
  chain := chain
  next := 0
  skipped := w.skipped
  sorted := w.sorted
  before := by
    intro l hl
    have hbefore := w.before l hl
    simp only [lt_iff, ofLex_toLex] at hbefore ⊢
    omega
  bounded := w.bounded

def fetch (w : Window capacity) (l : Label) : Bool × Window capacity :=
  if l ∈ w.skipped then
    (true, { w with
        skipped := w.skipped.erase l
        sorted := w.sorted.sublist erase_sublist
        before := fun l' hl' => w.before l' (mem_of_mem_erase hl')
        bounded := length_erase_le.trans w.bounded })
  else (false, w)

def receiveInChain (gap : Nat) (w : Window capacity) (n : Nat) : Bool × Window capacity :=
  if hn : w.next ≤ n ∧ n ≤ w.next + gap then (true, w.advance n hn.1)
  else w.fetch (toLex (w.chain, n))

def receive (gap : Nat) (w : Window capacity) (chain n : Nat) : Bool × Window capacity :=
  if hchain : w.chain < chain then
    (w.switch chain hchain).receiveInChain gap n
  else if chain = w.chain then w.receiveInChain gap n
  else w.fetch (toLex (chain, n))

theorem receiveInChain_next_le {w : Window capacity}
    (bound : Nat → Nat) (hnext : w.next ≤ bound w.chain) (hn : n < bound w.chain) :
    (w.receiveInChain gap n).2.next ≤ bound (w.receiveInChain gap n).2.chain := by
  unfold receiveInChain fetch
  split
  · exact hn
  · split <;> exact hnext

theorem receive_next_le {gap chain n : Nat} {w : Window capacity}
    (bound : Nat → Nat) (hnext : w.next ≤ bound w.chain) (hn : n < bound chain) :
    (w.receive gap chain n).2.next ≤ bound (w.receive gap chain n).2.chain := by
  unfold receive
  split
  · exact receiveInChain_next_le bound (Nat.zero_le _) hn
  · split
    next heq =>
      subst heq
      exact receiveInChain_next_le bound hnext hn
    · unfold fetch
      split <;> exact hnext

/-! ## Pending labels -/

def Pending (w : Window capacity) (l : Label) : Prop :=
  toLex (w.chain, w.next) ≤ l ∨ l ∈ w.skipped

section

variable {gap chain n : Nat} {w : Window capacity} {l : Label}

theorem pending_of_pending_fetch (hpending : (w.fetch l').2.Pending l) : w.Pending l := by
  unfold fetch at hpending
  split at hpending
  · rcases hpending with hle | hmem
    · exact .inl hle
    · exact .inr (mem_of_mem_erase hmem)
  · exact hpending

theorem pending_of_pending_advance (hn : w.next ≤ n)
    (hpending : (w.advance n hn).Pending l) : w.Pending l := by
  rcases hpending with hle | hmem
  · left
    simp only [advance, le_iff, ofLex_toLex] at hle ⊢
    omega
  · rcases mem_append.mp (mem_of_mem_take hmem) with hnew | hold
    · left
      rw [mem_skippedRange] at hnew
      simp only [le_iff, ofLex_toLex]
      omega
    · exact .inr hold

theorem pending_of_pending_switch (hpending : (w.switch chain hchain).Pending l) : w.Pending l := by
  rcases hpending with hle | hmem
  · left
    simp only [switch, le_iff, ofLex_toLex] at hle ⊢
    omega
  · exact .inr hmem

theorem pending_of_pending_receiveInChain
    (hpending : (w.receiveInChain gap n).2.Pending l) : w.Pending l := by
  unfold receiveInChain at hpending
  split at hpending
  next hn =>
    exact pending_of_pending_advance hn.1 hpending
  · exact pending_of_pending_fetch hpending

theorem pending_of_pending_receive
    (hpending : (w.receive gap chain n).2.Pending l) : w.Pending l := by
  unfold receive at hpending
  split at hpending
  · exact pending_of_pending_switch
      (pending_of_pending_receiveInChain hpending)
  · split at hpending
    · exact pending_of_pending_receiveInChain hpending
    · exact pending_of_pending_fetch hpending

theorem fetch_accepts_iff : (w.fetch l).1 = true ↔ l ∈ w.skipped := by
  unfold fetch
  split <;> simp_all

theorem not_pending_fetch_self (hmem : l ∈ w.skipped) : ¬ (w.fetch l).2.Pending l := by
  unfold fetch
  rw [if_pos hmem]
  rintro (hle | hin)
  · have hold : toLex (w.chain, w.next) ≤ l := hle
    exact absurd (w.before l hmem) (not_lt.mpr hold)
  · have hnodup : w.skipped.Nodup := w.sorted.imp (fun h => (ne_of_gt h))
    exact absurd hin hnodup.not_mem_erase

theorem not_pending_advance_self (hn : w.next ≤ n) :
    ¬ (w.advance n hn).Pending (toLex (w.chain, n)) := by
  rintro (hle | hmem)
  · simp only [advance, le_iff, ofLex_toLex] at hle
    omega
  · rcases mem_append.mp (mem_of_mem_take hmem) with hnew | hold
    · rw [mem_skippedRange] at hnew
      simp only [ofLex_toLex] at hnew
      omega
    · have hbefore := w.before _ hold
      simp only [lt_iff, ofLex_toLex] at hbefore
      omega

theorem receiveInChain_accepts (haccept : (w.receiveInChain gap n).1 = true) :
    w.Pending (toLex (w.chain, n)) ∧ ¬ (w.receiveInChain gap n).2.Pending (toLex (w.chain, n)) := by
  unfold receiveInChain at haccept ⊢
  split at haccept
  next hn =>
    rw [dif_pos hn]
    exact ⟨.inl (le_iff.mpr (.inr ⟨rfl, hn.1⟩)), not_pending_advance_self hn.1⟩
  next hn =>
    rw [dif_neg hn]
    have hmem := fetch_accepts_iff.mp haccept
    exact ⟨.inr hmem, not_pending_fetch_self hmem⟩

theorem receive_accepts (haccept : (w.receive gap chain n).1 = true) :
    w.Pending (toLex (chain, n)) ∧ ¬ (w.receive gap chain n).2.Pending (toLex (chain, n)) := by
  unfold receive at haccept ⊢
  split at haccept
  next hchain =>
    rw [dif_pos hchain]
    obtain ⟨hpending, hnot⟩ := receiveInChain_accepts haccept
    exact ⟨pending_of_pending_switch hpending, hnot⟩
  next hchain =>
    rw [dif_neg hchain]
    split at haccept
    next heq =>
      subst heq
      rw [if_pos rfl]
      exact receiveInChain_accepts haccept
    next hne =>
      rw [if_neg hne]
      have hmem := fetch_accepts_iff.mp haccept
      exact ⟨.inr hmem, not_pending_fetch_self hmem⟩

/-! ## Messages within the limits -/

def Within (gap : Nat) (w : Window capacity) (chain n : Nat) : Prop :=
  (chain = w.chain → n ≤ w.next + gap ∧ w.skipped.length + (n - w.next) ≤ capacity) ∧
  (w.chain < chain → n ≤ gap ∧ w.skipped.length + n ≤ capacity)

theorem receiveInChain_of_pending (hgap : n ≤ w.next + gap)
    (hpending : w.Pending (toLex (w.chain, n))) : (w.receiveInChain gap n).1 = true := by
  unfold receiveInChain
  split
  · rfl
  next hn =>
    rw [fetch_accepts_iff]
    rcases hpending with hle | hmem
    · have hnext : w.next ≤ n := by
        simpa [le_iff] using hle
      exact absurd ⟨hnext, hgap⟩ hn
    · exact hmem

theorem receive_of_pending (hwithin : w.Within gap chain n)
    (hpending : w.Pending (toLex (chain, n))) : (w.receive gap chain n).1 = true := by
  unfold receive
  split
  next hchain =>
    apply receiveInChain_of_pending
    · have hgap := (hwithin.2 hchain).1
      simpa [switch] using hgap
    · left
      simp [switch, le_iff]
  next hchain =>
    split
    next heq =>
      subst heq
      exact receiveInChain_of_pending (hwithin.1 rfl).1 hpending
    next hne =>
      rw [fetch_accepts_iff]
      rcases hpending with hle | hmem
      · simp only [le_iff, ofLex_toLex] at hle
        omega
      · exact hmem

theorem pending_fetch (hne : l ≠ l') (hpending : w.Pending l) : (w.fetch l').2.Pending l := by
  unfold fetch
  split
  · rcases hpending with hle | hmem
    · exact .inl hle
    · exact .inr ((mem_erase_of_ne hne).mpr hmem)
  · exact hpending

theorem pending_advance (hn : w.next ≤ n) (hroom : w.skipped.length + (n - w.next) ≤ capacity)
    (hne : l ≠ toLex (w.chain, n)) (hpending : w.Pending l) : (w.advance n hn).Pending l := by
  have hall : (w.advance n hn).skipped = skippedRange w.chain w.next n ++ w.skipped := by
    apply take_of_length_le
    simp only [length_append, skippedRange_length]
    omega
  unfold Pending
  rw [hall, mem_append, mem_skippedRange]
  rcases hpending with hle | hmem
  · have hne' : ¬ ((ofLex l).1 = w.chain ∧ (ofLex l).2 = n) := by
      rintro ⟨hchain, hnum⟩
      apply hne
      rw [← hchain, ← hnum]
      rfl
    simp only [advance, le_iff, ofLex_toLex] at hle ⊢
    omega
  · exact .inr (.inr hmem)

theorem pending_receiveInChain (hroom : w.skipped.length + (n - w.next) ≤ capacity)
    (hne : l ≠ toLex (w.chain, n)) (hpending : w.Pending l) :
    (w.receiveInChain gap n).2.Pending l := by
  unfold receiveInChain
  split
  next hn =>
    exact pending_advance hn.1 hroom hne hpending
  · exact pending_fetch hne hpending

/-- Within the limits a message takes no other label, except those of the
chains that it leaves behind. -/
theorem pending_receive (hwithin : w.Within gap chain n)
    (hne : l ≠ toLex (chain, n)) (hpending : w.Pending l)
    (hkept : w.chain < chain → toLex (w.chain, w.next) ≤ l → chain ≤ (ofLex l).1) :
    (w.receive gap chain n).2.Pending l := by
  unfold receive
  split
  next hchain =>
    apply pending_receiveInChain
    · have hroom := (hwithin.2 hchain).2
      simpa [switch] using hroom
    · exact hne
    · rcases hpending with hle | hmem
      · left
        have hlater := hkept hchain hle
        simp only [switch, le_iff, ofLex_toLex]
        omega
      · exact .inr hmem
  · split
    next heq =>
      subst heq
      exact pending_receiveInChain (hwithin.1 rfl).2 hne hpending
    · exact pending_fetch hne hpending

end

end Window

end Protocol
