import Mathlib.Tactic

/-!
# Frames that carry their own length

A frame begins with a header of fixed length from which the length of the
whole frame can be read.  A stream is cut into frames from its front; what is
left is an incomplete frame or a header whose length field is too small to
hold the header itself.  `Parses` is the state of a reader that has taken some
frames and keeps the rest, and does not change when bytes are added.
-/

namespace Framing

open List

structure Format (A : Type) where
  headerLength : Nat
  headerLength_pos : 0 < headerLength
  sizeField : List A → Nat
  sizeField_append : ∀ header more, headerLength ≤ header.length →
    sizeField (header ++ more) = sizeField header

inductive Next (A : Type) where
  | incomplete
  | corrupt
  | frame (message rest : List A)

namespace Format

variable {A : Type} (format : Format A)

def next (bytes : List A) : Next A :=
  if bytes.length < format.headerLength then .incomplete
  else if format.sizeField bytes < format.headerLength then .corrupt
  else if bytes.length < format.sizeField bytes then .incomplete
  else .frame (bytes.take (format.sizeField bytes))
    (bytes.drop (format.sizeField bytes))

def splitFrom : Nat → List A → List (List A) × List A
  | 0, bytes => ([], bytes)
  | fuel + 1, bytes =>
      match format.next bytes with
      | .frame message rest =>
          (message :: (splitFrom fuel rest).1, (splitFrom fuel rest).2)
      | _ => ([], bytes)

def frames (bytes : List A) : List (List A) :=
  (format.splitFrom bytes.length bytes).1

def remainder (bytes : List A) : List A :=
  (format.splitFrom bytes.length bytes).2

/-- Whether the frames of a stream are followed by a header that is too
small. -/
def Corrupt (bytes : List A) : Prop :=
  format.next (format.remainder bytes) = .corrupt

variable {format} {bytes : List A}

theorem next_eq_incomplete (hshort : bytes.length < format.headerLength ∨
      format.headerLength ≤ format.sizeField bytes ∧
        bytes.length < format.sizeField bytes) : format.next bytes = .incomplete := by
  unfold next
  rcases hshort with hshort | ⟨_, hshort⟩
  · exact if_pos hshort
  · have hlarge : ¬ format.sizeField bytes < format.headerLength := by omega
    rw [if_neg hlarge, if_pos hshort, ite_self]

theorem next_eq_corrupt (hlength : format.headerLength ≤ bytes.length)
    (hfield : format.sizeField bytes < format.headerLength) : format.next bytes = .corrupt := by
  unfold next
  rw [if_neg (by omega), if_pos hfield]

theorem next_eq_frame (hfield : format.headerLength ≤ format.sizeField bytes)
    (hlength : format.sizeField bytes ≤ bytes.length) :
    format.next bytes = .frame (bytes.take (format.sizeField bytes))
      (bytes.drop (format.sizeField bytes)) := by
  unfold next
  rw [if_neg (by omega), if_neg (by omega), if_neg (by omega)]

variable {message rest : List A}

section

variable (hnext : format.next bytes = .frame message rest)
include hnext

theorem frame_of_next : bytes = message ++ rest ∧ message.length = format.sizeField bytes ∧
      format.headerLength ≤ message.length := by
  unfold next at hnext
  split at hnext
  · cases hnext
  · split at hnext
    · cases hnext
    · split at hnext
      · cases hnext
      · cases hnext
        refine ⟨(take_append_drop _ _).symm, ?_⟩
        rw [length_take]
        omega

theorem next_append (more : List A) :
    format.next (bytes ++ more) = .frame message (rest ++ more) := by
  obtain ⟨hbytes, hmessage, _⟩ := frame_of_next hnext
  have hlength : bytes.length = message.length + rest.length := by
    rw [hbytes, length_append]
  have hfield : format.sizeField (bytes ++ more) = message.length := by
    rw [format.sizeField_append bytes more (by omega), hmessage]
  have hcomplete : format.sizeField (bytes ++ more) ≤ (bytes ++ more).length := by
    rw [hfield, length_append]
    omega
  rw [next_eq_frame (by omega) hcomplete, hfield, hbytes, append_assoc, take_left, drop_left]

theorem splitFrom_of_frame (fuel : Nat) : format.splitFrom (fuel + 1) bytes =
      (message :: (format.splitFrom fuel rest).1, (format.splitFrom fuel rest).2) := by
  simp only [splitFrom, hnext]

end

theorem splitFrom_of_no_frame (hnext : ∀ message rest, format.next bytes ≠ .frame message rest)
    (fuel : Nat) : format.splitFrom fuel bytes = ([], bytes) := by
  cases fuel with
  | zero => rfl
  | succ fuel =>
    unfold splitFrom
    split
    next message rest hframe =>
      exact absurd hframe (hnext message rest)
    · rfl

theorem splitFrom_eq (hfuel : bytes.length ≤ fuel) :
    format.splitFrom fuel bytes = (format.frames bytes, format.remainder bytes) := by
  suffices h : ∀ more, format.splitFrom (bytes.length + more) bytes =
      format.splitFrom bytes.length bytes by
    have hsplit := h (fuel - bytes.length)
    rw [show bytes.length + (fuel - bytes.length) = fuel by omega] at hsplit
    exact hsplit
  clear hfuel fuel
  -- a frame is not empty, so that the rest is shorter than the fuel left
  induction hn : bytes.length using Nat.strong_induction_on generalizing bytes with
  | _ n ih =>
    intro more
    by_cases hframe : ∃ message rest, format.next bytes = .frame message rest
    · obtain ⟨message, rest, hnext⟩ := hframe
      obtain ⟨hbytes, -, _⟩ := frame_of_next hnext
      have hpos := format.headerLength_pos
      have hlength : bytes.length = message.length + rest.length := by
        rw [hbytes, length_append]
      obtain ⟨fuel, rfl⟩ : ∃ fuel, n = fuel + 1 := ⟨n - 1, by omega⟩
      have hrest := ih rest.length (by omega) rfl
      have hlong := hrest (fuel + more - rest.length)
      have hshort := hrest (fuel - rest.length)
      rw [show rest.length + (fuel + more - rest.length) = fuel + more by omega] at hlong
      rw [show rest.length + (fuel - rest.length) = fuel by omega] at hshort
      rw [show fuel + 1 + more = fuel + more + 1 by omega, splitFrom_of_frame hnext,
        splitFrom_of_frame hnext, hlong, hshort]
    · have hnone : ∀ message rest, format.next bytes ≠ .frame message rest :=
        fun message rest hnext => hframe ⟨message, rest, hnext⟩
      rw [splitFrom_of_no_frame hnone, splitFrom_of_no_frame hnone]

theorem frames_of_frame (hnext : format.next bytes = .frame message rest) :
    format.frames bytes = message :: format.frames rest ∧
      format.remainder bytes = format.remainder rest := by
  obtain ⟨hbytes, -, _⟩ := frame_of_next hnext
  have hlength : bytes.length = message.length + rest.length := by
    rw [hbytes, length_append]
  have hsplit : format.splitFrom (bytes.length + 1) bytes =
      (format.frames bytes, format.remainder bytes) :=
    splitFrom_eq (Nat.le_succ bytes.length)
  rw [splitFrom_of_frame hnext, splitFrom_eq (by omega)] at hsplit
  exact ⟨(Prod.mk.inj hsplit).1.symm, (Prod.mk.inj hsplit).2.symm⟩

theorem frames_of_no_frame (hnext : ∀ message rest, format.next bytes ≠ .frame message rest) :
    format.frames bytes = [] ∧ format.remainder bytes = bytes := by
  unfold frames remainder
  rw [splitFrom_of_no_frame hnext]
  exact ⟨rfl, rfl⟩

variable (format)

inductive Parses (stream : List A) : List (List A) → List A → Prop
  | start : Parses stream [] stream
  | take {log : List (List A)} {bytes message rest : List A} :
      Parses stream log bytes → format.next bytes = .frame message rest →
      Parses stream (log ++ [message]) rest

variable {format} {stream : List A} {log : List (List A)}

variable (hparses : format.Parses stream log rest)
include hparses

theorem Parses.append (more : List A) : format.Parses (stream ++ more) log (rest ++ more) := by
  induction hparses with
  | start => exact .start
  | take _ hnext ih => exact .take ih (next_append hnext more)

theorem Parses.frames_eq : format.frames stream = log ++ format.frames rest ∧
      format.remainder stream = format.remainder rest := by
  induction hparses with
  | start => exact ⟨rfl, rfl⟩
  | take _ hnext ih =>
    obtain ⟨hframes, hremainder⟩ := frames_of_frame hnext
    rw [ih.1, ih.2, hframes, hremainder, append_assoc]
    exact ⟨rfl, rfl⟩

theorem Parses.frames_incomplete (hnext : ∀ message more, format.next rest ≠ .frame message more) :
    format.frames stream = log ∧ format.remainder stream = rest := by
  obtain ⟨hframes, hremainder⟩ := hparses.frames_eq
  obtain ⟨hnone, hrest⟩ := frames_of_no_frame hnext
  rw [hframes, hremainder, hnone, hrest, append_nil]
  exact ⟨rfl, rfl⟩

end Format

end Framing
