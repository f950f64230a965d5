import Gnunet.BigEndian

/-!
# Parsers that move an offset through a message

A parser is given the whole message and the offset where its value begins, and
returns the offset behind the value.  `Reads` says what a parser does where
some bytes stand in a message, whatever stands before and behind them.
-/

namespace OffsetParser

open BigEndian

variable {A B : Type}

abbrev Parser (A : Type) := List UInt8 → Nat → Option (A × Nat)

def many (parse : Parser A) : Nat → Parser (List A)
  | 0, _, off => some ([], off)
  | count + 1, payload, off =>
      (parse payload off).bind fun (a, off) =>
        (many parse count payload off).map fun (as, off) => (a :: as, off)

def Reads (parse : Parser A) (bytes : List UInt8) (a : A) : Prop :=
  ∀ front back : List UInt8, parse (front ++ (bytes ++ back)) front.length =
      some (a, front.length + bytes.length)

variable {parse : Parser A} {bytes : List UInt8} {a : A}

theorem Reads.bind (hparse : Reads parse bytes a)
    (next : A → Parser B) (hnext : Reads (next a) more b) :
    Reads (fun payload off => (parse payload off).bind fun (a, off) => next a payload off)
      (bytes ++ more) b := by
  intro front back
  have hfirst := hparse front (more ++ back)
  have hsecond := hnext (front ++ bytes) back
  rw [List.append_assoc, List.length_append] at hsecond
  rw [List.append_assoc]
  dsimp only
  rw [hfirst, Option.bind_some, hsecond, List.length_append, Nat.add_assoc]

theorem Reads.map (hparse : Reads parse bytes a) (f : A → B) :
    Reads (fun payload off => (parse payload off).map fun (a, off) => (f a, off)) bytes (f a) := by
  intro front back
  dsimp only
  rw [hparse front back, Option.map_some]

theorem Reads.many (hparts : List.Forall₂ (fun a bytes => Reads parse bytes a) as parts) :
    Reads (OffsetParser.many parse as.length) parts.flatten as := by
  induction hparts with
  | nil =>
    intro front back
    rfl
  | @cons a bytes as parts hfirst _ ih =>
    exact hfirst.bind (fun a payload off =>
      (OffsetParser.many parse as.length payload off).map fun (as, off) => (a :: as, off))
      (ih.map (a :: ·))

theorem mem_many (hmany : many parse count payload off = some (as, after)) :
    ∀ a ∈ as, ∃ off after, parse payload off = some (a, after) := by
  induction count generalizing off as after with
  | zero =>
    cases hmany
    nofun
  | succ count ih =>
    obtain ⟨⟨a, _⟩, hfirst, hmany⟩ := Option.bind_eq_some_iff.mp hmany
    obtain ⟨⟨as, _⟩, hrest, hmany⟩ := Option.map_eq_some_iff.mp hmany
    cases hmany
    exact List.forall_mem_cons.mpr ⟨⟨_, _, hfirst⟩, ih hrest⟩

/-- Some bytes stand in a message, at an offset. -/
def At (payload : List UInt8) (off : Nat) (bytes : List UInt8) : Prop :=
  ∃ front back, payload = front ++ (bytes ++ back) ∧ off = front.length

theorem at_zero (back : List UInt8) : At (bytes ++ back) 0 bytes := ⟨[], back, rfl, rfl⟩

theorem at_append : At payload off (left ++ right) ↔
    At payload off left ∧ At payload (off + left.length) right := by
  constructor
  · rintro ⟨front, back, rfl, rfl⟩
    exact ⟨⟨front, right ++ back, by simp, rfl⟩, ⟨front ++ left, back, by simp, by simp⟩⟩
  · rintro ⟨⟨front, back, rfl, rfl⟩, ⟨front', back', hpayload, hoff⟩⟩
    rw [← List.append_assoc] at hpayload
    obtain ⟨-, rfl⟩ := List.append_inj hpayload (by rw [List.length_append, hoff])
    exact ⟨front, back', by simp, rfl⟩

theorem At.length_le (hat : At payload off bytes) : off + bytes.length ≤ payload.length := by
  obtain ⟨_, _, rfl, rfl⟩ := hat
  simp only [List.length_append]
  omega

theorem At.take_drop (hat : At payload off bytes) : (payload.drop off).take bytes.length = bytes := by
  obtain ⟨_, _, rfl, rfl⟩ := hat
  rw [List.drop_left, List.take_left]

theorem At.field_eq (hat : At payload off (encode width n)) (hn : n < 256 ^ width) :
    field payload off width = n := by
  obtain ⟨_, _, rfl, rfl⟩ := hat
  exact field_encode rfl hn _

theorem Reads.of_at (hparse : ∀ {payload off}, At payload off bytes →
      parse payload off = some (a, off + bytes.length)) : Reads parse bytes a :=
  fun front back => hparse ⟨front, back, rfl, rfl⟩

theorem Reads.at (hparse : Reads parse bytes a) (hat : At payload off bytes) :
    parse payload off = some (a, off + bytes.length) := by
  obtain ⟨_, _, rfl, rfl⟩ := hat
  exact hparse _ _

/-- A value of fixed length, with the check that it lies inside the message. -/
theorem Reads.fixed {f : List UInt8 → Nat → A} (hsize : bytes.length = size)
    (hvalue : ∀ {payload off}, At payload off bytes → f payload off = a) :
    Reads (fun payload off =>
      if payload.length < off + size then none else some (f payload off, off + size)) bytes a := by
  refine .of_at fun hat => ?_
  rw [← hsize, if_neg (Nat.not_lt.mpr hat.length_le), hvalue hat]

end OffsetParser
