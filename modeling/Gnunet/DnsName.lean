import Gnunet.DnsParser

/-!
# Compressed names

`parse_name` follows a pointer without looking whether its second byte is in the
payload, and puts a dot behind what the pointer leads to.  This dot is taken off
again, and with a root label at the pointer's target it is the one behind the
labels before the pointer that stays.
-/

namespace Gnunet.Dns

variable (settings : Settings) (payload : List UInt8)

def lengthAt (off : Nat) : Nat := (inputAt settings payload off).toNat

def IsLabel (off : Nat) : Prop :=
  off < payload.length ∧ 0 < lengthAt settings payload off ∧ lengthAt settings payload off < 64 ∧
    off + 1 + lengthAt settings payload off ≤ payload.length

def IsPointer (off : Nat) : Prop :=
  off < payload.length ∧ 192 ≤ lengthAt settings payload off

def target (off : Nat) : Nat :=
  (lengthAt settings payload off - 192) * 256 + lengthAt settings payload (off + 1)

/-- The bytes that `parse_name` reads if it may follow so many pointers. -/
inductive Inspects : Nat → Nat → Nat → Prop
  | length {left off : Nat} : off < payload.length → Inspects left off off
  | label {left off k : Nat} : IsLabel settings payload off →
      k < lengthAt settings payload off → Inspects left off (off + 1 + k)
  | next {left off pos : Nat} : IsLabel settings payload off →
      Inspects left (off + 1 + lengthAt settings payload off) pos → Inspects left off pos
  | low {left off : Nat} : IsPointer settings payload off → Inspects (left + 1) off (off + 1)
  | target {left off pos : Nat} : IsPointer settings payload off →
      Inspects left (target settings payload off) pos → Inspects (left + 1) off pos

/-- The pointers that `parse_name` follows. -/
inductive Follows : Nat → Nat → Nat → Prop
  | here {left off : Nat} : IsPointer settings payload off → Follows (left + 1) off off
  | label {left off p : Nat} : IsLabel settings payload off →
      Follows left (off + 1 + lengthAt settings payload off) p → Follows left off p
  | pointer {left off p : Nat} : IsPointer settings payload off →
      Follows left (target settings payload off) p → Follows (left + 1) off p

/-- The labels of the name at an offset, and whether a pointer leads to the root
label behind them. -/
inductive Spells : Nat → List (List UInt8) → Bool → Prop
  | root {off : Nat} : off < payload.length → lengthAt settings payload off = 0 →
      Spells off [] false
  | label {off : Nat} {labels : List (List UInt8)} {bare : Bool} :
      IsLabel settings payload off →
      Spells (off + 1 + lengthAt settings payload off) labels bare →
      Spells off ((payload.drop (off + 1)).take (lengthAt settings payload off) :: labels) bare
  | pointer {off : Nat} {labels : List (List UInt8)} {bare : Bool} :
      IsPointer settings payload off → Spells (target settings payload off) labels bare →
      Spells off labels (bare || labels.isEmpty)

def dotted (labels : List (List UInt8)) : List UInt8 :=
  labels.flatMap fun label => cString label ++ [dot]

def joined (labels : List (List UInt8)) : List UInt8 :=
  (dotted labels).dropLast

variable {settings payload}

theorem Follows.inspects (h : Follows settings payload left off p) :
    Inspects settings payload left off (p + 1) := by
  induction h with
  | here hpointer => exact .low hpointer
  | label hlabel _ ih => exact .next hlabel ih
  | pointer hpointer _ ih => exact .target hpointer ih

theorem Inspects.lt (h : Inspects settings payload left off pos)
    (hinside : ∀ p, Follows settings payload left off p → p + 1 ≠ payload.length) :
    pos < payload.length := by
  induction h with
  | length hlt => exact hlt
  | label hlabel hk =>
    have hend := hlabel.2.2.2
    omega
  | next hlabel _ ih => exact ih fun p hp => hinside p (.label hlabel hp)
  | @low left off hpointer =>
    have hlast := hinside off (.here hpointer)
    have hlt := hpointer.1
    omega
  | target hpointer _ ih => exact ih fun p hp => hinside p (.pointer hpointer hp)

/-- Another input has the same bytes where `parse_name` looks, in the payload and behind it. -/
def Agrees (settings : Settings) (payload : List UInt8) (settings' : Settings)
    (payload' : List UInt8) (left off : Nat) : Prop :=
  ∀ pos, Inspects settings payload left off pos →
    inputAt settings' payload' pos = inputAt settings payload pos

section

variable {settings' : Settings} {payload' : List UInt8}

theorem Agrees.target_eq (hagrees : Agrees settings payload settings' payload' (left + 1) off)
    (hpointer : IsPointer settings payload off) :
    target settings' payload' off = target settings payload off := by
  unfold target lengthAt
  rw [hagrees off (.length hpointer.1), hagrees (off + 1) (.low hpointer)]

variable (hlength : payload'.length = payload.length)

include hlength

theorem Agrees.label_eq (hagrees : Agrees settings payload settings' payload' left off)
    (hlabel : IsLabel settings payload off) :
    (payload'.drop (off + 1)).take (lengthAt settings payload off) =
      (payload.drop (off + 1)).take (lengthAt settings payload off) := by
  apply List.ext_getElem?
  intro k
  rw [List.getElem?_take, List.getElem?_take]
  split
  next hk =>
    have hbyte := hagrees _ (.label hlabel hk)
    have hlt : off + 1 + k < payload.length := by
      have hend := hlabel.2.2.2
      omega
    have hlt' : off + 1 + k < payload'.length := hlength ▸ hlt
    simpa [inputAt, hlt, hlt'] using hbyte
  · rfl

variable (hunicode : settings'.toUnicode = settings.toUnicode)

include hunicode

/-- The labels up to a pointer are read from the same bytes. -/
theorem parseNameLoop_eq_of_agrees
    (hjump : ∀ off, IsPointer settings payload off →
      Agrees settings payload settings' payload' left off →
        jump' (target settings' payload' off) = jump (target settings payload off))
    (hagrees : Agrees settings payload settings' payload' left off) :
    parseNameLoop settings' payload' jump' fuel off ret =
      parseNameLoop settings payload jump fuel off ret := by
  induction fuel generalizing off ret with
  | zero => rfl
  | succ fuel ih =>
    rw [parseNameLoop, parseNameLoop, hlength, hunicode]
    by_cases hend : payload.length ≤ off
    · rw [if_pos hend, if_pos hend]
    have hlen := hagrees off (.length (Nat.not_le.mp hend))
    dsimp only
    rw [if_neg hend, if_neg hend, hlen]
    split_ifs with hzero hlabel hlong hpointer
    · rfl
    · rfl
    · have his : IsLabel settings payload off :=
        ⟨Nat.not_le.mp hend, Nat.pos_of_ne_zero hzero, hlabel, Nat.not_lt.mp hlong⟩
      have hread := hagrees.label_eq hlength his
      rw [lengthAt] at hread
      rw [hread]
      exact ih fun pos hpos => hagrees pos (.next his hpos)
    · have htarget := hjump off ⟨Nat.not_le.mp hend, hpointer⟩ hagrees
      rw [target, target, lengthAt, lengthAt, hlen] at htarget
      exact congrArg (Option.bind · _) htarget
    · rfl

/-- `parse_name` reads no other bytes than those it is said to inspect. -/
theorem parseNameAt_eq_of_agrees
    (hagrees : Agrees settings payload settings' payload' left off) :
    parseNameAt settings' payload' left off = parseNameAt settings payload left off := by
  induction left generalizing off with
  | zero =>
    rw [parseNameAt, parseNameAt, hlength]
    exact parseNameLoop_eq_of_agrees hlength hunicode (fun _ _ _ => rfl) hagrees
  | succ left ih =>
    rw [parseNameAt, parseNameAt, hlength]
    refine parseNameLoop_eq_of_agrees hlength hunicode (fun off hpointer hagrees => ?_) hagrees
    rw [hagrees.target_eq hpointer, ih fun pos hpos => hagrees pos (.target hpointer hpos)]

end

theorem Spells.unique (h : Spells settings payload off labels bare)
    (h' : Spells settings payload off labels' bare') : labels = labels' ∧ bare = bare' := by
  induction h generalizing labels' bare' with
  | root _ hzero =>
    cases h' with
    | root => exact ⟨rfl, rfl⟩
    | label hlabel => exact absurd hzero hlabel.2.1.ne'
    | pointer hpointer => exact absurd hpointer.2 (by omega)
  | label hlabel _ ih =>
    have hbound := hlabel.2
    cases h' with
    | root _ hzero => omega
    | label _ hrest =>
      obtain ⟨rfl, rfl⟩ := ih hrest
      exact ⟨rfl, rfl⟩
    | pointer hpointer => exact absurd hpointer.2 (by omega)
  | pointer hpointer _ ih =>
    have hbound := hpointer.2
    cases h' with
    | root _ hzero => omega
    | label hlabel => exact absurd hlabel.2 (by omega)
    | pointer _ hrest =>
      obtain ⟨rfl, rfl⟩ := ih hrest
      exact ⟨rfl, rfl⟩

def bareDot (bare : Bool) : List UInt8 := if bare then [dot] else []

theorem dropLast_dotted : (dotted labels ++ bareDot bare).dropLast ++ [dot] =
      dotted labels ++ bareDot (bare || labels.isEmpty) := by
  cases bare with
  | true => simp [bareDot]
  | false =>
    cases labels using List.reverseRecOn with
    | nil => rfl
    | append_singleton labels label => simp [dotted, bareDot, ← List.append_assoc]

section

variable (hidna : ∀ label, (settings.toUnicode label).getD label = label)

include hidna

theorem parseNameLoop_spells (hjump : ∀ x xstr, jump x = some xstr → ∃ labels bare,
      Spells settings payload x labels bare ∧ xstr = (dotted labels ++ bareDot bare).dropLast)
    (hparse : parseNameLoop settings payload jump fuel off ret = some (name, after)) :
    ∃ labels bare, Spells settings payload off labels bare ∧
      name = (ret ++ (dotted labels ++ bareDot bare)).dropLast := by
  induction fuel generalizing off ret with
  | zero => cases hparse
  | succ fuel ih =>
    rw [parseNameLoop] at hparse
    dsimp only at hparse
    split_ifs at hparse with hend hzero hlabel hlong hpointer
    · cases hparse
      exact ⟨[], false, .root (Nat.not_le.mp hend) hzero, by simp [dotted, bareDot]⟩
    · have his : IsLabel settings payload off :=
        ⟨Nat.not_le.mp hend, Nat.pos_of_ne_zero hzero, hlabel, Nat.not_lt.mp hlong⟩
      obtain ⟨labels, bare, hspells, rfl⟩ := ih hparse
      refine ⟨_, bare, .label his hspells, ?_⟩
      rw [hidna]
      simp [dotted, lengthAt]
    · obtain ⟨_, hxstr, hparse⟩ := Option.bind_eq_some_iff.mp hparse
      split_ifs at hparse
      cases hparse
      obtain ⟨labels, _, hspells, rfl⟩ := hjump _ _ hxstr
      refine ⟨labels, _, .pointer ⟨Nat.not_le.mp hend, hpointer⟩ hspells, ?_⟩
      rw [dropLast_dotted]

theorem parseNameAt_spells (hparse : parseNameAt settings payload left off = some (name, after)) :
    ∃ labels bare, Spells settings payload off labels bare ∧
      name = (dotted labels ++ bareDot bare).dropLast := by
  induction left generalizing off after name with
  | zero =>
    refine parseNameLoop_spells hidna ?_ hparse
    intro x xstr hjump
    cases hjump
  | succ left ih =>
    refine parseNameLoop_spells hidna ?_ hparse
    intro x xstr hjump
    obtain ⟨⟨_, _⟩, hname, rfl⟩ := Option.map_eq_some_iff.mp hjump
    exact ih hname

/-- The three parts of what is expected of `parse_name`, and when they hold. -/
theorem parseName_iff (payload : List UInt8) (off : Nat) :
    (∀ jump fuel ret, payload.length < off + fuel →
      parseNameLoop settings payload jump fuel off ret =
        parseNameLoop settings payload jump (payload.length + 1) off ret) ∧
    ((∀ pos, Inspects settings payload 33 off pos → pos < payload.length) ↔
      ∀ p, Follows settings payload 33 off p → p + 1 ≠ payload.length) ∧
    ∀ name after, parseName settings payload off = some (name, after) →
      ((∃ labels bare, Spells settings payload off labels bare ∧ name = joined labels) ↔
        ∀ labels, Spells settings payload off labels true → labels = []) := by
  refine ⟨fun jump fuel ret hfuel => parseNameLoop_fuel hfuel (by omega), ⟨?_, ?_⟩, ?_⟩
  · intro hinside p hp
    exact (hinside _ hp.inspects).ne
  · exact fun hinside pos hpos => hpos.lt hinside
  · intro name after hparse
    obtain ⟨labels, bare, hspells, rfl⟩ := parseNameAt_spells hidna hparse
    constructor
    · rintro ⟨_, _, hspells', hname⟩ _ hbare
      obtain ⟨rfl, rfl⟩ := hspells.unique hspells'
      obtain ⟨rfl, rfl⟩ := hspells.unique hbare
      have hlength := congrArg List.length hname
      cases labels with
      | nil => rfl
      | cons label labels =>
        simp [joined, dotted, bareDot] at hlength
    · intro hroot
      refine ⟨labels, bare, hspells, ?_⟩
      cases bare with
      | false => rw [bareDot, joined, if_neg Bool.false_ne_true, List.append_nil]
      | true =>
        rw [hroot labels hspells]
        rfl

end

theorem parseName_iff_pointer :
    parseName plainSettings [1, 97, 0, 1, 98, 192, 0] 3 = some ([98, 46, 97], 7) ∧
      ((∃ labels bare, Spells plainSettings [1, 97, 0, 1, 98, 192, 0] 3 labels bare ∧
        [98, 46, 97] = joined labels) ↔
        ∀ labels, Spells plainSettings [1, 97, 0, 1, 98, 192, 0] 3 labels true → labels = []) := by
  have hparse : parseName plainSettings [1, 97, 0, 1, 98, 192, 0] 3 = some ([98, 46, 97], 7) := by
    decide +kernel
  exact ⟨hparse, (parseName_iff (fun _ => rfl) _ 3).2.2 _ _ hparse⟩

/-- The name `a` with a pointer to the root becomes `a.`, and a pointer in the
last byte is followed. -/
theorem dot_left_and_pointer_in_last_byte :
    (∃ name after, parseName plainSettings [0, 1, 97, 192, 0] 1 = some (name, after) ∧
      Spells plainSettings [0, 1, 97, 192, 0] 1 [[97]] true ∧ name ≠ joined [[97]]) ∧
      Inspects plainSettings [192] 33 0 1 := by
  refine ⟨⟨[97, 46], 5, by decide +kernel, ?_, by decide⟩, .low ⟨by decide, by decide⟩⟩
  exact .label ⟨by decide, by decide, by decide, by decide⟩
    (.pointer ⟨by decide, by decide⟩ (.root (by decide) (by decide)))

end Gnunet.Dns
