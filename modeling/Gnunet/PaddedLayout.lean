import Mathlib.Tactic

/-!
# Records with gaps between them

Records are written one behind the other into memory that holds nothing but a
filling.  Where a record goes depends on the end of the one before it and on its
size; the gap in front of it keeps the filling.
-/

namespace PaddedLayout

open List

variable {A : Type}

def writeAt (memory : List A) (off : Nat) (record : List A) : Option (List A) :=
  if off + record.length ≤ memory.length then
    some (memory.take off ++ record ++ memory.drop (off + record.length))
  else none

section

variable (fill : A) (place : Nat → Nat → Nat)

def layout : Nat → List (List A) → List A
  | _, [] => []
  | start, record :: rest =>
      replicate (place start record.length - start) fill ++
        (record ++ layout (place start record.length + record.length) rest)

def layoutEnd (start : Nat) (records : List (List A)) : Nat :=
  records.foldl (fun off record => place off record.length + record.length) start

def writeAll (memory : List A) (off : Nat) (records : List (List A)) : Option (List A × Nat) :=
  records.foldlM (fun (memory, off) record =>
    (writeAt memory (place off record.length) record).map fun memory =>
      (memory, place off record.length + record.length)) (memory, off)

end

variable {fill : A} {place : Nat → Nat → Nat}

theorem writeAt_append (front behind : List A) {old record : List A}
    (hsize : old.length = record.length) : writeAt (front ++ (old ++ behind)) front.length record =
      some (front ++ (record ++ behind)) := by
  have hroom : front.length + record.length ≤ (front ++ (old ++ behind)).length := by
    simp only [length_append]
    omega
  rw [writeAt, if_pos hroom, take_left, drop_length_add_append, ← hsize, drop_left, append_assoc]

theorem writeAt_filled (fill : A) (done record : List A) (gap behind : Nat) :
    writeAt (done ++ replicate (gap + record.length + behind) fill) (done.length + gap) record =
      some (done ++ replicate gap fill ++ record ++ replicate behind fill) := by
  have hwrite := writeAt_append (done ++ replicate gap fill) (replicate behind fill)
    (show (replicate record.length fill).length = record.length by simp)
  rw [length_append, length_replicate] at hwrite
  rw [replicate_add, replicate_add]
  simpa only [append_assoc] using hwrite

theorem layoutEnd_cons : layoutEnd place start (record :: rest) =
      layoutEnd place (place start record.length + record.length) rest :=
  rfl

section

variable (hplace : ∀ start size, start ≤ place start size)
include hplace

theorem length_layout (start : Nat) (records : List (List A)) :
    start + (layout fill place start records).length = layoutEnd place start records := by
  induction records generalizing start with
  | nil => rfl
  | cons record rest ih =>
    have hle := hplace start record.length
    rw [layoutEnd_cons, ← ih, layout]
    simp only [length_append, length_replicate]
    omega

/-- Memory that is just large enough holds the layout behind what was there. -/
theorem writeAll_eq (fill : A) (done : List A) (records : List (List A)) (behind : Nat) :
    writeAll place (done ++ replicate
        ((layout fill place done.length records).length + behind) fill) done.length records =
      some (done ++ layout fill place done.length records ++ replicate behind fill,
        layoutEnd place done.length records) := by
  induction records generalizing done with
  | nil => simp [writeAll, layout, layoutEnd]
  | cons record rest ih =>
    have hle := hplace done.length record.length
    obtain ⟨gap, hgap⟩ := Nat.exists_eq_add_of_le hle
    have hsub : place done.length record.length - done.length = gap := by omega
    have hnext : (done ++ replicate gap fill ++ record).length =
        place done.length record.length + record.length := by
      simp only [length_append, length_replicate]
      omega
    have hrest := ih (done ++ replicate gap fill ++ record)
    rw [hnext] at hrest
    have hlength : (layout fill place done.length (record :: rest)).length + behind =
        gap + record.length + ((layout fill place
          (place done.length record.length + record.length) rest).length + behind) := by
      simp only [layout, length_append, length_replicate, hsub]
      omega
    have hwrite := writeAt_filled fill done record gap
      ((layout fill place (place done.length record.length + record.length) rest).length + behind)
    rw [← hgap, ← hlength] at hwrite
    rw [writeAll, foldlM_cons]
    simp only [hwrite, Option.map_some, Option.bind_eq_bind, Option.bind_some]
    rw [writeAll] at hrest
    rw [hrest, layout, hsub, layoutEnd_cons]
    simp only [append_assoc]

end

end PaddedLayout
