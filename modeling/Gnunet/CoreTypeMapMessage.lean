import Gnunet.CoreTypeMap
import Gnunet.MetaData
import Gnunet.SetElement

/-!
# Type map messages

`GSC_TYPEMAP_compute_type_map_message` and `GSC_TYPEMAP_get_from_message`.  The
words of a map cross the message in the byte order of the host.  A message is
received in a memory that goes on behind it, and what is read of this memory is
what `memcpy` and `uncompress` are given.
-/

namespace Gnunet.Core

open BigEndian Container SetService

def compressedTypeMapType : Nat := 86

def binaryTypeMapType : Nat := 87

def wordBytes : ByteOrder → BitVec 32 → List UInt8
  | .little, word => (encode 4 word.toNat).reverse
  | .big, word => encode 4 word.toNat

def wordOfBytes : ByteOrder → List UInt8 → BitVec 32
  | .little, bytes => .ofNat 32 (decode bytes.reverse)
  | .big, bytes => .ofNat 32 (decode bytes)

namespace TypeMap

def words : Nat := (2 ^ 16 - 1 + 1) / 32

def sizeofTypeMap : Nat := 4 * words

def bytes (host : ByteOrder) (tmap : TypeMap) : List UInt8 :=
  ((List.range words).map tmap.bits).flatMap (wordBytes host)

def ofBytes (host : ByteOrder) (bytes : List UInt8) : TypeMap :=
  ⟨fun i => wordOfBytes host ((bytes.drop (4 * i)).take 4)⟩

def message (type : Nat) (payload : List UInt8) : List UInt8 :=
  encode 2 (payload.length + sizeofMessageHeader) ++ (encode 2 type ++ payload)

/-- The map after `compress2`, if that makes it smaller. -/
def compressed (zlib : Zlib) (map : List UInt8) : Option (List UInt8) :=
  (zlib.compress2 map (zlib.bound sizeofTypeMap)).filter (·.length < sizeofTypeMap)

def computeTypeMapMessage (host : ByteOrder) (zlib : Zlib) (myTypeMap : TypeMap) :
    Option (List UInt8) :=
  let map := myTypeMap.bytes host
  if maxMallocChecked < zlib.bound sizeofTypeMap + sizeofMessageHeader then none
  else
    some (match compressed zlib map with
      | some cdata => message compressedTypeMapType cdata
      | none => message binaryTypeMapType map)

/-- The map, or `NULL`, and how many bytes were read from the start of the message on. -/
def getFromMessage (host : ByteOrder) (zlib : Zlib) (msg behind : List UInt8) :
    Option TypeMap × Nat :=
  let size := field msg 0 2
  let type := field msg 2 2
  let payload := (msg ++ behind).drop sizeofMessageHeader
  if type = binaryTypeMapType then
    if size ≠ sizeofTypeMap then (none, sizeofMessageHeader)
    else
      (some (ofBytes host (payload.take sizeofTypeMap)), sizeofMessageHeader + sizeofTypeMap)
  else if type = compressedTypeMapType then
    (((zlib.uncompress (payload.take size) sizeofTypeMap).filter
      (·.length = sizeofTypeMap)).map (ofBytes host), sizeofMessageHeader + size)
  else (none, sizeofMessageHeader)

end TypeMap

/-- A stream says itself where it ends: what follows it does not matter. -/
def Inverse (zlib : Zlib) : Prop :=
  ∀ data size cdata, zlib.compress2 data size = some cdata →
    ∀ behind, zlib.uncompress (cdata ++ behind) data.length = some data

@[simp] theorem length_wordBytes (host : ByteOrder) (word : BitVec 32) :
    (wordBytes host word).length = 4 := by
  cases host <;> simp [wordBytes]

theorem wordOfBytes_wordBytes (host : ByteOrder) (word : BitVec 32) :
    wordOfBytes host (wordBytes host word) = word := by
  have hword : decode (encode 4 word.toNat) = word.toNat := decode_encode_of_lt word.isLt
  cases host <;> simp [wordBytes, wordOfBytes, hword]

theorem take_drop_flatMap {A B : Type} {f : A → List B}
    (hwidth : ∀ x, (f x).length = width) (xs : List A) (i : Nat) :
    ((xs.flatMap f).drop (width * i)).take width = (xs[i]?.map f).getD [] := by
  induction xs generalizing i with
  | nil => simp
  | cons x xs ih =>
    cases i with
    | zero => simp [hwidth x]
    | succ i =>
      rw [List.flatMap_cons, Nat.mul_succ, Nat.add_comm, ← List.drop_drop,
        ← hwidth x, List.drop_left, hwidth x, ih, List.getElem?_cons_succ]

namespace TypeMap

variable (host : ByteOrder) (zlib : Zlib)

@[simp] theorem length_bytes (tmap : TypeMap) : (tmap.bytes host).length = sizeofTypeMap := by
  simp [bytes, List.length_flatMap, Function.comp_def, sizeofTypeMap, Nat.mul_comm]

theorem bit_ofBytes_bytes (tmap : TypeMap) : (ofBytes host (tmap.bytes host)).bit = tmap.bit := by
  funext type
  have hword : type.toNat / 32 < words := by
    have htype := type.toNat_lt
    unfold words
    omega
  have hbits : (ofBytes host (tmap.bytes host)).bits (type.toNat / 32) =
      tmap.bits (type.toNat / 32) := by
    simp [ofBytes, bytes, take_drop_flatMap (length_wordBytes host), hword, wordOfBytes_wordBytes]
  rw [bit, bit, hbits]

/-! ## The message read back -/

theorem field_message (payload : List UInt8)
    (hsize : payload.length + sizeofMessageHeader < 2 ^ 16) (htype : type < 2 ^ 16) :
    field (message type payload) 0 2 = payload.length + sizeofMessageHeader ∧
      field (message type payload) 2 2 = type :=
  ⟨field_encode (rfl : ([] : List UInt8).length = 0) hsize _,
    field_encode (length_encode 2 _) htype payload⟩

/-- The size of a message with the map as it is counts its header, and is
compared with that of the map. -/
theorem getFromMessage_binary (tmap : TypeMap) :
    (getFromMessage host zlib (message binaryTypeMapType (tmap.bytes host)) behind).1 = none := by
  obtain ⟨hsize, htype⟩ := field_message (tmap.bytes host)
    (by rw [length_bytes]; decide) (by decide : binaryTypeMapType < 2 ^ 16)
  rw [length_bytes] at hsize
  rw [getFromMessage, htype, hsize, if_pos rfl, if_pos (by decide)]

theorem getFromMessage_compressed {zlib : Zlib} (hinverse : Inverse zlib) {tmap : TypeMap}
    (hcdata : compressed zlib (tmap.bytes host) = some cdata) (behind : List UInt8) :
    (getFromMessage host zlib (message compressedTypeMapType cdata) behind).1 =
      some (ofBytes host (tmap.bytes host)) := by
  obtain ⟨hcompress, hlength⟩ := Option.filter_eq_some_iff.mp hcdata
  have hshort : cdata.length < 8192 := of_decide_eq_true hlength
  obtain ⟨hsize, htype⟩ := field_message cdata
    (by unfold sizeofMessageHeader; omega) (by decide : compressedTypeMapType < 2 ^ 16)
  have hdrop : (message compressedTypeMapType cdata ++ behind).drop sizeofMessageHeader =
      cdata ++ behind := by
    simp [message, sizeofMessageHeader, List.drop_append]
  have hread := hinverse _ _ _ hcompress (behind.take sizeofMessageHeader)
  rw [length_bytes] at hread
  rw [getFromMessage, htype, hsize, hdrop, if_neg (by decide), if_pos rfl,
    List.take_length_add_append, hread]
  simp

/-- A compressed map is read four bytes too far, and so is the one binary map
that is accepted. -/
theorem read_getFromMessage_le_iff {msg : List UInt8}
    (hheader : sizeofMessageHeader ≤ msg.length) (hsize : field msg 0 2 = msg.length)
    (behind : List UInt8) :
    (getFromMessage host zlib msg behind).2 ≤ msg.length ↔ field msg 2 2 ≠ compressedTypeMapType ∧
        (field msg 2 2 = binaryTypeMapType → msg.length ≠ sizeofTypeMap) := by
  unfold sizeofMessageHeader at hheader
  rw [getFromMessage, hsize]
  unfold sizeofMessageHeader
  by_cases hbinary : field msg 2 2 = binaryTypeMapType
  · by_cases hmap : msg.length = sizeofTypeMap
    · simp [hbinary, hmap]
    · simp [hbinary, hmap, hheader, binaryTypeMapType, compressedTypeMapType]
  · split_ifs with hcompressed
    · simp [hcompressed]
    · simp [hbinary, hcompressed, hheader]

/-- Which type maps are read as they were sent, and which messages are read beyond their end. -/
theorem map_message_iff (hinverse : Inverse zlib)
    (hbound : zlib.bound sizeofTypeMap + sizeofMessageHeader ≤ maxMallocChecked) :
    (∀ tmap behind,
      (∃ msg ∈ computeTypeMapMessage host zlib tmap,
        ∃ tmap' ∈ (getFromMessage host zlib msg behind).1, tmap'.bit = tmap.bit) ↔
      ∃ cdata ∈ zlib.compress2 (tmap.bytes host) (zlib.bound sizeofTypeMap),
        cdata.length < sizeofTypeMap) ∧
    ∀ msg behind, sizeofMessageHeader ≤ msg.length → field msg 0 2 = msg.length →
      ((getFromMessage host zlib msg behind).2 ≤ msg.length ↔
        field msg 2 2 ≠ compressedTypeMapType ∧
          (field msg 2 2 = binaryTypeMapType → msg.length ≠ sizeofTypeMap)) := by
  refine ⟨fun tmap behind => ?_, fun msg behind hheader hsize =>
    read_getFromMessage_le_iff host zlib hheader hsize behind⟩
  rw [computeTypeMapMessage, if_neg hbound.not_gt]
  cases hcompressed : compressed zlib (tmap.bytes host) with
  | none =>
    simpa [getFromMessage_binary, compressed, Option.filter_eq_none_iff] using hcompressed
  | some cdata =>
    obtain ⟨hcompress, hlength⟩ := Option.filter_eq_some_iff.mp hcompressed
    refine iff_of_true ⟨_, rfl, _, ?_, bit_ofBytes_bytes host tmap⟩
      ⟨cdata, hcompress, of_decide_eq_true hlength⟩
    exact getFromMessage_compressed host hinverse hcompressed behind

/-- Zeros become one byte, everything else one byte longer. -/
def zerosZlib : Zlib where
  bound n := n + 1
  compress2 data _ := if data.all (· = 0) then some [1] else some (0 :: data)
  uncompress
    | 0 :: data, size => some (data.take size)
    | _, size => some (List.replicate size 0)

theorem inverse_zerosZlib : Inverse zerosZlib := by
  intro data size cdata hcdata behind
  dsimp only [zerosZlib] at hcdata ⊢
  split_ifs at hcdata with hzeros <;> cases hcdata
  · exact congrArg some (List.eq_replicate_iff.mpr ⟨rfl, by simpa using hzeros⟩).symm
  · simp

theorem map_message_iff_empty :
    ∃ msg ∈ computeTypeMapMessage .little zerosZlib create,
      ∃ tmap' ∈ (getFromMessage .little zerosZlib msg []).1, tmap'.bit = create.bit := by
  have hzeros : (create.bytes .little).all (· = 0) = true := by decide +kernel
  refine ((map_message_iff .little zerosZlib inverse_zerosZlib (by decide)).1 _ _).mpr ⟨[1], ?_, ?_⟩
  · simp only [zerosZlib, hzeros, if_true, Option.mem_def]
  · decide

/-- Words without a pattern, which no compression makes smaller. -/
def scattered : TypeMap :=
  ⟨fun i => .ofNat 32 (7 ^ (i + 64) / 2 ^ 64)⟩

/-- A map that does not become smaller is rejected, and of a message that is
accepted four bytes too many are read. -/
theorem uncompressed_map_rejected :
    (computeTypeMapMessage .little zerosZlib scattered).map
        (fun msg => (getFromMessage .little zerosZlib msg []).1.isNone) = some true ∧
      let msg := encode 2 8192 ++ (encode 2 binaryTypeMapType ++ List.replicate 8188 0)
      field msg 0 2 = msg.length ∧ (getFromMessage .little zerosZlib msg []).2 = 8196 := by
  decide +kernel

end TypeMap

end Gnunet.Core
