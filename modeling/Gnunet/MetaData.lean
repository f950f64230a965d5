import Gnunet.BigEndian
import Gnunet.Common
import Gnunet.GuardedRun

/-!
# Meta data containers

`container_meta_data.c`.  `item_count` is the length of the list of items and
`data_size` that of the data; zlib is a parameter.  Where a function returns an
option, `none` is a failing assertion, that of an allocation that is too large,
or a write behind the end of a buffer.
-/

namespace Gnunet.Container

open BigEndian

inductive MetaFormat where
  | unknown
  | utf8
  | binary
  | cString
  deriving DecidableEq, Repr

def MetaFormat.code : MetaFormat → Nat
  | .unknown => 0
  | .utf8 => 1
  | .binary => 2
  | .cString => 3

def MetaFormat.isString : MetaFormat → Bool
  | .utf8 => true
  | .cString => true
  | .unknown => false
  | .binary => false

def metaTypeMimetype : UInt32 := 1
def metaTypeFilename : UInt32 := 2
def metaTypeFullData : UInt32 := 174
def metaTypeOriginalFilename : UInt32 := 180

structure MetaItem where
  pluginName : Option CString
  mimeType : Option CString
  data : List UInt8
  type : UInt32
  format : MetaFormat
  deriving DecidableEq, Repr

structure MetaData where
  items : List MetaItem
  sbuf : Option (List UInt8)
  deriving DecidableEq, Repr

def MetaData.create : MetaData :=
  ⟨[], none⟩

def stringBytes : Option CString → List UInt8
  | none => []
  | some string => string.terminated

/-- Directory separators in POSIX style, up to the first zero. -/
def posixSeparators : List UInt8 → List UInt8
  | [] => []
  | byte :: rest =>
      if byte = 0 then byte :: rest
      else (if byte = 92 then 47 else byte) :: posixSeparators rest

def MetaItem.stored (item : MetaItem) : MetaItem :=
  if item.type = metaTypeFilename ∨ item.type = metaTypeOriginalFilename then
    { item with data := posixSeparators item.data }
  else item

def newItem (item : MetaItem) : Option MetaItem :=
  if stringSize item.mimeType ≤ maxMallocChecked ∧
      stringSize item.pluginName ≤ maxMallocChecked ∧
      item.data.length ≤ maxMallocChecked then some item.stored
  else none

def MetaItem.amend (pos new : MetaItem) : Option MetaItem :=
  if pos.mimeType = none ∧ maxMallocChecked < stringSize new.mimeType then none
  else
    some { pos with
      mimeType := pos.mimeType.or new.mimeType
      format := if pos.format = .cString ∧ new.format = .utf8 then .utf8 else pos.format }

structure Inserted where
  result : Result
  changed : Bool
  items : List MetaItem
  deriving DecidableEq, Repr

/-- The new data is compared before its separators are changed. -/
def insertLoop (new : MetaItem) : List MetaItem → Option Inserted
  | [] => (newItem new).map fun item => ⟨.ok, true, [item]⟩
  | pos :: rest =>
      if pos.data.length < new.data.length then
        (newItem new).map fun item => ⟨.ok, true, item :: pos :: rest⟩
      else if pos.type = new.type ∧ pos.data = new.data then
        (pos.amend new).map fun item =>
          ⟨.syserr, (pos.mimeType.isNone && new.mimeType.isSome) ||
            (pos.format == .cString && new.format == .utf8), item :: rest⟩
      else
        (insertLoop new rest).map fun inserted =>
          { inserted with items := pos :: inserted.items }

namespace MetaData

def insert (md : MetaData) (new : MetaItem) : Option (Result × MetaData) :=
  (insertLoop new md.items).map fun inserted =>
    (inserted.result,
      { items := inserted.items
        sbuf := if inserted.changed then none else md.sbuf })

def deleteLoop (type : UInt32) (data : Option (List UInt8)) (dataSize : Nat) :
    List MetaItem → Option (List MetaItem)
  | [] => none
  | pos :: rest =>
      if pos.data.length < dataSize then none
      else if pos.type = type ∧
          (data = none ∨ data.map (List.take dataSize) = some pos.data) then some rest
      else (deleteLoop type data dataSize rest).map (pos :: ·)

def delete (md : MetaData) (type : UInt32) (data : Option (List UInt8)) (dataSize : Nat) :
    Result × MetaData :=
  match deleteLoop type data dataSize md.items with
  | none => (.syserr, md)
  | some items => (.ok, ⟨items, none⟩)

/-- `GNUNET_CONTAINER_meta_data_get_by_type`: the first string of the type. -/
def getByType (md : MetaData) (type : UInt32) : Option (List UInt8) :=
  (md.items.find? fun pos => pos.type == type && pos.format.isString).map
    fun pos => cString pos.data

def getFirstByTypes (md : MetaData) (types : List UInt32) : Option (List UInt8) :=
  types.findSome? md.getByType

/-- `GNUNET_CONTAINER_meta_data_duplicate`, which begins with the last item. -/
def duplicate (md : MetaData) : Option MetaData :=
  md.items.reverse.foldlM (fun ret pos => (ret.insert pos).map Prod.snd) .create

end MetaData

/-! ## Serialization -/

/-- `compressBound`, or what stands for it, `compress2` with the size of its
output buffer, and `uncompress` with the size of its. -/
structure Zlib where
  bound : Nat → Nat
  compress2 : List UInt8 → Nat → Option (List UInt8)
  uncompress : List UInt8 → Nat → Option (List UInt8)

def tryCompression (zlib : Zlib) (data : List UInt8) : Option (Option (List UInt8)) :=
  if maxMallocChecked < zlib.bound data.length then none
  else
    some ((zlib.compress2 data (zlib.bound data.length)).filter
      fun cdata => cdata.length < data.length)

/-- The output is as long as it was said to be, and was cleared before. -/
def decompress (zlib : Zlib) (input : List UInt8) (outputSize : Nat) : Option (List UInt8) :=
  (zlib.uncompress input outputSize).map fun output =>
    output ++ List.replicate (outputSize - output.length) 0

def headerCompressed : Nat := 2 ^ 31

def header (version entries size : Nat) : List UInt8 :=
  encode 4 version ++ (encode 4 entries ++ encode 4 size)

namespace MetaItem

def entry (pos : MetaItem) : List UInt8 :=
  encode 4 pos.type.toNat ++ (encode 4 pos.format.code ++ (encode 4 pos.data.length ++
    (encode 4 (stringSize pos.pluginName) ++ encode 4 (stringSize pos.mimeType))))

/-- What is written for an item behind the entries: first its data, then the
other two in front of it. -/
def payload (pos : MetaItem) : List UInt8 :=
  stringBytes pos.mimeType ++ (stringBytes pos.pluginName ++ pos.data)

def size (pos : MetaItem) : Nat :=
  20 + pos.data.length + stringSize pos.pluginName + stringSize pos.mimeType

end MetaItem

/-- The buffer `ent`: its second part is filled from the end. -/
def writeItems (items : List MetaItem) : List UInt8 :=
  items.flatMap MetaItem.entry ++ items.foldl (fun mdata pos => pos.payload ++ mdata) []

structure SerializeOptions where
  part : Bool
  noCompress : Bool
  deriving DecidableEq, Repr

/-- The compressed block, if it may be compressed and becomes smaller. -/
def compressBlock (zlib : Zlib) (opt : SerializeOptions) (block : List UInt8) :
    Option (Option (List UInt8)) :=
  if opt.noCompress then some none else tryCompression zlib block

/-- A header with the compressed block behind it if there is one, and else the
block itself. -/
def pack (comp : Option (List UInt8)) (entries left : Nat) (block : List UInt8) : List UInt8 :=
  match comp with
  | some cdata => header (2 + headerCompressed) entries left ++ cdata
  | none => header 2 entries left ++ block

def copyOut (given : Bool) (max : Nat) (dst : List UInt8) : Option (List UInt8) :=
  if maxMallocChecked < dst.length ∨ (given ∧ max < dst.length) then none else some dst

section

variable (zlib : Zlib) (given : Bool) (max : Nat) (opt : SerializeOptions)

/-- The loop that leaves out one item after the other; the pair is what is
returned, `none` for `GNUNET_SYSERR`, and `sbuf`. -/
def serializeLoop (ent : List UInt8) : Nat → Nat → Option (List UInt8) → List MetaItem →
      Option (Option (List UInt8) × Option (List UInt8))
  | _, _, sbuf, [] => some (some (header 2 0 0), sbuf)
  | i, left, sbuf, pos :: rest =>
      let block := (ent.drop (20 * i)).take left
      (compressBlock zlib opt block).bind fun comp =>
      let full := pack comp (rest.length + 1) left block
      if sbuf = none ∧ i = 0 ∧ maxMallocChecked < left + 12 then none
      else
        let sbuf := if sbuf = none ∧ i = 0 then some full else sbuf
        if left + 12 ≤ max ∨ comp.any (·.length ≤ max) then
          (copyOut given max full).map fun target => (some target, sbuf)
        else if opt.part then serializeLoop ent (i + 1) (left - pos.size) sbuf rest
        else some (none, sbuf)

def MetaData.serializeItems (md : MetaData) : Option (Option (List UInt8) × MetaData) :=
  let size := (md.items.map MetaItem.size).sum
  if maxMallocChecked ≤ size then some (none, md)
  else
    (serializeLoop zlib given max opt (writeItems md.items) 0 size md.sbuf md.items).map
      fun (target, sbuf) => (target, { md with sbuf })

def MetaData.serialize (md : MetaData) : Option (Option (List UInt8) × MetaData) :=
  if max < 12 then some (none, md)
  else
    match md.sbuf with
    | some sbuf =>
        if sbuf.length ≤ max then some (some sbuf, md)
        else if opt.part then md.serializeItems zlib given max opt
        else some (none, md)
    | none => md.serializeItems zlib given max opt

end

/-- `GNUNET_CONTAINER_meta_data_get_serialized_size`; the inner `none` is -1. -/
def MetaData.getSerializedSize (zlib : Zlib) (md : MetaData) : Option (Option Nat × MetaData) :=
  match md.sbuf with
  | some sbuf => some (some sbuf.length, md)
  | none =>
      (md.serialize zlib false maxMallocChecked ⟨false, false⟩).map fun (ret, md) =>
        (ret.map List.length, md)

def formatOf : Nat → Option MetaFormat
  | 1 => some .utf8
  | 2 => some .binary
  | 3 => some .cString
  | _ => none

def readString (mdata : List UInt8) (off len : Nat) : Option (Option CString) :=
  if len = 0 then some none
  else if mdata.getD (off + len - 1) 0 ≠ 0 then none
  else some (some (.read (mdata.drop off)))

def readEntry (cdata mdata : List UInt8) (i left : Nat) : Option (MetaItem × Nat) :=
  (formatOf (field cdata (20 * i + 4) 4)).bind fun format =>
  let dlen := field cdata (20 * i + 8) 4
  let plen := field cdata (20 * i + 12) 4
  let mlen := field cdata (20 * i + 16) 4
  if left < dlen then none
  else
    let left := left - dlen
    let data := (mdata.drop left).take dlen
    if format.isString ∧ data.getLast? ≠ some 0 then none
    else if left < plen then none
    else
      let left := left - plen
      (readString mdata left plen).bind fun pluginName =>
      if left < mlen then none
      else
        let left := left - mlen
        (readString mdata left mlen).map fun mimeType =>
          ({ pluginName, mimeType, data, type := .ofNat (field cdata (20 * i) 4), format },
            left)

def readLoop (cdata mdata : List UInt8) : Nat → Nat → Nat → MetaData → Option MetaData
  | 0, _, _, md => some md
  | count + 1, i, left, md =>
      match readEntry cdata mdata i left with
      | none => some md
      | some (item, left) =>
          (md.insert item).bind fun (_, md) => readLoop cdata mdata count (i + 1) left md

def readBlock (zlib : Zlib) (compressed : Bool) (input : List UInt8) (dataSize : Nat) :
    Option (List UInt8) :=
  if compressed then
    if maxMallocChecked ≤ dataSize then none
    else decompress zlib (input.drop 12) dataSize
  else if dataSize ≠ input.length - 12 then none
  else some (input.drop 12)

/-- `GNUNET_CONTAINER_meta_data_deserialize`; the inner `none` is `NULL`. -/
def MetaData.deserialize (zlib : Zlib) (input : List UInt8) : Option (Option MetaData) :=
  if input.length < 12 then some none
  else
    let version := field input 0 4
    let ic := field input 4 4
    let dataSize := field input 8 4
    if version % headerCompressed ≠ 2 then some none
    else if dataSize < 20 * ic ∨ (ic ≠ 0 ∧ dataSize / ic < 20) then some none
    else
      match readBlock zlib (headerCompressed ≤ version) input dataSize with
      | none => some none
      | some cdata =>
          (readLoop cdata (cdata.drop (20 * ic)) ic 0 (dataSize - 20 * ic) .create).map some

inductive Operation where
  | insert (item : MetaItem)
  | delete (type : UInt32) (data : Option (List UInt8)) (dataSize : Nat)
  | clear
  | serialize (given : Bool) (max : Nat) (opt : SerializeOptions)

def MetaData.step (zlib : Zlib) (md : MetaData) : Operation → Option MetaData
  | .insert item => (md.insert item).map Prod.snd
  | .delete type data dataSize => some (md.delete type data dataSize).2
  | .clear => some .create
  | .serialize given max opt => (md.serialize zlib given max opt).map Prod.snd

end Gnunet.Container
