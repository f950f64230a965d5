import Gnunet.FsTree
import Gnunet.MetaData
import Gnunet.PaddedLayout

/-!
# Directories of the file sharing library

`fs_directory.c`.  A directory is a file with its own meta data in front and then
entries, each a URI, the size of the entry's meta data and the meta data.  The
entries are packed so that few of them cross the end of a block; the gaps hold
zeros.  The texts of URIs behind the part that names their kind are parameters.

Where a function returns an option, `none` is a failing assertion, that of an
allocation that is too large, or an access outside of a buffer.
-/

namespace Gnunet.Fs

open BigEndian Container PaddedLayout

def ascii (text : String) : List UInt8 :=
  text.toUTF8.data.toList

/-- With the size of the file where there is one. -/
inductive UriKind where
  | chk (fileSize : Nat)
  | ksk
  | sks
  | loc (fileSize : Nat)
  deriving DecidableEq, Repr

/-- URIs, their texts, and the parsers for what stands behind `gnunet://fs/` and
the kind. -/
structure UriFormat (Uri : Type) where
  kind : Uri → UriKind
  toString : Uri → CString
  chkParse : List UInt8 → Option Uri
  kskParse : List UInt8 → Option Uri
  sksParse : List UInt8 → Option Uri
  locParse : List UInt8 → Option Uri

def parseBehind {Uri : Type} (front : List UInt8) (atLeast : Nat)
    (parse : List UInt8 → Option Uri) (text : List UInt8) : Option Uri :=
  if text.length < front.length + atLeast ∨ ¬ front <+: text then none
  else parse (text.drop front.length)

def sizeofHashAsciiEncoded : Nat := 104

section

variable {Uri : Type} (uris : UriFormat Uri)

def uriChkParse : List UInt8 → Option Uri :=
  parseBehind (ascii "gnunet://fs/chk/") (2 * sizeofHashAsciiEncoded + 1) uris.chkParse

def uriKskParse : List UInt8 → Option Uri :=
  parseBehind (ascii "gnunet://fs/ksk/") 1 uris.kskParse

def uriSksParse : List UInt8 → Option Uri :=
  parseBehind (ascii "gnunet://fs/sks/") 1 uris.sksParse

def uriLocParse : List UInt8 → Option Uri :=
  parseBehind (ascii "gnunet://fs/loc/") (2 * sizeofHashAsciiEncoded + 1) uris.locParse

def uriParse (text : List UInt8) : Option Uri :=
  (uriChkParse uris text).or ((uriKskParse uris text).or
    ((uriSksParse uris text).or (uriLocParse uris text)))

end

def directoryMime : List UInt8 :=
  ascii "application/gnunet-directory"

def gnunetPlugin : CString :=
  .read (ascii "<gnunet>")

def makeDirectory (md : MetaData) : Option MetaData :=
  match md.getByType metaTypeMimetype with
  | some _ => some md
  | none =>
      (md.insert ⟨some gnunetPlugin, some (.read (ascii "text/plain")), directoryMime ++ [0],
        metaTypeMimetype, .utf8⟩).map Prod.snd

def findFullData (md : MetaData) : List UInt8 :=
  match md.items.find? fun pos => pos.type == metaTypeFullData with
  | none => []
  | some pos => pos.data

structure DirectoryEntry (Uri : Type) where
  filename : Option (List UInt8)
  uri : Option Uri
  md : MetaData
  data : List UInt8

/-- `GNUNET_DIRECTORY_MAGIC`, which is `GNUNET_FS_DIRECTORY_MAGIC`. -/
def directoryMagic : List UInt8 :=
  [137, 71, 78, 68, 13, 10, 26, 10]

def skipAlign (pos : Nat) : Nat :=
  let align := (pos / dblockSize + 1) * dblockSize
  if align = pos then align + dblockSize else align

/-- How a round of the loop ends: the function returns, there is no URI and the
zero behind the text is next, or there is an entry. -/
inductive EntryRead (Uri : Type) where
  | stop (result : Result)
  | skip (pos : Nat)
  | entry (entry : DirectoryEntry Uri) (pos : Nat)

section

variable {Uri : Type} (uris : UriFormat Uri) (zlib : Zlib) (data : List UInt8)

def readEntryAt (pos : Nat) : Option (EntryRead Uri) :=
  let text := cString (data.drop pos)
  let epos := pos + text.length
  if data.length ≤ epos then some (.stop .no)
  else
    match uriParse uris text with
    | none => some (.skip epos)
    | some uri =>
        let mdSize := field data (epos + 1) 4
        let pos := epos + 5
        if uris.kind uri = .ksk then some (.stop .no)
        else if data.length < pos then none
        else if data.length < pos + mdSize then some (.stop .no)
        else
          (MetaData.deserialize zlib ((data.drop pos).take mdSize)).map fun
            | none => .stop .no
            | some md =>
                .entry ⟨md.getByType metaTypeOriginalFilename, some uri, md, findFullData md⟩
                  (pos + mdSize)

def listLoop : Nat → Nat → Option (Result × List (DirectoryEntry Uri))
  | 0, _ => none
  | rounds + 1, pos =>
      if data.length ≤ pos then some (.ok, [])
      else
        let pos := if data.getD pos 0 = 0 then skipAlign pos else pos
        if data.length ≤ pos then some (.ok, [])
        else
          (readEntryAt uris zlib data pos).bind fun
            | .stop result => some (result, [])
            | .skip pos => listLoop rounds pos
            | .entry entry pos =>
                (listLoop rounds pos).map fun (result, entries) => (result, entry :: entries)

def listContents (offset : Nat) : Option (Result × List (DirectoryEntry Uri)) :=
  if offset = 0 then
    if data.length < 12 ∨ data.take 8 ≠ directoryMagic then some (.syserr, [])
    else
      let mdSize := field data 8 4
      if data.length - 12 < mdSize then some (.syserr, [])
      else
        (MetaData.deserialize zlib ((data.drop 12).take mdSize)).bind fun
          | none => some (.syserr, [])
          | some md =>
              (listLoop uris zlib data (data.length + 1) (12 + mdSize)).map
                fun (result, entries) => (result, ⟨none, none, md, []⟩ :: entries)
  else listLoop uris zlib data (data.length + 1) offset

end

/-- Each entry as it will be written, the last one that was added first. -/
structure DirectoryBuilder where
  md : MetaData
  entries : List (List UInt8)

def builderCreate (mdir : Option MetaData) : Option DirectoryBuilder :=
  match mdir with
  | none => (makeDirectory .create).map (⟨·, []⟩)
  | some mdir => (mdir.duplicate.bind makeDirectory).map (⟨·, []⟩)

def maxInlineSize : Nat := 65536

def sizeofBuilderEntry : Nat := 16

structure Addition (Uri : Type) where
  uri : Uri
  md : MetaData
  data : Option (List UInt8)

/-- An `ssize_t` in a `size_t`. -/
def sizeT : Option Nat → Nat
  | none => 2 ^ 64 - 1
  | some size => size

def fullDataItem (data : List UInt8) : MetaItem :=
  ⟨some gnunetPlugin, none, data, metaTypeFullData, .binary⟩

def lastBlock (slen mds : Nat) : Nat :=
  (slen + 4 + mds - 1) % 2 ^ 64 / dblockSize

section

variable {Uri : Type} (uris : UriFormat Uri) (zlib : Zlib)

def inlineSize (add : Addition Uri) : Option Nat :=
  match add.data, uris.kind add.uri with
  | _, .ksk => none
  | none, _ => some 0
  | some _, .sks => none
  | some _, .chk size => some (if maxInlineSize < size then 0 else size)
  | some _, .loc size => some (if maxInlineSize < size then 0 else size)

def withFullData (md : MetaData) (contents : List UInt8) : Option MetaData :=
  md.duplicate.bind fun copy => (copy.insert (fullDataItem contents)).map Prod.snd

def metaUse (slen fsize : Nat) (md : MetaData) (data : List UInt8) : Option (MetaData × Nat) :=
  (md.getSerializedSize zlib).bind fun (mds, md) =>
    if fsize = 0 then some (md, sizeT mds)
    else if data.length < fsize then none
    else
      (withFullData md (data.take fsize)).bind fun copy =>
      (copy.getSerializedSize zlib).map fun (mdxs, copy) =>
        if lastBlock slen (sizeT mdxs) = lastBlock slen (sizeT mds) then (copy, sizeT mdxs)
        else (md, sizeT mds)

def Addition.metaUse (add : Addition Uri) : Option (MetaData × Nat) :=
  (inlineSize uris add).bind fun fsize =>
    Fs.metaUse zlib ((uris.toString add.uri).bytes.length + 1) fsize add.md (add.data.getD [])

def maxMetaSize : Nat := maxMallocChecked / 2

def entryBytes (uri : CString) (ser : List UInt8) : List UInt8 :=
  uri.terminated ++ (encode 4 ser.length ++ ser)

def builderAdd (bld : DirectoryBuilder) (add : Addition Uri) : Option DirectoryBuilder :=
  (add.metaUse uris zlib).bind fun (md, size) =>
    let mds := min size maxMetaSize
    let slen := (uris.toString add.uri).bytes.length + 1
    if maxMallocChecked < sizeofBuilderEntry + slen + mds + 4 then none
    else
      (md.serialize zlib true mds ⟨true, false⟩).map fun (ret, _) =>
        { bld with entries := entryBytes (uris.toString add.uri) (ret.getD []) :: bld.entries }

end

def doAlign (start stop : Nat) : Nat :=
  let align := stop / dblockSize * dblockSize
  if start < align ∧ align < stop then align + stop - start else stop

def blockBadness (cpos cend : Nat) : Int :=
  if cpos % dblockSize = 0 then -(cend % dblockSize : Nat)
  else if cpos / dblockSize = cend / dblockSize then
    (dblockSize - cend % dblockSize : Nat)
  else (dblockSize * (dblockSize - cpos % dblockSize) : Nat)

section

variable (sizes : List Nat)

/-- The inner loop of `block_align`: `best`, which is `none` for -1, and `badness`. -/
def bestBlock (perm : List Nat) (cpos i : Nat) : Option Nat × Int :=
  (List.range' i (perm.length - i)).foldl (fun (best, badness) j =>
    let cbad := blockBadness cpos (cpos + sizes.getD (perm.getD j 0) 0)
    if cbad < badness then (some j, cbad) else (best, badness)) (none, 0x7FFFFFFF)

def swapAt (perm : List Nat) (i j : Nat) : List Nat :=
  (perm.set i (perm.getD j 0)).set j (perm.getD i 0)

def blockAlignLoop : Nat → Nat → List Nat → Nat → Option (List Nat)
  | 0, _, perm, _ => some perm
  | rounds + 1, i, perm, cpos =>
      match (bestBlock sizes perm cpos i).1 with
      | none => none
      | some best =>
          let perm := swapAt perm i best
          blockAlignLoop rounds (i + 1) perm (doAlign cpos (cpos + sizes.getD (perm.getD i 0) 0))

def blockAlign (start : Nat) : Option (List Nat) :=
  blockAlignLoop sizes sizes.length 0 (List.range sizes.length) start

end

/-- How `builder_finish` ends if no other assertion fails: there is no memory for
the directory, `off == size` fails, or the directory is there. -/
inductive Finished where
  | noMemory
  | offMismatch
  | done (data : List UInt8)
  deriving DecidableEq, Repr

def entryPlace (off size : Nat) : Nat :=
  doAlign off (off + size) - size

def fillDirectory (zlib : Zlib) (md : MetaData) (size : Nat) (order : List (List UInt8)) :
    Option (List UInt8 × Nat) :=
  (writeAt (List.replicate size 0) 0 directoryMagic).bind fun data =>
  (md.serialize zlib true (size - 12) ⟨false, false⟩).bind fun (ret, _) =>
  ret.bind fun ser =>
  (writeAt data 12 ser).bind fun data =>
  (writeAt data 8 (encode 4 ser.length)).bind fun data =>
  writeAll entryPlace data (12 + ser.length) order

/-- `GNUNET_FS_directory_builder_finish`; `memory` says whether so many bytes can
be allocated. -/
def builderFinish (zlib : Zlib) (memory : Nat → Bool) (bld : DirectoryBuilder) : Option Finished :=
  (bld.md.getSerializedSize zlib).bind fun (ret, md) =>
  ret.bind fun mdSize =>
  if maxMallocChecked < 8 * bld.entries.length then none
  else
    (blockAlign (bld.entries.map List.length) (12 + mdSize)).bind fun perm =>
      let order := perm.map fun i => bld.entries.getD i []
      let size := order.foldl (fun size entry => doAlign size (size + entry.length)) (12 + mdSize)
      if memory size then
        (fillDirectory zlib md size order).map fun (data, off) =>
          if off = size then .done data else .offMismatch
      else some .noMemory

end Gnunet.Fs
