import Gnunet.Common
import Gnunet.OffsetParser
import Gnunet.Util

/-!
# DNS packets

`dnsparser.c`.  A name is a C string, without the byte that ends it; a pointer
that may be `NULL` is an option.  The payload of a record is a union: its model
is the member that was written last, and reading another member is `none`.  The
conversion of names from and to IDNA is a parameter.
-/

namespace Gnunet.Dns

open BigEndian OffsetParser

/-- The two conversions of the IDNA library, the byte that is found behind the
end of a payload, and what the compiler puts behind the fixed part of a CERT
record. -/
structure Settings where
  toAscii : List UInt8 → Option (List UInt8)
  toUnicode : List UInt8 → Option (List UInt8)
  beyond : UInt8
  certPadding : List UInt8

def typeNs : UInt16 := 2
def typeCname : UInt16 := 5
def typeSoa : UInt16 := 6
def typePtr : UInt16 := 12
def typeMx : UInt16 := 15
def typeSrv : UInt16 := 33
def typeCert : UInt16 := 37

structure Query where
  name : Option (List UInt8)
  type : UInt16
  dnsTrafficClass : UInt16
  deriving DecidableEq, Repr

structure MxRecord where
  preference : UInt16
  mxhost : Option (List UInt8)
  deriving DecidableEq, Repr

structure SrvRecord where
  target : Option (List UInt8)
  priority : UInt16
  weight : UInt16
  port : UInt16
  deriving DecidableEq, Repr

/-- The two enumerations are as wide as an `int`. -/
structure CertRecord where
  certType : UInt32
  certTag : UInt16
  algorithm : UInt32
  certificateData : List UInt8
  deriving DecidableEq, Repr

structure SoaRecord where
  mname : Option (List UInt8)
  rname : Option (List UInt8)
  serial : UInt32
  refresh : UInt32
  retry : UInt32
  expire : UInt32
  minimumTtl : UInt32
  deriving DecidableEq, Repr

inductive Member where
  | hostname
  | soa
  | cert
  | mx
  | srv
  | raw
  deriving DecidableEq, Repr

/-- The union `data`; `zero` is fresh memory, where every member is `NULL`. -/
inductive RecordData where
  | zero
  | hostname (name : Option (List UInt8))
  | soa (record : Option SoaRecord)
  | cert (record : Option CertRecord)
  | mx (record : Option MxRecord)
  | srv (record : Option SrvRecord)
  | raw (data : List UInt8)
  deriving DecidableEq, Repr

def RecordData.member : RecordData → Option Member
  | .zero => none
  | .hostname _ => some .hostname
  | .soa _ => some .soa
  | .cert _ => some .cert
  | .mx _ => some .mx
  | .srv _ => some .srv
  | .raw _ => some .raw

structure Record where
  name : Option (List UInt8)
  data : RecordData
  expirationTime : Nat
  type : UInt16
  dnsTrafficClass : UInt16
  deriving DecidableEq, Repr

/-- `id` and `flags` are kept as they stand in the packet. -/
structure Packet where
  queries : List Query
  answers : List Record
  authorityRecords : List Record
  additionalRecords : List Record
  flags : UInt8 × UInt8
  id : UInt8 × UInt8
  deriving DecidableEq, Repr

def freeRecordMember (type : UInt16) : Member :=
  if type = typeMx then .mx
  else if type = typeSoa then .soa
  else if type = typeSrv then .srv
  else if type = typeCert then .cert
  else if type = typeNs ∨ type = typeCname ∨ type = typePtr then .hostname
  else .raw

/-- `GNUNET_DNSPARSER_free_record`; `none` where it takes another member of the
union for a pointer. -/
def freeRecord (record : Record) : Option Unit :=
  match record.data.member with
  | none => some ()
  | some written => if written = freeRecordMember record.type then some () else none

/-! ## Parsing -/

section

variable (settings : Settings)

def dot : UInt8 := 46

def inputAt (payload : List UInt8) (off : Nat) : UInt8 :=
  payload.getD off settings.beyond

def parseNameLoop (payload : List UInt8) (jump : Nat → Option (List UInt8)) :
    Nat → Nat → List UInt8 → Option (List UInt8 × Nat)
  | 0, _, _ => none
  | fuel + 1, off, ret =>
      if payload.length ≤ off then none
      else
        let len := (inputAt settings payload off).toNat
        if len = 0 then some (ret.dropLast, off + 1)
        else if len < 64 then
          if payload.length < off + 1 + len then none
          else
            let label := cString ((payload.drop (off + 1)).take len)
            parseNameLoop payload jump fuel (off + 1 + len)
              (ret ++ ((settings.toUnicode label).getD label ++ [dot]))
        -- the source only checks that the first byte of a pointer is in the payload
        else if 192 ≤ len then
          (jump ((len - 192) * 256 + (inputAt settings payload (off + 1)).toNat)).bind fun xstr =>
              let ret := ret ++ (xstr ++ [dot])
              if payload.length < ret.length then none else some (ret.dropLast, off + 2)
        else none

/-- `parse_name`, with the number of pointers that may still be followed. -/
def parseNameAt (payload : List UInt8) : Nat → Nat → Option (List UInt8 × Nat)
  | 0, off =>
      parseNameLoop settings payload (fun _ => none) (payload.length + 1) off []
  | left + 1, off =>
      parseNameLoop settings payload
        (fun xoff => (parseNameAt payload left xoff).map Prod.fst) (payload.length + 1)
        off []

def parseName : Parser (List UInt8) := fun payload off =>
  parseNameAt settings payload 33 off

def parseQueryLine (name : List UInt8) : Parser Query := fun payload off =>
  if payload.length < off + 4 then none
  else
    some (⟨some name, .ofNat (field payload off 2), .ofNat (field payload (off + 2) 2)⟩, off + 4)

def parseQuery : Parser Query := fun payload off =>
  (parseName settings payload off).bind fun (name, off) => parseQueryLine name payload off

def parseSoaFixed (mname rname : List UInt8) : Parser SoaRecord := fun payload off =>
  if payload.length < off + 20 then none
  else
    some (
      { mname := some mname
        rname := some rname
        serial := .ofNat (field payload off 4)
        refresh := .ofNat (field payload (off + 4) 4)
        retry := .ofNat (field payload (off + 8) 4)
        expire := .ofNat (field payload (off + 12) 4)
        minimumTtl := .ofNat (field payload (off + 16) 4) }, off + 20)

def parseSoa : Parser SoaRecord := fun payload off =>
  (parseName settings payload off).bind fun (mname, off) =>
    (parseName settings payload off).bind fun (rname, off) =>
      parseSoaFixed mname rname payload off

def parseMx : Parser MxRecord := fun payload off =>
  if payload.length < off + 2 then none
  else
    (parseName settings payload (off + 2)).map fun (mxhost, after) =>
      (⟨.ofNat (field payload off 2), some mxhost⟩, after)

def parseSrv : Parser SrvRecord := fun payload off =>
  if payload.length < off + 6 then none
  else
    (parseName settings payload (off + 6)).map fun (target, after) =>
      (⟨some target, .ofNat (field payload off 2), .ofNat (field payload (off + 2) 2),
        .ofNat (field payload (off + 4) 2)⟩, after)

def writeMember {A : Type} (member : Option A → RecordData) (parsed : Option (A × Nat))
    (expected : Nat) : RecordData × Option Nat :=
  (member (parsed.map Prod.fst),
    parsed.bind fun (_, off) => if off = expected then some off else none)

def parseRecordData (payload : List UInt8) (type : UInt16) (off dataLen : Nat) :
    RecordData × Option Nat :=
  if type = typeNs ∨ type = typeCname ∨ type = typePtr then
    writeMember .hostname (parseName settings payload off) (off + dataLen)
  else if type = typeSoa then
    writeMember .soa (parseSoa settings payload off) (off + dataLen)
  else if type = typeMx then
    writeMember .mx (parseMx settings payload off) (off + dataLen)
  else if type = typeSrv then
    writeMember .srv (parseSrv settings payload off) (off + dataLen)
  else (.raw ((payload.drop off).take dataLen), some (off + dataLen))

def zeroRecord : Record :=
  ⟨none, .zero, 0, 0, 0⟩

/-- `GNUNET_DNSPARSER_parse_record`: the record as it is left behind, and the
offset behind it if there was no error. -/
def parseRecord (now : Nat) (payload : List UInt8) (off : Nat) : Record × Option Nat :=
  match parseName settings payload off with
  | none => (zeroRecord, none)
  | some (name, off) =>
      if payload.length < off + 10 then ({ zeroRecord with name := some name }, none)
      else
        let type := UInt16.ofNat (field payload off 2)
        let record : Record :=
          { name := some name
            data := .zero
            expirationTime := timeRelativeToAbsolute now
              (timeRelativeMultiply 1000000 (field payload (off + 4) 4))
            type
            dnsTrafficClass := .ofNat (field payload (off + 2) 2) }
        let dataLen := field payload (off + 8) 2
        if payload.length < off + 10 + dataLen then (record, none)
        else
          let (data, after) := parseRecordData settings payload type (off + 10) dataLen
          ({ record with data }, after)

def recordParser (now : Nat) : Parser Record := fun payload off =>
  let (record, after) := parseRecord settings now payload off
  after.map fun off => (record, off)

def parse (now : Nat) (payload : List UInt8) : Option Packet :=
  if payload.length < 12 then none
  else
    (many (parseQuery settings) (field payload 4 2) payload 12).bind fun (queries, off) =>
    (many (recordParser settings now) (field payload 6 2) payload off).bind fun (answers, off) =>
    (many (recordParser settings now) (field payload 8 2) payload off).bind
      fun (authorityRecords, off) =>
    (many (recordParser settings now) (field payload 10 2) payload off).map
      fun (additionalRecords, _) =>
        { queries, answers, authorityRecords, additionalRecords
          flags := (payload.getD 2 0, payload.getD 3 0)
          id := (payload.getD 0 0, payload.getD 1 0) }

/-! ## Packing -/

def wireLabel (label : List UInt8) : Option (List UInt8) :=
  if 64 ≤ label.length ∨ label.length = 0 then none
  else some (.ofNat label.length :: label)

def wireName (name : List UInt8) : Option (List UInt8) :=
  ((name.splitOn dot).mapM wireLabel).map fun labels => labels.flatten ++ [0]

/-- `dst` is what has been written so far. -/
def builderAddName (dstLen : Nat) (dst : List UInt8) : Option (List UInt8) → Result × List UInt8
  | none => (.syserr, dst)
  | some name =>
      match settings.toAscii name with
      | none => (.no, dst)
      | some idnaName =>
          if dstLen < dst.length + idnaName.length + 2 then (.no, dst)
          else
            match wireName idnaName with
            | none => (.no, dst)
            | some wire => (.ok, dst ++ wire)

def builderAddQuery (dstLen : Nat) (dst : List UInt8) (query : Query) : Result × List UInt8 :=
  let (ret, named) := builderAddName settings (dstLen - 4) dst query.name
  if ret ≠ .ok then (ret, dst)
  else (.ok, named ++ (encode 2 query.type.toNat ++ encode 2 query.dnsTrafficClass.toNat))

def builderAddMx (dstLen : Nat) (dst : List UInt8) (mx : MxRecord) : Result × List UInt8 :=
  if dstLen < dst.length + 2 then (.no, dst)
  else builderAddName settings dstLen (dst ++ encode 2 mx.preference.toNat) mx.mxhost

def builderAddCert (dstLen : Nat) (dst : List UInt8) (cert : CertRecord) : Result × List UInt8 :=
  if 65535 < cert.certType.toNat ∨ 255 < cert.algorithm.toNat then (.syserr, dst)
  else if dstLen < dst.length + (5 + settings.certPadding.length) +
      cert.certificateData.length then (.no, dst)
  else
    (.ok, dst ++ (encode 2 cert.certType.toNat ++ (encode 2 cert.certTag.toNat ++
      (encode 1 cert.algorithm.toNat ++ (settings.certPadding ++ cert.certificateData)))))

def builderAddSoa (dstLen : Nat) (dst : List UInt8) (soa : SoaRecord) : Result × List UInt8 :=
  let (ret, dst) := builderAddName settings dstLen dst soa.mname
  if ret ≠ .ok then (ret, dst)
  else
    let (ret, dst) := builderAddName settings dstLen dst soa.rname
    if ret ≠ .ok then (ret, dst)
    else if dstLen < dst.length + 20 then (.no, dst)
    else
      (.ok, dst ++ (encode 4 soa.serial.toNat ++ (encode 4 soa.refresh.toNat ++
        (encode 4 soa.retry.toNat ++ (encode 4 soa.expire.toNat ++
          encode 4 soa.minimumTtl.toNat)))))

def builderAddSrv (dstLen : Nat) (dst : List UInt8) (srv : SrvRecord) : Result × List UInt8 :=
  if dstLen < dst.length + 6 then (.no, dst)
  else
    builderAddName settings dstLen
      (dst ++ (encode 2 srv.priority.toNat ++ (encode 2 srv.weight.toNat ++
        encode 2 srv.port.toNat))) srv.target

def addRecordMember (type : UInt16) : Member :=
  if type = typeMx then .mx
  else if type = typeCert then .cert
  else if type = typeSoa then .soa
  else if type = typeNs ∨ type = typeCname ∨ type = typePtr then .hostname
  else if type = typeSrv then .srv
  else .raw

/-- The switch of `add_record`; `none` is a `NULL` pointer that is followed, or
a member that is not the one that was written. -/
def addRecordData (dstLen : Nat) (dst : List UInt8) :
    Member → RecordData → Option (Result × List UInt8)
  | .mx, .mx (some mx) => some (builderAddMx settings dstLen dst mx)
  | .cert, .cert (some cert) => some (builderAddCert settings dstLen dst cert)
  | .soa, .soa (some soa) => some (builderAddSoa settings dstLen dst soa)
  | .hostname, .hostname name => some (builderAddName settings dstLen dst name)
  | .srv, .srv (some srv) => some (builderAddSrv settings dstLen dst srv)
  | .raw, .raw data =>
      if dstLen < dst.length + data.length then some (.no, dst)
      else some (.ok, dst ++ data)
  | .hostname, .zero => some (.syserr, dst)
  | .raw, .zero => if dstLen < dst.length then some (.no, dst) else some (.ok, dst)
  | _, _ => none

/-- Seconds until the record expires, in 32 bits. -/
def ttl (now : Nat) (record : Record) : Nat :=
  timeAbsoluteGetRemaining now record.expirationTime / 1000 / 1000 % 2 ^ 32

def recordLine (now : Nat) (record : Record) (dataLen : Nat) : List UInt8 :=
  encode 2 record.type.toNat ++ (encode 2 record.dnsTrafficClass.toNat ++
    (encode 4 (ttl now record) ++ encode 2 dataLen))

def addRecord (now dstLen : Nat) (dst : List UInt8) (record : Record) :
    Option (Result × List UInt8) :=
  let (ret, named) := builderAddName settings (dstLen - 10) dst record.name
  if ret ≠ .ok then some (ret, dst)
  else
    (addRecordData settings dstLen (named ++ List.replicate 10 0)
      (addRecordMember record.type) record.data).map fun (ret, full) =>
        let data := full.drop (named.length + 10)
        if ret ≠ .ok then (.no, dst)
        else if 65535 < data.length then (.no, dst)
        else (.ok, named ++ (recordLine now record data.length ++ data))

/-- How the loop over one section ends; `cut` is the index of the first entry
that was not added. -/
inductive Section where
  | syserr
  | upTo (cut : Option Nat) (dst : List UInt8)

def packSection {A : Type} (add : List UInt8 → A → Option (Result × List UInt8)) :
    Nat → List UInt8 → List A → Option Section
  | _, dst, [] => some (.upTo none dst)
  | i, dst, entry :: entries =>
      (add dst entry).bind fun (ret, after) =>
        match ret with
        | .syserr => some .syserr
        | .no => some (.upTo (some i) dst)
        | .ok => packSection add (i + 1) after entries

/-- The count in the header: `(uint16_t) (i - 1)` where the section was cut. -/
def sectionCount (number : Nat) : Option Nat → Nat
  | none => number
  | some i => (i + 65535) % 65536

def sectionEncoded (number : Nat) : Option Nat → Nat
  | none => number
  | some i => i

structure Counts where
  queries : Nat
  answers : Nat
  authority : Nat
  additional : Nat
  deriving DecidableEq, Repr

/-- `encoded` are the numbers of entries that were added. -/
structure Packed where
  result : Result
  buf : List UInt8
  encoded : Counts
  deriving DecidableEq, Repr

def dnsHeader (packet : Packet) (truncated : Bool) (counts : Counts) : List UInt8 :=
  [packet.id.1, packet.id.2] ++
    ([if truncated then packet.flags.1 ||| 2 else packet.flags.1, packet.flags.2] ++
      (encode 2 counts.queries ++ (encode 2 counts.answers ++
        (encode 2 counts.authority ++ encode 2 counts.additional))))

/-- `GNUNET_DNSPARSER_pack`; the outer `none` is undefined behaviour, the inner
one `GNUNET_SYSERR`. -/
def pack (now : Nat) (packet : Packet) (max : Nat) : Option (Option Packed) :=
  if 65535 < packet.queries.length ∨ 65535 < packet.answers.length ∨
      65535 < packet.authorityRecords.length ∨ 65535 < packet.additionalRecords.length then
    some none
  else
    let addQuery := fun dst query => some (builderAddQuery settings max dst query)
    (packSection addQuery 0 (List.replicate 12 0) packet.queries).bind fun
    | .syserr => some none
    | .upTo cut1 dst =>
    (packSection (addRecord settings now max) 0 dst packet.answers).bind fun
    | .syserr => some none
    | .upTo cut2 dst =>
    (packSection (addRecord settings now max) 0 dst packet.authorityRecords).bind fun
    | .syserr => some none
    | .upTo cut3 dst =>
    (packSection (addRecord settings now max) 0 dst packet.additionalRecords).bind fun
    | .syserr => some none
    | .upTo cut4 dst =>
        let truncated := cut1.isSome || cut2.isSome || cut3.isSome || cut4.isSome
        let header := dnsHeader packet truncated
          { queries := sectionCount packet.queries.length cut1
            answers := sectionCount packet.answers.length cut2
            authority := sectionCount packet.authorityRecords.length cut3
            additional := sectionCount packet.additionalRecords.length cut4 }
        some (some
          { result := if truncated then .no else .ok
            buf := header ++ dst.drop 12
            encoded :=
              { queries := sectionEncoded packet.queries.length cut1
                answers := sectionEncoded packet.answers.length cut2
                authority := sectionEncoded packet.authorityRecords.length cut3
                additional := sectionEncoded packet.additionalRecords.length cut4 } })

end

/-! ## The members of the union -/

section

variable {settings : Settings} {payload : List UInt8}

/-- An offset lies before the end in every round, so that the fuel of
`parseNameAt` is enough. -/
theorem parseNameLoop_fuel (hfuel : payload.length < off + fuel)
    (hfuel' : payload.length < off + fuel') : parseNameLoop settings payload jump fuel off ret =
      parseNameLoop settings payload jump fuel' off ret := by
  induction fuel generalizing fuel' off ret with
  | zero =>
    cases fuel' with
    | zero => rfl
    | succ fuel' =>
      have hend : payload.length ≤ off := by omega
      simp only [parseNameLoop, if_pos hend]
  | succ fuel ih =>
    cases fuel' with
    | zero =>
      have hend : payload.length ≤ off := by omega
      simp only [parseNameLoop, if_pos hend]
    | succ fuel' =>
      have hrest : ∀ len ret, parseNameLoop settings payload jump fuel (off + 1 + len) ret =
            parseNameLoop settings payload jump fuel' (off + 1 + len) ret :=
        fun len ret => ih (by omega) (by omega)
      simp only [parseNameLoop, hrest]

theorem parseRecordData_member (settings : Settings) (payload : List UInt8) (type : UInt16)
    (off dataLen : Nat) (htype : type ≠ typeCert) :
    (parseRecordData settings payload type off dataLen).1.member = some (freeRecordMember type) ∧
      (parseRecordData settings payload type off dataLen).1.member =
        some (addRecordMember type) := by
  unfold parseRecordData
  split
  next hhost =>
    rcases hhost with rfl | rfl | rfl <;> exact ⟨rfl, rfl⟩
  next hhost =>
    split
    next hsoa =>
      subst hsoa
      exact ⟨rfl, rfl⟩
    next hsoa =>
      split
      next hmx =>
        subst hmx
        exact ⟨rfl, rfl⟩
      next hmx =>
        split
        next hsrv =>
          subst hsrv
          exact ⟨rfl, rfl⟩
        next hsrv =>
          simp only [RecordData.member, freeRecordMember, addRecordMember, if_neg hhost,
            if_neg hsoa, if_neg hmx, if_neg hsrv, if_neg htype, and_self]

theorem parseRecord_cases (settings : Settings) (now : Nat) (payload : List UInt8) (off : Nat) :
    ((parseRecord settings now payload off).1.data = .zero ∧
      ∀ name after, parseName settings payload off = some (name, after) →
        payload.length < after + 10 + field payload (after + 8) 2) ∨
      ∃ name after type dataLen, parseName settings payload off = some (name, after) ∧
        after + 10 + field payload (after + 8) 2 ≤ payload.length ∧
        type = UInt16.ofNat (field payload after 2) ∧
        (parseRecord settings now payload off).1.type = type ∧
        (parseRecord settings now payload off).1.data =
          (parseRecordData settings payload type (after + 10) dataLen).1 := by
  unfold parseRecord
  split
  next hname =>
    exact .inl ⟨rfl, fun _ _ hsome => nomatch hname.symm.trans hsome⟩
  next name after hname =>
    split
    next hheader =>
      refine .inl ⟨rfl, fun _ _ hsome => ?_⟩
      cases hname.symm.trans hsome
      omega
    · dsimp only
      split
      next hdata =>
        refine .inl ⟨rfl, fun _ _ hsome => ?_⟩
        cases hname.symm.trans hsome
        exact hdata
      next hdata =>
        exact .inr ⟨name, after, _, _, hname, Nat.le_of_not_lt hdata, rfl, rfl, rfl⟩

end

/-- The parser writes the member of the union that is freed and packed, exactly if the record is
not of the type CERT or is refused before its data is read. -/
theorem parseRecord_writes_member_read_iff (settings : Settings) (now : Nat)
    (payload : List UInt8) (off : Nat) :
    ((∀ written, (parseRecord settings now payload off).1.data.member = some written →
        freeRecordMember (parseRecord settings now payload off).1.type = written ∧
          addRecordMember (parseRecord settings now payload off).1.type = written) ∧
      freeRecord (parseRecord settings now payload off).1 = some ()) ↔
    ∀ name after, parseName settings payload off = some (name, after) →
      UInt16.ofNat (field payload after 2) = typeCert →
        payload.length < after + 10 + field payload (after + 8) 2 := by
  rcases parseRecord_cases settings now payload off with ⟨hzero, hrefused⟩ |
    ⟨name, after, type, dataLen, hname, hread, htype, hrecord, hdata⟩
  · rw [freeRecord, hzero]
    exact iff_of_true ⟨nofun, rfl⟩ fun name after hname _ => hrefused name after hname
  · rw [freeRecord, hdata, hrecord]
    by_cases hcert : type = typeCert
    · refine iff_of_false ?_ fun hcond => ?_
      · rintro ⟨hmember, -⟩
        rw [hcert] at hmember
        exact absurd (hmember .raw rfl).1 (by decide)
      · exact absurd (hcond name after hname (htype ▸ hcert)) (Nat.not_lt.mpr hread)
    · obtain ⟨hfree, hadd⟩ := parseRecordData_member settings payload type (after + 10) dataLen hcert
      refine iff_of_true ⟨fun written hwritten => ?_, ?_⟩ fun name' after' hname' htype' => ?_
      · exact ⟨Option.some.inj (hfree.symm.trans hwritten),
          Option.some.inj (hadd.symm.trans hwritten)⟩
      · rw [hfree]
        exact if_pos rfl
      · cases hname.symm.trans hname'
        exact absurd (htype.trans htype') hcert

def plainSettings : Settings :=
  ⟨some, some, 0, []⟩

def addressRecord : List UInt8 :=
  [0, 0, 1, 0, 1, 0, 0, 0, 60, 0, 4, 127, 0, 0, 1]

theorem parseRecord_writes_member_read_address :
    (parseRecord plainSettings 0 addressRecord 0).1.data = .raw [127, 0, 0, 1] ∧
      freeRecord (parseRecord plainSettings 0 addressRecord 0).1 = some () := by
  refine ⟨by decide +kernel,
    ((parseRecord_writes_member_read_iff plainSettings 0 addressRecord 0).mpr ?_).2⟩
  intro name after hname htype
  cases hname
  exact absurd htype (by decide)

/-- The data of a CERT record is stored as raw data and taken for a certificate
when it is freed or packed. -/
theorem cert_record_written_as_raw :
    (parseRecord plainSettings 0 [0, 0, 37, 0, 1, 0, 0, 0, 60, 0, 1, 7] 0).2 = some 12 ∧
      (parseRecord plainSettings 0 [0, 0, 37, 0, 1, 0, 0, 0, 60, 0, 1, 7] 0).1.data.member =
        some .raw ∧
      freeRecordMember
        (parseRecord plainSettings 0 [0, 0, 37, 0, 1, 0, 0, 0, 60, 0, 1, 7] 0).1.type =
          .cert ∧
      addRecordMember
        (parseRecord plainSettings 0 [0, 0, 37, 0, 1, 0, 0, 0, 60, 0, 1, 7] 0).1.type =
          .cert := by
  decide +kernel

end Gnunet.Dns
