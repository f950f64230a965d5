import Gnunet.DnsParser

/-!
# Packing a DNS packet and parsing it again

What the packer writes for the parts of a packet is a function of the parts,
where their names can be written at all.  The parser reads each part wherever
it stands, so that it finds the whole packet in the buffer.  When an entry does
not fit, its section is cut and the count in the header is one too small.
-/

namespace Gnunet.Dns

open BigEndian OffsetParser List Option

variable {settings : Settings}

/-! ## Names -/

/-- A name that the IDNA library leaves as it is. -/
structure Keeps (settings : Settings) (name : List UInt8) : Prop where
  ascii : settings.toAscii name = some name
  unicode : ∀ label ∈ name.splitOn dot, settings.toUnicode label = some label
  noNul : ∀ label ∈ name.splitOn dot, (0 : UInt8) ∉ label

/-- Whose labels moreover have between 1 and 63 bytes. -/
structure GoodName (settings : Settings) (name : List UInt8) : Prop extends
    Keeps settings name where
  labels : ∀ label ∈ name.splitOn dot, 0 < label.length ∧ label.length < 64

def labelWire (label : List UInt8) : List UInt8 :=
  .ofNat label.length :: label

def nameWire (name : List UInt8) : List UInt8 :=
  (name.splitOn dot).flatMap labelWire ++ [0]

variable {labels : List (List UInt8)}

theorem mapM_wireLabel (hlabels : ∀ label ∈ labels, 0 < label.length ∧ label.length < 64) :
    labels.mapM wireLabel = some (labels.map labelWire) := by
  induction labels with
  | nil => rfl
  | cons label labels ih =>
    have hlabel := hlabels label mem_cons_self
    have hwire : wireLabel label = some (labelWire label) := if_neg (by omega)
    rw [mapM_cons, hwire, ih fun l hl => hlabels l (mem_cons_of_mem _ hl)]
    rfl

variable {name : List UInt8}

theorem GoodName.wireName_eq (hname : GoodName settings name) :
    wireName name = some (nameWire name) := by
  rw [wireName, mapM_wireLabel hname.labels, map_some, nameWire, flatMap_def]

theorem dropLast_flatMap_dot (labels : List (List UInt8)) :
    (labels.flatMap (· ++ [dot])).dropLast = [dot].intercalate labels := by
  induction labels with
  | nil => rfl
  | cons label labels ih =>
    cases labels with
    | nil => simp
    | cons next rest =>
      rw [flatMap_cons, dropLast_append_of_ne_nil (by simp), ih, intercalate_cons_cons]

theorem length_nameWire (name : List UInt8) : (nameWire name).length = name.length + 2 := by
  have hname : ((name.splitOn dot).flatMap (· ++ [dot])).length = name.length + 1 := by
    have hdrop := congrArg List.length (dropLast_flatMap_dot (name.splitOn dot))
    rw [intercalate_splitOn, length_dropLast] at hdrop
    have hpos : 0 < ((name.splitOn dot).flatMap (· ++ [dot])).length := by
      refine length_pos_iff.mpr fun hnil => ?_
      obtain ⟨label, _, hsplit⟩ := exists_cons_of_ne_nil
        (show name.splitOn dot ≠ [] from splitOnP_ne_nil _ _)
      rw [hsplit] at hnil
      simp at hnil
    omega
  have hsame : ((name.splitOn dot).flatMap labelWire).length =
      ((name.splitOn dot).flatMap (· ++ [dot])).length := by
    rw [length_flatMap, length_flatMap]
    congr 1
    refine map_congr_left fun label _ => ?_
    simp [labelWire]
  rw [nameWire, length_append, hsame, hname, length_singleton]

theorem inputAt_append : inputAt settings (front ++ byte :: rest) front.length = byte := by
  simp [inputAt]

theorem parseNameLoop_labels (jump : Nat → Option (List UInt8))
    (hunicode : ∀ label ∈ labels, settings.toUnicode label = some label)
    (hnul : ∀ label ∈ labels, (0 : UInt8) ∉ label)
    (hlength : ∀ label ∈ labels, 0 < label.length ∧ label.length < 64)
    (front back ret : List UInt8) (hfuel : labels.length < fuel) :
    parseNameLoop settings (front ++ (labels.flatMap labelWire ++ 0 :: back)) jump fuel
        front.length ret = some ((ret ++ labels.flatMap (· ++ [dot])).dropLast,
        front.length + (labels.flatMap labelWire).length + 1) := by
  induction labels generalizing front ret fuel with
  | nil =>
    obtain ⟨fuel, rfl⟩ : ∃ n, fuel = n + 1 := ⟨fuel - 1, by omega⟩
    rw [flatMap_nil, nil_append]
    simp only [parseNameLoop]
    rw [if_neg (by simp), inputAt_append]
    simp
  | cons label labels ih =>
    obtain ⟨fuel, rfl⟩ : ∃ n, fuel = n + 1 := ⟨fuel - 1, by omega⟩
    obtain ⟨_, hlt⟩ := hlength label mem_cons_self
    have hrest := ih (fun l hl => hunicode l (mem_cons_of_mem _ hl))
      (fun l hl => hnul l (mem_cons_of_mem _ hl))
      (fun l hl => hlength l (mem_cons_of_mem _ hl)) (front ++ labelWire label)
      (ret ++ (label ++ [dot]))
      (show labels.length < fuel by rw [length_cons] at hfuel; omega)
    have hpayload : front ++ ((label :: labels).flatMap labelWire ++ 0 :: back) =
        front ++ UInt8.ofNat label.length ::
          (label ++ (labels.flatMap labelWire ++ 0 :: back)) := by
      simp [labelWire]
    have hlen : (UInt8.ofNat label.length).toNat = label.length := by
      exact Nat.mod_eq_of_lt (by omega)
    have hlabel : ((front ++ UInt8.ofNat label.length ::
        (label ++ (labels.flatMap labelWire ++ 0 :: back))).drop (front.length + 1)).take
          label.length = label := by
      rw [← drop_drop, drop_left, drop_one, tail_cons, take_left]
    have hnext : front.length + 1 + label.length = (front ++ labelWire label).length := by
      simp [labelWire]
      omega
    have hsame : front ++ UInt8.ofNat label.length ::
        (label ++ (labels.flatMap labelWire ++ 0 :: back)) =
          (front ++ labelWire label) ++ (labels.flatMap labelWire ++ 0 :: back) := by
      simp [labelWire]
    rw [hpayload]
    simp only [parseNameLoop]
    rw [inputAt_append, hlen, if_neg (by simp), if_neg (by omega), if_pos hlt,
      if_neg (by simp; omega), hlabel, cString_eq (hnul label mem_cons_self),
      hunicode label mem_cons_self, getD_some, hnext, hsame, hrest]
    simp [labelWire]
    omega

theorem length_le_flatMap {A : Type} {entries : List A} {wire : A → List UInt8}
    (hpos : ∀ entry ∈ entries, 1 ≤ (wire entry).length) :
    entries.length ≤ (entries.flatMap wire).length := by
  induction entries with
  | nil => exact le_rfl
  | cons entry entries ih =>
    have hfirst := hpos entry mem_cons_self
    have hrest := ih fun e he => hpos e (mem_cons_of_mem _ he)
    rw [flatMap_cons, length_append, length_cons]
    omega

theorem GoodName.reads (hname : GoodName settings name) :
    Reads (parseName settings) (nameWire name) name := by
  intro front back
  have hcount : (name.splitOn dot).length < (front ++ (nameWire name ++ back)).length + 1 := by
    have hle : (name.splitOn dot).length ≤ ((name.splitOn dot).flatMap labelWire).length :=
      length_le_flatMap fun label _ => Nat.le_add_left 1 label.length
    rw [length_append, length_append, nameWire, length_append]
    omega
  have hloop := parseNameLoop_labels
    (fun xoff => (parseNameAt settings (front ++ (nameWire name ++ back)) 32
      xoff).map Prod.fst) hname.unicode hname.noNul hname.labels front back [] hcount
  have hpayload : front ++ ((name.splitOn dot).flatMap labelWire ++ 0 :: back) =
      front ++ (nameWire name ++ back) := by
    simp [nameWire]
  rw [hpayload, nil_append, dropLast_flatMap_dot, intercalate_splitOn] at hloop
  rw [parseName, parseNameAt, hloop, nameWire, length_append, length_singleton, Nat.add_assoc]

def GoodHost (settings : Settings) (host : Option (List UInt8)) : Prop :=
  ∃ name, host = some name ∧ GoodName settings name

def hostWire (host : Option (List UInt8)) : List UInt8 :=
  nameWire (host.getD [])

theorem GoodHost.add (hhost : GoodHost settings host)
    {dst : List UInt8} (hfits : dst.length + (hostWire host).length ≤ dstLen) :
    builderAddName settings dstLen dst host = (.ok, dst ++ hostWire host) := by
  obtain ⟨name, rfl, hname⟩ := hhost
  have hspace : ¬ dstLen < dst.length + name.length + 2 := by
    rw [hostWire, getD_some, length_nameWire] at hfits
    omega
  simp only [builderAddName, hname.ascii, if_neg hspace, hname.wireName_eq, hostWire, getD_some]

theorem toNat_lt_16 (n : UInt16) : n.toNat < 256 ^ 2 := n.toNat_lt

theorem toNat_lt_32 (n : UInt32) : n.toNat < 256 ^ 4 := n.toNat_lt

def queryLine (query : Query) : List UInt8 :=
  encode 2 query.type.toNat ++ encode 2 query.dnsTrafficClass.toNat

def queryWire (query : Query) : List UInt8 :=
  hostWire query.name ++ queryLine query

variable {query : Query}

theorem builderAddQuery_eq (hname : GoodHost settings query.name) {dst : List UInt8}
    (hfits : dst.length + (queryWire query).length ≤ dstLen) :
    builderAddQuery settings dstLen dst query = (.ok, dst ++ queryWire query) := by
  have hline : (queryLine query).length = 4 := by
    simp [queryLine]
  rw [queryWire, length_append, hline] at hfits
  have hadd := hname.add (show dst.length + (hostWire query.name).length ≤ dstLen - 4 by omega)
  rw [builderAddQuery, hadd, queryWire, queryLine, ← append_assoc]
  rfl

theorem reads_query (hname : GoodHost settings query.name) :
    Reads (parseQuery settings) (queryWire query) query := by
  obtain ⟨_, hsome, hgood⟩ := hname
  rw [queryWire, hsome, hostWire, getD_some]
  refine hgood.reads.bind parseQueryLine (Reads.fixed (by simp [queryLine]) fun hat => ?_)
  obtain ⟨htype, hclass⟩ := at_append.mp hat
  rw [length_encode] at hclass
  rw [htype.field_eq (toNat_lt_16 _), hclass.field_eq (toNat_lt_16 _), UInt16.ofNat_toNat,
    UInt16.ofNat_toNat, ← hsome]

/-! ## Records -/

def soaFixed (soa : SoaRecord) : List UInt8 :=
  encode 4 soa.serial.toNat ++ (encode 4 soa.refresh.toNat ++ (encode 4 soa.retry.toNat ++
    (encode 4 soa.expire.toNat ++ encode 4 soa.minimumTtl.toNat)))

def srvFixed (srv : SrvRecord) : List UInt8 :=
  encode 2 srv.priority.toNat ++ (encode 2 srv.weight.toNat ++ encode 2 srv.port.toNat)

def dataWire : RecordData → List UInt8
  | .hostname name => hostWire name
  | .soa (some soa) => hostWire soa.mname ++ (hostWire soa.rname ++ soaFixed soa)
  | .mx (some mx) => encode 2 mx.preference.toNat ++ hostWire mx.mxhost
  | .srv (some srv) => srvFixed srv ++ hostWire srv.target
  | .raw data => data
  | _ => []

/-- The member that is packed was written, and its names can be packed.  A
certificate can be packed, but not parsed. -/
def GoodData (settings : Settings) : Member → RecordData → Prop
  | .hostname, .hostname name => GoodHost settings name
  | .soa, .soa (some soa) => GoodHost settings soa.mname ∧ GoodHost settings soa.rname
  | .mx, .mx (some mx) => GoodHost settings mx.mxhost
  | .srv, .srv (some srv) => GoodHost settings srv.target
  | .raw, .raw _ => True
  | _, _ => False

variable {soa : SoaRecord} {mx : MxRecord} {srv : SrvRecord} {data : RecordData}

section

variable {dst : List UInt8} {dstLen : Nat}

theorem builderAddSoa_eq (hmname : GoodHost settings soa.mname)
    (hrname : GoodHost settings soa.rname)
    (hfits : dst.length + (dataWire (.soa (some soa))).length ≤ dstLen) :
    builderAddSoa settings dstLen dst soa = (.ok, dst ++ dataWire (.soa (some soa))) := by
  have hfixed : (soaFixed soa).length = 20 := by
    simp [soaFixed]
  rw [dataWire, length_append, length_append, hfixed] at hfits
  have hfirst := hmname.add (show dst.length + (hostWire soa.mname).length ≤ dstLen by omega)
  have hlength : (dst ++ hostWire soa.mname).length + (hostWire soa.rname).length ≤ dstLen := by
    rw [length_append]
    omega
  have hspace : ¬ dstLen < (dst ++ hostWire soa.mname ++ hostWire soa.rname).length + 20 := by
    rw [length_append, length_append]
    omega
  simp only [builderAddSoa, hfirst, hrname.add hlength, ne_eq, not_true, if_false, if_neg hspace]
  simp only [dataWire, soaFixed, append_assoc]

theorem builderAddMx_eq (hhost : GoodHost settings mx.mxhost)
    (hfits : dst.length + (dataWire (.mx (some mx))).length ≤ dstLen) :
    builderAddMx settings dstLen dst mx = (.ok, dst ++ dataWire (.mx (some mx))) := by
  rw [dataWire, length_append, length_encode] at hfits
  have hlength : (dst ++ encode 2 mx.preference.toNat).length +
      (hostWire mx.mxhost).length ≤ dstLen := by
    rw [length_append, length_encode]
    omega
  rw [builderAddMx, if_neg (by omega), hhost.add hlength, dataWire, append_assoc]

theorem builderAddSrv_eq (hhost : GoodHost settings srv.target)
    (hfits : dst.length + (dataWire (.srv (some srv))).length ≤ dstLen) :
    builderAddSrv settings dstLen dst srv = (.ok, dst ++ dataWire (.srv (some srv))) := by
  have hfixed : (srvFixed srv).length = 6 := by
    simp [srvFixed]
  rw [dataWire, length_append, hfixed] at hfits
  have hlength : (dst ++ srvFixed srv).length + (hostWire srv.target).length ≤ dstLen := by
    rw [length_append, hfixed]
    omega
  rw [builderAddSrv, if_neg (by omega), dataWire]
  exact (hhost.add hlength).trans (by rw [append_assoc])

theorem addRecordData_eq (hgood : GoodData settings member data)
    (hfits : dst.length + (dataWire data).length ≤ dstLen) :
    addRecordData settings dstLen dst member data = some (.ok, dst ++ dataWire data) := by
  match member, data, hgood with
  | .hostname, .hostname name, hname => exact congrArg some (hname.add hfits)
  | .soa, .soa (some soa), ⟨hmname, hrname⟩ =>
    exact congrArg some (builderAddSoa_eq hmname hrname hfits)
  | .mx, .mx (some mx), hhost => exact congrArg some (builderAddMx_eq hhost hfits)
  | .srv, .srv (some srv), hhost => exact congrArg some (builderAddSrv_eq hhost hfits)
  | .raw, .raw bytes, _ => exact if_neg (Nat.not_lt.mpr hfits)

end

theorem reads_soa (hmname : GoodHost settings soa.mname) (hrname : GoodHost settings soa.rname) :
    Reads (parseSoa settings) (dataWire (.soa (some soa))) soa := by
  obtain ⟨mname, hmsome, hmgood⟩ := hmname
  obtain ⟨rname, hrsome, hrgood⟩ := hrname
  have hfixed : Reads (parseSoaFixed mname rname) (soaFixed soa) soa := by
    refine Reads.fixed (by simp [soaFixed]) fun hat => ?_
    simp only [soaFixed, at_append, length_encode, Nat.add_assoc, Nat.reduceAdd] at hat
    obtain ⟨hserial, hrefresh, hretry, hexpire, hminimum⟩ := hat
    simp only [hserial.field_eq (toNat_lt_32 _), hrefresh.field_eq (toNat_lt_32 _),
      hretry.field_eq (toNat_lt_32 _), hexpire.field_eq (toNat_lt_32 _),
      hminimum.field_eq (toNat_lt_32 _), UInt32.ofNat_toNat, ← hmsome, ← hrsome]
  rw [dataWire, hmsome, hrsome]
  exact hmgood.reads.bind (fun mname payload off =>
    (parseName settings payload off).bind fun result =>
      parseSoaFixed mname result.1 payload result.2)
    (hrgood.reads.bind (parseSoaFixed mname) hfixed)

theorem reads_mx (hhost : GoodHost settings mx.mxhost) :
    Reads (parseMx settings) (dataWire (.mx (some mx))) mx := by
  obtain ⟨host, hsome, hgood⟩ := hhost
  rw [dataWire, hsome, hostWire, getD_some]
  refine .of_at fun hat => ?_
  simp only [at_append, length_encode] at hat
  obtain ⟨hpreference, hname⟩ := hat
  have hinside := hname.length_le
  rw [parseMx, if_neg (by omega), hgood.reads.at hname, hpreference.field_eq (toNat_lt_16 _)]
  simp [← hsome, Nat.add_assoc]

theorem reads_srv (hhost : GoodHost settings srv.target) :
    Reads (parseSrv settings) (dataWire (.srv (some srv))) srv := by
  obtain ⟨host, hsome, hgood⟩ := hhost
  rw [dataWire, hsome, hostWire, getD_some]
  refine .of_at fun hat => ?_
  simp only [srvFixed, at_append, length_append, length_encode, Nat.add_assoc, Nat.reduceAdd] at hat
  obtain ⟨⟨hpriority, hweight, hport⟩, hname⟩ := hat
  have hinside := hname.length_le
  rw [parseSrv, if_neg (by omega), hgood.reads.at hname, hpriority.field_eq (toNat_lt_16 _),
    hweight.field_eq (toNat_lt_16 _), hport.field_eq (toNat_lt_16 _)]
  simp [srvFixed, ← hsome, ← Nat.add_assoc]

theorem writeMember_reads {A : Type} {parse : Parser A} {member : Option A → RecordData}
    {a : A} (hreads : Reads parse bytes a) (hat : At payload off bytes) :
    writeMember member (parse payload off) (off + bytes.length) =
      (member (some a), some (off + bytes.length)) := by
  rw [writeMember, hreads.at hat, map_some, bind_some]
  exact congrArg _ (if_pos rfl)

theorem parseRecordData_eq (hgood : GoodData settings (addRecordMember type) data)
    (hat : At payload off (dataWire data)) :
    parseRecordData settings payload type off (dataWire data).length =
      (data, some (off + (dataWire data).length)) := by
  unfold addRecordMember at hgood
  unfold parseRecordData
  split_ifs at hgood with hmx hcert hsoa hhost hsrv
  · match data, hgood with
    | .mx (some mx), hgood =>
      subst hmx
      exact writeMember_reads (reads_mx hgood) hat
  · cases data <;> cases hgood
  · match data, hgood with
    | .soa (some soa), hgood =>
      subst hsoa
      exact writeMember_reads (reads_soa hgood.1 hgood.2) hat
  · match data, hgood with
    | .hostname name, hgood =>
      obtain ⟨_, rfl, hname⟩ := hgood
      rw [if_pos hhost]
      exact writeMember_reads hname.reads hat
  · match data, hgood with
    | .srv (some srv), hgood =>
      subst hsrv
      exact writeMember_reads (reads_srv hgood) hat
  · match data, hgood with
    | .raw bytes, _ =>
      rw [if_neg hhost, if_neg hsoa, if_neg hmx, if_neg hsrv]
      exact congrArg (fun data => (RecordData.raw data, _)) hat.take_drop

/-- A record that can be packed, and that expires within 2^32 seconds. -/
structure GoodRecord (settings : Settings) (now : Nat) (record : Record) : Prop where
  name : GoodHost settings record.name
  data : GoodData settings (addRecordMember record.type) record.data
  lifetime : timeAbsoluteGetRemaining now record.expirationTime / 1000000 < 2 ^ 32

def recordWire (now : Nat) (record : Record) : List UInt8 :=
  hostWire record.name ++ (recordLine now record (dataWire record.data).length ++
    dataWire record.data)

/-- The record that is parsed at a later time: it then lasts as many seconds as
were left when it was packed. -/
def Record.seen (now later : Nat) (record : Record) : Record :=
  { record with
    expirationTime := timeRelativeToAbsolute later (timeRelativeMultiply 1000000
      (timeAbsoluteGetRemaining now record.expirationTime / 1000000)) }

theorem length_recordLine (now : Nat) (record : Record) (dataLen : Nat) :
    (recordLine now record dataLen).length = 10 := by
  simp [recordLine]

variable {record : Record}

theorem addRecord_eq (hgood : GoodRecord settings now record) {dst : List UInt8}
    (hmax : dstLen ≤ 65535) (hfits : dst.length + (recordWire now record).length ≤ dstLen) :
    addRecord settings now dstLen dst record = some (.ok, dst ++ recordWire now record) := by
  rw [recordWire, length_append, length_append, length_recordLine] at hfits
  have hname := hgood.name.add
    (show dst.length + (hostWire record.name).length ≤ dstLen - 10 by omega)
  have hspace : (dst ++ hostWire record.name ++ replicate 10 0).length +
      (dataWire record.data).length ≤ dstLen := by
    simp only [length_append, length_replicate]
    omega
  have hdata : (dst ++ hostWire record.name ++ replicate 10 0 ++
      dataWire record.data).drop ((dst ++ hostWire record.name).length + 10) =
        dataWire record.data :=
    drop_left' (by rw [length_append, length_replicate])
  have hshort : ¬ 65535 < (dataWire record.data).length := by omega
  simp only [addRecord, hname, addRecordData_eq hgood.data hspace, map_some, hdata,
    ne_eq, not_true, if_false, if_neg hshort, recordWire]
  rw [append_assoc]

theorem GoodRecord.ttl_eq (hgood : GoodRecord settings now record) :
    ttl now record = timeAbsoluteGetRemaining now record.expirationTime / 1000000 := by
  rw [ttl, Nat.div_div_eq_div_mul]
  exact Nat.mod_eq_of_lt hgood.lifetime

theorem reads_record (hgood : GoodRecord settings now record)
    (hlength : (dataWire record.data).length ≤ 65535) :
    Reads (recordParser settings later) (recordWire now record) (record.seen now later) := by
  obtain ⟨name, hsome, hname⟩ := hgood.name
  rw [recordWire, hsome, hostWire, getD_some]
  refine .of_at fun {payload off} hat => ?_
  simp only [at_append, length_recordLine] at hat
  obtain ⟨hread, hline, hdata⟩ := hat
  rw [length_append, ← Nat.add_assoc, length_append, length_recordLine, ← Nat.add_assoc]
  simp only [recordParser, parseRecord, hname.reads.at hread]
  generalize off + (nameWire name).length = off at *
  simp only [recordLine, at_append, length_encode, Nat.add_assoc, Nat.reduceAdd] at hline
  obtain ⟨htype, hclass, httl, hdataLen⟩ := hline
  have hinside := hdata.length_le
  have hfield := hdataLen.field_eq (show _ < 256 ^ 2 by omega)
  rw [if_neg (by omega), hfield, if_neg (by omega)]
  simp only [htype.field_eq (toNat_lt_16 _), hclass.field_eq (toNat_lt_16 _),
    httl.field_eq (Nat.mod_lt _ (by decide)), UInt16.ofNat_toNat, parseRecordData_eq hgood.data hdata,
    map_some, hgood.ttl_eq, ← hsome]
  rfl

/-! ## Packets -/

section

variable {A : Type} {entries : List A} {wire : A → List UInt8}

theorem packSection_eq {max : Nat}
    (hadd : ∀ entry ∈ entries, ∀ dst : List UInt8, dst.length + (wire entry).length ≤ max →
      add dst entry = some (.ok, dst ++ wire entry))
    (i : Nat) {dst : List UInt8} (hfits : dst.length + (entries.flatMap wire).length ≤ max) :
    packSection add i dst entries = some (.upTo none (dst ++ entries.flatMap wire)) := by
  induction entries generalizing i dst with
  | nil => simp [packSection]
  | cons entry entries ih =>
    rw [flatMap_cons, length_append] at hfits
    have hfirst := hadd entry mem_cons_self dst (by omega)
    have hrest := ih (fun e he => hadd e (mem_cons_of_mem _ he)) (i + 1)
      (show (dst ++ wire entry).length + (entries.flatMap wire).length ≤ max by
        rw [length_append]; omega)
    simp only [packSection, hfirst, bind_some, hrest, flatMap_cons, append_assoc]

theorem reads_section {B : Type} {parse : Parser B} {seen : A → B}
    (hreads : ∀ entry ∈ entries, Reads parse (wire entry) (seen entry)) :
    Reads (many parse entries.length) (entries.flatMap wire) (entries.map seen) := by
  have hparts : Forall₂ (fun b bytes => Reads parse bytes b) (entries.map seen)
      (entries.map wire) := by
    rw [forall₂_map_left_iff, forall₂_map_right_iff, forall₂_same]
    exact hreads
  have hmany := Reads.many hparts
  rwa [length_map, ← flatMap_def] at hmany

end

def headerCounts (buf : List UInt8) : Counts :=
  ⟨field buf 4 2, field buf 6 2, field buf 8 2, field buf 10 2⟩

theorem length_dnsHeader (packet : Packet) (truncated : Bool) (counts : Counts) :
    (dnsHeader packet truncated counts).length = 12 := by
  simp [dnsHeader]

theorem headerCounts_dnsHeader (packet : Packet) (truncated : Bool) {counts : Counts}
    (hqueries : counts.queries < 256 ^ 2) (hanswers : counts.answers < 256 ^ 2)
    (hauthority : counts.authority < 256 ^ 2) (hadditional : counts.additional < 256 ^ 2)
    (rest : List UInt8) : headerCounts (dnsHeader packet truncated counts ++ rest) = counts := by
  have hat : At _ 0 (dnsHeader packet truncated counts) := at_zero rest
  generalize dnsHeader packet truncated counts ++ rest = buf at hat ⊢
  simp only [dnsHeader, at_append, length_encode, length_cons, length_nil, Nat.reduceAdd] at hat
  obtain ⟨-, -, h4, h6, h8, h10⟩ := hat
  rw [headerCounts, h4.field_eq hqueries, h6.field_eq hanswers, h8.field_eq hauthority,
    h10.field_eq hadditional]

structure GoodPacket (settings : Settings) (now : Nat) (packet : Packet) : Prop where
  queries : ∀ query ∈ packet.queries, GoodHost settings query.name
  answers : ∀ record ∈ packet.answers, GoodRecord settings now record
  authority : ∀ record ∈ packet.authorityRecords, GoodRecord settings now record
  additional : ∀ record ∈ packet.additionalRecords, GoodRecord settings now record

def packetSize (now : Nat) (packet : Packet) : Nat :=
  12 + (packet.queries.flatMap queryWire).length +
    (packet.answers.flatMap (recordWire now)).length +
    (packet.authorityRecords.flatMap (recordWire now)).length +
    (packet.additionalRecords.flatMap (recordWire now)).length

def Packet.counts (packet : Packet) : Counts :=
  ⟨packet.queries.length, packet.answers.length, packet.authorityRecords.length,
    packet.additionalRecords.length⟩

def Packet.seen (now later : Nat) (packet : Packet) : Packet :=
  { packet with
    answers := packet.answers.map (Record.seen now later)
    authorityRecords := packet.authorityRecords.map (Record.seen now later)
    additionalRecords := packet.additionalRecords.map (Record.seen now later) }

def sectionsWire (now : Nat) (packet : Packet) : List UInt8 :=
  packet.queries.flatMap queryWire ++ (packet.answers.flatMap (recordWire now) ++
    (packet.authorityRecords.flatMap (recordWire now) ++
      packet.additionalRecords.flatMap (recordWire now)))

theorem length_dataWire_le {records : List Record} (hmem : record ∈ records) :
    (dataWire record.data).length ≤ (records.flatMap (recordWire now)).length := by
  obtain ⟨_, _, rfl⟩ := append_of_mem hmem
  simp only [flatMap_append, flatMap_cons, recordWire, length_append]
  omega

section

variable {now later max : Nat} {packet : Packet}

theorem Packet.counts_lt (hfits : packetSize now packet ≤ 65535) :
    packet.counts.queries < 256 ^ 2 ∧ packet.counts.answers < 256 ^ 2 ∧
      packet.counts.authority < 256 ^ 2 ∧ packet.counts.additional < 256 ^ 2 := by
  unfold packetSize at hfits
  have hqueries : packet.queries.length ≤ (packet.queries.flatMap queryWire).length :=
    length_le_flatMap fun query _ => by simp [queryWire, queryLine]
  have hrecords : ∀ records : List Record,
      records.length ≤ (records.flatMap (recordWire now)).length := fun records =>
    length_le_flatMap fun record _ => by simp [recordWire, length_recordLine]; omega
  have hanswers := hrecords packet.answers
  have hauthority := hrecords packet.authorityRecords
  have hadditional := hrecords packet.additionalRecords
  simp only [Packet.counts]
  omega

theorem pack_eq (hgood : GoodPacket settings now packet)
    (hfits : packetSize now packet ≤ max) (hmax : max ≤ 65535) : pack settings now packet max =
      some (some ⟨.ok, dnsHeader packet false packet.counts ++ sectionsWire now packet,
        packet.counts⟩) := by
  obtain ⟨hqueries, hanswers, hauthority, hadditional⟩ := Packet.counts_lt (hfits.trans hmax)
  unfold packetSize at hfits
  have hrecords : ∀ {records : List Record} {dst : List UInt8},
      (∀ record ∈ records, GoodRecord settings now record) →
      dst.length + (records.flatMap (recordWire now)).length ≤ max →
      packSection (addRecord settings now max) 0 dst records =
        some (.upTo none (dst ++ records.flatMap (recordWire now))) := fun hgood =>
    packSection_eq (fun record hrecord _ hdst => addRecord_eq (hgood record hrecord) hmax hdst) 0
  have hsmall : ¬ (65535 < packet.queries.length ∨ 65535 < packet.answers.length ∨
      65535 < packet.authorityRecords.length ∨ 65535 < packet.additionalRecords.length) := by
    simp only [Packet.counts] at hqueries hanswers hauthority hadditional
    omega
  simp only [pack, if_neg hsmall]
  rw [packSection_eq (fun query hquery _ hdst => congrArg some
      (builderAddQuery_eq (hgood.queries query hquery) hdst)) 0, bind_some]
  dsimp only
  rw [hrecords hgood.answers, bind_some]
  dsimp only
  rw [hrecords hgood.authority, bind_some]
  dsimp only
  rw [hrecords hgood.additional, bind_some]
  · simp only [append_assoc, drop_left' (length_replicate : (replicate 12 (0 : UInt8)).length = 12)]
    rfl
  all_goals
    simp only [length_append, length_replicate]
    omega

theorem reads_records (later : Nat) {records : List Record}
    (hgood : ∀ record ∈ records, GoodRecord settings now record)
    (hlength : (records.flatMap (recordWire now)).length ≤ 65535) :
    Reads (many (recordParser settings later) records.length)
      (records.flatMap (recordWire now)) (records.map (Record.seen now later)) :=
  reads_section fun record hrecord =>
    reads_record (hgood record hrecord) ((length_dataWire_le hrecord).trans hlength)

/-- The parser finds the whole packet in what was packed. -/
theorem parse_packed (hgood : GoodPacket settings now packet)
    (hfits : packetSize now packet ≤ 65535) :
    parse settings later (dnsHeader packet false packet.counts ++ sectionsWire now packet) =
      some (packet.seen now later) := by
  obtain ⟨hqueries, hanswers, hauthority, hadditional⟩ := Packet.counts_lt hfits
  have hcounts := headerCounts_dnsHeader packet false hqueries hanswers hauthority
    hadditional (sectionsWire now packet)
  have hat : At (dnsHeader packet false packet.counts ++ sectionsWire now packet) 12
      (sectionsWire now packet) :=
    ⟨_, [], by rw [append_nil], (length_dnsHeader packet false packet.counts).symm⟩
  generalize hbuf : dnsHeader packet false packet.counts ++ sectionsWire now packet = buf at *
  have hstart : buf.getD 0 0 = packet.id.1 ∧ buf.getD 1 0 = packet.id.2 ∧
      buf.getD 2 0 = packet.flags.1 ∧ buf.getD 3 0 = packet.flags.2 := by
    rw [← hbuf]
    exact ⟨rfl, rfl, rfl, rfl⟩
  have hlong := hat.length_le
  simp only [headerCounts, Packet.counts, Counts.mk.injEq] at hcounts
  simp only [sectionsWire, at_append] at hat
  obtain ⟨h1, h2, h3, h4⟩ := hat
  unfold packetSize at hfits
  have h1 := (reads_section fun query hquery => reads_query (hgood.queries query hquery)).at h1
  have h2 := (reads_records later hgood.answers (by omega)).at h2
  have h3 := (reads_records later hgood.authority (by omega)).at h3
  have h4 := (reads_records later hgood.additional (by omega)).at h4
  rw [parse, if_neg (by omega)]
  simp only [hcounts, h1, h2, h3, h4, bind_some, map_some, hstart]
  simp [Packet.seen]

/-! ## Packets that were cut -/

structure Cuts where
  queries : Option Nat
  answers : Option Nat
  authority : Option Nat
  additional : Option Nat

def Cuts.truncated (cuts : Cuts) : Bool :=
  cuts.queries.isSome || cuts.answers.isSome || cuts.authority.isSome || cuts.additional.isSome

theorem Cuts.truncated_eq_false (cuts : Cuts) : cuts.truncated = false ↔ cuts.queries = none ∧
    cuts.answers = none ∧ cuts.authority = none ∧ cuts.additional = none := by
  simp only [truncated, Bool.or_eq_false_iff, isSome_eq_false_iff, isNone_iff_eq_none, and_assoc]

def Cuts.counts (cuts : Cuts) (packet : Packet) : Counts where
  queries := sectionCount packet.queries.length cuts.queries
  answers := sectionCount packet.answers.length cuts.answers
  authority := sectionCount packet.authorityRecords.length cuts.authority
  additional := sectionCount packet.additionalRecords.length cuts.additional

def Cuts.encoded (cuts : Cuts) (packet : Packet) : Counts where
  queries := sectionEncoded packet.queries.length cuts.queries
  answers := sectionEncoded packet.answers.length cuts.answers
  authority := sectionEncoded packet.authorityRecords.length cuts.authority
  additional := sectionEncoded packet.additionalRecords.length cuts.additional

variable {packed : Packed}

theorem pack_eq_some (hpack : pack settings now packet max = some (some packed)) :
    (packet.queries.length ≤ 65535 ∧ packet.answers.length ≤ 65535 ∧
      packet.authorityRecords.length ≤ 65535 ∧ packet.additionalRecords.length ≤ 65535) ∧
    ∃ (cuts : Cuts) (dst1 dst2 dst3 dst : List UInt8),
      packSection (fun dst query => some (builderAddQuery settings max dst query)) 0
        (replicate 12 0) packet.queries = some (.upTo cuts.queries dst1) ∧
      packSection (addRecord settings now max) 0 dst1 packet.answers =
        some (.upTo cuts.answers dst2) ∧
      packSection (addRecord settings now max) 0 dst2 packet.authorityRecords =
        some (.upTo cuts.authority dst3) ∧
      packSection (addRecord settings now max) 0 dst3 packet.additionalRecords =
        some (.upTo cuts.additional dst) ∧ packed = ⟨if cuts.truncated then .no else .ok,
        dnsHeader packet cuts.truncated (cuts.counts packet) ++ dst.drop 12,
        cuts.encoded packet⟩ := by
  unfold pack at hpack
  split at hpack
  · cases hpack
  next hsmall =>
    refine ⟨by omega, ?_⟩
    obtain ⟨section1, h1, hpack⟩ := bind_eq_some_iff.mp hpack
    cases section1 with
    | syserr => cases hpack
    | upTo cut1 dst1 =>
      obtain ⟨section2, h2, hpack⟩ := bind_eq_some_iff.mp hpack
      cases section2 with
      | syserr => cases hpack
      | upTo cut2 dst2 =>
        obtain ⟨section3, h3, hpack⟩ := bind_eq_some_iff.mp hpack
        cases section3 with
        | syserr => cases hpack
        | upTo cut3 dst3 =>
          obtain ⟨section4, h4, hpack⟩ := bind_eq_some_iff.mp hpack
          cases section4 with
          | syserr => cases hpack
          | upTo cut4 dst =>
            cases hpack
            exact ⟨⟨cut1, cut2, cut3, cut4⟩, dst1, dst2, dst3, dst, h1, h2, h3, h4, rfl⟩

theorem sectionCount_lt (hnumber : number ≤ 65535) (cut : Option Nat) :
    sectionCount number cut < 256 ^ 2 := by
  cases cut with
  | none => exact Nat.lt_succ_of_le hnumber
  | some i => exact Nat.mod_lt _ (by decide)

theorem sectionCount_eq_encoded :
    sectionCount number cut = sectionEncoded number cut ↔ cut = none := by
  cases cut with
  | none => exact iff_of_true rfl rfl
  | some i =>
    refine iff_of_false ?_ (by simp)
    simp only [sectionCount, sectionEncoded]
    omega

/-- Whenever a packet is cut, a count in its header is wrong. -/
theorem headerCounts_eq_encoded_iff (hpack : pack settings now packet max = some (some packed)) :
    headerCounts packed.buf = packed.encoded ↔ packed.result = .ok := by
  obtain ⟨⟨hqueries, hanswers, hauthority, hadditional⟩, cuts, _, _, _, dst, -, -,
    -, -, rfl⟩ := pack_eq_some hpack
  have hcounts : headerCounts (dnsHeader packet cuts.truncated (cuts.counts packet) ++
      dst.drop 12) = cuts.counts packet :=
    headerCounts_dnsHeader packet cuts.truncated (sectionCount_lt hqueries _)
      (sectionCount_lt hanswers _) (sectionCount_lt hauthority _)
      (sectionCount_lt hadditional _) _
  have htruncated : cuts.truncated = false ↔ cuts.counts packet = cuts.encoded packet := by
    simp only [Cuts.counts, Cuts.encoded, Counts.mk.injEq, sectionCount_eq_encoded,
      Cuts.truncated_eq_false]
  dsimp only
  rw [hcounts, ← htruncated]
  cases cuts.truncated with
  | false => exact iff_of_true rfl rfl
  | true => exact iff_of_false (by decide) (by decide)

/-! ## The length of a packet -/

theorem wireLabel_of_mapM (hmap : labels.mapM wireLabel = some wires) :
    ∀ label ∈ labels, 0 < label.length ∧ label.length < 64 := by
  induction labels generalizing wires with
  | nil => simp
  | cons label labels ih =>
    rw [mapM_cons] at hmap
    obtain ⟨_, hwire, hmap⟩ := bind_eq_some_iff.mp hmap
    obtain ⟨_, hrest, -⟩ := bind_eq_some_iff.mp hmap
    have hlabel : ¬ (64 ≤ label.length ∨ label.length = 0) := fun hbad => by
      rw [wireLabel, if_pos hbad] at hwire
      cases hwire
    exact forall_mem_cons.mpr ⟨by omega, ih hrest⟩

theorem wireName_some (hwire : wireName name = some wire) :
    (∀ label ∈ name.splitOn dot, 0 < label.length ∧ label.length < 64) ∧
      wire.length = name.length + 2 := by
  obtain ⟨_, hmap, hflat⟩ := map_eq_some_iff.mp hwire
  have hlabels := wireLabel_of_mapM hmap
  have hwires := mapM_wireLabel hlabels
  rw [hmap] at hwires
  cases hwires
  exact ⟨hlabels, by rw [← length_nameWire name, ← hflat, nameWire, flatMap_def]⟩

/-- What is known when something was added: the buffer is long enough, and what was
added is good and has the length that is expected, if its names are kept. -/
structure Added (max : Nat) (dst after wire : List UInt8) (Keeps Good : Prop) : Prop where
  le : after.length ≤ max
  good : Keeps → Good ∧ after.length = dst.length + wire.length

def KeepsHost (settings : Settings) (host : Option (List UInt8)) : Prop :=
  ∀ name ∈ host, Keeps settings name

/-- The names are kept, and the parser can write the member. -/
def KeepsData (settings : Settings) : RecordData → Prop
  | .hostname name => KeepsHost settings name
  | .soa (some soa) => KeepsHost settings soa.mname ∧ KeepsHost settings soa.rname
  | .mx (some mx) => KeepsHost settings mx.mxhost
  | .srv (some srv) => KeepsHost settings srv.target
  | .zero => False
  | .cert _ => False
  | _ => True

variable {dst after : List UInt8} {Keeps Good : Prop}

theorem Added.behind (hadded : Added max (dst ++ more) after wire Keeps Good) :
    Added max dst after (more ++ wire) Keeps Good := by
  refine ⟨hadded.le, fun hkeeps => ?_⟩
  obtain ⟨hgood, hlength⟩ := hadded.good hkeeps
  exact ⟨hgood, by rw [hlength, length_append, length_append, Nat.add_assoc]⟩

theorem Added.append (hadded : Added size dst after wire Keeps Good)
    (hle : after.length + more.length ≤ max) :
    Added max dst (after ++ more) (wire ++ more) Keeps Good := by
  refine ⟨length_append.trans_le hle, fun hkeeps => ?_⟩
  obtain ⟨hgood, hlength⟩ := hadded.good hkeeps
  exact ⟨hgood, by rw [length_append, hlength, length_append, Nat.add_assoc]⟩

theorem Added.trans (hfirst : Added size dst mid wire Keeps Good)
    (hsecond : Added max mid after more Keeps' Good') :
    Added max dst after (wire ++ more) (Keeps ∧ Keeps') (Good ∧ Good') := by
  refine ⟨hsecond.le, fun ⟨hkeeps, hkeeps'⟩ => ?_⟩
  obtain ⟨hgood, hlength⟩ := hfirst.good hkeeps
  obtain ⟨hgood', hlength'⟩ := hsecond.good hkeeps'
  exact ⟨⟨hgood, hgood'⟩, by rw [hlength', hlength, length_append, Nat.add_assoc]⟩

theorem added_name (hadd : builderAddName settings max dst host = (.ok, after)) :
    Added max dst after (hostWire host) (KeepsHost settings host) (GoodHost settings host) := by
  cases host with
  | none => cases hadd
  | some name =>
    simp only [builderAddName] at hadd
    split at hadd
    · cases hadd
    next hascii =>
      split at hadd
      · cases hadd
      · split at hadd
        · cases hadd
        next hwire =>
          cases hadd
          obtain ⟨hlabels, hlength⟩ := wireName_some hwire
          refine ⟨by rw [length_append]; omega, fun hkeeps => ?_⟩
          have hkeep := hkeeps name rfl
          cases hkeep.ascii.symm.trans hascii
          refine ⟨⟨name, rfl, hkeep, hlabels⟩, ?_⟩
          rw [length_append, hlength, hostWire, getD_some, length_nameWire]

/-- A builder that succeeds has added the name. -/
theorem ok_of_ite_ne (hadd : (if ret ≠ Result.ok then (ret, dst) else more) = (.ok, after)) :
    ret = .ok ∧ more = (.ok, after) := by
  split at hadd
  next hret =>
    cases hadd
    exact absurd rfl hret
  next hret => exact ⟨not_not.mp hret, hadd⟩

theorem added_query (hmax : 4 ≤ max)
    (hadd : builderAddQuery settings max dst query = (.ok, after)) :
    Added max dst after (queryWire query) (KeepsHost settings query.name)
      (GoodHost settings query.name) := by
  unfold builderAddQuery at hadd
  split at hadd
  next hname =>
    obtain ⟨rfl, hrest⟩ := ok_of_ite_ne hadd
    cases hrest
    have hle := (added_name hname).le
    exact (added_name hname).append (by simp only [length_append, length_encode]; omega)

theorem added_mx (hadd : builderAddMx settings max dst mx = (.ok, after)) :
    Added max dst after (dataWire (.mx (some mx))) (KeepsHost settings mx.mxhost)
      (GoodHost settings mx.mxhost) := by
  unfold builderAddMx at hadd
  split at hadd
  · cases hadd
  · exact (added_name hadd).behind

theorem added_srv (hadd : builderAddSrv settings max dst srv = (.ok, after)) :
    Added max dst after (dataWire (.srv (some srv))) (KeepsHost settings srv.target)
      (GoodHost settings srv.target) := by
  unfold builderAddSrv at hadd
  split at hadd
  · cases hadd
  · exact (added_name hadd).behind

theorem length_builderAddCert
    (hadd : builderAddCert settings max dst cert = (.ok, after)) : after.length ≤ max := by
  unfold builderAddCert at hadd
  split at hadd
  · cases hadd
  · split at hadd
    · cases hadd
    · cases hadd
      simp only [length_append, length_encode]
      omega

theorem added_soa (hadd : builderAddSoa settings max dst soa = (.ok, after)) :
    Added max dst after (dataWire (.soa (some soa)))
      (KeepsHost settings soa.mname ∧ KeepsHost settings soa.rname)
      (GoodHost settings soa.mname ∧ GoodHost settings soa.rname) := by
  unfold builderAddSoa at hadd
  split at hadd
  next hmname =>
    obtain ⟨rfl, hrest⟩ := ok_of_ite_ne hadd
    split at hrest
    next hrname =>
      obtain ⟨rfl, hfixed⟩ := ok_of_ite_ne hrest
      split at hfixed
      · cases hfixed
      · cases hfixed
        refine (added_name hmname).trans ((added_name hrname).append ?_)
        simp only [length_append, length_encode]
        omega

theorem added_data {member : Member}
    (hadd : addRecordData settings max dst member data = some (.ok, after)) :
    Added max dst after (dataWire data) (KeepsData settings data)
      (GoodData settings member data) := by
  unfold addRecordData at hadd
  split at hadd
  · exact added_mx (Option.some.inj hadd)
  · exact ⟨length_builderAddCert (Option.some.inj hadd), False.elim⟩
  · exact added_soa (Option.some.inj hadd)
  · exact added_name (Option.some.inj hadd)
  · exact added_srv (Option.some.inj hadd)
  · split at hadd
    · cases hadd
    · cases hadd
      exact ⟨by rw [length_append]; omega, fun _ => ⟨trivial, length_append⟩⟩
  · cases hadd
  · split at hadd
    · cases hadd
    · cases hadd
      exact ⟨by omega, False.elim⟩
  · cases hadd

theorem added_record (hmax : 10 ≤ max)
    (hadd : addRecord settings now max dst record = some (.ok, after)) :
    Added max dst after (recordWire now record)
      (KeepsHost settings record.name ∧ KeepsData settings record.data)
      (GoodHost settings record.name ∧
        GoodData settings (addRecordMember record.type) record.data) := by
  unfold addRecord at hadd
  split at hadd
  rename_i ret named hname
  split at hadd
  next hret =>
    cases hadd
    exact absurd rfl hret
  next hret =>
    rw [not_not.mp hret] at hname
    have hnamed := added_name hname
    obtain ⟨⟨_, _⟩, hdata, hadd⟩ := map_eq_some_iff.mp hadd
    dsimp only at hadd
    split at hadd
    · cases hadd
    next hret =>
      rw [not_not.mp hret] at hdata
      have hfull := added_data hdata
      split at hadd
      · cases hadd
      · cases hadd
        have hle := hnamed.le
        have hle' := hfull.le
        refine ⟨?_, fun ⟨hkeeps, hkeeps'⟩ => ?_⟩
        · simp only [length_append, length_recordLine, length_drop]
          omega
        · obtain ⟨hgood, hlength⟩ := hnamed.good hkeeps
          obtain ⟨hgood', hlength'⟩ := hfull.good hkeeps'
          refine ⟨⟨hgood, hgood'⟩, ?_⟩
          simp only [recordWire, length_append, length_recordLine, length_drop,
            length_replicate] at hlength' ⊢
          omega

theorem added_section {A : Type} {add : List UInt8 → A → Option (Result × List UInt8)}
    {wire : A → List UInt8} {Keeps Good : A → Prop}
    (hadd : ∀ dst entry after, add dst entry = some (.ok, after) →
      Added max dst after (wire entry) (Keeps entry) (Good entry))
    {entries : List A} {i : Nat} {cut : Option Nat} (hdst : dst.length ≤ max)
    (hpack : packSection add i dst entries = some (.upTo cut after)) :
    Added max dst after (entries.flatMap wire) (cut = none ∧ ∀ entry ∈ entries, Keeps entry)
      (∀ entry ∈ entries, Good entry) := by
  induction entries generalizing i dst with
  | nil =>
    cases hpack
    exact ⟨hdst, fun _ => ⟨nofun, rfl⟩⟩
  | cons entry entries ih =>
    obtain ⟨⟨ret, _⟩, hentry, hpack⟩ := bind_eq_some_iff.mp hpack
    cases ret with
    | syserr => cases hpack
    | no =>
      cases hpack
      exact ⟨hdst, fun hcut => nomatch hcut.1⟩
    | ok =>
      have hfirst := hadd _ _ _ hentry
      obtain ⟨hle, hgood⟩ := hfirst.trans (ih hfirst.le hpack)
      simp only [forall_mem_cons]
      exact ⟨hle, fun ⟨hcut, hkeeps, hkeeps'⟩ => hgood ⟨hkeeps, hcut, hkeeps'⟩⟩

def Packet.records (packet : Packet) : List Record :=
  packet.answers ++ (packet.authorityRecords ++ packet.additionalRecords)

/-- What `pack` puts behind the header. -/
theorem added_packet (hmax : 12 ≤ max)
    (hpack : pack settings now packet max = some (some packed)) :
    Added max (replicate 12 0) packed.buf (sectionsWire now packet)
      (packed.result = .ok ∧ (∀ query ∈ packet.queries, KeepsHost settings query.name) ∧
        ∀ record ∈ packet.records,
          KeepsHost settings record.name ∧ KeepsData settings record.data)
      ((∀ query ∈ packet.queries, GoodHost settings query.name) ∧ ∀ record ∈ packet.records,
        GoodHost settings record.name ∧
          GoodData settings (addRecordMember record.type) record.data) := by
  obtain ⟨-, cuts, dst1, _, _, dst, h1, h2, h3, h4, rfl⟩ := pack_eq_some hpack
  have hrecord : ∀ dst record after, addRecord settings now max dst record = some (.ok, after) → _ :=
    fun _ _ _ => added_record (by omega)
  have hadded1 := added_section (fun _ _ _ hquery =>
    added_query (by omega) (Option.some.inj hquery)) (by simpa using hmax) h1
  have hadded2 := added_section hrecord hadded1.le h2
  have hadded3 := added_section hrecord hadded2.le h3
  have hadded4 := added_section hrecord hadded3.le h4
  obtain ⟨hle, hgood⟩ := hadded1.trans (hadded2.trans (hadded3.trans hadded4))
  have hlength : (dnsHeader packet cuts.truncated (cuts.counts packet) ++ dst.drop 12).length =
      12 + (dst.length - 12) := by
    rw [length_append, length_dnsHeader, length_drop]
  refine ⟨by rw [hlength]; omega, fun ⟨hok, hqueries, hrecords⟩ => ?_⟩
  have hwhole : cuts.truncated = false := by
    cases htruncated : cuts.truncated with
    | false => rfl
    | true => simp [htruncated] at hok
  obtain ⟨hcut1, hcut2, hcut3, hcut4⟩ := cuts.truncated_eq_false.mp hwhole
  simp only [Packet.records, forall_mem_append] at hrecords ⊢
  obtain ⟨hrecords2, hrecords3, hrecords4⟩ := hrecords
  obtain ⟨hall, hdst⟩ := hgood ⟨⟨hcut1, hqueries⟩, ⟨hcut2, hrecords2⟩, ⟨hcut3, hrecords3⟩,
    hcut4, hrecords4⟩
  exact ⟨hall, by rw [hlength, hdst, length_replicate, Nat.add_sub_cancel_left]; rfl⟩

theorem length_buf_le (hmax : 12 ≤ max)
    (hpack : pack settings now packet max = some (some packed)) : packed.buf.length ≤ max :=
  (added_packet hmax hpack).le

/-! ## What was parsed -/

def RecordData.Readable (data : RecordData) : Prop :=
  data.member ≠ none ∧ data.member ≠ some .cert

theorem recordParser_some
    (hparse : recordParser settings later payload off = some (record, off')) :
    record.data.Readable ∧ ∃ seconds < 2 ^ 32, record.expirationTime =
      timeRelativeToAbsolute later (timeRelativeMultiply 1000000 seconds) := by
  obtain ⟨_, hafter, hrecord⟩ := map_eq_some_iff.mp hparse
  cases hrecord
  revert hafter
  split
  · nofun
  · split
    · nofun
    · dsimp only
      split
      · nofun
      · refine fun _ => ⟨?_, _, field_lt _ _ 4, rfl⟩
        unfold parseRecordData
        split_ifs <;> simp [RecordData.Readable, writeMember, RecordData.member]

/-- Every record of a packet was parsed somewhere in it. -/
theorem mem_records_of_parse (hparse : parse settings later payload = some packet) :
    ∀ record ∈ packet.records, ∃ off after,
      recordParser settings later payload off = some (record, after) := by
  unfold parse at hparse
  split at hparse
  · cases hparse
  · obtain ⟨_, -, hparse⟩ := bind_eq_some_iff.mp hparse
    obtain ⟨_, hanswers, hparse⟩ := bind_eq_some_iff.mp hparse
    obtain ⟨_, hauthority, hparse⟩ := bind_eq_some_iff.mp hparse
    obtain ⟨_, hadditional, hparse⟩ := map_eq_some_iff.mp hparse
    cases hparse
    simp only [Packet.records, forall_mem_append]
    exact ⟨mem_many hanswers, mem_many hauthority, mem_many hadditional⟩

theorem lifetime_lt (hlater : later + 2 ^ 32 * 1000000 < 2 ^ 64) (hseconds : seconds < 2 ^ 32)
    (htime : timeRelativeToAbsolute later (timeRelativeMultiply 1000000 lifetime) =
      timeRelativeToAbsolute later (timeRelativeMultiply 1000000 seconds)) :
    lifetime < 2 ^ 32 := by
  unfold timeRelativeToAbsolute timeRelativeMultiply timeForever at htime
  split_ifs at htime <;> first | contradiction | omega

theorem readable_of_parse (hlater : later + 2 ^ 32 * 1000000 < 2 ^ 64)
    (hparse : parse settings later payload = some (packet.seen now later)) :
    ∀ record ∈ packet.records, record.data.Readable ∧
      timeAbsoluteGetRemaining now record.expirationTime / 1000000 < 2 ^ 32 := by
  intro record hrecord
  have hseen : record.seen now later ∈ (packet.seen now later).records := by
    simp only [Packet.records, Packet.seen, ← map_append]
    exact mem_map_of_mem hrecord
  obtain ⟨_, _, hread⟩ := mem_records_of_parse hparse _ hseen
  obtain ⟨hreadable, _, hseconds, htime⟩ := recordParser_some hread
  exact ⟨hreadable, lifetime_lt hlater hseconds htime⟩

/-- The IDNA library leaves the names as they are. -/
structure KeepsPacket (settings : Settings) (packet : Packet) : Prop where
  queries : ∀ query ∈ packet.queries, KeepsHost settings query.name
  records : ∀ record ∈ packet.records, KeepsHost settings record.name ∧
    (record.data.Readable → KeepsData settings record.data)

theorem good_of_parse (hmin : 12 ≤ max) (hlater : later + 2 ^ 32 * 1000000 < 2 ^ 64)
    (hkeeps : KeepsPacket settings packet)
    (hpack : pack settings now packet max = some (some packed)) (hok : packed.result = .ok)
    (hparse : parse settings later packed.buf = some (packet.seen now later)) :
    GoodPacket settings now packet ∧ packetSize now packet ≤ max := by
  have hreadable := readable_of_parse hlater hparse
  obtain ⟨hle, hgood⟩ := added_packet hmin hpack
  obtain ⟨⟨hqueries, hrecords⟩, hlength⟩ := hgood ⟨hok, hkeeps.queries, fun record hrecord =>
    (hkeeps.records record hrecord).imp_right fun hdata => hdata (hreadable record hrecord).1⟩
  have hall : ∀ record ∈ packet.records, GoodRecord settings now record := fun record hrecord =>
    ⟨(hrecords record hrecord).1, (hrecords record hrecord).2, (hreadable record hrecord).2⟩
  simp only [Packet.records, forall_mem_append] at hall
  obtain ⟨hanswers, hauthority, hadditional⟩ := hall
  refine ⟨⟨hqueries, hanswers, hauthority, hadditional⟩, ?_⟩
  simp only [sectionsWire, length_append, length_replicate] at hlength
  unfold packetSize
  omega

theorem pack_parse (hgood : GoodPacket settings now packet)
    (hfits : packetSize now packet ≤ max) (hmax : max ≤ 65535) :
    ∃ packed, pack settings now packet max = some (some packed) ∧ packed.result = .ok ∧
      headerCounts packed.buf = packed.encoded ∧ packed.encoded = packet.counts ∧
      packed.buf.length ≤ max ∧
      parse settings later packed.buf = some (packet.seen now later) := by
  have hpack := pack_eq hgood hfits hmax
  have hmin : 12 ≤ max := by
    unfold packetSize at hfits
    omega
  refine ⟨_, hpack, rfl, ?_, rfl, ?_, ?_⟩
  · exact (headerCounts_eq_encoded_iff hpack).mpr rfl
  · exact length_buf_le hmin hpack
  · exact parse_packed hgood (hfits.trans hmax)

/-- A packet that fits, with names and records that can be packed, is parsed as
it was packed, and no other packet is. -/
theorem pack_round_trip (now later : Nat) (packet : Packet) (hmax : max ≤ 65535) :
    (GoodPacket settings now packet → packetSize now packet ≤ max →
      ∃ packed, pack settings now packet max = some (some packed) ∧ packed.result = .ok ∧
        headerCounts packed.buf = packed.encoded ∧ packed.encoded = packet.counts ∧
        packed.buf.length ≤ max ∧
        parse settings later packed.buf = some (packet.seen now later)) ∧
    (12 ≤ max → later + 2 ^ 32 * 1000000 < 2 ^ 64 → KeepsPacket settings packet →
      ∀ packed, pack settings now packet max = some (some packed) →
        ((headerCounts packed.buf = packed.encoded ∧ packed.buf.length ≤ max ∧
            parse settings later packed.buf = some (packet.seen now later)) ↔
          GoodPacket settings now packet ∧ packetSize now packet ≤ max)) := by
  refine ⟨fun hgood hfits => pack_parse hgood hfits hmax, ?_⟩
  intro hmin hlater hkeeps packed hpack
  constructor
  · rintro ⟨hcounts, -, hparse⟩
    have hok := (headerCounts_eq_encoded_iff hpack).mp hcounts
    exact good_of_parse hmin hlater hkeeps hpack hok hparse
  · rintro ⟨hgood, hfits⟩
    obtain ⟨_, hpack', -, hcounts, -, hle, hparse⟩ := pack_parse hgood hfits hmax
    cases hpack.symm.trans hpack'
    exact ⟨hcounts, hle, hparse⟩

end

def shortName : List UInt8 := [97, dot, 98]

def shortPacket : Packet where
  queries := [⟨some shortName, 1, 1⟩]
  answers := [⟨some shortName, .raw [127, 0, 0, 1], 5000000, 1, 1⟩,
    ⟨some shortName, .mx (some ⟨10, some shortName⟩), 5000000, 15, 1⟩]
  authorityRecords := []
  additionalRecords := []
  flags := (0, 0)
  id := (0, 7)

theorem goodHost_shortName : GoodHost plainSettings (some shortName) :=
  ⟨shortName, rfl, ⟨rfl, fun _ _ => rfl, by decide⟩, by decide⟩

def certPacket : Packet :=
  { shortPacket with
    answers := [⟨some shortName, .cert (some ⟨1, 0, 0, [7]⟩), 5000000, typeCert, 1⟩] }

theorem pack_round_trip_shortPacket :
    (GoodPacket plainSettings 0 shortPacket ∧ packetSize 0 shortPacket ≤ 512 ∧
      ∃ packed, pack plainSettings 0 shortPacket 512 = some (some packed) ∧
        packed.result = .ok ∧ headerCounts packed.buf = packed.encoded ∧
        packed.encoded = shortPacket.counts ∧ packed.buf.length ≤ 512 ∧
        parse plainSettings 9 packed.buf = some (shortPacket.seen 0 9)) ∧
    ∃ packed, pack plainSettings 0 certPacket 512 = some (some packed) ∧ packed.result = .ok ∧
      ¬ (headerCounts packed.buf = packed.encoded ∧ packed.buf.length ≤ 512 ∧
        parse plainSettings 9 packed.buf = some (certPacket.seen 0 9)) := by
  have hgood : GoodPacket plainSettings 0 shortPacket := by
    refine ⟨?_, ?_, by simp [shortPacket], by simp [shortPacket]⟩
    · simpa [shortPacket] using goodHost_shortName
    · simp only [shortPacket, mem_cons, not_mem_nil, or_false, forall_eq_or_imp, forall_eq]
      exact ⟨⟨goodHost_shortName, trivial, by decide⟩,
        ⟨goodHost_shortName, goodHost_shortName, by decide⟩⟩
  have hfits : packetSize 0 shortPacket ≤ 512 := by decide
  refine ⟨⟨hgood, hfits, (pack_round_trip 0 9 shortPacket (by decide)).1 hgood hfits⟩, _, rfl, rfl,
    fun hround => ?_⟩
  have hkeeps : KeepsHost plainSettings (some shortName) := by
    rintro _ ⟨⟩
    exact ⟨rfl, fun _ _ => rfl, by decide⟩
  have hgood := ((pack_round_trip 0 9 certPacket (by decide)).2 (by decide) (by decide)
    ⟨by simpa [certPacket, shortPacket] using hkeeps,
      by simpa [certPacket, shortPacket, Packet.records, RecordData.Readable, RecordData.member]
        using hkeeps⟩ _ rfl).mp hround
  exact (hgood.1.answers _ mem_cons_self).data

def twoQueries : Packet where
  queries := [⟨some shortName, 1, 1⟩, ⟨some shortName, 2, 1⟩]
  answers := []
  authorityRecords := []
  additionalRecords := []
  flags := (0, 0)
  id := (0, 7)

/-- Where the second query does not fit, the header counts none and the first
one is lost; where the first does not fit, it counts 65535 and nothing can be
parsed. -/
theorem cut_packet_counts_wrong :
    (∃ packed, pack plainSettings 0 twoQueries 29 = some (some packed) ∧
      packed.result = .no ∧ packed.encoded.queries = 1 ∧
      (headerCounts packed.buf).queries = 0 ∧
      (parse plainSettings 0 packed.buf).map Packet.queries = some []) ∧
    ∃ packed, pack plainSettings 0 twoQueries 12 = some (some packed) ∧
      packed.result = .no ∧ packed.encoded.queries = 0 ∧
      (headerCounts packed.buf).queries = 65535 ∧
      parse plainSettings 0 packed.buf = none := by
  refine ⟨⟨_, rfl, ?_⟩, ⟨_, rfl, ?_⟩⟩
  · decide
  · decide

end Gnunet.Dns
