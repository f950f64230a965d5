import Gnunet.FsDirectory
import Gnunet.MetaDataRoundTrip
import Mathlib.Data.List.GetD

/-!
# A directory is read as it was built

The greedy packing only permutes the entries.  Each of them stands behind the one
before it, or at the beginning of a later block with zeros up to there; a reader
that finds a zero goes from block to block until it finds the entry.
-/

namespace Gnunet.Fs

open BigEndian Container OffsetParser PaddedLayout List Option Nat MetaData

variable {rounds : Nat}

section

variable {Uri : Type} {uris : UriFormat Uri} {zlib : Zlib}

theorem uriParse_nil : uriParse uris [] = none := by
  rfl

structure Recorded (uris : UriFormat Uri) (zlib : Zlib) (bytes : List UInt8)
    (entry : DirectoryEntry Uri) : Prop where
  exists_entryBytes : ∃ uri md ser, bytes = entryBytes (uris.toString uri) ser ∧
    uriParse uris (uris.toString uri).bytes = some uri ∧ uris.kind uri ≠ .ksk ∧
    ser.length < 256 ^ 4 ∧ deserialize zlib ser = some (some md) ∧
    entry = ⟨md.getByType metaTypeOriginalFilename, some uri, md, findFullData md⟩

variable {bytes : List UInt8} {entry : DirectoryEntry Uri}

theorem Recorded.head (hbytes : Recorded uris zlib bytes entry) :
    ∃ byte rest, bytes = byte :: rest ∧ byte ≠ 0 := by
  obtain ⟨uri, _, _, rfl, hparse, -⟩ := hbytes.exists_entryBytes
  cases htext : (uris.toString uri).bytes with
  | nil =>
    rw [htext, uriParse_nil] at hparse
    cases hparse
  | cons byte rest =>
    refine ⟨byte, _, by rw [entryBytes, CString.terminated, htext]; rfl, ?_⟩
    rintro rfl
    exact (uris.toString uri).noNul (htext ▸ mem_cons_self)

theorem Recorded.readEntryAt (hbytes : Recorded uris zlib bytes entry) (hat : At data pos bytes) :
    readEntryAt uris zlib data pos = some (.entry entry (pos + bytes.length)) := by
  obtain ⟨uri, _, ser, rfl, hparse, hkind, hser, hmd, rfl⟩ := hbytes.exists_entryBytes
  have hstring : cString (data.drop pos) = (uris.toString uri).bytes := by
    obtain ⟨front, back, rfl, rfl⟩ := hat
    rw [drop_left, entryBytes, CString.terminated, append_assoc, append_assoc, singleton_append]
    exact cString_append_nul (uris.toString uri).noNul _
  have hinside := hat.length_le
  simp only [entryBytes, at_append, CString.terminated, length_append, length_singleton,
    length_encode, ← Nat.add_assoc] at hat hinside ⊢
  obtain ⟨-, hsize, hser'⟩ := hat
  rw [Fs.readEntryAt]
  simp only [hstring, hparse, hsize.field_eq hser, hser'.take_drop, hmd, map_some]
  rw [if_neg (by omega), if_neg hkind, if_neg (by omega), if_neg (by omega)]

/-! ## The reader in the gaps -/

theorem skipAlign_eq : skipAlign pos = (pos / dblockSize + 1) * dblockSize := by
  have hpos := div_add_mod pos dblockSize
  have hmod : pos % dblockSize < dblockSize := mod_lt _ (by decide)
  simp only [skipAlign]
  rw [if_neg]
  rw [add_mul, mul_comm (pos / dblockSize)]
  omega

theorem lt_skipAlign (pos : Nat) : pos < skipAlign pos := by
  have hpos := div_add_mod pos dblockSize
  have hmod : pos % dblockSize < dblockSize := mod_lt _ (by decide)
  rw [skipAlign_eq, add_mul, mul_comm (pos / dblockSize)]
  omega

variable {pos : Nat}

theorem skipAlign_le (hlt : pos < target) (htarget : dblockSize ∣ target) :
    skipAlign pos ≤ target := by
  obtain ⟨_, rfl⟩ := htarget
  rw [skipAlign_eq, mul_comm dblockSize]
  apply Nat.mul_le_mul_right
  exact Nat.div_lt_of_lt_mul hlt

variable {entries : List (DirectoryEntry Uri)} {back : List UInt8}

theorem listLoop_entry (hbytes : Recorded uris zlib bytes entry) {front : List UInt8}
    (hpos : pos = front.length ∨ ((front ++ (bytes ++ back)).getD pos 0 = 0 ∧
      pos < front.length ∧ skipAlign pos = front.length))
    (hrest : listLoop uris zlib (front ++ (bytes ++ back)) rounds (front.length + bytes.length) =
      some (.ok, entries)) : listLoop uris zlib (front ++ (bytes ++ back)) (rounds + 1) pos =
      some (.ok, entry :: entries) := by
  obtain ⟨_, _, htail, hbyte⟩ := hbytes.head
  have hlength : front.length < (front ++ (bytes ++ back)).length := by
    rw [htail]
    simp only [length_append, length_cons]
    omega
  have hnext : (if (front ++ (bytes ++ back)).getD pos 0 = 0 then skipAlign pos else pos) =
      front.length := by
    rcases hpos with rfl | ⟨hzero, -, hskip⟩
    · rw [if_neg]
      rw [htail]
      simpa using hbyte
    · rw [if_pos hzero, hskip]
  rw [listLoop, if_neg (by omega)]
  simp only [hnext]
  rw [if_neg (by omega), hbytes.readEntryAt ⟨front, back, rfl, rfl⟩, bind_some]
  simp only [hrest, map_some]

theorem listLoop_gap_block {front : List UInt8} (hpos : pos = front.length)
    (hskip : skipAlign pos < front.length + gap) :
    listLoop uris zlib (front ++ (replicate gap 0 ++ back)) (rounds + 1) pos =
      listLoop uris zlib (front ++ (replicate gap 0 ++ back)) rounds (skipAlign pos) := by
  have hlt := lt_skipAlign pos
  subst hpos
  set data := front ++ (replicate gap 0 ++ back) with hdata
  have hlength : data.length = front.length + gap + back.length := by
    simp only [hdata, length_append, length_replicate]
    omega
  obtain ⟨before, hbefore⟩ := Nat.exists_eq_add_of_lt hlt
  obtain ⟨behind, _⟩ := Nat.exists_eq_add_of_lt hskip
  have hgap : gap = before + 1 + (behind + 1) := by omega
  have hzero : data.getD front.length 0 = 0 := by
    rw [hdata, hgap, replicate_add, replicate_succ]
    simp
  have hstring : cString (data.drop (skipAlign front.length)) = [] := by
    rw [hdata, hbefore, add_assoc, drop_length_add_append, hgap, replicate_add,
      append_assoc, drop_left' (by simp), replicate_succ]
    rfl
  rw [listLoop, if_neg (by omega)]
  simp only [hzero, if_true]
  rw [if_neg (by omega), readEntryAt, hstring, uriParse_nil]
  simp only [length_nil, add_zero]
  rw [if_neg (by omega)]
  rfl

/-- The entry behind a gap is found, whatever the number of blocks in the gap. -/
theorem listLoop_gap (hbytes : Recorded uris zlib bytes entry) (bound : Nat) (gap : Nat)
    (front : List UInt8) (hgap : gap = 0 ∨ dblockSize ∣ front.length + gap)
    (hrest : ∀ rounds, bound ≤ rounds → listLoop uris zlib
      (front ++ (replicate gap 0 ++ (bytes ++ back))) rounds
      (front.length + gap + bytes.length) = some (.ok, entries)) (hrounds : bound + gap < rounds) :
    listLoop uris zlib (front ++ (replicate gap 0 ++ (bytes ++ back))) rounds front.length =
      some (.ok, entry :: entries) := by
  -- the induction is on the gap, which gets shorter with every block
  induction gap using Nat.strong_induction_on generalizing front rounds with
  | _ gap ih =>
    obtain ⟨left, rfl⟩ : ∃ left, rounds = left + 1 := ⟨rounds - 1, by omega⟩
    have hsplit : front ++ (replicate gap 0 ++ (bytes ++ back)) =
        (front ++ replicate gap 0) ++ (bytes ++ back) := by
      rw [append_assoc]
    have hfront : (front ++ replicate gap (0 : UInt8)).length = front.length + gap := by
      rw [length_append, length_replicate]
    have hfound := hrest left (by omega)
    rcases Nat.eq_zero_or_pos gap with rfl | hpositive
    · rw [hsplit] at hfound ⊢
      apply listLoop_entry hbytes (.inl _)
      · rw [hfront]
        exact hfound
      · rw [hfront]
        rfl
    · have haligned : dblockSize ∣ front.length + gap := hgap.resolve_left (by omega)
      have hle : skipAlign front.length ≤ front.length + gap := skipAlign_le (by omega) haligned
      rcases hle.lt_or_eq with hbefore | hthere
      · rw [listLoop_gap_block rfl hbefore]
        have hlt := lt_skipAlign front.length
        obtain ⟨less, hless⟩ := Nat.exists_eq_add_of_le hlt.le
        obtain ⟨later, rfl⟩ : ∃ later, gap = less + later := ⟨gap - less, by omega⟩
        have hmore : front ++ (replicate (less + later) 0 ++ (bytes ++ back)) =
            (front ++ replicate less 0) ++ (replicate later 0 ++ (bytes ++ back)) := by
          rw [replicate_add]
          simp only [append_assoc]
        have hstart : (front ++ replicate less (0 : UInt8)).length = skipAlign front.length := by
          rw [length_append, length_replicate, hless]
        have hsum : (front ++ replicate less (0 : UInt8)).length + later =
            front.length + (less + later) := by
          omega
        have hlater := ih later (by omega) (front ++ replicate less 0)
          (.inr (by rw [hsum]; exact haligned))
          (fun rounds hbound => by rw [hsum, ← hmore]; exact hrest rounds hbound)
          (show bound + later < left by omega)
        rw [← hmore, hstart] at hlater
        exact hlater
      · rw [hsplit] at hfound ⊢
        apply listLoop_entry hbytes (.inr _)
        · rw [hfront]
          exact hfound
        · rw [hfront]
          refine ⟨?_, by omega, hthere⟩
          obtain ⟨less, rfl⟩ : ∃ less, gap = less + 1 := ⟨gap - 1, by omega⟩
          simp

end

theorem doAlign_cases (start size : Nat) : doAlign start (start + size) = start + size ∨
      ∃ align, dblockSize ∣ align ∧ start < align ∧
        doAlign start (start + size) = align + size := by
  simp only [doAlign]
  split_ifs with hcross
  · refine .inr ⟨_, Dvd.intro_left _ rfl, hcross.1, ?_⟩
    omega
  · exact .inl rfl

theorem doAlign_eq (start size : Nat) :
    doAlign start (start + size) = entryPlace start size + size := by
  rw [entryPlace]
  rcases doAlign_cases start size with hsame | ⟨_, -, -, _⟩
  · omega
  · omega

theorem le_entryPlace (start size : Nat) : start ≤ entryPlace start size := by
  have heq := doAlign_eq start size
  rcases doAlign_cases start size with hsame | ⟨_, -, _, _⟩
  · omega
  · omega

theorem entryPlace_aligned (start size : Nat) : entryPlace start size - start = 0 ∨
      dblockSize ∣ start + (entryPlace start size - start) := by
  have heq := doAlign_eq start size
  rcases doAlign_cases start size with hsame | ⟨align, hdvd, _, _⟩
  · exact .inl (by omega)
  · refine .inr ?_
    have hplace : start + (entryPlace start size - start) = align := by omega
    rw [hplace]
    exact hdvd

theorem listLoop_layout {Uri : Type} {uris : UriFormat Uri}
    {records : List (List UInt8)} {entries : List (DirectoryEntry Uri)}
    (hrecords : Forall₂ (Recorded uris zlib) records entries) (front : List UInt8)
    (hrounds : (layout 0 entryPlace front.length records).length < rounds) :
    listLoop uris zlib (front ++ layout 0 entryPlace front.length records) rounds front.length =
      some (.ok, entries) := by
  induction hrecords generalizing front rounds with
  | nil =>
    obtain ⟨left, rfl⟩ : ∃ left, rounds = left + 1 := ⟨rounds - 1, by omega⟩
    rw [listLoop, layout, append_nil, if_pos le_rfl]
  | @cons bytes entry records entries hbytes _ ih =>
    rw [layout] at hrounds ⊢
    set gap := entryPlace front.length bytes.length - front.length
    have hle := le_entryPlace front.length bytes.length
    have hend : entryPlace front.length bytes.length + bytes.length =
        front.length + gap + bytes.length := by omega
    rw [hend] at hrounds ⊢
    have hfront : (front ++ replicate gap 0 ++ bytes).length =
        front.length + gap + bytes.length := by
      simp only [length_append, length_replicate]
    apply listLoop_gap hbytes
      ((layout 0 entryPlace (front.length + gap + bytes.length) records).length + 1) gap front
      (entryPlace_aligned _ _)
    · intro left hleft
      have hrest := @ih left (front ++ replicate gap 0 ++ bytes) (by rw [hfront]; omega)
      rw [hfront] at hrest
      simpa only [append_assoc] using hrest
    · obtain ⟨_, _, htail, -⟩ := hbytes.head
      simp only [length_append, length_replicate] at hrounds
      have hpositive : 0 < bytes.length := by
        rw [htail]
        exact succ_pos _
      omega

theorem blockBadness_lt (cpos cend : Nat) : blockBadness cpos cend < 0x7FFFFFFF := by
  have hblock : dblockSize = 32768 := rfl
  have hbound : dblockSize * (dblockSize - cpos % dblockSize) ≤ dblockSize * dblockSize :=
    mul_le_mul_left _ (sub_le _ _)
  rw [blockBadness]
  split_ifs
  · omega
  · omega
  · exact lt_of_le_of_lt (Int.ofNat_le.mpr hbound) (by decide)

variable {perm : List Nat} {i : Nat}

theorem bestBlock_spec (sizes : List Nat) (hi : i < perm.length) (cpos : Nat) :
    ∃ best < perm.length, (bestBlock sizes perm cpos i).1 = some best := by
  -- the first block is taken, since `badness` begins larger than any
  obtain ⟨rest, hrest⟩ : ∃ rest, perm.length - i = rest + 1 := ⟨perm.length - i - 1, by omega⟩
  rw [bestBlock, hrest, range'_succ, foldl_cons]
  dsimp only
  rw [if_pos (blockBadness_lt _ _)]
  have hinside : ∀ j ∈ range' (i + 1) rest, j < perm.length := by
    intro j hj
    have hmem := mem_range'_1.mp hj
    omega
  generalize range' (i + 1) rest = js at hinside
  generalize blockBadness cpos (cpos + sizes.getD (perm.getD i 0) 0) = badness
  clear hrest
  induction js generalizing i badness with
  | nil => exact ⟨i, hi, rfl⟩
  | cons j js ih =>
    rw [foldl_cons]
    have hjs : ∀ k ∈ js, k < perm.length := fun k hk => hinside k (mem_cons_of_mem _ hk)
    split_ifs
    · exact ih (hinside j mem_cons_self) hjs _
    · exact ih hi hjs _

theorem blockAlignLoop_perm (sizes : List Nat) (hrounds : i + rounds ≤ perm.length) (cpos : Nat) :
    ∃ result, blockAlignLoop sizes rounds i perm cpos = some result ∧ result.Perm perm := by
  induction rounds generalizing i perm cpos with
  | zero => exact ⟨perm, rfl, Perm.refl _⟩
  | succ rounds ih =>
    obtain ⟨best, hbest, hsome⟩ := bestBlock_spec sizes (show i < perm.length by omega) cpos
    have hswap : (swapAt perm i best).Perm perm := by
      have hi : i < perm.length := by omega
      rw [swapAt, getD_eq_getElem _ _ hi, getD_eq_getElem _ _ hbest]
      exact set_set_perm hi hbest
    have hlength := hswap.length_eq
    rw [blockAlignLoop, hsome]
    obtain ⟨result, hresult, hperm⟩ := @ih (swapAt perm i best) (i + 1) (by omega) _
    exact ⟨result, hresult, hperm.trans hswap⟩

theorem blockAlign_entries (entries : List (List UInt8)) (start : Nat) :
    ∃ perm, blockAlign (entries.map List.length) start = some perm ∧
      (perm.map fun i => entries.getD i []).Perm entries := by
  have hlength : 0 + (entries.map List.length).length ≤
      (range (entries.map List.length).length).length := by simp
  obtain ⟨perm, hperm, hrange⟩ := blockAlignLoop_perm (entries.map List.length) hlength start
  refine ⟨perm, hperm, (hrange.map _).trans ?_⟩
  have hentries : (range (entries.map List.length).length).map
      (fun i => entries.getD i []) = entries := by
    apply ext_getElem
    · simp
    · intro i hleft hright
      rw [getElem_map, getElem_range, getD_eq_getElem _ _ hright]
  rw [hentries]

/-! ## The finished directory -/

variable {md : MetaData} {ser : List UInt8} {bld : DirectoryBuilder}

section

variable {Uri : Type} {uris : UriFormat Uri} {zlib : Zlib}

def directoryBytes (ser : List UInt8) (order : List (List UInt8)) : List UInt8 :=
  directoryMagic ++ (encode 4 ser.length ++ ser) ++ layout 0 entryPlace (12 + ser.length) order

theorem fillDirectory_eq (hsized : md.Sized zlib ser) (order : List (List UInt8)) :
    fillDirectory zlib md (layoutEnd entryPlace (12 + ser.length) order) order =
      some (directoryBytes ser order, layoutEnd entryPlace (12 + ser.length) order) := by
  set packed := layout 0 entryPlace (12 + ser.length) order with hpacked
  have hend : layoutEnd entryPlace (12 + ser.length) order = 12 + ser.length + packed.length :=
    (length_layout le_entryPlace _ _).symm
  have hroom : ser.length ≤ 12 + ser.length + packed.length - 12 := by omega
  have hmagic : writeAt (replicate (12 + ser.length + packed.length) 0) 0 directoryMagic =
      some (directoryMagic ++ replicate (4 + ser.length + packed.length) (0 : UInt8)) := by
    have hwrite := writeAt_filled (0 : UInt8) [] directoryMagic 0 (4 + ser.length + packed.length)
    have hsize : 0 + directoryMagic.length + (4 + ser.length + packed.length) =
        12 + ser.length + packed.length := by
      simp only [directoryMagic, length_cons, length_nil]
      omega
    rw [hsize] at hwrite
    exact hwrite
  have hmeta : writeAt (directoryMagic ++ replicate (4 + ser.length + packed.length) 0) 12
      ser = some (directoryMagic ++ replicate 4 0 ++ ser ++ replicate packed.length (0 : UInt8)) :=
    writeAt_filled (0 : UInt8) directoryMagic ser 4 packed.length
  have hcount : writeAt (directoryMagic ++ replicate 4 0 ++ ser ++
      replicate packed.length (0 : UInt8)) 8 (encode 4 ser.length) =
      some (directoryMagic ++ (encode 4 ser.length ++ (ser ++ replicate packed.length 0))) := by
    have hwrite := writeAt_append directoryMagic (ser ++ replicate packed.length 0)
      (show (replicate 4 (0 : UInt8)).length = (encode 4 ser.length).length by simp)
    rw [show directoryMagic.length = 8 from rfl] at hwrite
    simpa only [append_assoc] using hwrite
  have hentries := writeAll_eq le_entryPlace (0 : UInt8)
    (directoryMagic ++ (encode 4 ser.length ++ ser)) order 0
  have hfront : (directoryMagic ++ (encode 4 ser.length ++ ser)).length = 12 + ser.length := by
    simp only [directoryMagic, length_append, length_cons, length_nil, length_encode]
    omega
  rw [hfront, ← hpacked, add_zero, replicate_zero, append_nil] at hentries
  rw [fillDirectory, hend, hmagic, bind_some, hsized.serialize hroom, bind_some]
  dsimp only
  rw [bind_some, hmeta, bind_some, hcount, bind_some, ← hend, directoryBytes, ← hpacked]
  exact hentries

theorem builderFinish_eq (hsize : bld.md.getSerializedSize zlib = some (some ser.length, md))
    (hsized : md.Sized zlib ser) (hcount : 8 * bld.entries.length ≤ maxMallocChecked)
    (hmemory : ∀ size, memory size = true) : ∃ order, order.Perm bld.entries ∧
      builderFinish zlib memory bld = some (.done (directoryBytes ser order)) := by
  obtain ⟨_, hperm, horder⟩ := blockAlign_entries bld.entries (12 + ser.length)
  refine ⟨_, horder, ?_⟩
  have hfold : ∀ order : List (List UInt8), order.foldl
      (fun size entry => doAlign size (size + entry.length)) (12 + ser.length) =
      layoutEnd entryPlace (12 + ser.length) order := by
    intro order
    simp only [doAlign_eq]
    rfl
  rw [builderFinish, hsize, bind_some]
  dsimp only
  rw [bind_some, if_neg (by omega), hperm, bind_some, hfold,
    if_pos (hmemory _), fillDirectory_eq hsized]
  simp

/-- The directory's own meta data is reported first and then the entries in their
order in the file. -/
theorem listContents_directoryBytes (hser : ser.length < 256 ^ 4)
    (hmd : deserialize zlib ser = some (some md)) {order : List (List UInt8)}
    (hrecords : Forall₂ (Recorded uris zlib) order entries) :
    listContents uris zlib (directoryBytes ser order) 0 =
      some (.ok, ⟨none, none, md, []⟩ :: entries) := by
  set packed := layout 0 entryPlace (12 + ser.length) order with hpacked
  have hfront : (directoryMagic ++ (encode 4 ser.length ++ ser)).length = 12 + ser.length := by
    simp only [directoryMagic, length_append, length_cons, length_nil, length_encode]
    omega
  have hbytes : directoryBytes ser order =
      directoryMagic ++ (encode 4 ser.length ++ ser) ++ packed := rfl
  have hlength : (directoryBytes ser order).length = 12 + ser.length + packed.length := by
    rw [hbytes, length_append, hfront]
  have hat : At (directoryBytes ser order) 0 (directoryMagic ++ (encode 4 ser.length ++ ser)) :=
    at_zero packed
  simp only [at_append, length_encode, show directoryMagic.length = 8 from rfl, Nat.reduceAdd] at hat
  obtain ⟨hmagic, hsize, hown⟩ := hat
  have hrounds : (layout 0 entryPlace (directoryMagic ++ (encode 4 ser.length ++ ser)).length
      order).length < (directoryBytes ser order).length + 1 := by
    rw [hfront, ← hpacked]
    omega
  have hloop := listLoop_layout hrecords (directoryMagic ++ (encode 4 ser.length ++ ser)) hrounds
  have hstart : ¬ ((directoryBytes ser order).length < 12 ∨
      (directoryBytes ser order).take 8 ≠ directoryMagic) := by
    rintro (hshort | hother)
    · omega
    · exact hother hmagic.take_drop
  rw [hfront, ← hpacked, ← hbytes] at hloop
  rw [listContents, if_pos rfl, if_neg hstart, hsize.field_eq hser]
  rw [if_neg (by omega), hown.take_drop, hmd]
  simp only [bind_some, hloop, map_some]

/-! ## What is added is reported -/

/-- The contents are among the items: as an item of their own, unless they were
there already. -/
def ContentsAdded (contents : List UInt8) (before after : List MetaItem) : Prop :=
  (∃ item ∈ before, item.Same (fullDataItem contents)) ∧ after.Perm before ∨
    after.Perm (fullDataItem contents :: before)

/-- What the texts of URIs have to be. -/
def UriFormat.Inverse (uris : UriFormat Uri) : Prop :=
  ∀ uri, uris.kind uri ≠ .ksk → uriParse uris (uris.toString uri).bytes = some uri

def Addition.contents (uris : UriFormat Uri) (add : Addition Uri) : List UInt8 :=
  (add.data.getD []).take ((inlineSize uris add).getD 0)

/-- The entry has the URI and the meta data that were given, or the meta data with
the contents. -/
structure Reports (uris : UriFormat Uri) (add : Addition Uri) (entry : DirectoryEntry Uri) :
    Prop where
  uri : entry.uri = some add.uri
  filename : entry.filename = entry.md.getByType metaTypeOriginalFilename
  md : entry.md.items = add.md.items ∧ entry.data = findFullData add.md ∨ add.contents uris ≠ [] ∧
      ContentsAdded (add.contents uris) add.md.items entry.md.items ∧
      ((∀ item ∈ add.md.items, item.type ≠ metaTypeFullData) → entry.data = add.contents uris)

theorem withFullData_spec (hvalid : md.Valid zlib)
    (hcopy : withFullData md contents = some copy) :
    copy.Valid zlib ∧ ContentsAdded contents md.items copy.items := by
  obtain ⟨duplicate, hduplicate, hcopy⟩ := bind_eq_some_iff.mp hcopy
  obtain ⟨⟨_, _⟩, hinsert, rfl⟩ := map_eq_some_iff.mp hcopy
  obtain ⟨hsame, hperm⟩ := duplicate_spec hvalid hduplicate
  have hstored : (fullDataItem contents).stored = fullDataItem contents :=
    if_neg (by simp only [fullDataItem]; decide)
  constructor
  · exact insert_valid hsame ⟨by simp [fullDataItem], by simp [fullDataItem, MetaFormat.isString]⟩
      (noClash_of_stored hstored) hinsert
  · obtain ⟨_, hloop, heq⟩ := map_eq_some_iff.mp hinsert
    cases heq
    by_cases hthere : ∃ item ∈ duplicate.items, item.Same (fullDataItem contents)
    · have hitems := insertLoop_same hsame.items.sorted rfl (by simp [fullDataItem]) hthere hloop
      obtain ⟨item, hitem, hitemSame⟩ := hthere
      refine .inl ⟨⟨item, hperm.mem_iff.mp hitem, hitemSame⟩, ?_⟩
      simpa only [hitems] using hperm
    · have hnew : ∀ item ∈ duplicate.items, ¬ item.Same (fullDataItem contents) :=
        fun item hitem hsame => hthere ⟨item, hitem, hsame⟩
      have hadded := insertLoop_perm hnew hloop
      exact .inr (hadded.trans (hperm.cons _))

/-- If the contents are the only item of their type they are what is found. -/
theorem findFullData_of_contentsAdded {items : List MetaItem}
    (hadded : ContentsAdded contents items md.items)
    (hnone : ∀ item ∈ items, item.type ≠ metaTypeFullData) : findFullData md = contents := by
  have hperm : md.items.Perm (fullDataItem contents :: items) := by
    rcases hadded with ⟨⟨item, hitem, hsame⟩, -⟩ | hperm
    · exact absurd hsame.1 (hnone item hitem)
    · exact hperm
  rw [findFullData]
  cases hfind : md.items.find? fun pos => pos.type == metaTypeFullData with
  | none =>
    have hmem : fullDataItem contents ∈ md.items := hperm.mem_iff.mpr mem_cons_self
    have hother : (fullDataItem contents).type ≠ metaTypeFullData := by
      simpa using find?_eq_none.mp hfind _ hmem
    exact absurd rfl hother
  | some pos =>
    have htype : pos.type = metaTypeFullData := by simpa using find?_some hfind
    rcases mem_cons.mp (hperm.mem_iff.mp (mem_of_find?_eq_some hfind)) with rfl | hitem
    · rfl
    · exact absurd htype (hnone pos hitem)

variable {add : Addition Uri}

theorem sizeT_le (hret : sizeT ret ≤ maxMetaSize) : ∃ size ∈ ret, sizeT ret = size := by
  cases ret with
  | none => exact absurd hret (by decide)
  | some size => exact ⟨size, rfl, rfl⟩

theorem Addition.metaUse_spec {size : Nat} (hvalid : add.md.Valid zlib)
    (huse : add.metaUse uris zlib = some (md, size)) :
    uris.kind add.uri ≠ .ksk ∧ md.Valid zlib ∧ (md.items = add.md.items ∨ add.contents uris ≠ [] ∧
        ContentsAdded (add.contents uris) add.md.items md.items) ∧
      (size ≤ maxMetaSize → ∃ ser, ser.length = size ∧ md.Sized zlib ser) := by
  obtain ⟨fsize, hfsize, huse⟩ := bind_eq_some_iff.mp huse
  obtain ⟨⟨mds, plain⟩, hplain, huse⟩ := bind_eq_some_iff.mp huse
  obtain ⟨hplainValid, hitems, hplainSize⟩ := getSerializedSize_spec hvalid hplain
  refine ⟨fun hkind => by simp [inlineSize, hkind] at hfsize, ?_⟩
  have hsized : sizeT mds ≤ maxMetaSize → ∃ ser, ser.length = sizeT mds ∧ plain.Sized zlib ser := by
    intro hsmall
    obtain ⟨n, hn, heq⟩ := sizeT_le hsmall
    rw [heq]
    exact hplainSize n hn
  dsimp only at huse
  split_ifs at huse with hzero hshort
  · cases huse
    exact ⟨hplainValid, .inl hitems, hsized⟩
  · obtain ⟨_, hfull, huse⟩ := bind_eq_some_iff.mp huse
    obtain ⟨⟨_, _⟩, hcopy, huse⟩ := map_eq_some_iff.mp huse
    obtain ⟨hfullValid, hcontents⟩ := withFullData_spec hplainValid hfull
    obtain ⟨hcopyValid, hcopyItems, hcopySize⟩ := getSerializedSize_spec hfullValid hcopy
    split_ifs at huse with hblock
    · cases huse
      have htake : add.contents uris = (add.data.getD []).take fsize := by
        rw [Addition.contents, hfsize, getD_some]
      refine ⟨hcopyValid, .inr ⟨?_, ?_⟩, fun hsmall => ?_⟩
      · rw [htake]
        intro hnil
        have hlength := congrArg List.length hnil
        rw [length_take, length_nil] at hlength
        omega
      · rw [htake, ← hitems, hcopyItems]
        exact hcontents
      · obtain ⟨n, hn, heq⟩ := sizeT_le hsmall
        rw [heq]
        exact hcopySize n hn
    · cases huse
      exact ⟨hplainValid, .inl hitems, hsized⟩

theorem MetaData.Sized.deserialize (hzlib : zlib.Inverse) (hvalid : md.Valid zlib)
    (hsized : md.Sized zlib ser) :
    ser.length < 256 ^ 4 ∧ deserialize zlib ser = some (some ⟨md.items, none⟩) := by
  have hlength := hsized.encodes.length_le
  have hsmall := hsized.small
  have hlimit : maxMallocChecked = 41943040 := rfl
  rw [← length_writeItems] at hlength
  exact ⟨by omega, deserialize_encodes hzlib hvalid.items hsized.small hsized.encodes⟩

theorem builderAdd_spec (huris : uris.Inverse) (hzlib : zlib.Inverse) (hvalid : add.md.Valid zlib)
    (hsmall : ∀ md size, add.metaUse uris zlib = some (md, size) → size ≤ maxMetaSize)
    {bld' : DirectoryBuilder} (hadd : builderAdd uris zlib bld add = some bld') :
    ∃ bytes entry, bld' = { bld with entries := bytes :: bld.entries } ∧
      Recorded uris zlib bytes entry ∧ Reports uris add entry := by
  obtain ⟨⟨md, size⟩, huse, hadd⟩ := bind_eq_some_iff.mp hadd
  obtain ⟨hkind, hmdValid, hitems, hsized⟩ := Addition.metaUse_spec hvalid huse
  have hsize := hsmall md size huse
  obtain ⟨ser, rfl, hser⟩ := hsized hsize
  obtain ⟨hlength, hdeserialize⟩ := MetaData.Sized.deserialize hzlib hmdValid hser
  dsimp only at hadd
  split_ifs at hadd with hmemory
  rw [min_eq_left hsize, hser.serialize le_rfl] at hadd
  cases hadd
  refine ⟨_, ⟨_, some add.uri, ⟨md.items, none⟩, findFullData ⟨md.items, none⟩⟩, rfl,
    ⟨add.uri, ⟨md.items, none⟩, ser, rfl, huris _ hkind, hkind, hlength, hdeserialize, rfl⟩,
    ⟨rfl, rfl, ?_⟩⟩
  rcases hitems with hsame | ⟨hne, hcontents⟩
  · exact .inl ⟨hsame, by rw [findFullData, findFullData, hsame]⟩
  · exact .inr ⟨hne, hcontents, findFullData_of_contentsAdded hcontents⟩

/-- All calls of `builder_add`: the last entry comes first. -/
theorem builderAdd_run (huris : uris.Inverse) (hzlib : zlib.Inverse) {adds : List (Addition Uri)}
    (hvalid : ∀ add ∈ adds, add.md.Valid zlib)
    (hsmall : ∀ add ∈ adds, ∀ md size, add.metaUse uris zlib = some (md, size) → size ≤ maxMetaSize)
    {bld' : DirectoryBuilder} (hbefore : Forall₂
      (fun bytes add => ∃ entry, Recorded uris zlib bytes entry ∧ Reports uris add entry)
      bld.entries before) (hadds : adds.foldlM (builderAdd uris zlib) bld = some bld') :
    bld'.md = bld.md ∧ Forall₂
      (fun bytes add => ∃ entry, Recorded uris zlib bytes entry ∧ Reports uris add entry)
      bld'.entries (adds.reverse ++ before) := by
  induction adds generalizing bld before with
  | nil =>
    cases hadds
    exact ⟨rfl, hbefore⟩
  | cons add adds ih =>
    obtain ⟨_, hnext, hrest⟩ := bind_eq_some_iff.mp hadds
    obtain ⟨_, entry, rfl, hrecorded, hreports⟩ := builderAdd_spec huris hzlib
      (hvalid add mem_cons_self) (hsmall add mem_cons_self) hnext
    have hlater := ih (fun add hadd => hvalid add (mem_cons_of_mem _ hadd))
      (fun add hadd => hsmall add (mem_cons_of_mem _ hadd))
      (Forall₂.cons ⟨entry, hrecorded, hreports⟩ hbefore) hrest
    rw [reverse_cons, append_assoc, singleton_append]
    exact hlater

theorem makeDirectory_valid (hvalid : md.Valid zlib)
    (hmake : makeDirectory md = some md') : md'.Valid zlib := by
  rw [makeDirectory] at hmake
  cases hmime : md.getByType metaTypeMimetype with
  | some mime =>
    rw [hmime] at hmake
    cases hmake
    exact hvalid
  | none =>
    rw [hmime] at hmake
    obtain ⟨⟨_, _⟩, hinsert, rfl⟩ := map_eq_some_iff.mp hmake
    apply insert_valid hvalid _ (noClash_of_stored (if_neg _)) hinsert
    · exact ⟨by simp, by simp⟩
    · decide

theorem builderCreate_valid (hmdir : ∀ md ∈ mdir, md.Valid zlib)
    (hcreate : builderCreate mdir = some bld) : bld.md.Valid zlib ∧ bld.entries = [] := by
  cases mdir with
  | none =>
    rw [builderCreate] at hcreate
    obtain ⟨md, hmake, rfl⟩ := map_eq_some_iff.mp hcreate
    exact ⟨makeDirectory_valid create_valid hmake, rfl⟩
  | some mdir =>
    obtain ⟨_, hmake, rfl⟩ := map_eq_some_iff.mp hcreate
    obtain ⟨_, hcopy, hmake⟩ := bind_eq_some_iff.mp hmake
    have hcopyValid := (duplicate_spec (hmdir mdir rfl) hcopy).1
    exact ⟨makeDirectory_valid hcopyValid hmake, rfl⟩

theorem exists_reported (hboth : Forall₂
      (fun bytes add => ∃ entry, Recorded uris zlib bytes entry ∧ Reports uris add entry)
      order adds) : ∃ entries, Forall₂ (Recorded uris zlib) order entries ∧
      Forall₂ (Reports uris) adds entries := by
  induction hboth with
  | nil => exact ⟨[], .nil, .nil⟩
  | cons hfirst _ ih =>
    obtain ⟨entry, hrecorded, hreports⟩ := hfirst
    obtain ⟨entries, hrecords, hrest⟩ := ih
    exact ⟨entry :: entries, .cons hrecorded hrecords, .cons hreports hrest⟩

/-- The directory that is built is complete, and all that was added is reported. -/
theorem built_directory_listed (huris : uris.Inverse) (hzlib : zlib.Inverse)
    {mdir : Option MetaData} (hmdir : ∀ md ∈ mdir, md.Valid zlib)
    {adds : List (Addition Uri)} (hvalid : ∀ add ∈ adds, add.md.Valid zlib)
    (hsmall : ∀ add ∈ adds, ∀ md size, add.metaUse uris zlib = some (md, size) →
      size ≤ maxMetaSize)
    {start bld : DirectoryBuilder} (hcreate : builderCreate mdir = some start)
    (hadds : adds.foldlM (builderAdd uris zlib) start = some bld)
    (hown : ∃ size md, bld.md.getSerializedSize zlib = some (some size, md))
    (hcount : 8 * adds.length ≤ maxMallocChecked)
    {memory : Nat → Bool} (hmemory : ∀ size, memory size = true) :
    ∃ data entries order, builderFinish zlib memory bld = some (.done data) ∧
      listContents uris zlib data 0 =
        some (.ok, ⟨none, none, ⟨bld.md.items, none⟩, []⟩ :: entries) ∧
      order.Perm adds ∧ Forall₂ (Reports uris) order entries := by
  obtain ⟨hstart, hempty⟩ := builderCreate_valid hmdir hcreate
  have hnone : Forall₂
      (fun bytes add => ∃ entry, Recorded uris zlib bytes entry ∧ Reports uris add entry)
      start.entries [] := by
    rw [hempty]
    exact Forall₂.nil
  obtain ⟨hmd, hentries⟩ := builderAdd_run huris hzlib hvalid hsmall hnone hadds
  rw [append_nil] at hentries
  obtain ⟨size, _, hsize⟩ := hown
  obtain ⟨hmdValid, hitems, hsized⟩ :=
    getSerializedSize_spec (hmd ▸ hstart : bld.md.Valid zlib) hsize
  obtain ⟨_, rfl, hser⟩ := hsized size rfl
  obtain ⟨hlength, hdeserialize⟩ := MetaData.Sized.deserialize hzlib hmdValid hser
  have hcount' : 8 * bld.entries.length ≤ maxMallocChecked := by
    rw [hentries.length_eq, length_reverse]
    exact hcount
  obtain ⟨_, hpacked, hfinish⟩ := builderFinish_eq hsize hser hcount' hmemory
  obtain ⟨order, horder, hperm⟩ := perm_comp_forall₂ hpacked hentries
  obtain ⟨entries, hrecords, hreports⟩ := exists_reported horder
  refine ⟨_, entries, order, hfinish, ?_, hperm.trans (reverse_perm adds), hreports⟩
  rw [← hitems]
  exact listContents_directoryBytes hlength hdeserialize hrecords

end

/-! ## Examples -/

def twoUris : UriFormat Bool where
  kind file := if file then .chk 3 else .sks
  toString file := .read (if file then ascii "gnunet://fs/chk/" ++ replicate 209 65
    else ascii "gnunet://fs/sks/a")
  chkParse _ := some true
  kskParse _ := none
  sksParse _ := some false
  locParse _ := none

theorem twoUris_inverse : twoUris.Inverse := by
  intro file _
  cases file with
  | _ => decide +kernel

def titled : MetaData :=
  ⟨[title], none⟩

theorem titled_valid (zlib : Zlib) : titled.Valid zlib :=
  ⟨⟨pairwise_singleton _ _, pairwise_singleton _ _, by decide +kernel,
    by decide +kernel⟩, by simp [titled]⟩

def twoAdditions : List (Addition Bool) :=
  [⟨false, titled, none⟩, ⟨true, titled, some [1, 2, 3]⟩]

theorem built_directory_listed_two :
    ∃ start bld, builderCreate none = some start ∧
      twoAdditions.foldlM (builderAdd twoUris trimming) start = some bld ∧
      ∃ data entries order,
        builderFinish trimming (fun _ => true) bld = some (.done data) ∧
        listContents twoUris trimming data 0 =
          some (.ok, ⟨none, none, ⟨bld.md.items, none⟩, []⟩ :: entries) ∧
        order.Perm twoAdditions ∧ Forall₂ (Reports twoUris) order entries := by
  have hrun : ((builderCreate none).bind fun start =>
      (twoAdditions.foldlM (builderAdd twoUris trimming) start).bind fun bld =>
      (bld.md.getSerializedSize trimming).bind Prod.fst).isSome = true := by
    decide +kernel
  obtain ⟨size, hsome⟩ := isSome_iff_exists.mp hrun
  obtain ⟨start, hcreate, hsome⟩ := bind_eq_some_iff.mp hsome
  obtain ⟨bld, hadds, hsome⟩ := bind_eq_some_iff.mp hsome
  obtain ⟨⟨_, md⟩, hsize, rfl⟩ := bind_eq_some_iff.mp hsome
  have hsmall : ∀ add ∈ twoAdditions,
      (add.metaUse twoUris trimming).all (fun use => use.2 ≤ maxMetaSize) = true := by
    decide +kernel
  refine ⟨start, bld, hcreate, hadds, built_directory_listed twoUris_inverse trimming_inverse
    (by simp) ?_ ?_ hcreate hadds ⟨size, md, hsize⟩ (by decide) (fun _ => rfl)⟩
  · intro add hadd
    rcases mem_cons.mp hadd with rfl | hadd
    · exact titled_valid trimming
    · rcases mem_singleton.mp hadd with rfl
      exact titled_valid trimming
  · intro add hadd md size huse
    simpa [huse] using hsmall add hadd

def storing : Zlib where
  bound _ := 0
  compress2 _ _ := none
  uncompress _ _ := none

def binaryItem (data : List UInt8) : MetaItem :=
  ⟨none, none, data, 45, .binary⟩

theorem size_binaryItem : (binaryItem data).size = 20 + data.length := by
  simp only [binaryItem, MetaItem.size, stringSize, add_zero]

theorem binaryItem_valid (data : List UInt8) :
    MetaData.Valid storing ⟨[binaryItem data], none⟩ := by
  refine ⟨⟨pairwise_singleton _ _, pairwise_singleton _ _, ?_, ?_⟩, by simp⟩
  · intro item hitem
    rw [mem_singleton.mp hitem]
    exact if_neg (by simp only [binaryItem]; decide)
  · intro item hitem
    rw [mem_singleton.mp hitem]
    exact ⟨by simp [binaryItem], by simp [binaryItem, MetaFormat.isString]⟩

section

variable (data : List UInt8)

def storedItem : List UInt8 :=
  pack none 1 (20 + data.length) (writeItems [binaryItem data])

theorem length_storedItem : (storedItem data).length = 32 + data.length := by
  rw [storedItem, pack, length_append, length_header, length_writeItems, map_singleton,
    sum_singleton, size_binaryItem]
  omega

theorem serializeLoop_binaryItem {max : Nat} {sbuf : Option (List UInt8)} :
    serializeLoop storing given max opt (writeItems [binaryItem data]) 0 (20 + data.length) sbuf
        [binaryItem data] = if sbuf = none ∧ maxMallocChecked < 20 + data.length + 12 then none
      else if 20 + data.length + 12 ≤ max then
        (copyOut given max (storedItem data)).map fun target =>
          (some target, if sbuf = none then some (storedItem data) else sbuf) else if opt.part then
        some (some (header 2 0 0), if sbuf = none then some (storedItem data) else sbuf)
      else some (none, if sbuf = none then some (storedItem data) else sbuf) := by
  have hblock : ((writeItems [binaryItem data]).drop (20 * 0)).take (20 + data.length) =
      writeItems [binaryItem data] := by
    rw [mul_zero, drop_zero]
    apply take_of_length_le
    rw [length_writeItems, map_singleton, sum_singleton, size_binaryItem]
  have hcompress : ∀ block, compressBlock storing opt block = some none := by
    intro block
    rw [compressBlock]
    split_ifs
    · rfl
    · rfl
  simp only [hblock, hcompress, bind_some, true_and, and_true, any_none,
    Bool.false_eq_true, or_false, serializeLoop, length_nil, zero_add]
  rfl

theorem getSerializedSize_binaryItem (hlength : data.length + 32 ≤ maxMallocChecked) :
    getSerializedSize storing ⟨[binaryItem data], none⟩ =
      some (some (32 + data.length), ⟨[binaryItem data], some (storedItem data)⟩) := by
  have hstored := length_storedItem data
  rw [getSerializedSize]
  simp only [serialize, serializeItems, map_singleton, sum_singleton, size_binaryItem]
  rw [if_neg (by decide), if_neg (by omega), serializeLoop_binaryItem, if_neg (by omega),
    if_pos (by omega), copyOut_of_le (by omega) (by omega)]
  simp only [map_some, if_true, hstored]

/-- Behind the limit for the meta data of an entry, an item is left out. -/
theorem builderAdd_binaryItem (hlarge : maxMetaSize < data.length + 32)
    (hlength : data.length + 32 ≤ maxMallocChecked) (bld : DirectoryBuilder) :
    builderAdd twoUris storing bld ⟨false, ⟨[binaryItem data], none⟩, none⟩ =
      some ⟨bld.md, entryBytes (twoUris.toString false) (header 2 0 0) :: bld.entries⟩ := by
  have huse : Addition.metaUse twoUris storing ⟨false, ⟨[binaryItem data], none⟩, none⟩ =
      some (⟨[binaryItem data], some (storedItem data)⟩, 32 + data.length) := by
    have hinline : inlineSize twoUris ⟨false, ⟨[binaryItem data], none⟩, none⟩ = some 0 := rfl
    rw [Addition.metaUse, hinline, bind_some, metaUse,
      getSerializedSize_binaryItem data hlength, bind_some]
    rfl
  have hstored := length_storedItem data
  have hpart : serialize storing true maxMetaSize ⟨true, false⟩
      ⟨[binaryItem data], some (storedItem data)⟩ =
      some (some (header 2 0 0), ⟨[binaryItem data], some (storedItem data)⟩) := by
    simp only [serialize, serializeItems, map_singleton, sum_singleton, size_binaryItem]
    rw [if_neg (by decide), if_neg (by omega), if_pos trivial, if_neg (by omega),
      serializeLoop_binaryItem, if_neg (by simp), if_neg (by omega), if_pos rfl]
    rfl
  have hmemory : ¬ maxMallocChecked <
      sizeofBuilderEntry + ((twoUris.toString false).bytes.length + 1) + maxMetaSize + 4 := by
    decide +kernel
  rw [builderAdd, huse, bind_some]
  dsimp only
  rw [min_eq_right (by omega), if_neg hmemory, hpart]
  rfl

end

/-- 21 MiB of the high bytes of a linear congruential generator: zlib makes them longer. -/
def noise : List UInt8 :=
  (List.iterate (fun seed : UInt32 => 1664525 * seed + 1013904223) 1 (21 * 2 ^ 20)).map
    fun seed : UInt32 => (seed >>> 24).toUInt8

theorem length_noise : noise.length = 21 * 2 ^ 20 := by
  rw [noise, length_map, length_iterate]

def largeMeta : MetaData :=
  ⟨[binaryItem noise], none⟩

/-- The meta data can be serialized, but the entry is reported without any. -/
theorem large_meta_data_left_out :
    largeMeta.Valid storing ∧
    (∃ md, largeMeta.getSerializedSize storing = some (some (32 + 21 * 2 ^ 20), md)) ∧
    ∃ start bld data, builderCreate none = some start ∧
      builderAdd twoUris storing start ⟨false, largeMeta, none⟩ = some bld ∧
      builderFinish storing (fun _ => true) bld = some (.done data) ∧
      listContents twoUris storing data 0 =
        some (.ok, [⟨none, none, ⟨bld.md.items, none⟩, []⟩,
          ⟨none, some false, ⟨[], none⟩, []⟩]) := by
  have hlimit : maxMallocChecked = 41943040 := rfl
  have hhalf : maxMetaSize = 20971520 := rfl
  have hsize := getSerializedSize_binaryItem noise (by rw [length_noise]; omega)
  rw [length_noise] at hsize
  refine ⟨binaryItem_valid _, ⟨_, hsize⟩, ?_⟩
  have hcreate : ((builderCreate none).bind fun start =>
      (start.md.getSerializedSize storing).bind Prod.fst).isSome = true := by
    decide +kernel
  obtain ⟨size, hsome⟩ := isSome_iff_exists.mp hcreate
  obtain ⟨start, hstart, hsome⟩ := bind_eq_some_iff.mp hsome
  obtain ⟨⟨_, md⟩, hown, rfl⟩ := bind_eq_some_iff.mp hsome
  have hcreated : start.md.Valid storing ∧ start.entries = [] :=
    builderCreate_valid (by simp) hstart
  obtain ⟨hvalid, hempty⟩ := hcreated
  obtain ⟨hmdValid, hitems, hsized⟩ := getSerializedSize_spec hvalid hown
  obtain ⟨ser, rfl, hser⟩ := hsized size rfl
  obtain ⟨hshort, hdeserialize⟩ := MetaData.Sized.deserialize (by rintro _ _ _ ⟨⟩) hmdValid hser
  have hadd := builderAdd_binaryItem noise
    (by rw [length_noise]; omega) (by rw [length_noise]; omega) start
  rw [hempty] at hadd
  set bld : DirectoryBuilder :=
    ⟨start.md, [entryBytes (twoUris.toString false) (header 2 0 0)]⟩ with hbld
  have hbuilt : bld.md.getSerializedSize storing = some (some ser.length, md) := hown
  obtain ⟨_, horder, hfinish⟩ :=
    builderFinish_eq hbuilt hser (show 8 * 1 ≤ maxMallocChecked by decide) (fun _ => rfl)
  refine ⟨start, bld, _, hstart, hadd, hfinish, ?_⟩
  rw [perm_singleton.mp horder, hbld, ← hitems]
  apply listContents_directoryBytes hshort hdeserialize
  refine .cons ⟨false, ⟨[], none⟩, header 2 0 0, rfl, ?_, by decide, by simp, ?_, rfl⟩ .nil
  · exact twoUris_inverse false (by decide)
  · decide +kernel

end Gnunet.Fs
