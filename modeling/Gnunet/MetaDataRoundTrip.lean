import Gnunet.MetaData
import Gnunet.OffsetParser
import Gnunet.TwoEndedLayout

/-!
# Meta data is read as it was written

The items of a container are sorted by size and differ from each other, as long
as no file name is inserted that becomes equal to another one when its
separators are changed.  What is written for them is read item by item, and
each item goes behind those before it.  A cached serialization is that of the
items in the container.
-/

namespace Gnunet.Container

open BigEndian OffsetParser TwoEndedLayout List Option MetaItem MetaData Protocol

/-! ## The items of a container -/

/-- What the caller of `insert` has to give: a known format, and a string that
ends where the format says so. -/
structure MetaItem.Proper (item : MetaItem) : Prop where
  format : item.format ≠ .unknown
  terminated : item.format.isString = true → item.data.getLast? = some 0

def MetaItem.Same (a b : MetaItem) : Prop :=
  a.type = b.type ∧ a.data = b.data

structure Readable (items : List MetaItem) : Prop where
  sorted : items.Pairwise fun a b => b.data.length ≤ a.data.length
  distinct : items.Pairwise fun a b => ¬ a.Same b
  stored : ∀ item ∈ items, item.stored = item
  proper : ∀ item ∈ items, item.Proper

theorem Readable.nil : Readable [] := ⟨.nil, .nil, by simp, by simp⟩

variable {items : List MetaItem}

theorem Readable.sublist {fewer : List MetaItem} (hitems : Readable items)
    (hfewer : fewer.Sublist items) : Readable fewer where
  sorted := hitems.sorted.sublist hfewer
  distinct := hitems.distinct.sublist hfewer
  stored item hitem := hitems.stored item (hfewer.subset hitem)
  proper item hitem := hitems.proper item (hfewer.subset hitem)

/-- The new item is not one that is there already, except that its separators
have to be changed. -/
def NoClash (items : List MetaItem) (new : MetaItem) : Prop :=
  ∀ item ∈ items, item.type = new.type → item.data = new.stored.data → new.stored.data = new.data

@[simp] theorem length_posixSeparators (data : List UInt8) :
    (posixSeparators data).length = data.length := by
  induction data with
  | nil => rfl
  | cons byte rest ih =>
    rw [posixSeparators]
    split
    · rfl
    · rw [length_cons, length_cons, ih]

theorem posixSeparators_idem (data : List UInt8) :
    posixSeparators (posixSeparators data) = posixSeparators data := by
  induction data with
  | nil => rfl
  | cons byte rest ih =>
    by_cases hzero : byte = 0
    · simp [posixSeparators, hzero]
    · by_cases hback : byte = 92
      · simp [posixSeparators, hback, ih]
      · simp [posixSeparators, hzero, hback, ih]

theorem getLast?_posixSeparators {data : List UInt8} (hlast : data.getLast? = some 0) :
    (posixSeparators data).getLast? = some 0 := by
  induction data with
  | nil => cases hlast
  | cons byte rest ih =>
    rw [posixSeparators]
    split
    · exact hlast
    next hbyte =>
      cases rest with
      | nil => exact absurd (Option.some.inj hlast) hbyte
      | cons next rest =>
        have hrest := ih hlast
        rw [getLast?_cons, hrest]
        rfl

variable {new pos : MetaItem}

namespace MetaItem

variable (item : MetaItem)

@[simp] theorem stored_type : item.stored.type = item.type := by
  unfold stored
  split
  · rfl
  · rfl

@[simp] theorem length_stored_data : item.stored.data.length = item.data.length := by
  unfold stored
  split
  · exact length_posixSeparators item.data
  · rfl

theorem stored_stored : item.stored.stored = item.stored := by
  by_cases hname : item.type = metaTypeFilename ∨ item.type = metaTypeOriginalFilename
  · simp [stored, hname, posixSeparators_idem]
  · simp [stored, hname]

variable {item}

theorem Proper.stored (hproper : item.Proper) : item.stored.Proper := by
  unfold MetaItem.stored
  split
  · exact ⟨hproper.format, fun hstring =>
      getLast?_posixSeparators (hproper.terminated hstring)⟩
  · exact hproper

theorem stored_eq_iff : item.stored = item ↔
    (item.type = metaTypeFilename ∨ item.type = metaTypeOriginalFilename →
      posixSeparators item.data = item.data) := by
  by_cases hname : item.type = metaTypeFilename ∨ item.type = metaTypeOriginalFilename
  · rw [stored, if_pos hname]
    exact ⟨fun hitem _ => congrArg data hitem, fun hdata => by rw [hdata hname]⟩
  · rw [stored, if_neg hname]
    exact iff_of_true rfl fun h => absurd h hname

theorem amend_spec (hamend : pos.amend new = some amended) :
    amended.Same pos ∧ (pos.stored = pos → amended.stored = amended) ∧
      (pos.Proper → amended.Proper) := by
  unfold amend at hamend
  split at hamend
  · cases hamend
  · cases hamend
    refine ⟨⟨rfl, rfl⟩, ?_, ?_⟩
    · intro hstored
      have hseparators := stored_eq_iff.mp hstored
      exact stored_eq_iff.mpr hseparators
    · intro hproper
      split
      next hformats =>
        refine ⟨MetaFormat.noConfusion, fun _ => hproper.terminated ?_⟩
        rw [hformats.1]
        rfl
      · exact ⟨hproper.format, hproper.terminated⟩

theorem amend_unchanged (hamend : pos.amend new = some amended)
    (hkept : ((pos.mimeType.isNone && new.mimeType.isSome) ||
      (pos.format == .cString && new.format == .utf8)) = false) : amended = pos := by
  obtain ⟨hmime, hformat⟩ := Bool.or_eq_false_iff.mp hkept
  have hor : pos.mimeType.or new.mimeType = pos.mimeType := by
    cases hpos : pos.mimeType with
    | some mimeType => rfl
    | none =>
      rw [hpos] at hmime
      simpa using hmime
  have hformats : ¬ (pos.format = .cString ∧ new.format = .utf8) := fun ⟨hold, hnew⟩ => by
    simp [hold, hnew] at hformat
  rw [amend, hor, if_neg hformats] at hamend
  split at hamend
  · cases hamend
  · exact (Option.some.inj hamend).symm

theorem Same.refl (a : MetaItem) : a.Same a := ⟨rfl, rfl⟩

end MetaItem

theorem newItem_eq (hnew : newItem new = some item) : item = new.stored := by
  unfold newItem at hnew
  split at hnew
  · exact (Option.some.inj hnew).symm
  · cases hnew

variable {inserted : Inserted}

/-- The new item goes in front of the first shorter one, unless one that is the
same comes before; that one is amended. -/
theorem insertLoop_cases (hinsert : insertLoop new items = some inserted) :
    ∃ front back, items = front ++ back ∧
      (∀ pos ∈ front, new.data.length ≤ pos.data.length ∧ ¬ pos.Same new) ∧
      (inserted.items = front ++ new.stored :: back ∧ inserted.changed = true ∧
          (∀ pos ∈ back.head?, pos.data.length < new.data.length) ∨
        ∃ pos rest amended, back = pos :: rest ∧ pos.Same new ∧
          inserted.items = front ++ amended :: rest ∧ pos.amend new = some amended ∧
          (inserted.changed = false → amended = pos)) := by
  induction items generalizing inserted with
  | nil =>
    obtain ⟨item, hitem, rfl⟩ := map_eq_some_iff.mp hinsert
    rw [newItem_eq hitem]
    exact ⟨[], [], rfl, by simp, .inl ⟨rfl, rfl, by simp⟩⟩
  | cons pos rest ih =>
    simp only [insertLoop] at hinsert
    split at hinsert
    next hshort =>
      obtain ⟨item, hitem, rfl⟩ := map_eq_some_iff.mp hinsert
      rw [newItem_eq hitem]
      exact ⟨[], pos :: rest, rfl, by simp, .inl ⟨rfl, rfl, by simpa using hshort⟩⟩
    next hlong =>
      split at hinsert
      next hsame =>
        obtain ⟨item, hitem, rfl⟩ := map_eq_some_iff.mp hinsert
        exact ⟨[], pos :: rest, rfl, by simp,
          .inr ⟨pos, rest, item, rfl, hsame, rfl, hitem, amend_unchanged hitem⟩⟩
      next hother =>
        obtain ⟨_, hmore, rfl⟩ := map_eq_some_iff.mp hinsert
        obtain ⟨front, back, rfl, hfront, hcases⟩ := ih hmore
        refine ⟨pos :: front, back, rfl, forall_mem_cons.mpr ⟨⟨not_lt.mp hlong, hother⟩, hfront⟩, ?_⟩
        rcases hcases with ⟨hitems, hend⟩ | ⟨same, behind, amended, hback, hsame, hitems, hend⟩
        · exact .inl ⟨congrArg (pos :: ·) hitems, hend⟩
        · exact .inr ⟨same, behind, amended, hback, hsame, congrArg (pos :: ·) hitems, hend⟩

/-- Every item after an insertion is the new one or one that was there, with
the same data. -/
theorem insertLoop_mem (hinsert : insertLoop new items = some inserted) :
    ∀ b ∈ inserted.items, b = new.stored ∨ ∃ a ∈ items, b.Same a ∧
      (a.stored = a → b.stored = b) ∧ (a.Proper → b.Proper) := by
  have hself : ∀ b ∈ items, ∃ a ∈ items, b.Same a ∧ (a.stored = a → b.stored = b) ∧
      (a.Proper → b.Proper) := fun b hb => ⟨b, hb, .refl b, id, id⟩
  obtain ⟨_, _, rfl, -, ⟨hitems, -⟩ | ⟨pos, _, _, rfl, -, hitems, hamend, -⟩⟩ :=
    insertLoop_cases hinsert
  · rw [hitems]
    intro b hb
    rcases mem_cons.mp (perm_middle.mem_iff.mp hb) with rfl | hold
    · exact .inl rfl
    · exact .inr (hself b hold)
  · rw [hitems]
    intro b hb
    rcases mem_cons.mp (perm_middle.mem_iff.mp hb) with rfl | hold
    · exact .inr ⟨pos, mem_append_right _ mem_cons_self, amend_spec hamend⟩
    · exact .inr (hself b (perm_middle.mem_iff.mpr (mem_cons_of_mem _ hold)))

theorem forall_shorter (hsorted : items.Pairwise fun a b => b.data.length ≤ a.data.length)
    (hhead : ∀ pos ∈ items.head?, pos.data.length < n) : ∀ b ∈ items, b.data.length < n := by
  cases items with
  | nil => simp
  | cons pos rest =>
    have hpos : pos.data.length < n := hhead pos rfl
    exact forall_mem_cons.mpr ⟨hpos, fun b hb => ((pairwise_cons.mp hsorted).1 b hb).trans_lt hpos⟩

theorem insertLoop_pairwise (hsorted : items.Pairwise fun a b => b.data.length ≤ a.data.length)
    (hdistinct : items.Pairwise fun a b => ¬ a.Same b) (hclash : NoClash items new)
    (hinsert : insertLoop new items = some inserted) :
    inserted.items.Pairwise (fun a b => b.data.length ≤ a.data.length) ∧
      inserted.items.Pairwise fun a b => ¬ a.Same b := by
  obtain ⟨_, _, rfl, hfront, ⟨hitems, -, hhead⟩ |
    ⟨_, _, _, rfl, -, hitems, hamend, -⟩⟩ := insertLoop_cases hinsert
  · obtain ⟨hfrontSorted, hbackSorted, hsorted⟩ := pairwise_append.mp hsorted
    obtain ⟨hfrontDistinct, hbackDistinct, hdistinct⟩ := pairwise_append.mp hdistinct
    have hback := forall_shorter hbackSorted hhead
    rw [← length_stored_data new] at hback
    rw [hitems]
    refine ⟨pairwise_append.mpr ⟨hfrontSorted, pairwise_cons.mpr ⟨fun b hb => (hback b hb).le,
      hbackSorted⟩, fun a ha => forall_mem_cons.mpr ⟨?_, hsorted a ha⟩⟩,
      pairwise_append.mpr ⟨hfrontDistinct, pairwise_cons.mpr ⟨fun b hb hsame => ?_,
      hbackDistinct⟩, fun a ha => forall_mem_cons.mpr ⟨fun hsame => ?_, hdistinct a ha⟩⟩⟩
    · rw [length_stored_data]
      exact (hfront a ha).1
    · exact (hback b hb).ne (congrArg List.length hsame.2.symm)
    · rw [MetaItem.Same, stored_type] at hsame
      exact (hfront a ha).2 ⟨hsame.1,
        hsame.2.trans (hclash a (mem_append_left _ ha) hsame.1 hsame.2)⟩
  · obtain ⟨⟨htype, hdata⟩, -, -⟩ := amend_spec hamend
    simp only [hitems, pairwise_append, pairwise_cons, forall_mem_cons, MetaItem.Same, htype,
      hdata] at hsorted hdistinct ⊢
    exact ⟨hsorted, hdistinct⟩

theorem insertLoop_readable (hitems : Readable items) (hproper : new.Proper)
    (hclash : NoClash items new) (hinsert : insertLoop new items = some inserted) :
    Readable inserted.items := by
  obtain ⟨hsorted, hdistinct⟩ := insertLoop_pairwise hitems.sorted hitems.distinct hclash hinsert
  refine ⟨hsorted, hdistinct, fun b hb => ?_, fun b hb => ?_⟩
  · rcases insertLoop_mem hinsert b hb with rfl | ⟨a, ha, -, hstored, -⟩
    · exact new.stored_stored
    · exact hstored (hitems.stored a ha)
  · rcases insertLoop_mem hinsert b hb with rfl | ⟨a, ha, -, -, hkeep⟩
    · exact hproper.stored
    · exact hkeep (hitems.proper a ha)

theorem insertLoop_unchanged (hinsert : insertLoop new items = some inserted)
    (hkept : inserted.changed = false) : inserted.items = items := by
  obtain ⟨_, _, rfl, -, ⟨-, hchanged, -⟩ | ⟨_, _, _, rfl, -, hitems, -, hpos⟩⟩ :=
    insertLoop_cases hinsert
  · cases hchanged.symm.trans hkept
  · rw [hitems, hpos hkept]

theorem insertLoop_perm (hnew : ∀ pos ∈ items, ¬ pos.Same new)
    (hinsert : insertLoop new items = some inserted) :
    inserted.items.Perm (new.stored :: items) := by
  obtain ⟨_, _, rfl, -, ⟨hitems, -⟩ | ⟨pos, _, _, rfl, hsame, -⟩⟩ := insertLoop_cases hinsert
  · rw [hitems]
    exact perm_middle
  · exact absurd hsame (hnew pos (mem_append_right _ mem_cons_self))

/-- An item that is there already, and says nothing new about it, is not added. -/
theorem insertLoop_same (hsorted : items.Pairwise fun a b => b.data.length ≤ a.data.length)
    (hmime : new.mimeType = none) (hformat : new.format ≠ .utf8)
    (hsame : ∃ pos ∈ items, pos.Same new) (hinsert : insertLoop new items = some inserted) :
    inserted.items = items := by
  obtain ⟨_, _, rfl, hfront, ⟨-, -, hhead⟩ |
    ⟨pos, _, _, rfl, -, hitems, hamend, -⟩⟩ := insertLoop_cases hinsert
  · obtain ⟨pos, hpos, hsame⟩ := hsame
    rcases mem_append.mp hpos with hpos | hpos
    · exact absurd hsame (hfront pos hpos).2
    · have hshorter := forall_shorter (pairwise_append.mp hsorted).2.1 hhead pos hpos
      exact absurd (congrArg List.length hsame.2) hshorter.ne
  · rw [hitems, amend_unchanged hamend (by simp [hmime, hformat])]

/-! ## Reading what was written -/

@[simp] theorem length_stringBytes : (stringBytes string).length = stringSize string := by
  cases string with
  | none => rfl
  | some string => simp [stringBytes, stringSize, CString.terminated]

@[simp] theorem MetaItem.length_entry (pos : MetaItem) : pos.entry.length = 20 := by
  simp [entry]

theorem MetaItem.length_payload (pos : MetaItem) : 20 + pos.payload.length = pos.size := by
  simp only [payload, size, length_append, length_stringBytes]
  omega

theorem writeItems_eq : writeItems items = layout entry payload items := by
  rw [writeItems, foldl_eq_stack, append_nil, layout]

theorem length_writeItems (items : List MetaItem) :
    (writeItems items).length = (items.map size).sum := by
  rw [writeItems_eq, length_layout]
  simp only [length_entry, length_payload]

theorem readString_eq (hat : At buf off (stringBytes string)) :
    readString buf off (stringSize string) = some string := by
  obtain ⟨front, back, rfl, rfl⟩ := hat
  cases string with
  | none => rfl
  | some string =>
    have hlast : (front ++ (string.terminated ++ back)).getD
        (front.length + (string.bytes.length + 1) - 1) 0 = 0 := by
      simp [CString.terminated]
    rw [readString, stringSize, if_neg (Nat.succ_ne_zero _), stringBytes,
      if_neg (not_not.mpr hlast), drop_left, CString.read_terminated]

theorem formatOf_code {format : MetaFormat} (hformat : format ≠ .unknown) :
    formatOf format.code = some format := by
  cases format with
  | unknown => exact absurd rfl hformat
  | _ => rfl

variable {before : List UInt8} {i : Nat}

theorem entry_fields (hsize : pos.size < maxMallocChecked) (hat : At buf off pos.entry) :
    field buf off 4 = pos.type.toNat ∧ field buf (off + 4) 4 = pos.format.code ∧
      field buf (off + 8) 4 = pos.data.length ∧
      field buf (off + 12) 4 = stringSize pos.pluginName ∧
      field buf (off + 16) 4 = stringSize pos.mimeType := by
  have hlimit : maxMallocChecked < 256 ^ 4 := by decide
  have hcode : pos.format.code < 256 ^ 4 := by
    cases pos.format with
    | _ => decide
  unfold size at hsize
  simp only [entry, at_append, length_encode, Nat.add_assoc, Nat.reduceAdd] at hat
  obtain ⟨htype, hformat, hdlen, hplen, hmlen⟩ := hat
  exact ⟨htype.field_eq pos.type.toNat_lt, hformat.field_eq hcode, hdlen.field_eq (by omega),
    hplen.field_eq (by omega), hmlen.field_eq (by omega)⟩

theorem readEntry_eq (hproper : pos.Proper) (hsize : pos.size < maxMallocChecked)
    (hentry : At ent (20 * i) pos.entry) (hpayload : At buf off pos.payload)
    (hleft : left = off + pos.payload.length) : readEntry ent buf i left = some (pos, off) := by
  obtain ⟨htype, hformat, hdlen, hplen, hmlen⟩ := entry_fields hsize hentry
  simp only [payload, at_append, length_stringBytes] at hpayload
  obtain ⟨hmime, hplugin, hdata⟩ := hpayload
  have hlast : ¬ (pos.format.isString = true ∧ pos.data.getLast? ≠ some 0) :=
    fun ⟨hstring, hne⟩ => hne (hproper.terminated hstring)
  simp only [payload, length_append, length_stringBytes] at hleft
  have hleft1 : left - pos.data.length =
      off + stringSize pos.mimeType + stringSize pos.pluginName := by omega
  have hleft2 : off + stringSize pos.mimeType + stringSize pos.pluginName -
      stringSize pos.pluginName = off + stringSize pos.mimeType := by omega
  have hleft3 : off + stringSize pos.mimeType - stringSize pos.mimeType = off := by omega
  simp only [readEntry, hformat, formatOf_code hproper.format, bind_some, hdlen, hplen,
    hmlen, htype, UInt32.ofNat_toNat]
  rw [if_neg (by omega), hleft1, hdata.take_drop, if_neg hlast, if_neg (by omega), hleft2,
    readString_eq hplugin, bind_some, if_neg (by omega), hleft3, readString_eq hmime, map_some]

theorem insertLoop_append {item : MetaItem} (hsize : item.size < maxMallocChecked)
    (hstored : item.stored = item) (hsorted : ∀ a ∈ items, item.data.length ≤ a.data.length)
    (hdistinct : ∀ a ∈ items, ¬ a.Same item) :
    insertLoop item items = some ⟨.ok, true, items ++ [item]⟩ := by
  induction items with
  | nil =>
    unfold size at hsize
    rw [insertLoop, newItem, if_pos ⟨by omega, by omega, by omega⟩, hstored]
    rfl
  | cons pos rest ih =>
    have hrest := ih (fun a ha => hsorted a (mem_cons_of_mem _ ha))
      (fun a ha => hdistinct a (mem_cons_of_mem _ ha))
    have hlong := hsorted pos mem_cons_self
    have hother : ¬ (pos.type = item.type ∧ pos.data = item.data) := hdistinct pos mem_cons_self
    rw [insertLoop, if_neg (by omega), if_neg hother, hrest]
    rfl

theorem readLoop_eq (hitems : Readable (done ++ items))
    (hsize : ∀ item ∈ items, item.size < maxMallocChecked) (hbefore : before.length = 20 * i)
    (behind back : List UInt8) : readLoop (before ++ (items.flatMap entry ++ behind))
        (stack payload items ++ back) items.length i (stack payload items).length ⟨done, none⟩ =
      some ⟨done ++ items, none⟩ := by
  induction items generalizing done before i back with
  | nil => simp [readLoop]
  | cons pos rest ih =>
    have hassoc : done ++ pos :: rest = (done ++ [pos]) ++ rest := by simp
    have hrest := ih (hassoc ▸ hitems) (fun item hitem => hsize item (by simp [hitem]))
      (show (before ++ pos.entry).length = 20 * (i + 1) by simp [hbefore]; omega)
      (pos.payload ++ back)
    have hpos : pos ∈ done ++ pos :: rest := by simp
    have hentry := readEntry_eq (hitems.proper pos hpos) (hsize pos mem_cons_self)
      ⟨before, rest.flatMap entry ++ behind, rfl, hbefore.symm⟩ ⟨stack payload rest, back, rfl, rfl⟩
      rfl
    obtain ⟨-, -, hsorted⟩ := pairwise_append.mp hitems.sorted
    obtain ⟨-, -, hdistinct⟩ := pairwise_append.mp hitems.distinct
    have hinsert := insertLoop_append (hsize pos mem_cons_self)
      (hitems.stored pos hpos) (fun a ha => hsorted a ha pos mem_cons_self)
      (fun a ha => hdistinct a ha pos mem_cons_self)
    simp only [append_assoc] at hrest
    simp only [length_cons, readLoop, stack, flatMap_cons, append_assoc,
      length_append, hentry, MetaData.insert, hinsert]
    exact hrest

/-- What zlib has to do: give back what was compressed. -/
def Zlib.Inverse (zlib : Zlib) : Prop :=
  ∀ data capacity cdata, zlib.compress2 data capacity = some cdata →
    zlib.uncompress cdata data.length = some data

def Encodes (zlib : Zlib) (items : List MetaItem) (bytes : List UInt8) : Prop :=
  ∃ comp : Option (List UInt8), (∀ cdata ∈ comp, cdata.length < (writeItems items).length ∧
      ∃ capacity, zlib.compress2 (writeItems items) capacity = some cdata) ∧
    bytes = pack comp items.length (writeItems items).length (writeItems items)

@[simp] theorem length_header (version entries size : Nat) :
    (header version entries size).length = 12 := by
  simp [header]

theorem header_fields {size : Nat} (hversion : version < 256 ^ 4) (hentries : entries < 256 ^ 4)
    (hsize : size < 256 ^ 4) (hat : At buf 0 (header version entries size)) :
    field buf 0 4 = version ∧ field buf 4 4 = entries ∧ field buf 8 4 = size := by
  simp only [header, at_append, length_encode, Nat.reduceAdd] at hat
  obtain ⟨h0, h4, h8⟩ := hat
  exact ⟨h0.field_eq hversion, h4.field_eq hentries, h8.field_eq hsize⟩

theorem length_stack_payload (items : List MetaItem) :
    20 * items.length + (stack payload items).length = (writeItems items).length := by
  have hentries : (items.flatMap entry).length = 20 * items.length := by
    simp [length_flatMap, Nat.mul_comm]
  rw [writeItems_eq, layout, length_append, hentries]

theorem readLoop_writeItems (hitems : Readable items)
    (hsize : (writeItems items).length < maxMallocChecked) :
    readLoop (writeItems items) ((writeItems items).drop (20 * items.length)) items.length 0
      ((writeItems items).length - 20 * items.length) .create = some ⟨items, none⟩ := by
  have hlength := length_stack_payload items
  have heach : ∀ item ∈ items, item.size < maxMallocChecked := fun item hitem =>
    (single_le_sum (by simp) _ (mem_map_of_mem hitem)).trans_lt (length_writeItems items ▸ hsize)
  have hloop := readLoop_eq (show Readable ([] ++ items) from hitems) heach
    (show ([] : List UInt8).length = 20 * 0 from rfl) (stack payload items) []
  have hdrop : (writeItems items).drop (20 * items.length) = stack payload items := by
    rw [writeItems_eq, layout]
    exact drop_left' (by simp [length_flatMap, Nat.mul_comm])
  rw [hdrop, ← hlength, Nat.add_sub_cancel_left, writeItems_eq]
  rw [append_nil] at hloop
  exact hloop

/-- A header with the right numbers, in front of a body from which the block of
the items can be had. -/
theorem deserialize_header {version : Nat}
    (hversion : version < 256 ^ 4) (hnumber : version % headerCompressed = 2)
    (hitems : Readable items) (hsize : (writeItems items).length < maxMallocChecked)
    (hblock : readBlock zlib (headerCompressed ≤ version)
      (header version items.length (writeItems items).length ++ body)
      (writeItems items).length = some (writeItems items)) :
    deserialize zlib (header version items.length (writeItems items).length ++ body) =
      some (some ⟨items, none⟩) := by
  have hlimit : maxMallocChecked < 256 ^ 4 := by decide
  have hlength := length_stack_payload items
  obtain ⟨h0, h4, h8⟩ := header_fields hversion
    (show items.length < 256 ^ 4 by omega) (show (writeItems items).length < 256 ^ 4 by omega)
    (at_zero body)
  have hlong : ¬ (header version items.length (writeItems items).length ++ body).length < 12 := by
    rw [length_append, length_header]
    omega
  have hcount : ¬ ((writeItems items).length < 20 * items.length ∨
      (items.length ≠ 0 ∧ (writeItems items).length / items.length < 20)) := by
    rintro (hless | ⟨_, hless⟩)
    · omega
    · rw [Nat.div_lt_iff_lt_mul (by omega)] at hless
      omega
  rw [deserialize, if_neg hlong, h0, h4, h8]
  simp only [hnumber, ne_eq, not_true_eq_false, if_false, if_neg hcount, hblock,
    readLoop_writeItems hitems hsize, map_some]

variable {bytes : List UInt8}

theorem deserialize_encodes {zlib : Zlib} (hzlib : zlib.Inverse) (hitems : Readable items)
    (hsize : (writeItems items).length < maxMallocChecked) (hbytes : Encodes zlib items bytes) :
    deserialize zlib bytes = some (some ⟨items, none⟩) := by
  obtain ⟨comp, hcomp, rfl⟩ := hbytes
  cases comp with
  | none =>
    refine deserialize_header (by decide) (by decide) hitems hsize ?_
    have hdrop : (header 2 items.length (writeItems items).length ++
        writeItems items).drop 12 = writeItems items :=
      drop_left' (length_header _ _ _)
    have hlength : (header 2 items.length (writeItems items).length ++
        writeItems items).length - 12 = (writeItems items).length := by
      rw [length_append, length_header, Nat.add_sub_cancel_left]
    rw [readBlock, hlength, hdrop]
    simp [headerCompressed]
  | some cdata =>
    obtain ⟨-, _, hcdata⟩ := hcomp cdata rfl
    refine deserialize_header (by decide) (by decide) hitems hsize ?_
    have hdrop : (header (2 + headerCompressed) items.length (writeItems items).length ++
        cdata).drop 12 = cdata :=
      drop_left' (length_header _ _ _)
    have hcompressed : decide (headerCompressed ≤ 2 + headerCompressed) = true := by decide
    rw [readBlock, hcompressed, if_pos rfl, if_neg (by omega), decompress, hdrop,
      hzlib _ _ _ hcdata]
    simp

/-! ## Writing -/

variable {md md' : MetaData}

section

variable {zlib : Zlib} {given : Bool} {max : Nat} {opt : SerializeOptions}

theorem compressBlock_spec (hcomp : compressBlock zlib opt block = some comp) :
    ∀ cdata ∈ comp, cdata.length < block.length ∧
      ∃ capacity, zlib.compress2 block capacity = some cdata := by
  intro cdata hcdata
  cases hcdata
  unfold compressBlock at hcomp
  split at hcomp
  · cases hcomp
  · unfold tryCompression at hcomp
    split at hcomp
    · cases hcomp
    · obtain ⟨hout, hless⟩ := filter_eq_some_iff.mp (Option.some.inj hcomp)
      exact ⟨of_decide_eq_true hless, _, hout⟩

theorem writeItems_cons :
    writeItems (pos :: rest) = pos.entry ++ (writeItems rest ++ pos.payload) := by
  rw [writeItems_eq, writeItems_eq, layout_cons]

theorem copyOut_eq (hcopy : copyOut given max dst = some target) : target = dst := by
  unfold copyOut at hcopy
  split at hcopy
  · cases hcopy
  · exact (Option.some.inj hcopy).symm

theorem copyOut_of_le {dst : List UInt8} (hmemory : dst.length ≤ maxMallocChecked)
    (hroom : dst.length ≤ max) : copyOut given max dst = some dst :=
  if_neg (by omega)

variable {target : Option (List UInt8)}

/-- Each round finds the block of the items that are left inside that of all. -/
theorem serializeLoop_spec {ent behind : List UInt8} {sbuf sbuf' : Option (List UInt8)}
    (hent : ent.drop (20 * i) = writeItems items ++ behind)
    (hloop : serializeLoop zlib given max opt ent i (writeItems items).length sbuf items =
      some (target, sbuf')) :
    (∀ bytes ∈ target, ∃ k, (opt.part = false → k = 0) ∧ Encodes zlib (items.drop k) bytes) ∧
    (∀ bytes ∈ sbuf', bytes ∈ sbuf ∨ (i = 0 ∧ Encodes zlib items bytes)) := by
  induction items generalizing i sbuf behind with
  | nil =>
    cases hloop
    refine ⟨fun bytes hbytes => ⟨0, fun _ => rfl, none, by simp, ?_⟩, fun _ => .inl⟩
    cases hbytes
    rfl
  | cons pos rest ih =>
    have hblock : (ent.drop (20 * i)).take (writeItems (pos :: rest)).length =
        writeItems (pos :: rest) := by
      rw [hent, take_left]
    simp only [serializeLoop, hblock] at hloop
    obtain ⟨comp, hcomp, hloop⟩ := bind_eq_some_iff.mp hloop
    have hencodes : Encodes zlib (pos :: rest)
        (pack comp (rest.length + 1) (writeItems (pos :: rest)).length
          (writeItems (pos :: rest))) := ⟨comp, compressBlock_spec hcomp, rfl⟩
    generalize pack comp (rest.length + 1) (writeItems (pos :: rest)).length
      (writeItems (pos :: rest)) = full at hloop hencodes
    split at hloop
    · cases hloop
    · have hcache : ∀ bytes ∈ (if sbuf = none ∧ i = 0 then some full else sbuf),
          bytes ∈ sbuf ∨ (i = 0 ∧ Encodes zlib (pos :: rest) bytes) := by
        intro bytes hbytes
        split at hbytes
        next hfill =>
          cases hbytes
          exact .inr ⟨hfill.2, hencodes⟩
        · exact .inl hbytes
      split at hloop
      · obtain ⟨_, hout, heq⟩ := map_eq_some_iff.mp hloop
        cases heq
        rw [copyOut_eq hout]
        refine ⟨fun bytes hbytes => ⟨0, fun _ => rfl, ?_⟩, hcache⟩
        cases hbytes
        exact hencodes
      · split at hloop
        next hpart =>
          have hrest : ent.drop (20 * (i + 1)) = writeItems rest ++ (pos.payload ++ behind) := by
            rw [show 20 * (i + 1) = 20 * i + 20 by omega, ← drop_drop, hent,
              writeItems_cons, append_assoc, append_assoc,
              drop_left' pos.length_entry]
          have hleft : (writeItems (pos :: rest)).length - pos.size = (writeItems rest).length := by
            rw [writeItems_cons, ← pos.length_payload]
            simp only [length_append, length_entry]
            omega
          rw [hleft] at hloop
          obtain ⟨htarget, hsbuf⟩ := ih hrest hloop
          refine ⟨fun bytes hbytes => ?_, fun bytes hbytes => ?_⟩
          · obtain ⟨k, -, hk⟩ := htarget bytes hbytes
            refine ⟨k + 1, fun hfull => ?_, hk⟩
            rw [hpart] at hfull
            cases hfull
          · rcases hsbuf bytes hbytes with hold | ⟨hzero, -⟩
            · exact hcache bytes hold
            · cases hzero
        · cases hloop
          exact ⟨by simp, hcache⟩

/-- The items can be read again, and so can the cache. -/
structure MetaData.Valid (zlib : Zlib) (md : MetaData) : Prop where
  items : Readable md.items
  cache : ∀ bytes ∈ md.sbuf, Encodes zlib md.items bytes ∧
    (writeItems md.items).length < maxMallocChecked

theorem length_writeItems_drop (items : List MetaItem) (k : Nat) :
    (writeItems (items.drop k)).length ≤ (writeItems items).length := by
  rw [length_writeItems, length_writeItems]
  exact ((drop_sublist k items).map size).sum_le_sum (by simp)

theorem MetaData.serializeItems_spec (hvalid : md.Valid zlib)
    (hserialize : md.serializeItems zlib given max opt = some (target, md')) :
    md'.items = md.items ∧ md'.Valid zlib ∧ ∀ bytes ∈ target, ∃ k, (opt.part = false → k = 0) ∧
        Encodes zlib (md.items.drop k) bytes ∧
        (writeItems (md.items.drop k)).length < maxMallocChecked := by
  simp only [serializeItems, ← length_writeItems] at hserialize
  split at hserialize
  · cases hserialize
    exact ⟨rfl, hvalid, by simp⟩
  next hsize =>
    obtain ⟨⟨_, _⟩, hloop, heq⟩ := map_eq_some_iff.mp hserialize
    cases heq
    obtain ⟨htarget, hsbuf⟩ := serializeLoop_spec
      (show (writeItems md.items).drop (20 * 0) = writeItems md.items ++ [] by simp) hloop
    refine ⟨rfl, ⟨hvalid.items, fun bytes hbytes => ⟨?_, Nat.lt_of_not_le hsize⟩⟩,
      fun bytes hbytes => ?_⟩
    · rcases hsbuf bytes hbytes with hold | ⟨-, hnew⟩
      · exact (hvalid.cache bytes hold).1
      · exact hnew
    · obtain ⟨k, hfull, hk⟩ := htarget bytes hbytes
      exact ⟨k, hfull, hk, (length_writeItems_drop md.items k).trans_lt (Nat.lt_of_not_le hsize)⟩

theorem MetaData.serialize_spec (hvalid : md.Valid zlib)
    (hserialize : md.serialize zlib given max opt = some (target, md')) :
    md'.items = md.items ∧ md'.Valid zlib ∧ ∀ bytes ∈ target, ∃ k, (opt.part = false → k = 0) ∧
        Encodes zlib (md.items.drop k) bytes ∧
        (writeItems (md.items.drop k)).length < maxMallocChecked := by
  unfold serialize at hserialize
  split at hserialize
  · cases hserialize
    exact ⟨rfl, hvalid, by simp⟩
  · split at hserialize
    next sbuf hsbuf =>
      split at hserialize
      · cases hserialize
        refine ⟨rfl, hvalid, fun bytes hbytes => ⟨0, fun _ => rfl, ?_⟩⟩
        cases hbytes
        exact hvalid.cache sbuf hsbuf
      · split at hserialize
        · exact serializeItems_spec hvalid hserialize
        · cases hserialize
          exact ⟨rfl, hvalid, by simp⟩
    · exact serializeItems_spec hvalid hserialize

theorem Encodes.length_le (hbytes : Encodes zlib items bytes) :
    bytes.length ≤ (items.map size).sum + 12 := by
  obtain ⟨comp, hcomp, rfl⟩ := hbytes
  rw [← length_writeItems]
  cases comp with
  | none =>
    simp only [pack, length_append, length_header]
    omega
  | some cdata =>
    have hless := (hcomp cdata rfl).1
    simp only [pack, length_append, length_header]
    omega

theorem compressBlock_succeeds {block : List UInt8}
    (hbound : opt.noCompress = false → zlib.bound block.length ≤ maxMallocChecked) :
    ∃ comp, compressBlock zlib opt block = some comp := by
  cases hopt : opt.noCompress with
  | true => exact ⟨none, by rw [compressBlock, hopt, if_pos rfl]⟩
  | false =>
    have hsmall := hbound hopt
    exact ⟨_, by rw [compressBlock, hopt, if_neg (by decide), tryCompression, if_neg (by omega)]⟩

theorem MetaData.serialize_succeeds (hvalid : md.Valid zlib)
    (hroom : (md.items.map size).sum + 12 ≤ max)
    (hmemory : (md.items.map size).sum + 12 ≤ maxMallocChecked)
    (hbound : opt.noCompress = false → zlib.bound (md.items.map size).sum ≤ maxMallocChecked) :
    ∃ bytes md', md.serialize zlib given max opt = some (some bytes, md') := by
  rw [serialize, if_neg (by omega)]
  cases hsbuf : md.sbuf with
  | some sbuf =>
    have hlength := (hvalid.cache sbuf hsbuf).1.length_le
    exact ⟨sbuf, md, if_pos (by omega)⟩
  | none =>
    simp only [serializeItems, hsbuf]
    rw [if_neg (by omega)]
    cases hitems : md.items with
    | nil => exact ⟨_, _, rfl⟩
    | cons pos rest =>
      rw [hitems] at hroom hmemory hbound
      rw [← length_writeItems] at hroom hmemory hbound ⊢
      obtain ⟨comp, hcomp⟩ := compressBlock_succeeds hbound
      have hfull : Encodes zlib (pos :: rest) (pack comp (rest.length + 1)
          (writeItems (pos :: rest)).length (writeItems (pos :: rest))) :=
        ⟨comp, compressBlock_spec hcomp, rfl⟩
      have hlength := hfull.length_le
      rw [← length_writeItems] at hlength
      simp only [serializeLoop, Nat.mul_zero, drop_zero, take_length, hcomp, bind_some]
      rw [if_neg (by omega), if_pos (.inl hroom),
        copyOut_of_le (hlength.trans hmemory) (hlength.trans hroom)]
      exact ⟨_, _, rfl⟩

end

/-! ## Runs -/

/-- The caller gives proper items. -/
def Operation.Proper : Operation → Prop
  | .insert item => item.Proper
  | _ => True

/-- No file name is inserted that becomes equal to one that is there. -/
def Operation.NoClash (md : MetaData) : Operation → Prop
  | .insert item => Container.NoClash md.items item
  | _ => True

instance (item : MetaItem) : Decidable item.Proper :=
  decidable_of_iff (item.format ≠ .unknown ∧
    (item.format.isString = true → item.data.getLast? = some 0))
    ⟨fun ⟨hformat, hterminated⟩ => ⟨hformat, hterminated⟩,
      fun hproper => ⟨hproper.format, hproper.terminated⟩⟩

instance (items : List MetaItem) (new : MetaItem) : Decidable (NoClash items new) := by
  unfold NoClash
  infer_instance

instance (operation : Operation) : Decidable operation.Proper := by
  cases operation <;> unfold Operation.Proper <;> infer_instance

instance (md : MetaData) (operation : Operation) : Decidable (operation.NoClash md) := by
  cases operation <;> unfold Operation.NoClash <;> infer_instance

section

variable {zlib : Zlib}

theorem MetaData.create_valid : create.Valid zlib := ⟨.nil, by simp [create]⟩

theorem MetaData.insert_valid {item : MetaItem} (hvalid : md.Valid zlib)
    (hproper : item.Proper) (hclash : Container.NoClash md.items item)
    (hinsert : md.insert item = some (result, md')) : md'.Valid zlib := by
  obtain ⟨_, hloop, heq⟩ := map_eq_some_iff.mp hinsert
  cases heq
  refine ⟨insertLoop_readable hvalid.items hproper hclash hloop, fun bytes hbytes => ?_⟩
  split at hbytes
  · cases hbytes
  next hkept =>
    rw [insertLoop_unchanged hloop (Bool.not_eq_true _ ▸ hkept)]
    exact hvalid.cache bytes hbytes

theorem MetaData.deleteLoop_sublist {type : UInt32} {data : Option (List UInt8)} {dataSize : Nat}
    {fewer : List MetaItem} (hdelete : deleteLoop type data dataSize items = some fewer) :
    fewer.Sublist items := by
  induction items generalizing fewer with
  | nil => cases hdelete
  | cons pos rest ih =>
    simp only [deleteLoop] at hdelete
    split at hdelete
    · cases hdelete
    · split at hdelete
      · cases hdelete
        exact sublist_cons_self pos rest
      · obtain ⟨_, hless, rfl⟩ := map_eq_some_iff.mp hdelete
        exact (ih hless).cons_cons pos

theorem MetaData.delete_valid (hvalid : md.Valid zlib) (type : UInt32)
    (data : Option (List UInt8)) (dataSize : Nat) :
    (md.delete type data dataSize).2.Valid zlib := by
  unfold delete
  split
  · exact hvalid
  next fewer hdelete =>
    exact ⟨hvalid.items.sublist (deleteLoop_sublist hdelete), by simp⟩

theorem MetaData.step_valid {operation : Operation} (hvalid : md.Valid zlib)
    (hproper : operation.Proper) (hclash : operation.NoClash md)
    (hstep : md.step zlib operation = some md') : md'.Valid zlib := by
  cases operation with
  | insert item =>
    obtain ⟨⟨_, after⟩, hinsert, rfl⟩ := map_eq_some_iff.mp hstep
    exact insert_valid hvalid hproper hclash hinsert
  | delete type data dataSize =>
    cases hstep
    exact delete_valid hvalid type data dataSize
  | clear =>
    cases hstep
    exact create_valid
  | serialize given max opt =>
    obtain ⟨⟨_, _⟩, hserialize, rfl⟩ := map_eq_some_iff.mp hstep
    exact (serialize_spec hvalid hserialize).2.1

/-- After any operations, what is serialized is read as the items of the
container, or as the last of them where a part is allowed. -/
theorem run_serialize_round_trip (hzlib : zlib.Inverse) {operations : List Operation}
    {md : MetaData}
    (hrun : Run (step zlib)
      (fun md operation => operation.Proper ∧ operation.NoClash md) .create operations md)
    (given : Bool) (max : Nat) (opt : SerializeOptions) :
    (∀ bytes md', md.serialize zlib given max opt = some (some bytes, md') →
      ∃ items, deserialize zlib bytes = some (some ⟨items, none⟩) ∧
        items <:+ md.items ∧ (opt.part = false → items = md.items)) ∧
    ((md.items.map size).sum + 12 ≤ max →
      (md.items.map size).sum + 12 ≤ maxMallocChecked →
      (opt.noCompress = false →
        zlib.bound (md.items.map size).sum ≤ maxMallocChecked) →
      ∃ bytes md', md.serialize zlib given max opt = some (some bytes, md')) := by
  have hvalid : md.Valid zlib :=
    hrun.invariant (MetaData.Valid zlib) create_valid
      fun _ _ _ hbefore hallowed hstep =>
        step_valid hbefore hallowed.1 hallowed.2 hstep
  refine ⟨fun bytes md' hserialize => ?_, serialize_succeeds hvalid⟩
  obtain ⟨-, -, htarget⟩ := serialize_spec hvalid hserialize
  obtain ⟨k, hfull, hencodes, hsize⟩ := htarget bytes rfl
  refine ⟨md.items.drop k, ?_, drop_suffix k md.items, fun hpart => ?_⟩
  · exact deserialize_encodes hzlib (hvalid.items.sublist (drop_sublist k md.items))
      hsize hencodes
  · rw [hfull hpart, drop_zero]

/-! ## Copies and sizes -/

/-- Items that were stored are not changed by another insertion. -/
theorem noClash_of_stored (hnew : new.stored = new) : NoClash items new :=
  fun _ _ _ _ => congrArg data hnew

theorem MetaData.duplicateLoop_spec {ret : MetaData} (hret : ret.Valid zlib)
    (hstored : ∀ item ∈ items, item.stored = item) (hproper : ∀ item ∈ items, item.Proper)
    (hdistinct : (items.reverse ++ ret.items).Pairwise fun a b => ¬ a.Same b)
    (hcopy : items.foldlM (fun ret pos => (ret.insert pos).map Prod.snd) ret = some md) :
    md.Valid zlib ∧ md.items.Perm (items.reverse ++ ret.items) := by
  induction items generalizing ret with
  | nil =>
    cases hcopy
    exact ⟨hret, Perm.refl _⟩
  | cons pos rest ih =>
    obtain ⟨_, hnext, hrest⟩ := bind_eq_some_iff.mp hcopy
    obtain ⟨⟨_, after⟩, hinsert, rfl⟩ := map_eq_some_iff.mp hnext
    have hpos := hstored pos mem_cons_self
    obtain ⟨_, hloop, heq⟩ := map_eq_some_iff.mp hinsert
    rw [reverse_cons, append_assoc, singleton_append] at hdistinct ⊢
    have hnew : ∀ item ∈ ret.items, ¬ item.Same pos := by
      intro item hitem hsame
      have hpair := (pairwise_append.mp hdistinct).2.1
      exact (pairwise_cons.mp hpair).1 item hitem ⟨hsame.1.symm, hsame.2.symm⟩
    have hperm : after.items.Perm (pos :: ret.items) := by
      cases heq
      have hadded := insertLoop_perm hnew hloop
      rw [hpos] at hadded
      exact hadded
    have hafter : after.Valid zlib :=
      insert_valid hret (hproper pos mem_cons_self) (noClash_of_stored hpos) hinsert
    have hdistinct' : (rest.reverse ++ after.items).Pairwise fun a b => ¬ a.Same b := by
      refine (Perm.pairwise_iff ?_ (hperm.append_left rest.reverse)).mpr hdistinct
      exact fun hab hba => hab ⟨hba.1.symm, hba.2.symm⟩
    obtain ⟨hvalid, hitems⟩ := ih hafter (fun item hitem => hstored item (mem_cons_of_mem _ hitem))
      (fun item hitem => hproper item (mem_cons_of_mem _ hitem)) hdistinct' hrest
    exact ⟨hvalid, hitems.trans (hperm.append_left rest.reverse)⟩

/-- A copy has the same items, where those of one size may be in another order. -/
theorem MetaData.duplicate_spec (hvalid : md.Valid zlib)
    (hcopy : md.duplicate = some copy) : copy.Valid zlib ∧ copy.items.Perm md.items := by
  have hdistinct : (md.items.reverse.reverse ++ create.items).Pairwise fun a b => ¬ a.Same b := by
    rw [reverse_reverse, create, append_nil]
    exact hvalid.items.distinct
  have hspec := duplicateLoop_spec (create_valid : create.Valid zlib)
    (fun item hitem => hvalid.items.stored item (mem_reverse.mp hitem))
    (fun item hitem => hvalid.items.proper item (mem_reverse.mp hitem)) hdistinct hcopy
  rw [reverse_reverse, create, append_nil] at hspec
  exact hspec

theorem Encodes.le_length (hbytes : Encodes zlib items bytes) : 12 ≤ bytes.length := by
  obtain ⟨comp, -, rfl⟩ := hbytes
  cases comp <;> simp [pack]

structure MetaData.Sized (zlib : Zlib) (md : MetaData) (bytes : List UInt8) : Prop where
  encodes : Encodes zlib md.items bytes
  small : (writeItems md.items).length < maxMallocChecked
  cached : md.sbuf = some bytes ∨ md.sbuf = none ∧ md.items = [] ∧ bytes = header 2 0 0

/-- The size is that of the serialization, which is what is then written wherever
there is room for it. -/
theorem MetaData.Sized.serialize (hsized : md.Sized zlib bytes) {max : Nat}
    (hroom : bytes.length ≤ max) (given : Bool) (opt : SerializeOptions) :
    md.serialize zlib given max opt = some (some bytes, md) := by
  have hlong := hsized.encodes.le_length
  rw [MetaData.serialize, if_neg (by omega)]
  rcases hsized.cached with hsbuf | ⟨hsbuf, hitems, rfl⟩
  · rw [hsbuf]
    exact if_pos hroom
  · obtain ⟨_, _⟩ := md
    cases hsbuf
    cases hitems
    rfl

theorem MetaData.serialize_caches (hsbuf : md.sbuf = none)
    (hserialize : md.serialize zlib false maxMallocChecked ⟨false, false⟩ = some (some bytes, md')) :
     md'.sbuf = some bytes ∨ md'.sbuf = none ∧ md.items = [] ∧ bytes = header 2 0 0 := by
  rw [serialize, if_neg (by decide), hsbuf] at hserialize
  dsimp only at hserialize
  rw [serializeItems] at hserialize
  split at hserialize
  · cases hserialize
  · obtain ⟨⟨_, _⟩, hloop, heq⟩ := map_eq_some_iff.mp hserialize
    cases heq
    rw [hsbuf] at hloop
    cases hitems : md.items with
    | nil =>
      rw [hitems] at hloop
      cases hloop
      exact .inr ⟨rfl, rfl, rfl⟩
    | cons pos rest =>
      rw [hitems] at hloop
      obtain ⟨_, -, hloop⟩ := bind_eq_some_iff.mp hloop
      simp only [true_and, if_true, Bool.false_eq_true, if_false] at hloop
      split_ifs at hloop with hmemory hfits
      · obtain ⟨_, hout, heq⟩ := map_eq_some_iff.mp hloop
        cases heq
        exact .inl (congrArg some (copyOut_eq hout).symm)
      · cases hloop

theorem MetaData.getSerializedSize_spec (hvalid : md.Valid zlib)
    (hsize : md.getSerializedSize zlib = some (ret, md')) : md'.Valid zlib ∧ md'.items = md.items ∧
      ∀ size ∈ ret, ∃ bytes, bytes.length = size ∧ md'.Sized zlib bytes := by
  rw [getSerializedSize] at hsize
  cases hsbuf : md.sbuf with
  | some sbuf =>
    rw [hsbuf] at hsize
    cases hsize
    obtain ⟨hencodes, hsmall⟩ := hvalid.cache sbuf hsbuf
    refine ⟨hvalid, rfl, fun size hsize => ⟨sbuf, ?_, hencodes, hsmall, .inl hsbuf⟩⟩
    exact Option.some.inj hsize
  | none =>
    rw [hsbuf] at hsize
    obtain ⟨⟨_, _⟩, hserialize, heq⟩ := map_eq_some_iff.mp hsize
    obtain ⟨hitems, hafter, htarget⟩ := serialize_spec hvalid hserialize
    cases heq
    refine ⟨hafter, hitems, fun size hsize => ?_⟩
    obtain ⟨bytes, rfl, rfl⟩ := map_eq_some_iff.mp hsize
    obtain ⟨_, hk, hencodes, hsmall⟩ := htarget bytes rfl
    cases hk rfl
    rw [drop_zero, ← hitems] at hencodes hsmall
    refine ⟨bytes, rfl, hencodes, hsmall, ?_⟩
    rw [hitems]
    exact serialize_caches hsbuf hserialize

end

def trimming : Zlib where
  bound size := size
  compress2 data _ := some (data.reverse.dropWhile (· == 0)).reverse
  uncompress cdata size := some (cdata ++ replicate (size - cdata.length) 0)

theorem trimming_inverse : trimming.Inverse := by
  intro data capacity cdata hcompress
  cases hcompress
  have hsplit : data.reverse.takeWhile (· == 0) ++ data.reverse.dropWhile (· == 0) =
      data.reverse := takeWhile_append_dropWhile
  have hall : ∀ byte ∈ data.reverse.takeWhile (· == 0), byte = 0 := fun byte hbyte => by
    simpa using mem_takeWhile_imp hbyte
  generalize data.reverse.takeWhile (· == 0) = zeros at hsplit hall
  generalize data.reverse.dropWhile (· == 0) = kept at hsplit
  have hdata : data = kept.reverse ++ zeros.reverse := by
    rw [← reverse_append, hsplit, reverse_reverse]
  have hzeros : zeros.reverse = replicate zeros.length 0 := by
    rw [eq_replicate_of_mem hall, reverse_replicate, length_replicate]
  simp only [trimming, hdata, hzeros, length_append, length_replicate, Nat.add_sub_cancel_left]

def title : MetaItem :=
  ⟨none, some (.read [116, 0]), [65, 66, 67, 0], 3, .utf8⟩

def path : MetaItem :=
  ⟨some (.read [112, 0]), none, [97, 92, 98, 0], metaTypeFilename, .cString⟩

def numbers : MetaItem :=
  ⟨none, none, [1, 2, 3, 4, 5], 3, .binary⟩

def threeItems : List Operation :=
  [.insert title, .insert path, .serialize false 200 ⟨false, false⟩, .insert numbers]

theorem run_serialize_round_trip_threeItems :
    ∃ md : MetaData, (trimming.Inverse ∧ Run (step trimming)
        (fun md operation => operation.Proper ∧ operation.NoClash md) .create threeItems md ∧
        md.items = [numbers, title, path.stored]) ∧
      (∀ bytes md', md.serialize trimming true 80 ⟨true, false⟩ = some (some bytes, md') →
        ∃ items, deserialize trimming bytes = some (some ⟨items, none⟩) ∧
          items <:+ md.items ∧ (true = false → items = md.items)) ∧
      ((md.items.map size).sum + 12 ≤ 80 →
        (md.items.map size).sum + 12 ≤ maxMallocChecked →
        (false = false →
          trimming.bound (md.items.map size).sum ≤ maxMallocChecked) →
        ∃ bytes md', md.serialize trimming true 80 ⟨true, false⟩ =
          some (some bytes, md')) := by
  have hrun := Run.of_exec
    (show exec (step trimming)
      (fun md operation => operation.Proper ∧ operation.NoClash md) .create threeItems =
        some ⟨[numbers, title, path.stored], none⟩ by decide +kernel)
  exact ⟨_, ⟨trimming_inverse, hrun, rfl⟩,
    run_serialize_round_trip trimming_inverse hrun true 80 ⟨true, false⟩⟩

def fileName : MetaItem :=
  ⟨none, none, [92, 0], metaTypeFilename, .utf8⟩

def twoNames : List MetaItem :=
  [fileName.stored, fileName.stored]

/-- A file name with a separator is not found again when it is inserted twice;
the two equal items become one when they are read. -/
theorem file_name_inserted_twice :
    ∃ md : MetaData,
      Run (step trimming) (fun _ operation => operation.Proper) .create
        [.insert fileName, .insert fileName] md ∧
      md.items.length = 2 ∧
      ∃ bytes md' back,
        md.serialize trimming false 200 ⟨false, true⟩ = some (some bytes, md') ∧
        deserialize trimming bytes = some (some back) ∧ back.items.length = 1 := by
  have hrun := Run.of_exec
    (show exec (step trimming) (fun _ operation => operation.Proper) .create
      [.insert fileName, .insert fileName] = some ⟨twoNames, none⟩ by decide +kernel)
  refine ⟨_, hrun, rfl, pack none 2 44 (writeItems twoNames),
    ⟨twoNames, some (pack none 2 44 (writeItems twoNames))⟩, ⟨[fileName.stored], none⟩,
    ?_, ?_, rfl⟩
  · decide +kernel
  · decide +kernel

end Gnunet.Container
