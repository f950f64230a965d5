import Gnunet.Configuration
import Gnunet.GuardedRun

/-!
# Configurations are read as they were written

What a configuration is for is the function from a section and an option to a
value: `setValueString` changes it at one place.  The text of a configuration
is one assignment after the other, so that reading it sets every value once,
where the values survive the way through a line of text.
-/

namespace Gnunet.Configuration

open KeyedList List ConfigEntry Handle Protocol

/-! ## Setting and getting values -/

section

variable {cfg cfg' : Handle} {sec option : CString} {value : Option CString}

theorem lowerKey_mk (key : CString) (val : Option CString) :
    (mk key val).lowerKey = lower key := rfl

theorem findSection_modifyEntries :
    (cfg.modifyEntries sec change).findSection sec' =
      if lower sec' = lower sec then
        (cfg.findSection sec).map fun found => { found with entries := change found.entries }
      else cfg.findSection sec' :=
  find_modify (by exact fun _ => rfl) (lower sec')

theorem getValueString_modifyEntries (change : List ConfigEntry → List ConfigEntry)
    (hfound : cfg.findSection sec = some found) (sec' option' : CString) :
    (cfg.modifyEntries sec change).getValueString sec' option' = if lower sec' = lower sec then
        (find lowerKey (lower option') (change found.entries)).bind val
      else cfg.getValueString sec' option' := by
  simp only [getValueString, findEntry, findSection_modifyEntries]
  by_cases hsec : lower sec' = lower sec
  · rw [if_pos hsec, if_pos hsec, hfound, Option.map_some, Option.bind_some]
  · rw [if_neg hsec, if_neg hsec]

theorem findSection_congr (hsec : lower sec' = lower sec) :
    cfg.findSection sec' = cfg.findSection sec := by
  rw [findSection, hsec, findSection]

theorem setValueString_cases (hset : cfg.setValueString sec option value = some cfg') :
    (∃ found entry, cfg.findSection sec = some found ∧
      find lowerKey (lower option) found.entries = some entry ∧
      cfg' = cfg.modifyEntries sec (modify lowerKey (lower option)
        fun entry => { entry with val := value })) ∨
    (∃ found string, cfg.findSection sec = some found ∧
      find lowerKey (lower option) found.entries = none ∧ value = some string ∧
      cfg' = cfg.modifyEntries sec (⟨option, some string⟩ :: ·)) ∨
    (∃ string, cfg.findSection sec = none ∧ value = some string ∧
      cfg' = ⟨⟨sec, [⟨option, some string⟩]⟩ :: cfg.sections⟩) := by
  unfold setValueString at hset
  split at hset
  next hentry =>
    obtain ⟨entry, hentry⟩ := Option.isSome_iff_exists.mp hentry
    obtain ⟨found, hfound, hfind⟩ := Option.bind_eq_some_iff.mp hentry
    split at hset
    · cases hset
    · cases hset
      exact .inl ⟨found, entry, hfound, hfind, rfl⟩
  next hentry =>
    have hnone : cfg.findEntry sec option = none := by
      simpa using hentry
    cases value with
    | none => cases hset
    | some string =>
      dsimp only at hset
      split at hset
      · cases hset
      · split at hset
        next hsec =>
          obtain ⟨found, hfound⟩ := Option.isSome_iff_exists.mp hsec
          rw [findEntry, hfound, Option.bind_some] at hnone
          cases hset
          exact .inr (.inl ⟨found, string, hfound, hnone, rfl, rfl⟩)
        next hsec =>
          split at hset
          · cases hset
          · cases hset
            exact .inr (.inr ⟨string, by simpa using hsec, rfl, rfl⟩)

theorem getValueString_setValueString
    (hset : cfg.setValueString sec option value = some cfg') (sec' option' : CString) :
    cfg'.getValueString sec' option' =
      if lower sec' = lower sec ∧ lower option' = lower option then value
      else cfg.getValueString sec' option' := by
  have hcongr : ∀ found, cfg.findSection sec = some found → lower sec' = lower sec →
      cfg.getValueString sec' option' = (find lowerKey (lower option') found.entries).bind val := by
    intro found hfound hsec
    rw [getValueString, findEntry, findSection_congr hsec, hfound, Option.bind_some]
  rcases setValueString_cases hset with ⟨found, _, hfound, hfind, rfl⟩ |
      ⟨found, string, hfound, hfind, rfl, rfl⟩ | ⟨string, hfound, rfl, rfl⟩
  · rw [getValueString_modifyEntries _ hfound]
    by_cases hsec : lower sec' = lower sec
    · rw [if_pos hsec, find_modify (by exact fun _ => rfl)]
      by_cases hoption : lower option' = lower option
      · rw [if_pos hoption, hfind, if_pos ⟨hsec, hoption⟩]
        rfl
      · rw [if_neg hoption, if_neg (fun h => hoption h.2), hcongr found hfound hsec]
    · rw [if_neg hsec, if_neg (fun h => hsec h.1)]
  · rw [getValueString_modifyEntries _ hfound]
    by_cases hsec : lower sec' = lower sec
    · rw [if_pos hsec, find_cons, lowerKey_mk]
      by_cases hoption : lower option' = lower option
      · rw [if_pos hoption.symm, if_pos ⟨hsec, hoption⟩]
        rfl
      · rw [if_neg (fun h => hoption h.symm), if_neg (fun h => hoption h.2),
          hcongr found hfound hsec]
    · rw [if_neg hsec, if_neg (fun h => hsec h.1)]
  · simp only [getValueString, findEntry, findSection] at hfound ⊢
    rw [find_cons, ConfigSection.lowerName]
    by_cases hsec : lower sec' = lower sec
    · rw [if_pos hsec.symm, Option.bind_some, find_cons, lowerKey_mk, find_nil, hsec, hfound,
        Option.bind_none, Option.bind_none]
      by_cases hoption : lower option' = lower option
      · rw [if_pos hoption.symm, if_pos ⟨rfl, hoption⟩]
        rfl
      · rw [if_neg (fun h => hoption h.symm), if_neg (fun h => hoption h.2)]
        rfl
    · rw [if_neg (fun h => hsec h.symm), if_neg (fun h => hsec h.1)]

end

def isNameByte (byte : UInt8) : Bool :=
  (48 ≤ byte && byte ≤ 57) || (65 ≤ byte && byte ≤ 90) || (97 ≤ byte && byte ≤ 122) ||
    byte == 45 || byte == 95

structure GoodName (name : CString) : Prop where
  nonempty : name.bytes ≠ []
  bytes : ∀ byte ∈ name.bytes, isNameByte byte = true

/-- The value has no white space at its ends and is not enclosed in quotes. -/
structure ProperValue (value : CString) : Prop where
  first : ∀ byte ∈ value.bytes.head?, isSpace byte = false
  last : ∀ byte ∈ value.bytes.getLast?, isSpace byte = false
  quotes : ¬ (2 ≤ value.bytes.length ∧ value.bytes.head? = some quote ∧
    value.bytes.getLast? = some quote)

/-- The value has no line break, tab or carriage return and is not one quote. -/
structure PlainValue (value : CString) : Prop where
  newline : newline ∉ value.bytes
  tab : tab ∉ value.bytes
  carriageReturn : carriageReturn ∉ value.bytes
  quote : value.bytes ≠ [quote]

structure ConfigEntry.Good (entry : ConfigEntry) : Prop where
  key : GoodName entry.key
  proper : ∀ value ∈ entry.val, ProperValue value
  plain : ∀ value ∈ entry.val, PlainValue value

structure ConfigSection.Good (sec : ConfigSection) : Prop where
  name : GoodName sec.name
  distinct : Distinct lowerKey sec.entries
  entries : ∀ entry ∈ sec.entries, entry.Good

open ConfigSection

structure Handle.Good (cfg : Handle) : Prop where
  distinct : Distinct lowerName cfg.sections
  sections : ∀ sec ∈ cfg.sections, sec.Good

section

variable {cfg cfg' : Handle} {sec option : CString} {value : Option CString}

theorem Handle.Good.create : Handle.create.Good := ⟨.nil, by simp [Handle.create]⟩

theorem Handle.Good.modifyEntries (hgood : cfg.Good)
    (hchange : ∀ found ∈ cfg.sections, lower sec = found.lowerName → found.Good →
      ({ found with entries := change found.entries } : ConfigSection).Good) :
    (cfg.modifyEntries sec change).Good := by
  refine ⟨hgood.distinct.modify (by exact fun _ => rfl), fun found hfound => ?_⟩
  rcases mem_modify hfound with hold | ⟨before, hbefore, hkey, rfl⟩
  · exact hgood.sections found hold
  · exact hchange before hbefore hkey.symm (hgood.sections before hbefore)

theorem Handle.Good.setValueString (hgood : cfg.Good) (hsec : GoodName sec)
    (hentry : ConfigEntry.Good ⟨option, value⟩)
    (hset : cfg.setValueString sec option value = some cfg') : cfg'.Good := by
  rcases setValueString_cases hset with ⟨found, _, hfound, hfind, rfl⟩ |
      ⟨found, string, hfound, hfind, rfl, rfl⟩ | ⟨string, hfound, rfl, rfl⟩
  · refine hgood.modifyEntries fun other hother hname hold =>
      ⟨hold.name, hold.distinct.modify (by exact fun _ => rfl), fun changed hchanged => ?_⟩
    rcases mem_modify hchanged with hbefore | ⟨before, hbefore, -, rfl⟩
    · exact hold.entries changed hbefore
    · exact ⟨(hold.entries before hbefore).key, hentry.proper, hentry.plain⟩
  · refine hgood.modifyEntries fun other hother hname hold => ⟨hold.name, ?_, ?_⟩
    · have hsame : other = found :=
        hgood.distinct.eq_of_key hother (mem_of_find hfound)
          (hname.symm.trans (key_of_find hfound).symm)
      subst hsame
      exact hold.distinct.cons hfind
    · exact forall_mem_cons.mpr ⟨hentry, hold.entries⟩
  · refine ⟨hgood.distinct.cons hfound, forall_mem_cons.mpr ⟨?_, hgood.sections⟩⟩
    exact ⟨hsec, pairwise_singleton _ _, by simpa using hentry⟩

end

/-! ## The assignments of a configuration -/

structure Assignment where
  sec : CString
  option : CString
  value : CString
  deriving DecidableEq, Repr

def Assignment.key (assignment : Assignment) : List UInt8 × List UInt8 :=
  (lower assignment.sec, lower assignment.option)

def ConfigSection.assignment (sec : ConfigSection) (entry : ConfigEntry) : Option Assignment :=
  entry.val.map fun value => ⟨sec.name, entry.key, value⟩

def ConfigSection.assignments (sec : ConfigSection) : List Assignment :=
  sec.entries.filterMap sec.assignment

def Handle.assignments (cfg : Handle) : List Assignment :=
  cfg.sections.flatMap ConfigSection.assignments

def Handle.assign (cfg : Handle) (assignment : Assignment) : Option Handle :=
  cfg.setValueString assignment.sec assignment.option (some assignment.value)

section

variable {cfg final : Handle} {assignments : List Assignment}

theorem Handle.mem_assignments {assignment : Assignment} :
    assignment ∈ cfg.assignments ↔ ∃ sec ∈ cfg.sections, ∃ entry ∈ sec.entries,
      entry.val = some assignment.value ∧ sec.name = assignment.sec ∧
      entry.key = assignment.option := by
  simp only [Handle.assignments, ConfigSection.assignments, ConfigSection.assignment,
    mem_flatMap, mem_filterMap, Option.map_eq_some_iff]
  refine ⟨?_, ?_⟩
  · rintro ⟨sec, hsec, entry, hentry, _, hvalue, rfl⟩
    exact ⟨sec, hsec, entry, hentry, hvalue, rfl, rfl⟩
  · rintro ⟨sec, hsec, entry, hentry, hvalue, hname, hkey⟩
    refine ⟨sec, hsec, entry, hentry, assignment.value, hvalue, ?_⟩
    rw [hname, hkey]

theorem Handle.Good.getValueString_iff (hgood : cfg.Good) (sec option value : CString) :
    cfg.getValueString sec option = some value ↔
      ∃ assignment ∈ cfg.assignments, assignment.key = (lower sec, lower option) ∧
        assignment.value = value := by
  simp only [getValueString, findEntry, findSection,
    Option.bind_eq_some_iff, find_eq_some_iff hgood.distinct]
  refine ⟨?_, ?_⟩
  · rintro ⟨entry, ⟨found, ⟨hfound, hname⟩, hentry⟩, hvalue⟩
    obtain ⟨hentry, hkey⟩ := (find_eq_some_iff (hgood.sections found hfound).distinct).mp hentry
    exact ⟨⟨found.name, entry.key, value⟩,
      mem_assignments.mpr ⟨found, hfound, entry, hentry, hvalue, rfl, rfl⟩,
      Prod.ext hname hkey, rfl⟩
  · rintro ⟨_, hmem, hkey, rfl⟩
    obtain ⟨found, hfound, entry, hentry, hvalue, hname, hoption⟩ := mem_assignments.mp hmem
    refine ⟨entry, ⟨found, ⟨hfound, ?_⟩, ?_⟩, hvalue⟩
    · rw [lowerName, hname]
      exact congrArg Prod.fst hkey
    · refine (find_eq_some_iff (hgood.sections found hfound).distinct).mpr ⟨hentry, ?_⟩
      rw [lowerKey, hoption]
      exact congrArg Prod.snd hkey

theorem getValueString_of_not_assigned (hfold : assignments.foldlM Handle.assign cfg = some final)
    (hother : ∀ assignment ∈ assignments, assignment.key ≠ (lower sec, lower option)) :
    final.getValueString sec option = cfg.getValueString sec option := by
  induction assignments generalizing cfg with
  | nil =>
    cases hfold
    rfl
  | cons assignment assignments ih =>
    obtain ⟨_, hnext, hrest⟩ := Option.bind_eq_some_iff.mp hfold
    have hkey := hother assignment mem_cons_self
    rw [ih hrest fun a ha => hother a (mem_cons_of_mem _ ha),
      getValueString_setValueString hnext, if_neg]
    rintro ⟨hsec, hoption⟩
    exact hkey (Prod.ext hsec.symm hoption.symm)

theorem getValueString_of_assigned (hfold : assignments.foldlM Handle.assign cfg = some final)
    (hsame : ∀ assignment ∈ assignments, assignment.key = (lower sec, lower option) →
      assignment.value = value)
    (hsome : ∃ assignment ∈ assignments, assignment.key = (lower sec, lower option)) :
    final.getValueString sec option = some value := by
  induction assignments generalizing cfg with
  | nil => simp at hsome
  | cons assignment assignments ih =>
    obtain ⟨_, hnext, hrest⟩ := Option.bind_eq_some_iff.mp hfold
    by_cases hlater : ∃ a ∈ assignments, a.key = (lower sec, lower option)
    · exact ih hrest (fun a ha => hsame a (mem_cons_of_mem _ ha)) hlater
    · have hkey : assignment.key = (lower sec, lower option) := by
        obtain ⟨a, ha, hkey⟩ := hsome
        rcases mem_cons.mp ha with rfl | ha
        · exact hkey
        · exact absurd ⟨a, ha, hkey⟩ hlater
      have hvalue := hsame assignment mem_cons_self hkey
      rw [getValueString_of_not_assigned hrest fun a ha hk => hlater ⟨a, ha, hk⟩,
        getValueString_setValueString hnext, if_pos, hvalue]
      exact ⟨(congrArg Prod.fst hkey).symm, (congrArg Prod.snd hkey).symm⟩

theorem Handle.Good.getValueString_eq (hgood : cfg.Good)
    (hfold : cfg.assignments.foldlM Handle.assign .create = some final) (sec option : CString) :
    final.getValueString sec option = cfg.getValueString sec option := by
  cases hvalue : cfg.getValueString sec option with
  | none =>
    rw [getValueString_of_not_assigned hfold]
    · rfl
    · intro assignment hmem hkey
      have hsome := (hgood.getValueString_iff sec option assignment.value).mpr
        ⟨assignment, hmem, hkey, rfl⟩
      rw [hvalue] at hsome
      cases hsome
  | some value =>
    obtain ⟨assignment, hmem, hkey, -⟩ := (hgood.getValueString_iff sec option value).mp hvalue
    refine getValueString_of_assigned hfold ?_ ⟨assignment, hmem, hkey⟩
    intro other hother hsame
    have hsome := (hgood.getValueString_iff sec option other.value).mpr ⟨other, hother, hsame, rfl⟩
    rw [hvalue] at hsome
    exact (Option.some.inj hsome).symm

end

theorem length_escape : (escape value).length = value.count newline + value.length := by
  induction value with
  | nil => rfl
  | cons byte value ih =>
    rw [escape, flatMap_cons, length_append, ← escape, ih, count_cons, length_cons]
    by_cases hbyte : byte = newline
    · simp [hbyte]
      omega
    · simp [hbyte]
      omega

theorem ConfigEntry.length_text (entry : ConfigEntry) : entry.text.length = entry.size := by
  unfold text size
  split
  · rfl
  · simp only [length_append, length_escape, length_cons, length_nil]
    omega

theorem length_flatMap_eq_sum {A : Type} {text : A → List UInt8} {size : A → Nat}
    (hlength : ∀ a, (text a).length = size a) (as : List A) :
    (as.flatMap text).length = (as.map size).sum := by
  rw [length_flatMap]
  simp only [hlength]

theorem ConfigSection.length_headline (sec : ConfigSection) :
    sec.headline.length = sec.name.bytes.length + 2 := by
  simp [headline]

theorem ConfigSection.length_text (sec : ConfigSection) : sec.text.length = sec.size := by
  simp only [text, size, length_append, length_headline, length_cons,
    length_nil, length_flatMap_eq_sum ConfigEntry.length_text]
  omega

/-- The two passes of the writer agree, whatever the values are. -/
theorem Handle.length_text (cfg : Handle) :
    (cfg.sections.flatMap ConfigSection.text).length = cfg.size :=
  length_flatMap_eq_sum ConfigSection.length_text cfg.sections

/-- The text can be allocated, and so can the buffer for each value. -/
structure Handle.Fits (cfg : Handle) : Prop where
  text : cfg.size ≤ maxMallocChecked
  values : ∀ assignment ∈ cfg.assignments, assignment.value.bytes.length * 2 + 1 ≤ maxMallocChecked

theorem le_sum_of_mem {A : Type} {a : A} {as : List A} (size : A → Nat) (hmem : a ∈ as) :
    size a ≤ (as.map size).sum :=
  single_le_sum (by simp) _ (mem_map_of_mem hmem)

theorem Handle.Fits.serialize_eq {cfg : Handle} (hfits : cfg.Fits) :
    cfg.serialize = some (cfg.sections.flatMap ConfigSection.text) := by
  have hallocations : ¬ ∃ size ∈ cfg.size :: cfg.sections.flatMap ConfigSection.allocations,
      maxMallocChecked < size := by
    rintro ⟨_, hmem, hlarge⟩
    rcases mem_cons.mp hmem with rfl | hmem
    · exact absurd hfits.text (by omega)
    · obtain ⟨sec, hsec, hmem⟩ := mem_flatMap.mp hmem
      have hsecSize : sec.size ≤ cfg.size := le_sum_of_mem ConfigSection.size hsec
      have htext := hfits.text
      unfold ConfigSection.size at hsecSize
      rcases mem_cons.mp hmem with rfl | hmem
      · rw [sec.length_headline] at hlarge
        omega
      · obtain ⟨entry, hentry, hmem⟩ := mem_flatMap.mp hmem
        have hentrySize : entry.size ≤ (sec.entries.map ConfigEntry.size).sum :=
          le_sum_of_mem ConfigEntry.size hentry
        unfold ConfigEntry.allocations at hmem
        split at hmem
        · cases hmem
        next value hvalue =>
          have hbuffer := hfits.values ⟨sec.name, entry.key, value⟩
            (mem_assignments.mpr ⟨sec, hsec, entry, hentry, hvalue, rfl, rfl⟩)
          rw [entry.length_text] at hmem
          simp only [mem_cons, not_mem_nil, or_false] at hmem
          rcases hmem with rfl | rfl
          · exact absurd hbuffer (Nat.not_le_of_lt hlarge)
          · omega
  rw [serialize, if_neg hallocations, if_neg (not_not.mpr cfg.length_text)]

/-! ## Lines -/

theorem lines_append (hline : newline ∉ line) (rest : List UInt8) :
    lines (line ++ newline :: rest) = line :: lines rest := by
  induction line with
  | nil => simp [lines]
  | cons byte line ih =>
    rw [mem_cons, not_or] at hline
    rw [cons_append, lines, if_neg (fun h => hline.1 h.symm), ih hline.2]

theorem isNameByte_spec (hbyte : isNameByte byte = true) :
    isSpace byte = false ∧ blank byte = byte ∧ byte ≠ 0 ∧ byte ≠ newline ∧ byte ≠ space ∧
      byte ≠ equals ∧ byte ≠ openBracket ∧ byte ≠ 35 ∧ byte ≠ 37 ∧ toLower byte ≠ 64 := by
  have hall : ∀ n : Fin 256, isNameByte (.ofFin n) = true →
      isSpace (.ofFin n) = false ∧ blank (.ofFin n) = .ofFin n ∧ UInt8.ofFin n ≠ 0 ∧
        .ofFin n ≠ newline ∧ .ofFin n ≠ space ∧ .ofFin n ≠ equals ∧ .ofFin n ≠ openBracket ∧
        UInt8.ofFin n ≠ 35 ∧ UInt8.ofFin n ≠ 37 ∧ toLower (.ofFin n) ≠ 64 := by
    decide +kernel
  exact hall byte.toFin hbyte

theorem trimTail_eq {text : List UInt8} (hlast : ∀ byte ∈ text.getLast?, isSpace byte = false) :
    trimTail text = text := by
  cases text with
  | nil => rfl
  | cons first rest =>
    rw [trimTail, rdropWhile_eq_self_iff.mpr]
    intro hrest
    have hbyte := hlast (rest.getLast hrest)
      (by simp [getLast?_cons, getLast?_eq_getLast_of_ne_nil hrest])
    rw [hbyte]
    decide

theorem trimTail_concat_space {text : List UInt8} (htext : text ≠ []) :
    trimTail (text ++ [space]) = trimTail text := by
  cases text with
  | nil => exact absurd rfl htext
  | cons first rest =>
    rw [cons_append, trimTail, rdropWhile_concat_pos _ _ _ (by decide), trimTail]

theorem GoodName.last {name : CString} (hname : GoodName name) :
    ∀ byte ∈ name.bytes.getLast?, isSpace byte = false := fun byte hbyte =>
  (isNameByte_spec (hname.bytes byte (mem_of_getLast? hbyte))).1

theorem unquote_eq (hproper : ProperValue value)
    (hplain : PlainValue value) : unquote value.bytes = value.bytes := by
  refine if_neg fun ⟨hfirst, hlast⟩ => hproper.quotes ⟨?_, hfirst, hlast⟩
  have hone := hplain.quote
  match hbytes : value.bytes with
  | [] => simp [hbytes] at hfirst
  | [byte] =>
    rw [hbytes] at hfirst hone
    cases hfirst
    exact absurd rfl hone
  | _ :: _ :: _ => simp

section

variable {parse : Handle → CString → Option (Result × Handle)} {allowInline : Bool}
  {cfg : Handle} {sec : CString}

/-- A line that begins with a visible byte and needs no blanks. -/
theorem readLine_visible
    (hnul : 0 ∉ first :: rest) (hsize : (first :: rest).length + 1 ≤ maxMallocChecked)
    (hblank : ∀ byte ∈ first :: rest, blank byte = byte) (hfirst : isSpace first = false) :
    readLine parse allowInline cfg sec (first :: rest) =
      readTrimmed parse allowInline cfg sec (trimTail (first :: rest)) 0
        (first :: rest).length := by
  have hspace : (first == space) = false := by
    cases hequal : first == space with
    | false => rfl
    | true => rw [isSpace, hequal, Bool.true_or] at hfirst; cases hfirst
  have hmap : (first :: rest).map blank = first :: rest := by
    conv_rhs => rw [← map_id (first :: rest)]
    exact map_congr_left hblank
  have hstrip : (trimTail (first :: rest)).dropWhile isSpace = trimTail (first :: rest) := by
    rw [trimTail, dropWhile_cons_of_neg (by rw [hfirst]; decide)]
  rw [readLine, if_neg (by rintro (h | h); exacts [hnul h, absurd hsize (by omega)])]
  simp only [hmap, all_cons, hspace, Bool.false_and, Bool.false_eq_true, if_false, hstrip,
    Nat.sub_self]

theorem readLine_empty : readLine parse allowInline cfg sec [] = some ⟨.ok, cfg, sec⟩ := by
  rfl

theorem readTrimmed_cons (hhash : first ≠ 35) (hpercent : first ≠ 37) (hat : toLower first ≠ 64) :
    readTrimmed parse allowInline cfg sec (first :: rest) 0 lineSize =
      if first = openBracket ∧ (first :: rest).length = lineSize ∧
          (first :: rest).getLast? = some closeBracket then some ⟨.ok, cfg, .read rest.dropLast⟩
      else readAssignment cfg sec (first :: rest) := by
  have hinline : ¬ ((first :: rest).take 9).map toLower = inlineDirective := by
    intro h
    exact hat (cons.inj h).1
  simp only [readTrimmed, head?_cons, Option.some.injEq, hhash, hpercent, or_self, if_false,
    if_neg hinline, tail_cons]
  rw [if_neg fun h => absurd h.2 (by decide)]

theorem readLine_headline {found : ConfigSection} (hname : GoodName found.name)
    (hsize : found.headline.length + 1 ≤ maxMallocChecked) :
    readLine parse allowInline cfg sec found.headline = some ⟨.ok, cfg, found.name⟩ := by
  have hbytes : ∀ byte ∈ found.headline, byte ≠ 0 ∧ blank byte = byte := by
    intro byte hbyte
    rw [headline, mem_cons, mem_append, mem_singleton] at hbyte
    rcases hbyte with rfl | hbyte | rfl
    · decide
    · obtain ⟨-, hblank, hnul, -⟩ := isNameByte_spec (hname.bytes byte hbyte)
      exact ⟨hnul, hblank⟩
    · decide
  have hlast : found.headline.getLast? = some closeBracket := by
    rw [headline, ← cons_append, getLast?_concat]
  have htrim : trimTail found.headline = found.headline := trimTail_eq fun byte hbyte => by
      rw [hlast] at hbyte
      cases hbyte
      decide
  unfold headline at *
  rw [readLine_visible (fun h => (hbytes 0 h).1 rfl) hsize
    (fun byte hbyte => (hbytes byte hbyte).2) (by decide), htrim,
    readTrimmed_cons (by decide) (by decide) (by decide), if_pos ⟨rfl, rfl, hlast⟩,
    dropLast_concat, CString.read_bytes]

def entryLine (key value : CString) : List UInt8 :=
  key.bytes ++ (space :: equals :: space :: value.bytes)

theorem readAssignment_eq {key value : CString} (hkey : GoodName key)
    (hproper : ProperValue value) (hplain : PlainValue value) {behind : List UInt8}
    (hbehind : behind.dropWhile isSpace = value.bytes) :
    readAssignment cfg sec (key.bytes ++ (space :: equals :: behind)) =
      (cfg.setValueString sec key (some value)).map fun cfg => ⟨.ok, cfg, sec⟩ := by
  have hkeyBytes : ∀ byte ∈ key.bytes, (byte != equals) = true := fun byte hbyte =>
    bne_iff_ne.mpr (isNameByte_spec (hkey.bytes byte hbyte)).2.2.2.2.2.1
  have hdrop : (key.bytes ++ (space :: equals :: behind)).dropWhile (· != equals) =
      equals :: behind := by
    rw [dropWhile_append_of_pos hkeyBytes]
    rfl
  have htake : (key.bytes ++ (space :: equals :: behind)).takeWhile (· != equals) =
      key.bytes ++ [space] := by
    rw [takeWhile_append_of_pos hkeyBytes]
    rfl
  have htag : trimTail (key.bytes ++ [space]) = key.bytes := by
    rw [trimTail_concat_space hkey.nonempty, trimTail_eq hkey.last]
  have hvalue : unquote (trimTail value.bytes) = value.bytes := by
    rw [trimTail_eq hproper.last, unquote_eq hproper hplain]
  simp only [readAssignment, hdrop, htake, hbehind, htag, hvalue, CString.read_bytes]
  rw [if_neg (by simp)]

theorem trimTail_entryLine (key : CString) {value : CString} (hproper : ProperValue value) :
    ∃ behind, trimTail (entryLine key value) = key.bytes ++ (space :: equals :: behind) ∧
      behind.dropWhile isSpace = value.bytes := by
  cases hbytes : value.bytes with
  | nil =>
    refine ⟨[], ?_, rfl⟩
    have hline : entryLine key value = (key.bytes ++ [space, equals]) ++ [space] := by
      simp [entryLine, hbytes]
    rw [hline, trimTail_concat_space (by simp), trimTail_eq]
    intro byte hbyte
    rw [getLast?_append_cons] at hbyte
    cases hbyte
    decide
  | cons first rest =>
    refine ⟨space :: first :: rest, ?_, ?_⟩
    · rw [entryLine, hbytes, trimTail_eq]
      intro byte hbyte
      refine hproper.last byte ?_
      rw [hbytes]
      simpa using hbyte
    · have hfirst := hproper.first first (by rw [hbytes]; rfl)
      rw [dropWhile_cons_of_pos (by decide), dropWhile_cons_of_neg (by rw [hfirst]; decide)]

theorem entryLine_bytes {key value : CString} (hkey : GoodName key) (hplain : PlainValue value) :
    ∀ byte ∈ entryLine key value, byte ≠ 0 ∧ byte ≠ newline ∧ blank byte = byte := by
  intro byte hbyte
  simp only [entryLine, mem_append, mem_cons] at hbyte
  rcases hbyte with hbyte | rfl | rfl | rfl | hbyte
  · obtain ⟨-, hblank, hnul, hnewline, -⟩ := isNameByte_spec (hkey.bytes byte hbyte)
    exact ⟨hnul, hnewline, hblank⟩
  · decide
  · decide
  · decide
  · refine ⟨fun h => value.noNul (h ▸ hbyte), fun h => hplain.newline (h ▸ hbyte),
      if_neg ?_⟩
    rintro (h | h)
    · exact hplain.tab (h ▸ hbyte)
    · exact hplain.carriageReturn (h ▸ hbyte)

theorem readLine_entry {key value : CString} (hkey : GoodName key)
    (hproper : ProperValue value) (hplain : PlainValue value)
    (hsize : (entryLine key value).length + 1 ≤ maxMallocChecked) :
    readLine parse allowInline cfg sec (entryLine key value) =
      (cfg.setValueString sec key (some value)).map fun cfg => ⟨.ok, cfg, sec⟩ := by
  have hbytes := entryLine_bytes hkey hplain
  obtain ⟨_, htrim, hbehind⟩ := trimTail_entryLine key hproper
  rw [← readAssignment_eq hkey hproper hplain hbehind]
  obtain ⟨first, rest, hcons⟩ := exists_cons_of_ne_nil hkey.nonempty
  obtain ⟨hspace, -, -, -, -, -, hbracket, hhash, hpercent, hat⟩ :=
    isNameByte_spec (hkey.bytes first (by rw [hcons]; exact mem_cons_self))
  have hline : entryLine key value =
      first :: (rest ++ (space :: equals :: space :: value.bytes)) := by
    rw [entryLine, hcons, cons_append]
  rw [hline] at hbytes hsize htrim ⊢
  rw [readLine_visible (fun h => (hbytes 0 h).1 rfl) hsize
    (fun byte hbyte => (hbytes byte hbyte).2.2) hspace, htrim, hcons, cons_append,
    readTrimmed_cons hhash hpercent hat, if_neg fun h => hbracket h.1]

theorem escape_eq (hvalue : newline ∉ value) : escape value = value := by
  induction value with
  | nil => rfl
  | cons byte value ih =>
    rw [mem_cons, not_or] at hvalue
    rw [escape, flatMap_cons, if_neg fun h => hvalue.1 h.symm, ← escape, ih hvalue.2]
    rfl

theorem readLines_entries {found : ConfigSection} {entries : List ConfigEntry}
    (hgood : ∀ entry ∈ entries, entry.Good)
    (hsize : ∀ entry ∈ entries, entry.text.length ≤ maxMallocChecked) (rest : List UInt8) :
    readLines parse allowInline cfg found.name (lines (entries.flatMap ConfigEntry.text ++ rest)) =
      ((entries.filterMap found.assignment).foldlM Handle.assign cfg).bind fun cfg =>
        readLines parse allowInline cfg found.name (lines rest) := by
  induction entries generalizing cfg with
  | nil => rfl
  | cons entry entries ih =>
    have hrest := fun cfg => @ih cfg (fun e he => hgood e (mem_cons_of_mem _ he))
      (fun e he => hsize e (mem_cons_of_mem _ he))
    have hentry := hgood entry mem_cons_self
    cases hval : entry.val with
    | none =>
      have htext : entry.text = [] := by
        rw [ConfigEntry.text, hval]
      have hassignment : found.assignment entry = none := by
        rw [ConfigSection.assignment, hval, Option.map_none]
      rw [flatMap_cons, htext, nil_append, filterMap_cons_none hassignment, hrest]
    | some value =>
      have hplain := hentry.plain value hval
      have htext : entry.text = entryLine entry.key value ++ [newline] := by
        rw [ConfigEntry.text, hval]
        simp only [escape_eq hplain.newline, entryLine, append_assoc, cons_append, nil_append]
      have hassignment : found.assignment entry = some ⟨found.name, entry.key, value⟩ := by
        rw [ConfigSection.assignment, hval, Option.map_some]
      have hlength : (entryLine entry.key value).length + 1 ≤ maxMallocChecked := by
        have hentrySize := hsize entry mem_cons_self
        rwa [htext, length_append, length_singleton] at hentrySize
      have hline : newline ∉ entryLine entry.key value := fun h =>
        (entryLine_bytes hentry.key hplain newline h).2.1 rfl
      rw [flatMap_cons, htext, append_assoc, append_assoc,
        singleton_append, lines_append hline, readLines,
        readLine_entry hentry.key (hentry.proper value hval) hplain hlength,
        filterMap_cons_some hassignment, foldlM_cons, Handle.assign]
      cases cfg.setValueString found.name entry.key (some value) with
      | none => rfl
      | some next => exact hrest next

theorem readLines_sections {sections : List ConfigSection} (hgood : ∀ found ∈ sections, found.Good)
    (hsize : ∀ found ∈ sections, found.size ≤ maxMallocChecked) :
    readLines parse allowInline cfg sec (lines (sections.flatMap ConfigSection.text)) =
      ((sections.flatMap ConfigSection.assignments).foldlM Handle.assign cfg).map
        fun cfg => (.ok, cfg) := by
  induction sections generalizing cfg sec with
  | nil => rfl
  | cons found sections ih =>
    have hrest := fun cfg => @ih cfg found.name
      (fun other hother => hgood other (mem_cons_of_mem _ hother))
      (fun other hother => hsize other (mem_cons_of_mem _ hother))
    have hfound := hgood found mem_cons_self
    have hfoundSize := hsize found mem_cons_self
    unfold ConfigSection.size at hfoundSize
    have hheadline : found.headline.length + 1 ≤ maxMallocChecked := by
      rw [found.length_headline]
      omega
    have hentries : ∀ entry ∈ found.entries, entry.text.length ≤ maxMallocChecked := by
      intro entry hentry
      have hle : entry.size ≤ (found.entries.map ConfigEntry.size).sum :=
        le_sum_of_mem ConfigEntry.size hentry
      rw [entry.length_text]
      omega
    have hnewline : newline ∉ found.headline := by
      intro hmem
      rw [headline, mem_cons, mem_append, mem_singleton] at hmem
      rcases hmem with h | hmem | h
      · exact absurd h (by decide)
      · exact (isNameByte_spec (hfound.name.bytes newline hmem)).2.2.2.1 rfl
      · exact absurd h (by decide)
    rw [flatMap_cons, ConfigSection.text, append_assoc, cons_append,
      append_assoc, lines_append hnewline, readLines,
      readLine_headline hfound.name hheadline, Option.bind_some, if_pos rfl,
      readLines_entries hfound.entries hentries, flatMap_cons, foldlM_append]
    change (List.foldlM Handle.assign cfg found.assignments).bind _ =
      Option.map _ ((List.foldlM Handle.assign cfg found.assignments).bind _)
    cases List.foldlM Handle.assign cfg found.assignments with
    | none => rfl
    | some next =>
      have hlines : lines ([newline] ++ sections.flatMap ConfigSection.text) =
          [] :: lines (sections.flatMap ConfigSection.text) :=
        lines_append not_mem_nil _
      rw [Option.bind_some, Option.bind_some, hlines, readLines, readLine_empty,
        Option.bind_some, if_pos rfl, hrest]

end

/-! ## Runs -/

theorem setValueString_succeeds (cfg : Handle) (hsec : stringSize (some sec) ≤ maxMallocChecked)
    (hoption : stringSize (some option) ≤ maxMallocChecked)
    (hvalue : stringSize (some value) ≤ maxMallocChecked) :
    ∃ cfg', cfg.setValueString sec option (some value) = some cfg' := by
  unfold setValueString
  split
  · exact ⟨_, if_neg (by omega)⟩
  · dsimp only
    rw [if_neg (by omega)]
    split
    · exact ⟨_, rfl⟩
    · exact ⟨_, if_neg (by omega)⟩

structure Setting where
  sec : CString
  option : CString
  value : Option CString

def Handle.apply (cfg : Handle) (setting : Setting) : Option Handle :=
  cfg.setValueString setting.sec setting.option setting.value

structure Setting.Proper (setting : Setting) : Prop where
  sec : GoodName setting.sec
  option : GoodName setting.option
  value : ∀ value ∈ setting.value, ProperValue value

def Setting.Plain (setting : Setting) : Prop :=
  ∀ value ∈ setting.value, PlainValue value

theorem Handle.Fits.assign {cfg : Handle} (hfits : cfg.Fits) :
    ∃ final, cfg.assignments.foldlM Handle.assign .create = some final := by
  have hround : ∀ before : Handle, ∀ assignment ∈ cfg.assignments, True →
      ∃ after, before.assign assignment = some after ∧ True := by
    intro before assignment hmem _
    obtain ⟨found, hfound, entry, hentry, hval, hname, hkey⟩ := mem_assignments.mp hmem
    have htext := hfits.text
    have hsec : found.size ≤ cfg.size := le_sum_of_mem ConfigSection.size hfound
    have hle : entry.size ≤ (found.entries.map ConfigEntry.size).sum :=
      le_sum_of_mem ConfigEntry.size hentry
    have hentrySize : assignment.option.bytes.length + assignment.value.bytes.length + 4 ≤
        entry.size := by
      rw [ConfigEntry.size, hval, hkey]
      exact Nat.le_add_left _ _
    unfold ConfigSection.size at hsec
    rw [hname] at hsec
    obtain ⟨after, hafter⟩ := setValueString_succeeds before
      (show stringSize (some assignment.sec) ≤ maxMallocChecked by
        simp only [stringSize]; omega)
      (show stringSize (some assignment.option) ≤ maxMallocChecked by
        simp only [stringSize]; omega)
      (show stringSize (some assignment.value) ≤ maxMallocChecked by
        simp only [stringSize]; omega)
    exact ⟨after, hafter, trivial⟩
  obtain ⟨final, hfold, -⟩ := exists_foldlM (fun _ => True) hround trivial
  exact ⟨final, hfold⟩

/-- After any settings, the text of the configuration is read as the same
values. -/
theorem run_serialize_deserialize {settings : List Setting} {cfg : Handle}
    (hrun : Run apply (fun _ setting => setting.Proper ∧ setting.Plain)
      .create settings cfg) (hfits : cfg.Fits)
    (parse : Handle → CString → Option (Result × Handle)) (allowInline : Bool) :
    ∃ mem final, cfg.serialize = some mem ∧
      Handle.create.deserialize parse allowInline mem = some (.ok, final) ∧
      ∀ sec option, final.getValueString sec option = cfg.getValueString sec option := by
  have hgood : cfg.Good :=
    hrun.invariant Handle.Good Handle.Good.create fun _ _ _ hbefore hallowed hstep =>
      hbefore.setValueString hallowed.1.sec
        ⟨hallowed.1.option, hallowed.1.value, hallowed.2⟩ hstep
  obtain ⟨final, hfold⟩ := hfits.assign
  refine ⟨_, final, hfits.serialize_eq, ?_, hgood.getValueString_eq hfold⟩
  have hsize : ∀ found ∈ cfg.sections, found.size ≤ maxMallocChecked := fun found hfound =>
    (le_sum_of_mem ConfigSection.size hfound).trans hfits.text
  rw [Handle.deserialize, readLines_sections hgood.sections hsize]
  change Option.map _ (cfg.assignments.foldlM Handle.assign .create) = _
  rw [hfold, Option.map_some]

def gns : CString := .read [103, 110, 115]
def port : CString := .read [80, 79, 82, 84]

def oneValue (value : CString) : Handle :=
  ⟨[⟨gns, [⟨port, some value⟩]⟩]⟩

theorem goodName_gns : GoodName gns := ⟨by decide +kernel, by decide +kernel⟩

theorem goodName_port : GoodName port := ⟨by decide +kernel, by decide +kernel⟩

def oldPort : CString := .read [53, 51]
def newPort : CString := .read [61, 32, 34, 97, 32, 98, 34]

theorem run_serialize_deserialize_port :
    (Run apply (fun _ setting => setting.Proper ∧ setting.Plain) .create
      [⟨gns, port, some oldPort⟩, ⟨gns, port, some newPort⟩] (oneValue newPort) ∧
      (oneValue newPort).Fits) ∧
    ∃ mem final, (oneValue newPort).serialize = some mem ∧
      Handle.create.deserialize (fun _ _ => none) false mem = some (.ok, final) ∧
      ∀ sec option,
        final.getValueString sec option = (oneValue newPort).getValueString sec option := by
  have hold : Setting.Proper ⟨gns, port, some oldPort⟩ ∧
      Setting.Plain ⟨gns, port, some oldPort⟩ :=
    ⟨⟨goodName_gns, goodName_port, fun _ hvalue => by
      cases hvalue
      exact ⟨by decide +kernel, by decide +kernel, by decide +kernel⟩⟩, fun _ hvalue => by
      cases hvalue
      exact ⟨by decide +kernel, by decide +kernel, by decide +kernel, by decide +kernel⟩⟩
  have hnew : Setting.Proper ⟨gns, port, some newPort⟩ ∧
      Setting.Plain ⟨gns, port, some newPort⟩ :=
    ⟨⟨goodName_gns, goodName_port, fun _ hvalue => by
      cases hvalue
      exact ⟨by decide +kernel, by decide +kernel, by decide +kernel⟩⟩, fun _ hvalue => by
      cases hvalue
      exact ⟨by decide +kernel, by decide +kernel, by decide +kernel, by decide +kernel⟩⟩
  have hrun : Run apply (fun _ setting => setting.Proper ∧ setting.Plain)
      .create ([⟨gns, port, some oldPort⟩] ++ [⟨gns, port, some newPort⟩])
      (oneValue newPort) :=
    .snoc (.single hold (by decide +kernel : _ = some (oneValue oldPort))) hnew
      (by decide +kernel)
  have hfits : (oneValue newPort).Fits := ⟨by decide +kernel, by decide +kernel⟩
  exact ⟨⟨hrun, hfits⟩, run_serialize_deserialize hrun hfits (fun _ _ => none) false⟩

def ReadAs (value seen : CString) : Prop :=
  ∃ cfg mem final, Run apply (fun _ setting => setting.Proper) .create
      [⟨gns, port, some value⟩] cfg ∧
    cfg.serialize = some mem ∧
    Handle.create.deserialize (fun _ _ => none) false mem = some (.ok, final) ∧
    cfg.getValueString gns port = some value ∧ final.getValueString gns port = some seen

def changedValues : List (CString × CString) :=
  [(.read [97, 10, 98], .read [97, 92, 110, 98]), (.read [97, 9, 98], .read [97, 32, 98]),
    (.read [97, 13, 98], .read [97, 32, 98]), (.read [34], .read [])]

theorem readAs_changedValues : ∀ change ∈ changedValues, ReadAs change.1 change.2 := by
  have hproper : ∀ change ∈ changedValues, (∀ byte ∈ change.1.bytes.head?, isSpace byte = false) ∧
      (∀ byte ∈ change.1.bytes.getLast?, isSpace byte = false) ∧
      ¬ (2 ≤ change.1.bytes.length ∧ change.1.bytes.head? = some quote ∧
        change.1.bytes.getLast? = some quote) := by decide +kernel
  have hset : ∀ change ∈ changedValues,
      Handle.create.apply ⟨gns, port, some change.1⟩ = some (oneValue change.1) := by
    decide +kernel
  have hread : ∀ change ∈ changedValues, (oneValue change.1).serialize =
        some ((oneValue change.1).sections.flatMap ConfigSection.text) ∧
      Handle.create.deserialize (fun _ _ => none) false
        ((oneValue change.1).sections.flatMap ConfigSection.text) = some (.ok, oneValue change.2) ∧
      (oneValue change.1).getValueString gns port = some change.1 ∧
      (oneValue change.2).getValueString gns port = some change.2 := by decide +kernel
  intro change hchange
  obtain ⟨hfirst, hlast, hquotes⟩ := hproper change hchange
  have hsetting : Setting.Proper ⟨gns, port, some change.1⟩ :=
    ⟨goodName_gns, goodName_port, fun _ hvalue => by
      cases hvalue
      exact ⟨hfirst, hlast, hquotes⟩⟩
  exact ⟨oneValue change.1, _, oneValue change.2, .single hsetting (hset change hchange),
    hread change hchange⟩

/-- A line break, a tab, a carriage return and a quote, with what is read in
their place. -/
theorem special_bytes_change_value :
    ReadAs (.read [97, 10, 98]) (.read [97, 92, 110, 98]) ∧
      ReadAs (.read [97, 9, 98]) (.read [97, 32, 98]) ∧
      ReadAs (.read [97, 13, 98]) (.read [97, 32, 98]) ∧ ReadAs (.read [34]) (.read []) := by
  simpa [changedValues] using readAs_changedValues

end Gnunet.Configuration
