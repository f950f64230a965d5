import Gnunet.Configuration
import Gnunet.FsDirectory

/-!
# Names of the files of a recursive download

`trigger_recursive_download` of `fs_download.c`, with
`GNUNET_FS_meta_data_suggest_filename` and `GNUNET_FS_meta_data_test_for_directory`.
File names are lists of bytes without the zero that ends them.

A name that is suggested for an entry passes two loops that replace text in it;
the name that the entry has passes none.
-/

namespace Gnunet.Fs

open Container List

/-! ## Replacing text in a string -/

/-- `strstr`, for text that is not empty. -/
def strstr (needle : List UInt8) : List UInt8 → Option Nat
  | [] => none
  | byte :: rest =>
      if needle.isPrefixOf (byte :: rest) then some 0 else (strstr needle rest).map (· + 1)

def replaceLoop (needle replacement : List UInt8) : Nat → List UInt8 → List UInt8
  | 0, name => name
  | rounds + 1, name =>
      match strstr needle name with
      | none => name
      | some pos =>
          replaceLoop needle replacement rounds
            (name.take pos ++ replacement ++ name.drop (pos + needle.length))

variable {name : List UInt8}

section

variable {needle replacement : List UInt8}

theorem strstr_some (hpos : strstr needle name = some pos) :
    name = name.take pos ++ needle ++ name.drop (pos + needle.length) := by
  induction name generalizing pos with
  | nil => cases hpos
  | cons byte rest ih =>
    rw [strstr] at hpos
    split_ifs at hpos with hprefix
    · cases hpos
      have hname := prefix_iff_eq_append.mp (List.isPrefixOf_iff_prefix.mp hprefix)
      simpa using hname.symm
    · obtain ⟨before, hbefore, rfl⟩ := Option.map_eq_some_iff.mp hpos
      have hrest := ih hbefore
      calc
        byte :: rest = byte :: (rest.take before ++ needle ++
            rest.drop (before + needle.length)) := by rw [← hrest]
        _ = _ := by
          rw [Nat.add_right_comm]
          simp only [take_succ_cons, drop_succ_cons, cons_append]

theorem not_infix_of_strstr_none (hneedle : needle ≠ []) (hnone : strstr needle name = none) :
    ¬ needle <:+: name := by
  induction name with
  | nil => exact fun hinfix => hneedle (infix_nil.mp hinfix)
  | cons byte rest ih =>
    rw [strstr] at hnone
    split_ifs at hnone with hprefix
    intro hinfix
    rcases infix_cons_iff.mp hinfix with hstart | hlater
    · exact hprefix (List.isPrefixOf_iff_prefix.mpr hstart)
    · exact ih (Option.map_eq_none_iff.mp hnone) hlater

/-- What overwriting one occurrence keeps, the loop keeps. -/
theorem replaceLoop_invariant {P : List UInt8 → Prop}
    (hstep : ∀ front back, P (front ++ needle ++ back) → P (front ++ replacement ++ back))
    (rounds : Nat) (hname : P name) : P (replaceLoop needle replacement rounds name) := by
  induction rounds generalizing name with
  | zero => exact hname
  | succ rounds ih =>
    rw [replaceLoop]
    cases hpos : strstr needle name with
    | none => exact hname
    | some pos =>
      apply ih
      apply hstep
      rw [← strstr_some hpos]
      exact hname

/-- Every round takes away some of the bytes that the text has and its replacement
has not, so there are enough rounds. -/
theorem not_infix_replaceLoop (hbyte : replacement.count byte < needle.count byte)
    (rounds : Nat) (hrounds : name.count byte ≤ rounds) :
    ¬ needle <:+: replaceLoop needle replacement rounds name := by
  induction rounds generalizing name with
  | zero =>
    intro hinfix
    have hcount := hinfix.sublist.count_le byte
    rw [replaceLoop] at hcount
    omega
  | succ rounds ih =>
    rw [replaceLoop]
    cases hpos : strstr needle name with
    | none =>
      apply not_infix_of_strstr_none _ hpos
      rintro rfl
      simp at hbyte
    | some pos =>
      apply ih
      have hcount := congrArg (List.count byte) (strstr_some hpos)
      simp only [count_append] at hcount ⊢
      omega

end

/-! ## The name of an entry -/

def mimeMap : List (List UInt8 × List UInt8) :=
  [("application/bz2", ".bz2"), ("application/gnunet-directory", ".gnd"),
    ("application/java", ".class"),
    ("application/msword", ".doc"),
    ("application/ogg", ".ogg"),
    ("application/pdf", ".pdf"),
    ("application/pgp-keys", ".key"),
    ("application/pgp-signature", ".pgp"),
    ("application/postscript", ".ps"),
    ("application/rar", ".rar"),
    ("application/rtf", ".rtf"),
    ("application/xml", ".xml"),
    ("application/x-debian-package", ".deb"),
    ("application/x-dvi", ".dvi"),
    ("applixation/x-flac", ".flac"),
    ("applixation/x-gzip", ".gz"),
    ("application/x-java-archive", ".jar"),
    ("application/x-java-vm", ".class"),
    ("application/x-python-code", ".pyc"),
    ("application/x-redhat-package-manager", ".rpm"),
    ("application/x-rpm", ".rpm"),
    ("application/x-tar", ".tar"),
    ("application/x-tex-pk", ".pk"),
    ("application/x-texinfo", ".texinfo"),
    ("application/x-xcf", ".xcf"),
    ("application/x-xfig", ".xfig"),
    ("application/zip", ".zip"),
    ("audio/midi", ".midi"),
    ("audio/mpeg", ".mp3"),
    ("audio/real", ".rm"),
    ("audio/x-wav", ".wav"),
    ("image/gif", ".gif"),
    ("image/jpeg", ".jpg"),
    ("image/pcx", ".pcx"),
    ("image/png", ".png"),
    ("image/tiff", ".tiff"),
    ("image/x-ms-bmp", ".bmp"),
    ("image/x-xpixmap", ".xpm"),
    ("text/css", ".css"),
    ("text/html", ".html"),
    ("text/plain", ".txt"),
    ("text/rtf", ".rtf"),
    ("text/x-c++hdr", ".h++"),
    ("text/x-c++src", ".c++"),
    ("text/x-chdr", ".h"),
    ("text/x-csrc", ".c"),
    ("text/x-java", ".java"),
    ("text/x-moc", ".moc"),
    ("text/x-pascal", ".pas"),
    ("text/x-perl", ".pl"),
    ("text/x-python", ".py"),
    ("text/x-tex", ".tex"),
    ("video/avi", ".avi"),
    ("video/mpeg", ".mpeg"),
    ("video/quicktime", ".qt"),
    ("video/real", ".rm"),
    ("video/x-msvideo", ".avi")].map fun (mime, ext) => (ascii mime, ascii ext)

/-- From `EXTRACTOR_METATYPE_TITLE` to `EXTRACTOR_METATYPE_UNKNOWN`. -/
def suggestionTypes : List UInt32 :=
  [4, 5, 162, 69, 29, 30, 46, 31, 8, 13, 52, 129, 130, 49, 3, 45]

def suggestFilename (md : MetaData) : Option (List UInt8) :=
  match md.getByType metaTypeOriginalFilename with
  | some name => some name
  | none =>
      let ext := (md.getByType metaTypeMimetype).bind fun mime =>
        (mimeMap.find? fun pair => pair.1 == mime).map Prod.snd
      match md.getFirstByTypes suggestionTypes, ext with
      | none, ext => ext
      | some base, none => some base
      | some base, some ext => some (base ++ ext)

/-- `GNUNET_FS_meta_data_test_for_directory`, where no mime type counts as no. -/
def testForDirectory (md : MetaData) : Bool :=
  match md.getByType metaTypeMimetype with
  | none => false
  | some mime =>
      mime.map Configuration.toLower == directoryMime.map Configuration.toLower

def directoryExt : List UInt8 := [46, 103, 110, 100]

def slash : UInt8 := 47

/-- `GNUNET_FS_URI_CHK_PREFIX` is as long as the text in front of other URIs. -/
def uriPrefixSize : Nat := 16

def candidateName (uri : List UInt8) (md : MetaData) : List UInt8 :=
  match suggestFilename md with
  | none => uri.drop uriPrefixSize
  | some name => if name.head? = some 46 then uri.drop uriPrefixSize ++ name else name

def slashedName (name : List UInt8) : List UInt8 :=
  replaceLoop [92] [slash] (name.count 92) name

def withoutParents (name : List UInt8) : List UInt8 :=
  replaceLoop [46, 46, slash] [95, 95, 95] (name.count 46) name

def entryName (filename : Option (List UInt8)) (uri : List UInt8) (md : MetaData) : List UInt8 :=
  match filename with
  | some name => name
  | none => withoutParents (slashedName (candidateName uri md))

def stripSlashes (name : List UInt8) : List UInt8 :=
  name.rdropWhile (· == slash)

def directoryName (filename : List UInt8) : List UInt8 :=
  if directoryExt <:+ filename then filename.take (filename.length - directoryExt.length)
  else filename

/-- Whether the extension is added; the slashes are still there for this test. -/
def addsExt (md : MetaData) (name : List UInt8) : Bool :=
  testForDirectory md && !(directoryExt.isSuffixOf name)

def fullName (directory name : List UInt8) (md : MetaData) : List UInt8 :=
  if addsExt md name then
    directoryName directory ++ [slash] ++ stripSlashes name ++ directoryExt
  else directoryName directory ++ [slash] ++ stripSlashes name

structure ChildDownload (Uri : Type) where
  uri : Uri
  filename : Option (List UInt8)

/-- The URIs, and the file system, in which `GNUNET_DISK_directory_create_for_file`
works or fails. -/
structure RecursiveContext (Uri : Type) where
  uriTestEqual : Uri → Uri → Bool
  uriToString : Uri → List UInt8
  directoryCreateForFile : List UInt8 → Bool

inductive Triggered where
  | itself
  | alreadyExists
  | noDirectory (fullName : List UInt8)
  | downloadStart (fullName : Option (List UInt8))
  deriving DecidableEq, Repr

def Triggered.fullName : Triggered → Option (List UInt8)
  | .itself => none
  | .alreadyExists => none
  | .noDirectory name => some name
  | .downloadStart name => name

section

variable {Uri : Type}

def childExists (context : RecursiveContext Uri) (filename : Option (List UInt8)) (uri : Uri) :
    List (ChildDownload Uri) → Option Bool
  | [] => some false
  | cpos :: rest =>
      if context.uriTestEqual uri cpos.uri then some true
      else
        match filename, cpos.filename with
        | none, _ => childExists context filename uri rest
        | some _, none => none
        | some name, some other =>
            if other = name then some true else childExists context filename uri rest

/-- `trigger_recursive_download` for a download with the given file name and
children; `none` is the comparison with a file name that is not there. -/
def triggerRecursiveDownload (context : RecursiveContext Uri) (directory : Option (List UInt8))
    (children : List (ChildDownload Uri)) (filename : Option (List UInt8)) (uri : Option Uri)
    (md : MetaData) : Option Triggered :=
  match uri with
  | none => some .itself
  | some uri =>
      (childExists context filename uri children).map fun found =>
        if found then .alreadyExists
        else
          match directory with
          | none => .downloadStart none
          | some directory =>
              let name := fullName directory (entryName filename (context.uriToString uri) md) md
              if context.directoryCreateForFile name then .downloadStart (some name)
              else .noDirectory name

/-- Every name that is computed is that of the entry in the directory. -/
theorem fullName_of_triggered
    (hfull : (triggerRecursiveDownload context (some directory) children filename (some uri)
      md).bind Triggered.fullName = some full) :
    full = fullName directory (entryName filename (context.uriToString uri) md) md := by
  simp only [triggerRecursiveDownload, Option.bind_map, Option.bind_eq_some_iff] at hfull
  obtain ⟨_, -, hname⟩ := hfull
  simp only [Function.comp_apply] at hname
  split_ifs at hname
  · cases hname
  · exact (Option.some.inj hname).symm
  · exact (Option.some.inj hname).symm

end

/-! ## Names that lead out of the directory -/

/-- A component of the path is `..`. -/
def HasParentStep (path : List UInt8) : Prop :=
  ∃ front back, path = front ++ [46, 46] ++ back ∧ (front = [] ∨ [slash] <:+ front) ∧
    (back = [] ∨ [slash] <+: back)

/-- A component of the path that is not the last one is `..`. -/
def HasInnerParentStep (path : List UInt8) : Prop :=
  ∃ front back, path = front ++ [46, 46] ++ slash :: back ∧ (front = [] ∨ [slash] <:+ front)

/-- The path has the directory in front and no `..` component after it. -/
def BelowDirectory (directory path : List UInt8) : Prop :=
  ∃ rest, path = directory ++ slash :: rest ∧ ¬ HasParentStep rest

/-- What replacing `../` leaves a `..` at the end of. -/
def EndsInParent (name : List UInt8) : Prop :=
  name = [46, 46] ∨ ([slash, 46, 46] <:+ name ∧ ¬ [46, 46, slash, 46, 46] <:+ name)

/-- The entries whose names stay below the directory: the name of the entry has no
`..` component, which a last one is not once it has the extension; or the name is
suggested and does not end in `..`. -/
def StaysBelow (filename : Option (List UInt8)) (uri : List UInt8) (md : MetaData) : Prop :=
  match filename with
  | some name =>
      if addsExt md name then ¬ HasInnerParentStep (stripSlashes name)
      else ¬ HasParentStep name
  | none =>
      addsExt md (entryName none uri md) ∨ ¬ EndsInParent (slashedName (candidateName uri md))

theorem hasParentStep_append_slash : HasParentStep (path ++ [slash]) ↔ HasParentStep path := by
  constructor
  · rintro ⟨front, back, hpath, hfront, hback⟩
    rcases eq_nil_or_concat' back with rfl | ⟨init, _, rfl⟩
    · have hlast := congrArg List.getLast? hpath
      simp [slash] at hlast
    · rw [← append_assoc] at hpath
      obtain ⟨hinit, -⟩ := append_inj' hpath rfl
      refine ⟨front, init, hinit, hfront, ?_⟩
      cases init with
      | nil => exact .inl rfl
      | cons byte init =>
        rcases hback with hnil | hprefix
        · cases hnil
        · exact .inr (by simpa using hprefix)
  · rintro ⟨front, back, rfl, hfront, hback⟩
    refine ⟨front, back ++ [slash], by simp, hfront, .inr ?_⟩
    rcases hback with rfl | hprefix
    · exact prefix_refl _
    · exact hprefix.trans (prefix_append _ _)

theorem hasParentStep_stripSlashes : HasParentStep (stripSlashes name) ↔ HasParentStep name := by
  induction name using List.reverseRecOn with
  | nil => exact Iff.rfl
  | append_singleton name byte ih =>
    by_cases hbyte : byte = slash
    · subst hbyte
      rw [hasParentStep_append_slash, ← ih, stripSlashes, stripSlashes,
        rdropWhile_concat_pos _ _ _ (by simp)]
    · rw [stripSlashes, rdropWhile_concat_neg _ _ _ (by simpa using hbyte)]

theorem hasParentStep_append_ext :
    HasParentStep (path ++ directoryExt) ↔ HasInnerParentStep path := by
  constructor
  · rintro ⟨front, back, hpath, hfront, rfl | ⟨back, rfl⟩⟩
    · have hlast := congrArg List.getLast? hpath
      simp [directoryExt] at hlast
    · have hsplit : path ++ directoryExt = (front ++ [46, 46, slash]) ++ back := by
        rw [hpath]
        simp
      rcases append_eq_append_iff.mp hsplit with ⟨extra, hover, hext⟩ | ⟨rest, hrest, -⟩
      · -- the slash cannot be in the extension
        rcases eq_nil_or_concat' extra with rfl | ⟨_, last, rfl⟩
        · refine ⟨front, [], ?_, hfront⟩
          rw [append_nil] at hover
          rw [← hover]
          simp
        · have hlast : slash = last := by
            have hlasts := congrArg List.getLast? hover
            simpa using hlasts
          have hmem : slash ∈ directoryExt := by
            rw [hext, hlast]
            simp
          exact absurd hmem (by decide)
      · refine ⟨front, rest, ?_, hfront⟩
        rw [hrest]
        simp
  · rintro ⟨front, back, rfl, hfront⟩
    exact ⟨front, slash :: back ++ directoryExt, by simp, hfront, .inr (by simp)⟩

theorem HasInnerParentStep.infix (hpath : HasInnerParentStep path) : [46, 46, slash] <:+: path := by
  obtain ⟨front, back, rfl, -⟩ := hpath
  exact ⟨front, back, by simp⟩

/-- Without `../`, a `..` component is the last one. -/
theorem hasParentStep_iff_endsInParent (hname : ¬ [46, 46, slash] <:+: name) :
    HasParentStep name ↔ EndsInParent name := by
  constructor
  · rintro ⟨front, back, rfl, hfront, rfl | ⟨back, rfl⟩⟩
    · rcases hfront with rfl | ⟨front, rfl⟩
      · exact .inl rfl
      · refine .inr ⟨⟨front, by simp⟩, ?_⟩
        rintro ⟨more, hmore⟩
        exact hname ⟨more, [46, 46], by rw [← hmore]; simp⟩
    · exact absurd ⟨front, back, by simp⟩ hname
  · rintro (rfl | ⟨⟨front, rfl⟩, -⟩)
    · exact ⟨[], [], rfl, .inl rfl, .inl rfl⟩
    · exact ⟨front ++ [slash], [], by simp, .inr ⟨front, rfl⟩, .inl rfl⟩

theorem endsInParent_iff_reverse : EndsInParent name ↔ name.reverse = [46, 46] ∨
      ([46, 46, slash] <+: name.reverse ∧ ¬ [46, 46, slash, 46, 46] <+: name.reverse) := by
  rw [EndsInParent, ← reverse_prefix, ← reverse_prefix, reverse_eq_iff]
  exact Iff.rfl

theorem endsInParent_replace (front back : List UInt8) :
    EndsInParent (front ++ [46, 46, slash] ++ back) ↔
      EndsInParent (front ++ [95, 95, 95] ++ back) := by
  rw [endsInParent_iff_reverse, endsInParent_iff_reverse]
  simp only [reverse_append, append_assoc]
  -- only the last five bytes matter, so the replaced text is among them or is not
  rcases back.reverse with _ | ⟨a, _ | ⟨b, _ | ⟨c, _ | ⟨d, _ | ⟨e, rest⟩⟩⟩⟩⟩ <;>
    simp [cons_prefix_cons, slash]

theorem endsInParent_withoutParents : EndsInParent (withoutParents name) ↔ EndsInParent name :=
  replaceLoop_invariant (P := fun result => EndsInParent result ↔ EndsInParent name)
    (fun front back hresult => (endsInParent_replace front back).symm.trans hresult) _ Iff.rfl

theorem not_infix_withoutParents (name : List UInt8) : ¬ [46, 46, slash] <:+: withoutParents name :=
  have hdots : List.count 46 [(95 : UInt8), 95, 95] < List.count 46 [46, 46, slash] := by decide
  not_infix_replaceLoop hdots _ le_rfl

@[simp]
theorem directoryName_append_ext : directoryName (directory ++ directoryExt) = directory := by
  simp [directoryName]

theorem belowDirectory_append :
    BelowDirectory directory (directory ++ [slash] ++ rest) ↔ ¬ HasParentStep rest := by
  constructor
  · rintro ⟨below, hpath, hbelow⟩
    have hrest : rest = below := by simpa using hpath
    rw [hrest]
    exact hbelow
  · intro hrest
    exact ⟨rest, by simp, hrest⟩

/-- What the extension, if it is added, leaves of the `..` components of a name. -/
theorem belowDirectory_fullName :
    BelowDirectory directory (fullName (directory ++ directoryExt) name md) ↔
      if addsExt md name then ¬ HasInnerParentStep (stripSlashes name)
      else ¬ HasParentStep name := by
  rw [fullName, directoryName_append_ext]
  split_ifs
  · rw [append_assoc _ (stripSlashes name), belowDirectory_append, hasParentStep_append_ext]
  · rw [belowDirectory_append, hasParentStep_stripSlashes]

theorem belowDirectory_entryName_iff (directory : List UInt8) (filename : Option (List UInt8))
    (uri : List UInt8) (md : MetaData) :
    BelowDirectory directory (fullName (directory ++ directoryExt) (entryName filename uri md) md) ↔
      StaysBelow filename uri md := by
  rw [belowDirectory_fullName]
  cases filename with
  | some name => exact Iff.rfl
  | none =>
    have hclean := not_infix_withoutParents (slashedName (candidateName uri md))
    split_ifs with hext
    · refine iff_of_true (fun hinner => hclean ?_) (.inl hext)
      exact hinner.infix.trans ( rdropWhile_prefix _ _).isInfix
    · rw [entryName, hasParentStep_iff_endsInParent hclean, endsInParent_withoutParents]
      exact (or_iff_right hext).symm

section

variable {Uri : Type} {context : RecursiveContext Uri} {directory full : List UInt8}
  {children : List (ChildDownload Uri)} {filename : Option (List UInt8)} {uri : Uri}
  {md : MetaData}

/-- Where a recursive download writes outside its directory. -/
theorem belowDirectory_iff_staysBelow
    (hfull : (triggerRecursiveDownload context (some (directory ++ directoryExt)) children
      filename (some uri) md).bind Triggered.fullName = some full) :
    BelowDirectory directory full ↔ StaysBelow filename (context.uriToString uri) md := by
  rw [fullName_of_triggered hfull]
  exact belowDirectory_entryName_iff directory filename (context.uriToString uri) md

end

def localContext : RecursiveContext Unit where
  uriTestEqual _ _ := true
  uriToString _ := ascii "gnunet://fs/chk/"
  directoryCreateForFile _ := true

def singleText (type : UInt32) (text : List UInt8) : MetaData :=
  ⟨[⟨none, none, text ++ [0], type, .utf8⟩], none⟩

/-- The file name `x`. -/
theorem belowDirectory_iff_staysBelow_plain :
    BelowDirectory [100] [100, slash, 120] ↔
      StaysBelow ((singleText metaTypeOriginalFilename [120]).getByType metaTypeOriginalFilename)
        (localContext.uriToString ()) (singleText metaTypeOriginalFilename [120]) :=
  have hfull : (triggerRecursiveDownload localContext (some ([100] ++ directoryExt)) []
      ((singleText metaTypeOriginalFilename [120]).getByType metaTypeOriginalFilename) (some ())
      (singleText metaTypeOriginalFilename [120])).bind Triggered.fullName =
        some [100, slash, 120] := by decide
  belowDirectory_iff_staysBelow hfull

def namedParent : MetaData :=
  singleText metaTypeOriginalFilename [46, 46, slash, 120]

def titledParent : MetaData :=
  singleText 4 [120, slash, 46, 46]

theorem entries_lead_out_of_directory :
    (triggerRecursiveDownload localContext (some ([100] ++ directoryExt)) []
        (namedParent.getByType metaTypeOriginalFilename) (some ()) namedParent =
        some (.downloadStart (some [100, slash, 46, 46, slash, 120])) ∧
      ¬ BelowDirectory [100] [100, slash, 46, 46, slash, 120]) ∧
    (triggerRecursiveDownload localContext (some ([100] ++ directoryExt)) []
        (titledParent.getByType metaTypeOriginalFilename) (some ()) titledParent =
        some (.downloadStart (some [100, slash, 120, slash, 46, 46])) ∧
      ¬ BelowDirectory [100] [100, slash, 120, slash, 46, 46]) := by
  refine ⟨⟨by decide, ?_⟩, ⟨by decide, ?_⟩⟩
  · rw [show [100, slash, 46, 46, slash, 120] = [100] ++ [slash] ++ [46, 46, slash, 120] from rfl,
      belowDirectory_append, not_not]
    exact ⟨[], [slash, 120], rfl, .inl rfl, .inr ⟨[120], rfl⟩⟩
  · rw [show [100, slash, 120, slash, 46, 46] = [100] ++ [slash] ++ [120, slash, 46, 46] from rfl,
      belowDirectory_append, not_not]
    exact ⟨[120, slash], [], rfl, .inr ⟨[120], rfl⟩, .inl rfl⟩

end Gnunet.Fs
