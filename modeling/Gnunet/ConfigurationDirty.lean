import Gnunet.ConfigurationRoundTrip

/-!
# Whether a configuration has to be saved

The flag `dirty` of a configuration, and its values, over any calls that change
it.
-/

namespace Gnunet.Configuration

open Protocol

/-- The lists of file names in the value of an option, with a name added or taken
out; `none` if the function returns without setting the value. -/
structure FilenameLists where
  append : Option CString → CString → Option CString
  remove : Option CString → CString → Option CString

/-- `escape_name`: a backslash before every backslash and space. -/
def escapeName (value : List UInt8) : List UInt8 :=
  value.flatMap fun byte => if byte = 92 ∨ byte = 32 then [92, byte] else [byte]

/-- The rest of a name up to a space that is not escaped, and what follows it; `escaped` is
what becomes of an escape. -/
def restOfName (escaped : UInt8 → List UInt8) : List UInt8 → List UInt8 × List UInt8
  | [] => ([], [])
  | 32 :: behind => ([], 32 :: behind)
  | 92 :: 92 :: behind => (restOfName escaped behind).map (escaped 92 ++ ·) id
  | 92 :: 32 :: behind => (restOfName escaped behind).map (escaped 32 ++ ·) id
  | byte :: behind => (restOfName escaped behind).map (byte :: ·) id

/-- The names that `GNUNET_CONFIGURATION_iterate_value_filenames` passes on.  The first byte
of a name is never taken for the start of an escape. -/
def iterateValueFilenames : Nat → List UInt8 → List (List UInt8)
  | 0, _ => []
  | fuel + 1, list =>
    match list.dropWhile (· = 32) with
    | [] => []
    | first :: pos =>
      let (name, behind) := restOfName (fun byte => [byte]) pos
      (first :: name) :: iterateValueFilenames fuel (behind.drop 1)

def appendValueFilename (old : Option CString) (value : CString) : Option CString :=
  let list := (old.map CString.bytes).getD []
  if (iterateValueFilenames list.length list).contains value.bytes then none
  else some (.read ((if list = [] then [] else list ++ [32]) ++ escapeName value.bytes))

/-- The loop of `GNUNET_CONFIGURATION_remove_value_filename`; `front` is what it has passed. -/
def removeLoop (target : List UInt8) : Nat → List UInt8 → List UInt8 → Option (List UInt8)
  | 0, _, _ => none
  | fuel + 1, front, list =>
    let front := front ++ list.takeWhile (· = 32)
    match list.dropWhile (· = 32) with
    | [] => none
    | first :: pos =>
      match restOfName (fun byte => [92, byte]) pos with
      | (name, []) => if first :: name = target then some front.dropLast else none
      | (name, space :: behind) =>
        if first :: name = target then some (front ++ behind)
        else removeLoop target fuel (front ++ first :: name ++ [space]) behind

def removeValueFilename (old : Option CString) (value : CString) : Option CString :=
  old.bind fun list =>
    (removeLoop (escapeName value.bytes) list.bytes.length [] list.bytes).map .read

def filenameLists : FilenameLists := ⟨appendValueFilename, removeValueFilename⟩

/-- The calls that end in `GNUNET_CONFIGURATION_set_value_string`. -/
inductive SettingCall where
  | setValueString (value : Option CString)
  | setValueNumber (number : Nat)
  | appendValueFilename (value : CString)
  | removeValueFilename (value : CString)

inductive ConfigurationCall where
  | set (sec option : CString) (call : SettingCall)
  | removeSection (sec : CString)
  | write

/-- A configuration, and what was in it when it was last written. -/
structure SavedHandle where
  cfg : Handle
  dirty : Result
  saved : Handle

section

variable (lists : FilenameLists)

/-- The value that is set instead of `old`, if one is set. -/
def SettingCall.value (old : Option CString) : SettingCall → Option (Option CString)
  | .setValueString value => some value
  | .setValueNumber number =>
    some (some (.read ((Nat.toDigits 10 number).map fun digit => UInt8.ofNat digit.toNat)))
  | .appendValueFilename value => (lists.append old value).map some
  | .removeValueFilename value => (lists.remove old value).map some

namespace SavedHandle

def removeSection (s : SavedHandle) (sec : CString) : SavedHandle :=
  match s.cfg.findSection sec with
  | none => s
  | some spos =>
    { s with
      cfg := ⟨s.cfg.sections.eraseP fun other => other.lowerName = lower sec⟩
      dirty := if spos.entries = [] then s.dirty else .ok }

def step (s : SavedHandle) : ConfigurationCall → Option SavedHandle
  | .set sec option call =>
    match call.value lists (s.cfg.getValueString sec option) with
    | none => some s
    | some value => (s.cfg.setValueString sec option value).map fun cfg => { s with cfg }
  | .removeSection sec => some (s.removeSection sec)
  | .write => s.cfg.serialize.map fun _ => ⟨s.cfg, .no, s.cfg⟩

/-- What may be done to a configuration that is not marked as changed. -/
def Harmless (s : SavedHandle) : ConfigurationCall → Prop
  | .set sec option call =>
    ∀ value ∈ call.value lists (s.cfg.getValueString sec option),
      value = s.cfg.getValueString sec option
  | .removeSection sec => ∀ spos ∈ s.cfg.findSection sec, spos.entries ≠ []
  | .write => True

def Clean (s : SavedHandle) : Prop :=
  s.dirty = .no → s.cfg.getValueString = s.saved.getValueString

/-- What a call does to the settings. -/
def settle (get : CString → CString → Option CString) (call : ConfigurationCall)
    (sec' option' : CString) : Option CString :=
  match call with
  | .set sec option call =>
    if lower sec' = lower sec ∧ lower option' = lower option then
      (call.value lists (get sec option)).getD (get sec' option')
    else get sec' option'
  | .removeSection sec => if lower sec' = lower sec then none else get sec' option'
  | .write => get sec' option'

variable {lists} {s s' : SavedHandle}

theorem getValueString_of_same {cfg cfg' : Handle}
    (hset : cfg.setValueString sec option (cfg.getValueString sec option) = some cfg') :
    cfg'.getValueString = cfg.getValueString := by
  funext sec' option'
  rw [getValueString_setValueString hset]
  split
  next hsame => simp only [Handle.getValueString, Handle.findEntry, Handle.findSection, hsame]
  · rfl

theorem clean_step (hclean : s.Clean)
    (hharmless : s.dirty = .no → s.Harmless lists call) (hstep : s.step lists call = some s') :
    s'.Clean := by
  cases call with
  | write =>
    obtain ⟨_, -, rfl⟩ := Option.map_eq_some_iff.mp hstep
    exact fun _ => rfl
  | removeSection sec =>
    cases hstep
    intro hdirty
    unfold removeSection at hdirty ⊢
    cases hfound : s.cfg.findSection sec with
    | none =>
      rw [hfound] at hdirty
      exact hclean hdirty
    | some spos =>
      simp only [hfound] at hdirty
      split at hdirty
      next hempty => exact absurd hempty (hharmless hdirty spos hfound)
      · cases hdirty
  | set sec option call =>
    rw [step] at hstep
    cases hvalue : call.value lists (s.cfg.getValueString sec option) with
    | none =>
      rw [hvalue] at hstep
      cases hstep
      exact hclean
    | some value =>
      rw [hvalue] at hstep
      obtain ⟨_, hcfg, rfl⟩ := Option.map_eq_some_iff.mp hstep
      intro hdirty
      obtain rfl := hharmless hdirty value hvalue
      exact (getValueString_of_same hcfg).trans (hclean hdirty)

/-- A configuration that is not marked as dirty is as it was when it was saved. -/
theorem clean_of_run {cfg : Handle} {calls : List ConfigurationCall}
    (hrun : Run (step lists) (fun s call => s.dirty = .no → s.Harmless lists call)
      ⟨cfg, .no, cfg⟩ calls s) : s.Clean :=
  hrun.invariant Clean (fun _ => rfl) fun _ _ _ => clean_step

instance (s : SavedHandle) (call : ConfigurationCall) : Decidable (s.Harmless lists call) := by
  cases call <;> unfold Harmless <;> infer_instance

/-- A name that is already in the list is not appended; the section that is removed marks the
configuration as changed until it is written. -/
theorem clean_of_run_written : ∃ s,
    Run (step filenameLists) (fun s call => s.dirty = .no → s.Harmless filenameLists call)
        ⟨oneValue oldPort, .no, oneValue oldPort⟩
        [.set gns port (.appendValueFilename oldPort), .removeSection gns,
          .set gns port (.appendValueFilename newPort), .set gns port (.appendValueFilename oldPort),
          .set gns port (.removeValueFilename newPort), .write] s ∧
      (s.dirty = .no ∧ s.cfg.getValueString gns port = some oldPort) ∧ s.Clean :=
  Run.exists_of_exec_and (by decide +kernel) fun _ hrun _ => clean_of_run hrun

/-- A new value does not mark the configuration as changed. -/
theorem changed_value_not_dirty : ∃ s,
    Run (step filenameLists) (fun _ _ => True) ⟨.create, .no, .create⟩
        [.set gns port (.setValueString (some oldPort))] s ∧
      s.dirty = .no ∧ s.cfg.getValueString gns port = some oldPort ∧
      s.saved.getValueString gns port = none :=
  ⟨_, .single trivial rfl, rfl, by decide, by decide⟩

open List KeyedList ConfigSection Handle

theorem distinct_setValueString {cfg cfg' : Handle} (hdistinct : Distinct lowerName cfg.sections)
    (hset : cfg.setValueString sec option value = some cfg') :
    Distinct lowerName cfg'.sections := by
  rcases setValueString_cases hset with ⟨_, _, -, -, rfl⟩ | ⟨_, _, -, -, -, rfl⟩ |
      ⟨_, hfresh, -, rfl⟩
  · exact hdistinct.modify fun _ => rfl
  · exact hdistinct.modify fun _ => rfl
  · exact hdistinct.cons hfresh

theorem settle_step (hdistinct : Distinct lowerName s.cfg.sections)
    (hstep : s.step lists call = some s') : Distinct lowerName s'.cfg.sections ∧
      s'.cfg.getValueString = settle lists s.cfg.getValueString call := by
  cases call with
  | write =>
    obtain ⟨_, -, rfl⟩ := Option.map_eq_some_iff.mp hstep
    exact ⟨hdistinct, rfl⟩
  | removeSection sec =>
    cases hstep
    -- only the first section of this name is taken out, and there is no other
    have hfind := find_eraseP hdistinct (k := lower sec)
    unfold removeSection
    split
    next hnone =>
      refine ⟨hdistinct, ?_⟩
      funext sec' option'
      rw [settle]
      split
      next hsame =>
        rw [getValueString, findEntry, findSection_congr hsame, hnone]
        rfl
      · rfl
    · refine ⟨hdistinct.sublist eraseP_sublist, ?_⟩
      funext sec' option'
      simp only [getValueString, findEntry, findSection, hfind, settle]
      split <;> rfl
  | set sec option call =>
    rw [step] at hstep
    cases hvalue : call.value lists (s.cfg.getValueString sec option) with
    | none =>
      rw [hvalue] at hstep
      cases hstep
      exact ⟨hdistinct, by funext; simp [settle, hvalue]⟩
    | some value =>
      rw [hvalue] at hstep
      obtain ⟨_, hcfg, rfl⟩ := Option.map_eq_some_iff.mp hstep
      refine ⟨distinct_setValueString hdistinct hcfg, ?_⟩
      funext sec' option'
      rw [getValueString_setValueString hcfg, settle, hvalue, Option.getD_some]

/-- After any calls, what is read is what was set last. -/
theorem settings_of_run {calls : List ConfigurationCall} {dirty : Result} {saved : Handle}
    (hrun : Run (step lists) (fun _ _ => True) ⟨.create, dirty, saved⟩ calls s) :
    s.cfg.getValueString = calls.foldl (settle lists) fun _ _ => none := by
  suffices h : Distinct lowerName s.cfg.sections ∧
      s.cfg.getValueString = calls.foldl (settle lists) fun _ _ => none from h.2
  induction hrun with
  | nil => exact ⟨.nil, rfl⟩
  | snoc _ _ hstep ih =>
    rw [foldl_concat, ← ih.2]
    exact settle_step ih.1 hstep

theorem settings_of_run_removed : ∃ s,
    Run (step filenameLists) (fun _ _ => True) ⟨.create, .no, .create⟩
        [.set gns port (.setValueString (some oldPort)), .removeSection gns] s ∧
      s.cfg.getValueString gns port = none :=
  (fun hrun => ⟨_, hrun, by rw [settings_of_run hrun]; decide⟩) (Run.of_foldlM rfl)

end SavedHandle

end

end Gnunet.Configuration
