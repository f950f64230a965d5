import Gnunet.Common
import Gnunet.KeyedList
import Mathlib.Data.List.DropRight

/-!
# Configurations

`configuration.c`.  Sections and entries are lists that are searched from the
front, without regard to case; `isspace` and `strcasecmp` are those of the C
locale.  Where a function returns an option, `none` is a failing assertion, also
that of an allocation that is too large, or a read outside of a buffer.
-/

namespace Gnunet.Configuration

def tab : UInt8 := 9
def newline : UInt8 := 10
def carriageReturn : UInt8 := 13
def space : UInt8 := 32
def quote : UInt8 := 34
def equals : UInt8 := 61
def openBracket : UInt8 := 91
def backslash : UInt8 := 92
def closeBracket : UInt8 := 93

def isSpace (byte : UInt8) : Bool :=
  byte == space || (tab ≤ byte && byte ≤ carriageReturn)

def toLower (byte : UInt8) : UInt8 :=
  if 65 ≤ byte ∧ byte ≤ 90 then byte + 32 else byte

/-- Two strings are the same for `strcasecmp` if these are. -/
def lower (string : CString) : List UInt8 :=
  string.bytes.map toLower

/-- The value may be `NULL`. -/
structure ConfigEntry where
  key : CString
  val : Option CString
  deriving DecidableEq, Repr

structure ConfigSection where
  name : CString
  entries : List ConfigEntry
  deriving DecidableEq, Repr

structure Handle where
  sections : List ConfigSection
  deriving DecidableEq, Repr

def ConfigEntry.lowerKey (entry : ConfigEntry) : List UInt8 :=
  lower entry.key

def ConfigSection.lowerName (sec : ConfigSection) : List UInt8 :=
  lower sec.name

namespace Handle

def create : Handle :=
  ⟨[]⟩

def findSection (cfg : Handle) (sec : CString) : Option ConfigSection :=
  KeyedList.find ConfigSection.lowerName (lower sec) cfg.sections

def findEntry (cfg : Handle) (sec key : CString) : Option ConfigEntry :=
  (cfg.findSection sec).bind fun found =>
    KeyedList.find ConfigEntry.lowerKey (lower key) found.entries

/-- `GNUNET_CONFIGURATION_get_value_string`; `none` is `GNUNET_SYSERR`. -/
def getValueString (cfg : Handle) (sec option : CString) : Option CString :=
  (cfg.findEntry sec option).bind ConfigEntry.val

def modifyEntries (cfg : Handle) (sec : CString)
    (change : List ConfigEntry → List ConfigEntry) : Handle :=
  ⟨KeyedList.modify ConfigSection.lowerName (lower sec)
    (fun found => { found with entries := change found.entries }) cfg.sections⟩

def setValueString (cfg : Handle) (sec option : CString) (value : Option CString) : Option Handle :=
  if (cfg.findEntry sec option).isSome then
    if maxMallocChecked < stringSize value then none
    else
      some (cfg.modifyEntries sec (KeyedList.modify ConfigEntry.lowerKey (lower option)
        fun entry => { entry with val := value }))
  else
    match value with
    | none => none
    | some value =>
        if maxMallocChecked < stringSize (some option) ∨
            maxMallocChecked < stringSize (some value) then none
        else if (cfg.findSection sec).isSome then
          some (cfg.modifyEntries sec (⟨option, some value⟩ :: ·))
        else if maxMallocChecked < stringSize (some sec) then none
        else some ⟨⟨sec, [⟨option, some value⟩]⟩ :: cfg.sections⟩

end Handle

/-- A line break becomes a backslash and an `n`. -/
def escape (value : List UInt8) : List UInt8 :=
  value.flatMap fun byte => if byte = newline then [backslash, 110] else [byte]

namespace ConfigEntry

def size (entry : ConfigEntry) : Nat :=
  match entry.val with
  | none => 0
  | some value =>
      value.bytes.count newline + (entry.key.bytes.length + value.bytes.length + 4)

def text (entry : ConfigEntry) : List UInt8 :=
  match entry.val with
  | none => []
  | some value =>
      entry.key.bytes ++ ([space, equals, space] ++ (escape value.bytes ++ [newline]))

def allocations (entry : ConfigEntry) : List Nat :=
  match entry.val with
  | none => []
  | some value => [value.bytes.length * 2 + 1, entry.text.length + 1]

end ConfigEntry

namespace ConfigSection

def size (sec : ConfigSection) : Nat :=
  sec.name.bytes.length + 3 + (sec.entries.map ConfigEntry.size).sum + 1

def headline (sec : ConfigSection) : List UInt8 :=
  openBracket :: (sec.name.bytes ++ [closeBracket])

def text (sec : ConfigSection) : List UInt8 :=
  sec.headline ++ (newline :: (sec.entries.flatMap ConfigEntry.text ++ [newline]))

def allocations (sec : ConfigSection) : List Nat :=
  (sec.headline.length + 2) :: sec.entries.flatMap ConfigEntry.allocations

end ConfigSection

namespace Handle

def size (cfg : Handle) : Nat :=
  (cfg.sections.map ConfigSection.size).sum

/-- `GNUNET_CONFIGURATION_serialize`: the size of the first pass must be that of
the text. -/
def serialize (cfg : Handle) : Option (List UInt8) :=
  let allocations := cfg.size :: cfg.sections.flatMap ConfigSection.allocations
  let mem := cfg.sections.flatMap ConfigSection.text
  if ∃ size ∈ allocations, maxMallocChecked < size then none
  else if mem.length ≠ cfg.size then none
  else some mem

end Handle

/-! ## Deserialization -/

def lines : List UInt8 → List (List UInt8)
  | [] => []
  | byte :: rest =>
      if byte = newline then [] :: lines rest
      else
        match lines rest with
        | [] => [[byte]]
        | line :: more => (byte :: line) :: more

def trimTail : List UInt8 → List UInt8
  | [] => []
  | byte :: rest => byte :: rest.rdropWhile isSpace

def blank (byte : UInt8) : UInt8 :=
  if byte = tab ∨ byte = carriageReturn then space else byte

def inlineDirective : List UInt8 :=
  [64, 105, 110, 108, 105, 110, 101, 64, 32]

def unquote (value : List UInt8) : List UInt8 :=
  if value.head? = some quote ∧ value.getLast? = some quote then value.tail.dropLast
  else value

structure Reader where
  result : Result
  cfg : Handle
  sec : CString
  deriving DecidableEq, Repr

section

-- `parse` is `GNUNET_CONFIGURATION_parse`, for inlined files
variable (parse : Handle → CString → Option (Result × Handle)) (allowInline : Bool)

/-- A line `tag = value`; where there is no tag, a byte in front of it is read. -/
def readAssignment (cfg : Handle) (sec : CString) (line : List UInt8) : Option Reader :=
  match line.dropWhile (· != equals) with
  | [] => some ⟨.syserr, cfg, sec⟩
  | _ :: behind =>
      let tag := line.takeWhile (· != equals)
      if tag = [] then none
      else
        let value := unquote (trimTail (behind.dropWhile isSpace))
        (cfg.setValueString sec (.read (trimTail tag)) (some (.read value))).map
          fun cfg => ⟨.ok, cfg, sec⟩

/-- A line without the white space around it, of `lineSize` bytes with it.  The
last byte of a section line is looked for `lineSize` bytes behind its first. -/
def readTrimmed (cfg : Handle) (sec : CString) (line : List UInt8) (skipped lineSize : Nat) :
    Option Reader :=
  if line.head? = some 35 ∨ line.head? = some 37 then some ⟨.ok, cfg, sec⟩
  else if (line.take 9).map toLower = inlineDirective then
    if allowInline then
      (parse cfg (.read (line.drop 9))).map fun (ret, cfg) =>
        ⟨if ret = .ok then .ok else .syserr, cfg, sec⟩
    else some ⟨.syserr, cfg, sec⟩
  else if line.head? = some openBracket ∧ 2 ≤ skipped then none
  else if line.head? = some openBracket ∧ line.length = lineSize ∧
      line.getLast? = some closeBracket then
    some ⟨.ok, cfg, .read line.tail.dropLast⟩
  else readAssignment cfg sec line

def readLine (cfg : Handle) (sec : CString) (lineOrig : List UInt8) : Option Reader :=
  if 0 ∈ lineOrig ∨ maxMallocChecked < lineOrig.length + 1 then none
  else
    let line := lineOrig.map blank
    if line.all (· == space) then some ⟨.ok, cfg, sec⟩
    else
      let trimmed := trimTail line
      let stripped := trimmed.dropWhile isSpace
      readTrimmed parse allowInline cfg sec stripped (trimmed.length - stripped.length)
        lineOrig.length

def readLines (cfg : Handle) (sec : CString) : List (List UInt8) → Option (Result × Handle)
  | [] => some (.ok, cfg)
  | line :: more =>
      (readLine parse allowInline cfg sec line).bind fun reader =>
        if reader.result = .ok then readLines reader.cfg reader.sec more
        else some (reader.result, reader.cfg)

def Handle.deserialize (cfg : Handle) (mem : List UInt8) : Option (Result × Handle) :=
  readLines parse allowInline cfg (.read []) (lines mem)

end

end Gnunet.Configuration
