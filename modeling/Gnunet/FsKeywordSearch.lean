import Mathlib.Data.Finset.Card
import Gnunet.GuardedRun

/-!
# Keyword searches

`process_ksk_result` of `fs_search.c`: the results of a search for several keywords,
each with the number of mandatory keywords that have not returned it.  The search
results are in a memory, where a pointer is an index, and the hash maps are lists of
keys and pointers in the order in which they are iterated.  The meta data of a result
is left out.
-/

namespace Gnunet.Fs.KeywordSearch

variable {Hash : Type}

structure FileIdentifier (Hash : Type) where
  fileLength : UInt64
  key : Hash
  query : Hash
  deriving DecidableEq, Repr

inductive Uri (Hash : Type) where
  | chk (chk : FileIdentifier Hash)
  | sks (ns : List UInt8) (identifier : List UInt8)
  | ksk (keywords : List (List UInt8))
  | loc (fi : FileIdentifier Hash) (peer : List UInt8) (expirationTime : UInt64)
      (contentSignature : List UInt8)
  deriving DecidableEq, Repr

/-- The hash function on what keys are made of, and what is in a key that is not
written. -/
structure KeyHash (Hash : Type) where
  text : List UInt8 → Hash
  location : FileIdentifier Hash → List UInt8 → Hash
  unwritten : Hash

namespace Uri

variable (hash : KeyHash Hash)

def toKey : Uri Hash → Hash
  | chk fi => fi.query
  | sks _ identifier => hash.text identifier
  | ksk (keyword :: _) => hash.text keyword
  | ksk [] => hash.unwritten
  | loc fi peer _ _ => hash.location fi peer

variable [DecidableEq Hash]

/-- `GNUNET_FS_uri_test_equal`.  Of a location, four bytes of the signature are compared. -/
def testEqual : Uri Hash → Uri Hash → Bool
  | chk fi₁, chk fi₂ => fi₁ = fi₂
  | sks ns₁ id₁, sks ns₂ id₂ => ns₁ = ns₂ && id₁ = id₂
  | ksk keywords₁, ksk keywords₂ =>
    keywords₁.length = keywords₂.length && keywords₁.all (keywords₂.contains ·)
  | loc fi₁ peer₁ time₁ sig₁, loc fi₂ peer₂ time₂ sig₂ =>
    fi₁ = fi₂ && peer₁ = peer₂ && time₁ = time₂ && sig₁.take 4 = sig₂.take 4
  | _, _ => false

def isKsk : Uri Hash → Bool
  | ksk _ => true
  | _ => false

end Uri

structure SearchResult (Hash : Type) where
  uri : Uri Hash
  key : Hash
  keywordBitmap : List UInt8
  mandatoryMissing : UInt32
  optionalSupport : UInt32
  deriving DecidableEq, Repr

structure SearchRequestEntry (Hash : Type) where
  results : List (Hash × Nat)
  mandatory : Bool
  deriving DecidableEq, Repr

/-- `struct GNUNET_FS_SearchContext` with the memory for the results, and the results
that the client was notified of. -/
structure SearchContext (Hash : Type) where
  requests : List (SearchRequestEntry Hash)
  results : List (SearchResult Hash)
  masterResultMap : List (Hash × Nat)
  mandatoryCount : UInt32
  notified : List Nat
  deriving DecidableEq, Repr

namespace SearchContext

def searchStart (mandatory : List Bool) : SearchContext Hash where
  requests := mandatory.map fun m => ⟨[], m⟩
  results := []
  masterResultMap := []
  mandatoryCount := UInt32.ofNat (mandatory.count true)
  notified := []

variable [DecidableEq Hash] (hash : KeyHash Hash) (sc : SearchContext Hash)

def testResultPresent (map : List (Hash × Nat)) (key : Hash) (uri : Uri Hash) : Bool :=
  map.any fun entry => entry.1 = key && sc.results[entry.2]?.any fun sr => uri.testEqual sr.uri

def getResultPresent (key : Hash) (uri : Uri Hash) (grc : Option (Nat × SearchResult Hash))
    (entry : Hash × Nat) : Option (Nat × SearchResult Hash) :=
  if entry.1 = key then
    match sc.results[entry.2]? with
    | some sr => if uri.testEqual sr.uri then some (entry.2, sr) else grc
    | none => grc
  else grc

def newResult (key : Hash) (uri : Uri Hash) : SearchResult Hash where
  uri := uri
  key := key
  keywordBitmap := List.replicate ((sc.requests.length + 7) / 8) 0
  mandatoryMissing := sc.mandatoryCount
  optionalSupport := 0

def credit (koff : Nat) (mandatory : Bool) (sr : SearchResult Hash) : SearchResult Hash where
  uri := sr.uri
  key := sr.key
  keywordBitmap := sr.keywordBitmap.set (koff / 8)
    (sr.keywordBitmap.getD (koff / 8) 0 ||| UInt8.ofNat (1 <<< (koff % 8)))
  mandatoryMissing := if mandatory then sr.mandatoryMissing - 1 else sr.mandatoryMissing
  optionalSupport := if mandatory then sr.optionalSupport else sr.optionalSupport + 1

def putUnique (map : List (Hash × Nat)) (key : Hash) (ptr : Nat) : List (Hash × Nat) :=
  if map.any fun entry => entry.1 = key then map else (key, ptr) :: map

def resultFor (key : Hash) (uri : Uri Hash) : Nat × SearchResult Hash × Bool :=
  match sc.masterResultMap.foldl (sc.getResultPresent key uri) none with
  | some (ptr, sr) => (ptr, sr, true)
  | none => (sc.results.length, sc.newResult key uri, false)

/-- `process_ksk_result` for the request at `koff`; `none` is the failing assertion on
it.  The map of the request has an entry after the put, so that its size is at least
one. -/
def processKskResult (koff : Nat) (uri : Uri Hash) : Option (SearchContext Hash) :=
  sc.requests[koff]?.map fun ent =>
    let key := uri.toKey hash
    if sc.testResultPresent ent.results key uri then sc
    else
      let (ptr, sr, known) := sc.resultFor key uri
      let sr' := credit koff ent.mandatory sr
      { requests := sc.requests.set koff ⟨putUnique ent.results sr.key ptr, ent.mandatory⟩
        results := if known then sc.results.set ptr sr' else sc.results ++ [sr']
        masterResultMap := if known then sc.masterResultMap else (key, ptr) :: sc.masterResultMap
        mandatoryCount := sc.mandatoryCount
        notified := if sr'.mandatoryMissing ≠ 0 then sc.notified else sc.notified ++ [ptr] }

end SearchContext

/-- A search, and the URIs that were received, each with the offset of its keyword. -/
structure Session (Hash : Type) where
  sc : SearchContext Hash
  received : List (Nat × Uri Hash)

namespace Session

variable [DecidableEq Hash] (hash : KeyHash Hash)

def step (session : Session Hash) (event : Nat × Uri Hash) : Option (Session Hash) :=
  (session.sc.processKskResult hash event.1 event.2).map fun sc =>
    ⟨sc, session.received ++ [event]⟩

def Received (session : Session Hash) (koff : Nat) (uri : Uri Hash) : Prop :=
  ∃ event ∈ session.received, event.1 = koff ∧ event.2.testEqual uri = true

instance (session : Session Hash) (koff : Nat) (uri : Uri Hash) :
    Decidable (session.Received koff uri) :=
  inferInstanceAs (Decidable (∃ event ∈ session.received, _))

def Mandatory (session : Session Hash) (koff : Nat) : Prop :=
  ∃ ent, session.sc.requests[koff]? = some ent ∧ ent.mandatory = true

instance (session : Session Hash) (koff : Nat) : Decidable (session.Mandatory koff) :=
  match h : session.sc.requests[koff]? with
  | none => isFalse fun ⟨_, hent, _⟩ => by cases h.symm.trans hent
  | some ent =>
    if hmandatory : ent.mandatory = true then isTrue ⟨ent, h, hmandatory⟩
    else isFalse fun ⟨other, hother, htrue⟩ => by
      cases h.symm.trans hother
      exact hmandatory htrue

/-- The mandatory keywords for which the URI was not received. -/
def missing (session : Session Hash) (uri : Uri Hash) : Finset Nat :=
  (Finset.range session.sc.requests.length).filter fun koff =>
    session.Mandatory koff ∧ ¬ session.Received koff uri

/-- The counters are right, and the client was notified only of what all mandatory
keywords returned. -/
structure Conjunction (session : Session Hash) : Prop where
  counters : ∀ (ptr : Nat) (sr : SearchResult Hash), session.sc.results[ptr]? = some sr →
    sr.mandatoryMissing.toNat = (session.missing sr.uri).card
  notified : ∀ ptr ∈ session.sc.notified, ∃ sr, session.sc.results[ptr]? = some sr ∧
    ∀ koff, session.Mandatory koff → session.Received koff sr.uri

/-- The URI is not a KSK URI, and the results of the keyword with its key are this URI. -/
def Meets (session : Session Hash) (event : Nat × Uri Hash) : Prop :=
  event.2.isKsk = false ∧ ∀ ent, session.sc.requests[event.1]? = some ent →
      ∀ entry ∈ ent.results, entry.1 = event.2.toKey hash →
        ∀ sr, session.sc.results[entry.2]? = some sr → event.2.testEqual sr.uri = true

end Session

end Gnunet.Fs.KeywordSearch
