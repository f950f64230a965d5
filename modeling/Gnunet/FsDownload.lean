import Gnunet.FsDiskOffset
import Gnunet.FsDownloadRequest
import Gnunet.GuardedRun

/-!
# A download

The part of `fs_download.c` that keeps track of the blocks of one download.
Blocks are found in an existing file, from the top of the tree
(`try_top_down_reconstruction`) or from its bottom (`reconstruct_cb`), or they are
received.  Child downloads, the status calls and the contents of the file that is
written are left out.  A request is addressed by its position, the numbers of the
children on the way from it up to the top request.  `none` is a failing assertion.
-/

namespace Gnunet.Fs

open Function

/-- The states of `enum BlockRequestState` that a download enters when it does not
use meta data. -/
inductive BlockRequestState where
  | init
  | chkSet
  | downloadDown
  | downloadUp
  | error
  deriving DecidableEq, Repr

abbrev Position := List Nat

def DownloadRequest.find (top : DownloadRequest) : Position → Option DownloadRequest
  | [] => some top
  | i :: up => (top.find up).bind fun dr => dr.children[i]?

def keyOfBlock (block : List UInt8) (idx : Nat) : ContentHashKey where
  key := .ofFn fun i => block.getD (idx * sizeofContentHashKey + i) 0
  query := .ofFn fun i => block.getD (idx * sizeofContentHashKey + 64 + i) 0

/-- `struct GNUNET_FS_DownloadContext`.  After an error there is no tree. -/
structure DownloadContext where
  fileSize : Nat
  offset : Nat
  length : Nat
  oldFileSize : Nat
  treedepth : Nat
  topRequest : Option DownloadRequest
  state : Position → BlockRequestState
  chk : Position → ContentHashKey
  active : List (HashCode × Position)
  completed : Nat
  issueRequests : Bool

/-- `create_download_context` and the creation of the requests in
`GNUNET_FS_download_start_task_`. -/
def downloadStart (fileSize offset length oldFileSize : Nat) (chk : ContentHashKey) :
    Option DownloadContext :=
  if 2 ^ 64 ≤ offset + length ∨ fileSize < offset + length then none
  else
    let dc : DownloadContext :=
      { fileSize, offset, length, oldFileSize
        treedepth := computeDepth fileSize
        topRequest := none
        state := fun _ => .init
        chk := fun _ => .zero
        active := []
        completed := 0
        issueRequests := false }
    if length = 0 then some dc
    else
      (createDownloadRequest offset length (computeDepth fileSize - 1) 0 0).map fun top =>
        { dc with
          topRequest := some top
          state := update dc.state [] .chkSet
          chk := update dc.chk [] chk }

def propagateUp (top : DownloadRequest) :
    Position → (Position → BlockRequestState) → (Position → BlockRequestState)
  | [], state => update state [] .downloadUp
  | i :: up, state =>
      let state := update state (i :: up) .downloadUp
      match top.find up with
      | none => state
      | some parent =>
          if ∀ j < parent.children.length, state (j :: up) = .downloadUp then
            propagateUp top up state
          else state

def propagateError : Position → (Position → BlockRequestState) → (Position → BlockRequestState)
  | [], state => update state [] .error
  | i :: up, state => propagateError up (update state (i :: up) .error)

namespace DownloadContext

def putActive (dc : DownloadContext) (position : Position) : DownloadContext :=
  if ((dc.chk position).query, position) ∈ dc.active then dc
  else { dc with active := ((dc.chk position).query, position) :: dc.active }

def scheduleBlockDownload : Nat → DownloadRequest → Position → DownloadContext →
    Option DownloadContext
  | 0, _, _, _ => none
  | rounds + 1, dr, position, dc =>
      match dc.state position with
      | .init => none
      | .chkSet => some (dc.putActive position)
      | .downloadDown =>
          (List.range dr.children.length).foldlM (fun dc i => (dr.children[i]?).bind fun drc =>
              scheduleBlockDownload rounds drc (i :: position) dc) dc
      | .downloadUp => some dc
      | .error => some dc

def signalError (dc : DownloadContext) : DownloadContext :=
  { dc with topRequest := none, active := [] }

def clipFront (dc : DownloadContext) (dr : DownloadRequest) (size : Nat) : Option Nat :=
  if dr.offset < dc.offset then
    if dc.offset - dr.offset < size then some (size - (dc.offset - dr.offset)) else none
  else some size

def clipEnd (dc : DownloadContext) (dr : DownloadRequest) (size app : Nat) : Option Nat :=
  if dc.offset + dc.length < dr.offset + size then
    if dr.offset + size - (dc.offset + dc.length) < app then
      some (app - (dr.offset + size - (dc.offset + dc.length)))
    else none
  else some app

def countDblock (dc : DownloadContext) (dr : DownloadRequest) (size : Nat) :
    Option DownloadContext := do
  let app ← dc.clipFront dr size
  let app ← dc.clipEnd dr size app
  return { dc with completed := (dc.completed + app) % 2 ^ 64 }

def setChildKey (dr : DownloadRequest) (position : Position) (block : List UInt8) (size : Nat)
    (dc : DownloadContext) (i : Nat) : Option DownloadContext := do
  let drc ← dr.children[i]?
  if dc.state (i :: position) ≠ .init then none
  else if size < (drc.chkIdx + 1) * sizeofContentHashKey then none
  else
    let dc := { dc with
      chk := update dc.chk (i :: position) (keyOfBlock block drc.chkIdx)
      state := update dc.state (i :: position) .chkSet }
    return if dc.issueRequests then dc.putActive (i :: position) else dc

def finishDblock (dc : DownloadContext) (top dr : DownloadRequest) (position : Position)
    (size : Nat) : Option DownloadContext := do
  let dc ← dc.countDblock dr size
  if dc.length < dc.completed then none
  else
    return { dc with
      state := propagateUp top position (update dc.state position .downloadDown) }

def expandIblock (dc : DownloadContext) (dr : DownloadRequest) (position : Position)
    (block : List UInt8) (size : Nat) : Option DownloadContext :=
  if dc.length < dc.completed ∨ dc.completed = dc.length then none
  else if size % sizeofContentHashKey ≠ 0 then none
  else
    (List.range dr.children.length).reverse.foldlM (setChildKey dr position block size)
      { dc with state := update dc.state position .downloadDown }

section

variable (hash : List UInt8 → HashCode)
  (encrypt decrypt : HashCode → List UInt8 → Option (List UInt8))

/-- `process_result_with_request`.  Whether the block could be written, if it is to be
stored, is an input. -/
def processResultWithRequest (dc : DownloadContext) (position : Position) (query : HashCode)
    (data : List UInt8) (stored : Bool) : Option DownloadContext := do
  let top ← dc.topRequest
  let dr ← top.find position
  let bs ← treeCalculateBlockSize dc.fileSize dr.offset dr.depth
  if data.length ≠ bs then
    return { dc with state := propagateError position dc.state }.signalError
  else
    let dc := { dc with active := dc.active.erase (query, position) }
    match decrypt (dc.chk position).key data with
    | none => return dc.signalError
    | some pt =>
        let _ ← computeDiskOffset dc.fileSize dr.offset dr.depth
        if stored = false then return dc.signalError
        else if dr.depth = 0 then dc.finishDblock top dr position data.length
        else dc.expandIblock dr position pt data.length

def topDownChild (recurse : Position → DownloadContext → Option DownloadContext)
    (dr : DownloadRequest) (position : Position) (block : List UInt8) (dc : DownloadContext)
    (i : Nat) : Option DownloadContext := do
  let drc ← dr.children[i]?
  if drc.offset < dr.offset ∨
      (drc.offset - dr.offset) % treeComputeTreeSize drc.depth ≠ 0 then none
  else if dc.state (i :: position) ≠ .init then some dc
  else if chkPerInode ≤ drc.chkIdx then none
  else
    recurse (i :: position) { dc with
        state := update dc.state (i :: position) .chkSet
        chk := update dc.chk (i :: position) (keyOfBlock block drc.chkIdx) }

def topDownChildren (recurse : Position → DownloadContext → Option DownloadContext)
    (dr : DownloadRequest) (position : Position) (block : List UInt8) :
    DownloadContext → List Nat → Option (DownloadContext × Bool)
  | dc, [] => some (dc, true)
  | dc, i :: rest => do
      let dc ← topDownChild recurse dr position block dc i
      let done := decide (dc.state (i :: position) = .downloadUp)
      let (dc, upDone) ← topDownChildren recurse dr position block dc rest
      return (dc, done && upDone)

/-- `try_top_down_reconstruction`, with the bytes of the existing file; the number
bounds the depth of the recursion. -/
def tryTopDownReconstruction (disk : List UInt8) :
    Nat → Position → DownloadContext → Option DownloadContext
  | 0, _, _ => none
  | rounds + 1, position, dc => do
      let top ← dc.topRequest
      let dr ← top.find position
      if dc.state position ≠ .chkSet ∨ dc.treedepth ≤ dr.depth then none
      else
        let len ← treeCalculateBlockSize dc.fileSize dr.offset dr.depth
        if dblockSize < len then none
        else
          let off ← computeDiskOffset dc.fileSize dr.offset dr.depth
          let block := (disk.drop off).take len
          if dc.oldFileSize < off + len ∨ block.length ≠ len then return dc
          else if hash block ≠ (dc.chk position).key then return dc
          else
            -- `encrypt_existing_match`
            match encrypt (dc.chk position).key block with
            | none => return { dc with state := propagateError position dc.state }
            | some enc =>
                if hash enc ≠ (dc.chk position).query then
                  return { dc with state := propagateError position dc.state }
                else
                  let dc ← processResultWithRequest decrypt dc position
                    (dc.chk position).query enc true
                  -- the request is used again, so it must not be freed
                  let _ ← dc.topRequest
                  let dc := { dc with state := update dc.state position .downloadDown }
                  let (dc, upDone) ← topDownChildren
                    (tryTopDownReconstruction disk rounds) dr position block dc
                    (List.range dr.children.length)
                  return if upDone then { dc with state := propagateUp top position dc.state }
                    else dc

def matchRequest (offset depth : Nat) : Nat → DownloadRequest → Position → Option (Option Position)
  | 0, _, _ => none
  | rounds + 1, dr, position =>
      if dr.depth ≤ depth then some (some position)
      else do
        let first ← dr.children.head?
        let last ← dr.children.getLast?
        let chld := (offset + 2 ^ 64 - dr.offset) % 2 ^ 64 /
          treeComputeTreeSize (dr.depth - 1) % 2 ^ 32
        if chld < first.chkIdx ∨ last.chkIdx < chld then some none
        else
          let drc ← dr.children[chld - first.chkIdx]?
          matchRequest offset depth rounds drc ((chld - first.chkIdx) :: position)

def reconstructCb (dc : DownloadContext) (chk : ContentHashKey) (offset depth : Nat) :
    Option DownloadContext := do
  let top ← dc.topRequest
  match ← matchRequest offset depth (top.depth + 1) top [] with
  | none => return dc
  | some position =>
      let dr ← top.find position
      if dc.state position = .chkSet ∧ dc.chk position = chk then
        let blen := min (treeComputeTreeSize dr.depth)
          ((dc.length + dc.offset + 2 ^ 64 - dr.offset) % 2 ^ 64)
        return { dc with
          state := update dc.state position .downloadUp
          active := dc.active.erase ((dc.chk position).query, position)
          completed := (dc.completed + blen) % 2 ^ 64 }
      else return dc

inductive DownloadEvent where
  | topDown (disk : List UInt8)
  | reconstruct (chk : ContentHashKey) (offset depth : Nat)
  | reconstructCont
  | receive (position : Position) (data : List UInt8) (stored : Bool)

/-- A block is received for a request of which the query is active; the top-down
reconstruction is tried before requests are issued, if the top request waits. -/
def downloadStep (dc : DownloadContext) : DownloadEvent → Option DownloadContext
  | .topDown disk =>
      if dc.issueRequests then none
      else if dc.state [] = .chkSet then
        tryTopDownReconstruction hash encrypt decrypt disk dc.treedepth [] dc
      else some dc
  | .reconstruct chk offset depth => dc.reconstructCb chk offset depth
  | .reconstructCont => dc.topRequest.bind fun top =>
      scheduleBlockDownload (top.depth + 1) top [] { dc with issueRequests := true }
  | .receive position data stored =>
      if (hash data, position) ∈ dc.active then
        processResultWithRequest decrypt dc position (hash data) data stored
      else none

end

end DownloadContext

end Gnunet.Fs
