import Gnunet.Common
import Gnunet.GuardedRun
import Gnunet.LengthFraming

/-!
# The message stream tokenizer

`mst.c`, and with it `server_mst.c`, which differs from it only in the client that
it passes on.  The two loops are rounds that end in a jump; `none` is a failing
assertion, a write behind the end of the private buffer, or a loop that has run
out of fuel.

Every round does what `Framing.Format.next` says about the unread bytes, wherever
they are stored, so that a call is a run of the abstract reader `Delivers`.
-/

namespace Gnunet.Mst

open Framing List

/-- `GNUNET_SYSERR` is the value of `one_shot` after the one call of the
callback. -/
inductive OneShot where
  | no
  | yes
  | syserr
  deriving DecidableEq, Repr

/-- The memory at `hdr` has `curr_buf` bytes.  The closure of the callback
keeps the messages that it was called with. -/
structure MessageStreamTokenizer where
  ibuf : List UInt8
  off : Nat
  pos : Nat
  cbCls : List (List UInt8)
  deriving DecidableEq, Repr

open MessageStreamTokenizer

/-- The variables of a call; `buf` begins at an address in memory. -/
structure Frame where
  mst : MessageStreamTokenizer
  buf : List UInt8
  address : Nat
  oneShot : OneShot

inductive Jump where
  | exit (result : Result) (frame : Frame)
  | copy (result : Result) (frame : Frame)
  | doAlign (frame : Frame)
  | again (frame : Frame)

def OneShot.used : OneShot → OneShot
  | .yes => .syserr
  | oneShot => oneShot

namespace MessageStreamTokenizer

def create : MessageStreamTokenizer :=
  ⟨replicate sizeofMessageHeader 0, 0, 0, []⟩

def currBuf (mst : MessageStreamTokenizer) : Nat :=
  mst.ibuf.length

def reset (mst : MessageStreamTokenizer) : MessageStreamTokenizer :=
  { mst with off := 0, pos := 0 }

def moveToFront (mst : MessageStreamTokenizer) : MessageStreamTokenizer :=
  { mst with
    ibuf := (mst.ibuf.drop mst.off).take (mst.pos - mst.off) ++
      mst.ibuf.drop (mst.pos - mst.off)
    off := 0
    pos := mst.pos - mst.off }

def realloc (mst : MessageStreamTokenizer) (size : Nat) : MessageStreamTokenizer :=
  { mst with ibuf := mst.ibuf ++ replicate (size - mst.currBuf) 0 }

def store (mst : MessageStreamTokenizer) (data : List UInt8) : Option MessageStreamTokenizer :=
  if mst.pos + data.length ≤ mst.currBuf then
    some { mst with
      ibuf := mst.ibuf.take mst.pos ++ data ++ mst.ibuf.drop (mst.pos + data.length)
      pos := mst.pos + data.length }
  else none

def align (alignFactor : Nat) (mst : MessageStreamTokenizer) : MessageStreamTokenizer :=
  if mst.currBuf - mst.off < sizeofMessageHeader ∨ mst.off % alignFactor ≠ 0 then
    mst.moveToFront
  else mst

def makeSpace (want : Nat) (mst : MessageStreamTokenizer) : Option MessageStreamTokenizer :=
  let moved :=
    if mst.currBuf - mst.off < want ∧ 0 < mst.off then mst.moveToFront else mst
  if moved.currBuf < want then
    if moved.off = 0 then some (moved.realloc want) else none
  else some moved

end MessageStreamTokenizer

namespace Frame

/-- Complete the first `want` unprocessed bytes of the private buffer as far as
the buffer of the caller allows. -/
def fill (want : Nat) (frame : Frame) : Option Frame :=
  if frame.mst.pos - frame.mst.off < want then
    let delta := min (want - (frame.mst.pos - frame.mst.off)) frame.buf.length
    (frame.mst.store (frame.buf.take delta)).map fun mst =>
      { frame with mst, buf := frame.buf.drop delta, address := frame.address + delta }
  else some frame

def purged (purge : Bool) (frame : Frame) : Frame :=
  if purge then { frame with mst := frame.mst.reset } else frame

def called (frame : Frame) (message : List UInt8) : Frame :=
  { frame with
    mst := { frame.mst with cbCls := frame.mst.cbCls ++ [message] }
    oneShot := frame.oneShot.used }

end Frame

section

variable (alignFactor : Nat) (cb : List (List UInt8) → List UInt8 → Result)

def callPrivate (want : Nat) (frame : Frame) : Jump :=
  if frame.oneShot = .syserr then .copy .no frame
  else
    let message := (frame.mst.ibuf.drop frame.mst.off).take want
    let after := frame.called message
    let mst := { after.mst with off := frame.mst.off + want }
    if cb frame.mst.cbCls message = .syserr then .exit .syserr { after with mst }
    else .again { after with mst := if mst.off = mst.pos then mst.reset else mst }

def completeMessage (purge : Bool) (frame : Frame) : Option Jump :=
  let want := headerSize (frame.mst.ibuf.drop frame.mst.off)
  if want < sizeofMessageHeader then some (.exit .syserr frame)
  else
    (frame.mst.makeSpace want).bind fun mst =>
      ({ frame with mst : Frame }.fill want).map fun frame =>
        if frame.mst.pos - frame.mst.off < want then .exit .ok (frame.purged purge)
        else callPrivate cb want frame

def privateRound (purge : Bool) (frame : Frame) : Option Jump :=
  if frame.mst.off ≤ frame.mst.pos then
    ({ frame with mst := frame.mst.align alignFactor }.fill sizeofMessageHeader).bind
      fun frame =>
        if frame.mst.pos - frame.mst.off < sizeofMessageHeader then
          some (.exit .ok (frame.purged purge))
        else completeMessage cb purge frame
  else none

def zeroCopyRound (frame : Frame) : Option Jump :=
  if frame.mst.pos ≠ 0 then none
  else if frame.buf.length < sizeofMessageHeader then some (.copy .ok frame)
  else if frame.address % alignFactor ≠ 0 then some (.doAlign frame)
  else
    let want := headerSize frame.buf
    if want < sizeofMessageHeader then
      some (.exit .syserr { frame with mst := { frame.mst with off := 0 } })
    else if frame.buf.length < want then some (.copy .ok frame)
    else if frame.oneShot = .syserr then some (.copy .no frame)
    else
      let message := frame.buf.take want
      let after := frame.called message
      if cb frame.mst.cbCls message = .syserr then some (.exit .syserr after)
      else
        some (.again { after with buf := frame.buf.drop want, address := frame.address + want })

def copyRest (purge : Bool) (result : Result) (frame : Frame) :
    Option (Result × MessageStreamTokenizer) :=
  let stored :=
    if 0 < frame.buf.length ∧ purge = false then
      let size := frame.buf.length + frame.mst.pos
      (if frame.mst.currBuf < size then frame.mst.realloc size else frame.mst).store frame.buf
    else some frame.mst
  stored.map fun mst => (result, if purge then mst.reset else mst)

def loop (purge : Bool) : Nat → Bool → Frame → Option (Result × MessageStreamTokenizer)
  | 0, _, _ => none
  | fuel + 1, zeroCopy, frame =>
      (if zeroCopy then zeroCopyRound alignFactor cb frame
        else privateRound alignFactor cb purge frame).bind fun jump =>
      match jump with
      | .exit result frame => some (result, frame.mst)
      | .copy result frame => copyRest purge result frame
      | .doAlign frame => loop purge fuel false frame
      | .again frame => loop purge fuel (frame.mst.pos == 0) frame

def fromBuffer (mst : MessageStreamTokenizer) (buf : List UInt8) (address : Nat)
    (purge : Bool) (oneShot : OneShot) : Option (Result × MessageStreamTokenizer) :=
  if mst.off ≤ mst.pos ∧ mst.pos ≤ mst.currBuf then
    loop alignFactor cb purge (2 * (mst.pos - mst.off + buf.length) + 3) (mst.pos == 0)
      ⟨mst, buf, address, oneShot⟩
  else none

def next (mst : MessageStreamTokenizer) (oneShot : OneShot) :
    Option (Result × MessageStreamTokenizer) :=
  fromBuffer alignFactor cb mst [] 0 false oneShot

end

def messageFormat : Format UInt8 where
  headerLength := sizeofMessageHeader
  headerLength_pos := by decide
  sizeField := headerSize
  sizeField_append := by
    intro header more hlength
    match header, hlength with
    | _ :: _ :: _, _ => rfl

namespace MessageStreamTokenizer

def content (mst : MessageStreamTokenizer) : List UInt8 :=
  (mst.ibuf.take mst.pos).drop mst.off

structure Valid (mst : MessageStreamTokenizer) : Prop where
  off_le : mst.off ≤ mst.pos
  pos_le : mst.pos ≤ mst.currBuf
  header_le : sizeofMessageHeader ≤ mst.currBuf

/-- The private buffer is rearranged and keeps what is in it. -/
structure Kept (before after : MessageStreamTokenizer) : Prop where
  valid : after.Valid
  content_eq : after.content = before.content
  cbCls_eq : after.cbCls = before.cbCls

variable {mst : MessageStreamTokenizer}

section

variable (hvalid : mst.Valid)
include hvalid

theorem length_content : mst.content.length = mst.pos - mst.off := by
  have hpos := hvalid.pos_le
  unfold currBuf at hpos
  simp only [content, length_drop, length_take]
  omega

theorem content_append_drop : mst.ibuf.drop mst.off = mst.content ++ mst.ibuf.drop mst.pos := by
  have hpos := hvalid.pos_le
  have hoff := hvalid.off_le
  unfold currBuf at hpos
  have hlength : mst.off ≤ (mst.ibuf.take mst.pos).length := by
    rw [length_take]
    omega
  rw [content, ← drop_append_of_le_length hlength, take_append_drop]

theorem Kept.refl : mst.Kept mst := ⟨hvalid, rfl, rfl⟩

theorem kept_moveToFront : mst.Kept mst.moveToFront ∧ mst.moveToFront.currBuf = mst.currBuf := by
  have hpos := hvalid.pos_le
  unfold currBuf at hpos
  have hfront : ((mst.ibuf.drop mst.off).take (mst.pos - mst.off)).length = mst.pos - mst.off := by
    rw [length_take, length_drop]
    omega
  have hlength : mst.moveToFront.currBuf = mst.currBuf := by
    simp only [moveToFront, currBuf, length_append, hfront, length_drop]
    omega
  refine ⟨⟨⟨Nat.zero_le _, ?_, hlength ▸ hvalid.header_le⟩, ?_, rfl⟩, hlength⟩
  · rw [hlength]
    exact (Nat.sub_le _ _).trans hvalid.pos_le
  · simp only [content, moveToFront, drop_zero]
    rw [take_append_of_le_length (by omega), take_take, min_self, drop_take]

theorem kept_realloc (size : Nat) :
    mst.Kept (mst.realloc size) ∧ size ≤ (mst.realloc size).currBuf := by
  have hpos := hvalid.pos_le
  have hheader := hvalid.header_le
  have hlength : (mst.realloc size).currBuf = mst.currBuf + (size - mst.currBuf) := by
    simp [realloc, currBuf]
  refine ⟨⟨⟨hvalid.off_le, ?_, by omega⟩, ?_, rfl⟩, by omega⟩
  · rw [hlength]
    exact Nat.le_add_right_of_le hpos
  · simp only [content, realloc]
    rw [take_append_of_le_length hpos]

theorem store_spec {data : List UInt8} (hspace : mst.pos + data.length ≤ mst.currBuf) :
    ∃ after, mst.store data = some after ∧ after.Valid ∧
      after.content = mst.content ++ data ∧ after.cbCls = mst.cbCls := by
  refine ⟨_, if_pos hspace, ?_, ?_, rfl⟩
  · have hoff := hvalid.off_le
    have hheader := hvalid.header_le
    unfold currBuf at hspace hheader
    refine ⟨hoff.trans (Nat.le_add_right _ _), ?_, ?_⟩ <;>
    · simp only [currBuf, length_append, length_take, length_drop]
      omega
  · have hoff := hvalid.off_le
    unfold currBuf at hspace
    have hfront : (mst.ibuf.take mst.pos).length = mst.pos := by
      rw [length_take]
      omega
    have hwritten : (mst.ibuf.take mst.pos ++ data).length = mst.pos + data.length := by
      rw [length_append, hfront]
    simp only [content]
    rw [take_append_of_le_length hwritten.ge, ← hwritten, take_length,
      drop_append_of_le_length (by omega)]

end

theorem align_spec (alignFactor : Nat) (hvalid : mst.Valid) : mst.Kept (mst.align alignFactor) ∧
      (mst.align alignFactor).off + sizeofMessageHeader ≤ (mst.align alignFactor).currBuf := by
  have hoff := hvalid.off_le
  have hpos := hvalid.pos_le
  have hheader := hvalid.header_le
  unfold align
  split
  · obtain ⟨hkept, hlength⟩ := kept_moveToFront hvalid
    exact ⟨hkept, by rw [hlength]; simpa [moveToFront] using hheader⟩
  next haligned =>
    exact ⟨.refl hvalid, by omega⟩

theorem kept_moved (hvalid : mst.Valid) (want : Nat)
    (hmoved : (if mst.currBuf - mst.off < want ∧ 0 < mst.off then mst.moveToFront
      else mst) = moved) : mst.Kept moved ∧ (moved.off = 0 ∨ moved.off + want ≤ moved.currBuf) := by
  have hoff := hvalid.off_le
  have hpos := hvalid.pos_le
  split at hmoved
  · subst hmoved
    exact ⟨(kept_moveToFront hvalid).1, .inl rfl⟩
  · subst hmoved
    exact ⟨.refl hvalid, by omega⟩

theorem makeSpace_spec (hvalid : mst.Valid) (want : Nat) :
    ∃ after, mst.makeSpace want = some after ∧ mst.Kept after ∧
      after.off + want ≤ after.currBuf := by
  unfold makeSpace
  generalize hmoved : (if mst.currBuf - mst.off < want ∧ 0 < mst.off then
    mst.moveToFront else mst) = moved
  obtain ⟨hkept, _⟩ := kept_moved hvalid want hmoved
  by_cases hgrow : moved.currBuf < want
  · have hzero : moved.off = 0 := by omega
    obtain ⟨hrealloc, _⟩ := kept_realloc hkept.valid want
    rw [if_pos hgrow, if_pos hzero]
    refine ⟨_, rfl, ⟨hrealloc.valid, hrealloc.content_eq.trans hkept.content_eq,
      hrealloc.cbCls_eq.trans hkept.cbCls_eq⟩, ?_⟩
    have hoff : (moved.realloc want).off = moved.off := rfl
    omega
  · rw [if_neg hgrow]
    exact ⟨_, rfl, hkept, by omega⟩

end MessageStreamTokenizer

variable {after : Frame}

namespace Frame

def unread (frame : Frame) : List UInt8 :=
  frame.mst.content ++ frame.buf

structure Kept (before after : Frame) : Prop where
  valid : after.mst.Valid
  unread_eq : after.unread = before.unread
  cbCls_eq : after.mst.cbCls = before.mst.cbCls
  oneShot_eq : after.oneShot = before.oneShot

variable {frame : Frame}

theorem Kept.refl (hvalid : frame.mst.Valid) : frame.Kept frame := ⟨hvalid, rfl, rfl, rfl⟩

theorem Kept.of_mst {mst : MessageStreamTokenizer} (hkept : frame.mst.Kept mst) :
    frame.Kept { frame with mst } :=
  ⟨hkept.valid, by simp only [unread, hkept.content_eq], hkept.cbCls_eq, rfl⟩

theorem Kept.trans (hfirst : frame.Kept middle) (hsecond : middle.Kept after) : frame.Kept after :=
  ⟨hsecond.valid, hsecond.unread_eq.trans hfirst.unread_eq,
    hsecond.cbCls_eq.trans hfirst.cbCls_eq, hsecond.oneShot_eq.trans hfirst.oneShot_eq⟩

theorem fill_spec (hvalid : frame.mst.Valid) (hspace : frame.mst.off + want ≤ frame.mst.currBuf) :
    ∃ after, frame.fill want = some after ∧ frame.Kept after ∧
      (want ≤ after.mst.content.length ∨ after.buf = []) := by
  have hlength := length_content hvalid
  unfold fill
  by_cases hshort : frame.mst.pos - frame.mst.off < want
  · rw [if_pos hshort]
    dsimp only
    generalize hdelta : min (want - (frame.mst.pos - frame.mst.off)) frame.buf.length = delta
    have hdata : (frame.buf.take delta).length = delta := by
      rw [length_take]
      omega
    obtain ⟨_, hstore, hafter, hcontent, hlog⟩ := store_spec hvalid
        (show frame.mst.pos + (frame.buf.take delta).length ≤ frame.mst.currBuf by omega)
    rw [hstore]
    refine ⟨_, rfl, ⟨hafter, ?_, hlog, rfl⟩, ?_⟩
    · simp only [unread, hcontent, append_assoc, take_append_drop]
    · rw [hcontent, length_append, hdata, drop_eq_nil_iff]
      omega
  · rw [if_neg hshort]
    exact ⟨frame, rfl, .refl hvalid, .inl (by omega)⟩

end Frame

inductive Round (cb : List (List UInt8) → List UInt8 → Result) (frame : Frame) :
    Jump → Prop
  | waits {after : Frame} :
      messageFormat.next frame.unread = .incomplete → frame.Kept after →
      after.buf = [] → Round cb frame (.exit .ok after)
  | leaves {after : Frame} :
      messageFormat.next frame.unread = .incomplete → frame.Kept after →
      Round cb frame (.copy .ok after)
  | corrupt {after : Frame} :
      messageFormat.next frame.unread = .corrupt →
      after.mst.cbCls = frame.mst.cbCls → Round cb frame (.exit .syserr after)
  | ready {after : Frame} {message rest : List UInt8} :
      messageFormat.next frame.unread = .frame message rest →
      frame.oneShot = .syserr → frame.Kept after → Round cb frame (.copy .no after)
  | refused {after : Frame} {message rest : List UInt8} :
      messageFormat.next frame.unread = .frame message rest →
      frame.oneShot ≠ .syserr → cb frame.mst.cbCls message = .syserr →
      after.mst.cbCls = frame.mst.cbCls ++ [message] →
      Round cb frame (.exit .syserr after)
  | delivers {after : Frame} {message rest : List UInt8} :
      messageFormat.next frame.unread = .frame message rest →
      frame.oneShot ≠ .syserr → cb frame.mst.cbCls message ≠ .syserr →
      after.mst.Valid → after.unread = rest →
      after.mst.cbCls = frame.mst.cbCls ++ [message] →
      after.oneShot = frame.oneShot.used → Round cb frame (.again after)

section

variable {alignFactor : Nat} {cb : List (List UInt8) → List UInt8 → Result} {frame : Frame}

theorem Round.of_kept (hkept : frame.Kept after) (hround : Round cb after jump) :
    Round cb frame jump := by
  cases hround with
  | waits hnext hmore hbuf =>
    exact .waits (hkept.unread_eq ▸ hnext) (hkept.trans hmore) hbuf
  | leaves hnext hmore => exact .leaves (hkept.unread_eq ▸ hnext) (hkept.trans hmore)
  | corrupt hnext hlog =>
    exact .corrupt (hkept.unread_eq ▸ hnext) (hlog.trans hkept.cbCls_eq)
  | ready hnext hused hmore =>
    exact .ready (hkept.unread_eq ▸ hnext) (hkept.oneShot_eq ▸ hused) (hkept.trans hmore)
  | refused hnext hunused hcb hlog =>
    rw [hkept.cbCls_eq] at hcb hlog
    exact .refused (hkept.unread_eq ▸ hnext) (hkept.oneShot_eq ▸ hunused) hcb hlog
  | delivers hnext hunused hcb hvalid hunread hlog hshot =>
    rw [hkept.cbCls_eq] at hcb hlog
    exact .delivers (hkept.unread_eq ▸ hnext) (hkept.oneShot_eq ▸ hunused) hcb hvalid
      hunread hlog (hkept.oneShot_eq ▸ hshot)

theorem headerSize_append {header : List UInt8} (more : List UInt8)
    (hheader : sizeofMessageHeader ≤ header.length) :
    headerSize (header ++ more) = headerSize header :=
  messageFormat.sizeField_append header more hheader

variable (hvalid : frame.mst.Valid)
include hvalid

theorem callPrivate_spec (hwant : sizeofMessageHeader ≤ headerSize frame.mst.content)
    (hcomplete : headerSize frame.mst.content ≤ frame.mst.content.length) :
    Round cb frame (callPrivate cb (headerSize frame.mst.content) frame) := by
  have hlength := length_content hvalid
  have hoff := hvalid.off_le
  have hpos := hvalid.pos_le
  have hnext : messageFormat.next frame.unread =
      .frame (frame.mst.content.take (headerSize frame.mst.content))
        (frame.mst.content.drop (headerSize frame.mst.content) ++ frame.buf) :=
    Format.next_append (Format.next_eq_frame hwant hcomplete) _
  generalize headerSize frame.mst.content = want at *
  have hmessage : (frame.mst.ibuf.drop frame.mst.off).take want = frame.mst.content.take want := by
    rw [content_append_drop hvalid, take_append_of_le_length hcomplete]
  unfold callPrivate
  rw [hmessage]
  split
  next hused =>
    exact .ready hnext hused (.refl hvalid)
  next hunused =>
    dsimp only
    split
    next hcb =>
      exact .refused hnext hunused hcb rfl
    next hcb =>
      have hdrop : (frame.mst.ibuf.take frame.mst.pos).drop (frame.mst.off + want) =
          frame.mst.content.drop want := by
        rw [content, drop_drop]
      refine .delivers hnext hunused hcb ?_ ?_ ?_ rfl
      · split
        · exact ⟨le_rfl, Nat.zero_le _, hvalid.header_le⟩
        · exact ⟨by simp only [Frame.called]; omega, hpos, hvalid.header_le⟩
      · split
        next hall =>
          simp only [Frame.called] at hall
          rw [drop_eq_nil_of_le (show frame.mst.content.length ≤ want by omega)]
          rfl
        · simp only [Frame.unread, content, Frame.called, hdrop]
      · split <;> rfl

theorem completeMessage_spec (hheader : sizeofMessageHeader ≤ frame.mst.content.length) :
    ∃ jump, completeMessage cb false frame = some jump ∧ Round cb frame jump := by
  have hfield : headerSize (frame.mst.ibuf.drop frame.mst.off) = headerSize frame.mst.content := by
    rw [content_append_drop hvalid, headerSize_append _ hheader]
  have hunread : headerSize frame.unread = headerSize frame.mst.content :=
    headerSize_append _ hheader
  have hlong : sizeofMessageHeader ≤ frame.unread.length := by
    rw [Frame.unread, length_append]
    omega
  unfold completeMessage
  rw [hfield]
  by_cases hsmall : headerSize frame.mst.content < sizeofMessageHeader
  · rw [if_pos hsmall]
    exact ⟨_, rfl, .corrupt (Format.next_eq_corrupt hlong (hunread.trans_lt hsmall)) rfl⟩
  · rw [if_neg hsmall]
    obtain ⟨mst, hspace, hmoved, hroom⟩ := makeSpace_spec hvalid (headerSize frame.mst.content)
    have hmovedFrame : frame.Kept { frame with mst } := .of_mst hmoved
    obtain ⟨after, hfill, hfilled, hcomplete⟩ := Frame.fill_spec hmovedFrame.valid hroom
    have hkept := hmovedFrame.trans hfilled
    have hlength := length_content hkept.valid
    rw [hspace, Option.bind_some, hfill]
    refine ⟨_, rfl, ?_⟩
    dsimp only
    split
    next hshort =>
      have hbuf : after.buf = [] := hcomplete.resolve_left (by omega)
      refine .waits (Format.next_eq_incomplete (.inr ?_)) hkept hbuf
      have hafter : frame.unread.length = after.mst.content.length := by
        rw [← hkept.unread_eq, Frame.unread, hbuf, append_nil]
      change sizeofMessageHeader ≤ headerSize frame.unread ∧
        frame.unread.length < headerSize frame.unread
      omega
    next hfull =>
      have hafterHeader : sizeofMessageHeader ≤ after.mst.content.length := by omega
      have hafterField : headerSize after.mst.content = headerSize frame.mst.content := by
        rw [← hunread, ← hkept.unread_eq]
        exact (headerSize_append _ hafterHeader).symm
      rw [← hafterField]
      exact (callPrivate_spec hkept.valid (by omega) (by omega)).of_kept hkept

theorem privateRound_spec : ∃ jump, privateRound alignFactor cb false frame = some jump ∧
      Round cb frame jump := by
  unfold privateRound
  rw [if_pos hvalid.off_le]
  obtain ⟨hmoved, hroom⟩ := align_spec alignFactor hvalid
  have hmovedFrame : frame.Kept { frame with mst := frame.mst.align alignFactor } := .of_mst hmoved
  obtain ⟨after, hfill, hfilled, hcomplete⟩ := Frame.fill_spec hmovedFrame.valid hroom
  have hkept := hmovedFrame.trans hfilled
  have hlength := length_content hkept.valid
  rw [hfill, Option.bind_some]
  split
  next hshort =>
    have hbuf : after.buf = [] := hcomplete.resolve_left (by omega)
    refine ⟨_, rfl, .waits (Format.next_eq_incomplete (.inl ?_)) hkept hbuf⟩
    rw [← hkept.unread_eq, Frame.unread, hbuf, append_nil, hlength]
    exact hshort
  · obtain ⟨jump, hjump, hround⟩ : ∃ jump, completeMessage cb false after = some jump ∧
        Round cb after jump := completeMessage_spec hkept.valid (by omega)
    exact ⟨jump, hjump, hround.of_kept hkept⟩

theorem zeroCopyRound_spec (hpos : frame.mst.pos = 0) :
    zeroCopyRound alignFactor cb frame = some (.doAlign frame) ∨
      ∃ jump, zeroCopyRound alignFactor cb frame = some jump ∧ Round cb frame jump := by
  have hunread : frame.unread = frame.buf := by
    have hlength := length_content hvalid
    rw [hpos, Nat.zero_sub] at hlength
    rw [Frame.unread, length_eq_zero_iff.mp hlength, nil_append]
  unfold zeroCopyRound
  rw [if_neg (not_not.mpr hpos)]
  by_cases hheader : frame.buf.length < sizeofMessageHeader
  · rw [if_pos hheader]
    right
    refine ⟨_, rfl, .leaves (Format.next_eq_incomplete (.inl ?_)) (.refl hvalid)⟩
    rw [hunread]
    exact hheader
  rw [if_neg hheader]
  by_cases hunaligned : frame.address % alignFactor ≠ 0
  · rw [if_pos hunaligned]
    exact .inl rfl
  rw [if_neg hunaligned]
  right
  by_cases hsmall : headerSize frame.buf < sizeofMessageHeader
  · rw [if_pos hsmall]
    refine ⟨_, rfl, .corrupt (Format.next_eq_corrupt ?_ ?_) rfl⟩ <;> rw [hunread]
    · exact Nat.le_of_not_lt hheader
    · exact hsmall
  rw [if_neg hsmall]
  by_cases hshort : frame.buf.length < headerSize frame.buf
  · rw [if_pos hshort]
    refine ⟨_, rfl, .leaves (Format.next_eq_incomplete (.inr ?_)) (.refl hvalid)⟩
    rw [hunread]
    exact ⟨Nat.le_of_not_lt hsmall, hshort⟩
  rw [if_neg hshort]
  have hnext : messageFormat.next frame.unread = .frame (frame.buf.take (headerSize frame.buf))
        (frame.buf.drop (headerSize frame.buf)) := by
    rw [hunread]
    exact Format.next_eq_frame (Nat.le_of_not_lt hsmall) (Nat.le_of_not_lt hshort)
  by_cases hused : frame.oneShot = .syserr
  · rw [if_pos hused]
    exact ⟨_, rfl, .ready hnext hused (.refl hvalid)⟩
  rw [if_neg hused]
  by_cases hcb : cb frame.mst.cbCls (frame.buf.take (headerSize frame.buf)) = .syserr
  · rw [if_pos hcb]
    exact ⟨_, rfl, .refused hnext hused hcb rfl⟩
  · rw [if_neg hcb]
    refine ⟨_, rfl, .delivers hnext hused hcb ?_ ?_ rfl rfl⟩
    · exact ⟨hvalid.off_le, hvalid.pos_le, hvalid.header_le⟩
    · have hempty : frame.mst.content = [] := by
        exact append_left_eq_self.mp hunread
      have hcontent : (frame.called (frame.buf.take (headerSize frame.buf))).mst.content =
          frame.mst.content := rfl
      rw [Frame.unread, hcontent, hempty, nil_append]

theorem copyRest_spec (result : Result) :
    ∃ mst, copyRest false result frame = some (result, mst) ∧ mst.Valid ∧
      mst.content = frame.unread ∧ mst.cbCls = frame.mst.cbCls := by
  unfold copyRest
  by_cases hempty : 0 < frame.buf.length
  · rw [if_pos ⟨hempty, rfl⟩]
    dsimp only
    generalize hgrown : (if frame.mst.currBuf < frame.buf.length + frame.mst.pos then
      frame.mst.realloc (frame.buf.length + frame.mst.pos) else frame.mst) = grown
    have hkept : frame.mst.Kept grown ∧ grown.pos = frame.mst.pos ∧
        frame.mst.pos + frame.buf.length ≤ grown.currBuf := by
      split at hgrown
      · subst hgrown
        obtain ⟨hkept, _⟩ := kept_realloc hvalid (frame.buf.length + frame.mst.pos)
        exact ⟨hkept, rfl, by omega⟩
      · subst hgrown
        exact ⟨.refl hvalid, rfl, by omega⟩
    obtain ⟨hkept, hpos, hspace⟩ := hkept
    obtain ⟨mst, hstore, hafter, hcontent, hlog⟩ := store_spec hkept.valid (hpos ▸ hspace)
    rw [hstore]
    exact ⟨mst, rfl, hafter, by rw [hcontent, hkept.content_eq, Frame.unread],
      hlog.trans hkept.cbCls_eq⟩
  · rw [if_neg (fun h => hempty h.1)]
    refine ⟨frame.mst, rfl, hvalid, ?_, rfl⟩
    rw [Frame.unread, length_eq_zero_iff.mp (Nat.eq_zero_of_not_pos hempty), append_nil]

end

/-- A call of the abstract tokenizer, which has the unread bytes of the stream
and the messages delivered so far: its result, the messages delivered after it
and the bytes that are then unread. -/
inductive Delivers (cb : List (List UInt8) → List UInt8 → Result) :
    List (List UInt8) → List UInt8 → OneShot → Result → List (List UInt8) → List UInt8 → Prop
  | waits {log : List (List UInt8)} {bytes : List UInt8} {oneShot : OneShot} :
      messageFormat.next bytes = .incomplete → Delivers cb log bytes oneShot .ok log bytes
  | corrupt {log : List (List UInt8)} {bytes : List UInt8} {oneShot : OneShot} :
      messageFormat.next bytes = .corrupt →
      Delivers cb log bytes oneShot .syserr log bytes
  | ready {log : List (List UInt8)} {bytes message rest : List UInt8} :
      messageFormat.next bytes = .frame message rest →
      Delivers cb log bytes .syserr .no log bytes
  | refused {log : List (List UInt8)} {bytes message rest : List UInt8}
      {oneShot : OneShot} :
      messageFormat.next bytes = .frame message rest → oneShot ≠ .syserr →
      cb log message = .syserr →
      Delivers cb log bytes oneShot .syserr (log ++ [message]) rest
  | delivers {log log' : List (List UInt8)} {bytes message rest rest' : List UInt8}
      {oneShot : OneShot} {result : Result} :
      messageFormat.next bytes = .frame message rest → oneShot ≠ .syserr →
      cb log message ≠ .syserr →
      Delivers cb (log ++ [message]) rest oneShot.used result log' rest' →
      Delivers cb log bytes oneShot result log' rest'

def Answers (cb : List (List UInt8) → List UInt8 → Result) (log : List (List UInt8))
    (bytes : List UInt8) (oneShot : OneShot) (answer : Result × MessageStreamTokenizer) : Prop :=
  ∃ rest, Delivers cb log bytes oneShot answer.1 answer.2.cbCls rest ∧
    (answer.1 ≠ .syserr → answer.2.Valid ∧ answer.2.content = rest)

section

variable {alignFactor : Nat} {cb : List (List UInt8) → List UInt8 → Result} {frame : Frame}

theorem Round.exit_answers (hround : Round cb frame (.exit result after)) :
    Answers cb frame.mst.cbCls frame.unread frame.oneShot (result, after.mst) := by
  cases hround with
  | waits hnext hkept hbuf =>
    refine ⟨frame.unread, hkept.cbCls_eq ▸ .waits hnext, fun _ => ⟨hkept.valid, ?_⟩⟩
    rw [← hkept.unread_eq, Frame.unread, hbuf, append_nil]
  | corrupt hnext hlog =>
    exact ⟨frame.unread, hlog ▸ .corrupt hnext, fun h => absurd rfl h⟩
  | @refused _ message rest hnext hunused hcb hlog =>
    exact ⟨rest, hlog ▸ .refused hnext hunused hcb, fun h => absurd rfl h⟩

theorem Round.copy_answers (hround : Round cb frame (.copy result after)) :
    ∃ answer, copyRest false result after = some answer ∧
      Answers cb frame.mst.cbCls frame.unread frame.oneShot answer := by
  cases hround with
  | leaves hnext hkept =>
    obtain ⟨mst, hcopy, hvalid, hcontent, hlog⟩ := copyRest_spec hkept.valid .ok
    refine ⟨_, hcopy, frame.unread, ?_, fun _ => ⟨hvalid, ?_⟩⟩
    · rw [hlog, hkept.cbCls_eq]
      exact .waits hnext
    · rw [hcontent, hkept.unread_eq]
  | ready hnext hused hkept =>
    obtain ⟨_, hcopy, hvalid, hcontent, hlog⟩ := copyRest_spec hkept.valid .no
    refine ⟨_, hcopy, frame.unread, ?_, fun _ => ⟨hvalid, ?_⟩⟩
    · rw [hlog, hkept.cbCls_eq, hused]
      exact .ready hnext
    · rw [hcontent, hkept.unread_eq]

theorem loop_spec (hvalid : frame.mst.Valid) (hempty : zeroCopy = true → frame.mst.pos = 0)
    (hfuel : zeroCopy.toNat + 2 * frame.unread.length + 1 ≤ fuel) :
    ∃ answer, loop alignFactor cb false fuel zeroCopy frame = some answer ∧
      Answers cb frame.mst.cbCls frame.unread frame.oneShot answer := by
  induction fuel generalizing zeroCopy frame with
  | zero => omega
  | succ fuel ih =>
    simp only [loop]
    have hround : (zeroCopy = true ∧ zeroCopyRound alignFactor cb frame = some (.doAlign frame)) ∨
        ∃ jump, (if zeroCopy then zeroCopyRound alignFactor cb frame
          else privateRound alignFactor cb false frame) = some jump ∧
            Round cb frame jump := by
      cases zeroCopy with
      | true =>
        rcases zeroCopyRound_spec hvalid (hempty rfl) with hjump | hjump
        · exact .inl ⟨rfl, hjump⟩
        · exact .inr hjump
      | false => exact .inr (privateRound_spec hvalid)
    rcases hround with ⟨rfl, hjump⟩ | ⟨jump, hjump, hround⟩
    · rw [if_pos rfl, hjump, Option.bind_some]
      have hone : true.toNat = 1 := rfl
      exact ih hvalid (fun h => by cases h) (by simp only [Bool.toNat_false]; omega)
    · rw [hjump, Option.bind_some]
      cases jump with
      | exit result after => exact ⟨_, rfl, hround.exit_answers⟩
      | copy result after => exact hround.copy_answers
      | doAlign after => cases hround
      | again after =>
        cases hround with
        | delivers hnext hunused hcb hafter hunread hlog hshot =>
          obtain ⟨hbytes, -, _⟩ := Format.frame_of_next hnext
          have hlength := congrArg List.length hbytes
          rw [length_append] at hlength
          have hfour : messageFormat.headerLength = 4 := rfl
          have hbit := Bool.toNat_le (after.mst.pos == 0)
          have hempty' : (after.mst.pos == 0) = true → after.mst.pos = 0 := fun h => beq_iff_eq.mp h
          obtain ⟨answer, hloop, rest, hdelivers, hrest⟩ :=
            ih hafter hempty' (by rw [hunread]; omega)
          refine ⟨answer, hloop, rest, ?_, hrest⟩
          rw [hlog, hunread, hshot] at hdelivers
          exact .delivers hnext hunused hcb hdelivers

theorem fromBuffer_spec {mst : MessageStreamTokenizer} (hvalid : mst.Valid)
    (buf : List UInt8) (address : Nat) (oneShot : OneShot) :
    ∃ answer, fromBuffer alignFactor cb mst buf address false oneShot = some answer ∧
      Answers cb mst.cbCls (mst.content ++ buf) oneShot answer := by
  have hlength := length_content hvalid
  have hbit := Bool.toNat_le (mst.pos == 0)
  unfold fromBuffer
  rw [if_pos ⟨hvalid.off_le, hvalid.pos_le⟩]
  refine loop_spec hvalid (fun h => beq_iff_eq.mp h) ?_
  simp only [Frame.unread, length_append]
  omega

end

/-- The callback has refused the last message that it was called with. -/
def RefusedLast (cb : List (List UInt8) → List UInt8 → Result) (log : List (List UInt8)) : Prop :=
  ∃ earlier message, log = earlier ++ [message] ∧ cb earlier message = .syserr

namespace Delivers

variable {cb : List (List UInt8) → List UInt8 → Result}
  {log log' : List (List UInt8)} {bytes rest : List UInt8} {oneShot : OneShot}
  {result : Result}

theorem parses (hparses : messageFormat.Parses stream log bytes)
    (hdelivers : Delivers cb log bytes oneShot result log' rest) :
    messageFormat.Parses stream log' rest := by
  induction hdelivers with
  | waits | corrupt | ready => exact hparses
  | refused hnext => exact hparses.take hnext
  | delivers hnext _ _ _ ih => exact ih (hparses.take hnext)

theorem next_of_ok (hdelivers : Delivers cb log bytes oneShot result log' rest)
    (hresult : result = .ok) : messageFormat.next rest = .incomplete := by
  induction hdelivers with
  | waits hnext => exact hnext
  | corrupt | ready | refused => cases hresult
  | delivers _ _ _ _ ih => exact ih hresult

theorem next_of_no (hdelivers : Delivers cb log bytes oneShot result log' rest)
    (hresult : result = .no) : ∃ message more, messageFormat.next rest = .frame message more := by
  induction hdelivers with
  | ready hnext => exact ⟨_, _, hnext⟩
  | waits | corrupt | refused => cases hresult
  | delivers _ _ _ _ ih => exact ih hresult

theorem not_refusedLast (hcb : cb log message ≠ .syserr) : ¬ RefusedLast cb (log ++ [message]) := by
  rintro ⟨_, _, hlog, hrefused⟩
  obtain ⟨rfl, hlast⟩ := append_inj' hlog rfl
  cases hlast
  exact hcb hrefused

variable (hdelivers : Delivers cb log bytes oneShot result log' rest)
include hdelivers

theorem syserr_iff (haccepted : ¬ RefusedLast cb log) :
    result = .syserr ↔ messageFormat.next rest = .corrupt ∨ RefusedLast cb log' := by
  induction hdelivers with
  | waits hnext => simp [hnext, haccepted]
  | corrupt hnext => simp [hnext]
  | ready hnext => simp [hnext, haccepted]
  | refused _ _ hcb => exact iff_of_true rfl (.inr ⟨_, _, rfl, hcb⟩)
  | delivers _ _ hcb _ ih => exact ih (not_refusedLast hcb)

theorem length_le : log.length ≤ log'.length := by
  induction hdelivers with
  | waits | corrupt | ready => exact le_rfl
  | refused => simp
  | delivers _ _ _ _ ih =>
    rw [length_append] at ih
    omega

theorem length_lt (hunused : oneShot ≠ .syserr)
    (hready : ∃ message more, messageFormat.next bytes = .frame message more) :
    log.length < log'.length := by
  obtain ⟨_, _, hready⟩ := hready
  cases hdelivers with
  | waits hnext => simp [hready] at hnext
  | corrupt hnext => simp [hready] at hnext
  | ready => exact absurd rfl hunused
  | refused => simp
  | delivers _ _ _ hmore =>
    have hle := hmore.length_le
    rw [length_append, length_singleton] at hle
    omega

end Delivers

inductive Call where
  | fromBuffer (buf : List UInt8) (address : Nat) (oneShot : Bool)
  | next (oneShot : Bool)

def Call.buf : Call → List UInt8
  | .fromBuffer buf _ _ => buf
  | .next _ => []

/-- A tokenizer in use: the bytes that it was given and the result of the last
call. -/
structure Session where
  mst : MessageStreamTokenizer
  stream : List UInt8
  last : Result

namespace Session

variable (alignFactor : Nat) (cb : List (List UInt8) → List UInt8 → Result)

def start : Session :=
  ⟨.create, [], .ok⟩

def answer (mst : MessageStreamTokenizer) : Call → Option (Result × MessageStreamTokenizer)
  | .fromBuffer buf address oneShot =>
      Mst.fromBuffer alignFactor cb mst buf address false (if oneShot then .yes else .no)
  | .next oneShot => Mst.next alignFactor cb mst (if oneShot then .yes else .no)

def call (session : Session) (call : Call) : Option Session :=
  if session.last = .syserr then some session
  else
    (answer alignFactor cb session.mst call).map fun (last, mst) =>
      ⟨mst, session.stream ++ call.buf, last⟩

def receive (calls : List Call) : Option Session :=
  calls.foldlM (call alignFactor cb) start

variable {alignFactor} {cb}

structure Reads (cb : List (List UInt8) → List UInt8 → Result) (session : Session)
    (rest : List UInt8) : Prop where
  parses : messageFormat.Parses session.stream session.mst.cbCls rest
  incomplete : session.last = .ok → messageFormat.next rest = .incomplete
  ready : session.last = .no → ∃ message more, messageFormat.next rest = .frame message more
  syserr_iff : session.last = .syserr ↔
    messageFormat.next rest = .corrupt ∨ RefusedLast cb session.mst.cbCls
  stored : session.last ≠ .syserr → session.mst.Valid ∧ session.mst.content = rest

theorem reads_start : Reads cb start [] where
  parses := .start
  incomplete _ := rfl
  ready h := by cases h
  syserr_iff := by
    refine iff_of_false (by decide) ?_
    rintro (h | ⟨_, _, hlog, -⟩)
    · cases h
    · simp [start, create] at hlog
  stored _ := ⟨⟨le_rfl, Nat.zero_le _, le_rfl⟩, rfl⟩

variable (alignFactor) (cb) in
theorem answer_spec {mst : MessageStreamTokenizer} (hvalid : mst.Valid) (call : Call) :
    ∃ oneShot ≠ .syserr, ∃ result, answer alignFactor cb mst call = some result ∧
      Answers cb mst.cbCls (mst.content ++ call.buf) oneShot result := by
  have hunused : ∀ once : Bool, (if once then OneShot.yes else .no) ≠ .syserr := by decide
  cases call with
  | _ => exact ⟨_, hunused _, fromBuffer_spec hvalid _ _ _⟩

variable {session : Session}

theorem Reads.call (hreads : Reads cb session rest) (call : Call) :
    ∃ after rest', session.call alignFactor cb call = some after ∧ Reads cb after rest' ∧
      (session.last = .no → after.stream = session.stream ++ call.buf ∧
        session.mst.cbCls.length < after.mst.cbCls.length) := by
  unfold Session.call
  by_cases hlast : session.last = .syserr
  · rw [if_pos hlast]
    refine ⟨session, rest, rfl, hreads, fun h => ?_⟩
    rw [hlast] at h
    cases h
  · rw [if_neg hlast]
    obtain ⟨hvalid, hcontent⟩ := hreads.stored hlast
    obtain ⟨_, hunused, ⟨_, _⟩, hanswer, rest', hdelivers, hstored⟩ :=
      answer_spec alignFactor cb hvalid call
    rw [hanswer]
    rw [hcontent] at hdelivers
    have haccepted : ¬ RefusedLast cb session.mst.cbCls :=
      fun h => hlast (hreads.syserr_iff.mpr (.inr h))
    refine ⟨_, rest', rfl, ⟨hdelivers.parses (hreads.parses.append _),
      hdelivers.next_of_ok, hdelivers.next_of_no, hdelivers.syserr_iff haccepted,
      hstored⟩, fun hno => ⟨rfl, hdelivers.length_lt hunused ?_⟩⟩
    obtain ⟨message, _, hready⟩ := hreads.ready hno
    exact ⟨message, _, Format.next_append hready _⟩

variable (alignFactor) (cb) in
theorem receive_reads (calls : List Call) : ∃ session, receive alignFactor cb calls = some session ∧
      ∃ rest, Reads cb session rest := by
  refine Protocol.exists_foldlM (fun session => ∃ rest, Reads cb session rest) ?_ ⟨[], reads_start⟩
  rintro session call - ⟨_, hreads⟩
  obtain ⟨after, rest', hcall, hafter, -⟩ := hreads.call call
  exact ⟨after, hcall, rest', hafter⟩

theorem Reads.length_le (hreads : Reads cb session rest) :
    session.mst.cbCls.length ≤ (messageFormat.frames session.stream).length := by
  rw [hreads.parses.frames_eq.1, length_append]
  omega

theorem Reads.drains (hreads : Reads cb session rest) (oneShot : Bool) :
    ∃ count after, (replicate count (Call.next oneShot)).foldlM
        (Session.call alignFactor cb) session = some after ∧
      after.stream = session.stream ∧ after.last ≠ .no := by
  -- every such call delivers one of the messages of the stream
  induction hleft : (messageFormat.frames session.stream).length -
      session.mst.cbCls.length using Nat.strong_induction_on
      generalizing session rest with
  | _ left ih =>
    by_cases hno : session.last = .no
    · obtain ⟨next, _, hcall, hnext, hprogress⟩ := hreads.call (.next oneShot)
      obtain ⟨hstream, _⟩ := hprogress hno
      have hsame : next.stream = session.stream := by
        rw [hstream]
        exact append_nil _
      have hbound := hnext.length_le
      rw [hsame] at hbound
      obtain ⟨count, after, hafter, hkept, hlast⟩ := ih _ (by rw [hsame]; omega) hnext rfl
      refine ⟨count + 1, after, ?_, hkept.trans hsame, hlast⟩
      rw [replicate_succ, foldlM_cons, hcall]
      exact hafter
    · exact ⟨0, session, rfl, rfl, hno⟩

/-- The messages of the stream are delivered in whatever pieces it arrives, up
to the first call that fails. -/
theorem receive_delivers_frames (alignFactor : Nat)
    (cb : List (List UInt8) → List UInt8 → Result) (calls : List Call) :
    ∃ session, receive alignFactor cb calls = some session ∧
      session.mst.cbCls <+: messageFormat.frames session.stream ∧
      (session.last = .ok → session.mst.cbCls = messageFormat.frames session.stream) ∧
      (session.last = .no → session.mst.cbCls ≠ messageFormat.frames session.stream) ∧
      (session.last = .syserr ↔
        session.mst.cbCls = messageFormat.frames session.stream ∧
            messageFormat.Corrupt session.stream ∨
          RefusedLast cb session.mst.cbCls) ∧
      ∀ oneShot, ∃ count drained,
        receive alignFactor cb (calls ++ replicate count (.next oneShot)) =
            some drained ∧
          drained.stream = session.stream ∧ drained.last ≠ .no := by
  obtain ⟨session, hreceive, rest, hreads⟩ := receive_reads alignFactor cb calls
  obtain ⟨hframes, _⟩ := hreads.parses.frames_eq
  refine ⟨session, hreceive, ⟨_, hframes.symm⟩, ?_, ?_, ?_, ?_⟩
  · intro hok
    refine (hreads.parses.frames_incomplete ?_).1.symm
    rw [hreads.incomplete hok]
    intro message more h
    cases h
  · intro hno
    obtain ⟨message, more, hready⟩ := hreads.ready hno
    rw [hframes, (Format.frames_of_frame hready).1]
    simp
  · rw [hreads.syserr_iff]
    refine or_congr_left ⟨fun hcorrupt => ?_, fun ⟨hall, hcorrupt⟩ => ?_⟩
    · obtain ⟨hlog, hrest⟩ := hreads.parses.frames_incomplete (by simp [hcorrupt])
      exact ⟨hlog.symm, by rw [Format.Corrupt, hrest, hcorrupt]⟩
    · have hnone : ∀ message more, messageFormat.next rest ≠ .frame message more := by
        intro message more hready
        rw [hframes, (Format.frames_of_frame hready).1] at hall
        simp at hall
      rwa [Format.Corrupt, (hreads.parses.frames_incomplete hnone).2] at hcorrupt
  · intro oneShot
    obtain ⟨count, drained, hdrained, hstream, hlast⟩ := hreads.drains oneShot
    refine ⟨count, drained, ?_, hstream, hlast⟩
    rw [receive, foldlM_append]
    rw [receive] at hreceive
    rw [hreceive]
    exact hdrained

/-- After a corrupt header in the buffer of the caller, which is not copied,
the next buffer is read as the beginning of a stream. -/
theorem resumes_after_corrupt_header :
    ∃ failed resumed : MessageStreamTokenizer,
      fromBuffer 8 (fun _ _ => .ok) .create [0, 2, 0, 0] 0 false .no =
          some (.syserr, failed) ∧
        fromBuffer 8 (fun _ _ => .ok) failed [0, 4, 0, 7] 0 false .no =
          some (.ok, resumed) ∧
        resumed.cbCls = [[0, 4, 0, 7]] ∧
        messageFormat.frames ([0, 2, 0, 0] ++ [0, 4, 0, 7]) = [] :=
  ⟨.create, { create with cbCls := [[0, 4, 0, 7]] },
    by decide, by decide, rfl, by decide⟩

end Session

end Gnunet.Mst
