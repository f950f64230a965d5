import Gnunet.GuardedRun

/-!
# Message queues

`mq.c`: the part of a queue that hands messages to the transport.  An envelope is known by a
number that is given out once; an envelope that was withdrawn and is sent again counts as a new
one.  Functions that the transport calls are events, also where it calls them from `send_impl`,
which is the last thing that its callers do with the queue.  A sent callback is given by the
envelopes that it sends.
-/

namespace Gnunet.Mq

open Protocol List

structure Envelope where
  id : Nat
  sentCb : Bool
  deriving DecidableEq

/-- What the transport is told, and `impl_send_continue`, by which it tells that it is done. -/
inductive Call where
  | sendImpl (id : Nat)
  | cancelImpl (id : Nat)
  | sendContinue (id : Nat)
  deriving DecidableEq

/-- The transport has at most one message. -/
def Call.next : Option Nat → Call → Option (Option Nat)
  | none, .sendImpl id => some (some id)
  | some id, .cancelImpl id' | some id, .sendContinue id' => if id' = id then some none else none
  | _, _ => none

def Call.given : Call → Option Nat
  | .sendImpl id => some id
  | _ => none

/-- `struct GNUNET_MQ_Handle`, with logs of the calls of the transport and of the sent callbacks.
`cancelImpl` says whether there is a `cancel_impl`. -/
structure Handle where
  cancelImpl : Bool
  envelopes : List Envelope
  currentEnvelope : Option Envelope
  sendTask : Bool
  inFlight : Bool
  queueLength : Nat
  calls : List Call
  notified : List Nat
  deriving DecidableEq

namespace Handle

def init (cancelImpl : Bool) : Handle :=
  ⟨cancelImpl, [], none, false, false, 0, [], []⟩

/-- The queue is the `parent_queue` of the envelope. -/
def Holds (mq : Handle) (ev : Envelope) : Prop :=
  ev ∈ mq.envelopes ∨ mq.currentEnvelope = some ev ∧ mq.inFlight = false

instance (mq : Handle) (ev : Envelope) : Decidable (mq.Holds ev) :=
  inferInstanceAs (Decidable (_ ∨ _))

def sendImpl (mq : Handle) (ev : Envelope) : Handle :=
  { mq with currentEnvelope := some ev, calls := mq.calls ++ [.sendImpl ev.id] }

def send (mq : Handle) (ev : Envelope) : Option Handle :=
  if mq.Holds ev then none
  else
    let mq := { mq with queueLength := mq.queueLength + 1 }
    if mq.currentEnvelope.isSome ∨ mq.sendTask then
      some { mq with envelopes := mq.envelopes ++ [ev] }
    else if mq.envelopes = [] then some (mq.sendImpl ev) else none

def unsentHead (mq : Handle) : Option Handle :=
  match mq.envelopes with
  | [] => none
  | _ :: rest => some { mq with envelopes := rest, queueLength := mq.queueLength - 1 }

def sendNext (mq : Handle) : Handle :=
  match mq.envelopes with
  | [] => mq
  | ev :: rest => { mq with envelopes := rest }.sendImpl ev

def implSendContinueTask (mq : Handle) : Handle :=
  { mq with sendTask := false }.sendNext

/-- The callback is called once; `more` is what it sends. -/
def callback (mq : Handle) (ev : Envelope) (more : List Envelope) : Option Handle :=
  if ev.sentCb then more.foldlM send { mq with notified := mq.notified ++ [ev.id] } else some mq

def implSendContinue (mq : Handle) (more : List Envelope) : Option Handle :=
  match mq.currentEnvelope with
  | none => none
  | some ev =>
    if 0 < mq.queueLength ∧ mq.sendTask = false then
      { mq with
        queueLength := mq.queueLength - 1
        inFlight := false
        currentEnvelope := none
        sendTask := true
        calls := mq.calls ++ [Call.sendContinue ev.id] }.callback ev more
    else none

def implSendInFlight (mq : Handle) (more : List Envelope) : Option Handle :=
  match mq.currentEnvelope with
  | none => none
  | some ev =>
    { mq with inFlight := true, currentEnvelope := some { ev with sentCb := false } }.callback ev more

def sendCancel (mq : Handle) (ev : Envelope) : Option Handle :=
  if ¬ mq.Holds ev ∨ mq.cancelImpl = false ∨ mq.queueLength = 0 then none
  else if mq.currentEnvelope = some ev then
    some { mq with
      queueLength := mq.queueLength - 1
      currentEnvelope := none
      calls := mq.calls ++ [Call.cancelImpl ev.id] }.sendNext
  else
    some { mq with envelopes := mq.envelopes.erase ev, queueLength := mq.queueLength - 1 }

inductive Event where
  | send (ev : Envelope)
  | sendCancel (ev : Envelope)
  | unsentHead
  | implSendInFlight (more : List Envelope)
  | implSendContinue (more : List Envelope)
  | sendTask

def step (mq : Handle) : Event → Option Handle
  | .send ev => mq.send ev
  | .sendCancel ev => mq.sendCancel ev
  | .unsentHead => mq.unsentHead
  | .implSendInFlight more => mq.implSendInFlight more
  | .implSendContinue more => mq.implSendContinue more
  | .sendTask => if mq.sendTask then some mq.implSendContinueTask else none

/-- What an event sends; a callback that is not set sends nothing. -/
def sends (mq : Handle) : Event → List Nat
  | .send ev => [ev.id]
  | .implSendInFlight more | .implSendContinue more =>
    if mq.currentEnvelope.any Envelope.sentCb then more.map Envelope.id else []
  | _ => []

/-- What an event takes back while it is waiting. -/
def drops (mq : Handle) : Event → List Nat
  | .sendCancel ev => if mq.currentEnvelope = some ev then [] else [ev.id]
  | .unsentHead => (mq.envelopes.take 1).map Envelope.id
  | _ => []

def Fresh (sent : List Nat) (more : List Envelope) : Prop :=
  (more.map Envelope.id).Nodup ∧ ∀ ev ∈ more, ev.id ∉ sent

/-- The messages given to the transport are those that were sent and not dropped, in their order
and one at a time; the callbacks are called at most once; the length is right. -/
structure Queues (mq : Handle) (sent dropped : List Nat) : Prop where
  fifo : mq.calls.filterMap Call.given ++ mq.envelopes.map Envelope.id =
    sent.filter (· ∉ dropped)
  once : sent.Nodup
  alternate : mq.calls.foldlM Call.next none = some (mq.currentEnvelope.map Envelope.id)
  notified : mq.notified.Nodup
  length : mq.queueLength = mq.envelopes.length + mq.currentEnvelope.toList.length

def given (mq : Handle) : List Nat :=
  mq.calls.filterMap Call.given

/-- What holds also in the middle of a call. -/
structure Intact (mq : Handle) (sent dropped : List Nat) : Prop extends Queues mq sent dropped where
  current : ∀ ev, mq.currentEnvelope = some ev →
    ev.id ∈ mq.given ∧ (ev.sentCb = true → ev.id ∉ mq.notified)
  waiting : ∀ ev ∈ mq.envelopes, ev.id ∉ mq.notified
  known : (∀ id ∈ mq.notified, id ∈ sent) ∧ ∀ id ∈ dropped, id ∈ sent

structure Valid (mq : Handle) (sent dropped : List Nat) : Prop extends Intact mq sent dropped where
  idle : mq.currentEnvelope = none → mq.sendTask = false → mq.envelopes = []
  exclusive : mq.currentEnvelope.isSome = true → mq.sendTask = false

variable {mq mq' : Handle} {ev : Envelope} {more : List Envelope} {sent dropped : List Nat}

theorem Intact.nodup (h : Intact mq sent dropped) :
    (mq.given ++ mq.envelopes.map Envelope.id).Nodup := by
  rw [given, h.fifo]
  exact h.once.filter _

theorem Intact.not_given (h : Intact mq sent dropped) (hev : ev ∈ mq.envelopes) :
    ev.id ∉ mq.given :=
  fun hgiven => (disjoint_of_nodup_append h.nodup) hgiven (mem_map_of_mem hev)

theorem Intact.mem_sent (h : Intact mq sent dropped) {id : Nat}
    (hmem : id ∈ mq.given ++ mq.envelopes.map Envelope.id) : id ∈ sent := by
  rw [given, h.fifo] at hmem
  exact mem_of_mem_filter hmem

theorem Intact.ne_current (h : Intact mq sent dropped) {current : Envelope}
    (hcurrent : mq.currentEnvelope = some current) (hev : ev ∈ mq.envelopes) : ev.id ≠ current.id :=
  fun heq => h.not_given hev (heq ▸ (h.current current hcurrent).1)

theorem Intact.length_pos (h : Intact mq sent dropped) (hholds : mq.Holds ev) :
    0 < mq.queueLength := by
  rw [h.length]
  rcases hholds with hev | ⟨hcurrent, -⟩
  · have := length_pos_of_mem hev
    omega
  · simp [hcurrent]

theorem Intact.not_holds (h : Intact mq sent dropped) (hfresh : ev.id ∉ sent) : ¬ mq.Holds ev := by
  rintro (hev | ⟨hcurrent, -⟩)
  · exact hfresh (h.mem_sent (mem_append_right _ (mem_map_of_mem hev)))
  · exact hfresh (h.mem_sent (mem_append_left _ (h.current ev hcurrent).1))

theorem Valid.drop (h : Valid mq sent dropped) (hev : ev ∈ mq.envelopes) : Valid { mq with
      envelopes := mq.envelopes.erase ev
      queueLength := mq.queueLength - 1 } sent (dropped ++ [ev.id]) := by
  have hids := (nodup_append.mp h.nodup).2.1
  have herase : (mq.envelopes.erase ev).map Envelope.id =
      (mq.envelopes.map Envelope.id).filter (· ≠ ev.id) := by
    rw [hids.of_map.erase_eq_filter, filter_map]
    congr 1
    apply filter_congr
    intro other hother
    have hid : other = ev ↔ other.id = ev.id :=
      ⟨congrArg Envelope.id, inj_on_of_nodup_map hids hother hev⟩
    simp [bne, BEq.beq, hid]
  have hgiven : mq.given.filter (· ≠ ev.id) = mq.given := by
    apply filter_eq_self.mpr
    intro id hid
    simpa using ne_of_mem_of_not_mem hid (h.not_given hev)
  have hfifo : sent.filter (· ∉ dropped ++ [ev.id]) =
      mq.given ++ (mq.envelopes.erase ev).map Envelope.id := by
    rw [herase, ← hgiven, ← filter_append, given, h.fifo, filter_filter]
    apply filter_congr
    intro id _
    simp [and_comm]
  have hlength := length_erase_of_mem hev
  have hpos := length_pos_of_mem hev
  have hold := h.length
  refine { h with fifo := hfifo.symm, length := ?_, waiting := ?_, known := ?_, idle := ?_ }
  · show mq.queueLength - 1 =
      (mq.envelopes.erase ev).length + mq.currentEnvelope.toList.length
    omega
  · exact fun other hother => h.waiting other (mem_of_mem_erase hother)
  · refine ⟨h.known.1, fun id hid => ?_⟩
    rcases mem_append.mp hid with hid | hid
    · exact h.known.2 id hid
    · rw [mem_singleton.mp hid]
      exact h.mem_sent (mem_append_right _ (mem_map_of_mem hev))
  · intro hcurrent htask
    rw [h.idle hcurrent htask] at hev
    cases hev

theorem Intact.sendImpl (h : Intact mq sent dropped) (hcurrent : mq.currentEnvelope = none)
    (henvelopes : mq.envelopes = ev :: rest) :
    Intact ({ mq with envelopes := rest }.sendImpl ev) sent dropped := by
  have hev : ev ∈ mq.envelopes := by simp [henvelopes]
  have hfifo := h.fifo
  have hlength := h.length
  rw [henvelopes] at hfifo hlength
  refine { h with fifo := ?_, alternate := ?_, length := ?_, current := ?_, waiting := ?_ }
  · exact Eq.trans (by simp [Handle.sendImpl, Call.given]) hfifo
  · simp [Handle.sendImpl, foldlM_append, h.alternate, hcurrent, Call.next]
  · simpa [Handle.sendImpl, hcurrent] using hlength
  · rintro _ ⟨⟩
    refine ⟨by simp [given, Handle.sendImpl, Call.given], fun _ => h.waiting ev hev⟩
  · exact fun other hother => h.waiting other (by simp [henvelopes, show other ∈ rest from hother])

theorem Intact.sendNext (h : Intact mq sent dropped) (hcurrent : mq.currentEnvelope = none)
    (htask : mq.sendTask = false) :
    Valid mq.sendNext sent dropped ∧ mq.sendNext.sendTask = false := by
  unfold Handle.sendNext
  split
  · next henvelopes => exact ⟨⟨h, fun _ _ => henvelopes, fun _ => htask⟩, htask⟩
  · next ev rest henvelopes =>
    exact ⟨⟨h.sendImpl hcurrent henvelopes, nofun, fun _ => htask⟩, htask⟩

theorem Intact.append (h : Intact mq sent dropped) (hfresh : ev.id ∉ sent) : Intact { mq with
      queueLength := mq.queueLength + 1
      envelopes := mq.envelopes ++ [ev] } (sent ++ [ev.id]) dropped := by
  have hnew : ev.id ∉ dropped := fun hmem => hfresh (h.known.2 _ hmem)
  refine { h with fifo := ?_, once := ?_, length := ?_, waiting := ?_, known := ?_ }
  · simpa [filter_append, hnew] using congrArg (· ++ [ev.id]) h.fifo
  · simpa using h.once.append (by simp) (by simpa using hfresh)
  · have := h.length
    simp only [length_append, length_singleton]
    omega
  · intro other hother
    rcases mem_append.mp hother with hother | hother
    · exact h.waiting other hother
    · rw [mem_singleton.mp hother]
      exact fun hmem => hfresh (h.known.1 _ hmem)
  · exact ⟨fun id hid => mem_append_left _ (h.known.1 id hid),
      fun id hid => mem_append_left _ (h.known.2 id hid)⟩

theorem Valid.send (h : Valid mq sent dropped) (hfresh : ev.id ∉ sent) :
    ∃ mq', mq.send ev = some mq' ∧ Valid mq' (sent ++ [ev.id]) dropped := by
  have happend := h.append hfresh
  rw [Handle.send, if_neg (h.not_holds hfresh)]
  dsimp only
  split
  · next hbusy =>
    refine ⟨_, rfl, happend, fun hcurrent htask => ?_, h.exclusive⟩
    simp_all
  · next hbusy =>
    obtain ⟨hcurrent, htask⟩ : mq.currentEnvelope = none ∧ mq.sendTask = false := by
      simpa using hbusy
    have henvelopes := h.idle hcurrent htask
    refine ⟨_, if_pos henvelopes, ?_, nofun, fun _ => htask⟩
    have hnext := happend.sendImpl hcurrent (show mq.envelopes ++ [ev] = [ev] by simp [henvelopes])
    simpa [Handle.sendImpl, henvelopes] using hnext

theorem Valid.sendAll (h : Valid mq sent dropped) (hfresh : Fresh sent more) :
    ∃ mq', more.foldlM Handle.send mq = some mq' ∧
      Valid mq' (sent ++ more.map Envelope.id) dropped := by
  induction more generalizing mq sent with
  | nil => exact ⟨mq, rfl, by simpa using h⟩
  | cons ev more ih =>
    obtain ⟨hnodup, hnew⟩ := hfresh
    rw [map_cons, nodup_cons] at hnodup
    obtain ⟨_, hsend, hnext⟩ := h.send (hnew ev (by simp))
    rw [foldlM_cons, hsend, map_cons, append_cons]
    refine ih hnext ⟨hnodup.2, fun other hother => ?_⟩
    rw [mem_append, mem_singleton]
    rintro (hmem | heq)
    · exact hnew other (by simp [hother]) hmem
    · exact hnodup.1 (heq ▸ mem_map_of_mem hother)

theorem Valid.callback (h : Valid mq sent dropped) (hfresh : Fresh sent more)
    (hsent : ev.id ∈ sent) (hnew : ev.sentCb = true → ev.id ∉ mq.notified)
    (hwaiting : ∀ other ∈ mq.envelopes, other.id ≠ ev.id)
    (hcurrent : ∀ other, mq.currentEnvelope = some other → other.sentCb = false) :
    ∃ mq', mq.callback ev more = some mq' ∧
      Valid mq' (sent ++ if ev.sentCb then more.map Envelope.id else []) dropped := by
  unfold Handle.callback
  split
  · next hcb =>
    have hcalled : Valid { mq with notified := mq.notified ++ [ev.id] } sent dropped := by
      refine { h with notified := ?_, current := ?_, waiting := ?_, known := ?_ }
      · simpa using h.notified.append (by simp) (by simpa using hnew hcb)
      · exact fun other hother =>
          ⟨(h.current other hother).1, fun htrue => by simp [hcurrent other hother] at htrue⟩
      · intro other hother
        simpa using ⟨h.waiting other hother, hwaiting other hother⟩
      · refine ⟨fun id hid => ?_, h.known.2⟩
        rcases mem_append.mp hid with hid | hid
        · exact h.known.1 id hid
        · exact mem_singleton.mp hid ▸ hsent
    exact hcalled.sendAll hfresh
  · exact ⟨mq, rfl, by simpa using h⟩

/-- The transport gives up the current message. -/
theorem Intact.release (h : Intact mq sent dropped) (hev : mq.currentEnvelope = some ev)
    (call : Call) (hgiven : call.given = none) (hnext : call.next (some ev.id) = some none) :
    Intact { mq with
      queueLength := mq.queueLength - 1
      currentEnvelope := none
      calls := mq.calls ++ [call] } sent dropped := by
  have hlength := h.length
  rw [hev, Option.toList_some, length_singleton] at hlength
  refine { h with fifo := ?_, alternate := ?_, length := ?_, current := nofun, waiting := h.waiting }
  · simpa [filterMap_cons, hgiven] using h.fifo
  · simp [foldlM_append, h.alternate, hev, hnext]
  · simp [hlength]

theorem Valid.sendContinue (h : Valid mq sent dropped) (hev : mq.currentEnvelope = some ev)
    (hfresh : Fresh sent more) : ∃ mq', mq.implSendContinue more = some mq' ∧
      Valid mq' (sent ++ if ev.sentCb then more.map Envelope.id else []) dropped := by
  obtain ⟨hgiven, hnew⟩ := h.current ev hev
  have hdone : Valid { mq with
      queueLength := mq.queueLength - 1
      inFlight := false
      currentEnvelope := none
      sendTask := true
      calls := mq.calls ++ [Call.sendContinue ev.id] } sent dropped :=
    { h.toIntact.release hev (.sendContinue ev.id) rfl (by simp [Call.next]) with
      current := nofun, idle := nofun, exclusive := nofun }
  have hlength : 0 < mq.queueLength := by simp [h.length, hev]
  simp only [Handle.implSendContinue, hev]
  rw [if_pos ⟨hlength, h.exclusive (by simp [hev])⟩]
  exact hdone.callback hfresh (h.mem_sent (mem_append_left _ hgiven)) hnew
    (fun other hother => h.ne_current hev hother) nofun

theorem Valid.sendCancel (h : Valid mq sent dropped) (hcancel : mq.cancelImpl = true)
    (hholds : mq.Holds ev) : ∃ mq', mq.sendCancel ev = some mq' ∧
      Valid mq' sent (dropped ++ mq.drops (.sendCancel ev)) := by
  have hassert : ¬ (¬ mq.Holds ev ∨ mq.cancelImpl = false ∨ mq.queueLength = 0) := by
    simp [hholds, hcancel, (h.length_pos hholds).ne']
  rw [Handle.sendCancel, if_neg hassert, drops]
  by_cases hev : mq.currentEnvelope = some ev
  · rw [if_pos hev, if_pos hev, append_nil]
    have hreleased := h.toIntact.release hev (.cancelImpl ev.id) rfl (by simp [Call.next])
    exact ⟨_, rfl, (hreleased.sendNext rfl (h.exclusive (by simp [hev]))).1⟩
  · rw [if_neg hev, if_neg hev]
    exact ⟨_, rfl, h.drop (hholds.resolve_right fun hcurrent => hev hcurrent.1)⟩

end Handle

/-- A queue with what was sent, and what was cancelled or withdrawn while it was waiting. -/
structure Session where
  mq : Handle
  sent : List Nat
  dropped : List Nat
  deriving DecidableEq

namespace Session

open Handle (Event Fresh Queues Valid)

def init (cancelImpl : Bool) : Session :=
  ⟨.init cancelImpl, [], []⟩

def step (s : Session) (event : Event) : Option Session :=
  (s.mq.step event).map fun mq =>
    ⟨mq, s.sent ++ s.mq.sends event, s.dropped ++ s.mq.drops event⟩

/-- Only what is queued and not in flight is cancelled, on a queue with a `cancel_impl`; the head of
a list that is not empty is withdrawn, the transport continues only while a message is current, and
a task runs when it is scheduled. -/
def Allowed (s : Session) : Event → Prop
  | .send ev => Fresh s.sent [ev]
  | .sendCancel ev => s.mq.cancelImpl = true ∧ s.mq.Holds ev
  | .unsentHead => s.mq.envelopes ≠ []
  | .implSendInFlight more | .implSendContinue more =>
    s.mq.currentEnvelope.isSome = true ∧ Fresh s.sent more
  | .sendTask => s.mq.sendTask = true

variable {s : Session}

instance (sent : List Nat) (more : List Envelope) : Decidable (Fresh sent more) :=
  inferInstanceAs (Decidable (_ ∧ _))

instance (s : Session) (event : Event) : Decidable (s.Allowed event) := by
  cases event <;> unfold Allowed <;> infer_instance

end Session

end Gnunet.Mq
