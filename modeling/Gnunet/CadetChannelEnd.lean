import Gnunet.CadetChannelRefinement
import Gnunet.CadetTunnel

/-!
# One end of a CADET channel against an arbitrary peer

The client sends when it likes and the peer puts anything into its data messages
and `DATA_ACK`s.  On every run whose steps meet a condition, a ready client of an
unreliable channel has an empty queue, the window of the sender is respected, and
a message that is not acknowledged is scheduled for transmission or queued in the
tunnel.
-/

namespace Gnunet.Cadet

open Protocol List Option

variable {D P : Type}

/-- A channel and its tunnel.  The messages of other channels that share the
tunnel are events of the tunnel. -/
structure ChannelEnd (D P : Type) where
  channel : Channel P
  tunnel : Tunnel D

open ChannelEnd

inductive ChannelEvent (D P : Type) where
  | tunnel (event : TunnelEvent D)
  | localData (senderCcn : Nat) (buf : P)
  | localAck (clientCcn : Nat)
  | retryTransmission
  | dataSent (now : Nat) (cid : Option (Option Nat)) (i : Nat)
  | ackSent
  | data (msg : ChannelAppDataMessage P)
  | dataAck (ack : ChannelDataAckMessage)

namespace ChannelEnd

def keyOk (e : ChannelEnd D P) : Bool :=
  e.tunnel.estate = .ok

def setChannel (e : ChannelEnd D P) (ch : Channel P) : ChannelEnd D P :=
  { e with channel := ch }

def step [DecidableEq D] (env : TunnelEnv D) (e : ChannelEnd D P) :
    ChannelEvent D P → Option (ChannelEnd D P)
  | .tunnel event =>
      (e.tunnel.step env event).map fun t => { e with tunnel := t }
  | .localData senderCcn buf =>
      (e.channel.gcchHandleLocalData e.keyOk senderCcn buf).map fun out =>
        e.setChannel out.2
  | .localAck clientCcn =>
      (e.channel.gcchHandleLocalAck e.keyOk clientCcn).map e.setChannel
  | .retryTransmission =>
      if e.channel.retryDataTask.isSome then
        (e.channel.retryTransmission e.keyOk).map e.setChannel
      else none
  | .dataSent now cid i => (e.channel.dataSentCb now cid i).map e.setChannel
  | .ackSent => e.channel.sendAckCb.map e.setChannel
  | .data msg =>
      (e.channel.gcchHandleChannelPlaintextData e.keyOk msg).map e.setChannel
  | .dataAck ack =>
      (e.channel.gcchHandleChannelPlaintextDataAck ack).map e.setChannel

/-- A new channel to a remote peer: the end that asked for it, or the end with
the port. -/
def Opened (options : ChannelOptions) (e : ChannelEnd D P) : Prop :=
  ∃ ccn, e.channel = Channel.gcchChannelLocalNew options ccn ∨
    (Channel.gcchChannelIncomingNew options).gcchBind ccn = some e.channel

def requested (options : ChannelOptions) : ChannelEnd Nat Nat where
  channel := .gcchChannelLocalNew options 1
  tunnel := .gctCreateTunnel 3 4 7

theorem opened_requested (options : ChannelOptions) : (requested options).Opened options :=
  ⟨1, .inl rfl⟩

end ChannelEnd

def requestedEnv : TunnelEnv Nat :=
  ⟨.shipped, 1, 2⟩

/-! ## The receiving handlers -/

variable {ccn : Nat} {keyOk : Bool}

section

variable {ch ch' : Channel P} {ccc : ChannelClient P}

/-- What receiving leaves alone, with the task that sends again. -/
structure SameSender (ch ch' : Channel P) : Prop extends SameSending ch ch' where
  retryDataTask : ch'.retryDataTask = ch.retryDataTask

theorem sameSender_setClient (ch : Channel P) (isOwner : Bool)
    (ccc : ChannelClient P) : SameSender ch (ch.setClient isOwner ccc) where
  toSameSending := sameSending_setClient ch isOwner ccc
  retryDataTask := by cases isOwner <;> rfl

theorem sendChannelDataAck_retryDataTask (keyOk : Bool) (ch : Channel P) :
    (ch.sendChannelDataAck keyOk).retryDataTask = ch.retryDataTask := by
  unfold Channel.sendChannelDataAck
  split <;> rfl

theorem Channel.HasClient.sendChannelDataAck (h : ch.HasClient ccc)
    (keyOk : Bool) : (ch.sendChannelDataAck keyOk).HasClient ccc := by
  unfold Channel.sendChannelDataAck
  split <;> exact h

theorem Channel.HasClient.reply (h : ch.HasClient ccc) (keyOk : Bool)
    (ccc' : ChannelClient P) (midRecv : BitVec 32) (midFutures : BitVec 64) :
    SameSender ch (({ ch.setClient ch.owner.isSome ccc' with
            midRecv := midRecv, midFutures := midFutures } :
          Channel P).sendChannelDataAck keyOk) ∧
      (({ ch.setClient ch.owner.isSome ccc' with
            midRecv := midRecv, midFutures := midFutures } :
          Channel P).sendChannelDataAck keyOk).HasClient ccc' := by
  have hsame := sameSender_setClient ch ch.owner.isSome ccc'
  have hset : ({ ch.setClient ch.owner.isSome ccc' with
      midRecv := midRecv, midFutures := midFutures } : Channel P).HasClient ccc' :=
    h.setClient
  refine ⟨⟨sameSending_reply keyOk ch _ ccc' midRecv midFutures, ?_⟩, hset.sendChannelDataAck keyOk⟩
  rw [sendChannelDataAck_retryDataTask]
  exact hsame.retryDataTask

theorem insertSorted_clientReady :
    (Channel.insertSorted ccc com).clientReady = ccc.clientReady := by
  unfold Channel.insertSorted
  split <;> rfl

theorem dropOldest_clientReady (ch : Channel P) :
    (ch.dropOldest ccc).clientReady = ccc.clientReady := by
  unfold Channel.dropOldest
  split <;> rfl

theorem Channel.HasClient.eq_of_clientByCcn (h : ch.HasClient ccc)
    (hfound : ch.clientByCcn ccn = some (isOwner, ccc')) :
    isOwner = ch.owner.isSome ∧ ccc' = ccc := by
  rcases h with ⟨howner, hdest⟩ | ⟨howner, hdest⟩ <;>
  · simp only [Channel.clientByCcn, howner, hdest, Option.filter] at hfound ⊢
    split at hfound <;> simp_all

/-- A client that is still ready after a data message was ready before, and the
message was not the next one. -/
theorem Channel.HasClient.afterData (h : ch.HasClient ccc) (keyOk : Bool)
    (msg : ChannelAppDataMessage P) :
    ∃ ccc', (ch.receiveData keyOk ch.owner.isSome ccc msg).HasClient ccc' ∧
      SameSender ch (ch.receiveData keyOk ch.owner.isSome ccc msg) ∧
      (ccc'.clientReady = true → ccc.clientReady = true ∧
        ch.options.outOfOrder = false ∧ msg.mid ≠ ch.midRecv) := by
  unfold Channel.receiveData
  split
  · refine ⟨_, (h.reply keyOk _ _ _).2, (h.reply keyOk _ _ _).1, ?_⟩
    simp [ChannelClient.gscSendToClient]
  next hpass =>
    have hready : ccc.clientReady = true → ccc.clientReady = true ∧
        ch.options.outOfOrder = false ∧ msg.mid ≠ ch.midRecv := by
      intro hready
      simpa [hready] using hpass
    split
    · split
      · exact ⟨ccc, h.sendChannelDataAck keyOk,
          ⟨sameSending_sendChannelDataAck keyOk ch,
            sendChannelDataAck_retryDataTask keyOk ch⟩, hready⟩
      · refine ⟨_, (h.reply keyOk _ _ _).2, (h.reply keyOk _ _ _).1, ?_⟩
        rw [insertSorted_clientReady]
        exact hready
    · refine ⟨_, (h.reply keyOk _ _ _).2, (h.reply keyOk _ _ _).1, ?_⟩
      rw [insertSorted_clientReady, dropOldest_clientReady]
      exact hready

/-- A client that is still ready after it asked for more has nothing queued on
an unreliable channel. -/
theorem Channel.HasClient.afterLocalAck (h : ch.HasClient ccc) (hloopback : ch.isLoopback = false)
    (hdestroy : ch.destroy = false) (hstep : ch.gcchHandleLocalAck keyOk ccn = some ch') :
    ∃ ccc', ch'.HasClient ccc' ∧ SameSender ch ch' ∧
      (ch.options.reliable = false → ccc'.clientReady = true → ccc'.headRecv = []) := by
  unfold Channel.gcchHandleLocalAck at hstep
  split at hstep
  · cases hstep
  next isOwner found hfound =>
    obtain ⟨rfl, rfl⟩ := h.eq_of_clientByCcn hfound
    dsimp only at hstep
    split at hstep
    next hnil =>
      cases hstep
      exact ⟨_, h.setClient, sameSender_setClient ch _ _, fun _ _ => hnil⟩
    · rw [if_neg (by simp [hloopback])] at hstep
      split at hstep
      next hwait =>
        cases hstep
        refine ⟨_, h.setClient, sameSender_setClient ch _ _, fun hreliable => ?_⟩
        simp [hreliable] at hwait
      · cases hstep
        rw [passNext_eq keyOk _ hdestroy]
        refine ⟨_, (h.reply keyOk _ _ _).2, (h.reply keyOk _ _ _).1, ?_⟩
        simp [ChannelClient.gscSendToClient]

theorem sendAckCb_eq_some (hstep : ch.sendAckCb = some ch') :
    ch' = { ch with lastControlQe := none } := by
  unfold Channel.sendAckCb at hstep
  split at hstep
  · cases hstep
  · cases hstep
    rfl

end

/-! ## The window of the sender -/

open Channel

/-- The counter of unacknowledged messages is right, and it exceeds the window
by at most `slack`. -/
structure Windowed (options : ChannelOptions) (slack : Nat) (ch : Channel P) :
    Prop where
  options : ch.options = options
  isLoopback : ch.isLoopback = false
  destroy : ch.destroy = false
  client : ∃ ccc, ch.HasClient ccc
  maxPending : ch.maxPendingMessages ≤ 4
  pending : ch.pendingMessages = ch.headSent.length
  room : ch.headSent.length ≤ ch.maxPendingMessages + slack

/-- A client sends only while the window has room. -/
def WithinWindow (e : ChannelEnd D P) : ChannelEvent D P → Prop
  | .localData .. => e.channel.pendingMessages < e.channel.maxPendingMessages
  | _ => True

instance (e : ChannelEnd D P) (event : ChannelEvent D P) : Decidable (WithinWindow e event) := by
  cases event <;> unfold WithinWindow <;> infer_instance

variable {i now : Nat} {cid : Option (Option Nat)} {ack : ChannelDataAckMessage}
  {e e' : ChannelEnd D P} {env : TunnelEnv D} {event : ChannelEvent D P}

section

variable {ch ch' : Channel P} {options : ChannelOptions} {slack : Nat}

section

variable (h : Windowed options slack ch)
include h

theorem Windowed.of_same (hsame : SameSender ch ch') (hclient : ∃ ccc, ch'.HasClient ccc) :
    Windowed options slack ch' where
  options := hsame.options.trans h.options
  isLoopback := hsame.isLoopback.trans h.isLoopback
  destroy := hsame.destroy.trans h.destroy
  client := hclient
  maxPending := by rw [hsame.maxPending]; exact h.maxPending
  pending := by rw [hsame.pending, hsame.headSent, h.pending]
  room := by rw [hsame.maxPending, hsame.headSent]; exact h.room

theorem Windowed.afterLocalData (hslack : slack ≤ 1)
    (hroom : slack = 0 → ch.pendingMessages < ch.maxPendingMessages)
    (hstep : ch.gcchHandleLocalData keyOk ccn buf = some out) : Windowed options slack out.2 := by
  have hmax := h.maxPending
  have hpending := h.pending
  rw [gcchHandleLocalData_eq h.isLoopback h.destroy] at hstep
  split at hstep
  · cases hstep
    exact h
  · cases hstep
    refine ⟨h.options, h.isLoopback, h.destroy, h.client, hmax, ?_, ?_⟩
    · simp only [length_append, length_singleton]
      omega
    · simp only [length_append, length_singleton]
      omega

theorem Windowed.afterRetry (hstep : ch.retryTransmission keyOk = some ch') :
    Windowed options slack ch' := by
  obtain ⟨_, _, hhead, -, rfl⟩ := retryTransmission_eq_some hstep
  refine ⟨h.options, h.isLoopback, h.destroy, h.client, h.maxPending, ?_, ?_⟩
  · simpa [hhead] using h.pending
  · simpa [hhead] using h.room

theorem Windowed.afterDataSent (hslack : slack ≤ 1) (hstep : ch.dataSentCb now cid i = some ch') :
    Windowed options slack ch' := by
  have hpending := h.pending
  have hmax := h.maxPending
  have hroom := h.room
  unfold dataSentCb at hstep
  split at hstep
  · cases hstep
  next crm hcrm =>
    obtain ⟨hi, rfl⟩ := List.getElem?_eq_some_iff.mp hcrm
    have herase := length_eraseIdx_of_lt hi
    split at hstep
    · cases hstep
    · split at hstep
      · cases hstep
        refine ⟨h.options, h.isLoopback, h.destroy, h.client, hmax, ?_, ?_⟩
        · simp only [orderedInsert_length, herase]
          omega
        · simp only [orderedInsert_length, herase]
          omega
      · obtain ⟨_, rfl⟩ := sendAckToClient_eq_some hstep
        refine ⟨h.options, h.isLoopback, h.destroy, h.client, hmax, ?_, ?_⟩
        · simp only [Channel.decrementPending, herase]
          omega
        · simp only [Channel.decrementPending, herase]
          omega

theorem Windowed.afterDataAck (hslack : slack ≤ 1)
    (hstep : ch.gcchHandleChannelPlaintextDataAck ack = some ch') : Windowed options slack ch' := by
  have hpending := h.pending
  have hmax := h.maxPending
  have hroom := h.room
  unfold gcchHandleChannelPlaintextDataAck at hstep
  split at hstep
  · obtain ⟨after, hloop, hafter⟩ := map_eq_some_iff.mp hstep
    obtain ⟨hsame, -, hcount, hsent⟩ := ackRounds_eq_some ch.headSent hloop
      (by simpa using hpending) (by dsimp only; omega)
    have hwindowed : Windowed options slack after := by
      refine ⟨hsame.options.trans h.options, hsame.isLoopback.trans h.isLoopback,
        hsame.destroy.trans h.destroy, ?_, ?_, hcount, ?_⟩
      · obtain ⟨ccc, hclient⟩ := h.client
        exact ⟨ccc, hclient.of_ends hsame.owner hsame.dest⟩
      · rw [hsame.maxPending]
        exact hmax
      · rw [hsent, hsame.maxPending]
        exact (length_filter_le _ _).trans hroom
    split at hafter
    · subst hafter
      exact ⟨hwindowed.options, hwindowed.isLoopback, hwindowed.destroy,
        hwindowed.client, hwindowed.maxPending, hwindowed.pending, hwindowed.room⟩
    · subst hafter
      exact hwindowed
  · cases hstep
    exact h

end

theorem Channel.HasClient.decrementPending
    (h : ch.HasClient ccc) : ch.decrementPending.HasClient ccc := by
  unfold Channel.decrementPending
  rcases h with ⟨howner, hdest⟩ | ⟨howner, hdest⟩
  · exact .inl ⟨howner, hdest⟩
  · exact .inr ⟨howner, hdest⟩

theorem sendAckToClient_isSome (hclient : (ch.client toOwner).isSome) :
    (ch.sendAckToClient toOwner).isSome := by
  obtain ⟨_, hccc⟩ := isSome_iff_exists.mp hclient
  simp [sendAckToClient, hccc]

theorem handleMatchingAck_isSome (hclient : ch.HasClient ccc)
    (hpos : 0 < ch.pendingMessages) (hroom : ch.pendingMessages ≤ ch.maxPendingMessages)
    (hmax : ch.maxPendingMessages ≤ 4) : ch.handleMatchingAck.isSome := by
  have hdecrement := hclient.decrementPending
  have hlt : ch.decrementPending.pendingMessages < ch.decrementPending.maxPendingMessages := by
    unfold Channel.decrementPending
    dsimp only
    omega
  have hreceiver := hdecrement.receiver
  unfold receiver at hreceiver
  unfold handleMatchingAck
  dsimp only
  split
  · apply sendAckToClient_isSome
    rw [hreceiver]
    rfl
  · contradiction

theorem ackRounds_isSome (ack : ChannelDataAckMessage)
    (crms : List (ReliableMessage P)) (hclient : ∃ ccc, ch.HasClient ccc)
    (hpending : ch.pendingMessages = ch.headSent.length + crms.length)
    (hroom : ch.pendingMessages ≤ ch.maxPendingMessages) (hmax : ch.maxPendingMessages ≤ 4) :
    (crms.foldlM (ackRound ack) ch).isSome := by
  induction crms generalizing ch with
  | nil => rfl
  | cons crm crms ih =>
    rw [length_cons] at hpending
    rw [foldlM_cons]
    unfold ackRound
    split
    · obtain ⟨ccc, hclient⟩ := hclient
      obtain ⟨_, hround⟩ := isSome_iff_exists.mp
        (handleMatchingAck_isSome hclient (by omega) hroom hmax)
      obtain ⟨_, hnext⟩ := handleMatchingAck_eq_some hround
      rw [hround]
      refine ih ⟨ccc, ?_⟩ ?_ ?_ ?_
      · apply hclient.of_ends <;> simp only [hnext]
      · simp only [hnext]
        omega
      · simp only [hnext]
        omega
      · simpa only [hnext] using hmax
    · refine ih hclient ?_ hroom hmax
      simp only [length_append, length_singleton]
      omega

theorem Windowed.dataAck_isSome (h : Windowed options 0 ch) (ack : ChannelDataAckMessage) :
    (ch.gcchHandleChannelPlaintextDataAck ack).isSome := by
  have hpending := h.pending
  have hroom := h.room
  unfold gcchHandleChannelPlaintextDataAck
  split
  · rw [isSome_map]
    exact ackRounds_isSome ack ch.headSent h.client (by simpa using hpending)
      (by dsimp only; omega) h.maxPending
  · rfl

theorem Windowed.opened (hopened : e.Opened options) : Windowed options slack e.channel := by
  obtain ⟨_, hnew | hbind⟩ := hopened
  · rw [hnew]
    refine ⟨rfl, rfl, rfl, ⟨_, .inl ⟨rfl, rfl⟩⟩, ?_, rfl, by simp [gcchChannelLocalNew]⟩
    simp only [gcchChannelLocalNew]
    split <;> omega
  · obtain ⟨_, hdest⟩ := gcchBind_incoming hbind
    rw [hdest]
    refine ⟨rfl, rfl, rfl, ⟨_, .inr ⟨rfl, rfl⟩⟩, ?_, rfl, by simp [gcchChannelIncomingNew]⟩
    simp only [gcchChannelIncomingNew]
    split <;> omega

theorem Windowed.step [DecidableEq D] (h : Windowed options slack e.channel) (hslack : slack ≤ 1)
    (hwithin : slack = 0 → WithinWindow e event) (hstep : e.step env event = some e') :
    Windowed options slack e'.channel := by
  obtain ⟨_, hclient⟩ := h.client
  cases event with
  | tunnel event =>
    obtain ⟨_, -, rfl⟩ := map_eq_some_iff.mp hstep
    exact h
  | localData senderCcn buf =>
    obtain ⟨_, hout, rfl⟩ := map_eq_some_iff.mp hstep
    exact h.afterLocalData hslack hwithin hout
  | localAck clientCcn =>
    obtain ⟨ch, hch, rfl⟩ := map_eq_some_iff.mp hstep
    obtain ⟨ccc', hclient', hsame, -⟩ := hclient.afterLocalAck h.isLoopback h.destroy hch
    exact h.of_same hsame ⟨ccc', hclient'⟩
  | retryTransmission =>
    simp only [step] at hstep
    split at hstep
    · obtain ⟨ch, hch, rfl⟩ := map_eq_some_iff.mp hstep
      exact h.afterRetry hch
    · cases hstep
  | dataSent now cid i =>
    obtain ⟨ch, hch, rfl⟩ := map_eq_some_iff.mp hstep
    exact h.afterDataSent hslack hch
  | ackSent =>
    obtain ⟨ch, hch, rfl⟩ := map_eq_some_iff.mp hstep
    obtain rfl := sendAckCb_eq_some hch
    exact ⟨h.options, h.isLoopback, h.destroy, h.client, h.maxPending, h.pending, h.room⟩
  | data msg =>
    obtain ⟨ch, hch, rfl⟩ := map_eq_some_iff.mp hstep
    rw [gcchHandleChannelPlaintextData_eq h.isLoopback h.destroy hclient] at hch
    cases hch
    obtain ⟨ccc', hclient', hsame, -⟩ := hclient.afterData e.keyOk msg
    exact h.of_same hsame ⟨ccc', hclient'⟩
  | dataAck ack =>
    obtain ⟨_, hch, rfl⟩ := map_eq_some_iff.mp hstep
    exact h.afterDataAck hslack hch

end

/-- The window of the sender is never exceeded, and no acknowledgement fails an assertion. -/
theorem sender_window_respected [DecidableEq D] (env : TunnelEnv D)
    (options : ChannelOptions) (start e : ChannelEnd D P)
    (events : List (ChannelEvent D P)) (hopened : start.Opened options)
    (hrun : Run (step env) WithinWindow start events e) :
    e.channel.pendingMessages = e.channel.headSent.length ∧
      e.channel.pendingMessages ≤ e.channel.maxPendingMessages ∧
      ∀ ack, (e.channel.gcchHandleChannelPlaintextDataAck ack).isSome := by
  have hwindowed : Windowed options 0 e.channel := hrun.invariant
    (fun e : ChannelEnd D P => Windowed options 0 e.channel) (.opened hopened)
    fun _ _ _ h hwithin hstep => h.step (Nat.zero_le 1) (fun _ => hwithin) hstep
  exact ⟨hwindowed.pending, hwindowed.pending.trans_le hwindowed.room, hwindowed.dataAck_isSome⟩

def bufferless : ChannelOptions :=
  { nobuffer := true, reliable := true, outOfOrder := false }

theorem sender_window_respected_acknowledged :
    ∃ e, Run (step requestedEnv) WithinWindow (.requested bufferless)
        [.localData 1 7, .dataAck ⟨2, 0⟩, .localData 1 8] e ∧
      e.channel.pendingMessages = 1 ∧
      e.channel.pendingMessages ≤ e.channel.maxPendingMessages :=
  Run.exists_of_exec_and (by decide +kernel) fun e hrun _ =>
    (sender_window_respected requestedEnv bufferless _ e _ (opened_requested bufferless) hrun).2.1

/-- The second message exceeds the window of one message, and the assertion
fails when both are acknowledged. -/
theorem window_overrun_fails_assertion :
    ∃ e, Run (step requestedEnv) (fun _ _ => True)
        (.requested bufferless) [.localData 1 7, .localData 1 8] e ∧
      e.channel.maxPendingMessages < e.channel.pendingMessages ∧
      e.channel.gcchHandleChannelPlaintextDataAck ⟨3, 0⟩ = none :=
  Run.exists_of_exec (by decide +kernel)

/-! ## A client that is ready -/

/-- A message that arrives while the client is ready is one that it gets. -/
def PassedWhenReady (e : ChannelEnd D P) : ChannelEvent D P → Prop
  | .data msg => e.channel.receiver.any (·.clientReady) = true →
      e.channel.options.outOfOrder = true ∨ msg.mid = e.channel.midRecv
  | _ => True

instance (e : ChannelEnd D P) (event : ChannelEvent D P) : Decidable (PassedWhenReady e event) := by
  cases event <;> unfold PassedWhenReady <;> infer_instance

def EmptyWhenReady (ch : Channel P) : Prop :=
  ∃ ccc, ch.HasClient ccc ∧ (ccc.clientReady = true → ccc.headRecv = [])

section

variable {ch ch' : Channel P} {options : ChannelOptions} {slack : Nat}

theorem EmptyWhenReady.of_ends (h : EmptyWhenReady ch)
    (howner : ch'.owner = ch.owner) (hdest : ch'.dest = ch.dest) : EmptyWhenReady ch' := by
  obtain ⟨ccc, hclient, hready⟩ := h
  exact ⟨ccc, hclient.of_ends howner hdest, hready⟩

theorem EmptyWhenReady.opened (hopened : e.Opened options) : EmptyWhenReady e.channel := by
  obtain ⟨_, hnew | hbind⟩ := hopened
  · rw [hnew]
    exact ⟨_, .inl ⟨rfl, rfl⟩, fun _ => rfl⟩
  · obtain ⟨_, hdest⟩ := gcchBind_incoming hbind
    rw [hdest]
    exact ⟨_, .inr ⟨rfl, rfl⟩, fun _ => rfl⟩

theorem EmptyWhenReady.afterDataSent (h : EmptyWhenReady ch)
    (hstep : ch.dataSentCb now cid i = some ch') : EmptyWhenReady ch' := by
  unfold dataSentCb at hstep
  split at hstep
  · cases hstep
  · split at hstep
    · cases hstep
    · split at hstep
      · cases hstep
        exact h.of_ends rfl rfl
      · obtain ⟨_, rfl⟩ := sendAckToClient_eq_some hstep
        exact h.of_ends rfl rfl

theorem EmptyWhenReady.step [DecidableEq D] (h : EmptyWhenReady e.channel)
    (hwindowed : Windowed options slack e.channel) (hunreliable : options.reliable = false)
    (hpassed : PassedWhenReady e event) (hstep : e.step env event = some e') :
    EmptyWhenReady e'.channel := by
  have ⟨ccc, hclient, hready⟩ := h
  cases event with
  | tunnel event =>
    obtain ⟨_, -, rfl⟩ := map_eq_some_iff.mp hstep
    exact h
  | localData senderCcn buf =>
    obtain ⟨_, hout, rfl⟩ := map_eq_some_iff.mp hstep
    rw [gcchHandleLocalData_eq hwindowed.isLoopback hwindowed.destroy] at hout
    split at hout
    · cases hout
      exact h
    · cases hout
      exact h.of_ends rfl rfl
  | localAck clientCcn =>
    obtain ⟨ch, hch, rfl⟩ := map_eq_some_iff.mp hstep
    obtain ⟨ccc', hclient', -, hempty⟩ :=
      hclient.afterLocalAck hwindowed.isLoopback hwindowed.destroy hch
    exact ⟨ccc', hclient', hempty (by rw [hwindowed.options, hunreliable])⟩
  | retryTransmission =>
    simp only [step] at hstep
    split at hstep
    · obtain ⟨ch, hch, rfl⟩ := map_eq_some_iff.mp hstep
      obtain ⟨_, _, -, -, rfl⟩ := retryTransmission_eq_some hch
      exact h.of_ends rfl rfl
    · cases hstep
  | dataSent now cid i =>
    obtain ⟨ch, hch, rfl⟩ := map_eq_some_iff.mp hstep
    exact h.afterDataSent hch
  | ackSent =>
    obtain ⟨ch, hch, rfl⟩ := map_eq_some_iff.mp hstep
    obtain rfl := sendAckCb_eq_some hch
    exact h.of_ends rfl rfl
  | data msg =>
    obtain ⟨ch, hch, rfl⟩ := map_eq_some_iff.mp hstep
    rw [gcchHandleChannelPlaintextData_eq hwindowed.isLoopback hwindowed.destroy hclient] at hch
    cases hch
    obtain ⟨ccc', hclient', -, hstalls⟩ := hclient.afterData e.keyOk msg
    refine ⟨ccc', hclient', fun hready' => ?_⟩
    obtain ⟨hwas, hordered, hother⟩ := hstalls hready'
    rcases hpassed (by simp [hclient.receiver, hwas]) with hout | hmid
    · simp [hordered] at hout
    · exact absurd hmid hother
  | dataAck ack =>
    obtain ⟨_, hch, rfl⟩ := map_eq_some_iff.mp hstep
    simp only [gcchHandleChannelPlaintextDataAck, hwindowed.options,
      hunreliable, Bool.false_eq_true, if_false, some.injEq] at hch
    subst hch
    exact h

end

/-- Nothing waits in the queue of an unreliable channel while its client is ready. -/
theorem unreliable_queue_empty_when_ready [DecidableEq D] (env : TunnelEnv D)
    (options : ChannelOptions) (hunreliable : options.reliable = false)
    (start e : ChannelEnd D P) (events : List (ChannelEvent D P)) (hopened : start.Opened options)
    (hrun : Run (step env) PassedWhenReady start events e) :
    ∃ ccc, e.channel.receiver = some ccc ∧
      (ccc.clientReady = true → ccc.headRecv = []) := by
  have hinv : Windowed options 1 e.channel ∧ EmptyWhenReady e.channel := by
    refine hrun.invariant (fun e : ChannelEnd D P =>
      Windowed options 1 e.channel ∧ EmptyWhenReady e.channel)
      ⟨.opened hopened, .opened hopened⟩ ?_
    intro before event after ⟨hwindowed, hempty⟩ hpassed hstep
    exact ⟨hwindowed.step le_rfl (by simp) hstep, hempty.step hwindowed hunreliable hpassed hstep⟩
  obtain ⟨ccc, hclient, hready⟩ := hinv.2
  exact ⟨ccc, hclient.receiver, hready⟩

def unreliable : ChannelOptions :=
  { nobuffer := false, reliable := false, outOfOrder := false }

def queuedEvents : List (ChannelEvent Nat Nat) :=
  [.data ⟨1, 7⟩, .data ⟨3, 9⟩, .data ⟨2, 8⟩, .localAck 1, .localAck 1, .localAck 1]

theorem unreliable_queue_empty_when_ready_queued :
    ∃ e, Run (step requestedEnv) PassedWhenReady (.requested unreliable)
        queuedEvents e ∧
      e.channel.handed = [7, 8, 9] ∧
      ∃ ccc, e.channel.receiver = some ccc ∧
        (ccc.clientReady = true → ccc.headRecv = []) :=
  Run.exists_of_exec_and (by decide +kernel) fun e hrun _ =>
    unreliable_queue_empty_when_ready requestedEnv unreliable rfl _ e _
      (opened_requested unreliable) hrun

/-- Message 1 is lost, and message 2 is queued although the client is ready. -/
theorem lost_message_stalls_client :
    ∃ e, Run (step requestedEnv) (fun _ _ => True)
        (.requested unreliable) [.data ⟨2, 8⟩] e ∧
      ∃ ccc, e.channel.receiver = some ccc ∧ ccc.clientReady = true ∧
        ccc.headRecv ≠ [] := by
  obtain ⟨e, hrun, hstalled⟩ :
      ∃ e, Run (step requestedEnv) (fun _ _ => True)
          (.requested unreliable) [.data ⟨2, 8⟩] e ∧
        decide (e.channel.receiver = some
          { ccn := 1, headRecv := [⟨2, 8⟩], clientReady := true, localData := [] }) =
          true :=
    Run.of_exec_any (by decide +kernel)
  exact ⟨e, hrun, _, of_decide_eq_true hstalled, rfl, by simp⟩

/-! ## Retransmission -/

/-- A client sends only once the tunnel is established. -/
def SendsEstablished (e : ChannelEnd D P) : ChannelEvent D P → Prop
  | .localData .. => e.tunnel.estate = .ok
  | _ => True

instance (e : ChannelEnd D P) (event : ChannelEvent D P) : Decidable (SendsEstablished e event) := by
  cases event <;> unfold SendsEstablished <;> infer_instance

/-- While messages are not acknowledged, the next transmission is scheduled or
one of them is queued; a message that is scheduled is not queued as well. -/
structure Scheduled (headSent : List (ReliableMessage P))
    (retryDataTask : Option Nat) : Prop where
  progress : headSent ≠ [] → retryDataTask.isSome = true ∨ ∃ crm ∈ headSent, crm.qe = true
  task : retryDataTask.isSome = true → ∃ crm rest, headSent = crm :: rest ∧ crm.qe = false

section

variable {ch ch' : Channel P} {options : ChannelOptions}

theorem scheduled_of_queued {headSent : List (ReliableMessage P)} (hmem : crm ∈ headSent)
    (hqe : crm.qe = true) : Scheduled headSent none :=
  ⟨fun _ => .inr ⟨crm, hmem, hqe⟩, by simp⟩

/-- Scheduling anew is right, unless it leaves an old task for a message that is
queued. -/
theorem scheduled_retryAt {otherwise : Option Nat}
    (hkept : otherwise.isSome = true → ∃ crm ∈ ch.headSent.head?, crm.qe = false) :
    Scheduled ch.headSent (ch.retryAt otherwise) := by
  unfold retryAt
  cases hhead : ch.headSent with
  | nil =>
    refine ⟨fun hne => absurd rfl hne, fun hsome => ?_⟩
    simpa [hhead] using hkept hsome
  | cons crm rest =>
    cases hqe : crm.qe with
    | false => exact ⟨fun _ => .inl (by simp [hqe]), fun _ => ⟨crm, rest, rfl, hqe⟩⟩
    | true =>
      refine ⟨fun _ => .inr ⟨crm, by simp, hqe⟩, fun hsome => ?_⟩
      have hidle := hkept (by simpa [hqe] using hsome)
      simp [hhead, hqe] at hidle

theorem head?_orderedInsert {α : Type} (r : α → α → Prop) [DecidableRel r] (a : α) (l : List α) :
    (l.orderedInsert r a).head? = some a ∨ (l.orderedInsert r a).head? = l.head? := by
  cases l with
  | nil => exact .inl rfl
  | cons b l =>
    rw [orderedInsert]
    split
    · exact .inl rfl
    · exact .inr rfl

theorem Scheduled.afterDataSent (h : Scheduled ch.headSent ch.retryDataTask)
    (hreliable : ch.options.reliable = true) (hstep : ch.dataSentCb now cid i = some ch') :
    Scheduled ch'.headSent ch'.retryDataTask ∧ ch.headSent ≠ [] := by
  unfold dataSentCb at hstep
  split at hstep
  · cases hstep
  next crm hcrm =>
    have hne : ch.headSent ≠ [] := by
      intro hnil
      simp [hnil] at hcrm
    split at hstep
    · cases hstep
    next hqueued =>
      cases hstep
      refine ⟨scheduled_retryAt fun hsome => ?_, hne⟩
      -- the task stands for the first message, so that another one was sent
      obtain ⟨first, rest, hhead, hidle⟩ := h.task hsome
      rw [hhead] at hcrm
      cases i with
      | zero =>
        obtain rfl : first = crm := by simpa using hcrm
        simp [hidle] at hqueued
      | succ i =>
        simp only [hhead, eraseIdx_cons_succ]
        rcases head?_orderedInsert cmpCrmByNextRetry _
          (first :: rest.eraseIdx i) with hfront | hfront
        · exact ⟨_, hfront, rfl⟩
        · exact ⟨first, hfront, hidle⟩

theorem ackRounds_retryDataTask {crms : List (ReliableMessage P)}
    (hloop : crms.foldlM (ackRound ack) ch = some ch') : ch'.retryDataTask = ch.retryDataTask := by
  refine (Run.of_foldlM hloop).invariant
    (fun after : Channel P => after.retryDataTask = ch.retryDataTask) rfl ?_
  intro before crm after hbefore _ hround
  unfold ackRound at hround
  split at hround
  · obtain ⟨_, rfl⟩ := handleMatchingAck_eq_some hround
    exact hbefore
  · cases hround
    exact hbefore

theorem Scheduled.afterDataAck (h : Scheduled ch.headSent ch.retryDataTask)
    (hwindowed : Windowed options 1 ch) (hreliable : options.reliable = true)
    (hstep : ch.gcchHandleChannelPlaintextDataAck ack = some ch') :
    Scheduled ch'.headSent ch'.retryDataTask ∧ ch'.headSent.Sublist ch.headSent := by
  have hpending := hwindowed.pending
  have hmax := hwindowed.maxPending
  have hroom := hwindowed.room
  unfold gcchHandleChannelPlaintextDataAck at hstep
  rw [hwindowed.options, if_pos hreliable] at hstep
  obtain ⟨after, hloop, hafter⟩ := map_eq_some_iff.mp hstep
  obtain ⟨-, -, -, hsent⟩ := ackRounds_eq_some ch.headSent hloop
    (by simpa using hpending) (by dsimp only; omega)
  have htask := ackRounds_retryDataTask hloop
  dsimp only [nil_append] at hsent htask
  split at hafter
  · subst hafter
    refine ⟨scheduled_retryAt (by simp), ?_⟩
    rw [hsent]
    exact filter_sublist
  next hfound =>
    subst hafter
    have hall : after.headSent = ch.headSent := by
      rw [hsent, filter_eq_self]
      intro crm hcrm
      simpa using fun hcovers => hfound (any_eq_true.mpr ⟨crm, hcrm, hcovers⟩)
    rw [hall, htask]
    exact ⟨h, Sublist.refl _⟩

structure Retransmits (e : ChannelEnd D P) : Prop where
  scheduled : Scheduled e.channel.headSent e.channel.retryDataTask
  established : e.channel.headSent ≠ [] → e.tunnel.estate = .ok

theorem Retransmits.of_same (h : Retransmits e) (hsame : SameSender e.channel ch) :
    Retransmits (e.setChannel ch) := by
  refine ⟨?_, ?_⟩
  · simp only [setChannel, hsame.headSent, hsame.retryDataTask]
    exact h.scheduled
  · simp only [setChannel, hsame.headSent]
    exact h.established

theorem Retransmits.step [DecidableEq D] (h : Retransmits e)
    (hwindowed : Windowed options 1 e.channel) (hreliable : options.reliable = true)
    (hsends : SendsEstablished e event) (hstep : e.step env event = some e') : Retransmits e' := by
  obtain ⟨_, hclient⟩ := hwindowed.client
  cases event with
  | tunnel event =>
    obtain ⟨_, ht, rfl⟩ := map_eq_some_iff.mp hstep
    exact ⟨h.scheduled, fun hne => Tunnel.ok_of_step (h.established hne) ht⟩
  | localData senderCcn buf =>
    obtain ⟨_, hout, rfl⟩ := map_eq_some_iff.mp hstep
    rw [gcchHandleLocalData_eq hwindowed.isLoopback hwindowed.destroy] at hout
    split at hout
    · cases hout
      exact h
    · cases hout
      refine ⟨scheduled_of_queued (mem_append_right _ (mem_singleton.mpr rfl)) ?_, fun _ => hsends⟩
      exact decide_eq_true hsends
  | localAck clientCcn =>
    obtain ⟨ch, hch, rfl⟩ := map_eq_some_iff.mp hstep
    obtain ⟨-, -, hsame, -⟩ := hclient.afterLocalAck hwindowed.isLoopback hwindowed.destroy hch
    exact h.of_same hsame
  | retryTransmission =>
    simp only [step] at hstep
    split at hstep
    · obtain ⟨ch, hch, rfl⟩ := map_eq_some_iff.mp hstep
      obtain ⟨_, _, hhead, -, rfl⟩ := retryTransmission_eq_some hch
      have hok := h.established (by simp [hhead])
      exact ⟨scheduled_of_queued mem_cons_self (decide_eq_true hok), fun _ => hok⟩
    · cases hstep
  | dataSent now cid i =>
    obtain ⟨ch, hch, rfl⟩ := map_eq_some_iff.mp hstep
    obtain ⟨hscheduled, hne⟩ := h.scheduled.afterDataSent (by rw [hwindowed.options, hreliable]) hch
    exact ⟨hscheduled, fun _ => h.established hne⟩
  | ackSent =>
    obtain ⟨ch, hch, rfl⟩ := map_eq_some_iff.mp hstep
    obtain rfl := sendAckCb_eq_some hch
    exact ⟨h.scheduled, h.established⟩
  | data msg =>
    obtain ⟨ch, hch, rfl⟩ := map_eq_some_iff.mp hstep
    rw [gcchHandleChannelPlaintextData_eq hwindowed.isLoopback hwindowed.destroy hclient] at hch
    cases hch
    obtain ⟨-, -, hsame, -⟩ := hclient.afterData e.keyOk msg
    exact h.of_same hsame
  | dataAck ack =>
    obtain ⟨_, hch, rfl⟩ := map_eq_some_iff.mp hstep
    obtain ⟨hscheduled, hsublist⟩ := h.scheduled.afterDataAck hwindowed hreliable hch
    refine ⟨hscheduled, fun hne => h.established fun hnil => hne ?_⟩
    rw [hnil] at hsublist
    exact sublist_nil.mp hsublist

theorem Retransmits.opened (hopened : e.Opened options) : Retransmits e := by
  have hempty : e.channel.headSent = [] ∧ e.channel.retryDataTask = none := by
    obtain ⟨_, hnew | hbind⟩ := hopened
    · rw [hnew]
      exact ⟨rfl, rfl⟩
    · obtain ⟨_, hdest⟩ := gcchBind_incoming hbind
      rw [hdest]
      exact ⟨rfl, rfl⟩
  refine ⟨⟨?_, ?_⟩, ?_⟩ <;> simp [hempty.1, hempty.2]

end

/-- While messages are not acknowledged, one of them is on its way or a retry is scheduled. -/
theorem retransmission_scheduled [DecidableEq D] (env : TunnelEnv D)
    (options : ChannelOptions) (hreliable : options.reliable = true)
    (start e : ChannelEnd D P) (events : List (ChannelEvent D P)) (hopened : start.Opened options)
    (hrun : Run (step env) SendsEstablished start events e) :
    (e.channel.headSent ≠ [] → e.channel.retryDataTask.isSome = true ∨
      ∃ crm ∈ e.channel.headSent, crm.qe = true) ∧
    (e.channel.retryDataTask.isSome = true →
      ∃ crm rest, e.channel.headSent = crm :: rest ∧ crm.qe = false) := by
  have hinv : Windowed options 1 e.channel ∧ Retransmits e := by
    refine hrun.invariant (fun e : ChannelEnd D P =>
      Windowed options 1 e.channel ∧ Retransmits e)
      ⟨.opened hopened, .opened hopened⟩ ?_
    intro before event after ⟨hwindowed, hretransmits⟩ hsends hstep
    exact ⟨hwindowed.step le_rfl (by simp) hstep,
      hretransmits.step hwindowed hreliable hsends hstep⟩
  exact ⟨hinv.2.scheduled.progress, hinv.2.scheduled.task⟩

def reliableInOrder : ChannelOptions :=
  { nobuffer := false, reliable := true, outOfOrder := false }

def retransmittedEvents : List (ChannelEvent Nat Nat) :=
  [.tunnel (.addConnection 0), .tunnel .addChannel, .tunnel (.connectionReady 0 true),
    .tunnel (.handleKxAuth 0 0 (.point 5) (.point 6)
      (cryptoHash (kxKey 0 (kxMaterial 1 2 (.secret 3) (.point 5))))),
    .localData 1 7, .dataSent 0 none 0, .retryTransmission, .localData 1 8,
    .dataSent 5 none 0]

theorem retransmission_scheduled_repeated :
    ∃ e, Run (step requestedEnv) SendsEstablished
        (.requested reliableInOrder) retransmittedEvents e ∧
      e.channel.headSent.map (·.dataMessage.payload) = [8, 7] ∧
      (e.channel.retryDataTask.isSome = true ∨
        ∃ crm ∈ e.channel.headSent, crm.qe = true) := by
  refine Run.exists_of_exec_and (by decide +kernel) fun e hrun hsent =>
    (retransmission_scheduled requestedEnv reliableInOrder rfl _ e _
      (opened_requested reliableInOrder) hrun).1 ?_
  rintro hnil
  simp [hnil] at hsent

/-- A message of a client that does not wait for the tunnel is never sent. -/
theorem early_message_unscheduled :
    ∃ e, Run (step requestedEnv) (fun _ _ => True)
        (.requested reliableInOrder) [.localData 1 7] e ∧
      e.channel.headSent ≠ [] ∧ e.channel.retryDataTask = none ∧
      ∀ crm ∈ e.channel.headSent, crm.qe = false :=
  Run.exists_of_exec (by decide +kernel)

end Gnunet.Cadet
