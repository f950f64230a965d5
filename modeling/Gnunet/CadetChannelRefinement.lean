import Gnunet.CadetChannelWindow

/-!
# The steps of a reliable link refine the sliding windows

The sending end retains what the receiver misses.  One lemma for each kind of step
gives the invariant of every run in which no message comes too late and, on an
out-of-order channel, no message is passed to the client out of sequence.
-/

namespace Gnunet.Cadet

open Protocol List Option Channel SlidingWindow

variable {P : Type} {size : Nat}

/-! ## The sending end -/

variable {keyOk : Bool} {ccn : Nat} {buf : P}

section

variable {w : SlidingWindow size} {sent : List P} {ch ch' : Channel P}
  {ccc : ChannelClient P} {n : Nat}

theorem Sends.missing_card_le (h : Sends w sent ch) (hsize : size ≤ 4) :
    (missing w.sent w.next w.held).card ≤ ch.headSent.length := by
  have hahead := w.sent_le
  have hmaps : ∀ n ∈ missing w.sent w.next w.held,
      midOf n ∈ (ch.headSent.map (·.dataMessage.mid)).toFinset := by
    intro n hn
    simp only [missing, Finset.mem_filter, Finset.mem_Ico] at hn
    rcases h.retained n hn.1.2 with (hlt | hheld) | ⟨crm, hcrm, hmsg⟩
    · omega
    · exact absurd hheld hn.2
    · rw [List.mem_toFinset, List.mem_map]
      exact ⟨crm, hcrm, (messageOf_eq_some hmsg).1⟩
  have hinj : Set.InjOn midOf (missing w.sent w.next w.held : Set Nat) := by
    intro a ha b hb heq
    simp only [missing, Finset.coe_filter, Finset.mem_Ico, Set.mem_ofPred_eq] at ha hb
    exact midOf_eq_of_near (by omega) (by omega) heq
  calc (missing w.sent w.next w.held).card
      ≤ (ch.headSent.map (·.dataMessage.mid)).toFinset.card :=
        Finset.card_le_card_of_injOn midOf hmaps hinj
    _ ≤ (ch.headSent.map (·.dataMessage.mid)).length := toFinset_card_le _
    _ = ch.headSent.length := length_map _

theorem messageOf_append (hn : n < sent.length) (more : List P) :
    messageOf (sent ++ more) n = messageOf sent n := by
  rw [messageOf, messageOf, getElem?_append_left hn]

theorem gcchHandleLocalData_eq (hloopback : ch.isLoopback = false)
    (hdestroy : ch.destroy = false) (keyOk : Bool) (ccn : Nat) (buf : P) :
    ch.gcchHandleLocalData keyOk ccn buf =
      if ch.maxPendingMessages < ch.pendingMessages then some (false, ch)
      else
        some (true, { ch with
          pendingMessages := (ch.pendingMessages + 1) % 2 ^ 32
          midSend := ch.midSend + 1
          headSent := ch.headSent ++
            [{ qe := keyOk
               dataMessage := { mid := ch.midSend + 1, payload := buf }
               nextRetry := 0
               retryDelay := 0 }]
          retryDataTask := none }) := by
  unfold gcchHandleLocalData
  rw [if_neg (show ¬ch.destroy = true by simp [hdestroy]),
    if_neg (show ¬ch.isLoopback = true by simp [hloopback])]

theorem Sends.afterLocalData (h : Sends w sent ch) (hlength : sent.length = w.sent)
    (hsize : size ≤ 4) (hstep : ch.gcchHandleLocalData keyOk ccn buf = some (true, ch')) :
    SameReceiving ch ch' ∧ ∃ hroom, Sends (w.send hroom) (sent ++ [buf]) ch' := by
  have hmissing := h.missing_card_le hsize
  have hpending := h.pending
  rw [gcchHandleLocalData_eq h.reliable.isLoopback h.reliable.destroy] at hstep
  split at hstep
  · simp at hstep
  next hroom =>
    rw [h.reliable.maxPending] at hroom
    simp only [some.injEq, Prod.mk.injEq, true_and] at hstep
    subst hstep
    refine ⟨⟨⟨rfl, rfl, rfl, rfl⟩, rfl, rfl, rfl, rfl, rfl⟩, by omega, ?_⟩
    constructor
    · exact h.reliable.of_same ⟨rfl, rfl, rfl, rfl⟩
    · simp [h.midSend, send, BitVec.ofNat_add]
    · simp only [length_append, length_singleton]
      omega
    · simp only [length_append, length_singleton]
      omega
    · intro n hn
      rcases Nat.lt_succ_iff_lt_or_eq.mp hn with hlt | rfl
      · rcases h.retained n hlt with hreceived | ⟨crm, hcrm, hmsg⟩
        · exact .inl hreceived
        · refine .inr ⟨crm, by simp [hcrm], ?_⟩
          rw [messageOf_append (by omega), hmsg]
      · refine .inr ⟨_, mem_append_right _ (mem_singleton.mpr rfl), ?_⟩
        simp [messageOf, ← hlength, midOf, h.midSend, BitVec.ofNat_add]

theorem Sends.of_perm (h : Sends w sent ch) (hsetup : SameSetup ch ch')
    (hmid : ch'.midSend = ch.midSend) (hpending : ch'.pendingMessages = ch.pendingMessages)
    (hperm : (ch'.headSent.map (·.dataMessage)).Perm
      (ch.headSent.map (·.dataMessage))) : Sends w sent ch' := by
  have hlen : ch'.headSent.length = ch.headSent.length := by
    simpa using hperm.length_eq
  refine ⟨h.reliable.of_same hsetup, hmid.trans h.midSend, ?_, ?_, ?_⟩
  · rw [hpending, hlen, h.pending]
  · rw [hlen]
    exact h.room
  · intro n hn
    rcases h.retained n hn with hreceived | ⟨_, hcrm, hmsg⟩
    · exact .inl hreceived
    · have hmem := hperm.mem_iff.mpr (mem_map_of_mem hcrm)
      obtain ⟨crm', hcrm', heq⟩ := mem_map.mp hmem
      exact .inr ⟨crm', hcrm', by rw [hmsg, heq]⟩

theorem retryTransmission_eq_some (hstep : ch.retryTransmission keyOk = some ch') :
    ∃ crm rest, ch.headSent = crm :: rest ∧ crm.qe = false ∧ ch' = { ch with
        headSent := { crm with qe := keyOk } :: rest
        retryDataTask := none } := by
  unfold retryTransmission at hstep
  split at hstep
  · cases hstep
  next crm rest hhead =>
    split at hstep
    · cases hstep
    next hqe =>
      cases hstep
      exact ⟨crm, rest, hhead, by simpa using hqe, rfl⟩

theorem Sends.afterRetry (h : Sends w sent ch) (hstep : ch.retryTransmission keyOk = some ch') :
    SameReceiving ch ch' ∧ Sends w sent ch' := by
  obtain ⟨_, _, hhead, -, rfl⟩ := retryTransmission_eq_some hstep
  refine ⟨⟨⟨rfl, rfl, rfl, rfl⟩, rfl, rfl, rfl, rfl, rfl⟩,
    h.of_perm ⟨rfl, rfl, rfl, rfl⟩ rfl rfl ?_⟩
  simp [hhead]

theorem Sends.afterDataSent (h : Sends w sent ch) (hstep : ch.dataSentCb now cid i = some ch') :
    SameReceiving ch ch' ∧ Sends w sent ch' := by
  unfold dataSentCb at hstep
  split at hstep
  · cases hstep
  next crm hcrm =>
    rw [h.reliable.reliable] at hstep
    split at hstep
    · cases hstep
    · simp only [if_true, some.injEq] at hstep
      subst hstep
      refine ⟨⟨⟨rfl, rfl, rfl, rfl⟩, rfl, rfl, rfl, rfl, rfl⟩,
        h.of_perm ⟨rfl, rfl, rfl, rfl⟩ rfl rfl ?_⟩
      obtain ⟨hi, rfl⟩ := List.getElem?_eq_some_iff.mp hcrm
      refine ((perm_orderedInsert cmpCrmByNextRetry _ _).map _).trans ?_
      exact (getElem_cons_eraseIdx_perm hi).map (·.dataMessage)

theorem sendAckToClient_eq_some (hstep : ch.sendAckToClient toOwner = some ch') :
    ∃ localAcks, ch' = { ch with localAcks := localAcks } := by
  unfold sendAckToClient at hstep
  split at hstep
  · split at hstep
    · cases hstep
      exact ⟨_, rfl⟩
    · cases hstep
  · cases hstep
    exact ⟨_, rfl⟩

theorem handleMatchingAck_eq_some (hstep : ch.handleMatchingAck = some ch') :
    ∃ localAcks, ch' = { ch with
      pendingMessages := (ch.pendingMessages + 2 ^ 32 - 1) % 2 ^ 32
      localAcks := localAcks } := by
  unfold handleMatchingAck at hstep
  dsimp only at hstep
  split at hstep
  · obtain ⟨localAcks, hch⟩ := sendAckToClient_eq_some hstep
    rw [decrementPending] at hch
    exact ⟨localAcks, hch⟩
  · cases hstep

variable {ack : ChannelDataAckMessage}

theorem ackRounds_eq_some (crms : List (ReliableMessage P))
    (hloop : crms.foldlM (ackRound ack) ch = some ch')
    (hpending : ch.pendingMessages = ch.headSent.length + crms.length)
    (hbound : ch.pendingMessages < 2 ^ 32) :
    SameReceiving ch ch' ∧ ch'.midSend = ch.midSend ∧ ch'.pendingMessages = ch'.headSent.length ∧
      ch'.headSent = ch.headSent ++ crms.filter fun crm =>
        !ack.covers ch.maxPendingMessages crm.dataMessage.mid := by
  induction crms generalizing ch with
  | nil =>
    cases hloop
    exact ⟨⟨⟨rfl, rfl, rfl, rfl⟩, rfl, rfl, rfl, rfl, rfl⟩, rfl, hpending, by simp⟩
  | cons crm crms ih =>
    obtain ⟨next, hround, hrest⟩ := bind_eq_some_iff.mp hloop
    rw [length_cons] at hpending
    unfold ackRound at hround
    split at hround
    next hcovers =>
      obtain ⟨_, rfl⟩ := handleMatchingAck_eq_some hround
      obtain ⟨⟨⟨h1, h2, h3, h4⟩, h5, h6, h7, h8, h9⟩, hmid, hcount, hsent⟩ :=
        ih hrest (by dsimp only; omega) (by dsimp only; omega)
      refine ⟨⟨⟨h1, h2, h3, h4⟩, h5, h6, h7, h8, h9⟩, hmid, hcount, ?_⟩
      rw [hsent, filter_cons_of_neg (by simp [hcovers])]
    next hcovers =>
      cases hround
      obtain ⟨⟨⟨h1, h2, h3, h4⟩, h5, h6, h7, h8, h9⟩, hmid, hcount, hsent⟩ :=
        ih hrest (by simp only [length_append, length_singleton]; omega)
          hbound
      refine ⟨⟨⟨h1, h2, h3, h4⟩, h5, h6, h7, h8, h9⟩, hmid, hcount, ?_⟩
      rw [hsent, filter_cons_of_pos (by simpa using hcovers)]
      simp

theorem AckSound.received_of_covers (h : AckSound w d ack)
    (hnear : n + size + 1 < d + 2 ^ 32) (hcovers : ack.covers size (midOf n) = true) :
    w.Received n := by
  have hd := h.next_le
  rcases Nat.lt_trichotomy n d with hlt | rfl | hgt
  · exact .inl (by omega)
  · simp only [ChannelDataAckMessage.covers, h.mid,
      midOf_sub_of_le (le_refl n) (by omega), midOf_sub_self_sub_one,
      Bool.or_eq_true, Bool.and_eq_true, decide_eq_true_eq] at hcovers
    omega
  · simp only [ChannelDataAckMessage.covers, h.mid,
      midOf_sub_of_le hgt.le (by omega), midOf_sub_one hgt (by omega),
      Bool.or_eq_true, Bool.and_eq_true, decide_eq_true_eq] at hcovers
    rcases hcovers with hpast | ⟨_, hbit⟩
    · omega
    · have hreceived := h.futures _ hbit
      rwa [show d + 1 + (n - (d + 1)) = n by omega] at hreceived

theorem Sends.afterAck (h : Sends w sent ch) (hsize : size ≤ 4)
    (hack : AckSound w d ack) (hfresh : w.sent + size < d + 2 ^ 32)
    (hstep : ch.gcchHandleChannelPlaintextDataAck ack = some ch') :
    SameReceiving ch ch' ∧ Sends w sent ch' := by
  have hroom := h.room
  unfold gcchHandleChannelPlaintextDataAck at hstep
  rw [if_pos h.reliable.reliable] at hstep
  obtain ⟨after, hloop, hafter⟩ := map_eq_some_iff.mp hstep
  obtain ⟨hsame, hmid, hcount, hsent⟩ := ackRounds_eq_some ch.headSent hloop
    (by simpa using h.pending) (by simp only [h.pending]; omega)
  have hsends : Sends w sent after := by
    refine ⟨h.reliable.of_same ⟨hsame.isLoopback, hsame.destroy, hsame.options,
      hsame.maxPending⟩, hmid.trans h.midSend, hcount, ?_, ?_⟩
    · rw [hsent]
      exact (length_filter_le _ _).trans hroom
    · intro n hn
      rcases h.retained n hn with hreceived | ⟨crm, hcrm, hmsg⟩
      · exact .inl hreceived
      · by_cases hcovers : ack.covers ch.maxPendingMessages crm.dataMessage.mid = true
        · rw [(messageOf_eq_some hmsg).1, h.reliable.maxPending] at hcovers
          exact .inl (hack.received_of_covers (by omega) hcovers)
        · refine .inr ⟨crm, ?_, hmsg⟩
          rw [hsent]
          simpa [hcrm] using hcovers
  split at hafter
  · subst hafter
    exact ⟨⟨⟨hsame.isLoopback, hsame.destroy, hsame.options, hsame.maxPending⟩,
      hsame.owner, hsame.dest, hsame.lastControlQe, hsame.midRecv,
      hsame.midFutures⟩,
      hsends.of_perm ⟨rfl, rfl, rfl, rfl⟩ rfl rfl (Perm.refl _)⟩
  · subst hafter
    exact ⟨⟨⟨hsame.isLoopback, hsame.destroy, hsame.options, hsame.maxPending⟩,
      hsame.owner, hsame.dest, hsame.lastControlQe, hsame.midRecv,
      hsame.midFutures⟩, hsends⟩

end

/-! ## One direction -/

section

variable {w w' : SlidingWindow size} {sent : List P}
  {sender sender' receiver receiver' : Channel P} {ccc : ChannelClient P}
  {acks : List (Nat × ChannelDataAckMessage)} {kept kept' : List Nat} {n : Nat}

section

variable (h : Delivers w sent sender receiver acks kept)
include h

theorem Delivers.afterSender (hsends : Sends w sent sender') :
    Delivers w sent sender' receiver acks kept :=
  ⟨h.length, hsends, h.receives, h.acks, h.kept⟩

theorem Delivers.afterSend (hsends : Sends (w.send hroom) (sent ++ [buf]) sender') :
    Delivers (w.send hroom) (sent ++ [buf]) sender' receiver acks kept := by
  have hnext := w.next_le
  have hlength := h.length
  obtain ⟨ccc, hr⟩ := h.receives
  refine ⟨by simp [hlength, send], hsends, ⟨ccc, ?_⟩, ?_, h.kept⟩
  · refine ⟨hr.reliable, hr.client, ?_, hr.midRecv, ?_, hr.ready, hr.futures,
      hr.control⟩
    · rw [hr.handed]
      exact (take_append_of_le_length (by omega)).symm
    · refine hr.queue.imp fun m com hcom => ⟨hcom.1, ?_⟩
      have hm := (List.getElem?_eq_some_iff.mp hcom.2).1
      rw [getElem?_append_left hm, hcom.2]
  · intro entry hentry
    have hsound := h.acks entry hentry
    exact ⟨hsound.next_le, hsound.mid, hsound.futures⟩

theorem Delivers.afterReceiver (hextends : SlidingWindow.Extends w w')
    (hreceives : Receives w' sent receiver' ccc) (hkept : ∀ n, w'.Received n → n ∈ kept') :
    Delivers w' sent sender receiver' acks kept' := by
  refine ⟨h.length.trans hextends.sent.symm, ?_, ⟨ccc, hreceives⟩, ?_, hkept⟩
  · refine ⟨h.sends.reliable, ?_, h.sends.pending, h.sends.room, ?_⟩
    · rw [hextends.sent]
      exact h.sends.midSend
    · intro n hn
      rw [hextends.sent] at hn
      rcases h.sends.retained n hn with hreceived | hcrm
      · exact .inl (hextends.received n hreceived)
      · exact .inr hcrm
  · intro entry hentry
    have hsound := h.acks entry hentry
    exact ⟨hsound.next_le.trans hextends.next_le, hsound.mid,
      fun i hi => hextends.received _ (hsound.futures i hi)⟩

end

theorem Arrival.extends (h : Arrival w n w') : SlidingWindow.Extends w w' := by
  cases h with
  | dropped => exact extends_refl w
  | held hnew hin => exact ⟨rfl, le_rfl, fun _ hm => received_hold.mpr (.inr hm)⟩
  | taken hsent _ _ => exact extends_advance hsent

theorem Arrival.received_or_kept (h : Arrival w n w') (hd : Receives w sent receiver ccc)
    (hlength : sent.length = w.sent)
    (hd' : Receives w' sent receiver' ccc') (m : Nat) (hm : w'.Received m) :
    w.Received m ∨ m = n ∧ Link.keeps receiver receiver' = true := by
  have hhanded := hd.handed_length hlength
  have hqueue := hd.queue_length
  have hhanded' := hd'.handed_length (hlength.trans h.extends.sent.symm)
  have hqueue' := hd'.queue_length
  have hkeeps : Link.keeps receiver receiver' = true ↔
      w.next + w.held.length < w'.next + w'.held.length := by
    rw [Link.keeps, decide_eq_true_iff, hd.client.handed, hd.client.queue,
      hd'.client.handed, hd'.client.queue, hhanded, hqueue, hhanded', hqueue']
  rw [hkeeps]
  cases h with
  | dropped => exact .inl hm
  | held hnew hin =>
    rcases received_hold.mp hm with rfl | hm
    · refine .inr ⟨rfl, ?_⟩
      simp [hold, orderedInsert_length]
    · exact .inl hm
  | taken hsent hnext hnew =>
    subst hnext
    rcases received_advance hm with rfl | hm
    · refine .inr ⟨rfl, ?_⟩
      rw [held_advance_of_notMem hsent hnew]
      simp [advance]
    · exact .inl hm

end

/-! ## Both directions -/

structure Joined (size : Nat) (opts : ChannelOptions) (link : Link P) :
    Prop where
  options : ∀ p, (link.channel p).options = opts
  directions : ∀ p, ∃ w : SlidingWindow size, Delivers w (link.sent p)
    (link.channel p) (link.channel p.other) (link.acks p.other)
    (link.kept p.other)

/-- A message arrives before its identifier can be mistaken for a later one. -/
def Timely (link : Link P) : Side × LinkEvent P → Prop
  | (p, .dataArrives _ n) =>
      (link.channel p).handed.length + (link.channel p).maxPendingMessages < n + 2 ^ 32
  | (p, .ackArrives i) => ∀ entry ∈ (link.acks p.other)[i]?,
      (link.sent p).length + (link.channel p).maxPendingMessages < entry.1 + 2 ^ 32
  | _ => True

/-- What an out-of-order channel passes to its client is the next message. -/
def InSequence (link : Link P) : Side × LinkEvent P → Prop
  | (p, .dataArrives _ n) => (link.channel p).options.outOfOrder = true →
      (link.channel p).receiver.any (·.clientReady) = true →
      midOf n = (link.channel p).midRecv
  | (p, .localAck _) => (link.channel p).options.outOfOrder = true →
      ∀ com ∈ (link.channel p).queue.head?, com.mid = (link.channel p).midRecv
  | _ => True

instance (link : Link P) (event : Side × LinkEvent P) : Decidable (Timely link event) := by
  unfold Timely
  split <;> infer_instance

instance (link : Link P) (event : Side × LinkEvent P) : Decidable (InSequence link event) := by
  unfold InSequence
  split <;> infer_instance

section

variable {opts : ChannelOptions} {link link' : Link P} {p : Side}

section

variable (h : Joined size opts link) (hother : link'.channel p.other = link.channel p.other)
include h hother

theorem Joined.options_after (hsame : SameSetup (link.channel p) (link'.channel p)) (q : Side) :
    (link'.channel q).options = opts := by
  rcases Side.eq_or_eq_other p q with rfl | rfl
  · rw [hsame.options, h.options]
  · rw [hother, h.options]

theorem Joined.afterSender (hsent : link'.sent p.other = link.sent p.other)
    (hacks : link'.acks = link.acks) (hkept : link'.kept = link.kept)
    (hsame : SameReceiving (link.channel p) (link'.channel p))
    (hp : ∃ w : SlidingWindow size, Delivers w (link'.sent p) (link'.channel p)
      (link.channel p.other) (link.acks p.other) (link.kept p.other)) : Joined size opts link' := by
  refine ⟨h.options_after hother hsame.toSameSetup, fun q => ?_⟩
  rw [hacks, hkept]
  rcases Side.eq_or_eq_other p q with rfl | rfl
  · rw [hother]
    exact hp
  · obtain ⟨w, hw⟩ := h.directions p.other
    rw [Side.other_other] at hw ⊢
    rw [hother, hsent]
    obtain ⟨ccc, hr⟩ := hw.receives
    exact ⟨w, hw.length, hw.sends, ⟨ccc, hr.of_same hsame⟩, hw.acks, hw.kept⟩

theorem Joined.afterReceiver (hsent : link'.sent = link.sent)
    (hacks : link'.acks p.other = link.acks p.other)
    (hkept : link'.kept p.other = link.kept p.other)
    (hsame : SameSending (link.channel p) (link'.channel p))
    (hp : ∃ w : SlidingWindow size, Delivers w (link.sent p.other)
      (link.channel p.other) (link'.channel p) (link'.acks p) (link'.kept p)) :
    Joined size opts link' := by
  refine ⟨h.options_after hother hsame.toSameSetup, fun q => ?_⟩
  rw [hsent]
  rcases Side.eq_or_eq_other p q with rfl | rfl
  · obtain ⟨w, hw⟩ := h.directions q
    rw [hother, hacks, hkept]
    exact ⟨w, hw.afterSender (hw.sends.of_same hsame)⟩
  · rw [Side.other_other, hother]
    exact hp

end

@[simp] theorem Link.setChannel_channel_self (link : Link P) :
    (link.setChannel p ch).channel p = ch := by
  simp [Link.setChannel]

@[simp] theorem Link.setChannel_channel_other (link : Link P) :
    (link.setChannel p ch).channel p.other = link.channel p.other := by
  simp [Link.setChannel]

theorem Joined.afterLocalData (h : Joined size opts link) (hsize : size ≤ 4)
    (hstep : link.localData p keyOk buf = some link') : Joined size opts link' := by
  obtain ⟨w, hw⟩ := h.directions p
  unfold Link.localData at hstep
  dsimp only at hstep
  split at hstep
  next ch hch =>
    cases hstep
    obtain ⟨hsame, hroom, hsends⟩ := hw.sends.afterLocalData hw.length hsize hch
    apply h.afterSender (p := p)
    · simp
    · simp
    · rfl
    · rfl
    · simpa using hsame
    · exact ⟨w.send hroom, by simpa using hw.afterSend hsends⟩
  · cases hstep

theorem Joined.setSender (h : Joined size opts link) (hstep : ∀ (w : SlidingWindow size),
      Delivers w (link.sent p) (link.channel p) (link.channel p.other)
        (link.acks p.other) (link.kept p.other) →
      SameReceiving (link.channel p) ch ∧ Sends w (link.sent p) ch) :
    Joined size opts (link.setChannel p ch) := by
  obtain ⟨w, hw⟩ := h.directions p
  obtain ⟨hsame, hsends⟩ := hstep w hw
  apply h.afterSender (p := p)
  · simp
  · rfl
  · rfl
  · rfl
  · simpa using hsame
  · exact ⟨w, by simpa [Link.setChannel] using hw.afterSender hsends⟩

theorem gcchHandleChannelPlaintextData_eq {ch : Channel P}
    (hloopback : ch.isLoopback = false) (hdestroy : ch.destroy = false)
    (hclient : ch.HasClient ccc) (keyOk : Bool) (msg : ChannelAppDataMessage P) :
    ch.gcchHandleChannelPlaintextData keyOk msg =
      some (ch.receiveData keyOk ch.owner.isSome ccc msg) := by
  simp [gcchHandleChannelPlaintextData, hloopback, hdestroy, hclient.receiver]

theorem Joined.afterDataArrives [DecidableEq P] (h : Joined size opts link) (hsize : size ≤ 4)
    (htimely : Timely link (p, .dataArrives keyOk n))
    (hseq : InSequence link (p, .dataArrives keyOk n))
    (hstep : link.dataArrives p keyOk n = some link') : Joined size opts link' := by
  obtain ⟨w, hw⟩ := h.directions p.other
  rw [Side.other_other] at hw
  obtain ⟨ccc, hr⟩ := hw.receives
  obtain ⟨msg, hmsg, hstep⟩ := bind_eq_some_iff.mp hstep
  split at hstep
  · obtain ⟨_, hch, hlink⟩ := bind_eq_some_iff.mp hstep
    rw [gcchHandleChannelPlaintextData_eq hr.reliable.isLoopback hr.reliable.destroy
      hr.client] at hch
    cases hch
    cases hlink
    have hfresh : w.next + size < n + 2 ^ 32 := by
      simpa only [Timely, hr.client.handed, hr.handed_length hw.length,
        hr.reliable.maxPending] using htimely
    obtain ⟨w', _, harrival, hr'⟩ := hr.afterData keyOk hw.length hsize hmsg
      hfresh (fun hout hready => hseq hout (by simp [hr.client.receiver, hready]))
    have hkept := harrival.received_or_kept hr hw.length hr'
    apply h.afterReceiver (p := p)
    · simp
    · rfl
    · rfl
    · split <;> simp
    · simpa using sameSending_receiveData keyOk (link.channel p) _ ccc msg
    · refine ⟨w', hw.afterReceiver harrival.extends (by simpa using hr') ?_⟩
      intro m hm
      rcases hkept m hm with hold | ⟨rfl, hkeeps⟩
      · have hmem := hw.kept m hold
        split <;> simp [hmem]
      · rw [if_pos hkeeps]
        simp
  · cases hstep

theorem Joined.afterLocalAck (h : Joined size opts link) (hsize : size ≤ 4)
    (hseq : InSequence link (p, .localAck keyOk))
    (hstep : (link.channel p).gcchHandleLocalAck keyOk (link.channel p).ccn = some ch) :
    Joined size opts (link.setChannel p ch) := by
  obtain ⟨w, hw⟩ := h.directions p.other
  rw [Side.other_other] at hw
  obtain ⟨_, hr⟩ := hw.receives
  rw [hr.client.ccn] at hstep
  obtain ⟨hsame, w', _, hadvance, hr'⟩ := hr.afterLocalAck keyOk hsize
    (by simpa [InSequence, hr.client.queue] using hseq) hstep
  have hextends : SlidingWindow.Extends w w' := by
    rcases hadvance with rfl | ⟨_, hsent, rfl⟩
    · exact extends_refl _
    · exact extends_advance hsent
  apply h.afterReceiver (p := p)
  · simp
  · rfl
  · rfl
  · rfl
  · simpa using hsame
  · refine ⟨w', hw.afterReceiver hextends (by simpa using hr') ?_⟩
    intro m hm
    rcases hadvance with rfl | ⟨hheld, _, rfl⟩
    · exact hw.kept m hm
    · rcases received_advance hm with rfl | hold
      · exact hw.kept _ (.inr hheld)
      · exact hw.kept m hold

theorem Joined.afterAckSent (h : Joined size opts link)
    (hstep : link.ackSent p = some link') : Joined size opts link' := by
  obtain ⟨w, hw⟩ := h.directions p.other
  rw [Side.other_other] at hw
  obtain ⟨ccc, hr⟩ := hw.receives
  obtain ⟨ack, hack, hstep⟩ := bind_eq_some_iff.mp hstep
  obtain ⟨_, hch, hlink⟩ := bind_eq_some_iff.mp hstep
  simp only [sendAckCb, hack, isNone_some, Bool.false_eq_true, if_false, some.injEq] at hch
  subst hch
  cases hlink
  have hhanded := hr.handed_length hw.length
  apply h.afterReceiver (p := p)
  · simp
  · rfl
  · simp
  · rfl
  · simpa using (⟨⟨rfl, rfl, rfl, rfl⟩, rfl, rfl, rfl⟩ : SameSending (link.channel p)
      { link.channel p with lastControlQe := none })
  · refine ⟨w, hw.length, hw.sends, ⟨ccc, ?_⟩, ?_, hw.kept⟩
    · simp only [Link.setChannel, Function.update_self]
      exact ⟨hr.reliable.of_same ⟨rfl, rfl, rfl, rfl⟩, hr.client, hr.handed,
        hr.midRecv, hr.queue, hr.ready, hr.futures, by simp⟩
    · intro entry hentry
      simp only [Function.update_self, mem_append, mem_singleton] at hentry
      rcases hentry with hentry | rfl
      · exact hw.acks entry hentry
      · simp only [hr.client.handed, hhanded, hr.control ack hack]
        exact ⟨le_rfl, hr.midRecv, fun i hi => .inr (hr.futures i hi)⟩

theorem Joined.step [DecidableEq P] (h : Joined size opts link) (hsize : size ≤ 4)
    (event : Side × LinkEvent P) (htimely : Timely link event)
    (hseq : InSequence link event) (hstep : link.step event = some link') :
    Joined size opts link' := by
  obtain ⟨_, event⟩ := event
  cases event with
  | localData keyOk buf => exact h.afterLocalData hsize hstep
  | localAck keyOk =>
    obtain ⟨ch, hch, rfl⟩ := map_eq_some_iff.mp hstep
    exact h.afterLocalAck hsize hseq hch
  | retryTransmission keyOk =>
    simp only [Link.step] at hstep
    split at hstep
    · obtain ⟨ch, hch, rfl⟩ := map_eq_some_iff.mp hstep
      exact h.setSender fun w hw => hw.sends.afterRetry hch
    · cases hstep
  | dataSent i now latency =>
    obtain ⟨_, _, hstep⟩ := bind_eq_some_iff.mp hstep
    obtain ⟨ch, hch, hlink⟩ := bind_eq_some_iff.mp hstep
    cases hlink
    have hjoined := h.setSender fun w hw => hw.sends.afterDataSent hch
    exact ⟨hjoined.options, hjoined.directions⟩
  | ackSent => exact h.afterAckSent hstep
  | dataArrives keyOk n => exact h.afterDataArrives hsize htimely hseq hstep
  | ackArrives i =>
    obtain ⟨⟨d, ack⟩, hentry, hstep⟩ := bind_eq_some_iff.mp hstep
    obtain ⟨_, hch, rfl⟩ := map_eq_some_iff.mp hstep
    refine h.setSender fun w hw => ?_
    have hfresh := htimely (d, ack) hentry
    rw [hw.length, hw.sends.reliable.maxPending] at hfresh
    exact hw.sends.afterAck hsize (hw.acks (d, ack) (mem_of_getElem? hentry)) hfresh hch

theorem delivers_empty {sender receiver : Channel P} (hsender : sender.Reliable size)
    (hheadSent : sender.headSent = []) (hmidSend : sender.midSend = 0)
    (hpending : sender.pendingMessages = 0) (hreceiver : receiver.Reliable size)
    (hclient : receiver.HasClient
      { ccn := ccn, headRecv := [], clientReady := true, localData := [] })
    (hmidRecv : receiver.midRecv = 1) (hfutures : receiver.midFutures = 0)
    (hcontrol : receiver.lastControlQe = none) :
    Delivers (empty size) [] sender receiver [] [] := by
  refine ⟨rfl, ⟨hsender, hmidSend, by simp [hpending, hheadSent],
    by simp [hheadSent], by simp [empty]⟩, ⟨_, hreceiver, hclient,
    rfl, hmidRecv, .nil, by simp [empty], by simp [hfutures],
    by simp [hcontrol]⟩, by simp, ?_⟩
  simp [SlidingWindow.Received, empty]

theorem gcchBind_incoming {dest : Channel P}
    (hbind : (gcchChannelIncomingNew opts).gcchBind ccn = some dest) :
    ∃ localAcks, dest = { gcchChannelIncomingNew opts with
        dest := some
          { ccn := ccn, headRecv := [], clientReady := true, localData := [] }
        midRecv := 1
        localAcks := localAcks } := by
  obtain ⟨nobuffer, _, _⟩ := opts
  cases nobuffer <;>
    · simp [gcchBind, gcchChannelIncomingNew,
        sendAckToClient, client, replicate] at hbind
      exact ⟨_, hbind.symm⟩

theorem Joined.opened (hreliable : opts.reliable = true) {ownerCcn destCcn : Nat}
    (hopened : Link.opened opts ownerCcn destCcn = some link) :
    Joined (if opts.nobuffer then 1 else 4) opts link := by
  obtain ⟨_, reliable, _⟩ := opts
  obtain rfl : reliable = true := hreliable
  obtain ⟨dest, hbind, rfl⟩ := map_eq_some_iff.mp hopened
  obtain ⟨_, rfl⟩ := gcchBind_incoming hbind
  refine ⟨fun p => by cases p <;> rfl, fun p => ⟨empty _, ?_⟩⟩
  cases p with
  | owner =>
    exact delivers_empty ⟨rfl, rfl, rfl, rfl⟩ rfl rfl rfl ⟨rfl, rfl, rfl, rfl⟩
      (.inr ⟨rfl, rfl⟩) rfl rfl rfl
  | dest =>
    exact delivers_empty ⟨rfl, rfl, rfl, rfl⟩ rfl rfl rfl ⟨rfl, rfl, rfl, rfl⟩
      (.inl ⟨rfl, rfl⟩) rfl rfl rfl

/-- Every run from an open link whose messages come in time, and in sequence
if the channel is out-of-order, keeps both windows. -/
theorem Joined.run [DecidableEq P] {events : List (Side × LinkEvent P)}
    {guard : Link P → Side × LinkEvent P → Prop}
    (hreliable : opts.reliable = true) {ownerCcn destCcn : Nat}
    (hopened : Link.opened opts ownerCcn destCcn = some start)
    (hrun : Run Link.step guard start events link)
    (hguard : ∀ link event, (∀ p, (link.channel p).options = opts) →
      guard link event → Timely link event ∧ InSequence link event) :
    Joined (if opts.nobuffer then 1 else 4) opts link := by
  refine hrun.invariant _ (Joined.opened hreliable hopened) ?_
  intro before event after hjoined hevent hstep
  obtain ⟨htimely, hseq⟩ := hguard before event hjoined.options hevent
  exact hjoined.step (by split <;> omega) event htimely hseq hstep

end

end Gnunet.Cadet
