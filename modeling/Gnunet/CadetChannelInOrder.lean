import Gnunet.CadetChannelRefinement

/-!
# Reliable in-order delivery

On a reliable in-order channel the client gets a prefix of what the other
client sent, and the sender forgets only what arrived, provided that no
message comes so late that its identifier was reused.  After `2 ^ 32` messages
a copy of an old one is indeed taken for a new one.
-/

namespace Gnunet.Cadet

open Protocol Channel

variable {P : Type}

theorem inSequence_of_inOrder {link : Link P} (h : ∀ p, (link.channel p).options.outOfOrder = false)
    (event : Side × LinkEvent P) : InSequence link event := by
  obtain ⟨p, event⟩ := event
  cases event <;> simp [InSequence, h p]

theorem Delivers.handed_isPrefix {w : SlidingWindow size} {sender receiver : Channel P}
    {acks : List (Nat × ChannelDataAckMessage)} {kept : List Nat}
    (h : Delivers w sent sender receiver acks kept) : receiver.handed <+: sent := by
  obtain ⟨_, hr⟩ := h.receives
  rw [hr.client.handed, hr.handed]
  exact List.take_prefix _ _

/-- A prefix of what was sent is handed over, and the rest is still with one of the two ends. -/
theorem reliable_channel_in_order [DecidableEq P] (opts : ChannelOptions)
    (hreliable : opts.reliable = true) (hinorder : opts.outOfOrder = false)
    (ownerCcn destCcn : Nat) (start link : Link P) (events : List (Side × LinkEvent P))
    (hopened : Link.opened opts ownerCcn destCcn = some start)
    (hrun : Run Link.step Timely start events link) (p : Side) :
    (link.channel p.other).handed <+: link.sent p ∧
      ∀ n payload, (link.sent p)[n]? = some payload →
        (∃ crm ∈ (link.channel p).headSent,
          crm.dataMessage = { mid := midOf n, payload := payload }) ∨
        n < (link.channel p.other).handed.length ∨
        { mid := midOf n, env := payload } ∈ (link.channel p.other).queue := by
  have hjoined := Joined.run hreliable hopened hrun fun link event hopts htimely =>
    ⟨htimely, inSequence_of_inOrder (fun p => by rw [hopts p, hinorder]) event⟩
  obtain ⟨w, hw⟩ := hjoined.directions p
  obtain ⟨_, hr⟩ := hw.receives
  refine ⟨hw.handed_isPrefix, fun n payload hpayload => ?_⟩
  have hn : n < w.sent := by
    rw [← hw.length]
    exact (List.getElem?_eq_some_iff.mp hpayload).1
  rcases hw.sends.retained n hn with (hlt | hheld) | ⟨crm, hcrm, hmsg⟩
  · refine .inr (.inl ?_)
    rw [hr.client.handed, hr.handed_length hw.length]
    exact hlt
  · refine .inr (.inr ?_)
    rw [hr.client.queue]
    exact hr.mem_queue hheld hpayload
  · refine .inl ⟨crm, hcrm, ?_⟩
    rw [messageOf, hpayload] at hmsg
    exact (Option.some.inj hmsg).symm

def inOrderOptions : ChannelOptions :=
  { nobuffer := false, reliable := true, outOfOrder := false }

def inOrderStart : Link Nat :=
  (Link.opened inOrderOptions 0 0).get rfl

def reorderedDataEvents : List (Side × LinkEvent Nat) :=
  [(.owner, .localData true 7), (.owner, .localData true 8),
    (.owner, .dataSent 0 0 none), (.owner, .dataSent 0 0 none),
    (.dest, .dataArrives true 1), (.dest, .ackSent), (.owner, .ackArrives 0),
    (.dest, .dataArrives true 0), (.dest, .dataArrives true 1),
    (.dest, .localAck true), (.dest, .localAck true)]

theorem reliable_channel_in_order_reordered :
    ∃ link, Run Link.step Timely inOrderStart reorderedDataEvents link ∧
      (link.channel .dest).handed = [7, 8] ∧
      (link.channel .dest).handed <+: link.sent .owner ∧
      ∀ n payload, (link.sent .owner)[n]? = some payload →
        (∃ crm ∈ (link.channel .owner).headSent,
          crm.dataMessage = { mid := midOf n, payload := payload }) ∨
        n < (link.channel .dest).handed.length ∨
        { mid := midOf n, env := payload } ∈ (link.channel .dest).queue :=
  Run.exists_of_exec_and (by decide +kernel) fun link hrun _ =>
    reliable_channel_in_order inOrderOptions rfl rfl 0 0 inOrderStart link reorderedDataEvents
      rfl hrun .owner

/-! ## Identifiers are used again after `2 ^ 32` messages -/

def idleOwner (midSend : BitVec 32) (localAcks : List Bool) : Channel Unit :=
  { gcchChannelLocalNew inOrderOptions 0 with
    midSend := midSend
    localAcks := localAcks }

def idleDest (midRecv : BitVec 32) (localData : List Unit) : Channel Unit :=
  { gcchChannelIncomingNew inOrderOptions with
    dest := some
      { ccn := 0, headRecv := [], clientReady := true, localData := localData }
    midRecv := midRecv
    localAcks := List.replicate 4 false }

def sendingOwner (midSend : BitVec 32) (localAcks : List Bool)
    (crm : ReliableMessage Unit) (retryDataTask : Option Nat) : Channel Unit :=
  { idleOwner midSend localAcks with
    pendingMessages := 1
    headSent := [crm]
    retryDataTask := retryDataTask }

def fedDest (midRecv : BitVec 32) (localData : List Unit)
    (lastControlQe : Option ChannelDataAckMessage) : Channel Unit :=
  { idleDest midRecv localData with
    dest := some
      { ccn := 0, headRecv := [], clientReady := false, localData := localData }
    lastControlQe := lastControlQe }

section

variable (mid : BitVec 32) (localAcks : List Bool) (localData : List Unit)

theorem idleOwner_localData : (idleOwner mid localAcks).gcchHandleLocalData true 0 () =
      some (true, sendingOwner (mid + 1) localAcks
        { qe := true, dataMessage := { mid := mid + 1, payload := () }
          nextRetry := 0, retryDelay := 0 } none) := rfl

theorem sendingOwner_dataSent : (sendingOwner mid localAcks
      { qe := true, dataMessage := { mid := mid, payload := () }
        nextRetry := 0, retryDelay := 0 } none).dataSentCb 0 (some none) 0 =
      some (sendingOwner mid localAcks
        { qe := false, dataMessage := { mid := mid, payload := () }
          nextRetry := 500000, retryDelay := 500000 } (some 500000)) := by
  simp [sendingOwner, idleOwner, dataSentCb, gcchChannelLocalNew,
    inOrderOptions, nextRetryDelay, timeStdBackoff, minRttDelay,
    cadetInitialRetransmitTime, timeRelativeToAbsolute, timeForever,
    retryAt]

theorem idleDest_data : (idleDest mid localData).gcchHandleChannelPlaintextData true
        { mid := mid, payload := () } =
      some (fedDest (mid + 1) (localData ++ [()])
        (some { mid := mid + 1, futures := 0 })) := by
  simp [idleDest, fedDest, gcchHandleChannelPlaintextData, receiver, client, gcchChannelIncomingNew,
    receiveData, setClient, ChannelClient.gscSendToClient,
    sendChannelDataAck, inOrderOptions]

theorem covers_previous :
    ChannelDataAckMessage.covers 4 { mid := mid + 1, futures := 0 } mid = true := by
  have hdelta : (mid - (mid + 1)).toNat = 2 ^ 32 - 1 := by
    bv_omega
  simp only [ChannelDataAckMessage.covers, hdelta]
  rfl

theorem sendingOwner_ack {ack : ChannelDataAckMessage} (hcovers : ack.covers 4 mid = true) :
    (sendingOwner mid localAcks
      { qe := false, dataMessage := { mid := mid, payload := () }
        nextRetry := 500000, retryDelay := 500000 }
      (some 500000)).gcchHandleChannelPlaintextDataAck ack =
      some (idleOwner mid (localAcks ++ [true])) := by
  simp [sendingOwner, idleOwner, gcchHandleChannelPlaintextDataAck,
    gcchChannelLocalNew, inOrderOptions, ackRound, hcovers,
    handleMatchingAck, decrementPending, sendAckToClient,
    client, retryAt]

end

structure Stage (owner dest : Channel Unit) (n k : Nat) (link : Link Unit) :
    Prop where
  owner : link.channel .owner = owner
  dest : link.channel .dest = dest
  sent : link.sent .owner = List.replicate n ()
  transmitted : ∀ m < k,
    { mid := midOf m, payload := () } ∈ link.transmitted .owner

def Attains (owner dest : Channel Unit) (n k : Nat) : Prop :=
  ∃ start events link, Link.opened inOrderOptions 0 0 = some start ∧
    Run Link.step (fun _ _ => True) start events link ∧ Stage owner dest n k link

section

variable {owner owner' dest dest' : Channel Unit} {n k : Nat} (h : Attains owner dest n k)
include h

theorem Attains.snoc (event : Link Unit → Side × LinkEvent Unit)
    (hstep : ∀ link, Stage owner dest n k link → ∃ next,
      link.step (event link) = some next ∧ Stage owner' dest' n' k' next) :
    Attains owner' dest' n' k' := by
  obtain ⟨start, _, link, hopened, hrun, hstage⟩ := h
  obtain ⟨next, hnext, hstage'⟩ := hstep link hstage
  exact ⟨start, _, next, hopened, hrun.snoc trivial hnext, hstage'⟩

theorem Attains.localData
    (hcall : owner.gcchHandleLocalData true owner.ccn () = some (true, owner')) :
    Attains owner' dest (n + 1) k := by
  refine h.snoc (fun _ => (.owner, .localData true ())) fun link hstage => ?_
  refine ⟨_, by simp only [Link.step, Link.localData, hstage.owner, hcall]; rfl, ?_⟩
  refine ⟨by simp [Link.setChannel], ?_, ?_, hstage.transmitted⟩
  · simp [Link.setChannel, hstage.dest]
  · simp [hstage.sent, List.replicate_succ']

theorem Attains.dataSent (hcrm : owner.headSent[0]? = some crm)
    (hmid : crm.dataMessage = { mid := midOf k, payload := () })
    (hcall : owner.dataSentCb 0 (some none) 0 = some owner') : Attains owner' dest n (k + 1) := by
  refine h.snoc (fun _ => (.owner, .dataSent 0 0 none)) fun link hstage => ?_
  refine ⟨_, by simp only [Link.step, Link.dataSent, hstage.owner, hcrm, hcall]; rfl, ?_⟩
  refine ⟨by simp [Link.setChannel], ?_, hstage.sent, fun m hm => ?_⟩
  · simp [Link.setChannel, hstage.dest]
  · simp only [Function.update_self, List.mem_append, List.mem_singleton, hmid]
    rcases Nat.lt_succ_iff_lt_or_eq.mp hm with hlt | rfl
    · exact .inl (hstage.transmitted m hlt)
    · exact .inr rfl

theorem Attains.dataArrives (hn : m < n) (hk : m < k)
    (hcall : dest.gcchHandleChannelPlaintextData true
      { mid := midOf m, payload := () } = some dest') : Attains owner dest' n k := by
  refine h.snoc (fun _ => (.dest, .dataArrives true m)) fun link hstage => ?_
  have hmsg : messageOf (link.sent .owner) m =
      some { mid := midOf m, payload := () } := by
    rw [messageOf, hstage.sent, List.getElem?_replicate_of_lt hn]
    rfl
  refine ⟨_, by
    simp only [Link.step, Link.dataArrives, Side.other, hmsg, Option.bind_eq_bind,
      Option.bind_some, hstage.transmitted m hk, if_true, hstage.dest, hcall]; rfl, ?_⟩
  refine ⟨?_, by simp [Link.setChannel], hstage.sent, hstage.transmitted⟩
  simp [Link.setChannel, hstage.owner]

theorem Attains.localAck (hcall : dest.gcchHandleLocalAck true dest.ccn = some dest') :
    Attains owner dest' n k := by
  refine h.snoc (fun _ => (.dest, .localAck true)) fun link hstage => ?_
  refine ⟨_, by simp only [Link.step, hstage.dest, hcall]; rfl, ?_⟩
  refine ⟨?_, by simp [Link.setChannel], hstage.sent, hstage.transmitted⟩
  simp [Link.setChannel, hstage.owner]

theorem Attains.acknowledge {ack} (hack : dest.lastControlQe = some ack)
    (hsent : dest.sendAckCb = some dest')
    (hcall : owner.gcchHandleChannelPlaintextDataAck ack = some owner') :
    Attains owner' dest' n k := by
  obtain ⟨start, _, link, hopened, hrun, hstage⟩ := h
  obtain ⟨middle, hmiddle, hacks, hstage'⟩ : ∃ middle, link.step (.dest, .ackSent) = some middle ∧
      middle.acks .dest = link.acks .dest ++ [(dest.handed.length, ack)] ∧
      Stage owner dest' n k middle := by
    refine ⟨{ link.setChannel .dest dest' with
      acks := Function.update link.acks .dest
        (link.acks .dest ++ [(dest.handed.length, ack)]) }, ?_, ?_, ?_⟩
    · simp [Link.step, Link.ackSent, hstage.dest, hack, hsent]
    · simp
    · exact ⟨by simp [Link.setChannel, hstage.owner], by simp [Link.setChannel],
        hstage.sent, hstage.transmitted⟩
  have hlast : middle.step (.owner, .ackArrives (link.acks .dest).length) =
      some (middle.setChannel .owner owner') := by
    simp [Link.step, Side.other, hacks, hstage'.owner, hcall]
  refine ⟨start, _, middle.setChannel .owner owner', hopened,
    (hrun.snoc trivial hmiddle).snoc trivial hlast, ?_⟩
  exact ⟨by simp, by simp [Link.setChannel, hstage'.dest], hstage'.sent, hstage'.transmitted⟩

end

/-- Any number of messages can be sent and acknowledged one after the other. -/
theorem attains_idle (n : Nat) : ∃ localAcks, Attains (idleOwner (BitVec.ofNat 32 n) localAcks)
      (idleDest (midOf n) (List.replicate n ())) n n := by
  induction n with
  | zero =>
    exact ⟨[], _, [], _, rfl, .nil, rfl, rfl, rfl, by simp⟩
  | succ n ih =>
    obtain ⟨_, h⟩ := ih
    have hmid : BitVec.ofNat 32 n + 1 = midOf n := by
      rw [midOf, BitVec.ofNat_add]
      rfl
    have h1 := h.localData (idleOwner_localData _ _)
    rw [hmid] at h1
    have h2 := h1.dataSent rfl rfl (sendingOwner_dataSent _ _)
    have h3 := h2.dataArrives (Nat.lt_succ_self n) (Nat.lt_succ_self n) (idleDest_data _ _)
    have h4 := h3.acknowledge rfl rfl (sendingOwner_ack _ _ (covers_previous (midOf n)))
    have h5 := h4.localAck rfl
    rw [midOf_add_one, ← List.replicate_succ'] at h5
    exact ⟨_, h5⟩

/-- A copy of the first message is handed over once more when its identifier
comes around. -/
theorem attains_reuse (n : Nat) (hn : 0 < n) (hwrap : midOf n = midOf 0) :
    ∃ owner lastControlQe, Attains owner
      (fedDest (midOf 0 + 1) (List.replicate n () ++ [()]) lastControlQe) n n := by
  obtain ⟨_, h⟩ := attains_idle n
  rw [hwrap] at h
  exact ⟨_, _, h.dataArrives hn hn (idleDest_data (midOf 0) _)⟩

theorem reused_identifier_breaks_order :
    ∃ (start link : Link Unit) (events : List (Side × LinkEvent Unit)),
      Link.opened inOrderOptions 0 0 = some start ∧
      Run Link.step (fun _ _ => True) start events link ∧
      ¬(link.channel .dest).handed <+: link.sent .owner := by
  have hwrap : ∃ n, 0 < n ∧ midOf n = midOf 0 := ⟨2 ^ 32, by decide, by decide⟩
  obtain ⟨n, hn, hmid⟩ := hwrap
  obtain ⟨_, _, start, events, link, hopened, hrun, hstage⟩ :=
    attains_reuse n hn hmid
  refine ⟨start, link, events, hopened, hrun, fun hpre => ?_⟩
  have hle := hpre.length_le
  rw [hstage.dest, hstage.sent] at hle
  simp [handed, receiver, client, fedDest, idleDest, gcchChannelIncomingNew] at hle

end Gnunet.Cadet
