import Gnunet.CadetChannelLink
import Gnunet.SlidingWindow

/-!
# A reliable CADET channel is a sliding window

Each direction of a reliable link implements a sliding window over unbounded
numbers: the receiver has handed over the payloads below the next number and
queues the messages that the window holds; the sender retains every message
that was not received.  The steps of a link are matched by steps of the
windows, as long as no message arrives so late that its identifier was reused.
-/

namespace Gnunet.Cadet

open Protocol List Channel SlidingWindow

variable {P : Type} {size : Nat}

structure Channel.Reliable (size : Nat) (ch : Channel P) : Prop where
  isLoopback : ch.isLoopback = false
  destroy : ch.destroy = false
  reliable : ch.options.reliable = true
  maxPending : ch.maxPendingMessages = size

def Channel.HasClient (ch : Channel P) (ccc : ChannelClient P) : Prop :=
  (ch.owner = some ccc ∧ ch.dest = none) ∨ (ch.owner = none ∧ ch.dest = some ccc)

def Holds (sent : List P) (n : Nat) (com : OutOfOrderMessage P) : Prop :=
  com.mid = midOf n ∧ sent[n]? = some com.env

structure Sends (w : SlidingWindow size) (sent : List P) (ch : Channel P) :
    Prop where
  reliable : ch.Reliable size
  midSend : ch.midSend = BitVec.ofNat 32 w.sent
  pending : ch.pendingMessages = ch.headSent.length
  room : ch.headSent.length ≤ size + 1
  retained : ∀ n < w.sent, w.Received n ∨
    ∃ crm ∈ ch.headSent, messageOf sent n = some crm.dataMessage

structure Receives (w : SlidingWindow size) (sent : List P) (ch : Channel P)
    (ccc : ChannelClient P) : Prop where
  reliable : ch.Reliable size
  client : ch.HasClient ccc
  handed : ccc.localData = sent.take w.next
  midRecv : ch.midRecv = midOf w.next
  queue : Forall₂ (Holds sent) w.held ccc.headRecv
  ready : ccc.clientReady = true → w.next ∉ w.held
  futures : ∀ i, ch.midFutures.getLsbD i = true → w.next + 1 + i ∈ w.held
  control : ∀ ack, ch.lastControlQe = some ack →
    ack = { mid := ch.midRecv, futures := ch.midFutures }

structure AckSound (w : SlidingWindow size) (d : Nat)
    (ack : ChannelDataAckMessage) : Prop where
  next_le : d ≤ w.next
  mid : ack.mid = midOf d
  futures : ∀ i, ack.futures.getLsbD i = true → w.Received (d + 1 + i)

/-- One direction of a link implements the window `w`. -/
structure Delivers (w : SlidingWindow size) (sent : List P)
    (sender receiver : Channel P) (acks : List (Nat × ChannelDataAckMessage))
    (kept : List Nat) : Prop where
  length : sent.length = w.sent
  sends : Sends w sent sender
  receives : ∃ ccc, Receives w sent receiver ccc
  acks : ∀ entry ∈ acks, AckSound w entry.1 entry.2
  kept : ∀ n, w.Received n → n ∈ kept

/-! ## What a call leaves alone -/

structure SameSetup (ch ch' : Channel P) : Prop where
  isLoopback : ch'.isLoopback = ch.isLoopback
  destroy : ch'.destroy = ch.destroy
  options : ch'.options = ch.options
  maxPending : ch'.maxPendingMessages = ch.maxPendingMessages

structure SameSending (ch ch' : Channel P) : Prop extends SameSetup ch ch' where
  midSend : ch'.midSend = ch.midSend
  pending : ch'.pendingMessages = ch.pendingMessages
  headSent : ch'.headSent = ch.headSent

structure SameReceiving (ch ch' : Channel P) : Prop
    extends SameSetup ch ch' where
  owner : ch'.owner = ch.owner
  dest : ch'.dest = ch.dest
  lastControlQe : ch'.lastControlQe = ch.lastControlQe
  midRecv : ch'.midRecv = ch.midRecv
  midFutures : ch'.midFutures = ch.midFutures

theorem Channel.Reliable.of_same {ch ch' : Channel P} (h : ch.Reliable size)
    (hsame : SameSetup ch ch') : ch'.Reliable size where
  isLoopback := hsame.isLoopback.trans h.isLoopback
  destroy := hsame.destroy.trans h.destroy
  reliable := by rw [hsame.options, h.reliable]
  maxPending := hsame.maxPending.trans h.maxPending

theorem Sends.of_same {sent : List P} (h : Sends w sent ch) (hsame : SameSending ch ch') :
    Sends w sent ch' where
  reliable := h.reliable.of_same hsame.toSameSetup
  midSend := hsame.midSend.trans h.midSend
  pending := by rw [hsame.pending, hsame.headSent, h.pending]
  room := by rw [hsame.headSent]; exact h.room
  retained := by rw [hsame.headSent]; exact h.retained

theorem Channel.HasClient.of_ends {ch ch' : Channel P}
    (h : ch.HasClient ccc) (howner : ch'.owner = ch.owner)
    (hdest : ch'.dest = ch.dest) : ch'.HasClient ccc := by
  unfold Channel.HasClient
  rw [howner, hdest]
  exact h

theorem Receives.of_same {sent : List P} {ccc : ChannelClient P} (h : Receives w sent ch ccc)
    (hsame : SameReceiving ch ch') : Receives w sent ch' ccc where
  reliable := h.reliable.of_same hsame.toSameSetup
  client := h.client.of_ends hsame.owner hsame.dest
  handed := h.handed
  midRecv := hsame.midRecv.trans h.midRecv
  queue := h.queue
  ready := h.ready
  futures := by rw [hsame.midFutures]; exact h.futures
  control := by
    rw [hsame.lastControlQe, hsame.midRecv, hsame.midFutures]
    exact h.control

namespace Channel.HasClient

variable {ch : Channel P} {ccc ccc' : ChannelClient P} (h : ch.HasClient ccc)
include h

theorem receiver : ch.receiver = some ccc := by
  rcases h with ⟨howner, _⟩ | ⟨howner, hdest⟩
  · simp [Channel.receiver, Channel.client, howner]
  · simp [Channel.receiver, Channel.client, howner, hdest]

theorem handed : ch.handed = ccc.localData := by
  simp [Channel.handed, h.receiver]

theorem queue : ch.queue = ccc.headRecv := by
  simp [Channel.queue, h.receiver]

theorem ccn : ch.ccn = ccc.ccn := by
  simp [Channel.ccn, h.receiver]

theorem clientByCcn : ch.clientByCcn ccc.ccn = some (ch.owner.isSome, ccc) := by
  rcases h with ⟨howner, _⟩ | ⟨howner, hdest⟩
  · simp [Channel.clientByCcn, howner, Option.filter]
  · simp [Channel.clientByCcn, howner, hdest, Option.filter]

theorem setClient : (ch.setClient ch.owner.isSome ccc').HasClient ccc' := by
  rcases h with ⟨howner, hdest⟩ | ⟨howner, hdest⟩
  · exact .inl (by simp [Channel.setClient, howner, hdest])
  · exact .inr (by simp [Channel.setClient, howner])

end Channel.HasClient

theorem sameSending_setClient (ch : Channel P) (isOwner : Bool)
    (ccc : ChannelClient P) : SameSending ch (ch.setClient isOwner ccc) := by
  cases isOwner <;> exact ⟨⟨rfl, rfl, rfl, rfl⟩, rfl, rfl, rfl⟩

@[simp] theorem setClient_midRecv (ch : Channel P) (isOwner : Bool)
    (ccc : ChannelClient P) : (ch.setClient isOwner ccc).midRecv = ch.midRecv := by
  cases isOwner <;> rfl

@[simp] theorem setClient_midFutures (ch : Channel P) :
    (ch.setClient isOwner ccc).midFutures = ch.midFutures := by
  cases isOwner <;> rfl

@[simp] theorem setClient_lastControlQe (ch : Channel P) :
    (ch.setClient isOwner ccc).lastControlQe = ch.lastControlQe := by
  cases isOwner <;> rfl

section

variable {n m d : Nat}

theorem midOf_sub_of_le (hle : m ≤ n) (hlt : n < m + 2 ^ 32) :
    (midOf n - midOf m).toNat = n - m := by
  have hsub := serial_sub_of_le (Nat.succ_le_succ hle) (show n + 1 < m + 1 + 2 ^ 32 by omega)
  simpa [midOf] using hsub

theorem midOf_sub_of_lt (hlt : n < m) (hle : m ≤ n + 2 ^ 32) :
    (midOf n - midOf m).toNat = n + 2 ^ 32 - m := by
  have hsub := serial_sub_of_lt (Nat.succ_lt_succ hlt) (show m + 1 ≤ n + 1 + 2 ^ 32 by omega)
  rw [midOf, midOf, hsub]
  omega

theorem midOf_eq_of_near (hnm : n < m + 2 ^ 32) (hmn : m < n + 2 ^ 32)
    (heq : midOf n = midOf m) : n = m := by
  have hsucc := serial_eq_of_near (show n + 1 < m + 1 + 2 ^ 32 by omega)
    (show m + 1 < n + 1 + 2 ^ 32 by omega) heq
  omega

theorem midOf_add_one : midOf n + 1 = midOf (n + 1) := by
  simp [midOf, BitVec.ofNat_add]

theorem midOf_sub_one (hlt : m < n) (hn : n < m + 2 ^ 32) :
    (midOf n - midOf m - 1).toNat = n - (m + 1) := by
  have hassoc : midOf n - midOf m - 1 = midOf n - midOf (m + 1) := by
    rw [← midOf_add_one]
    bv_omega
  rw [hassoc]
  exact midOf_sub_of_le hlt (by omega)

theorem midOf_sub_self_sub_one : (midOf n - midOf n - 1).toNat = 2 ^ 32 - 1 := by
  rw [BitVec.sub_self]
  rfl

theorem isBefore_midOf (hn : d ≤ n ∧ n ≤ d + size) (hm : d ≤ m ∧ m ≤ d + size)
    (hsize : size ≤ 4) : isBefore (midOf n) (midOf m) = true ↔ n ≤ m := by
  unfold isBefore
  rw [decide_eq_true_iff]
  rcases Nat.lt_or_ge m n with hlt | hle
  · rw [midOf_sub_of_lt hlt (by omega)]
    omega
  · rw [midOf_sub_of_le hle (by omega)]
    omega

end

/-! ## The receiving end -/

theorem sameSending_sendChannelDataAck (keyOk : Bool) (ch : Channel P) :
    SameSending ch (ch.sendChannelDataAck keyOk) := by
  unfold sendChannelDataAck
  split <;> exact ⟨⟨rfl, rfl, rfl, rfl⟩, rfl, rfl, rfl⟩

theorem sameSending_reply (keyOk : Bool) (ch : Channel P) (isOwner : Bool)
    (ccc : ChannelClient P) (midRecv : BitVec 32) (midFutures : BitVec 64) :
    SameSending ch (({ ch.setClient isOwner ccc with
          midRecv := midRecv, midFutures := midFutures } : Channel P).sendChannelDataAck
        keyOk) := by
  have hclient := sameSending_setClient ch isOwner ccc
  have hack := sameSending_sendChannelDataAck keyOk
    { ch.setClient isOwner ccc with midRecv := midRecv, midFutures := midFutures }
  exact ⟨⟨hack.isLoopback.trans hclient.isLoopback, hack.destroy.trans hclient.destroy,
        hack.options.trans hclient.options,
        hack.maxPending.trans hclient.maxPending⟩,
      hack.midSend.trans hclient.midSend, hack.pending.trans hclient.pending,
      hack.headSent.trans hclient.headSent⟩

theorem sameSending_receiveData (keyOk : Bool) (ch : Channel P)
    (isOwner : Bool) (ccc : ChannelClient P) (msg : ChannelAppDataMessage P) :
    SameSending ch (ch.receiveData keyOk isOwner ccc msg) := by
  unfold receiveData
  split
  · exact sameSending_reply keyOk ch isOwner _ _ _
  · split
    · split
      · exact sameSending_sendChannelDataAck keyOk ch
      · exact sameSending_reply keyOk ch isOwner _ _ _
    · exact sameSending_reply keyOk ch isOwner _ _ _

section

variable {w : SlidingWindow size} {sent : List P} {ch : Channel P}
  {ccc ccc' : ChannelClient P} {n : Nat} {msg : ChannelAppDataMessage P}

theorem Receives.handed_length (h : Receives w sent ch ccc)
    (hlength : sent.length = w.sent) : ccc.localData.length = w.next := by
  have hle := w.next_le
  rw [h.handed, length_take]
  omega

theorem Receives.queue_length (h : Receives w sent ch ccc) : ccc.headRecv.length = w.held.length :=
  h.queue.length_eq.symm

theorem Receives.mem_queue (h : Receives w sent ch ccc) (hn : n ∈ w.held)
    (hpayload : sent[n]? = some payload) :
    { mid := midOf n, env := payload } ∈ ccc.headRecv := by
  have hqueue := h.queue
  generalize w.held = held, ccc.headRecv = queue at hqueue hn
  induction hqueue with
  | nil => simp at hn
  | @cons m com held queue hcom _ ih =>
    rcases mem_cons.mp hn with rfl | hn
    · obtain ⟨_, env⟩ := com
      obtain ⟨rfl, henv⟩ := hcom
      obtain rfl : payload = env := Option.some.inj (hpayload.symm.trans henv)
      exact mem_cons_self
    · exact mem_cons_of_mem _ (ih hn)

theorem Receives.of_sendChannelDataAck (keyOk : Bool)
    (hreliable : ch.Reliable size) (hclient : ch.HasClient ccc)
    (hhanded : ccc.localData = sent.take w.next) (hmid : ch.midRecv = midOf w.next)
    (hqueue : Forall₂ (Holds sent) w.held ccc.headRecv)
    (hready : ccc.clientReady = true → w.next ∉ w.held)
    (hfutures : ∀ i, ch.midFutures.getLsbD i = true → w.next + 1 + i ∈ w.held) :
    Receives w sent (ch.sendChannelDataAck keyOk) ccc := by
  have hsame := sameSending_sendChannelDataAck keyOk ch
  refine ⟨hreliable.of_same hsame.toSameSetup, ?_, hhanded, ?_, hqueue, hready, ?_, ?_⟩
  all_goals simp only [sendChannelDataAck, hreliable.reliable, if_true]
  · exact hclient
  · exact hmid
  · exact hfutures
  · intro ack hack
    cases keyOk with
    | false => simp at hack
    | true => simpa using hack.symm

theorem Receives.afterNext (h : Receives w sent ch ccc) (keyOk : Bool)
    (ccc' : ChannelClient P) (hsent : w.next < w.sent)
    (hpayload : sent[w.next]? = some payload)
    (hclient : ccc'.localData = ccc.localData ++ [payload] ∧ ccc'.clientReady = false)
    (hqueue : Forall₂ (Holds sent) (w.advance hsent).held ccc'.headRecv)
    {midRecv : BitVec 32} {midFutures : BitVec 64}
    (hmid : midRecv = ch.midRecv + 1) (hfutures : midFutures = ch.midFutures >>> 1) :
    Receives (w.advance hsent) sent (({ ch.setClient ch.owner.isSome ccc' with
          midRecv := midRecv, midFutures := midFutures } : Channel P).sendChannelDataAck
        keyOk) ccc' := by
  have hsame := sameSending_setClient ch ch.owner.isSome ccc'
  apply Receives.of_sendChannelDataAck
  · exact h.reliable.of_same ⟨hsame.isLoopback, hsame.destroy, hsame.options, hsame.maxPending⟩
  · exact h.client.setClient
  · rw [hclient.1, h.handed]
    simp [advance, take_add_one, hpayload]
  · change midRecv = midOf (w.next + 1)
    rw [hmid, h.midRecv, midOf_add_one]
  · exact hqueue
  · intro hready
    simp [hclient.2] at hready
  · intro i hi
    simp only [hfutures, BitVec.getLsbD_ushiftRight] at hi
    have hheld := h.futures (1 + i) hi
    simp only [advance, mem_filter, decide_eq_true_eq]
    rw [show w.next + 1 + 1 + i = w.next + 1 + (1 + i) by omega]
    exact ⟨hheld, by omega⟩

theorem before_iff (hsize : size ≤ 4)
    (hn : w.next ≤ n ∧ n ≤ w.next + size) {com : OutOfOrderMessage P} (hcom : com.mid = midOf n) :
    ∀ m ∈ w.held, ∀ pos, Holds sent m pos → (n ≤ m ↔ OutOfOrderMessage.Before com pos) := by
  intro m hm pos hpos
  have hwithin := w.within m hm
  unfold OutOfOrderMessage.Before
  rw [hcom, hpos.1]
  exact (isBefore_midOf hn ⟨hwithin.1, hwithin.2.1⟩ hsize).symm

theorem sawDuplicate_cons (mid : BitVec 32) (pos : OutOfOrderMessage P)
    (queue : List (OutOfOrderMessage P)) : sawDuplicate mid (pos :: queue) =
      if isBefore mid pos.mid then pos.mid == mid else sawDuplicate mid queue := by
  unfold sawDuplicate
  rw [find?_cons]
  cases isBefore mid pos.mid <;> rfl

theorem Receives.sawDuplicate_iff (h : Receives w sent ch ccc)
    (hsize : size ≤ 4) (hn : w.next ≤ n ∧ n ≤ w.next + size) :
    sawDuplicate (midOf n) ccc.headRecv = true ↔ n ∈ w.held := by
  have hbounds : ∀ m ∈ w.held, w.next ≤ m ∧ m ≤ w.next + size :=
    fun m hm => ⟨(w.within m hm).1, (w.within m hm).2.1⟩
  have hsorted := w.sorted
  have hqueue := h.queue
  generalize w.held = held, ccc.headRecv = queue at hbounds hsorted hqueue
  induction hqueue with
  | nil => simp [sawDuplicate]
  | @cons m pos held queue hpos htail ih =>
    rw [pairwise_cons] at hsorted
    have hm := hbounds m (by simp)
    have hbefore := isBefore_midOf hn hm hsize
    rw [← hpos.1] at hbefore
    rw [sawDuplicate_cons]
    by_cases hle : n ≤ m
    · rw [if_pos (hbefore.mpr hle), beq_iff_eq, hpos.1, mem_cons]
      constructor
      · intro heq
        exact .inl (midOf_eq_of_near (by omega) (by omega) heq.symm)
      · rintro (rfl | hmem)
        · rfl
        · have hlt := hsorted.1 n hmem
          omega
    · have hih := ih (fun k hk => hbounds k (by simp [hk])) hsorted.2
      rw [if_neg (fun hb => hle (hbefore.mp hb)), mem_cons]
      constructor
      · intro hdup
        exact .inr (hih.mp hdup)
      · rintro (rfl | hmem)
        · omega
        · exact hih.mpr hmem

theorem Receives.markFutures_eq_some (h : Receives w sent ch ccc)
    (hsize : size ≤ 4) (hn : n < w.sent) (hfresh : w.next + size < n + 2 ^ 32)
    {futures : BitVec 64} (hmark : ch.markFutures (midOf n) = some futures) :
    (w.next ≤ n ∧ n ≤ w.next + size) ∧ ∀ i, futures.getLsbD i = true →
        ch.midFutures.getLsbD i = true ∨ w.next + 1 + i = n := by
  have hahead := w.sent_le
  simp only [markFutures, h.midRecv, h.reliable.maxPending] at hmark
  split at hmark
  · cases hmark
  next hnear =>
    rw [not_or, not_lt, not_lt] at hnear
    have hge : w.next ≤ n := by
      by_contra hlt
      have hdist := hnear.1
      rw [midOf_sub_of_lt (by omega) (by omega)] at hdist
      omega
    have hle : n ≤ w.next + size := by
      have hdist := hnear.1
      rw [midOf_sub_of_le hge (by omega)] at hdist
      omega
    refine ⟨⟨hge, hle⟩, fun i hi => ?_⟩
    rcases Nat.eq_or_lt_of_le hge with heq | hlt
    · rw [← heq, midOf_sub_self_sub_one, if_neg (by omega)] at hmark
      cases hmark
      exact .inl hi
    · rw [midOf_sub_one hlt (by omega), if_pos (by omega)] at hmark
      split at hmark
      · cases hmark
      · cases hmark
        simp only [BitVec.getLsbD_or, BitVec.getLsbD_twoPow, Bool.or_eq_true,
          Bool.and_eq_true, decide_eq_true_eq] at hi
        rcases hi with hold | ⟨_, _⟩
        · exact .inl hold
        · exact .inr (by omega)

inductive Arrival (w : SlidingWindow size) (n : Nat) : SlidingWindow size → Prop
  | dropped : Arrival w n w
  | held (hnew : n ∉ w.held)
      (hin : w.next ≤ n ∧ n ≤ w.next + size ∧ n < w.sent) :
      Arrival w n (w.hold n hnew hin)
  | taken (hsent : w.next < w.sent) (hnext : w.next = n) (hnew : n ∉ w.held) :
      Arrival w n (w.advance hsent)

theorem Receives.afterEarly (h : Receives w sent ch ccc) (keyOk : Bool) (hsize : size ≤ 4)
    (hn : n < w.sent) (hfresh : w.next + size < n + 2 ^ 32) (hcom : Holds sent n com)
    (hready : ccc.clientReady = true → n ≠ w.next) {futures : BitVec 64}
    (hmark : ch.markFutures (midOf n) = some futures) :
    ∃ w', Arrival w n w' ∧ Receives w' sent
        (({ ch.setClient ch.owner.isSome (insertSorted ccc com) with
            midFutures := futures } : Channel P).sendChannelDataAck keyOk)
        (insertSorted ccc com) := by
  obtain ⟨hin, hbits⟩ := h.markFutures_eq_some hsize hn hfresh hmark
  have hsame := sameSending_setClient ch ch.owner.isSome (insertSorted ccc com)
  have hdup := h.sawDuplicate_iff hsize hin
  rw [← hcom.1] at hdup
  by_cases hmem : n ∈ w.held
  · have hclient : insertSorted ccc com = ccc :=
      if_pos (hdup.mpr hmem)
    refine ⟨w, .dropped, ?_⟩
    apply Receives.of_sendChannelDataAck
    · exact h.reliable.of_same ⟨hsame.isLoopback, hsame.destroy, hsame.options, hsame.maxPending⟩
    · exact h.client.setClient
    · rw [hclient, h.handed]
    · exact (setClient_midRecv _ _ _).trans h.midRecv
    · rw [hclient]
      exact h.queue
    · rw [hclient]
      exact h.ready
    · intro i hi
      rcases hbits i hi with hold | heq
      · exact h.futures i hold
      · rwa [heq]
  · have hclient : insertSorted ccc com =
        { ccc with
          headRecv := ccc.headRecv.orderedInsert OutOfOrderMessage.Before com } :=
      if_neg (fun hd => hmem (hdup.mp hd))
    refine ⟨w.hold n hmem ⟨hin.1, hin.2, hn⟩, .held hmem _, ?_⟩
    apply Receives.of_sendChannelDataAck
    · exact h.reliable.of_same ⟨hsame.isLoopback, hsame.destroy, hsame.options, hsame.maxPending⟩
    · exact h.client.setClient
    · rw [hclient]
      exact h.handed
    · exact (setClient_midRecv _ _ _).trans h.midRecv
    · rw [hclient]
      exact forall₂_orderedInsert hcom h.queue (before_iff hsize hin hcom.1)
    · rw [hclient]
      intro hr
      simp only [hold, mem_orderedInsert, not_or]
      exact ⟨(hready hr).symm, h.ready hr⟩
    · intro i hi
      simp only [hold, mem_orderedInsert]
      rcases hbits i hi with hold | heq
      · exact .inr (h.futures i hold)
      · exact .inl heq

theorem messageOf_eq_some (hmsg : messageOf sent n = some msg) :
    msg.mid = midOf n ∧ sent[n]? = some msg.payload := by
  obtain ⟨_, hpayload, rfl⟩ := Option.map_eq_some_iff.mp hmsg
  exact ⟨rfl, hpayload⟩

/-- The arrival of a message that is not too late, which on an out-of-order
channel is the next one if the client waits for it. -/
theorem Receives.afterData (h : Receives w sent ch ccc) (keyOk : Bool)
    (hlength : sent.length = w.sent) (hsize : size ≤ 4) (hmsg : messageOf sent n = some msg)
    (hfresh : w.next + size < n + 2 ^ 32)
    (hseq : ch.options.outOfOrder = true → ccc.clientReady = true → midOf n = ch.midRecv) :
    ∃ w' ccc', Arrival w n w' ∧
      Receives w' sent (ch.receiveData keyOk ch.owner.isSome ccc msg) ccc' := by
  obtain ⟨hmid, hpayload⟩ := messageOf_eq_some hmsg
  have hn : n < w.sent := by
    rw [← hlength]
    exact (List.getElem?_eq_some_iff.mp hpayload).1
  have hahead := w.sent_le
  have hnext : midOf n = ch.midRecv → w.next = n := by
    rw [h.midRecv]
    intro heq
    exact (midOf_eq_of_near (by omega) (by omega) heq).symm
  unfold receiveData
  by_cases hpass : (ccc.clientReady && (ch.options.outOfOrder || msg.mid == ch.midRecv)) = true
  · rw [if_pos hpass]
    rw [hmid] at hpass
    simp only [Bool.and_eq_true, Bool.or_eq_true, beq_iff_eq] at hpass
    have heq : w.next = n := by
      rcases hpass.2 with hout | heq
      · exact hnext (hseq hout hpass.1)
      · exact hnext heq
    have hnew : w.next ∉ w.held := h.ready hpass.1
    have hsent : w.next < w.sent := by omega
    refine ⟨w.advance hsent, { ccc with clientReady := false }.gscSendToClient msg.payload,
      .taken hsent heq (heq ▸ hnew), ?_⟩
    apply h.afterNext keyOk _ hsent (heq ▸ hpayload) ⟨rfl, rfl⟩
    · rw [held_advance_of_notMem hsent hnew]
      exact h.queue
    · rw [setClient_midRecv]
    · rw [setClient_midFutures]
  · rw [if_neg hpass, if_pos h.reliable.reliable]
    split
    · refine ⟨w, ccc, .dropped, ?_⟩
      exact .of_sendChannelDataAck keyOk h.reliable h.client h.handed h.midRecv
        h.queue h.ready h.futures
    next futures hmark =>
      rw [hmid] at hmark hpass
      have hready : ccc.clientReady = true → n ≠ w.next := by
        rintro hr rfl
        simp [hr, h.midRecv] at hpass
      have hcom : Holds sent n { mid := msg.mid, env := msg.payload } := ⟨hmid, hpayload⟩
      obtain ⟨w', harrival, hreceives⟩ := h.afterEarly keyOk hsize hn hfresh hcom hready hmark
      exact ⟨w', _, harrival, hreceives⟩

theorem Receives.afterReady (h : Receives w sent ch ccc) (hnext : w.next ∉ w.held) :
    Receives w sent (ch.setClient ch.owner.isSome { ccc with clientReady := true })
      { ccc with clientReady := true } where
  reliable := h.reliable.of_same (sameSending_setClient ch _ _).toSameSetup
  client := h.client.setClient
  handed := h.handed
  midRecv := (setClient_midRecv _ _ _).trans h.midRecv
  queue := h.queue
  ready := fun _ => hnext
  futures := by
    rw [setClient_midFutures]
    exact h.futures
  control := by
    rw [setClient_lastControlQe, setClient_midRecv, setClient_midFutures]
    exact h.control

theorem passNext_eq (keyOk isOwner : Bool) (hdestroy : ch.destroy = false)
    (com : OutOfOrderMessage P) (rest : List (OutOfOrderMessage P)) :
    ch.passNext keyOk isOwner ccc com rest = ({ ch.setClient isOwner
          ({ ccc with headRecv := rest, clientReady := false }.gscSendToClient com.env) with
        midRecv := com.mid + 1
        midFutures := ch.midFutures >>> 1 } : Channel P).sendChannelDataAck keyOk := by
  have hsame := sameSending_reply keyOk ch isOwner
    ({ ccc with headRecv := rest, clientReady := false }.gscSendToClient com.env)
    (com.mid + 1) (ch.midFutures >>> 1)
  unfold passNext
  dsimp only
  rw [setClient_midFutures, hsame.destroy, hdestroy, Bool.and_false, if_neg (by simp)]

/-- The client asks for more; on an out-of-order channel the first message in
the queue is the next one. -/
theorem Receives.afterLocalAck (h : Receives w sent ch ccc) (keyOk : Bool) (hsize : size ≤ 4)
    (hseq : ch.options.outOfOrder = true → ∀ com ∈ ccc.headRecv.head?,
      com.mid = ch.midRecv) {ch' : Channel P}
    (hstep : ch.gcchHandleLocalAck keyOk ccc.ccn = some ch') :
    SameSending ch ch' ∧ ∃ w' ccc', (w' = w ∨ w.next ∈ w.held ∧ ∃ hsent, w' = w.advance hsent) ∧
      Receives w' sent ch' ccc' := by
  have hqueue := h.queue
  simp only [gcchHandleLocalAck, h.client.clientByCcn,
    h.reliable.isLoopback, h.reliable.reliable, Bool.and_true,
    Bool.false_eq_true, if_false] at hstep
  split at hstep
  next hnil =>
    cases hstep
    rw [hnil, forall₂_nil_right_iff] at hqueue
    exact ⟨sameSending_setClient ch _ _, w, _, .inl rfl, h.afterReady (by simp [hqueue])⟩
  next com rest hcons =>
    rw [hcons] at hqueue hseq
    obtain ⟨m, _, hcom, hrest, hheld⟩ := forall₂_cons_right_iff.mp hqueue
    have hwithin := w.within m (by simp [hheld])
    split at hstep
    next hwait =>
      cases hstep
      refine ⟨sameSending_setClient ch _ _, w, _, .inl rfl, h.afterReady ?_⟩
      apply next_notMem_of_cons hheld
      rintro rfl
      simp [hcom.1, h.midRecv] at hwait
    next hpass =>
      cases hstep
      have hmid : com.mid = ch.midRecv := by
        cases hout : ch.options.outOfOrder with
        | false => simpa [hout] using hpass
        | true => exact hseq hout com rfl
      have heq : m = w.next := by
        rw [hcom.1, h.midRecv] at hmid
        exact midOf_eq_of_near (by omega) (by omega) hmid
      subst heq
      rw [passNext_eq keyOk _ h.reliable.destroy]
      refine ⟨sameSending_reply keyOk ch _ _ _ _, w.advance hwithin.2.2,
        { ccc with headRecv := rest, clientReady := false }.gscSendToClient com.env,
        .inr ⟨by simp [hheld], _, rfl⟩, ?_⟩
      apply h.afterNext keyOk _ hwithin.2.2 hcom.2 ⟨rfl, rfl⟩
      · rw [held_advance_of_cons _ hheld]
        exact hrest
      · rw [hmid]
      · rfl

end

end Gnunet.Cadet
