import Gnunet.CoreTransmission

/-!
# The transmission queue over whole runs

The queue is sorted by priority as long as no client exceeds the priority of
control messages, which are put at its head.  A transmission takes the messages
that the first loop counted, so that what was sent and what is queued, one after
the other, only changes by a message that is queued or replaced.
-/

namespace Gnunet.Core.TransmissionSession

open Protocol List SessionMessageEntry Priority

variable {queue : List SessionMessageEntry} {minDeadline msize : Nat}

theorem collect_none (hnone : collect queue msize maxp minDeadline = none) :
    ∃ entry ∈ queue, entry.size = maxEncryptedMessageSize := by
  induction queue generalizing msize maxp minDeadline with
  | nil => cases hnone
  | cons pos rest ih =>
    rw [collect] at hnone
    split at hnone
    next hfits =>
      split at hnone
      · obtain ⟨entry, hentry, hsize⟩ := ih hnone
        exact ⟨entry, mem_cons_of_mem _ hentry, hsize⟩
      · exact ⟨pos, mem_cons_self, by omega⟩
    · cases hnone

theorem collect_le (hle : msize ≤ maxEncryptedMessageSize)
    (hsome : collect queue msize maxp minDeadline = some result) :
    msize ≤ result.1 ∧ result.1 ≤ maxEncryptedMessageSize := by
  induction queue generalizing msize maxp minDeadline with
  | nil =>
    cases hsome
    exact ⟨le_rfl, hle⟩
  | cons pos rest ih =>
    rw [collect] at hsome
    split at hsome
    next hfits =>
      split at hsome
      · have hrest := ih hfits hsome
        omega
      · cases hsome
    · cases hsome
      exact ⟨le_rfl, hle⟩

/-- Either no message fits, and the priority is the one to start with, or the first one does. -/
theorem collect_head (hsome : collect queue 0 base minDeadline = some result) :
    (result.1 = 0 ∧ result.2.1 = base) ∨ ∃ pos rest, queue = pos :: rest ∧ pos.size ≤ result.1 := by
  cases queue with
  | nil =>
    cases hsome
    exact .inl ⟨rfl, rfl⟩
  | cons pos rest =>
    rw [collect] at hsome
    split at hsome
    next hfits =>
      split at hsome
      · have hle := (collect_le hfits hsome).1
        exact .inr ⟨pos, rest, rfl, by omega⟩
      · cases hsome
    · cases hsome
      exact .inl ⟨rfl, rfl⟩

theorem extract_spec (msize : Nat) (queue : List SessionMessageEntry) (pbuf : List UInt8)
    (hle : pbuf.length ≤ msize) :
    ∃ batch rest, extract msize pbuf queue = (pbuf ++ batch.flatMap payload, batch, rest) ∧
      queue = batch ++ rest ∧ (pbuf ++ batch.flatMap payload).length ≤ msize := by
  induction queue generalizing pbuf with
  | nil => exact ⟨[], [], by simp [extract], rfl, by simpa using hle⟩
  | cons pos queue ih =>
    rw [extract]
    split
    next hfits =>
      obtain ⟨batch, rest, hextract, hqueue, hlength⟩ := ih (pbuf ++ pos.payload) (by
        rw [length_append]
        exact hfits)
      refine ⟨pos :: batch, rest, ?_, by rw [hqueue]; rfl, ?_⟩
      · rw [hextract]
        simp
      · simpa using hlength
    · exact ⟨[], pos :: queue, by simp, rfl, by simpa using hle⟩

/-! ## The invariant -/

def pipeline (s : TransmissionSession) : List SessionMessageEntry :=
  s.sent ++ s.queue

structure Intact (s : TransmissionSession) : Prop where
  size : ∀ entry ∈ s.queue, 1 ≤ entry.size ∧ entry.size ≠ maxEncryptedMessageSize
  priority : ∀ entry ∈ s.queue, entry.priority ≤ criticalControl
  sorted : s.queue.Pairwise fun a b => b.priority ≤ a.priority
  plaintext : ∀ p ∈ s.plaintexts, p.bytes = p.entries.flatMap payload ∧
    1 ≤ p.bytes.length ∧ p.bytes.length ≤ maxEncryptedMessageSize
  refresh : ∀ bytes ∈ s.refreshes, 1 ≤ bytes.length ∧ bytes.length ≤ maxEncryptedMessageSize
  wasQueued : ∀ entry ∈ s.pipeline, s.queued[entry.id]? = some entry
  once : (s.pipeline.map SessionMessageEntry.id).Nodup
  inOrder : s.pipeline.Pairwise InOrder

variable {s s' : TransmissionSession}

theorem Intact.sound (h : s.Intact) : s.Sound := by
  have hsub : s.sent.Sublist s.pipeline := sublist_append_left _ _
  exact ⟨h.plaintext, h.refresh, fun entry hentry => h.wasQueued entry (hsub.subset hentry),
    h.once.sublist (hsub.map _), h.inOrder.sublist hsub⟩

theorem Intact.of_same (h : s.Intact) (hqueue : s'.queue = s.queue)
    (hplaintexts : s'.plaintexts = s.plaintexts) (hqueued : s'.queued = s.queued)
    (hrefreshes : s'.refreshes = s.refreshes) : s'.Intact := by
  have hsent : s'.sent = s.sent := by rw [sent, sent, hplaintexts]
  have hpipeline : s'.pipeline = s.pipeline := by rw [pipeline, pipeline, hsent, hqueue]
  constructor
  · rw [hqueue]
    exact h.size
  · rw [hqueue]
    exact h.priority
  · rw [hqueue]
    exact h.sorted
  · rw [hplaintexts]
    exact h.plaintext
  · rw [hrefreshes]
    exact h.refresh
  · rw [hpipeline, hqueued]
    exact h.wasQueued
  · rw [hpipeline]
    exact h.once
  · rw [hpipeline]
    exact h.inOrder

theorem Intact.transmitBatch (h : s.Intact) (hqueue : s.queue = pos :: rest)
    (hpos : pos.size ≤ msize) (hmax : msize ≤ maxEncryptedMessageSize) :
    (s.transmitBatch msize).Intact := by
  obtain ⟨batch, left, hextract, hsplit, hlength⟩ := extract_spec msize s.queue [] (Nat.zero_le _)
  rw [nil_append] at hextract hlength
  have hnext : s.transmitBatch msize = { s with
      queue := left
      readyToTransmit := false
      plaintexts := s.plaintexts ++ [⟨batch.flatMap payload, batch⟩] } := by
    rw [TransmissionSession.transmitBatch, hextract]
  have hpipeline : (s.transmitBatch msize).pipeline = s.pipeline := by
    rw [hnext, pipeline, pipeline, sent, sent, hsplit]
    simp
  -- the first message fits, so that the plaintext is not empty
  have hone : 1 ≤ (batch.flatMap payload).length := by
    have hfirst := (h.size pos (hqueue ▸ mem_cons_self)).1
    have hhead : ∃ tail, batch = pos :: tail := by
      rw [hqueue, extract, if_pos (by simpa using hpos)] at hextract
      have hbatch := congrArg (fun r => r.2.1) hextract
      exact ⟨_, hbatch.symm⟩
    obtain ⟨_, rfl⟩ := hhead
    rw [flatMap_cons, length_append]
    exact le_trans hfirst (Nat.le_add_right _ _)
  have hsuffix : left.Sublist s.queue := by
    rw [hsplit]
    exact sublist_append_right _ _
  constructor
  · intro entry hentry
    rw [hnext] at hentry
    exact h.size entry (hsuffix.subset hentry)
  · intro entry hentry
    rw [hnext] at hentry
    exact h.priority entry (hsuffix.subset hentry)
  · rw [hnext]
    exact h.sorted.sublist hsuffix
  · intro p hp
    rw [hnext] at hp
    rcases mem_append.mp hp with hp | hp
    · exact h.plaintext p hp
    · rw [mem_singleton.mp hp]
      exact ⟨rfl, hone, hlength.trans hmax⟩
  · exact h.refresh
  · rw [hpipeline, hnext]
    exact h.wasQueued
  · rw [hpipeline]
    exact h.once
  · rw [hpipeline]
    exact h.inOrder

/-! ## Requests -/

def Later (s s' : TransmissionSession) : Prop :=
  s'.unsolicited ≤ s.unsolicited ∧
    ∀ car' ∈ s'.requests, ∃ car ∈ s.requests, car.client = car'.client ∧
      car.registered = car'.registered ∧ (car.wasSolicited = true → car'.wasSolicited = true)

theorem Later.refl (s : TransmissionSession) : Later s s :=
  ⟨le_rfl, fun car hcar => ⟨car, hcar, rfl, rfl, id⟩⟩

theorem Later.trans (h₁ : Later s₁ s₂) (h₂ : Later s₂ s₃) : Later s₁ s₃ := by
  refine ⟨h₂.1.trans h₁.1, fun car₃ hcar₃ => ?_⟩
  obtain ⟨car₂, hcar₂, hclient₂, hregistered₂, hsolicited₂⟩ := h₂.2 car₃ hcar₃
  obtain ⟨car₁, hcar₁, hclient₁, hregistered₁, hsolicited₁⟩ := h₁.2 car₂ hcar₂
  exact ⟨car₁, hcar₁, hclient₁.trans hclient₂, hregistered₁.trans hregistered₂,
    fun h => hsolicited₂ (hsolicited₁ h)⟩

theorem later_of_requests_eq (h : s'.requests = s.requests) : Later s s' := by
  refine ⟨?_, fun car hcar => ⟨car, h ▸ hcar, rfl, rfl, id⟩⟩
  rw [unsolicited, unsolicited, h]

theorem later_markSolicited (s : TransmissionSession) (client : Nat) :
    Later s (s.markSolicited client) := by
  constructor
  · rw [unsolicited, unsolicited, markSolicited]
    rw [countP_map]
    refine countP_mono_left fun car _ hcar => ?_
    by_cases hclient : car.client = client
    · simp [hclient] at hcar
    · simpa [hclient] using hcar
  · intro car' hcar'
    obtain ⟨car, hcar, rfl⟩ := mem_map.mp hcar'
    refine ⟨car, hcar, ?_⟩
    by_cases hclient : car.client = client
    · simp [hclient]
    · simp [hclient]

theorem later_removeRequest (s : TransmissionSession) (client : Nat) :
    Later s (s.removeRequest client) := by
  refine ⟨filter_sublist.countP_le, fun car hcar => ?_⟩
  exact ⟨car, (mem_filter.mp hcar).1, rfl, rfl, id⟩

theorem le_maxUnsolicited (requests : List ClientActiveRequest) (base : Nat) :
    base ≤ maxUnsolicited requests base := by
  induction requests generalizing base with
  | nil => exact le_rfl
  | cons car requests ih =>
    rw [maxUnsolicited, foldl_cons]
    split
    · exact ih base
    · exact (le_max_left _ _).trans (ih _)

variable {car : ClientActiveRequest}

theorem nextToSolicit_mem {requests : List ClientActiveRequest}
    (hnext : nextToSolicit pmax soSize requests = some car) :
    car ∈ requests ∧ car.wasSolicited = false := by
  induction requests generalizing soSize with
  | nil => cases hnext
  | cons first rest ih =>
    rw [nextToSolicit] at hnext
    split at hnext
    · obtain ⟨hmem, hsolicited⟩ := ih hnext
      exact ⟨mem_cons_of_mem _ hmem, hsolicited⟩
    split at hnext
    · cases hnext
    split at hnext
    · obtain ⟨hmem, hsolicited⟩ := ih hnext
      exact ⟨mem_cons_of_mem _ hmem, hsolicited⟩
    next hsolicited =>
      cases hnext
      exact ⟨mem_cons_self, by simpa using hsolicited⟩

theorem unsolicited_markSolicited_lt (hcar : car ∈ s.requests) (hnew : car.wasSolicited = false) :
    (s.markSolicited car.client).unsolicited < s.unsolicited := by
  obtain ⟨before, after, hsplit⟩ := append_of_mem hcar
  have hmark : ∀ requests : List ClientActiveRequest,
      (requests.map fun other => if other.client = car.client then
        { other with wasSolicited := true } else other).countP (fun car => ¬ car.wasSolicited) ≤
      requests.countP fun car => ¬ car.wasSolicited := fun requests =>
    (later_markSolicited { s with requests } car.client).1
  have hbefore := hmark before
  have hafter := hmark after
  rw [unsolicited, unsolicited, markSolicited]
  rw [hsplit, map_append, map_cons, if_pos rfl, countP_append,
    countP_append, countP_cons_of_neg (by simp),
    countP_cons_of_pos (by simp [hnew])]
  omega

/-- A request that its client does not hold any more is not rejected. -/
def Safe (link : Nat → Link) (s : TransmissionSession) : Prop :=
  ∀ car ∈ s.requests, car.registered = false →
    car.wasSolicited = true ∨ ∀ fuel, (link fuel).knows car.client = true

variable {link : Nat → Link}

theorem Safe.later (hsafe : s.Safe link) (hlater : Later s s') : s'.Safe link := by
  intro car' hcar' hregistered
  obtain ⟨car, hcar, hclient, hsame, hsolicited⟩ := hlater.2 car' hcar'
  rw [← hclient]
  exact (hsafe car hcar (hsame.trans hregistered)).imp_left hsolicited

/-- What a call does to the session: it keeps the invariant, or fails on a request that is
gone; other failures do not happen. -/
def Outcome (link : Nat → Link) (s : TransmissionSession)
    (result : Except Abort TransmissionSession) : Prop :=
  (∃ s', result = .ok s' ∧ s'.Intact ∧ Later s s') ∨
    (¬ s.Safe link ∧ result = .error .rejectRequest)

theorem Outcome.of_later (hlater : Later s s')
    (h : s'.Outcome link result) : s.Outcome link result := by
  rcases h with ⟨final, hresult, hintact, hfinal⟩ | ⟨hgone, hresult⟩
  · exact .inl ⟨final, hresult, hintact, hlater.trans hfinal⟩
  · exact .inr ⟨fun hsafe => hgone (hsafe.later hlater), hresult⟩

/-- `try_transmission`, if the solicitations that it calls behave. -/
theorem tryTransmissionWith_outcome {link : Link}
    {solicit : Nat → TransmissionSession → Except Abort TransmissionSession}
    (hintact : s.Intact) (hsolicit : ∀ msize, s.Outcome links (solicit msize s)) :
    s.Outcome links (tryTransmissionWith solicit link s) := by
  rw [tryTransmissionWith]
  split
  · exact .inl ⟨s, rfl, hintact, Later.refl s⟩
  split
  · exact .inl ⟨s, rfl, hintact, Later.refl s⟩
  dsimp only
  have hbase : (if link.excess = true then background else bestEffort) < criticalControl := by
    split <;> decide
  cases hcollect : collect s.queue 0
      (if link.excess then background else bestEffort) foreverAbs with
  | none =>
    obtain ⟨entry, hentry, hsize⟩ := collect_none hcollect
    exact absurd hsize (hintact.size entry hentry).2
  | some result =>
    obtain ⟨msize, maxp, _⟩ := result
    dsimp only
    generalize hexcess : (if criticalControl ≤ maxp then false else link.excess) = excess
    generalize hmaxpc : (if criticalControl ≤ maxp then background
      else maxUnsolicited s.requests
        (if link.excess = true then background else bestEffort)) = maxpc
    split
    · exact hsolicit 0
    split
    · rcases hsolicit msize with ⟨_, hok, hafter, hlater⟩ | ⟨hgone, herror⟩
      · rw [hok]
        refine .inl ⟨_, rfl, ?_, ?_⟩
        · split
          · exact hafter.of_same rfl rfl rfl rfl
          · exact hafter
        · split
          · exact hlater.trans (later_of_requests_eq rfl)
          · exact hlater
      · rw [herror]
        exact .inr ⟨hgone, rfl⟩
    next hno hready =>
      refine .inl ⟨_, rfl, ?_, later_of_requests_eq rfl⟩
      rcases collect_head hcollect with ⟨hzero, hmaxp⟩ | ⟨_, _, hqueue, hpos⟩
      · -- without a message that fits the code solicits
        exfalso
        apply hready
        dsimp only at hzero hmaxp
        have hcritical : ¬ criticalControl ≤ maxp := by omega
        rw [if_neg hcritical] at hexcess hmaxpc
        refine ⟨?_, .inl hzero⟩
        by_cases hbandwidth : link.excess = true
        · exact .inl (hexcess ▸ hbandwidth)
        · right
          rw [if_neg hbandwidth] at hmaxpc
          rw [← hmaxpc]
          exact le_maxUnsolicited _ _
      · exact hintact.transmitBatch hqueue hpos (collect_le (Nat.zero_le _) hcollect).2

/-- The loop of `solicit_messages` ends: the fuel is the number of requests to solicit. -/
theorem solicitLoop_outcome (link : Nat → Link) (fuel : Nat) (pmax msize : Nat)
    (hintact : s.Intact) (hfuel : s.unsolicited ≤ fuel) :
    s.Outcome link (solicitLoop link fuel pmax msize s) := by
  induction fuel generalizing s pmax msize with
  | zero =>
    rw [solicitLoop]
    cases hnext : nextToSolicit pmax msize s.requests with
    | none => exact .inl ⟨s, rfl, hintact, Later.refl s⟩
    | some car =>
      obtain ⟨hcar, hnew⟩ := nextToSolicit_mem hnext
      have hlt := unsolicited_markSolicited_lt hcar hnew
      omega
  | succ fuel ih =>
    rw [solicitLoop]
    cases hnext : nextToSolicit pmax msize s.requests with
    | none => exact .inl ⟨s, rfl, hintact, Later.refl s⟩
    | some car =>
      dsimp only
      obtain ⟨hcar, hnew⟩ := nextToSolicit_mem hnext
      have hlt := unsolicited_markSolicited_lt hcar hnew
      have hmarked := later_markSolicited s car.client
      by_cases hknows : (link fuel).knows car.client = true
      · rw [if_pos hknows]
        exact .of_later hmarked (ih pmax msize (hintact.of_same rfl rfl rfl rfl) (by omega))
      rw [if_neg hknows]
      -- the request is dequeued, with a transmission inside, and rejected
      have hremoved := hmarked.trans (later_removeRequest (s.markSolicited car.client) car.client)
      have hinner : ((s.markSolicited car.client).removeRequest car.client).Intact :=
        hintact.of_same rfl rfl rfl rfl
      have hle := (later_removeRequest (s.markSolicited car.client) car.client).1
      have hsolicit : ∀ msize, Outcome link _ (solicitLoop link fuel
          (maxUnsolicited ((s.markSolicited car.client).removeRequest car.client).requests
            background) msize
          ((s.markSolicited car.client).removeRequest car.client)) :=
        fun msize => ih _ msize hinner (by omega)
      rcases @tryTransmissionWith_outcome _ link (link fuel)
          (fun msize s => solicitLoop link fuel (maxUnsolicited s.requests background) msize s)
          hinner hsolicit with ⟨_, hok, hafter, hlater⟩ | ⟨hgone, herror⟩
      · rw [hok]
        dsimp only
        by_cases hregistered : car.registered = true
        · rw [if_pos hregistered]
          have hle' := hlater.1
          exact .of_later (hremoved.trans hlater) (ih pmax msize hafter (by omega))
        · rw [if_neg hregistered]
          refine .inr ⟨fun hsafe => ?_, rfl⟩
          rcases hsafe car hcar (by simpa using hregistered) with hsolicited | hknown
          · rw [hnew] at hsolicited
            cases hsolicited
          · exact hknows (hknown fuel)
      · rw [herror]
        exact .inr ⟨fun hsafe => hgone (hsafe.later hremoved), rfl⟩

theorem tryTransmission_outcome (link : Nat → Link) (hintact : s.Intact) :
    s.Outcome link (s.tryTransmission link) := by
  exact tryTransmissionWith_outcome hintact fun msize =>
    solicitLoop_outcome link _ _ msize hintact le_rfl

/-! ## Queueing -/

theorem insertByPriority_perm (sme : SessionMessageEntry) (queue : List SessionMessageEntry) :
    (insertByPriority sme queue).Perm (sme :: queue) := by
  induction queue with
  | nil => exact .refl _
  | cons pos rest ih =>
    rw [insertByPriority]
    split
    · exact (ih.cons pos).trans (.swap sme pos rest)
    · exact .refl _

theorem insertByPriority_split (sme : SessionMessageEntry)
    (hsorted : queue.Pairwise fun a b => b.priority ≤ a.priority) :
    ∃ before after, queue = before ++ after ∧ insertByPriority sme queue = before ++ sme :: after ∧
      (∀ pos ∈ before, sme.priority ≤ pos.priority) ∧
      ∀ pos ∈ after, pos.priority < sme.priority := by
  induction queue with
  | nil => exact ⟨[], [], rfl, rfl, nofun, nofun⟩
  | cons pos rest ih =>
    rw [pairwise_cons] at hsorted
    rw [insertByPriority]
    split
    next hle =>
      obtain ⟨before, after, hrest, hinsert, hbefore, hafter⟩ := ih hsorted.2
      refine ⟨pos :: before, after, by rw [hrest]; rfl, by rw [hinsert]; rfl, ?_, hafter⟩
      intro other hother
      rcases mem_cons.mp hother with rfl | hother
      · exact hle
      · exact hbefore other hother
    next hlt =>
      refine ⟨[], pos :: rest, rfl, rfl, nofun, ?_⟩
      intro other hother
      rcases mem_cons.mp hother with rfl | hother
      · omega
      · have hle := hsorted.1 other hother
        omega

theorem Intact.fresh (h : s.Intact) (hentry : entry ∈ s.pipeline) : entry.id < s.queued.length := by
  have hqueued := h.wasQueued entry hentry
  exact (List.getElem?_eq_some_iff.mp hqueued).1

theorem Intact.of_queue (h : s.Intact) {sme : SessionMessageEntry}
    {kept : List SessionMessageEntry} (hid : sme.id = s.queued.length)
    (hkept : kept.Sublist s.queue) (hperm : queue.Perm (sme :: kept))
    (hsize : 1 ≤ sme.size ∧ sme.size ≠ maxEncryptedMessageSize)
    (hpriority : sme.priority ≤ criticalControl)
    (hsorted : queue.Pairwise fun a b => b.priority ≤ a.priority)
    (hinOrder : (s.sent ++ queue).Pairwise InOrder) :
    ({ s with queue, queued := s.queued ++ [sme] } : TransmissionSession).Intact := by
  have hmem : ∀ entry ∈ queue, entry = sme ∨ entry ∈ s.queue := by
    intro entry hentry
    rcases mem_cons.mp (hperm.subset hentry) with hentry | hentry
    · exact .inl hentry
    · exact .inr (hkept.subset hentry)
  constructor
  · intro entry hentry
    rcases hmem entry hentry with rfl | hentry
    · exact hsize
    · exact h.size entry hentry
  · intro entry hentry
    rcases hmem entry hentry with rfl | hentry
    · exact hpriority
    · exact h.priority entry hentry
  · exact hsorted
  · exact h.plaintext
  · exact h.refresh
  · intro entry hentry
    show (s.queued ++ [sme])[entry.id]? = some entry
    have hold : entry ∈ s.pipeline → (s.queued ++ [sme])[entry.id]? = some entry := by
      intro hentry
      rw [getElem?_append_left (h.fresh hentry)]
      exact h.wasQueued entry hentry
    rcases mem_append.mp hentry with hentry | hentry
    · exact hold (mem_append_left _ hentry)
    · rcases hmem entry hentry with rfl | hentry
      · rw [hid, getElem?_append_right le_rfl, Nat.sub_self]
        rfl
      · exact hold (mem_append_right _ hentry)
  · have hnew : sme.id ∉ (s.sent ++ kept).map SessionMessageEntry.id := by
      intro hsame
      obtain ⟨_, hentry, _⟩ := mem_map.mp hsame
      have hlt := h.fresh (((Sublist.refl s.sent).append hkept).subset hentry)
      omega
    have hold := h.once.sublist (((Sublist.refl s.sent).append hkept).map _)
    have hperm' : ((s.sent ++ queue).map SessionMessageEntry.id).Perm
        (sme.id :: (s.sent ++ kept).map SessionMessageEntry.id) :=
      ((hperm.append_left s.sent).trans perm_middle).map _
    exact hperm'.nodup_iff.mpr (nodup_cons.mpr ⟨hnew, hold⟩)
  · exact hinOrder

variable {priority : Nat}

theorem Intact.enqueue (h : s.Intact) (deadline : Nat) {msg : List UInt8}
    (hpriority : priority ≤ criticalControl)
    (hsize : 1 ≤ msg.length ∧ msg.length ≠ maxEncryptedMessageSize) :
    (s.enqueue priority deadline msg).Intact := by
  obtain ⟨_, _, hqueue, hinsert, hbefore, hafter⟩ :=
    insertByPriority_split ⟨s.queued.length, priority, .client, deadline, msg⟩ h.sorted
  have hsorted := h.sorted
  have horder := h.inOrder
  rw [pipeline, hqueue] at horder
  rw [hqueue] at hsorted
  refine h.of_queue rfl (Sublist.refl _) (insertByPriority_perm _ _) hsize hpriority ?_ ?_
  · rw [hinsert, pairwise_append, pairwise_cons]
    rw [pairwise_append] at hsorted
    refine ⟨hsorted.1, ⟨fun pos hpos => (hafter pos hpos).le, hsorted.2.1⟩, ?_⟩
    intro a ha b hb
    rcases mem_cons.mp hb with rfl | hb
    · exact hbefore a ha
    · exact hsorted.2.2 a ha b hb
  · rw [hinsert, ← append_assoc, pairwise_append, pairwise_cons]
    rw [← append_assoc, pairwise_append] at horder
    refine ⟨horder.1, ⟨?_, horder.2.1⟩, ?_⟩
    · -- what follows has a lower priority
      intro pos hpos _ _ hsame
      exact absurd hsame.symm (hafter pos hpos).ne
    · intro a ha b hb
      rcases mem_cons.mp hb with rfl | hb
      · intro _ _ _
        apply h.fresh
        rw [pipeline, hqueue, ← append_assoc]
        exact mem_append_left _ ha
      · exact horder.2.2 a ha b hb

theorem Intact.replaceControl (h : s.Intact) {kind : EntryKind} (hkind : kind ≠ .client)
    (deadline : Nat) {msg : List UInt8}
    (hsize : 1 ≤ msg.length ∧ msg.length ≠ maxEncryptedMessageSize) :
    (s.replaceControl kind deadline msg).Intact := by
  have hkept : (s.queue.eraseP fun pos => pos.kind = kind).Sublist s.queue := eraseP_sublist
  refine h.of_queue rfl hkept (.refl _) hsize le_rfl ?_ ?_
  · refine pairwise_cons.mpr ⟨fun pos hpos => ?_, h.sorted.sublist hkept⟩
    exact h.priority pos (hkept.subset hpos)
  · have hold := h.inOrder.sublist ((Sublist.refl s.sent).append hkept)
    rw [pairwise_append] at hold ⊢
    refine ⟨hold.1, pairwise_cons.mpr ⟨fun pos _ hclient => ?_, hold.2.1⟩, ?_⟩
    · exact absurd hclient hkind
    · intro a ha b hb
      rcases mem_cons.mp hb with rfl | hb
      · intro _ hclient
        exact absurd hclient hkind
      · exact hold.2.2 a ha b hb

/-! ## Events -/

/-- Between two events every client holds its requests. -/
structure Valid (s : TransmissionSession) : Prop where
  intact : s.Intact
  registered : ∀ car ∈ s.requests, car.registered = true

theorem Valid.safe (h : s.Valid) (link : Nat → Link) : s.Safe link := by
  intro car hcar hregistered
  rw [h.registered car hcar] at hregistered
  cases hregistered

theorem Valid.of_later (h : s.Valid) (hlater : Later s s') (hintact : s'.Intact) : s'.Valid := by
  refine ⟨hintact, fun car' hcar' => ?_⟩
  obtain ⟨car, hcar, -, hsame, -⟩ := hlater.2 car' hcar'
  rw [← hsame]
  exact h.registered car hcar

section

variable (h : s.Valid) (link : Nat → Link)
include h

theorem Valid.tryTransmission : ∃ s', s.tryTransmission link = .ok s' ∧ s'.Valid := by
  rcases tryTransmission_outcome link h.intact with ⟨s', hok, hintact, hlater⟩ | ⟨hgone, -⟩
  · exact ⟨s', hok, h.of_later hlater hintact⟩
  · exact absurd (h.safe link) hgone

theorem Valid.dequeueRequest (client : Nat) :
    ∃ s', s.dequeueRequest link client = .ok s' ∧ s'.Valid :=
  (h.of_later (later_removeRequest s client) (h.intact.of_same rfl rfl rfl rfl)).tryTransmission link

theorem Valid.dropRequest (client : Nat) : ∃ s', s.dropRequest link client = .ok s' ∧ s'.Valid := by
  rw [TransmissionSession.dropRequest]
  split
  · exact h.dequeueRequest link client
  · exact ⟨s, rfl, h⟩

theorem Valid.queueRequest (hregistered : car.registered = true) :
    ∃ s', s.queueRequest link car = .ok s' ∧ s'.Valid := by
  rw [TransmissionSession.queueRequest]
  split
  · exact ⟨s, rfl, h⟩
  · apply Valid.tryTransmission
    refine ⟨h.intact.of_same rfl rfl rfl rfl, fun other hother => ?_⟩
    rcases mem_append.mp hother with hother | hother
    · exact h.registered other hother
    · rw [mem_singleton.mp hother]
      exact hregistered

end

theorem Valid.sendRequest (h : s.Valid) (link : Nat → Nat → Link) (client msize priority : Nat) :
    ∃ s', s.handleClientSendRequest link client msize priority = .ok s' ∧ s'.Valid := by
  rw [handleClientSendRequest]
  split
  · exact ⟨s, rfl, h⟩
  · obtain ⟨_, hs₁, hvalid₁⟩ := h.dropRequest (link 0) client
    rw [hs₁]
    exact hvalid₁.queueRequest (link 1) rfl

theorem transmitAll_outcome (link : Nat → Nat → Link) (cork : Bool)
    (hpriority : priority ≤ criticalControl) (msgs : List (List UInt8)) (call : Nat)
    (hintact : s.Intact)
    (hsize : ∀ msg ∈ msgs, 1 ≤ msg.length ∧ msg.length ≠ maxEncryptedMessageSize) :
    (∃ s', transmitAll link priority cork call msgs s = .ok s' ∧ s'.Intact ∧ Later s s') ∨
      ((∃ call, ¬ s.Safe (link call)) ∧
        transmitAll link priority cork call msgs s = .error .rejectRequest) := by
  induction msgs generalizing s call with
  | nil => exact .inl ⟨s, rfl, hintact, Later.refl s⟩
  | cons msg msgs ih =>
    rw [transmitAll]
    have hlater : ∀ deadline, Later s (s.enqueue priority deadline msg) :=
      fun _ => later_of_requests_eq rfl
    generalize (if cork = true then (link call 0).now + maxCorkDelay else 0) = deadline
    have henqueue := hintact.enqueue deadline hpriority (hsize msg mem_cons_self)
    rcases tryTransmission_outcome (link call) henqueue with
      ⟨s₁, hok, hintact₁, hlater₁⟩ | ⟨hgone, herror⟩
    · rcases ih (call + 1) hintact₁ (fun m hm => hsize m (mem_cons_of_mem _ hm)) with
        ⟨s₂, hok₂, hintact₂, hlater₂⟩ | ⟨⟨other, hgone⟩, herror⟩
      · refine .inl ⟨s₂, ?_, hintact₂, ((hlater deadline).trans hlater₁).trans hlater₂⟩
        rw [hok]
        exact hok₂
      · refine .inr ⟨⟨other, fun hsafe => hgone ?_⟩, ?_⟩
        · exact hsafe.later ((hlater deadline).trans hlater₁)
        · rw [hok]
          exact herror
    · refine .inr ⟨⟨call, fun hsafe => hgone (hsafe.later (hlater deadline))⟩, ?_⟩
      rw [herror]
      rfl

/-- `SEND` fails only on the request of a client that was neither solicited nor knows the
neighbour. -/
theorem Valid.send (h : s.Valid) (link : Nat → Nat → Link) (client : Nat) (cork : Bool)
    (hpriority : priority ≤ criticalControl)
    (hsize : ∀ msg ∈ msgs, 1 ≤ msg.length ∧ msg.length ≠ maxEncryptedMessageSize) :
    (∃ s', s.handleClientSend link client priority cork msgs = .ok s' ∧ s'.Valid) ∨
      (s.Premature (link, .send client priority cork msgs) ∧
        s.handleClientSend link client priority cork msgs = .error .rejectRequest) := by
  rw [handleClientSend]
  split
  swap
  · exact .inl ⟨s, rfl, h⟩
  let s₀ : TransmissionSession := { s with requests := s.requests.map fun car =>
    if car.client = client then { car with registered := false } else car }
  have hintact₀ : s₀.Intact := h.intact.of_same rfl rfl rfl rfl
  have hpremature : (∃ call, ¬ s₀.Safe (link call)) →
      s.Premature (link, .send client priority cork msgs) := by
    rintro ⟨call, hgone⟩
    simp only [Safe, not_forall, not_or] at hgone
    obtain ⟨car, hcar, hregistered, hsolicited, fuel, hknows⟩ := hgone
    obtain ⟨old, hold, rfl⟩ := mem_map.mp hcar
    by_cases hclient : old.client = client
    · simp only [hclient, if_true] at hsolicited hknows
      exact ⟨⟨old, hold, hclient, by simpa using hsolicited⟩, call, fuel, by simpa using hknows⟩
    · rw [if_neg hclient, h.registered old hold] at hregistered
      cases hregistered
  show (∃ s', (transmitAll link priority cork 0 msgs s₀ >>= fun s =>
      s.dequeueRequest (link msgs.length) client) = .ok s' ∧ s'.Valid) ∨ _ ∧
    (transmitAll link priority cork 0 msgs s₀ >>= fun s =>
      s.dequeueRequest (link msgs.length) client) = .error .rejectRequest
  rcases transmitAll_outcome link cork hpriority msgs 0 hintact₀ hsize with
    ⟨s₁, hok, hintact₁, hlater⟩ | ⟨hgone, herror⟩
  · rw [hok]
    left
    -- without the request of the sender all others are held by their clients
    have hvalid : (s₁.removeRequest client).Valid := by
      refine ⟨hintact₁.of_same rfl rfl rfl rfl, fun car hcar => ?_⟩
      obtain ⟨hcar, hother⟩ := mem_filter.mp hcar
      obtain ⟨_, hcar₀, hclient, hsame, -⟩ := hlater.2 car hcar
      obtain ⟨old, hold, rfl⟩ := mem_map.mp hcar₀
      have hne : old.client ≠ client := by
        intro heq
        simp only [heq, if_true] at hclient
        simp [hclient] at hother
      rw [if_neg hne] at hsame
      rw [← hsame]
      exact h.registered old hold
    exact hvalid.tryTransmission _
  · rw [herror]
    exact .inr ⟨hpremature hgone, rfl⟩

theorem Valid.step (h : s.Valid) {input : (Nat → Nat → Link) × Event}
    (hallowed : s.Allowed input) (hmeets : s.Meets input) :
    (∃ s', s.step input = .ok s' ∧ s'.Valid) ∨
      (s.Premature input ∧ s.step input = .error .rejectRequest) := by
  obtain ⟨link, event⟩ := input
  have hsame : ∀ {s' : TransmissionSession}, s'.Intact → s'.requests = s.requests → s'.Valid :=
    fun hintact hrequests => h.of_later (later_of_requests_eq hrequests) hintact
  have hmax : maxEncryptedMessageSize = 64512 := rfl
  cases event with
  | sendRequest client msize priority => exact .inl (h.sendRequest link client msize priority)
  | send client priority cork msgs =>
    refine h.send link client cork hmeets.1 fun msg hmsg => ⟨?_, hmeets.2 msg hmsg⟩
    have hlength := hallowed.1 msg hmsg
    omega
  | clientDisconnect client => exact .inl (h.dropRequest (link 0) client)
  | broadcastTypemap hdr =>
    have hlength : 4 < hdr.length ∧ hdr.length ≤ 4 + 8192 := hallowed
    have hintact : (s.replaceControl .typemap 0 hdr).Intact :=
      h.intact.replaceControl (by decide) 0 ⟨by omega, by omega⟩
    exact .inl (Valid.tryTransmission (hsame hintact rfl) (link 0))
  | setTypemap confirmation =>
    have hlength : confirmation.length = 72 := hallowed
    have hintact : (s.replaceControl .typemapConfirm (link 0 0).now confirmation).Intact :=
      h.intact.replaceControl (by decide) (link 0 0).now ⟨by omega, by omega⟩
    exact .inl (Valid.tryTransmission (hsame hintact rfl) (link 0))
  | typemapTask hdr =>
    have hlength : 4 < hdr.length ∧ hdr.length ≤ 4 + 8192 := hallowed
    refine .inl ⟨_, rfl, hsame ?_ rfl⟩
    refine ⟨h.intact.size, h.intact.priority, h.intact.sorted, h.intact.plaintext, ?_,
      h.intact.wasQueued, h.intact.once, h.intact.inOrder⟩
    intro bytes hbytes
    rcases mem_append.mp hbytes with hbytes | hbytes
    · exact h.intact.refresh bytes hbytes
    · rw [mem_singleton.mp hbytes]
      omega
  | solicit =>
    have hintact : ({ s with readyToTransmit := true } : TransmissionSession).Intact :=
      h.intact.of_same rfl rfl rfl rfl
    exact .inl (Valid.tryTransmission (hsame hintact rfl) (link 0))
  | popCork =>
    have hintact : ({ s with corkTask := none } : TransmissionSession).Intact :=
      h.intact.of_same rfl rfl rfl rfl
    exact .inl (Valid.tryTransmission (hsame hintact rfl) (link 0))
  | restart =>
    have hsub : ∀ sent : List SessionMessageEntry, (sent ++ []).Sublist (sent ++ s.queue) :=
      fun sent => (Sublist.refl sent).append (nil_sublist _)
    refine .inl ⟨_, rfl, ⟨nofun, nofun, .nil, h.intact.plaintext, h.intact.refresh, ?_, ?_, ?_⟩,
      nofun⟩
    · intro entry hentry
      exact h.intact.wasQueued entry ((hsub s.sent).subset hentry)
    · exact h.intact.once.sublist ((hsub s.sent).map _)
    · exact h.intact.inOrder.sublist (hsub s.sent)

theorem valid_start : start.Valid := ⟨⟨nofun, nofun, .nil, nofun, nofun, nofun, .nil, .nil⟩, nofun⟩

end Gnunet.Core.TransmissionSession
