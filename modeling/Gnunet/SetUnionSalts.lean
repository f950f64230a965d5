import Gnunet.InvertibleBloomFilterLinear
import Gnunet.SetUnionSafety
import Gnunet.SetUnionFullSet

/-!
# The salts of the filters

Two honest peers send each other filters until one of them can be decoded.
Whoever fails to decode raises its own salt and sends the next filter, but
decodes with the salt that it would send with.  The acceptor, which decodes
first, therefore always finds a filter under its own salt, and the initiator
always finds one under the next.
-/

namespace Gnunet.SetService

open Protocol Ibf List Option InvertibleBloomFilter

/-! ## Slices of a filter -/

variable {A : Type} {n : Nat}

theorem toChunks_cons (hn : 0 < n) (x : A) (xs : List A) :
    (x :: xs).toChunks n = toChunks.go n xs #[x] #[] := by
  obtain ⟨_, rfl⟩ := Nat.exists_eq_succ_of_ne_zero hn.ne'
  rfl

theorem toChunks_go (hn : 0 < n) (xs : List A) (chunk : Array A) (chunks : Array (List A))
    (hsize : chunk.size ≤ n) :
    toChunks.go n xs chunk chunks = chunks.toList ++ (chunk.toList ++ xs.take (n - chunk.size)) ::
        (xs.drop (n - chunk.size)).toChunks n := by
  induction xs generalizing chunk chunks with
  | nil => simp [toChunks.go, toChunks]
  | cons x xs ih =>
    unfold toChunks.go
    by_cases hfull : chunk.size = n
    · rw [if_pos (by simpa using hfull), ih _ _ (by simp; omega), hfull, Nat.sub_self,
        drop_zero, toChunks_cons hn, ih _ _ (by simp; omega)]
      simp
    · rw [if_neg (by simpa using hfull), ih _ _ (by simp; omega)]
      have hroom : n - chunk.size = (n - (chunk.push x).size) + 1 := by
        rw [Array.size_push]
        omega
      rw [hroom, take_succ_cons, drop_succ_cons]
      simp

/-- The chunks of a list are its first elements and the chunks of the others. -/
theorem toChunks_eq (hn : 0 < n) {xs : List A} (hxs : xs ≠ []) :
    xs.toChunks n = xs.take n :: (xs.drop n).toChunks n := by
  cases xs with
  | nil => exact absurd rfl hxs
  | cons x xs =>
    obtain ⟨_, rfl⟩ := Nat.exists_eq_succ_of_ne_zero hn.ne'
    rw [toChunks_cons hn, toChunks_go hn _ _ _ (by simp)]
    simp

def slicesFrom (ibfOrder : Nat) (salt : BitVec 32) (received : Nat)
    (rest : List Bucket) : List P2PMessage :=
  (rest.toChunks maxBucketsPerMessage).zipIdx.map fun chunk =>
    .ibf ⟨ibfOrder, received + chunk.2 * maxBucketsPerMessage, salt, chunk.1, true⟩

theorem ibfMessages_eq :
    UnionOperation.ibfMessages ibfOrder salt ibf = slicesFrom ibfOrder salt 0 ibf.buckets := by
  simp [UnionOperation.ibfMessages, slicesFrom]

@[simp] theorem slicesFrom_nil : slicesFrom ibfOrder salt received [] = [] := by
  simp [slicesFrom, toChunks]

variable {rest : List Bucket}

theorem slicesFrom_eq (hrest : rest ≠ []) (ibfOrder : Nat) (salt : BitVec 32) (received : Nat) :
    slicesFrom ibfOrder salt received rest =
      .ibf ⟨ibfOrder, received, salt, rest.take maxBucketsPerMessage, true⟩ ::
        slicesFrom ibfOrder salt (received + (rest.take maxBucketsPerMessage).length)
          (rest.drop maxBucketsPerMessage) := by
  have hpos : 0 < maxBucketsPerMessage := by decide
  by_cases hlast : rest.drop maxBucketsPerMessage = []
  · rw [hlast, slicesFrom_nil, slicesFrom, toChunks_eq hpos hrest, hlast]
    simp [toChunks]
  · have hlength : (rest.take maxBucketsPerMessage).length = maxBucketsPerMessage := by
      rw [length_take]
      have hlong : ¬ rest.length ≤ maxBucketsPerMessage := fun h =>
        hlast (drop_eq_nil_of_le h)
      omega
    rw [hlength, slicesFrom, toChunks_eq hpos hrest, zipIdx_cons, map_cons,
      List.zipIdx_succ, List.map_map]
    simp only [Nat.zero_mul, Nat.add_zero, slicesFrom]
    congr 1
    refine map_congr_left fun chunk _ => ?_
    simp only [Function.comp_apply]
    congr 2
    ring

variable {msg : IBFMessage} {message : P2PMessage}

namespace UnionOperation

variable {env : UnionEnv} {view : OperationView} {op op' : UnionOperation}

/-! ## Receiving a filter

What `handle_p2p_ibf` does before it calls `decode_and_send`, so that one can
speak of the state in which it does. -/

inductive IbfProgress where
  | refused (op : UnionOperation)
  | waiting (op : UnionOperation)
  | complete (op : UnionOperation)

def storeBuckets (op : UnionOperation) (msg : IBFMessage) : Option IbfProgress :=
  if msg.buckets = [] ∨ msg.whole = false then some (.refused op)
  else
    op.remoteIbf.bind fun ibf =>
      (ibf.readSlice msg.buckets op.ibfBucketsReceived).map fun ibf =>
        let op :=
          { op with
            remoteIbf := some ibf
            ibfBucketsReceived := op.ibfBucketsReceived + msg.buckets.length }
        if op.ibfBucketsReceived = ibf.size then
          .complete { op with phase := .inventoryActive }
        else .waiting op

def storeIbf (env : UnionEnv) (op : UnionOperation) (msg : IBFMessage) : Option IbfProgress :=
  if op.phase = .inventoryPassive ∨ op.phase = .expectIbf then
    if op.remoteIbf.isSome ∨ 31 ≤ msg.order then none
    else if env.allocates (2 ^ msg.order) = false ∨ msg.offset ≠ 0 then some (.refused op)
    else (op.beginIbf msg).storeBuckets msg
  else if op.phase = .expectIbfCont then
    if msg.offset ≠ op.ibfBucketsReceived then some (.refused op)
    else if 31 ≤ msg.order then none
    else
      op.remoteIbf.bind fun ibf =>
        if 2 ^ msg.order ≠ ibf.size ∨ msg.salt ≠ op.saltReceive then some (.refused op)
        else op.storeBuckets msg
  else none

def IbfProgress.finish (env : UnionEnv) : IbfProgress → Option UnionOperation
  | .refused op => some op.failUnionOperation
  | .waiting op => some op
  | .complete op => op.decodeAndSend env

theorem receiveBuckets_eq (op : UnionOperation) (msg : IBFMessage) :
    op.receiveBuckets env msg = (op.storeBuckets msg).bind (IbfProgress.finish env) := by
  unfold receiveBuckets storeBuckets
  split
  · rfl
  · cases op.remoteIbf with
    | none => rfl
    | some ibf =>
      rw [bind_some, bind_some]
      cases ibf.readSlice msg.buckets op.ibfBucketsReceived with
      | none => rfl
      | some ibf =>
        rw [bind_some, map_some, bind_some]
        dsimp only
        split <;> rfl

/-- `decode_and_send` is called in the states that are `complete`, and only there. -/
theorem handleP2pIbf_eq (op : UnionOperation) (msg : IBFMessage) :
    op.handleP2pIbf env msg = (op.storeIbf env msg).bind (IbfProgress.finish env) := by
  unfold handleP2pIbf storeIbf
  split
  · split
    · rfl
    · split
      · rfl
      · rw [create_of_pos (Nat.two_pow_pos msg.order), bind_some]
        exact receiveBuckets_eq (op.beginIbf msg) msg
  · split
    · split
      · rfl
      · split
        · rfl
        · cases op.remoteIbf with
          | none => rfl
          | some ibf =>
            rw [bind_some, bind_some]
            split
            · rfl
            · exact receiveBuckets_eq op msg
    · rfl

structure Holds (op : UnionOperation) (received rest : List Bucket) (salt : BitVec 32) :
    Prop where
  phase : op.phase = .expectIbfCont
  remoteIbf : op.remoteIbf = some ⟨seIbfHashNum, received ++ replicate rest.length ⟨0, 0, 0⟩⟩
  ibfBucketsReceived : op.ibfBucketsReceived = received.length
  saltReceive : op.saltReceive = salt

def stored (op : UnionOperation) (received rest : List Bucket) : UnionOperation :=
  { op with
    remoteIbf := some ⟨seIbfHashNum, received ++ replicate rest.length ⟨0, 0, 0⟩⟩
    ibfBucketsReceived := received.length }

variable {received : List Bucket} {salt : BitVec 32}

theorem Holds.stored (h : op.Holds received rest salt) (next : List Bucket) :
    (op.stored next more).Holds next more salt :=
  ⟨h.phase, rfl, rfl, h.saltReceive⟩

theorem readSlice_next {slice : List Bucket} (hslice : slice ≠ []) :
    (⟨seIbfHashNum, received ++ replicate (slice ++ rest).length ⟨0, 0, 0⟩⟩ :
        InvertibleBloomFilter).readSlice slice received.length =
      some ⟨seIbfHashNum, received ++ slice ++ replicate rest.length ⟨0, 0, 0⟩⟩ := by
  have hpos : 0 < slice.length := length_pos_of_ne_nil hslice
  unfold readSlice
  rw [if_pos ⟨hpos, by simp [size]⟩]
  simp [drop_append]

theorem Holds.storeBuckets {slice : List Bucket} (h : op.Holds received (slice ++ rest) salt)
    (hslice : slice ≠ []) (hbuckets : msg.buckets = slice) (hwhole : msg.whole = true) :
    op.storeBuckets msg = some (if rest = [] then
        .complete { op.stored (received ++ slice) rest with phase := .inventoryActive }
      else .waiting (op.stored (received ++ slice) rest)) := by
  unfold UnionOperation.storeBuckets
  rw [hbuckets, hwhole, if_neg (by simp [hslice]), h.remoteIbf, bind_some,
    h.ibfBucketsReceived, readSlice_next hslice, map_some]
  have hlast : received.length + slice.length =
      (⟨seIbfHashNum, received ++ slice ++ replicate rest.length ⟨0, 0, 0⟩⟩ :
        InvertibleBloomFilter).size ↔ rest = [] := by
    simp [size]
  rw [if_congr hlast rfl rfl, UnionOperation.stored, length_append]

/-! ## A filter on its way -/

structure Outgoing (env : UnionEnv) (op : UnionOperation) (ibfOrder : Nat)
    (ibf : InvertibleBloomFilter) : Prop where
  localIbf : op.localIbf = some ibf
  size : ibf.size = 2 ^ ibfOrder
  hashNum : ibf.hashNum = seIbfHashNum
  order : 2 ≤ ibfOrder ∧ ibfOrder ≤ maxIbfOrder
  built : ∃ sent, sent <+: op.known ∧ Built env sent op.saltSend ibf

inductive Incoming (op : UnionOperation) (pending : List P2PMessage) (ibfOrder : Nat)
    (salt : BitVec 32) (ibf : InvertibleBloomFilter) : Prop
  | waiting {before after : List P2PMessage}
      (hpending : pending = before ++ (slicesFrom ibfOrder salt 0 ibf.buckets ++ after))
      (hbefore : NoIbf before) (hafter : NoIbf after)
      (hphase : op.phase ≠ .expectIbfCont) (hremoteIbf : op.remoteIbf = none)
  | started {received rest : List Bucket} {after : List P2PMessage}
      (hpending : pending = slicesFrom ibfOrder salt received.length rest ++ after)
      (hafter : NoIbf after) (hibf : ibf.buckets = received ++ rest) (hrest : rest ≠ [])
      (hholds : op.Holds received rest salt)

def Idle (op : UnionOperation) (pending : List P2PMessage) : Prop :=
  op.destroyed = true ∨ NoIbf pending ∧ op.phase ≠ .expectIbfCont ∧ op.remoteIbf = none

structure Towards (env : UnionEnv) (sender receiver : UnionOperation)
    (pending back : List P2PMessage) : Prop where
  filter : ∃ ibfOrder ibf, Outgoing env sender ibfOrder ibf ∧
    Incoming receiver pending ibfOrder sender.saltSend ibf
  alive : receiver.destroyed = false
  idle : Idle sender back

variable {more pending : List P2PMessage}

theorem Idle.append (h : Idle op pending) (hmore : NoIbf more) : Idle op (pending ++ more) := by
  rcases h with hdestroyed | ⟨hpending, hrest⟩
  · exact .inl hdestroyed
  · exact .inr ⟨hpending.append hmore, hrest⟩

theorem Idle.tail (h : Idle op (message :: pending)) : Idle op pending := by
  rcases h with hdestroyed | ⟨hpending, hrest⟩
  · exact .inl hdestroyed
  · exact .inr ⟨fun m hm => hpending m (mem_cons_of_mem message hm), hrest⟩

theorem Idle.free (h : Idle op pending) (halive : op.destroyed = false) :
    NoIbf pending ∧ op.phase ≠ .expectIbfCont ∧ op.remoteIbf = none :=
  h.resolve_left (by simp [halive])

theorem Idle.ofSteady (h : Idle op pending) (halive : op.destroyed = false)
    (hsteady : op.Steady op') : Idle op' pending := by
  obtain ⟨hpending, hphase, hremoteIbf⟩ := h.free halive
  refine .inr ⟨hpending, fun hcont => hphase (hsteady.phase.mp hcont), ?_⟩
  rw [hsteady.remoteIbf, hremoteIbf]

theorem Idle.not_isIbf (h : Idle op (message :: pending)) (halive : op.destroyed = false) :
    message.isIbf = false :=
  (h.free halive).1 message mem_cons_self

variable {ibfOrder : Nat} {ibf : InvertibleBloomFilter}

theorem Outgoing.ofSteady (h : Outgoing env op ibfOrder ibf) (hsteady : op.Steady op') :
    Outgoing env op' ibfOrder ibf where
  localIbf := hsteady.localIbf.trans h.localIbf
  size := h.size
  hashNum := h.hashNum
  order := h.order
  built := by
    obtain ⟨sent, hsent, hbuilt⟩ := h.built
    refine ⟨sent, hsent.trans hsteady.known, ?_⟩
    rw [hsteady.saltSend]
    exact hbuilt

theorem Incoming.append (h : Incoming op pending ibfOrder salt ibf) (hmore : NoIbf more) :
    Incoming op (pending ++ more) ibfOrder salt ibf := by
  cases h with
  | waiting hpending hbefore hafter hphase hremoteIbf =>
    refine .waiting ?_ hbefore (hafter.append hmore) hphase hremoteIbf
    rw [hpending, append_assoc, append_assoc]
  | started hpending hafter hibf hrest hholds =>
    refine .started ?_ (hafter.append hmore) hibf hrest hholds
    rw [hpending, append_assoc]

theorem slicesFrom_ne_nil (hrest : rest ≠ []) (ibfOrder : Nat) (salt : BitVec 32) (received : Nat) :
    ∃ msg more, slicesFrom ibfOrder salt received rest = .ibf msg :: more :=
  ⟨_, _, slicesFrom_eq hrest ibfOrder salt received⟩

theorem Incoming.skip (h : Incoming op (message :: pending) ibfOrder salt ibf)
    (hibf : ibf.buckets ≠ []) (hmessage : message.isIbf = false) (hsteady : op.Steady op') :
    Incoming op' pending ibfOrder salt ibf := by
  cases h with
  | @waiting before after hpending hbefore hafter hphase hremoteIbf =>
    cases before with
    | nil =>
      obtain ⟨msg, more, hslices⟩ := slicesFrom_ne_nil hibf ibfOrder salt 0
      rw [hslices] at hpending
      cases hpending
      cases hmessage
    | cons first before =>
      obtain ⟨rfl, rfl⟩ := cons.inj hpending
      refine .waiting rfl (fun m hm => hbefore m (mem_cons_of_mem _ hm)) hafter
        (fun hcont => hphase (hsteady.phase.mp hcont)) ?_
      rw [hsteady.remoteIbf, hremoteIbf]
  | @started received rest after hpending hafter hbuckets hrest hholds =>
    obtain ⟨_, _, hslices⟩ := slicesFrom_ne_nil hrest ibfOrder salt received.length
    rw [hslices] at hpending
    cases hpending
    cases hmessage

/-- Only what concerns the filter that is received has changed. -/
def Receives (op next : UnionOperation) : Prop :=
  next =
    { op with
      phase := next.phase
      remoteIbf := next.remoteIbf
      saltReceive := next.saltReceive
      ibfBucketsReceived := next.ibfBucketsReceived }

inductive Advanced (op : UnionOperation) (pending : List P2PMessage) (ibfOrder : Nat)
    (salt : BitVec 32) (ibf : InvertibleBloomFilter) : IbfProgress → Prop
  | refused : Advanced op pending ibfOrder salt ibf (.refused op)
  | waiting {next : UnionOperation} (hreceives : op.Receives next)
      (hincoming : Incoming next pending ibfOrder salt ibf)
      (hphase : next.phase = .expectIbfCont) :
      Advanced op pending ibfOrder salt ibf (.waiting next)
  | complete {next : UnionOperation} (hreceives : op.Receives next)
      (hpending : NoIbf pending) (hphase : next.phase = .inventoryActive)
      (hremoteIbf : next.remoteIbf = some ibf) (hsalt : next.saltReceive = salt) :
      Advanced op pending ibfOrder salt ibf (.complete next)

theorem Holds.advanced {after : List P2PMessage} {first : UnionOperation}
    (h : op.Holds received rest salt) (hreceives : first.Receives op)
    (hibf : ibf.buckets = received ++ rest) (hhashNum : ibf.hashNum = seIbfHashNum)
    (hrest : rest ≠ []) (hafter : NoIbf after)
    (hpending : .ibf msg :: pending = slicesFrom ibfOrder salt received.length rest ++ after)
    (hstore : op.storeBuckets msg = some progress) :
    Advanced first pending ibfOrder salt ibf progress := by
  rw [slicesFrom_eq hrest, cons_append] at hpending
  obtain ⟨hmsg, rfl⟩ := cons.inj hpending
  cases hmsg
  have hsplit := take_append_drop maxBucketsPerMessage rest
  have hslice : rest.take maxBucketsPerMessage ≠ [] := by
    intro hnil
    rcases take_eq_nil_iff.mp hnil with hzero | hnil
    · exact absurd hzero (by decide)
    · exact hrest hnil
  rw [← hsplit] at h
  rw [h.storeBuckets hslice rfl rfl] at hstore
  obtain rfl := Option.some.inj hstore
  split
  next hlast =>
    rw [hlast, append_nil] at hsplit
    refine .complete ?_ ?_ rfl ?_ h.saltReceive
    · rw [hreceives]
      rfl
    · rw [hlast, slicesFrom_nil]
      exact hafter
    · rw [hlast, hsplit, ← hibf]
      change some ⟨seIbfHashNum, ibf.buckets ++ []⟩ = some ibf
      rw [append_nil, ← hhashNum]
  next hmore =>
    refine .waiting ?_ (.started ?_ hafter ?_ hmore (h.stored _)) h.phase
    · rw [hreceives]
      rfl
    · rw [length_append]
    · rw [hibf, append_assoc, hsplit]

theorem Incoming.advanced
    (h : Incoming op (.ibf msg :: pending) ibfOrder salt ibf) (hsize : ibf.size = 2 ^ ibfOrder)
    (hhashNum : ibf.hashNum = seIbfHashNum) (hstore : op.storeIbf env msg = some progress) :
    Advanced op pending ibfOrder salt ibf progress := by
  have hbuckets : ibf.buckets ≠ [] := by
    intro hnil
    have hzero : ibf.size = 0 := by rw [size, hnil, length_nil]
    have := Nat.two_pow_pos ibfOrder
    omega
  cases h with
  | @waiting before after hpending hbefore hafter hphase hremoteIbf =>
    cases before with
    | cons first before =>
      obtain ⟨rfl, -⟩ := cons.inj hpending
      exact absurd (hbefore _ mem_cons_self) (by simp [P2PMessage.isIbf])
    | nil =>
      unfold storeIbf at hstore
      split at hstore
      · split at hstore
        · cases hstore
        · split at hstore
          · cases hstore
            exact .refused
          · have hmsg := hpending
            rw [slicesFrom_eq hbuckets] at hmsg
            have horder : msg.order = ibfOrder := by cases hmsg; rfl
            have hsalt : msg.salt = salt := by cases hmsg; rfl
            have hbegin : (op.beginIbf msg).Holds [] ibf.buckets salt := by
              refine ⟨rfl, ?_, rfl, hsalt⟩
              change some _ = _
              rw [horder, ← hsize]
              rfl
            exact hbegin.advanced rfl rfl hhashNum hbuckets hafter hpending hstore
      · cases hstore
  | @started received rest after hpending hafter hibf hrest hholds =>
    unfold storeIbf at hstore
    rw [if_neg (by simp [hholds.phase]), if_pos hholds.phase] at hstore
    split at hstore
    · cases hstore
      exact .refused
    · split at hstore
      · cases hstore
      · rw [hholds.remoteIbf, bind_some] at hstore
        split at hstore
        · cases hstore
          exact .refused
        · exact hholds.advanced rfl hibf hhashNum hrest hafter hpending hstore

/-! ## One message -/

theorem steady_sendFullSet (op : UnionOperation) (hphase : op.phase = .expectSe) :
    op.Steady (op.sendFullSet env view) := by
  have hfull : op.Steady { op with phase := .fullSending } :=
    .ofPhase .fullSending (by simp [hphase]) (by simp) (by simp)
  exact hfull.trans ((steady_transmit _ _ fun _ => rfl).trans (steady_send (.single rfl) _))

/-- Any message that is not part of a filter leaves the filters alone, apart from
the strata estimator that makes the initiator send the first one. -/
theorem steady_message (hview : ∀ e ∈ view.elements, (view.isElementOfOperation e).isSome)
    (halive : op.destroyed = false) (hmessage : message.isIbf = false)
    (hstep : op.unionHandleP2pMessage env view message = some op') :
    op.Steady op' ∨ op.phase = .expectSe ∧ ∃ ibfOrder ibf,
      (2 ≤ ibfOrder ∧ ibfOrder ≤ maxIbfOrder) ∧ SentIbf env op op' ibfOrder ibf := by
  unfold unionHandleP2pMessage at hstep
  rw [if_neg (by simp [halive])] at hstep
  cases message with
  | strataEstimator diff =>
    dsimp only at hstep
    unfold handleP2pStrataEstimator at hstep
    split at hstep
    · cases hstep
      exact .inl (steady_fail op)
    next hphase =>
      rw [not_not] at hphase
      split at hstep
      · cases hstep
        exact .inl (steady_sendFullSet op hphase)
      · obtain ⟨ibfOrder, horder, hstep⟩ := bind_eq_some_iff.mp hstep
        have hbounds := getOrderFromDifference_bounds horder
        obtain ⟨_, hsend, hsent⟩ := sendIbf_isSome env (.inl hbounds.1)
        rw [hsend] at hstep
        cases hstep
        rcases hsent with rfl | ⟨ibf, hsent⟩
        · exact .inl (steady_fail op)
        · exact .inr ⟨hphase, ibfOrder, ibf, hbounds, hsent⟩
  | ibf msg => cases hmessage
  | elements emsg =>
    cases hstep
    exact .inl (steady_handleP2pElements op emsg)
  | fullElement emsg =>
    cases hstep
    exact .inl (steady_handleP2pFullElement op emsg)
  | inquiry salt keys =>
    cases hstep
    exact .inl (steady_handleP2pInquiry op salt keys)
  | offer hashes =>
    obtain ⟨next, hnext, hsteady⟩ := handleP2pOffer_isSome hview
    dsimp only at hstep
    rw [hnext] at hstep
    cases hstep
    exact .inl hsteady
  | demand hashes =>
    obtain ⟨_, hnext, hsteady, -⟩ := handleP2pDemand_isSome hview
    dsimp only at hstep
    rw [hnext] at hstep
    cases hstep
    exact .inl hsteady
  | done =>
    cases hstep
    exact .inl (steady_handleP2pDone op)
  | fullDone =>
    cases hstep
    exact .inl (steady_handleP2pFullDone op)
  | malformed =>
    cases hstep
    exact .inl (steady_fail op)

/-- Only an operation that waits for a strata estimator starts to send a filter. -/
theorem steady_message_of_begun (hview : ∀ e ∈ view.elements, (view.isElementOfOperation e).isSome)
    (halive : op.destroyed = false) (hmessage : message.isIbf = false)
    (hbegun : op.phase ≠ .expectSe) (hstep : op.unionHandleP2pMessage env view message = some op') :
    op.Steady op' := by
  rcases steady_message hview halive hmessage hstep with hsteady | ⟨hphase, -⟩
  · exact hsteady
  · exact absurd hphase hbegun

theorem eq_of_destroyed (hgone : op.destroyed = true)
    (hstep : op.unionHandleP2pMessage env view message = some op') : op = op' := by
  unfold unionHandleP2pMessage at hstep
  rw [if_pos hgone] at hstep
  exact Option.some.inj hstep

variable {receiver : UnionOperation} {back : List P2PMessage}

theorem SentIbf.towards (h : SentIbf env op op' ibfOrder ibf)
    (horder : 2 ≤ ibfOrder ∧ ibfOrder ≤ maxIbfOrder) (hpending : NoIbf pending)
    (hbefore : NoIbf before) (hreceiver : Idle receiver pending)
    (halive : receiver.destroyed = false) (hidle : Idle op' back) : Towards env op' receiver
      (pending ++ (before ++ ibfMessages ibfOrder op.saltSend ibf)) back := by
  obtain ⟨-, hphase, hremoteIbf⟩ := hreceiver.free halive
  refine ⟨⟨ibfOrder, ibf, ?_, ?_⟩, halive, hidle⟩
  · have hsame := h.same
    refine ⟨by rw [hsame], h.size, h.hashNum, horder, op.known, ?_, ?_⟩
    · rw [hsame]
      exact prefix_rfl
    · rw [hsame]
      exact h.built
  · refine .waiting ?_ (hpending.append hbefore) .nil hphase hremoteIbf
    rw [h.same, ibfMessages_eq, append_nil, append_assoc]

theorem Towards.tail (h : Towards env op receiver pending (message :: back)) :
    Towards env op receiver pending back :=
  ⟨h.filter, h.alive, h.idle.tail⟩

theorem Towards.ofSteady (h : Towards env op receiver pending back) (hsteady : op.Steady op')
    (hidle : Idle op' back) (hmore : NoIbf more) :
    Towards env op' receiver (pending ++ more) back := by
  obtain ⟨ibfOrder, ibf, hout, hin⟩ := h.filter
  refine ⟨⟨ibfOrder, ibf, hout.ofSteady hsteady, ?_⟩, h.alive, hidle⟩
  rw [hsteady.saltSend]
  exact hin.append hmore

/-- What becomes of the receiver of a filter, and of the messages that it sends
back, with one message. -/
inductive Turn (env senderEnv : UnionEnv) (sender op op' : UnionOperation)
    (pending back : List P2PMessage) : Prop
  | goes (htowards : Towards senderEnv sender op' pending back)
      (hsalt : op'.saltSend = op.saltSend)
  | rests (hidle : Idle op' pending) (hsender : Idle sender back)
  | replies (hidle : Idle op' pending) (hsalt : op'.saltSend = op.saltSend + 1)
      (hback : sender.destroyed = true ∨ Towards env op' sender back pending)

def Begun (op : UnionOperation) : Prop :=
  op.destroyed = false → op.phase ≠ .expectSe

theorem Begun.of_destroyed (hgone : op.destroyed = true) : op.Begun := by
  intro halive
  rw [hgone] at halive
  cases halive

theorem Begun.ofSteady (h : op.phase ≠ .expectSe) (hsteady : op.Steady op') : op'.Begun :=
  fun _ hphase => h (hsteady.expectSe hphase)

variable {senderEnv : UnionEnv} {sender : UnionOperation}

theorem Answered.turn {next : UnionOperation} {localIbf : Option InvertibleBloomFilter}
    (h : Answered env (2 ^ ibfOrder) { next with localIbf := localIbf, remoteIbf := none } op')
    (horder : 2 ≤ ibfOrder) (hphase : next.phase = .inventoryActive) (hpending : NoIbf pending)
    (hsender : Idle sender back) :
    op'.Begun ∧ ∃ new, op'.mq = next.mq ++ new ∧
      Turn env senderEnv sender next op' pending (back ++ new) := by
  cases h with
  | ended hended hsent =>
    obtain ⟨messages, hmq, hmessages⟩ := hsent
    refine ⟨fun halive => ?_, messages, hmq, .rests (.inl hended) (hsender.append hmessages)⟩
    rw [hended] at halive
    cases halive
  | answered hsteady =>
    obtain ⟨messages, hmq, hmessages⟩ := hsteady.sent
    refine ⟨.ofSteady (by simp [hphase]) hsteady, messages, hmq,
      .rests (.inr ⟨hpending, ?_, hsteady.remoteIbf⟩) (hsender.append hmessages)⟩
    rw [ne_eq, hsteady.phase]
    simp [hphase]
  | @retried mid ibf hsteady hle hsent =>
    obtain ⟨messages, hmq, hmessages⟩ := hsteady.sent
    have hsame := hsent.same
    have hidle : Idle op' pending := by
      refine .inr ⟨hpending, ?_, ?_⟩
      · rw [hsame]
        simp
      · rw [hsame]
        exact hsteady.remoteIbf
    refine ⟨fun _ => by rw [hsame]; simp,
      messages ++ ibfMessages (Nat.clog 2 (2 ^ ibfOrder) + 1) (mid.saltSend + 1) ibf, ?_,
      .replies hidle ?_ ?_⟩
    · rw [hsame]
      rw [hmq, append_assoc]
    · rw [hsame]
      exact congrArg (· + 1) hsteady.saltSend
    · cases hdestroyed : sender.destroyed with
      | true => exact .inl rfl
      | false =>
        have hback : NoIbf back := by
          rcases hsender with h | h
          · rw [hdestroyed] at h
            cases h
          · exact h.1
        have hclog : Nat.clog 2 (2 ^ ibfOrder) = ibfOrder := Nat.clog_pow 2 ibfOrder (by omega)
        exact .inr (hsent.towards ⟨by omega, hle⟩ hback hmessages hsender hdestroyed hidle)

theorem Turn.ofReceives {next : UnionOperation} (hreceives : op.Receives next)
    (h : Turn env senderEnv sender next op' pending back) :
    Turn env senderEnv sender op op' pending back := by
  have hsalt : next.saltSend = op.saltSend := by rw [hreceives]
  cases h with
  | goes htowards hsame => exact .goes htowards (hsame.trans hsalt)
  | rests hidle hsender => exact .rests hidle hsender
  | replies hidle hnext hback => exact .replies hidle (by rw [hnext, hsalt]) hback

theorem Towards.receive (hview : ∀ e ∈ view.elements, (view.isElementOfOperation e).isSome)
    (h : Towards senderEnv sender op (message :: pending) back) (hbegun : op.phase ≠ .expectSe)
    (hstep : op.unionHandleP2pMessage env view message = some op') :
    op'.Begun ∧ ∃ new, op'.mq = op.mq ++ new ∧
      Turn env senderEnv sender op op' pending (back ++ new) := by
  obtain ⟨ibfOrder, ibf, hout, hin⟩ := h.filter
  have hpower := Nat.two_pow_pos ibfOrder
  have hbuckets : ibf.buckets ≠ [] := by
    intro hnil
    have hzero : ibf.size = 0 := by rw [size, hnil, length_nil]
    have := hout.size
    omega
  cases hmessage : message.isIbf with
  | false =>
    have hsteady := steady_message_of_begun hview h.alive hmessage hbegun hstep
    obtain ⟨messages, hmq, hmessages⟩ := hsteady.sent
    refine ⟨.ofSteady hbegun hsteady, messages, hmq, ?_⟩
    have hsender := h.idle.append hmessages
    cases hdestroyed : op'.destroyed with
    | true => exact .rests (.inl hdestroyed) hsender
    | false =>
      refine .goes ⟨⟨ibfOrder, ibf, hout, ?_⟩, hdestroyed, hsender⟩ hsteady.saltSend
      exact hin.skip hbuckets hmessage hsteady
  | true =>
    cases message with
    | ibf msg =>
      have hibf : op.handleP2pIbf env msg = some op' := by
        unfold unionHandleP2pMessage at hstep
        rwa [if_neg (by simp [h.alive])] at hstep
      rw [handleP2pIbf_eq] at hibf
      obtain ⟨_, hstore, hfinish⟩ := bind_eq_some_iff.mp hibf
      cases hin.advanced hout.size hout.hashNum hstore with
      | refused =>
        cases hfinish
        refine ⟨by simp [Begun, failUnionOperation], [], (append_nil _).symm, ?_⟩
        rw [append_nil]
        exact .rests (.inl rfl) h.idle
      | @waiting next hreceives hincoming hphase =>
        have hsame : next = op' := Option.some.inj hfinish
        subst hsame
        have hdestroyed : next.destroyed = false := by
          rw [hreceives]
          exact h.alive
        refine ⟨fun _ => by simp [hphase], [], ?_, ?_⟩
        · rw [hreceives, append_nil]
        · rw [append_nil]
          refine .goes ⟨⟨ibfOrder, ibf, hout, hincoming⟩, hdestroyed, h.idle⟩ ?_
          rw [hreceives]
      | @complete next hreceives hpending hphase hremoteIbf hsalt =>
        have hroom : seIbfHashNum ≤ ibf.size ∨ next.keyToElement = [] := by
          rw [hout.size]
          exact .inl (seIbfHashNum_le hout.order.1)
        obtain ⟨final, _, hfinal, hanswered⟩ := decodeAndSend_isSome env
          hremoteIbf hout.hashNum (by rw [hout.size]; exact hpower) hroom
        have hsame : final = op' := Option.some.inj (hfinal.symm.trans hfinish)
        rw [hsame, hout.size] at hanswered
        obtain ⟨hbegun', new, hmq, hturn⟩ := hanswered.turn hout.order.1 hphase hpending h.idle
        refine ⟨hbegun', new, ?_, hturn.ofReceives hreceives⟩
        rw [hmq, hreceives]
    | _ => cases hmessage

noncomputable def saltedKeys (env : UnionEnv) (elements : List Element)
    (salt : BitVec 32) : BitVec 64 →₀ ℤ :=
  (elements.map fun e => Finsupp.single (saltKey (env.getIbfKey e) salt) 1).sum

variable {elements : List Element}

theorem foldlM_insert_holding {env : UnionEnv} {size hashNum : Nat} (keys : BitVec 64 →₀ ℤ)
    (hinsert : elements.foldlM (fun (ibf : InvertibleBloomFilter) e =>
        ibf.insert env.hashing (saltKey (env.getIbfKey e) salt))
      (.holding env.hashing size hashNum keys) = some ibf) :
    ibf = .holding env.hashing size hashNum (keys + saltedKeys env elements salt) := by
  induction elements generalizing keys with
  | nil =>
    cases hinsert
    simp [saltedKeys]
  | cons e elements ih =>
    rw [foldlM_cons] at hinsert
    obtain ⟨_, hnext, hrest⟩ := bind_eq_some_iff.mp hinsert
    have hle := (Option.ite_none_right_eq_some.mp hnext).1
    rw [size_holding, hashNum_holding] at hle
    rw [insert_holding hle] at hnext
    cases hnext
    rw [ih _ hrest, add_assoc]
    simp [saltedKeys]

theorem Built.eq_holding (h : Built env elements salt ibf) :
    ibf = .holding env.hashing ibf.size seIbfHashNum (saltedKeys env elements salt) := by
  have hempty : (⟨seIbfHashNum, replicate ibf.size ⟨0, 0, 0⟩⟩ :
      InvertibleBloomFilter) = .holding env.hashing ibf.size seIbfHashNum 0 := by
    rw [holding, LinearSketch.encode_zero]
    rfl
  unfold Built at h
  rw [hempty] at h
  have hibf := foldlM_insert_holding 0 h
  rwa [zero_add] at hibf

theorem Built.subtract_isEmpty (h : Built env elements salt ibf)
    (h' : Built env' others salt ibf') (hsize : ibf.size = ibf'.size)
    (hhashing : env.hashing = env'.hashing) (hkeys : env.getIbfKey = env'.getIbfKey)
    (hperm : elements.Perm others) :
    ∃ diffIbf, ibf.subtract ibf' = some diffIbf ∧ diffIbf.isEmpty = true := by
  have hsum : saltedKeys env elements salt = saltedKeys env' others salt := by
    unfold saltedKeys
    rw [hkeys]
    exact (hperm.map _).sum_eq
  rw [h.eq_holding, h'.eq_holding, hsize, hhashing, hsum, subtract_holding]
  refine ⟨_, rfl, ?_⟩
  rw [sub_self, holding, LinearSketch.encode_zero]
  refine all_eq_true.mpr fun bucket hbucket => ?_
  rw [eq_of_mem_replicate hbucket]
  rfl

theorem built_of_prepareIbf {op : UnionOperation} {size : Nat} (hsize : 0 < size)
    (hroom : seIbfHashNum ≤ size) (hprepare : op.prepareIbf env size = some (some ibf)) :
    ibf.size = size ∧ Built env op.known op.saltSend ibf := by
  obtain ⟨ibf?, hibf, hparameters⟩ := prepareIbf_isSome env hsize (.inl hroom)
  rw [hprepare] at hibf
  cases hibf
  obtain ⟨hibfSize, -, hbuilt⟩ := hparameters ibf rfl
  exact ⟨hibfSize, hbuilt⟩

end UnionOperation

/-! ## Two peers -/

namespace UnionExchange

open UnionOperation

variable {ini acc : UnionPeer} {s next : UnionExchange}

def pendingInitiator (s : UnionExchange) : List P2PMessage :=
  s.acceptor.mq.drop s.atInitiator

def pendingAcceptor (s : UnionExchange) : List P2PMessage :=
  s.initiator.mq.drop s.atAcceptor

/-- Where the filter of the exchange is, and how the salts differ. -/
inductive FilterStage (ini acc : UnionPeer) (s : UnionExchange) : Prop
  | quiet (hinitiator : Idle s.initiator s.pendingInitiator)
      (hacceptor : Idle s.acceptor s.pendingAcceptor)
      (hsalt : s.initiator.destroyed = false → s.initiator.phase = .expectSe →
        s.acceptor.saltSend = s.initiator.saltSend)
  | toAcceptor
      (htowards : Towards ini.env s.initiator s.acceptor s.pendingAcceptor s.pendingInitiator)
      (hsalt : s.acceptor.saltSend = s.initiator.saltSend) (hbegun : s.initiator.Begun)
  | toInitiator
      (htowards : Towards acc.env s.acceptor s.initiator s.pendingInitiator s.pendingAcceptor)
      (hsalt : s.acceptor.saltSend = s.initiator.saltSend + 1) (hbegun : s.initiator.Begun)

theorem FilterStage.quiet_of_begun (hinitiator : Idle s.initiator s.pendingInitiator)
    (hacceptor : Idle s.acceptor s.pendingAcceptor) (hbegun : s.initiator.Begun) :
    FilterStage ini acc s :=
  .quiet hinitiator hacceptor fun halive hphase => absurd hphase (hbegun halive)

structure Salted (ini acc : UnionPeer) (s : UnionExchange) : Prop where
  atInitiator : s.atInitiator ≤ s.acceptor.mq.length
  atAcceptor : s.atAcceptor ≤ s.initiator.mq.length
  begun : s.acceptor.Begun
  stage : FilterStage ini acc s

theorem drop_eq_cons {mq : List P2PMessage} (hmessage : mq[n]? = some message) :
    mq.drop n = message :: mq.drop (n + 1) := by
  obtain ⟨hlt, rfl⟩ := List.getElem?_eq_some_iff.mp hmessage
  exact drop_eq_getElem_cons hlt

theorem Salted.afterToInitiator
    (hview : ∀ e ∈ ini.view.elements, (ini.view.isElementOfOperation e).isSome)
    (h : Salted ini acc s) (hstep : step ini acc s .toInitiator = some next) :
    Salted ini acc next := by
  obtain ⟨_, hmessage, hop⟩ := bind_eq_some_iff.mp hstep
  obtain ⟨op', hop', rfl⟩ := map_eq_some_iff.mp hop
  have hpending : s.pendingInitiator = _ := drop_eq_cons hmessage
  have hlt : s.atInitiator < s.acceptor.mq.length := (List.getElem?_eq_some_iff.mp hmessage).1
  have hdrop (new : List P2PMessage) : (s.initiator.mq ++ new).drop s.atAcceptor =
      s.pendingAcceptor ++ new :=
    drop_append_of_le_length h.atAcceptor
  have hsalted (new : List P2PMessage) (hmq : op'.mq = s.initiator.mq ++ new)
      (hstage : FilterStage ini acc { s with initiator := op', atInitiator := s.atInitiator + 1 }) :
      Salted ini acc { s with initiator := op', atInitiator := s.atInitiator + 1 } := by
    refine ⟨hlt, ?_, h.begun, hstage⟩
    have := h.atAcceptor
    simp only [hmq, length_append]
    omega
  cases hdestroyed : s.initiator.destroyed with
  | true =>
    obtain rfl := eq_of_destroyed hdestroyed hop'
    refine hsalted [] (append_nil _).symm ?_
    cases h.stage with
    | quiet hinitiator hacceptor hsalt =>
      rw [hpending] at hinitiator
      exact .quiet hinitiator.tail hacceptor hsalt
    | toAcceptor htowards hsalt hbegun =>
      rw [hpending] at htowards
      exact .toAcceptor htowards.tail hsalt hbegun
    | toInitiator htowards hsalt hbegun =>
      rw [htowards.alive] at hdestroyed
      cases hdestroyed
  | false =>
    cases h.stage with
    | quiet hinitiator hacceptor hsalt =>
      rw [hpending] at hinitiator
      have hnoIbf := hinitiator.not_isIbf hdestroyed
      rcases steady_message hview hdestroyed hnoIbf hop' with
        hsteady | ⟨hphase, ibfOrder, ibf, hbounds, hsent⟩
      · obtain ⟨new, hmq, hnew⟩ := hsteady.sent
        refine hsalted new hmq (.quiet (hinitiator.ofSteady hdestroyed hsteady).tail ?_ ?_)
        · change Idle s.acceptor (op'.mq.drop s.atAcceptor)
          rw [hmq, hdrop]
          exact hacceptor.append hnew
        · intro _ hphase
          exact (hsalt hdestroyed (hsteady.expectSe hphase)).trans hsteady.saltSend.symm
      · have hsame := hsent.same
        have hmq : op'.mq = s.initiator.mq ++ ibfMessages ibfOrder s.initiator.saltSend ibf := by
          rw [hsame]
        have hpassive : op'.phase = .inventoryPassive := by rw [hsame]
        have hsaltSend : op'.saltSend = s.initiator.saltSend := by rw [hsame]
        have hidle : Idle op' (s.acceptor.mq.drop (s.atInitiator + 1)) := by
          obtain ⟨hrest, -, hremoteIbf⟩ := hinitiator.tail.free hdestroyed
          refine .inr ⟨hrest, by simp [hpassive], ?_⟩
          rw [hsame]
          exact hremoteIbf
        refine hsalted _ hmq ?_
        cases hacceptorDestroyed : s.acceptor.destroyed with
        | true =>
          exact .quiet hidle (.inl hacceptorDestroyed) (by simp [hpassive])
        | false =>
          have hfree := (hacceptor.free hacceptorDestroyed).1
          have htowards := hsent.towards hbounds hfree .nil hacceptor hacceptorDestroyed hidle
          rw [nil_append, ← hdrop, ← hmq] at htowards
          refine .toAcceptor htowards ?_ (fun _ => by simp [hpassive])
          exact (hsalt hdestroyed hphase).trans hsaltSend.symm
    | toAcceptor htowards hsalt hbegun =>
      rw [hpending] at htowards
      have hnoIbf := htowards.idle.not_isIbf hdestroyed
      have hbegun' := hbegun hdestroyed
      have hsteady := steady_message_of_begun hview hdestroyed hnoIbf hbegun' hop'
      obtain ⟨new, hmq, hnew⟩ := hsteady.sent
      have hidle := (htowards.idle.ofSteady hdestroyed hsteady).tail
      have hnext := htowards.tail.ofSteady hsteady hidle hnew
      rw [← hdrop, ← hmq] at hnext
      exact hsalted new hmq (.toAcceptor hnext (hsalt.trans hsteady.saltSend.symm)
        (.ofSteady hbegun' hsteady))
    | toInitiator htowards hsalt hbegun =>
      rw [hpending] at htowards
      obtain ⟨hbegun', new, hmq, hturn⟩ := htowards.receive hview (hbegun hdestroyed) hop'
      rw [← hdrop, ← hmq] at hturn
      refine hsalted new hmq ?_
      cases hturn with
      | goes htowards hsame =>
        exact .toInitiator htowards (by rw [hsalt, hsame]) hbegun'
      | rests hidle hacceptor =>
        exact .quiet_of_begun hidle hacceptor hbegun'
      | replies hidle hnext hback =>
        rcases hback with hgone | htowards
        · exact .quiet_of_begun hidle (.inl hgone) hbegun'
        · exact .toAcceptor htowards (hsalt.trans hnext.symm) hbegun'

theorem Salted.afterToAcceptor
    (hview : ∀ e ∈ acc.view.elements, (acc.view.isElementOfOperation e).isSome)
    (h : Salted ini acc s) (hstep : step ini acc s .toAcceptor = some next) :
    Salted ini acc next := by
  obtain ⟨_, hmessage, hop⟩ := bind_eq_some_iff.mp hstep
  obtain ⟨op', hop', rfl⟩ := map_eq_some_iff.mp hop
  have hpending : s.pendingAcceptor = _ := drop_eq_cons hmessage
  have hlt : s.atAcceptor < s.initiator.mq.length := (List.getElem?_eq_some_iff.mp hmessage).1
  have hdrop (new : List P2PMessage) : (s.acceptor.mq ++ new).drop s.atInitiator =
      s.pendingInitiator ++ new :=
    drop_append_of_le_length h.atInitiator
  have hsalted (new : List P2PMessage) (hmq : op'.mq = s.acceptor.mq ++ new) (hbegun : op'.Begun)
      (hstage : FilterStage ini acc { s with acceptor := op', atAcceptor := s.atAcceptor + 1 }) :
      Salted ini acc { s with acceptor := op', atAcceptor := s.atAcceptor + 1 } := by
    refine ⟨?_, hlt, hbegun, hstage⟩
    have := h.atInitiator
    simp only [hmq, length_append]
    omega
  cases hdestroyed : s.acceptor.destroyed with
  | true =>
    obtain rfl := eq_of_destroyed hdestroyed hop'
    refine hsalted [] (append_nil _).symm h.begun ?_
    cases h.stage with
    | quiet hinitiator hacceptor hsalt =>
      rw [hpending] at hacceptor
      exact .quiet hinitiator hacceptor.tail hsalt
    | toAcceptor htowards hsalt hbegun =>
      rw [htowards.alive] at hdestroyed
      cases hdestroyed
    | toInitiator htowards hsalt hbegun =>
      rw [hpending] at htowards
      exact .toInitiator htowards.tail hsalt hbegun
  | false =>
    have hbegun := h.begun hdestroyed
    cases h.stage with
    | quiet hinitiator hacceptor hsalt =>
      rw [hpending] at hacceptor
      have hnoIbf := hacceptor.not_isIbf hdestroyed
      have hsteady := steady_message_of_begun hview hdestroyed hnoIbf hbegun hop'
      obtain ⟨new, hmq, hnew⟩ := hsteady.sent
      refine hsalted new hmq (.ofSteady hbegun hsteady)
        (.quiet ?_ (hacceptor.ofSteady hdestroyed hsteady).tail ?_)
      · change Idle s.initiator (op'.mq.drop s.atInitiator)
        rw [hmq, hdrop]
        exact hinitiator.append hnew
      · intro halive hphase
        exact hsteady.saltSend.trans (hsalt halive hphase)
    | toAcceptor htowards hsalt hini =>
      rw [hpending] at htowards
      obtain ⟨hbegun', new, hmq, hturn⟩ := htowards.receive hview hbegun hop'
      rw [← hdrop, ← hmq] at hturn
      refine hsalted new hmq hbegun' ?_
      cases hturn with
      | goes htowards hsame => exact .toAcceptor htowards (hsame.trans hsalt) hini
      | rests hidle hinitiator =>
        exact .quiet_of_begun hinitiator hidle hini
      | replies hidle hnext hback =>
        rcases hback with hgone | htowards
        · exact .quiet_of_begun (.inl hgone) hidle hini
        · exact .toInitiator htowards (by rw [hnext, hsalt]) hini
    | toInitiator htowards hsalt hini =>
      rw [hpending] at htowards
      have hnoIbf := htowards.idle.not_isIbf hdestroyed
      have hsteady := steady_message_of_begun hview hdestroyed hnoIbf hbegun hop'
      obtain ⟨new, hmq, hnew⟩ := hsteady.sent
      have hidle := (htowards.idle.ofSteady hdestroyed hsteady).tail
      have hnext := htowards.tail.ofSteady hsteady hidle hnew
      rw [← hdrop, ← hmq] at hnext
      exact hsalted new hmq (.ofSteady hbegun hsteady)
        (.toInitiator hnext (hsteady.saltSend.trans hsalt) hini)

theorem disconnect_steady {op : UnionOperation} (halive : op.destroyed = false) :
    op.Steady op.unionPeerDisconnect ∧ op.unionPeerDisconnect.destroyed = true ∧
      op.unionPeerDisconnect.mq = op.mq := by
  unfold unionPeerDisconnect
  rw [if_neg (by simp [halive])]
  split
  · exact ⟨steady_sendDoneAndDestroy op, rfl, rfl⟩
  · exact ⟨steady_fail op, rfl, rfl⟩

theorem Salted.afterInitiatorEnd (h : Salted ini acc s)
    (hstep : step ini acc s .initiatorEnd = some next) : Salted ini acc next := by
  simp only [step] at hstep
  split at hstep
  next hend =>
    cases hstep
    obtain ⟨hsteady, hgone, hmq⟩ := disconnect_steady (by simpa using hend.2.2)
    have hpending : s.initiator.unionPeerDisconnect.mq.drop s.atAcceptor = s.pendingAcceptor := by
      rw [hmq]
      rfl
    have hbegun : s.initiator.unionPeerDisconnect.Begun := .of_destroyed hgone
    refine ⟨h.atInitiator, by simpa [hmq] using h.atAcceptor, h.begun, ?_⟩
    cases h.stage with
    | quiet hinitiator hacceptor hsalt =>
      rw [← hpending] at hacceptor
      exact .quiet_of_begun (.inl hgone) hacceptor hbegun
    | toAcceptor htowards hsalt _ =>
      have hnext := htowards.ofSteady hsteady (.inl hgone) .nil
      rw [append_nil, ← hpending] at hnext
      exact .toAcceptor hnext (hsalt.trans hsteady.saltSend.symm) hbegun
    | toInitiator htowards _ _ =>
      have hacceptor := htowards.idle
      rw [← hpending] at hacceptor
      exact .quiet_of_begun (.inl hgone) hacceptor hbegun
  · cases hstep

theorem Salted.afterAcceptorEnd (h : Salted ini acc s)
    (hstep : step ini acc s .acceptorEnd = some next) : Salted ini acc next := by
  simp only [step] at hstep
  split at hstep
  next hend =>
    cases hstep
    obtain ⟨hsteady, hgone, hmq⟩ := disconnect_steady (by simpa using hend.2.2)
    have hpending : s.acceptor.unionPeerDisconnect.mq.drop s.atInitiator = s.pendingInitiator := by
      rw [hmq]
      rfl
    have hbegun : s.acceptor.unionPeerDisconnect.Begun := .of_destroyed hgone
    refine ⟨by simpa [hmq] using h.atInitiator, h.atAcceptor, hbegun, ?_⟩
    cases h.stage with
    | quiet hinitiator hacceptor hsalt =>
      rw [← hpending] at hinitiator
      exact .quiet hinitiator (.inl hgone) fun halive hphase =>
        hsteady.saltSend.trans (hsalt halive hphase)
    | toAcceptor htowards _ hini =>
      have hinitiator := htowards.idle
      rw [← hpending] at hinitiator
      exact .quiet_of_begun hinitiator (.inl hgone) hini
    | toInitiator htowards hsalt hini =>
      have hnext := htowards.ofSteady hsteady (.inl hgone) .nil
      rw [append_nil, ← hpending] at hnext
      exact .toInitiator hnext (hsteady.saltSend.trans hsalt) hini
  · cases hstep

theorem answers_of_initialize (hentries : initializeKeyToElement view candidates = some entries) :
    ∀ e ∈ candidates, (view.isElementOfOperation e).isSome := by
  induction candidates generalizing entries with
  | nil => simp
  | cons element rest ih =>
    obtain ⟨_, hpresent, hrest⟩ := bind_eq_some_iff.mp hentries
    obtain ⟨_, hothers, -⟩ := map_eq_some_iff.mp hrest
    intro e he
    rcases mem_cons.mp he with rfl | he
    · rw [hpresent]
      rfl
    · exact ih hothers e he

theorem salted_start (hstart : start ini acc diff = some first) :
    Salted ini acc first ∧ (∀ e ∈ ini.view.elements, (ini.view.isElementOfOperation e).isSome) ∧
      ∀ e ∈ acc.view.elements, (acc.view.isElementOfOperation e).isSome := by
  obtain ⟨_, hinitiator, hrest⟩ := bind_eq_some_iff.mp hstart
  obtain ⟨_, hacceptor, rfl⟩ := map_eq_some_iff.mp hrest
  obtain ⟨_, hown, rfl⟩ := map_eq_some_iff.mp hinitiator
  obtain ⟨_, hother, rfl⟩ := map_eq_some_iff.mp hacceptor
  refine ⟨⟨Nat.zero_le _, Nat.zero_le _, fun _ => by simp, ?_⟩,
    answers_of_initialize hown, answers_of_initialize hother⟩
  refine .quiet (.inr ⟨.single rfl, by simp [initial], rfl⟩)
    (.inr ⟨.nil, by simp, rfl⟩) fun _ _ => rfl

theorem salted_run (hstart : start ini acc diff = some first)
    (hrun : Run (step ini acc) (fun _ _ => True) first events s) : Salted ini acc s := by
  obtain ⟨hfirst, hini, hacc⟩ := salted_start hstart
  refine hrun.invariant (Salted ini acc) hfirst ?_
  intro before event after hbefore _ hafter
  cases event with
  | toInitiator => exact hbefore.afterToInitiator hini hafter
  | toAcceptor => exact hbefore.afterToAcceptor hacc hafter
  | initiatorEnd => exact hbefore.afterInitiatorEnd hafter
  | acceptorEnd => exact hbefore.afterAcceptorEnd hafter

/-- When a peer decodes a filter, it is the one that the other has sent last, and
the difference of the salts tells which of the two decodes. -/
theorem Salted.decodes_at_acceptor {op : UnionOperation} (h : Salted ini acc s)
    (hmessage : s.initiator.mq[s.atAcceptor]? = some (.ibf msg))
    (halive : s.acceptor.destroyed = false)
    (hstore : s.acceptor.storeIbf acc.env msg = some (.complete op)) :
    ∃ ibfOrder ibf, Outgoing ini.env s.initiator ibfOrder ibf ∧
      op.remoteIbf = some ibf ∧ op.saltReceive = s.initiator.saltSend ∧
      op.saltSend = s.initiator.saltSend := by
  have hpending : s.pendingAcceptor = _ := drop_eq_cons hmessage
  have hbusy : ¬ Idle s.acceptor s.pendingAcceptor := by
    intro hidle
    rw [hpending] at hidle
    exact absurd (hidle.not_isIbf halive) (by simp [P2PMessage.isIbf])
  cases h.stage with
  | quiet _ hacceptor _ => exact absurd hacceptor hbusy
  | toInitiator htowards _ _ => exact absurd htowards.idle hbusy
  | toAcceptor htowards hsalt _ =>
    obtain ⟨ibfOrder, ibf, hout, hin⟩ := htowards.filter
    rw [hpending] at hin
    cases hin.advanced hout.size hout.hashNum hstore with
    | complete hreceives _ _ hremoteIbf hreceived =>
      refine ⟨ibfOrder, ibf, hout, hremoteIbf, hreceived, ?_⟩
      rw [hreceives]
      exact hsalt

/-- The acceptor decodes a filter under the salt that it was built with. -/
theorem acceptor_decodes_under_its_salt {diff : Nat} {first : UnionExchange}
    {events : List ExchangeEvent} {msg : IBFMessage} {op : UnionOperation}
    (hstart : start ini acc diff = some first)
    (hrun : Run (step ini acc) (fun _ _ => True) first events s)
    (hmessage : s.initiator.mq[s.atAcceptor]? = some (.ibf msg))
    (halive : s.acceptor.destroyed = false)
    (hdecode : s.acceptor.storeIbf acc.env msg = some (.complete op)) :
    s.acceptor.unionHandleP2pMessage acc.env acc.view (.ibf msg) =
        op.decodeAndSend acc.env ∧
      ∃ remoteIbf sent, op.remoteIbf = some remoteIbf ∧
        s.initiator.localIbf = some remoteIbf ∧ sent <+: s.initiator.known ∧
        Built ini.env sent op.saltReceive remoteIbf ∧
        ∀ localIbf, op.prepareIbf acc.env remoteIbf.size = some (some localIbf) →
          Built acc.env op.known op.saltReceive localIbf ∧
          (acc.env.hashing = ini.env.hashing → acc.env.getIbfKey = ini.env.getIbfKey →
            op.known.Perm sent →
            ∃ diffIbf, localIbf.subtract remoteIbf = some diffIbf ∧
              diffIbf.isEmpty = true) := by
  obtain ⟨ibfOrder, ibf, hout, hremoteIbf, hreceive, hsend⟩ :=
    (salted_run hstart hrun).decodes_at_acceptor hmessage halive hdecode
  have hpower := Nat.two_pow_pos ibfOrder
  refine ⟨?_, ?_⟩
  · unfold unionHandleP2pMessage
    rw [if_neg (by simp [halive])]
    exact (handleP2pIbf_eq _ msg).trans (by rw [hdecode]; rfl)
  · obtain ⟨sent, hsent, hbuilt⟩ := hout.built
    rw [← hreceive] at hbuilt
    refine ⟨ibf, sent, hremoteIbf, hout.localIbf, hsent, hbuilt, ?_⟩
    intro localIbf hprepare
    rw [hout.size] at hprepare
    obtain ⟨hsize, hlocal⟩ :=
      built_of_prepareIbf hpower (seIbfHashNum_le hout.order.1) hprepare
    rw [hsend, ← hreceive] at hlocal
    exact ⟨hlocal, fun hhashing hkeys hperm =>
      hlocal.subtract_isEmpty hbuilt (hsize.trans hout.size.symm) hhashing hkeys hperm⟩

def keyedPeer (xs : List Element) : UnionPeer where
  env := keyedEnv
  view := ⟨xs, fun e => some (decide (e ∈ xs))⟩
  clientRequestId := 1
  resultMode := .added

def largeSet : UnionPeer := keyedPeer (numbered (range' 1 12))

def smallSet : UnionPeer := keyedPeer (numbered [1])

/-- The state in which the next message makes a peer call `decode_and_send`. -/
def decoding (env : UnionEnv) (op : UnionOperation) : Option P2PMessage → Option UnionOperation
  | some (.ibf msg) =>
      match op.storeIbf env msg with
      | some (.complete op) => some op
      | _ => none
  | _ => none

theorem storeIbf_of_decoding {op next : UnionOperation}
    {message : Option P2PMessage} (h : decoding env op message = some next) :
    ∃ msg, message = some (.ibf msg) ∧ op.storeIbf env msg = some (.complete next) := by
  unfold decoding at h
  split at h
  next msg =>
    split at h
    next complete hstore =>
      cases h
      exact ⟨msg, rfl, hstore⟩
    · cases h
  · cases h

theorem acceptor_decodes_under_its_salt_first :
    ∃ first s msg op, start largeSet smallSet 0 = some first ∧
      Run (step largeSet smallSet) (fun _ _ => True) first [.toInitiator] s ∧
      s.acceptor.storeIbf keyedEnv msg = some (.complete op) ∧
      ∃ remoteIbf sent, op.remoteIbf = some remoteIbf ∧
        Built keyedEnv sent op.saltReceive remoteIbf := by
  obtain ⟨first, s, hstart, hrun, htest⟩ : ∃ first s,
      start largeSet smallSet 0 = some first ∧
      Run (step largeSet smallSet) (fun _ _ => True) first [.toInitiator] s ∧
      ((decoding keyedEnv s.acceptor s.initiator.mq[s.atAcceptor]?).isSome &&
        !s.acceptor.destroyed) = true :=
    exists_run_of_any (by decide +kernel)
  rw [Bool.and_eq_true, Bool.not_eq_true'] at htest
  obtain ⟨op, hop⟩ := isSome_iff_exists.mp htest.1
  obtain ⟨msg, hmessage, hstore⟩ := storeIbf_of_decoding hop
  obtain ⟨-, remoteIbf, sent, hremoteIbf, -, -, hbuilt, -⟩ :=
    acceptor_decodes_under_its_salt hstart hrun hmessage htest.2 hstore
  exact ⟨first, s, msg, op, hstart, hrun, hstore, remoteIbf, sent, hremoteIbf, hbuilt⟩

/-- The acceptor cannot decode the first filter; the initiator decodes the second
one, which was built under the salt 43, with the salt 42. -/
theorem initiator_decodes_under_other_salt :
    ∃ first s msg op, start largeSet smallSet 0 = some first ∧
      Run (step largeSet smallSet) (fun _ _ => True) first [.toInitiator, .toAcceptor] s ∧
      s.acceptor.mq[s.atInitiator]? = some (.ibf msg) ∧
      s.initiator.destroyed = false ∧
      s.initiator.storeIbf keyedEnv msg = some (.complete op) ∧
      s.acceptor.saltSend = 43 ∧ op.saltReceive = 43 ∧ op.saltSend = 42 := by
  obtain ⟨first, s, hstart, hrun, htest⟩ : ∃ first s,
      start largeSet smallSet 0 = some first ∧
      Run (step largeSet smallSet) (fun _ _ => True) first [.toInitiator, .toAcceptor] s ∧
      ((decoding keyedEnv s.initiator s.acceptor.mq[s.atInitiator]?).any (fun op =>
          decide (op.saltReceive = 43 ∧ op.saltSend = 42)) &&
        decide (s.initiator.destroyed = false ∧ s.acceptor.saltSend = 43)) = true :=
    exists_run_of_any (by decide +kernel)
  rw [Bool.and_eq_true, Option.any_eq_true] at htest
  obtain ⟨⟨op, hop, hsalts⟩, hpeers⟩ := htest
  obtain ⟨msg, hmessage, hstore⟩ := storeIbf_of_decoding hop
  have hpeers := of_decide_eq_true hpeers
  have hsalts := of_decide_eq_true hsalts
  exact ⟨first, s, msg, op, hstart, hrun, hmessage, hpeers.1, hstore, hpeers.2, hsalts.1, hsalts.2⟩

end UnionExchange

end Gnunet.SetService
