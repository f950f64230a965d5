import Gnunet.Defragmentation

/-!
# A message in fragments over a network that loses, repeats and reorders

The fragmentation context of one message and the defragmentation context of the
other peer, with everything that either of them has sent.  Whatever was sent
may arrive at any time, again or never.  Fragments of other messages may arrive
as well, as long as the context of this message is not discarded for them.
-/

namespace Gnunet.Fragmentation

open BigEndian List Option WordSet

section

variable {mtu : Nat} {msg : List UInt8} {bit : Nat}

theorem fragmentSize_eq (hmtu : 1024 + sizeofFragmentHeader ≤ mtu)
    (hbit : bit * payloadSize mtu < size) : fragmentSize mtu size bit =
      min (payloadSize mtu) (size - bit * payloadSize mtu) + sizeofFragmentHeader := by
  have hpayload := payloadSize_ge hmtu
  have hdiv := Nat.div_add_mod' size (payloadSize mtu)
  have hmod := Nat.mod_lt size (show 0 < payloadSize mtu by omega)
  unfold fragmentSize
  split
  next hlast =>
    subst hlast
    omega
  next hlast =>
    have hle : bit ≤ size / payloadSize mtu := (Nat.le_div_iff_mul_le (by omega)).mpr hbit.le
    have hnext : (bit + 1) * payloadSize mtu ≤ size :=
      (Nat.le_div_iff_mul_le (by omega)).mp (by omega)
    rw [Nat.add_one_mul] at hnext
    unfold payloadSize at *
    omega

theorem fragment_fields (fragmentId : UInt32) (hmtu : 1024 + sizeofFragmentHeader ≤ mtu)
    (hsize : msg.length < 65536) (hbit : bit * payloadSize mtu < msg.length) :
    (fragment mtu msg fragmentId bit).length = fragmentSize mtu msg.length bit ∧
      field (fragment mtu msg fragmentId bit) 4 4 = fragmentId.toNat ∧
      field (fragment mtu msg fragmentId bit) 8 2 = msg.length ∧
      field (fragment mtu msg fragmentId bit) 10 2 = bit * payloadSize mtu ∧
      (fragment mtu msg fragmentId bit).drop sizeofFragmentHeader =
        (msg.drop (bit * payloadSize mtu)).take
          (fragmentSize mtu msg.length bit - sizeofFragmentHeader) := by
  have hfsize := fragmentSize_eq hmtu hbit
  refine ⟨?_, ?_, ?_, ?_, ?_⟩
  · simp only [fragment, length_append, length_encode, length_take, length_drop]
    unfold sizeofFragmentHeader at *
    omega
  · exact field_encode (by simp) fragmentId.toNat_lt _
  · simp only [fragment]
    rw [← append_assoc, ← append_assoc]
    exact field_encode (by simp) hsize _
  · simp only [fragment]
    rw [← append_assoc, ← append_assoc, ← append_assoc, Nat.mul_comm (payloadSize mtu)]
    exact field_encode (by simp) (hbit.trans hsize) _
  · simp only [fragment]
    rw [← append_assoc, ← append_assoc, ← append_assoc, ← append_assoc]
    exact drop_left' (by simp [sizeofFragmentHeader])

theorem fragment_acceptable (fragmentId : UInt32) (hmtu : 1024 + sizeofFragmentHeader ≤ mtu)
    (hheader : sizeofMessageHeader ≤ msg.length) (hsize : msg.length < 65536)
    (hbit : bit * payloadSize mtu < msg.length) : Acceptable mtu (fragment mtu msg fragmentId bit) ∧
      fragmentIdOf (fragment mtu msg fragmentId bit) = fragmentId ∧
      bitOf mtu (fragment mtu msg fragmentId bit) = bit := by
  have hpayload := payloadSize_ge hmtu
  have hfsize := fragmentSize_eq hmtu hbit
  obtain ⟨hlength, hid, htotal, hoffset, -⟩ := fragment_fields fragmentId hmtu hsize hbit
  have hpos : 0 < payloadSize mtu := by omega
  refine ⟨⟨?_, ?_, ?_, ?_, ?_, ?_⟩, ?_, ?_⟩
  · omega
  · have hmtu_eq : payloadSize mtu + sizeofFragmentHeader = mtu := by
      unfold payloadSize
      omega
    omega
  · rw [htotal]
    exact hheader
  · rw [htotal, hoffset]
    exact hbit
  · rw [hoffset]
    exact Nat.mul_mod_left bit (payloadSize mtu)
  · rw [htotal, hoffset, hlength, hfsize, Nat.mul_div_cancel _ hpos]
    omega
  · rw [fragmentIdOf, hid]
    exact UInt32.ofNat_toNat
  · rw [bitOf, hoffset, Nat.mul_div_cancel _ hpos]

end

section

variable (fragmentId : UInt32) (bits : BitVec 64)

theorem acknowledgement_fields :
    (acknowledgement fragmentId bits).length = sizeofFragmentAcknowledgement ∧
      field (acknowledgement fragmentId bits) 4 4 = fragmentId.toNat ∧
      BitVec.ofNat 64 (field (acknowledgement fragmentId bits) 8 8) = bits := by
  have hbits : field (acknowledgement fragmentId bits) 8 8 = bits.toNat := by
    rw [acknowledgement, ← append_nil (encode 8 bits.toNat), ← append_assoc, ← append_assoc]
    exact field_encode (by simp) bits.isLt []
  refine ⟨by simp [acknowledgement, sizeofFragmentAcknowledgement], ?_, ?_⟩
  · exact field_encode (by simp) fragmentId.toNat_lt _
  · rw [hbits, BitVec.ofNat_toNat, BitVec.setWidth_eq]

end

section

variable {acks : BitVec 64} {next : Nat}

theorem advance_spec (hadvance : advance acks fuel next = some bit) : acks.getLsbD bit = true := by
  induction fuel generalizing next with
  | zero => cases hadvance
  | succ fuel ih =>
    simp only [advance] at hadvance
    split at hadvance
    next hcontains =>
      cases hadvance
      rwa [contains_eq] at hcontains
    · exact ih hadvance

theorem advance_isSome_of_distance (hbit : acks.getLsbD bit = true)
    (hfuel : (bit + 64 - next) % 64 < fuel) (hnext : next < 64) :
    (advance acks fuel next).isSome = true := by
  have hlt : bit < 64 := BitVec.lt_of_getLsbD hbit
  induction fuel generalizing next with
  | zero => omega
  | succ fuel ih =>
    simp only [advance]
    split
    · rfl
    next hcontains =>
      rw [contains_eq] at hcontains
      have hne : next ≠ bit := fun h => hcontains (h ▸ hbit)
      exact ih (by omega) (Nat.mod_lt _ (by decide))

theorem exists_advance (hacks : acks ≠ 0) (hnext : next < 64) :
    ∃ bit, advance acks 64 next = some bit ∧ acks.getLsbD bit = true := by
  obtain ⟨bit, hbit⟩ : ∃ bit, acks.getLsbD bit = true := by
    by_contra hnone
    refine hacks ((eq_zero_iff acks).mpr fun i => ?_)
    exact Bool.eq_false_iff.mpr fun h => hnone ⟨i, h⟩
  have hsome := advance_isSome_of_distance hbit (Nat.mod_lt _ (by decide)) hnext
  obtain ⟨found, hfound⟩ := isSome_iff_exists.mp hsome
  exact ⟨found, hfound, advance_spec hfound⟩

end

/-- The two peers, and the network between them.  `arrived` are the fragments
of the message that have reached the other peer, and `acknowledged` says that
`process_ack` has returned `GNUNET_OK`, which ends the fragmentation context. -/
structure Link where
  fc : Option FragmentContext
  dc : DefragmentContext
  fragments : List (List UInt8)
  acks : List (List UInt8)
  arrived : List Nat
  acknowledged : Bool
  deriving DecidableEq

namespace Link

inductive Event where
  | transmit (delayed : Bool)
  | transmissionDone
  | fragment (msg : List UInt8) (now : Nat)
  | otherFragment (msg : List UInt8) (now : Nat)
  | sendAck (fid : UInt32)
  | ack (msg : List UInt8)

def start (mtu numMsgs : Nat) (msg : List UInt8) (fragmentId : UInt32) : Link where
  fc := contextCreate mtu msg fragmentId
  dc := defragmentContextCreate mtu numMsgs
  fragments := []
  acks := []
  arrived := []
  acknowledged := false

def receiveAck (link : Link) (fc : FragmentContext) (msg : List UInt8) : Option Link :=
  (processAck fc msg).map fun (result, fc) =>
    if result = .ok then { link with fc := none, acknowledged := true }
    else { link with fc := some fc }

def step (link : Link) : Event → Option Link
  | .transmit delayed =>
      link.fc.bind fun fc =>
        (transmitNext fc delayed).map fun (fc, sent) =>
          { link with fc := some fc, fragments := link.fragments ++ sent.toList }
  | .transmissionDone =>
      link.fc.bind fun fc =>
        (contextTransmissionDone fc).map fun fc => { link with fc := some fc }
  | .fragment msg now =>
      (processFragment link.dc msg now).map fun (_, dc) =>
        { link with dc, arrived := bitOf dc.mtu msg :: link.arrived }
  | .otherFragment msg now =>
      (processFragment link.dc msg now).map fun (_, dc) => { link with dc }
  | .sendAck fid =>
      (Fragmentation.sendAck link.dc fid).map fun (dc, ack) =>
        { link with dc, acks := link.acks ++ [ack] }
  | .ack msg => link.fc.bind fun fc => link.receiveAck fc msg

/-- The context with this identifier is not discarded to make room for the
message of the fragment. -/
def NotEvicted (fragmentId : UInt32) (dc : DefragmentContext) (msg : List UInt8) : Prop :=
  Acceptable dc.mtu msg → dc.findContext (fragmentIdOf msg) = none →
    dc.numMsgs ≤ dc.contexts.length → ∀ old ∈ oldest dc.contexts, old.fragmentId ≠ fragmentId

/-- What can happen in a state: tasks run when they are scheduled, and only
what was sent arrives. -/
def Possible (fragmentId : UInt32) (link : Link) : Event → Prop
  | .transmit _ => ∃ fc ∈ link.fc, fc.task = true
  | .transmissionDone => ∃ fc ∈ link.fc, fc.procBusy = true
  | .fragment msg _ => msg ∈ link.fragments ∧ NotEvicted fragmentId link.dc msg
  | .otherFragment msg _ =>
      fragmentIdOf msg ≠ fragmentId ∧ NotEvicted fragmentId link.dc msg
  | .sendAck fid => ∃ mc ∈ link.dc.findContext fid, mc.ackTask = true
  | .ack msg => msg ∈ link.acks ∧ link.fc.isSome = true

def deliveries (dc : DefragmentContext) (fragmentId : UInt32) : List (List (Option UInt8)) :=
  (dc.cls.filter fun delivery => delivery.fragmentId == fragmentId).map Delivery.msg

section

variable {mtu : Nat} {msg : List UInt8} {fragmentId : UInt32}

structure Sends (mtu : Nat) (msg : List UInt8) (fragmentId : UInt32)
    (fc : FragmentContext) : Prop where
  mtu_eq : fc.mtu = mtu
  msg_eq : fc.msg = msg
  fragmentId_eq : fc.fragmentId = fragmentId
  mask_eq : fc.acksMask = below 64 (numFragments mtu msg.length)
  acks_le : ∀ bit, fc.acks.getLsbD bit = true → bit * payloadSize mtu < msg.length
  acks_ne : fc.acks ≠ 0
  next_lt : fc.nextTransmission < 64
  idle : fc.task = true → fc.procBusy = false
  active : fc.task = true ∨ fc.procBusy = true

def FragmentOf (mtu : Nat) (msg : List UInt8) (fragmentId : UInt32) (sent : List UInt8) : Prop :=
  ∃ bit, bit * payloadSize mtu < msg.length ∧ sent = fragment mtu msg fragmentId bit

theorem sends_create (fragmentId : UInt32) (hmtu : 1024 + sizeofFragmentHeader ≤ mtu)
    (hheader : sizeofMessageHeader ≤ msg.length) (hsize : msg.length < 65536) :
    ∃ fc, contextCreate mtu msg fragmentId = some fc ∧ Sends mtu msg fragmentId fc := by
  refine ⟨_, if_pos ⟨hmtu, hheader, numFragments_le hmtu hsize⟩, rfl, rfl, rfl, rfl,
    ?_, ?_, Nat.zero_lt_succ _, fun _ => rfl, .inl rfl⟩
  · intro bit hbit
    rwa [getLsbD_bits hmtu hsize, decide_eq_true_iff] at hbit
  · intro hzero
    dsimp only at hzero
    have hfirst := getLsbD_bits hmtu hsize 0
    have hpos : 0 < msg.length := (by decide : 0 < sizeofMessageHeader).trans_le hheader
    rw [hzero, Nat.zero_mul, decide_eq_true hpos] at hfirst
    cases hfirst

variable {fc : FragmentContext}

theorem Sends.transmit (hsends : Sends mtu msg fragmentId fc) (htask : fc.task = true)
    (delayed : Bool) : ∃ fc' sent, transmitNext fc delayed = some (fc', sent) ∧
      Sends mtu msg fragmentId fc' ∧ ∀ f ∈ sent, FragmentOf mtu msg fragmentId f := by
  obtain ⟨bit, hbit, hacks⟩ := exists_advance hsends.acks_ne hsends.next_lt
  have hlt : bit < 64 := BitVec.lt_of_getLsbD hacks
  obtain ⟨_, hnext, hnextAcks⟩ :=
    exists_advance hsends.acks_ne (Nat.mod_lt (bit + 1) (by decide : 0 < 64))
  have hidle : ¬ fc.procBusy = true := by simp [hsends.idle htask]
  unfold transmitNext
  rw [if_neg hidle, if_neg hsends.acks_ne, hbit, bind_some]
  cases delayed with
  | true =>
    refine ⟨_, _, rfl, { hsends with
      next_lt := hlt
      idle := fun _ => hsends.idle htask
      active := .inl rfl }, fun f hf => ?_⟩
    cases hf
  | false =>
    rw [hnext]
    refine ⟨_, _, rfl, { hsends with
      next_lt := BitVec.lt_of_getLsbD hnextAcks
      idle := fun h => by cases h
      active := .inr rfl }, fun f hf => ?_⟩
    cases hf
    rw [hsends.mtu_eq, hsends.msg_eq, hsends.fragmentId_eq]
    exact ⟨bit, hsends.acks_le bit hacks, rfl⟩

theorem Sends.transmissionDone (hsends : Sends mtu msg fragmentId fc) (hbusy : fc.procBusy = true) :
    ∃ fc', contextTransmissionDone fc = some fc' ∧ Sends mtu msg fragmentId fc' := by
  have htask : fc.task = false := by
    cases htask : fc.task with
    | false => rfl
    | true =>
      have hidle := hsends.idle htask
      rw [hbusy] at hidle
      cases hidle
  exact ⟨_, if_pos ⟨hbusy, htask⟩, { hsends with
    idle := fun _ => rfl
    active := .inl rfl }⟩

/-- An acknowledgement leads on, or it says that nothing is missing. -/
theorem Sends.ack (hmtu : 1024 + sizeofFragmentHeader ≤ mtu) (hsize : msg.length < 65536)
    (hsends : Sends mtu msg fragmentId fc) (fid : UInt32) (bits : BitVec 64) :
    ∃ result fc', processAck fc (acknowledgement fid bits) = some (result, fc') ∧
      (result ≠ .ok → Sends mtu msg fragmentId fc') ∧
      (result = .ok → fid = fragmentId ∧ bits &&& below 64 (numFragments mtu msg.length) = 0) := by
  obtain ⟨hlength, hid, hbits⟩ := acknowledgement_fields fid bits
  unfold processAck
  rw [if_neg (not_not.mpr hlength), hid, hsends.fragmentId_eq, hbits, hsends.mask_eq]
  by_cases hfid : fid.toNat ≠ fragmentId.toNat
  · rw [if_pos hfid]
    exact ⟨_, _, rfl, fun _ => hsends, fun h => by cases h⟩
  · rw [if_neg hfid]
    by_cases hzero : bits &&& below 64 (numFragments mtu msg.length) ≠ 0
    · have hactive : fc.task = true ∨ fc.procBusy = true := hsends.active
      rw [if_pos hzero, if_pos hactive]
      refine ⟨_, _, rfl, fun _ => { hsends with
        fragmentId_eq := rfl
        mask_eq := rfl
        acks_le := ?_
        acks_ne := hzero }, fun h => by cases h⟩
      intro bit hbit
      rw [BitVec.getLsbD_and, Bool.and_eq_true, getLsbD_bits hmtu hsize, decide_eq_true_iff] at hbit
      exact hbit.2
    · rw [if_neg hzero]
      exact ⟨_, _, rfl, fun h => absurd rfl h, fun _ =>
        ⟨UInt32.toNat_inj.mp (not_not.mp hfid), not_not.mp hzero⟩⟩

variable {dc dc' : DefragmentContext} {arrived : List Nat}

structure Assembles (mtu : Nat) (msg : List UInt8) (arrived : List Nat)
    (mc : MessageContext) : Prop where
  size_eq : mc.totalSize = msg.length
  length_eq : mc.msg.length = msg.length
  filled : Filled mtu mc.bits mc.msg fun k byte => msg[k]? = some byte
  bits_iff : ∀ bit, mc.bits.getLsbD bit = true ↔ bit * payloadSize mtu < msg.length ∧ bit ∉ arrived

def expected (msg : List UInt8) (bits : BitVec 64) : List (List (Option UInt8)) :=
  if bits = 0 then [msg.map some] else []

inductive Receives (mtu : Nat) (msg : List UInt8) (fragmentId : UInt32)
    (dc : DefragmentContext) : List Nat → Prop
  | absent :
      (∀ mc ∈ dc.contexts, mc.fragmentId ≠ fragmentId) →
      deliveries dc fragmentId = [] → Receives mtu msg fragmentId dc []
  | present {arrived : List Nat} (mc : MessageContext) :
      mc ∈ dc.contexts → mc.fragmentId = fragmentId →
      (∀ c ∈ dc.contexts, c.fragmentId = fragmentId → c = mc) →
      Assembles mtu msg arrived mc → arrived ≠ [] →
      deliveries dc fragmentId = expected msg mc.bits →
      Receives mtu msg fragmentId dc arrived

theorem assembles_new (fragmentId : UInt32) (hmtu : 1024 + sizeofFragmentHeader ≤ mtu)
    (hsize : msg.length < 65536) (now : Nat) :
    Assembles mtu msg [] (newContext mtu fragmentId msg.length now) := by
  refine ⟨rfl, length_replicate, ?_, ?_⟩
  · intro k hk hmissing
    have hk' : k < msg.length := by simpa [newContext] using hk
    rw [newContext, getLsbD_bits hmtu hsize, decide_eq_false_iff_not] at hmissing
    exact absurd ((Nat.div_mul_le_self k _).trans_lt hk') hmissing
  · intro bit
    rw [newContext, getLsbD_bits hmtu hsize, decide_eq_true_iff]
    simp

variable {mc : MessageContext}

theorem Assembles.complete (hassembles : Assembles mtu msg arrived mc) (hbits : mc.bits = 0) :
    mc.msg = msg.map some := by
  have hfilled := hassembles.filled
  rw [hbits] at hfilled
  obtain ⟨bytes, hbytes, hsame⟩ := hfilled.complete
  have hlength : bytes.length = msg.length := by
    rw [← hassembles.length_eq, hbytes, length_map]
  rw [hbytes]
  congr 1
  refine ext_getElem? fun k => ?_
  by_cases hk : k < bytes.length
  · rw [hsame k _ (getElem?_eq_getElem hk), getElem?_eq_getElem hk]
  · rw [getElem?_eq_none (Nat.le_of_not_lt hk), getElem?_eq_none (hlength ▸ Nat.le_of_not_lt hk)]

theorem Assembles.bits_eq_zero_iff (hassembles : Assembles mtu msg arrived mc) :
    mc.bits = 0 ↔ ∀ bit, bit * payloadSize mtu < msg.length → bit ∈ arrived := by
  refine (eq_zero_iff mc.bits).trans ⟨fun hzero bit hbit => ?_, fun hall bit => ?_⟩
  · by_contra hmissing
    have hset := (hassembles.bits_iff bit).mpr ⟨hbit, hmissing⟩
    rw [hzero bit] at hset
    cases hset
  · refine Bool.eq_false_iff.mpr fun hset => ?_
    obtain ⟨hbit, hmissing⟩ := (hassembles.bits_iff bit).mp hset
    exact hmissing (hall bit hbit)

theorem Assembles.store (hmtu : 1024 + sizeofFragmentHeader ≤ mtu)
    (hassembles : Assembles mtu msg arrived mc)
    (hbit : bit * payloadSize mtu < msg.length) (now : Nat) :
    Assembles mtu msg (bit :: arrived) (mc.store mtu bit ((msg.drop (bit * payloadSize mtu)).take
        (fragmentSize mtu msg.length bit - sizeofFragmentHeader)) now) := by
  rw [fragmentSize_eq hmtu hbit, Nat.add_sub_cancel]
  generalize hdata : (msg.drop (bit * payloadSize mtu)).take
    (min (payloadSize mtu) (msg.length - bit * payloadSize mtu)) = data
  have hlength : data.length = min (payloadSize mtu) (msg.length - bit * payloadSize mtu) := by
    rw [← hdata, length_take, length_drop]
    omega
  unfold MessageContext.store
  by_cases hcontains : contains mc.bits bit = true
  · rw [if_pos hcontains]
    have hset := contains_eq mc.bits bit ▸ hcontains
    have hfit : bit * payloadSize mtu + data.length ≤ mc.msg.length := by
      rw [hassembles.length_eq]
      omega
    refine ⟨hassembles.size_eq, (length_writeAt hfit).trans hassembles.length_eq, ?_, ?_⟩
    · refine hassembles.filled.store hmtu hset (by omega) hfit fun k hk hsame => ?_
      rw [hassembles.length_eq] at hk
      have hrange := (div_payloadSize_eq_iff hmtu).mp hsame
      refine ⟨msg[k], ?_, getElem?_eq_getElem hk⟩
      rw [← hdata, getElem?_take_of_lt (by omega), getElem?_drop,
        show bit * payloadSize mtu + (k - bit * payloadSize mtu) = k by omega,
        getElem?_eq_getElem hk]
    · intro i
      rw [getLsbD_erase hset, Bool.and_eq_true, hassembles.bits_iff]
      simp only [decide_eq_true_eq, mem_cons, not_or]
      tauto
  · rw [if_neg hcontains]
    have hstored : bit ∈ arrived := by
      by_contra hmissing
      rw [contains_eq] at hcontains
      exact hcontains ((hassembles.bits_iff bit).mpr ⟨hbit, hmissing⟩)
    refine ⟨hassembles.size_eq, hassembles.length_eq, hassembles.filled, fun i => ?_⟩
    rw [hassembles.bits_iff, mem_cons]
    constructor
    · rintro ⟨hi, hmissing⟩
      exact ⟨hi, fun h => hmissing (h.elim (fun h => h ▸ hstored) id)⟩
    · rintro ⟨hi, hmissing⟩
      exact ⟨hi, fun h => hmissing (.inr h)⟩

theorem deliveries_storeFragment :
    deliveries (storeFragment dc mc bit data now).2 fragmentId = deliveries dc fragmentId ++
        if mc.fragmentId = fragmentId ∧ contains mc.bits bit = true ∧
            (mc.store dc.mtu bit data now).bits = 0 then [(mc.store dc.mtu bit data now).msg]
        else [] := by
  unfold storeFragment
  by_cases hcontains : contains mc.bits bit = true
  · rw [if_pos hcontains]
    by_cases hbits : (mc.store dc.mtu bit data now).bits = 0
    · by_cases hid : mc.fragmentId = fragmentId
      · simp [deliveries, hcontains, hbits, hid]
      · simp [deliveries, hcontains, hbits, hid]
    · rw [if_neg hbits, if_neg (fun h => hbits h.2.2), append_nil]
      rfl
  · rw [if_neg hcontains, if_neg (fun h => hcontains h.2.1), append_nil]
    rfl

theorem expected_of_contains (hcontains : contains bits bit = true) : expected msg bits = [] := by
  refine if_neg fun hzero => ?_
  rw [contains_eq, (eq_zero_iff bits).mp hzero bit] at hcontains
  cases hcontains

theorem receives_storeFragment (hmtu : 1024 + sizeofFragmentHeader ≤ mtu) (hdc : dc.mtu = mtu)
    (hmem : mc ∈ dc.contexts) (hid : mc.fragmentId = fragmentId)
    (hassembles : Assembles mtu msg arrived mc)
    (hdeliveries : deliveries dc fragmentId = expected msg mc.bits)
    (hbit : bit * payloadSize mtu < msg.length) (now : Nat) :
    Receives mtu msg fragmentId (storeFragment dc mc bit ((msg.drop (bit * payloadSize mtu)).take
        (fragmentSize mtu msg.length bit - sizeofFragmentHeader)) now).2 (bit :: arrived) := by
  subst hdc
  have hafter := hassembles.store hmtu hbit now
  generalize (msg.drop (bit * payloadSize dc.mtu)).take
    (fragmentSize dc.mtu msg.length bit - sizeofFragmentHeader) = data at hafter ⊢
  have hstoredId := (store_fragmentId mc dc.mtu bit data now).trans hid
  refine .present (mc.store dc.mtu bit data now) ?_ hstoredId ?_ hafter (by simp) ?_
  · rw [contexts_storeFragment]
    exact mem_map.mpr ⟨mc, hmem, if_pos rfl⟩
  · intro c hc hcid
    rcases mem_storeFragment hc with hstored | ⟨-, hother⟩
    · exact hstored
    · exact absurd (hcid.trans hid.symm) hother
  · rw [deliveries_storeFragment, hdeliveries]
    by_cases hcontains : contains mc.bits bit = true
    · rw [expected_of_contains hcontains, nil_append]
      by_cases hbits : (mc.store dc.mtu bit data now).bits = 0
      · rw [if_pos ⟨hid, hcontains, hbits⟩, expected, if_pos hbits, hafter.complete hbits]
      · rw [if_neg (fun h => hbits h.2.2), expected, if_neg hbits]
    · rw [if_neg (fun h => hcontains h.2.1), append_nil, MessageContext.store, if_neg hcontains]

variable {now : Nat}

theorem mem_storeFragment_of_ne {other : MessageContext} (hne : mc.fragmentId ≠ other.fragmentId) :
    mc ∈ (storeFragment dc other bit data now).2.contexts ↔ mc ∈ dc.contexts := by
  constructor
  · intro hmem
    rcases mem_storeFragment hmem with rfl | ⟨hmem, -⟩
    · exact absurd (store_fragmentId other dc.mtu bit data now) hne
    · exact hmem
  · intro hmem
    rw [contexts_storeFragment]
    exact mem_map.mpr ⟨mc, hmem, if_neg hne⟩

variable {other : List UInt8}

theorem opened_mem_iff (hopened : Opened dc other contexts)
    (hacceptable : Acceptable dc.mtu other) (hkept : NotEvicted fragmentId dc other)
    (hid : mc.fragmentId = fragmentId) : mc ∈ contexts ↔ mc ∈ dc.contexts := by
  refine ⟨hopened.subset mc, fun hmem => ?_⟩
  rcases hopened.kept with ⟨hfull, hdiscard⟩ | ⟨-, rfl⟩
  · obtain ⟨old, hold, rfl⟩ := map_eq_some_iff.mp hdiscard
    have hne : mc ≠ old := by
      rintro rfl
      have hnew : dc.findContext _ = none :=
        find?_eq_none.mpr fun mc hmc hid => hopened.absent mc hmc (beq_iff_eq.mp hid)
      exact hkept hacceptable hnew hfull mc hold hid
    exact (mem_erase_of_ne hne).mpr hmem
  · exact hmem

variable {result : Result}

theorem processFragment_other (hprocess : processFragment dc other now = some (result, dc'))
    (hid : fragmentIdOf other ≠ fragmentId) (hkept : NotEvicted fragmentId dc other) :
    (∀ mc, mc.fragmentId = fragmentId → (mc ∈ dc'.contexts ↔ mc ∈ dc.contexts)) ∧
      deliveries dc' fragmentId = deliveries dc fragmentId := by
  rcases processFragment_cases hprocess with ⟨rfl, -⟩ | ⟨hacceptable, hstored⟩
  · exact ⟨fun _ _ => Iff.rfl, rfl⟩
  rcases hstored with ⟨mc, hfind, -, hstore⟩ | ⟨_, hopened, hstore⟩
  · have hother : mc.fragmentId ≠ fragmentId := (findContext_some hfind).2.trans_ne hid
    obtain rfl : _ = dc' := congrArg Prod.snd hstore
    refine ⟨fun c hc => mem_storeFragment_of_ne (hc.trans_ne hother.symm), ?_⟩
    rw [deliveries_storeFragment, if_neg (fun h => hother h.1), append_nil]
  · obtain rfl : _ = dc' := congrArg Prod.snd hstore
    refine ⟨fun c hc => ?_, ?_⟩
    · have hne : c.fragmentId ≠ fragmentIdOf other := hc.trans_ne hid.symm
      rw [mem_storeFragment_of_ne hne, mem_cons, opened_mem_iff hopened hacceptable hkept hc]
      exact or_iff_right fun h => hne (congrArg MessageContext.fragmentId h)
    · rw [deliveries_storeFragment, if_neg (fun h => hid h.1), append_nil]
      rfl

theorem processFragment_mtu (hprocess : processFragment dc other now = some (result, dc')) :
    dc'.mtu = dc.mtu ∧ dc'.numMsgs = dc.numMsgs := by
  rcases processFragment_cases hprocess with ⟨rfl, -⟩ | ⟨-, ⟨_, -, -, hstore⟩ | ⟨_, -, hstore⟩⟩
  · exact ⟨rfl, rfl⟩
  · obtain rfl : _ = dc' := congrArg Prod.snd hstore
    exact storeFragment_mtu _ _ _ _ _
  · obtain rfl : _ = dc' := congrArg Prod.snd hstore
    exact storeFragment_mtu _ _ _ _ _

theorem Receives.of_same (hreceives : Receives mtu msg fragmentId dc arrived)
    (hcontexts : ∀ mc, mc.fragmentId = fragmentId → (mc ∈ dc'.contexts ↔ mc ∈ dc.contexts))
    (hdeliveries : deliveries dc' fragmentId = deliveries dc fragmentId) :
    Receives mtu msg fragmentId dc' arrived := by
  cases hreceives with
  | absent habsent hnone =>
    exact .absent (fun mc hmc hid => habsent mc ((hcontexts mc hid).mp hmc) hid)
      (hdeliveries.trans hnone)
  | present mc hmem hid hunique hassembles harrived hsome =>
    exact .present mc ((hcontexts mc hid).mpr hmem) hid
      (fun c hc hcid => hunique c ((hcontexts c hcid).mp hc) hcid) hassembles harrived
      (hdeliveries.trans hsome)

theorem Receives.own (hmtu : 1024 + sizeofFragmentHeader ≤ mtu)
    (hheader : sizeofMessageHeader ≤ msg.length) (hsize : msg.length < 65536) (hdc : dc.mtu = mtu)
    (hreceives : Receives mtu msg fragmentId dc arrived) (hbit : bit * payloadSize mtu < msg.length)
    (hprocess : processFragment dc (fragment mtu msg fragmentId bit) now = some (result, dc')) :
    Receives mtu msg fragmentId dc' (bit :: arrived) := by
  subst hdc
  obtain ⟨hacceptable, hid, hbitOf⟩ := fragment_acceptable fragmentId hmtu hheader hsize hbit
  obtain ⟨-, -, htotal, -, hdata⟩ := fragment_fields fragmentId hmtu hsize hbit
  have hcases := processFragment_cases hprocess
  rw [hid, hbitOf, htotal, hdata] at hcases
  cases hreceives with
  | absent habsent hnone =>
    rcases hcases with ⟨-, hmismatch⟩ | ⟨-, ⟨mc, hfind, -⟩ | ⟨contexts, hopened, hstore⟩⟩
    · obtain ⟨mc, hfind, -⟩ := hmismatch hacceptable
      exact absurd (findContext_some hfind).2 (habsent mc (findContext_some hfind).1)
    · exact absurd (findContext_some hfind).2 (habsent mc (findContext_some hfind).1)
    · obtain rfl : _ = dc' := congrArg Prod.snd hstore
      have hnew := assembles_new fragmentId hmtu hsize now
      have hopen : { dc with
          contexts := newContext dc.mtu fragmentId msg.length now :: contexts }.mtu = dc.mtu := rfl
      refine receives_storeFragment hmtu hopen mem_cons_self rfl hnew ?_ hbit now
      have hmissing : (newContext dc.mtu fragmentId msg.length now).bits ≠ 0 := by
        intro hzero
        simpa using hnew.bits_eq_zero_iff.mp hzero bit hbit
      rw [expected, if_neg hmissing]
      exact hnone
  | present mc hmem hmcid hunique hassembles harrived hsome =>
    have hfound : ∀ c, dc.findContext fragmentId = some c → c = mc := fun c hfind =>
      hunique c (findContext_some hfind).1 (findContext_some hfind).2
    rcases hcases with ⟨-, hmismatch⟩ | ⟨-, ⟨c, hfind, -, hstore⟩ | ⟨_, hopened, hstore⟩⟩
    · obtain ⟨c, hfind, hother⟩ := hmismatch hacceptable
      rw [hfound c hfind] at hother
      exact absurd hassembles.size_eq hother
    · obtain rfl := hfound c hfind
      obtain rfl : _ = dc' := congrArg Prod.snd hstore
      exact receives_storeFragment hmtu rfl hmem hmcid hassembles hsome hbit now
    · exact absurd (hmcid.trans hid.symm) (hopened.absent mc hmem)

variable {numMsgs : Nat} {link : Link}

/-- An acknowledgement that says that nothing is missing was sent after the
message was complete. -/
def AcknowledgementOf (mtu : Nat) (msg : List UInt8) (fragmentId : UInt32)
    (dc : DefragmentContext) (sent : List UInt8) : Prop :=
  ∃ fid bits, sent = acknowledgement fid bits ∧ (fid = fragmentId →
    (∀ bit, bits.getLsbD bit = true → bit * payloadSize mtu < msg.length) ∧
    (bits = 0 → deliveries dc fragmentId = [msg.map some]))

structure Consistent (mtu numMsgs : Nat) (msg : List UInt8) (fragmentId : UInt32)
    (link : Link) : Prop where
  mtu_eq : link.dc.mtu = mtu
  numMsgs_eq : link.dc.numMsgs = numMsgs
  sends : ∀ fc, link.fc = some fc → Sends mtu msg fragmentId fc
  fragments : ∀ sent ∈ link.fragments, FragmentOf mtu msg fragmentId sent
  receives : Receives mtu msg fragmentId link.dc link.arrived
  acks : ∀ sent ∈ link.acks, AcknowledgementOf mtu msg fragmentId link.dc sent
  acknowledged : link.acknowledged = true → deliveries link.dc fragmentId = [msg.map some]

theorem consistent_start (hmtu : 1024 + sizeofFragmentHeader ≤ mtu)
    (hheader : sizeofMessageHeader ≤ msg.length) (hsize : msg.length < 65536) :
    Consistent mtu numMsgs msg fragmentId (start mtu numMsgs msg fragmentId) := by
  obtain ⟨_, hcreate, hsends⟩ := sends_create fragmentId hmtu hheader hsize
  refine ⟨rfl, rfl, fun fc' hfc => ?_, by simp [start], .absent ?_ rfl, by simp [start],
    fun h => by cases h⟩
  · rw [start, hcreate] at hfc
    cases hfc
    exact hsends
  · intro mc hmc
    cases hmc

section

variable (hheader : sizeofMessageHeader ≤ msg.length)
include hheader

theorem Receives.deliveries_eq (hreceives : Receives mtu msg fragmentId dc arrived) :
    (deliveries dc fragmentId = [msg.map some] ∧
        ∀ bit, bit * payloadSize mtu < msg.length → bit ∈ arrived) ∨
      (deliveries dc fragmentId = [] ∧
        ¬ ∀ bit, bit * payloadSize mtu < msg.length → bit ∈ arrived) := by
  cases hreceives with
  | absent _ hnone =>
    refine .inr ⟨hnone, fun hall => ?_⟩
    have hpos : 0 < msg.length := (by decide : 0 < sizeofMessageHeader).trans_le hheader
    exact absurd (hall 0 (by omega)) not_mem_nil
  | present mc _ _ _ hassembles _ hsome =>
    by_cases hbits : mc.bits = 0
    · exact .inl ⟨hsome.trans (if_pos hbits), hassembles.bits_eq_zero_iff.mp hbits⟩
    · exact .inr ⟨hsome.trans (if_neg hbits),
        fun hall => hbits (hassembles.bits_eq_zero_iff.mpr hall)⟩

theorem Receives.deliveries_mono (hreceives : Receives mtu msg fragmentId dc arrived)
    (hreceives' : Receives mtu msg fragmentId dc' arrived')
    (hsubset : ∀ bit ∈ arrived, bit ∈ arrived')
    (hdelivered : deliveries dc fragmentId = [msg.map some]) :
    deliveries dc' fragmentId = [msg.map some] := by
  have hall : ∀ bit, bit * payloadSize mtu < msg.length → bit ∈ arrived := by
    rcases hreceives.deliveries_eq hheader with ⟨-, hall⟩ | ⟨hnone, -⟩
    · exact hall
    · rw [hnone] at hdelivered
      cases hdelivered
  rcases hreceives'.deliveries_eq hheader with ⟨hsome, -⟩ | ⟨-, hmissing⟩
  · exact hsome
  · exact absurd (fun bit hbit => hsubset bit (hall bit hbit)) hmissing

theorem Consistent.receive (hlink : Consistent mtu numMsgs msg fragmentId link)
    (hmtu : dc.mtu = mtu) (hmsgs : dc.numMsgs = numMsgs)
    (hreceives : Receives mtu msg fragmentId dc arrived)
    (hsubset : ∀ bit ∈ link.arrived, bit ∈ arrived) :
    Consistent mtu numMsgs msg fragmentId { link with dc, arrived } := by
  have hmono := hlink.receives.deliveries_mono hheader hreceives hsubset
  refine ⟨hmtu, hmsgs, hlink.sends, hlink.fragments, hreceives, fun sent hsent => ?_,
    fun h => hmono (hlink.acknowledged h)⟩
  obtain ⟨fid, bits, hack, hown⟩ := hlink.acks sent hsent
  exact ⟨fid, bits, hack, fun hfid => ⟨(hown hfid).1, fun hzero =>
    hmono ((hown hfid).2 hzero)⟩⟩

end

theorem sendAck_spec {ack} (hreceives : Receives mtu msg fragmentId dc arrived)
    (hsend : Fragmentation.sendAck dc fid = some (dc', ack)) :
    dc'.mtu = dc.mtu ∧ dc'.numMsgs = dc.numMsgs ∧ Receives mtu msg fragmentId dc' arrived ∧
      AcknowledgementOf mtu msg fragmentId dc' ack := by
  unfold Fragmentation.sendAck at hsend
  split at hsend
  next mc hfind =>
    obtain ⟨hmem, hmcid⟩ := findContext_some hfind
    split at hsend
    · cases hsend
      refine ⟨rfl, rfl, ?_⟩
      by_cases hfid : fid = fragmentId
      · subst hfid
        cases hreceives with
        | absent habsent => exact absurd hmcid (habsent mc hmem)
        | present found hfound hfoundId hunique hassembles harrived hsome =>
          obtain rfl := hunique mc hmem hmcid
          refine ⟨.present { mc with ackTask := false } ?_ hmcid ?_
            ⟨hassembles.size_eq, hassembles.length_eq, hassembles.filled,
              hassembles.bits_iff⟩ harrived hsome, mc.fragmentId, mc.bits, rfl, fun _ => ?_⟩
          · exact mem_map.mpr ⟨mc, hmem, if_pos hmcid⟩
          · intro c hc hcid
            obtain ⟨before, -, rfl⟩ := mem_map.mp hc
            split at hcid
            next hbefore =>
              exact if_pos hbefore
            next hbefore =>
              exact absurd hcid hbefore
          · exact ⟨fun bit hbit => ((hassembles.bits_iff bit).mp hbit).1,
              fun hzero => hsome.trans (if_pos hzero)⟩
      · refine ⟨hreceives.of_same (fun c hc => ?_) rfl, mc.fragmentId, mc.bits, rfl,
          fun h => absurd (hmcid.symm.trans h) hfid⟩
        have hother : c.fragmentId ≠ fid := fun h => hfid (h.symm.trans hc)
        constructor
        · intro hmap
          obtain ⟨_, hbefore, rfl⟩ := mem_map.mp hmap
          split at hother
          · exact absurd hmcid hother
          next hne =>
            rw [if_neg hne]
            exact hbefore
        · exact fun hmem => mem_map.mpr ⟨c, hmem, if_neg hother⟩
    · cases hsend
  · cases hsend

theorem Consistent.step (hmtu : 1024 + sizeofFragmentHeader ≤ mtu)
    (hheader : sizeofMessageHeader ≤ msg.length) (hsize : msg.length < 65536)
    (hlink : Consistent mtu numMsgs msg fragmentId link) {next : Link}
    (hpossible : Possible fragmentId link event) (hstep : link.step event = some next) :
    Consistent mtu numMsgs msg fragmentId next := by
  cases event with
  | transmit delayed =>
    obtain ⟨fc, hfc, htask⟩ := hpossible
    obtain ⟨fc', sent, htransmit, hsends, hsent⟩ := (hlink.sends fc hfc).transmit htask delayed
    simp only [Link.step, mem_def.mp hfc, bind_some, htransmit, map_some, some.injEq] at hstep
    subst hstep
    refine { hlink with sends := ?_, fragments := ?_ }
    · intro other hother
      cases hother
      exact hsends
    · intro f hf
      rcases mem_append.mp hf with hold | hnew
      · exact hlink.fragments f hold
      · exact hsent f (mem_toList.mp hnew)
  | transmissionDone =>
    obtain ⟨fc, hfc, hbusy⟩ := hpossible
    obtain ⟨fc', hdone, hsends⟩ := (hlink.sends fc hfc).transmissionDone hbusy
    simp only [Link.step, mem_def.mp hfc, bind_some, hdone, map_some, some.injEq] at hstep
    subst hstep
    refine { hlink with sends := fun other hother => ?_ }
    cases hother
    exact hsends
  | fragment sent now =>
    obtain ⟨bit, hbit, rfl⟩ := hlink.fragments sent hpossible.1
    obtain ⟨⟨result, dc⟩, hprocess, rfl⟩ := map_eq_some_iff.mp hstep
    obtain ⟨hdcMtu, hdcMsgs⟩ := processFragment_mtu hprocess
    have hbitOf := (fragment_acceptable fragmentId hmtu hheader hsize hbit).2.2
    have hreceives := hlink.receives.own hmtu hheader hsize hlink.mtu_eq hbit hprocess
    dsimp only
    rw [hdcMtu, hlink.mtu_eq, hbitOf]
    exact hlink.receive hheader (hdcMtu.trans hlink.mtu_eq)
      (hdcMsgs.trans hlink.numMsgs_eq) hreceives
      fun other hother => mem_cons_of_mem _ hother
  | otherFragment other now =>
    obtain ⟨⟨result, dc⟩, hprocess, rfl⟩ := map_eq_some_iff.mp hstep
    obtain ⟨hdcMtu, hdcMsgs⟩ := processFragment_mtu hprocess
    obtain ⟨hcontexts, hdeliveries⟩ := processFragment_other hprocess hpossible.1 hpossible.2
    exact hlink.receive hheader (hdcMtu.trans hlink.mtu_eq)
      (hdcMsgs.trans hlink.numMsgs_eq) (hlink.receives.of_same hcontexts hdeliveries)
      fun other hother => hother
  | sendAck fid =>
    obtain ⟨⟨_, ack⟩, hsend, rfl⟩ := map_eq_some_iff.mp hstep
    obtain ⟨hdcMtu, hdcMsgs, hreceives, hack⟩ := sendAck_spec hlink.receives hsend
    have hafter := hlink.receive hheader (hdcMtu.trans hlink.mtu_eq)
      (hdcMsgs.trans hlink.numMsgs_eq) hreceives fun other hother => hother
    refine { hafter with acks := fun sent hsent => ?_ }
    rcases mem_append.mp hsent with hold | hnew
    · exact hafter.acks sent hold
    · rw [mem_singleton.mp hnew]
      exact hack
  | ack sent =>
    obtain ⟨hsent, hfc⟩ := hpossible
    obtain ⟨fc, hfc⟩ := isSome_iff_exists.mp hfc
    obtain ⟨fid, bits, rfl, hown⟩ := hlink.acks sent hsent
    obtain ⟨_, _, hprocess, hmore, hdone⟩ := (hlink.sends fc hfc).ack hmtu hsize fid bits
    simp only [Link.step, hfc, bind_some, receiveAck, hprocess, map_some, some.injEq] at hstep
    subst hstep
    split
    next hok =>
      obtain ⟨hfid, hmasked⟩ := hdone hok
      refine { hlink with sends := fun _ h => (by cases h), acknowledged := fun _ => ?_ }
      obtain ⟨hbits, hdelivered⟩ := hown hfid
      refine hdelivered ((eq_zero_iff bits).mpr fun bit => ?_)
      refine Bool.eq_false_iff.mpr fun hset => ?_
      have hbit := (eq_zero_iff _).mp hmasked bit
      rw [BitVec.getLsbD_and, hset, getLsbD_bits hmtu hsize,
        decide_eq_true (hbits bit hset)] at hbit
      cases hbit
    next hok =>
      refine { hlink with sends := fun other hother => ?_ }
      cases hother
      exact hmore hok

theorem Consistent.step_isSome (hmtu : 1024 + sizeofFragmentHeader ≤ mtu)
    (hsize : msg.length < 65536) (hmsgs : 0 < numMsgs)
    (hlink : Consistent mtu numMsgs msg fragmentId link)
    (hpossible : Possible fragmentId link event) : (link.step event).isSome = true := by
  cases event with
  | transmit delayed =>
    obtain ⟨fc, hfc, htask⟩ := hpossible
    obtain ⟨fc', sent, htransmit, -⟩ := (hlink.sends fc hfc).transmit htask delayed
    rw [Link.step, mem_def.mp hfc, bind_some, htransmit]
    rfl
  | transmissionDone =>
    obtain ⟨fc, hfc, hbusy⟩ := hpossible
    obtain ⟨fc', hdone, -⟩ := (hlink.sends fc hfc).transmissionDone hbusy
    rw [Link.step, mem_def.mp hfc, bind_some, hdone]
    rfl
  | fragment | otherFragment =>
    rw [Link.step, isSome_map]
    exact processFragment_isSome (hlink.numMsgs_eq ▸ hmsgs) _ _
  | sendAck fid =>
    obtain ⟨_, hfind, htask⟩ := hpossible
    rw [Link.step, isSome_map, Fragmentation.sendAck, mem_def.mp hfind]
    dsimp only
    rw [if_pos htask]
    rfl
  | ack sent =>
    obtain ⟨hsent, hfc⟩ := hpossible
    obtain ⟨fc, hfc⟩ := isSome_iff_exists.mp hfc
    obtain ⟨fid, bits, rfl, -⟩ := hlink.acks sent hsent
    obtain ⟨_, _, hprocess, -⟩ := (hlink.sends fc hfc).ack hmtu hsize fid bits
    rw [Link.step, hfc, bind_some, receiveAck, hprocess]
    rfl

end

/-- Whatever is lost, repeated or reordered, the message is delivered once, as
it was, when its last missing fragment arrives, and the sender is done only
after that. -/
theorem run_delivers_message_once {mtu numMsgs : Nat}
    (hmtu : 1024 + sizeofFragmentHeader ≤ mtu) {msg : List UInt8}
    (hheader : sizeofMessageHeader ≤ msg.length) (hsize : msg.length ≤ 65535)
    {fragmentId : UInt32} {events : List Event} {link : Link}
    (hrun : Protocol.Run step (Possible fragmentId) (start mtu numMsgs msg fragmentId)
      events link) :
    (deliveries link.dc fragmentId =
        if ∀ bit < numFragments mtu msg.length, bit ∈ link.arrived then [msg.map some]
        else []) ∧
      (link.acknowledged = true → deliveries link.dc fragmentId = [msg.map some]) ∧
      (0 < numMsgs → ∀ event, Possible fragmentId link event →
        (link.step event).isSome = true) := by
  have hlt : msg.length < 65536 := Nat.lt_succ_iff.mpr hsize
  have hlink := hrun.invariant (Consistent mtu numMsgs msg fragmentId)
    (consistent_start hmtu hheader hlt) fun before event after hbefore hpossible hstep =>
      hbefore.step hmtu hheader hlt hpossible hstep
  refine ⟨?_, hlink.acknowledged, fun hmsgs event hpossible =>
    hlink.step_isSome hmtu hlt hmsgs hpossible⟩
  have hall_iff : (∀ bit < numFragments mtu msg.length, bit ∈ link.arrived) ↔
      ∀ bit, bit * payloadSize mtu < msg.length → bit ∈ link.arrived :=
    forall_congr' fun bit => by rw [lt_numFragments_iff hmtu]
  rcases hlink.receives.deliveries_eq hheader with ⟨hsome, hall⟩ | ⟨hnone, hmissing⟩
  · rw [if_pos (hall_iff.mpr hall), hsome]
  · rw [if_neg (fun hall => hmissing (hall_iff.mp hall)), hnone]

instance (fragmentId : UInt32) (dc : DefragmentContext) (msg : List UInt8) :
    Decidable (NotEvicted fragmentId dc msg) := by
  unfold NotEvicted
  infer_instance

instance (fragmentId : UInt32) (link : Link) (event : Event) :
    Decidable (Possible fragmentId link event) := by
  cases event <;> unfold Possible <;> infer_instance

def twoFragments : List UInt8 :=
  4 :: 1 :: replicate 1023 0

def twoFragmentsEvents : List Event :=
  [.transmit false, .transmissionDone, .transmit false, .transmissionDone,
    .fragment (fragment 1036 twoFragments 7 1) 1, .sendAck 7,
    .ack (acknowledgement 7 1), .transmit false,
    .fragment (fragment 1036 twoFragments 7 0) 2,
    .fragment (fragment 1036 twoFragments 7 1) 3, .sendAck 7,
    .ack (acknowledgement 7 0)]

theorem run_delivers_message_once_twoFragments :
    ∃ link, Protocol.Run step (Possible 7) (start 1036 1 twoFragments 7)
        twoFragmentsEvents link ∧ link.acknowledged = true ∧
      deliveries link.dc 7 = [twoFragments.map some] := by
  have hlength : twoFragments.length = 1025 := by
    rw [twoFragments, length_cons, length_cons, length_replicate]
  refine Protocol.Run.exists_of_exec_and (by decide +kernel) fun link hrun hacknowledged => ?_
  exact (run_delivers_message_once (by decide) (by rw [hlength]; decide)
    (by rw [hlength]; decide) hrun).2.1 hacknowledged

end Link

end Gnunet.Fragmentation
