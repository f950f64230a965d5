import Gnunet.Fragmentation
import Gnunet.GuardedRun

/-!
# Reassembly of fragments

`defragmentation.c`, without the estimate of the latency, which only decides
when an acknowledgement is sent.  A byte of a message context is `none` until a
fragment has written it.
-/

namespace Gnunet.Fragmentation

open BigEndian List WordSet

structure MessageContext where
  fragmentId : UInt32
  totalSize : Nat
  bits : BitVec 64
  msg : List (Option UInt8)
  lastUpdate : Nat
  ackTask : Bool
  deriving DecidableEq, Repr

structure Delivery where
  fragmentId : UInt32
  totalSize : Nat
  msg : List (Option UInt8)
  deriving DecidableEq, Repr

/-- The list of contexts begins with its head; the closure keeps the calls of
`proc`. -/
structure DefragmentContext where
  mtu : Nat
  numMsgs : Nat
  contexts : List MessageContext
  cls : List Delivery
  deriving DecidableEq, Repr

def DefragmentContext.findContext (dc : DefragmentContext) (fid : UInt32) : Option MessageContext :=
  dc.contexts.find? fun mc => mc.fragmentId == fid

def defragmentContextCreate (mtu numMsgs : Nat) : DefragmentContext :=
  ⟨mtu, numMsgs, [], []⟩

def oldest : List MessageContext → Option MessageContext
  | [] => none
  | mc :: rest =>
      some (rest.foldl (fun old pos => if pos.lastUpdate < old.lastUpdate then pos else old) mc)

def discardOldestMc (contexts : List MessageContext) : Option (List MessageContext) :=
  (oldest contexts).map fun old => contexts.erase old

def newContext (mtu : Nat) (fragmentId : UInt32) (msize now : Nat) : MessageContext where
  fragmentId
  totalSize := msize
  bits := below 64 (numFragments mtu msize)
  msg := replicate msize none
  lastUpdate := now
  ackTask := false

def writeAt (memory : List (Option UInt8)) (offset : Nat) (data : List UInt8) :
    List (Option UInt8) :=
  memory.take offset ++ data.map some ++ memory.drop (offset + data.length)

def MessageContext.store (mtu : Nat) (mc : MessageContext) (bit : Nat)
    (data : List UInt8) (now : Nat) : MessageContext :=
  if contains mc.bits bit then
    { mc with
      bits := erase mc.bits bit
      msg := writeAt mc.msg (bit * payloadSize mtu) data
      lastUpdate := now
      ackTask := true }
  else { mc with ackTask := true }

def storeFragment (dc : DefragmentContext) (mc : MessageContext) (bit : Nat)
    (data : List UInt8) (now : Nat) : Result × DefragmentContext :=
  let stored := mc.store dc.mtu bit data now
  let contexts :=
    dc.contexts.map fun c => if c.fragmentId = mc.fragmentId then stored else c
  if contains mc.bits bit then
    (.ok, { dc with
      contexts
      cls :=
        if stored.bits = 0 then
          dc.cls ++ [⟨mc.fragmentId, mc.totalSize, stored.msg⟩]
        else dc.cls })
  else (.no, { dc with contexts })

abbrev Acceptable (mtu : Nat) (msg : List UInt8) : Prop :=
  sizeofFragmentHeader ≤ msg.length ∧ msg.length ≤ mtu ∧
    sizeofMessageHeader ≤ field msg 8 2 ∧ field msg 10 2 < field msg 8 2 ∧
    field msg 10 2 % payloadSize mtu = 0 ∧
    field msg 10 2 / payloadSize mtu * payloadSize mtu + msg.length -
      sizeofFragmentHeader ≤ field msg 8 2

def processFragment (dc : DefragmentContext) (msg : List UInt8) (now : Nat) :
    Option (Result × DefragmentContext) :=
  if ¬ Acceptable dc.mtu msg then some (.syserr, dc)
  else
    let msize := field msg 8 2
    let fid := UInt32.ofNat (field msg 4 4)
    let bit := field msg 10 2 / payloadSize dc.mtu
    let data := msg.drop sizeofFragmentHeader
    match dc.findContext fid with
    | some mc =>
        if msize ≠ mc.totalSize then some (.syserr, dc)
        else some (storeFragment dc mc bit data now)
    | none =>
        let mc := newContext dc.mtu fid msize now
        (if dc.numMsgs ≤ dc.contexts.length then discardOldestMc dc.contexts
          else some dc.contexts).map fun contexts =>
            storeFragment { dc with contexts := mc :: contexts } mc bit data now

def sendAck (dc : DefragmentContext) (fid : UInt32) : Option (DefragmentContext × List UInt8) :=
  match dc.findContext fid with
  | some mc =>
      if mc.ackTask then
        some ({ dc with
          contexts := dc.contexts.map fun c =>
            if c.fragmentId = fid then { mc with ackTask := false } else c },
          acknowledgement mc.fragmentId mc.bits)
      else none
  | none => none

variable {bit size : Nat}

section

variable {mtu : Nat} (hmtu : 1024 + sizeofFragmentHeader ≤ mtu)
include hmtu

theorem payloadSize_ge : 1024 ≤ payloadSize mtu := by
  unfold payloadSize
  omega

theorem numFragments_le (hsize : size < 65536) : numFragments mtu size ≤ 64 := by
  have hsum : size + mtu - sizeofFragmentHeader - 1 = size + payloadSize mtu - 1 := by
    unfold payloadSize
    omega
  refine Nat.lt_succ_iff.mp ((Nat.div_lt_iff_lt_mul (by omega)).mpr ?_)
  omega

theorem lt_numFragments_iff : bit < numFragments mtu size ↔ bit * payloadSize mtu < size := by
  have hsum : size + mtu - sizeofFragmentHeader - 1 = size + payloadSize mtu - 1 := by
    unfold payloadSize
    omega
  rw [numFragments, hsum, Nat.lt_iff_add_one_le, Nat.le_div_iff_mul_le (by omega), Nat.add_one_mul]
  omega

theorem div_payloadSize_eq_iff : k / payloadSize mtu = bit ↔
      bit * payloadSize mtu ≤ k ∧ k < bit * payloadSize mtu + payloadSize mtu := by
  have hpayload := payloadSize_ge hmtu
  rw [Nat.div_eq_iff (by omega)]
  omega

theorem getLsbD_bits (hsize : size < 65536) (bit : Nat) :
    (below 64 (numFragments mtu size)).getLsbD bit = decide (bit * payloadSize mtu < size) := by
  rw [getLsbD_below (numFragments_le hmtu hsize)]
  exact decide_eq_decide.mpr (lt_numFragments_iff hmtu)

end

section

variable {mtu : Nat} {bits : BitVec 64} {memory : List (Option UInt8)}
  {data : List UInt8} {P : Nat → UInt8 → Prop}

theorem length_writeAt (hfit : offset + data.length ≤ memory.length) :
    (writeAt memory offset data).length = memory.length := by
  simp only [writeAt, length_append, length_take, length_map, length_drop]
  omega

theorem getElem?_writeAt (hfit : offset + data.length ≤ memory.length) (k : Nat) :
    (writeAt memory offset data)[k]? =
      if offset ≤ k ∧ k < offset + data.length then (data[k - offset]?).map some
      else memory[k]? := by
  have hfront : (memory.take offset).length = offset := by
    rw [length_take]
    omega
  unfold writeAt
  rw [append_assoc]
  split
  next hk =>
    rw [getElem?_append_right (by omega), hfront,
      getElem?_append_left (by rw [length_map]; omega), getElem?_map]
  next hk =>
    by_cases hlow : k < offset
    · rw [getElem?_append_left (by omega), getElem?_take_of_lt hlow]
    · rw [getElem?_append_right (by omega), hfront,
        getElem?_append_right (by rw [length_map]; omega), length_map,
        getElem?_drop]
      congr 1
      omega

/-- The bytes of every fragment that is not missing are there and are as they
should be. -/
def Filled (mtu : Nat) (bits : BitVec 64) (memory : List (Option UInt8))
    (P : Nat → UInt8 → Prop) : Prop :=
  ∀ k < memory.length, bits.getLsbD (k / payloadSize mtu) = false →
    ∃ byte, memory[k]? = some (some byte) ∧ P k byte

theorem Filled.store (hmtu : 1024 + sizeofFragmentHeader ≤ mtu)
    (hfilled : Filled mtu bits memory P) (hbit : bits.getLsbD bit = true)
    (hshort : data.length ≤ payloadSize mtu)
    (hfit : bit * payloadSize mtu + data.length ≤ memory.length)
    (hdata : ∀ k < memory.length, k / payloadSize mtu = bit →
      ∃ byte, data[k - bit * payloadSize mtu]? = some byte ∧ P k byte) :
    Filled mtu (erase bits bit) (writeAt memory (bit * payloadSize mtu) data) P := by
  intro k hk hmissing
  rw [length_writeAt hfit] at hk
  rw [getElem?_writeAt hfit]
  by_cases hsame : k / payloadSize mtu = bit
  · obtain ⟨byte, hbyte, hP⟩ := hdata k hk hsame
    have hlength := (List.getElem?_eq_some_iff.mp hbyte).1
    rw [if_pos ⟨((div_payloadSize_eq_iff hmtu).mp hsame).1, by omega⟩, hbyte]
    exact ⟨byte, rfl, hP⟩
  · have hout : ¬ (bit * payloadSize mtu ≤ k ∧ k < bit * payloadSize mtu + data.length) :=
      fun h => hsame ((div_payloadSize_eq_iff hmtu).mpr ⟨h.1, by omega⟩)
    rw [if_neg hout]
    refine hfilled k hk ?_
    rw [getLsbD_erase hbit] at hmissing
    simpa [hsame] using hmissing

theorem Filled.complete (hfilled : Filled mtu 0 memory P) :
    ∃ bytes : List UInt8, memory = bytes.map some ∧ ∀ k byte, bytes[k]? = some byte → P k byte := by
  have hall : ∀ k < memory.length, ∃ byte, memory[k]? = some (some byte) ∧ P k byte :=
    fun k hk => hfilled k hk BitVec.getLsbD_zero
  have hread : ∀ k : Nat, memory[k]? = ((memory.map (·.getD 0)).map some)[k]? := by
    intro k
    rw [getElem?_map, getElem?_map]
    by_cases hk : k < memory.length
    · obtain ⟨byte, hbyte, -⟩ := hall k hk
      rw [hbyte]
      rfl
    · rw [getElem?_eq_none (Nat.le_of_not_lt hk)]
      rfl
  refine ⟨memory.map (·.getD 0), ext_getElem? hread, ?_⟩
  intro k byte hbyte
  rw [getElem?_map] at hbyte
  by_cases hk : k < memory.length
  · obtain ⟨_, hbyte', hP⟩ := hall k hk
    rw [hbyte'] at hbyte
    cases hbyte
    exact hP
  · rw [getElem?_eq_none (Nat.le_of_not_lt hk)] at hbyte
    cases hbyte

end

theorem findContext_some {dc : DefragmentContext}
    (hfind : dc.findContext fid = some mc) : mc ∈ dc.contexts ∧ mc.fragmentId = fid :=
  ⟨mem_of_find?_eq_some hfind, beq_iff_eq.mp (find?_some hfind :)⟩

def fragmentIdOf (msg : List UInt8) : UInt32 :=
  UInt32.ofNat (field msg 4 4)

def bitOf (mtu : Nat) (msg : List UInt8) : Nat :=
  field msg 10 2 / payloadSize mtu

/-- The fragment belongs to no context, and in a list of contexts one was
opened for it. -/
structure Opened (dc : DefragmentContext) (msg : List UInt8)
    (contexts : List MessageContext) : Prop where
  absent : ∀ mc ∈ dc.contexts, mc.fragmentId ≠ fragmentIdOf msg
  kept : dc.numMsgs ≤ dc.contexts.length ∧ discardOldestMc dc.contexts = some contexts ∨
    dc.contexts.length < dc.numMsgs ∧ contexts = dc.contexts

theorem Opened.subset (hopened : Opened dc msg contexts) : ∀ mc ∈ contexts, mc ∈ dc.contexts := by
  rcases hopened.kept with ⟨-, hdiscard⟩ | ⟨-, rfl⟩
  · obtain ⟨_, -, rfl⟩ := Option.map_eq_some_iff.mp hdiscard
    exact fun mc hmc => mem_of_mem_erase hmc
  · exact fun mc hmc => hmc

variable {dc' : DefragmentContext} {now : Nat}

/-- What a fragment can do: nothing, or it is stored in the context that it
belongs to, or in a new one. -/
theorem processFragment_cases
    (hprocess : processFragment dc msg now = some (result, dc')) :
    dc' = dc ∧ (Acceptable dc.mtu msg → ∃ mc, dc.findContext (fragmentIdOf msg) = some mc ∧
        mc.totalSize ≠ field msg 8 2) ∨
    Acceptable dc.mtu msg ∧ ((∃ mc, dc.findContext (fragmentIdOf msg) = some mc ∧
          mc.totalSize = field msg 8 2 ∧
          storeFragment dc mc (bitOf dc.mtu msg) (msg.drop sizeofFragmentHeader) now =
            (result, dc')) ∨
        ∃ contexts, Opened dc msg contexts ∧ storeFragment { dc with
                contexts := newContext dc.mtu (fragmentIdOf msg) (field msg 8 2) now :: contexts }
              (newContext dc.mtu (fragmentIdOf msg) (field msg 8 2) now)
              (bitOf dc.mtu msg) (msg.drop sizeofFragmentHeader) now =
            (result, dc')) := by
  unfold processFragment at hprocess
  split at hprocess
  next hunacceptable =>
    cases hprocess
    exact .inl ⟨rfl, fun hacceptable => absurd hacceptable hunacceptable⟩
  next hacceptable =>
    have hacceptable := not_not.mp hacceptable
    dsimp only at hprocess
    split at hprocess
    next mc hfind =>
      split at hprocess
      next hsize =>
        cases hprocess
        exact .inl ⟨rfl, fun _ => ⟨mc, hfind, hsize.symm⟩⟩
      next hsize =>
        exact .inr ⟨hacceptable, .inl ⟨mc, hfind, (not_not.mp hsize).symm,
          Option.some.inj hprocess⟩⟩
    next hfind =>
      obtain ⟨contexts, hcontexts, hstore⟩ := Option.map_eq_some_iff.mp hprocess
      refine .inr ⟨hacceptable, .inr ⟨contexts, ⟨?_, ?_⟩, hstore⟩⟩
      · intro mc hmc hid
        exact find?_eq_none.mp hfind mc hmc (beq_iff_eq.mpr hid)
      · split at hcontexts
        next hfull =>
          exact .inl ⟨hfull, hcontexts⟩
        next hfull =>
          exact .inr ⟨Nat.lt_of_not_le hfull, (Option.some.inj hcontexts).symm⟩

theorem processFragment_isSome {dc : DefragmentContext} (hmsgs : 0 < dc.numMsgs)
    (msg : List UInt8) (now : Nat) : (processFragment dc msg now).isSome = true := by
  unfold processFragment
  split
  · rfl
  · dsimp only
    split
    · split <;> rfl
    · split
      next hfull =>
        cases hcontexts : dc.contexts with
        | nil =>
          rw [hcontexts, length_nil] at hfull
          omega
        | cons => rfl
      · rfl

theorem storeFragment_mtu (dc : DefragmentContext) (mc : MessageContext) (bit : Nat)
    (data : List UInt8) (now : Nat) : (storeFragment dc mc bit data now).2.mtu = dc.mtu ∧
      (storeFragment dc mc bit data now).2.numMsgs = dc.numMsgs := by
  unfold storeFragment
  split <;> exact ⟨rfl, rfl⟩

theorem contexts_storeFragment :
    (storeFragment dc mc bit data now).2.contexts = dc.contexts.map fun c =>
      if c.fragmentId = mc.fragmentId then mc.store dc.mtu bit data now else c := by
  unfold storeFragment
  split <;> rfl

theorem store_fragmentId (mc : MessageContext) (mtu bit : Nat) (data : List UInt8)
    (now : Nat) : (mc.store mtu bit data now).fragmentId = mc.fragmentId := by
  unfold MessageContext.store
  split <;> rfl

theorem store_totalSize (mc : MessageContext) :
    (mc.store mtu bit data now).totalSize = mc.totalSize := by
  unfold MessageContext.store
  split <;> rfl

theorem mem_storeFragment (hc : c ∈ (storeFragment dc mc bit data now).2.contexts) :
    c = mc.store dc.mtu bit data now ∨ c ∈ dc.contexts ∧ c.fragmentId ≠ mc.fragmentId := by
  rw [contexts_storeFragment] at hc
  obtain ⟨_, hbefore, rfl⟩ := mem_map.mp hc
  split
  · exact .inl rfl
  next hid =>
    exact .inr ⟨hbefore, hid⟩

theorem mem_cls_storeFragment (hdelivery : delivery ∈ (storeFragment dc mc bit data now).2.cls) :
    delivery ∈ dc.cls ∨ (mc.store dc.mtu bit data now).bits = 0 ∧
      delivery = ⟨mc.fragmentId, mc.totalSize, (mc.store dc.mtu bit data now).msg⟩ := by
  unfold storeFragment at hdelivery
  dsimp only at hdelivery
  split at hdelivery
  · split at hdelivery
    next hbits =>
      rcases mem_append.mp hdelivery with hold | hnew
      · exact .inl hold
      · exact .inr ⟨hbits, mem_singleton.mp hnew⟩
    · exact .inl hdelivery
  · exact .inl hdelivery

inductive DefragmentEvent where
  | fragment (msg : List UInt8) (now : Nat)
  | sendAck (fid : UInt32)

def defragmentStep (dc : DefragmentContext) : DefragmentEvent → Option DefragmentContext
  | .fragment msg now => (processFragment dc msg now).map Prod.snd
  | .sendAck fid => (sendAck dc fid).map Prod.fst

/-- The fragment is of the size that its context has, and its bit has not been received. -/
def Missing (dc : DefragmentContext) (msg : List UInt8) : Prop :=
  ∀ mc, dc.findContext (fragmentIdOf msg) = some mc →
    mc.totalSize = field msg 8 2 ∧ contains mc.bits (bitOf dc.mtu msg) = true

/-- The fragment brings all the bytes of the part of the message that its bit
stands for, and the first one the size of the whole message. -/
structure Whole (mtu : Nat) (msg : List UInt8) : Prop where
  length_eq : (msg.drop sizeofFragmentHeader).length =
    min (payloadSize mtu) (field msg 8 2 - field msg 10 2)
  header_eq : field msg 10 2 = 0 → headerSize (msg.drop sizeofFragmentHeader) = field msg 8 2

def Honest (dc : DefragmentContext) : DefragmentEvent → Prop
  | .fragment msg _ => Acceptable dc.mtu msg → Missing dc msg → Whole dc.mtu msg
  | .sendAck _ => True

structure MessageContext.Intact (mtu : Nat) (mc : MessageContext) : Prop where
  length_eq : mc.msg.length = mc.totalSize
  size_ge : sizeofMessageHeader ≤ mc.totalSize
  filled : Filled mtu mc.bits mc.msg fun _ _ => True
  header : mc.bits.getLsbD 0 = false → ∃ high low : UInt8,
    mc.msg[0]? = some (some high) ∧ mc.msg[1]? = some (some low) ∧
      high.toNat * 256 + low.toNat = mc.totalSize

def Delivery.WellFormed (delivery : Delivery) : Prop :=
  ∃ bytes : List UInt8, delivery.msg = bytes.map some ∧
    bytes.length = delivery.totalSize ∧ headerSize bytes = delivery.totalSize

section

variable {mtu : Nat} {mc : MessageContext}

theorem MessageContext.intact_new (hmtu : 1024 + sizeofFragmentHeader ≤ mtu)
    (fid : UInt32) (hge : sizeofMessageHeader ≤ msize)
    (hlt : msize < 65536) (now : Nat) : (newContext mtu fid msize now).Intact mtu := by
  have hpos : 0 < msize := (by decide : 0 < sizeofMessageHeader).trans_le hge
  refine ⟨length_replicate, hge, ?_, ?_⟩
  · intro k hk hmissing
    have hk' : k < msize := by simpa [newContext] using hk
    rw [newContext, getLsbD_bits hmtu hlt, decide_eq_false_iff_not] at hmissing
    exact absurd ((Nat.div_mul_le_self k _).trans_lt hk') hmissing
  · intro hmissing
    rw [newContext, getLsbD_bits hmtu hlt, decide_eq_false_iff_not, Nat.zero_mul] at hmissing
    exact absurd hpos hmissing

theorem headerSize_eq_iff (hpos : 0 < size) (hheader : headerSize data = size) :
    ∃ high low : UInt8, data[0]? = some high ∧ data[1]? = some low ∧
      high.toNat * 256 + low.toNat = size := by
  match data, hheader with
  | [], hheader => exact absurd hheader.symm hpos.ne'
  | [_], hheader => exact absurd hheader.symm hpos.ne'
  | high :: low :: _, hheader => exact ⟨high, low, rfl, rfl, hheader⟩

theorem MessageContext.Intact.store (hmtu : 1024 + sizeofFragmentHeader ≤ mtu)
    (hintact : mc.Intact mtu) {data : List UInt8} (now : Nat)
    (hshort : data.length ≤ payloadSize mtu)
    (hfit : bit * payloadSize mtu + data.length ≤ mc.totalSize)
    (hwhole : contains mc.bits bit = true →
      data.length = min (payloadSize mtu) (mc.totalSize - bit * payloadSize mtu) ∧
        (bit = 0 → headerSize data = mc.totalSize)) : (mc.store mtu bit data now).Intact mtu := by
  unfold MessageContext.store
  split
  next hcontains =>
    obtain ⟨_, hheader⟩ := hwhole hcontains
    have hbit := contains_eq mc.bits bit ▸ hcontains
    rw [← hintact.length_eq] at hfit
    refine ⟨?_, hintact.size_ge, ?_, ?_⟩
    · exact (length_writeAt hfit).trans hintact.length_eq
    · refine hintact.filled.store hmtu hbit hshort hfit fun k hk hsame => ?_
      have hrange := (div_payloadSize_eq_iff hmtu).mp hsame
      rw [hintact.length_eq] at hk
      have hindex : k - bit * payloadSize mtu < data.length := by omega
      exact ⟨_, getElem?_eq_getElem hindex, trivial⟩
    · intro hmissing
      rw [getLsbD_erase hbit] at hmissing
      rw [getElem?_writeAt hfit, getElem?_writeAt hfit]
      by_cases hzero : bit = 0
      · subst hzero
        have hge := hintact.size_ge
        unfold sizeofMessageHeader at hge
        have hpayload := payloadSize_ge hmtu
        obtain ⟨high, low, hhigh, hlow, hsize⟩ := headerSize_eq_iff (by omega) (hheader rfl)
        refine ⟨high, low, ?_, ?_, hsize⟩
        · rw [if_pos (by omega)]
          simp [hhigh]
        · rw [if_pos (by omega)]
          simp [hlow]
      · have hpayload := payloadSize_ge hmtu
        have hfar : payloadSize mtu ≤ bit * payloadSize mtu :=
          Nat.le_mul_of_pos_left _ (Nat.pos_of_ne_zero hzero)
        rw [if_neg (by omega), if_neg (by omega)]
        exact hintact.header (by simpa [Ne.symm hzero] using hmissing)
  · exact ⟨hintact.length_eq, hintact.size_ge, hintact.filled, hintact.header⟩

theorem MessageContext.Intact.wellFormed (hintact : mc.Intact mtu) (hbits : mc.bits = 0) :
    Delivery.WellFormed ⟨mc.fragmentId, mc.totalSize, mc.msg⟩ := by
  have hfilled := hintact.filled
  rw [hbits] at hfilled
  obtain ⟨bytes, hbytes, -⟩ := hfilled.complete
  refine ⟨bytes, hbytes, ?_, ?_⟩
  · rw [← hintact.length_eq, hbytes, length_map]
  · obtain ⟨_, _, hhigh, hlow, hsize⟩ :=
      hintact.header (by rw [hbits]; exact BitVec.getLsbD_zero)
    rw [hbytes] at hhigh hlow
    match bytes, hhigh, hlow with
    | first :: second :: _, hhigh, hlow =>
      simp only [map_cons, getElem?_cons_zero, getElem?_cons_succ, Option.some.injEq] at hhigh hlow
      rw [hhigh, hlow]
      exact hsize

end

/-- Every context is intact, and so was every message given to `proc`. -/
structure Sound (mtu : Nat) (dc : DefragmentContext) : Prop where
  mtu_eq : dc.mtu = mtu
  intact : ∀ mc ∈ dc.contexts, mc.Intact mtu
  wellFormed : ∀ delivery ∈ dc.cls, delivery.WellFormed

section

variable {mtu : Nat} {dc : DefragmentContext} {msg : List UInt8}

theorem length_data_le (hacceptable : Acceptable mtu msg) :
    (msg.drop sizeofFragmentHeader).length ≤ payloadSize mtu ∧
      bitOf mtu msg * payloadSize mtu + (msg.drop sizeofFragmentHeader).length ≤ field msg 8 2 := by
  obtain ⟨_, _, -, -, -, _⟩ := hacceptable
  unfold bitOf payloadSize at *
  rw [length_drop]
  omega

theorem MessageContext.Intact.storeFragment (hmtu : 1024 + sizeofFragmentHeader ≤ mtu)
    {mc : MessageContext} (hintact : mc.Intact mtu) (hacceptable : Acceptable mtu msg)
    (hsize : mc.totalSize = field msg 8 2)
    (hwhole : contains mc.bits (bitOf mtu msg) = true → Whole mtu msg) (now : Nat) :
    (mc.store mtu (bitOf mtu msg) (msg.drop sizeofFragmentHeader) now).Intact mtu := by
  obtain ⟨hshort, hfit⟩ := length_data_le hacceptable
  have hoffset : bitOf mtu msg * payloadSize mtu = field msg 10 2 :=
    Nat.div_mul_cancel (Nat.dvd_of_mod_eq_zero hacceptable.2.2.2.2.1)
  refine hintact.store hmtu now hshort (hsize ▸ hfit) fun hcontains => ?_
  have hwhole := hwhole hcontains
  refine ⟨by rw [hoffset, hsize]; exact hwhole.length_eq, fun hzero => ?_⟩
  rw [hzero, Nat.zero_mul] at hoffset
  rw [hsize]
  exact hwhole.header_eq hoffset.symm

theorem Sound.storeFragment (hsound : Sound mtu dc) {mc : MessageContext}
    (hintact : (mc.store mtu bit data now).Intact mtu) :
    Sound mtu (storeFragment dc mc bit data now).2 := by
  have hmtu := hsound.mtu_eq
  subst hmtu
  refine ⟨(storeFragment_mtu dc mc bit data now).1, ?_, ?_⟩
  · intro c hc
    rcases mem_storeFragment hc with rfl | ⟨hold, -⟩
    · exact hintact
    · exact hsound.intact c hold
  · intro delivery hdelivery
    rcases mem_cls_storeFragment hdelivery with hold | ⟨hbits, rfl⟩
    · exact hsound.wellFormed delivery hold
    · have hwellFormed := hintact.wellFormed hbits
      rwa [store_fragmentId, store_totalSize] at hwellFormed

theorem Sound.fragment (hmtu : 1024 + sizeofFragmentHeader ≤ mtu) (hsound : Sound mtu dc)
    (hhonest : Acceptable dc.mtu msg → Missing dc msg → Whole dc.mtu msg)
    (hprocess : processFragment dc msg now = some (result, dc')) : Sound mtu dc' := by
  have hmtu_eq := hsound.mtu_eq
  subst hmtu_eq
  rcases processFragment_cases hprocess with ⟨rfl, -⟩ | ⟨hacceptable, hstored⟩
  · exact hsound
  rcases hstored with ⟨mc, hfind, hsize, hstore⟩ | ⟨contexts, hopened, hstore⟩
  · have hintact := hsound.intact mc (findContext_some hfind).1
    have hafter := hsound.storeFragment
      (hintact.storeFragment hmtu hacceptable hsize (fun hcontains =>
        hhonest hacceptable fun other hother => by
          rw [hfind] at hother
          cases hother
          exact ⟨hsize, hcontains⟩) now)
    rw [hstore] at hafter
    exact hafter
  · have hnew : (newContext dc.mtu (fragmentIdOf msg) (field msg 8 2) now).Intact dc.mtu :=
      MessageContext.intact_new hmtu _ hacceptable.2.2.1 (field_lt msg 8 2) now
    have hopen : Sound dc.mtu { dc with
        contexts := newContext dc.mtu (fragmentIdOf msg) (field msg 8 2) now :: contexts } := by
      refine ⟨rfl, fun mc hmc => ?_, hsound.wellFormed⟩
      rcases mem_cons.mp hmc with rfl | hmc
      · exact hnew
      · exact hsound.intact mc (hopened.subset mc hmc)
    have hafter := hopen.storeFragment (hnew.storeFragment hmtu hacceptable rfl (fun _ =>
        hhonest hacceptable fun other hother =>
          absurd (findContext_some hother).2
            (hopened.absent other (findContext_some hother).1)) now)
    rw [hstore] at hafter
    exact hafter

theorem Sound.sendAck {ack} (hsound : Sound mtu dc)
    (hack : sendAck dc fid = some (dc', ack)) : Sound mtu dc' := by
  unfold Fragmentation.sendAck at hack
  split at hack
  next mc hfind =>
    split at hack
    · cases hack
      refine ⟨hsound.mtu_eq, fun c hc => ?_, hsound.wellFormed⟩
      obtain ⟨before, hbefore, rfl⟩ := mem_map.mp hc
      have hintact := hsound.intact mc (findContext_some hfind).1
      split
      · exact ⟨hintact.length_eq, hintact.size_ge, hintact.filled, hintact.header⟩
      · exact hsound.intact before hbefore
    · cases hack
  · cases hack

theorem Sound.step (hmtu : 1024 + sizeofFragmentHeader ≤ mtu) (hsound : Sound mtu dc)
    (hhonest : Honest dc event) (hstep : defragmentStep dc event = some dc') : Sound mtu dc' := by
  cases event with
  | fragment msg now =>
    obtain ⟨⟨_, after⟩, hprocess, rfl⟩ := Option.map_eq_some_iff.mp hstep
    exact hsound.fragment hmtu hhonest hprocess
  | sendAck fid =>
    obtain ⟨⟨_, _⟩, hack, rfl⟩ := Option.map_eq_some_iff.mp hstep
    exact hsound.sendAck hack

end

/-- Fragments that bring all their bytes are put together to well-formed
messages, whoever sends them and however they are mixed. -/
theorem honest_run_delivers_wellFormed {mtu numMsgs : Nat}
    (hmtu : 1024 + sizeofFragmentHeader ≤ mtu) {events : List DefragmentEvent}
    {dc : DefragmentContext}
    (hrun : Protocol.Run defragmentStep Honest (defragmentContextCreate mtu numMsgs)
      events dc) :
    ∀ delivery ∈ dc.cls, delivery.WellFormed := by
  have hstart : Sound mtu (defragmentContextCreate mtu numMsgs) :=
    ⟨rfl, by simp [defragmentContextCreate], by simp [defragmentContextCreate]⟩
  have hsound := hrun.invariant (Sound mtu) hstart fun before event after hbefore hhonest
    hstep => hbefore.step hmtu hhonest hstep
  exact hsound.wellFormed

def headerFragment : List UInt8 :=
  [0, 16, 0, 18, 0, 0, 0, 7, 0, 4, 0, 0, 0, 4, 0, 1]

def firstFragment : List UInt8 :=
  [4, 12, 0, 18, 0, 0, 0, 9, 4, 6, 0, 0] ++ [4, 6, 0, 1] ++ replicate 1020 0

def lastFragment : List UInt8 :=
  [0, 18, 0, 18, 0, 0, 0, 9, 4, 6, 4, 0] ++ replicate 6 5

instance (dc : DefragmentContext) (msg : List UInt8) : Decidable (Missing dc msg) :=
  inferInstanceAs (Decidable (∀ mc ∈ dc.findContext (fragmentIdOf msg), _))

instance (mtu : Nat) (msg : List UInt8) : Decidable (Whole mtu msg) :=
  decidable_of_iff (_ ∧ _) ⟨fun h => ⟨h.1, h.2⟩, fun h => ⟨h.length_eq, h.header_eq⟩⟩

instance (dc : DefragmentContext) (event : DefragmentEvent) : Decidable (Honest dc event) := by
  cases event <;> unfold Honest <;> infer_instance

/-- Two messages, the second in two fragments and with an empty fragment of another size
between them, which is refused. -/
theorem honest_run_delivers_wellFormed_two :
    ∃ dc, Protocol.Run defragmentStep Honest (defragmentContextCreate 1036 2)
        [.fragment lastFragment 0, .fragment [0, 12, 0, 18, 0, 0, 0, 9, 0, 5, 0, 0] 1,
          .fragment headerFragment 2, .fragment firstFragment 3] dc ∧
      dc.cls.map Delivery.totalSize = [4, 1030] ∧ ∀ delivery ∈ dc.cls, delivery.WellFormed :=
  Protocol.Run.exists_of_exec_and (by decide +kernel) fun _ hrun _ =>
    honest_run_delivers_wellFormed (by decide) hrun

/-- A fragment without payload counts as the part of the message that it names,
so that a message is complete of which no byte has arrived. -/
theorem empty_fragment_completes_message :
    ∃ dc, Protocol.Run defragmentStep (fun _ _ => True) (defragmentContextCreate 1036 1)
        [.fragment [0, 12, 0, 18, 0, 0, 0, 7, 0, 4, 0, 0] 0] dc ∧
      dc.cls = [⟨7, 4, [none, none, none, none]⟩] ∧
      ¬ ∀ delivery ∈ dc.cls, delivery.WellFormed := by
  refine ⟨_, .single trivial rfl, by decide +kernel, ?_⟩
  intro hall
  obtain ⟨bytes, hbytes, -⟩ := hall ⟨7, 4, [none, none, none, none]⟩ (by decide +kernel)
  cases bytes with
  | _ => cases hbytes

end Gnunet.Fragmentation
