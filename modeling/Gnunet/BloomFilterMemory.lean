import Mathlib.Data.List.GetD
import Gnunet.BloomFilter

/-!
# Filters without a file

The bits of the array as a function of the position, and what the iteration over the
positions of an element does.  A filter that is only in memory is copied into messages
and made from them again: adding sets the bits of the element and clears none, so that
what was added is found in every later copy.
-/

namespace Gnunet.Container.BloomFilter

open List Option

/-! ## Positions in lists of bytes -/

def bit (bitArray : List UInt8) (pos : Nat) : Bool :=
  (bitArray.getD (pos / 8) 0).toBitVec.getLsbD (pos % 8)

theorem targetBit_toBitVec : (targetBit bitIdx).toBitVec = BitVec.twoPow 8 (bitIdx.toNat % 8) := by
  rw [targetBit, Nat.one_shiftLeft]
  apply BitVec.eq_of_toNat_eq
  rw [BitVec.toNat_twoPow]
  rfl

variable {bitArray : List UInt8}

theorem bit_set {byte : UInt8} (hpos : pos / 8 < bitArray.length)
    (hbyte : ∀ i < 8, byte.toBitVec.getLsbD i =
      if i = pos % 8 then value else (bitArray.getD (pos / 8) 0).toBitVec.getLsbD i) (other : Nat) :
    bit (bitArray.set (pos / 8) byte) other = if other = pos then value else bit bitArray other := by
  rw [bit, getD_eq_getElem?_getD, getElem?_set]
  by_cases hslot : pos / 8 = other / 8
  · rw [if_pos hslot, if_pos hpos, getD_some, hbyte _ (Nat.mod_lt _ (by decide)), hslot]
    by_cases hother : other = pos
    · rw [if_pos hother, if_pos (by rw [hother])]
    · rw [if_neg hother, if_neg (by omega)]
      rfl
  · rw [if_neg hslot, if_neg (fun h => hslot (by rw [h])), bit, getD_eq_getElem?_getD]

theorem setBit_spec {bitIdx : UInt32} (hbit : bitIdx.toNat < 8 * bitArray.length) :
    ∃ bitArray', setBit bitArray bitIdx = some bitArray' ∧ bitArray'.length = bitArray.length ∧
      ∀ pos, bit bitArray' pos = if pos = bitIdx.toNat then true else bit bitArray pos := by
  have hslot : bitIdx.toNat / 8 < bitArray.length := by omega
  refine ⟨_, by rw [setBit, getElem?_eq_getElem hslot, map_some], length_set,
    fun pos => bit_set hslot (fun i hi => ?_) pos⟩
  rw [UInt8.toBitVec_or, BitVec.getLsbD_or, targetBit_toBitVec, BitVec.getLsbD_twoPow,
    getD_eq_getElem _ _ hslot]
  by_cases heq : i = bitIdx.toNat % 8
  · simp [heq, Nat.mod_lt]
  · simp [heq, Ne.symm heq]

theorem testBit_eq {bitIdx : UInt32} (hbit : bitIdx.toNat < 8 * bitArray.length) :
    testBit bitArray bitIdx = some (bit bitArray bitIdx.toNat) := by
  have hslot : bitIdx.toNat / 8 < bitArray.length := by omega
  have hi : bitIdx.toNat % 8 < 8 := Nat.mod_lt _ (by decide)
  rw [testBit, getElem?_eq_getElem hslot, map_some, bit, getD_eq_getElem _ _ hslot]
  congr 1
  have hzero : ∀ byte : UInt8, (byte != 0) = (byte.toBitVec != 0#8) := by
    intro byte
    by_cases hbyte : byte = 0
    · rw [hbyte]
      rfl
    · have hvec : byte.toBitVec ≠ 0#8 := fun h => hbyte (UInt8.toBitVec_inj.mp h)
      rw [bne_iff_ne.mpr hbyte, bne_iff_ne.mpr hvec]
  rw [hzero, UInt8.toBitVec_and, targetBit_toBitVec, BitVec.and_twoPow]
  by_cases hset : (bitArray[bitIdx.toNat / 8].toBitVec.getLsbD (bitIdx.toNat % 8)) = true
  · rw [if_pos hset, hset]
    rw [bne_iff_ne]
    intro h
    have := congrArg (fun v => BitVec.getLsbD v (bitIdx.toNat % 8)) h
    simp [hi] at this
  · rw [if_neg hset, Bool.eq_false_iff.mpr hset]
    rfl

section

variable (platform : Platform) {σ : Type} (callback : σ → UInt32 → Option (Bool × σ))
  (modulus : Nat)

/-- The words of `key`, of its hash, of the hash of that and so on. -/
def hashWords : Nat → HashCode → List UInt32
  | 0, _ => []
  | rounds + 1, key => key.bits.toList ++ hashWords rounds (platform.cryptoHash key)

def positions (bitCount : Nat) (key : HashCode) : List UInt32 :=
  ((hashWords platform bitCount key).take bitCount).map (bitOf platform modulus)

def visit : List UInt32 → σ → Option σ
  | [], state => some state
  | pos :: rest, state => (callback state pos).bind fun (continued, state) =>
      if continued then visit rest state else some state

theorem iterateSlots_visit (more : Nat → List UInt32) (words : List UInt32) :
    ∀ (count : Nat) (state : σ), 0 < count → more 0 = [] →
      ((iterateSlots platform callback modulus words count state).bind
        fun (continued, count, state) =>
          if continued then visit callback (more count) state else some state) =
      visit callback ((words.take count).map (bitOf platform modulus) ++
        more (count - words.length)) state := by
  induction words with
  | nil =>
    intro count state _ _
    rw [iterateSlots, bind_some, take_nil, map_nil, nil_append]
    rfl
  | cons word words ih =>
    intro count state hcount hmore
    obtain ⟨count, rfl⟩ : ∃ n, count = n + 1 := ⟨count - 1, by omega⟩
    rw [iterateSlots, take_succ_cons, map_cons, cons_append, visit]
    cases hcall : callback state (bitOf platform modulus word) with
    | none => rfl
    | some result =>
      obtain ⟨continued, state'⟩ := result
      rw [bind_some, bind_some]
      cases continued with
      | false => rfl
      | true =>
        dsimp only
        rw [if_pos rfl, if_pos rfl, Nat.add_sub_cancel]
        by_cases hzero : count = 0
        · subst hzero
          rw [if_pos rfl, bind_some, if_pos rfl, hmore, take_zero, map_nil, nil_append]
          have : 0 + 1 - (word :: words).length = 0 := by
            rw [length_cons]
            omega
          rw [this, hmore]
        · rw [if_neg hzero, ih count state' (by omega) hmore]
          have : count + 1 - (word :: words).length = count - words.length := by
            rw [length_cons]
            omega
          rw [this]

theorem iterateSlots_lt (words : List UInt32) :
    ∀ {count count' : Nat} {state state' : σ}, 0 < count →
      iterateSlots platform callback modulus words count state = some (true, count', state') →
      count' ≤ count ∧ (words ≠ [] → count' < count) := by
  induction words with
  | nil =>
    intro count count' state state' _ hloop
    cases hloop
    exact ⟨le_rfl, fun h => absurd rfl h⟩
  | cons word words ih =>
    intro count count' state state' hcount hloop
    rw [iterateSlots, bind_eq_some_iff] at hloop
    obtain ⟨⟨continued, _⟩, -, hloop⟩ := hloop
    have hlt : count' < count := by
      cases continued with
      | false => cases hloop
      | true =>
        dsimp only at hloop
        rw [if_pos rfl] at hloop
        split at hloop
        · cases hloop
          exact hcount
        · have hle := (ih (by omega) hloop).1
          omega
    exact ⟨Nat.le_of_lt hlt, fun _ => hlt⟩

theorem iterateRounds_visit : ∀ (rounds : Nat) (key : HashCode) (count : Nat) (state : σ),
    count ≤ rounds → iterateRounds platform callback modulus rounds key count state =
        visit callback (((hashWords platform rounds key).take count).map
          (bitOf platform modulus)) state
  | 0, key, count, state, hcount => by
    rw [Nat.le_zero.mp hcount, iterateRounds]
    rfl
  | rounds + 1, key, count, state, hcount => by
    rw [iterateRounds]
    by_cases hpos : count > 0
    · have hlength : key.bits.toList.length = 16 := key.bits.length_toList
      have hloop := iterateSlots_visit platform callback modulus
        (fun count => ((hashWords platform rounds (platform.cryptoHash key)).take count).map
          (bitOf platform modulus)) key.bits.toList count state hpos rfl
      rw [if_pos hpos, hashWords, take_append, map_append, ← hloop]
      cases hslots : iterateSlots platform callback modulus key.bits.toList count state with
      | none => rfl
      | some result =>
        obtain ⟨continued, count', state'⟩ := result
        cases continued with
        | false => rfl
        | true =>
          have hwords : key.bits.toList ≠ [] := by
            intro h
            rw [h] at hlength
            cases hlength
          have hlt := (iterateSlots_lt platform callback modulus _ hpos hslots).2 hwords
          show iterateRounds platform callback modulus rounds _ count' state' = visit callback _ state'
          by_cases hmore : count' > 0
          · rw [if_pos hmore, iterateRounds_visit rounds _ count' state' (by omega)]
          · rw [iterateRounds_visit rounds _ count' state' (by omega),
              Nat.eq_zero_of_not_pos hmore]
            rfl
    · rw [if_neg hpos, Nat.eq_zero_of_not_pos hpos]
      rfl

theorem iterateBits_visit {bf : BloomFilter} (hsize : 0 < bf.bitArraySize)
    (hlimit : bf.bitArraySize < 2 ^ 61) (key : HashCode) (state : σ) :
    bf.iterateBits platform callback key state =
      visit callback (positions platform (8 * bf.bitArraySize)
        (bitCount bf.addressesPerElement) key) state := by
  have hmod : bf.bitArraySize * 8 % 2 ^ 64 = 8 * bf.bitArraySize := by
    rw [Nat.mod_eq_of_lt (by omega), Nat.mul_comm]
  rw [iterateBits, hmod, if_pos ⟨hsize, by omega⟩, iterateRounds_visit _ _ _ _ _ _ _ le_rfl]
  rfl

variable {platform callback modulus}

theorem lt_of_mem_positions {count : Nat} {pos : UInt32} (hmodulus : 0 < modulus)
    (hpos : pos ∈ positions platform modulus count key) : pos.toNat < modulus := by
  rw [positions, List.mem_map] at hpos
  obtain ⟨word, -, rfl⟩ := hpos
  have hword := (platform.ntohl word).toNat_lt
  rw [bitOf, UInt32.toNat_ofNat_of_lt' (lt_of_le_of_lt (Nat.mod_le _ _) hword)]
  exact Nat.mod_lt _ hmodulus

/-- A callback that goes on at every position and keeps `Inv`, which may depend on the
positions that are left. -/
theorem visit_invariant (Inv : List UInt32 → σ → Prop)
    (hstep : ∀ pos rest state, Inv (pos :: rest) state →
      ∃ state', callback state pos = some (true, state') ∧ Inv rest state') :
    ∀ (rest : List UInt32) (state : σ), Inv rest state →
      ∃ state', visit callback rest state = some state' ∧ Inv [] state'
  | [], state, hinv => ⟨state, rfl, hinv⟩
  | pos :: rest, state, hinv => by
    obtain ⟨state', hcall, hinv'⟩ := hstep pos rest state hinv
    obtain ⟨final, hvisit, hfinal⟩ := visit_invariant Inv hstep rest state' hinv'
    exact ⟨final, by rw [visit, hcall, bind_some]; exact hvisit, hfinal⟩

end


variable {platform : Platform} {size : Nat} {k : UInt32} {bf : BloomFilter}

theorem visit_testBit : ∀ rest : List UInt32,
    (∀ pos ∈ rest, pos.toNat < 8 * bf.bitArray.length ∧ bit bf.bitArray pos.toNat = true) →
    visit (testBitCallback bf) rest true = some true
  | [], _ => rfl
  | pos :: rest, hrest => by
    have hpos := hrest pos mem_cons_self
    rw [visit, testBitCallback, testBit_eq hpos.1, hpos.2, map_some, if_pos rfl, bind_some]
    exact visit_testBit rest fun other hother => hrest other (mem_cons_of_mem _ hother)

structure InMemory (size : Nat) (k : UInt32) (bf : BloomFilter) : Prop where
  positive : 0 < size
  limit : size < 2 ^ 61
  array : bf.bitArray.length = size
  file : bf.file = none
  bytes : bf.bitArraySize = size
  addresses : bf.addressesPerElement = k

def Contains (platform : Platform) (size : Nat) (k : UInt32) (bitArray : List UInt8)
    (e : HashCode) : Prop :=
  ∀ pos ∈ positions platform (8 * size) (bitCount k) e, bit bitArray pos.toNat = true

theorem Contains.mono (hcontains : Contains platform size k bitArray e)
    (hmono : ∀ pos, bit bitArray pos = true → bit bitArray' pos = true) :
    Contains platform size k bitArray' e :=
  fun pos hpos => hmono pos.toNat (hcontains pos hpos)

theorem init_spec (hinit : init platform data size k = some bf)
    (hdata : (data.getD (replicate size 0)).length = size) :
    bf.InMemory size k ∧ bf.bitArray = data.getD (replicate size 0) := by
  rw [init] at hinit
  split at hinit
  · cases hinit
  next hargs =>
    split at hinit
    next hmalloc =>
      cases hinit
      exact ⟨⟨Nat.pos_of_ne_zero fun h => hargs (.inr h), platform.addressSpace size hmalloc, hdata,
        rfl, rfl, rfl⟩, rfl⟩
    · cases hinit

theorem InMemory.increment (hbf : bf.InMemory size k) {pos : UInt32} (hpos : pos.toNat < 8 * size) :
    ∃ bf', incrementBitCallback bf pos = some (true, bf') ∧ bf'.InMemory size k ∧
      ∀ other, bit bf'.bitArray other =
        if other = pos.toNat then true else bit bf.bitArray other := by
  obtain ⟨bitArray', hset, hlength, hbits⟩ := setBit_spec (hbf.array ▸ hpos)
  refine ⟨⟨bitArray', none, bf.addressesPerElement, bf.bitArraySize⟩, ?_,
    ⟨hbf.positive, hbf.limit, hlength.trans hbf.array, rfl, hbf.bytes, hbf.addresses⟩, hbits⟩
  rw [incrementBitCallback, incrementBit, hset, hbf.file]
  rfl

theorem InMemory.add (hbf : bf.InMemory size k) (e : HashCode) :
    ∃ bf', bf.add platform e = some bf' ∧ bf'.InMemory size k ∧
      (∀ pos, bit bf.bitArray pos = true → bit bf'.bitArray pos = true) ∧
      Contains platform size k bf'.bitArray e := by
  have hsize := hbf.positive
  have hpositions : ∀ pos ∈ positions platform (8 * size) (bitCount k) e, pos.toNat < 8 * size :=
    fun pos hpos => lt_of_mem_positions (by omega) hpos
  rw [BloomFilter.add, iterateBits_visit platform incrementBitCallback (hbf.bytes ▸ hsize)
    (hbf.bytes ▸ hbf.limit), hbf.bytes, hbf.addresses]
  -- the positions that were visited are set
  obtain ⟨bf', hvisit, hmemory, hmono, -, hdone⟩ := visit_invariant
    (fun rest (state : BloomFilter) => state.InMemory size k ∧
      (∀ pos, bit bf.bitArray pos = true → bit state.bitArray pos = true) ∧
      (∀ pos ∈ rest, pos.toNat < 8 * size) ∧
      ∀ pos ∈ positions platform (8 * size) (bitCount k) e,
        pos ∈ rest ∨ bit state.bitArray pos.toNat = true)
    (fun pos rest state hinv => by
      obtain ⟨hmemory, hmono, hrest, hdone⟩ := hinv
      obtain ⟨state', hcall, hmemory', hbits⟩ := hmemory.increment (hrest pos mem_cons_self)
      refine ⟨state', hcall, hmemory', fun other hother => ?_,
        fun other hother => hrest other (mem_cons_of_mem _ hother), fun other hother => ?_⟩
      · rw [hbits, hmono other hother, ite_self]
      · rcases hdone other hother with hin | hset
        · rcases mem_cons.mp hin with rfl | hin
          · exact .inr (by rw [hbits, if_pos rfl])
          · exact .inl hin
        · exact .inr (by rw [hbits, hset, ite_self]))
    _ bf ⟨hbf, fun _ h => h, hpositions, fun pos hpos => .inl hpos⟩
  refine ⟨bf', hvisit, hmemory, hmono, fun pos hpos => ?_⟩
  rcases hdone pos hpos with hin | hset
  · exact absurd hin not_mem_nil
  · exact hset

theorem InMemory.test_of_contains (hbf : bf.InMemory size k)
    (hcontains : Contains platform size k bf.bitArray e) : bf.test platform e = some true := by
  have hsize := hbf.positive
  rw [BloomFilter.test, iterateBits_visit platform (testBitCallback bf) (hbf.bytes ▸ hsize)
    (hbf.bytes ▸ hbf.limit), hbf.bytes, hbf.addresses]
  apply visit_testBit
  intro pos hpos
  refine ⟨?_, hcontains pos hpos⟩
  rw [hbf.array]
  exact lt_of_mem_positions (by omega) hpos

end Gnunet.Container.BloomFilter
