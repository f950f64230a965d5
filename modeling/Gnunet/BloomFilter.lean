import Gnunet.Common

/-!
# Bloom filters

`container_bloomfilter.c`.  The bit array and the file with the counters are lists of
bytes.  `none` is a failing assertion or an access outside of the bit array; a `NULL`
that a function returns is `some none`.  Reading and writing the file succeeds.
-/

namespace Gnunet.Container

structure HashCode where
  bits : Vector UInt32 16
  deriving DecidableEq, Repr

/-- What the filters use of the host: the byte order of words, the hash function and
whether there is memory for a large array. -/
structure Platform where
  ntohl : UInt32 → UInt32
  cryptoHash : HashCode → HashCode
  mallocLarge : Nat → Bool
  addressSpace : ∀ size, mallocLarge size = true → size < 2 ^ 61

/-- `struct GNUNET_CONTAINER_BloomFilter`, with what is in the file of `fh` if there is
one. -/
structure BloomFilter where
  bitArray : List UInt8
  file : Option (List UInt8)
  addressesPerElement : UInt32
  bitArraySize : Nat
  deriving DecidableEq, Repr

namespace BloomFilter

def fileRead (file : List UInt8) (pos count : Nat) : List UInt8 :=
  (file.drop pos).take count

def fileWrite (file : List UInt8) (pos : Nat) (data : List UInt8) : List UInt8 :=
  file.takeD pos 0 ++ (data ++ file.drop (pos + data.length))

def targetBit (bitIdx : UInt32) : UInt8 :=
  UInt8.ofNat (1 <<< (bitIdx.toNat % 8))

def setBit (bitArray : List UInt8) (bitIdx : UInt32) : Option (List UInt8) :=
  bitArray[bitIdx.toNat / 8]?.map fun byte =>
    bitArray.set (bitIdx.toNat / 8) (byte ||| targetBit bitIdx)

def testBit (bitArray : List UInt8) (bitIdx : UInt32) : Option Bool :=
  bitArray[bitIdx.toNat / 8]?.map fun byte => byte &&& targetBit bitIdx != 0

def incrementValue (targetLoc : Nat) (value : UInt8) : UInt8 :=
  let low := value &&& 0xF
  let high := (value &&& ~~~ 0xF) >>> 4
  if targetLoc = 0 then (high <<< 4) ||| (if low < 0xF then low + 1 else low)
  else ((if high < 0xF then high + 1 else high) <<< 4) ||| low

def incrementBit (bitArray : List UInt8) (bitIdx : UInt32) (fh : Option (List UInt8)) :
    Option (List UInt8 × Option (List UInt8)) :=
  (setBit bitArray bitIdx).map fun bitArray =>
    (bitArray, fh.map fun file =>
      let fileSlot := bitIdx.toNat / 2
      let value := (fileRead file fileSlot 1).headD 0
      fileWrite file fileSlot [incrementValue (bitIdx.toNat % 2) value])

section

variable (platform : Platform) {σ : Type} (callback : σ → UInt32 → Option (Bool × σ))
  (modulus : Nat)

def bitOf (word : UInt32) : UInt32 :=
  UInt32.ofNat ((platform.ntohl word).toNat % modulus)

/-- The inner loop of `iterateBits` over the words that are left; whether it ended
without `return`, and `bitCount`. -/
def iterateSlots : List UInt32 → Nat → σ → Option (Bool × Nat × σ)
  | [], bitCount, state => some (true, bitCount, state)
  | word :: words, bitCount, state =>
    (callback state (bitOf platform modulus word)).bind fun (continued, state) =>
      if continued then
        if bitCount - 1 = 0 then some (true, 0, state)
        else iterateSlots words (bitCount - 1) state
      else some (false, bitCount, state)

def iterateRounds : Nat → HashCode → Nat → σ → Option σ
  | 0, _, _, state => some state
  | rounds + 1, tmp, bitCount, state =>
    if bitCount > 0 then
      (iterateSlots platform callback modulus tmp.bits.toList bitCount state).bind
        fun (continued, bitCount, state) =>
          if continued then
            iterateRounds rounds (if bitCount > 0 then platform.cryptoHash tmp else tmp) bitCount
              state
          else some state
    else some state

/-- `bitCount` is of type `int`. -/
def bitCount (k : UInt32) : Nat :=
  if k.toNat < 2 ^ 31 then k.toNat else 0

def iterateBits (bf : BloomFilter) (key : HashCode) (state : σ) : Option σ :=
  if 0 < bf.bitArraySize ∧ bf.bitArraySize < bf.bitArraySize * 8 % 2 ^ 64 then
    iterateRounds platform callback (bf.bitArraySize * 8 % 2 ^ 64)
      (bitCount bf.addressesPerElement) key (bitCount bf.addressesPerElement) state
  else none

end

def incrementBitCallback (bf : BloomFilter) (bit : UInt32) : Option (Bool × BloomFilter) :=
  (incrementBit bf.bitArray bit bf.file).map fun (bitArray, file) =>
    (true, ⟨bitArray, file, bf.addressesPerElement, bf.bitArraySize⟩)

def testBitCallback (bf : BloomFilter) (arg : Bool) (bit : UInt32) : Option (Bool × Bool) :=
  (testBit bf.bitArray bit).map fun set => if set then (true, arg) else (false, false)

section

variable (platform : Platform)

def test (bf : BloomFilter) (e : HashCode) : Option Bool :=
  bf.iterateBits platform (testBitCallback bf) e true

def add (bf : BloomFilter) (e : HashCode) : Option BloomFilter :=
  bf.iterateBits platform incrementBitCallback e bf

/-- `GNUNET_CONTAINER_bloomfilter_init`; `data` has `size` bytes. -/
def init (data : Option (List UInt8)) (size : Nat) (k : UInt32) : Option BloomFilter :=
  if k = 0 ∨ size = 0 then none
  else if platform.mallocLarge size then
    some ⟨data.getD (List.replicate size 0), none, k, size⟩
  else none

end

end BloomFilter

namespace FilterSession

def bigEndianPlatform : Platform where
  ntohl := id
  cryptoHash := id
  mallocLarge size := decide (size < 2 ^ 61)
  addressSpace _ hsize := of_decide_eq_true hsize

end FilterSession

end Gnunet.Container
