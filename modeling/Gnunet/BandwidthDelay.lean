import Gnunet.Common

/-!
# Delays of bandwidth trackers

The trackers of `bandwidth.c`, without their callbacks.  Times are in microseconds, and
the counter of a tracker has 64 bits.
-/

namespace Gnunet.Bandwidth

/-- `available_bytes_per_s__` and `max_carry_s__`, which stay as they are. -/
structure Limits where
  bytesPerS : UInt32
  maxCarryS : UInt32

structure Tracker where
  consumption : Int
  lastUpdate : UInt64

def int64 (n : Int) : Int :=
  n.bmod (2 ^ 64)

/-- At least `GNUNET_SERVER_MAX_MESSAGE_SIZE` bytes may be saved. -/
def Limits.maxCarry (limits : Limits) : Nat :=
  min (max (limits.bytesPerS.toNat * limits.maxCarryS.toNat) 65536) (2 ^ 63 - 1)

variable (limits : Limits)

/-- `delta_avail`, rounded to the nearest byte. -/
def deltaAvail (deltaTime : Nat) : Nat :=
  (deltaTime * limits.bytesPerS.toNat + 500000) % 2 ^ 64 / 1000000

namespace Tracker

def updateTracker (av : Tracker) (now : UInt64) : Tracker where
  consumption := max (int64 (av.consumption - deltaAvail limits (now - av.lastUpdate).toNat))
    (-limits.maxCarry)
  lastUpdate := now

/-- `none` is an overflow of the signed product, which is undefined. -/
def getDelay (av : Tracker) (now : UInt64) (size : Nat) : Option (Nat × Tracker) :=
  if limits.bytesPerS = 0 then some (2 ^ 64 - 1, av)
  else
    let updated := av.updateTracker limits now
    let bytesNeeded := int64 (size + updated.consumption)
    if bytesNeeded ≤ 0 then some (0, updated)
    else if 2 ^ 63 ≤ 1000000 * bytesNeeded then none
    else some ((1000000 * bytesNeeded).toNat / limits.bytesPerS.toNat, updated)

end Tracker

/-- The bytes that a delay was for are credited `extra` microseconds after its end: the remainder that
the delay leaves out, and `2 ^ 64` for each time that the product with the time wraps, are made up for
by `extra`, the rounding of the credit and a need that is too small for a delay. -/
def Credited (need extra : Nat) : Prop :=
  let bytesPerS := limits.bytesPerS.toNat
  let remainder := 1000000 * need % bytesPerS
  let wraps := (1000000 * need - remainder + extra * bytesPerS + 500000) / 2 ^ 64
  remainder + 2 ^ 64 * wraps ≤
    extra * bytesPerS + 500000 + 1000000 * ((bytesPerS - 1) / 1000000)

instance (need extra : Nat) : Decidable (Credited limits need extra) :=
  inferInstanceAs (Decidable (_ ≤ _))

theorem int64_eq (hlow : -2 ^ 63 ≤ n) (hhigh : n < 2 ^ 63) : int64 n = n :=
  Int.bmod_eq_of_le_mul_two (by omega) (by omega)

variable {limits} {av : Tracker} {now : UInt64} {size : Nat}

theorem bytesPerS_pos (hlimit : limits.bytesPerS ≠ 0) : 0 < limits.bytesPerS.toNat :=
  Nat.pos_of_ne_zero fun hzero => hlimit (UInt32.toNat_inj.mp hzero)

/-- The delay where nothing overflows. -/
theorem getDelay_eq (hlimit : limits.bytesPerS ≠ 0)
    (hneed : size + (av.updateTracker limits now).consumption = need) (hlow : -2 ^ 63 ≤ need)
    (hhigh : need < 2 ^ 63) : av.getDelay limits now size = if 2 ^ 63 ≤ 1000000 * need then none
      else some (1000000 * need.toNat / limits.bytesPerS.toNat, av.updateTracker limits now) := by
  simp only [Tracker.getDelay, if_neg hlimit, hneed, int64_eq hlow hhigh]
  split
  next hneg =>
    rw [if_neg (by omega), Int.toNat_of_nonpos hneg]
    simp
  next hpos =>
    split
    · rfl
    · rw [show (1000000 * need).toNat = 1000000 * need.toNat by omega]

/-- The credit, and what the second call needs of it, in terms of the remainder. -/
theorem credited_iff (hlimit : limits.bytesPerS ≠ 0)
    (hdelay : delay = 1000000 * need / limits.bytesPerS.toNat) :
    1000000 * (need - deltaAvail limits (delay + extra) : Int) < limits.bytesPerS.toNat ↔
      Credited limits need extra := by
  have hpos := bytesPerS_pos hlimit
  have hdivision := Nat.div_add_mod (1000000 * need) limits.bytesPerS.toNat
  rw [← hdelay] at hdivision
  have htime : (delay + extra) * limits.bytesPerS.toNat = 1000000 * need -
      1000000 * need % limits.bytesPerS.toNat + extra * limits.bytesPerS.toNat := by
    rw [Nat.add_mul, Nat.mul_comm delay]
    omega
  have hle := Nat.mod_le (1000000 * need) limits.bytesPerS.toNat
  unfold Credited deltaAvail
  rw [htime]
  dsimp only
  generalize 1000000 * need % limits.bytesPerS.toNat = remainder at hle ⊢
  generalize extra * limits.bytesPerS.toNat = more
  omega

/-- A call after the delay, or later, finds nothing to wait for exactly if nothing was needed, or the
size can be saved at all and the bytes that were needed have been credited. -/
theorem getDelay_after_delay_iff (limits : Limits) (av : Tracker) (now : UInt64) (size extra : Nat)
    (hlimit : limits.bytesPerS ≠ 0) (hcarry : limits.maxCarry ≤ 2 ^ 63 - 2 ^ 45) {need : Int}
    (hneed : size + (av.updateTracker limits now).consumption = need) (hfits : need < 2 ^ 63)
    {delay : Nat} {waiting : Tracker} (hdelay : av.getDelay limits now size = some (delay, waiting))
    (htime : delay + extra < 2 ^ 64) :
    (waiting.getDelay limits (now + .ofNat (delay + extra)) size).map Prod.fst = some 0 ↔
      need ≤ 0 ∨ 1000000 * (size - limits.maxCarry : Int) < limits.bytesPerS.toNat ∧
        Credited limits need.toNat extra := by
  have hpos := bytesPerS_pos hlimit
  have hsaved : -(limits.maxCarry : Int) ≤ (av.updateTracker limits now).consumption :=
    le_max_right ..
  rw [getDelay_eq hlimit hneed (by omega) hfits] at hdelay
  split at hdelay
  · cases hdelay
  next hsmall =>
    cases hdelay
    set delay := 1000000 * need.toNat / limits.bytesPerS.toNat with hdef
    rw [← credited_iff hlimit hdef]
    have hcredit : deltaAvail limits (delay + extra) < 2 ^ 45 := by
      unfold deltaAvail
      omega
    have hsince : (now + .ofNat (delay + extra) - (av.updateTracker limits now).lastUpdate).toNat =
        delay + extra := by
      rw [show (av.updateTracker limits now).lastUpdate = now from rfl, UInt64.add_comm,
        UInt64.add_sub_cancel, UInt64.toNat_ofNat_of_lt' htime]
    have hlater : ((av.updateTracker limits now).updateTracker limits
        (now + .ofNat (delay + extra))).consumption = max ((av.updateTracker limits now).consumption -
          deltaAvail limits (delay + extra)) (-limits.maxCarry) := by
      rw [Tracker.updateTracker, hsince, int64_eq (by omega) (by omega)]
    rw [getDelay_eq hlimit (by rw [hlater]) (by omega) (by omega), if_neg (by omega)]
    simp only [Option.map_some, Option.some.injEq, Nat.div_eq_zero_iff_lt hpos]
    omega

theorem getDelay_after_delay_iff_sixty_ms :
    ∃ waiting, (Tracker.mk 0 0).getDelay ⟨1000000, 5⟩ 0 60000 = some (60000, waiting) ∧
      (waiting.getDelay ⟨1000000, 5⟩ 60007 60000).map Prod.fst = some 0 :=
  ⟨_, rfl, (getDelay_after_delay_iff ⟨1000000, 5⟩ ⟨0, 0⟩ 0 60000 7 (by decide) (by decide) rfl
    (by decide) rfl (by decide)).mpr (by decide)⟩

/-- For 60000 bytes at 999990 bytes a second the tracker asks for 60 ms; then for 1 µs. -/
theorem delay_one_microsecond_short :
    ∃ waiting, (Tracker.mk 0 0).getDelay ⟨999990, 5⟩ 0 60000 = some (60000, waiting) ∧
      (waiting.getDelay ⟨999990, 5⟩ 60000 60000).map Prod.fst = some 1 :=
  ⟨_, rfl, by decide⟩

end Gnunet.Bandwidth
