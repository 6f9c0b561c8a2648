import Agave.Sdk.Basic

/-!
# The epoch schedule

`sdk/epoch-schedule/src/lib.rs`. Slots are grouped into epochs. With warmup, epoch `e` of the
first `first_normal_epoch` ones has `32 · 2^e` slots, so the warmup ends at
`first_normal_slot = 32 · (2^first_normal_epoch - 1)`; every later epoch has `slots_per_epoch`
slots. `get_epoch_and_slot_index` finds a warmup slot's epoch from the bit length of
`slot + 33` (`next_power_of_two`, `trailing_zeros`), and a later slot's by division;
`get_first_slot_in_epoch` goes the other way. The leader schedule of an epoch is computed
`leader_schedule_slot_offset` slots before it starts, and one epoch ahead during the warmup.

The `u64`, `u32` and `usize` values are `Nat` with the saturating operations spelled out;
`next_power_of_two` and `trailing_zeros` are those of `u64`. What `custom` establishes of a
schedule is `Valid`; the results are proved for `Valid` schedules and carried to `custom`
through `custom_valid`: a slot's epoch and index invert `get_first_slot_in_epoch`
(`Valid.getEpochAndSlotIndex_spec`), epochs are contiguous (`Valid.getFirstSlotInEpoch_succ`),
and the leader-schedule epoch is monotone and ahead of the slot's epoch. It grows by at most one
per slot except at `first_normal_slot`, where it jumps by `leader_schedule_slot_offset /
slots_per_epoch` (`Valid.getLeaderScheduleEpoch_succ_le`).
-/

namespace Agave

/-- `DEFAULT_SLOTS_PER_EPOCH`. -/
def DEFAULT_SLOTS_PER_EPOCH : Nat := 432000

/-- `DEFAULT_LEADER_SCHEDULE_SLOT_OFFSET`. -/
def DEFAULT_LEADER_SCHEDULE_SLOT_OFFSET : Nat := DEFAULT_SLOTS_PER_EPOCH

/-- `MINIMUM_SLOTS_PER_EPOCH`. -/
def MINIMUM_SLOTS_PER_EPOCH : Nat := 32

/-- `a.saturating_mul(b)` on an unsigned integer whose largest value is `max`. -/
def saturatingMul (max a b : Nat) : Nat := min (a * b) max

/-- `2u64.saturating_pow(e)`. From `e = 64` on the power is past `u64::MAX`, which is then the
result without the power being computed. -/
def twoSaturatingPow (e : Nat) : Nat := if e < 64 then 2 ^ e else U64_MAX

/-- `u64::next_power_of_two`: one more than `u64::MAX >> (n - 1).leading_zeros()`, that is two to
the bit length of `n - 1`, and `1` for `0` and `1`. Past `2^63` it wraps to `0`, as a release
build does. -/
def nextPowerOfTwo (n : Nat) : Nat :=
  if n ≤ 1 then 1 else 2 ^ (Nat.log2 (n - 1) + 1) % 2 ^ 64

/-- The trailing zero bits of `n` among its lowest `fuel`. -/
def trailingZerosAux : Nat → Nat → Nat
  | 0, _ => 0
  | fuel + 1, n => if n % 2 = 0 then trailingZerosAux fuel (n / 2) + 1 else 0

/-- `u64::trailing_zeros`. -/
def trailingZeros (n : Nat) : Nat := trailingZerosAux 64 n

/-- `EpochSchedule`. -/
structure EpochSchedule where
  slotsPerEpoch : Nat
  leaderScheduleSlotOffset : Nat
  warmup : Bool
  firstNormalEpoch : Nat
  firstNormalSlot : Nat
  deriving DecidableEq, Repr

namespace EpochSchedule

/-- `EpochSchedule::custom`; the failed `assert!` is `none`. -/
def custom (slotsPerEpoch leaderScheduleSlotOffset : Nat) (warmup : Bool) :
    Option EpochSchedule :=
  if slotsPerEpoch < MINIMUM_SLOTS_PER_EPOCH then none
  else
    let firstNormal : Nat × Nat :=
      if warmup then
        let nextPowerOfTwo := nextPowerOfTwo slotsPerEpoch
        let log2SlotsPerEpoch :=
          trailingZeros nextPowerOfTwo - trailingZeros MINIMUM_SLOTS_PER_EPOCH
        (log2SlotsPerEpoch, nextPowerOfTwo - MINIMUM_SLOTS_PER_EPOCH)
      else (0, 0)
    some ⟨slotsPerEpoch, leaderScheduleSlotOffset, warmup, firstNormal.1, firstNormal.2⟩

/-- `get_slots_in_epoch`. -/
def getSlotsInEpoch (es : EpochSchedule) (epoch : Nat) : Nat :=
  if epoch < es.firstNormalEpoch then
    twoSaturatingPow
      (saturatingAdd U32_MAX (epoch % 2 ^ 32) (trailingZeros MINIMUM_SLOTS_PER_EPOCH))
  else es.slotsPerEpoch

/-- `get_epoch_and_slot_index`. -/
def getEpochAndSlotIndex (es : EpochSchedule) (slot : Nat) : Nat × Nat :=
  if slot < es.firstNormalSlot then
    let epoch :=
      trailingZeros (nextPowerOfTwo
          (saturatingAdd U64_MAX (saturatingAdd U64_MAX slot MINIMUM_SLOTS_PER_EPOCH) 1)) -
        trailingZeros MINIMUM_SLOTS_PER_EPOCH - 1
    let epochLen :=
      twoSaturatingPow (saturatingAdd U32_MAX epoch (trailingZeros MINIMUM_SLOTS_PER_EPOCH))
    (epoch, slot - (epochLen - MINIMUM_SLOTS_PER_EPOCH))
  else
    let normalSlotIndex := slot - es.firstNormalSlot
    let normalEpochIndex :=
      if es.slotsPerEpoch = 0 then 0 else normalSlotIndex / es.slotsPerEpoch
    let epoch := saturatingAdd U64_MAX es.firstNormalEpoch normalEpochIndex
    let slotIndex := if es.slotsPerEpoch = 0 then 0 else normalSlotIndex % es.slotsPerEpoch
    (epoch, slotIndex)

/-- `get_epoch`. -/
def getEpoch (es : EpochSchedule) (slot : Nat) : Nat := (es.getEpochAndSlotIndex slot).1

/-- `get_leader_schedule_epoch`. -/
def getLeaderScheduleEpoch (es : EpochSchedule) (slot : Nat) : Nat :=
  if slot < es.firstNormalSlot then
    -- until the normal slots, as if `leader_schedule_slot_offset == slots_per_epoch`
    saturatingAdd U64_MAX (es.getEpochAndSlotIndex slot).1 1
  else
    let newSlotsSinceFirstNormalSlot := slot - es.firstNormalSlot
    let newFirstNormalLeaderScheduleSlot :=
      saturatingAdd U64_MAX newSlotsSinceFirstNormalSlot es.leaderScheduleSlotOffset
    let newEpochsSinceFirstNormalLeaderSchedule :=
      if es.slotsPerEpoch = 0 then 0 else newFirstNormalLeaderScheduleSlot / es.slotsPerEpoch
    saturatingAdd U64_MAX es.firstNormalEpoch newEpochsSinceFirstNormalLeaderSchedule

/-- `get_first_slot_in_epoch`. -/
def getFirstSlotInEpoch (es : EpochSchedule) (epoch : Nat) : Nat :=
  if epoch ≤ es.firstNormalEpoch then
    saturatingMul U64_MAX (twoSaturatingPow (epoch % 2 ^ 32) - 1) MINIMUM_SLOTS_PER_EPOCH
  else
    saturatingAdd U64_MAX
      (saturatingMul U64_MAX (epoch - es.firstNormalEpoch) es.slotsPerEpoch) es.firstNormalSlot

/-- `get_last_slot_in_epoch`. -/
def getLastSlotInEpoch (es : EpochSchedule) (epoch : Nat) : Nat :=
  saturatingAdd U64_MAX (es.getFirstSlotInEpoch epoch) (es.getSlotsInEpoch epoch) - 1

end EpochSchedule

/-! ## The word operations -/

theorem twoSaturatingPow_of_lt {e : Nat} (h : e < 64) : twoSaturatingPow e = 2 ^ e := if_pos h

theorem nextPowerOfTwo_eq {n : Nat} (h2 : 2 ≤ n) (hn : n ≤ 2 ^ 63) :
    nextPowerOfTwo n = 2 ^ (Nat.log2 (n - 1) + 1) := by
  have hlog : Nat.log2 (n - 1) < 63 := (Nat.log2_lt (by omega)).mpr (by omega)
  have hlt : 2 ^ (Nat.log2 (n - 1) + 1) < 2 ^ 64 := Nat.pow_lt_pow_right (by norm_num) (by omega)
  rw [nextPowerOfTwo, if_neg (by omega), Nat.mod_eq_of_lt hlt]

theorem trailingZerosAux_two_pow (fuel k : Nat) : trailingZerosAux fuel (2 ^ k) = min k fuel := by
  induction fuel generalizing k with
  | zero => simp [trailingZerosAux]
  | succ fuel ih =>
    cases k with
    | zero => simp [trailingZerosAux]
    | succ k =>
      have heven : 2 ^ (k + 1) % 2 = 0 := by rw [Nat.pow_succ, Nat.mul_mod_left]
      have hhalf : 2 ^ (k + 1) / 2 = 2 ^ k := by
        rw [Nat.pow_succ, Nat.mul_div_cancel _ (by norm_num)]
      rw [trailingZerosAux, if_pos heven, hhalf, ih]
      omega

theorem trailingZeros_two_pow {k : Nat} (hk : k ≤ 64) : trailingZeros (2 ^ k) = k := by
  rw [trailingZeros, trailingZerosAux_two_pow]
  omega

@[simp] theorem trailingZeros_MINIMUM_SLOTS_PER_EPOCH :
    trailingZeros MINIMUM_SLOTS_PER_EPOCH = 5 :=
  trailingZeros_two_pow (k := 5) (by norm_num)

theorem thirtyTwo_le_two_pow (e : Nat) : 32 ≤ 2 ^ (e + 5) :=
  calc 32 = 2 ^ 5 := by norm_num
    _ ≤ 2 ^ (e + 5) := Nat.pow_le_pow_right (by norm_num) (Nat.le_add_left _ _)

namespace EpochSchedule

/-! ## What `custom` establishes -/

/-- A schedule as `custom` builds it from at most `2^63` slots per epoch: at least
`MINIMUM_SLOTS_PER_EPOCH` slots per epoch, and warmup epochs of `32 · 2^e` slots that end at
`first_normal_slot`, short of `2^63`. -/
structure Valid (es : EpochSchedule) : Prop where
  minimum : MINIMUM_SLOTS_PER_EPOCH ≤ es.slotsPerEpoch
  firstNormalSlot_eq : es.firstNormalSlot = 2 ^ (es.firstNormalEpoch + 5) - 32
  firstNormalEpoch_le : es.firstNormalEpoch ≤ 58

theorem custom_eq {slotsPerEpoch : Nat} (hmin : MINIMUM_SLOTS_PER_EPOCH ≤ slotsPerEpoch)
    (hmax : slotsPerEpoch ≤ 2 ^ 63) (leaderScheduleSlotOffset : Nat) (warmup : Bool) :
    custom slotsPerEpoch leaderScheduleSlotOffset warmup =
      some ⟨slotsPerEpoch, leaderScheduleSlotOffset, warmup,
        if warmup then Nat.log2 (slotsPerEpoch - 1) - 4 else 0,
        if warmup then 2 ^ (Nat.log2 (slotsPerEpoch - 1) + 1) - 32 else 0⟩ := by
  unfold MINIMUM_SLOTS_PER_EPOCH at hmin
  have hlog : Nat.log2 (slotsPerEpoch - 1) < 63 := (Nat.log2_lt (by omega)).mpr (by omega)
  rw [custom, if_neg (by unfold MINIMUM_SLOTS_PER_EPOCH; omega)]
  cases warmup with
  | false => rfl
  | true =>
    simp only [if_true, nextPowerOfTwo_eq (by omega) hmax,
      trailingZeros_two_pow (show Nat.log2 (slotsPerEpoch - 1) + 1 ≤ 64 by omega),
      MINIMUM_SLOTS_PER_EPOCH]
    congr 2

theorem custom_valid {slotsPerEpoch : Nat} (hmin : MINIMUM_SLOTS_PER_EPOCH ≤ slotsPerEpoch)
    (hmax : slotsPerEpoch ≤ 2 ^ 63) (leaderScheduleSlotOffset : Nat) (warmup : Bool) :
    ∃ es, custom slotsPerEpoch leaderScheduleSlotOffset warmup = some es ∧ es.Valid ∧
      es.slotsPerEpoch = slotsPerEpoch ∧ es.leaderScheduleSlotOffset = leaderScheduleSlotOffset ∧
      (warmup = false → es.firstNormalSlot = 0) := by
  refine ⟨_, custom_eq hmin hmax leaderScheduleSlotOffset warmup, ?_, rfl, rfl, ?_⟩
  · have hpos : slotsPerEpoch - 1 ≠ 0 := by unfold MINIMUM_SLOTS_PER_EPOCH at hmin; omega
    -- the bit length of `slots_per_epoch - 1` is between 5 and 63
    have hlo : 4 ≤ Nat.log2 (slotsPerEpoch - 1) :=
      (Nat.le_log2 hpos).mpr (by unfold MINIMUM_SLOTS_PER_EPOCH at hmin; omega)
    have hhi : Nat.log2 (slotsPerEpoch - 1) < 63 := (Nat.log2_lt hpos).mpr (by omega)
    refine ⟨hmin, ?_, ?_⟩
    · cases warmup with
      | false => rfl
      | true =>
        show 2 ^ (Nat.log2 (slotsPerEpoch - 1) + 1) - 32 =
          2 ^ (Nat.log2 (slotsPerEpoch - 1) - 4 + 5) - 32
        rw [show Nat.log2 (slotsPerEpoch - 1) - 4 + 5 = Nat.log2 (slotsPerEpoch - 1) + 1 by omega]
    · cases warmup with
      | false => show 0 ≤ 58; omega
      | true => show Nat.log2 (slotsPerEpoch - 1) - 4 ≤ 58; omega
  · rintro rfl
    rfl

theorem getSlotsInEpoch_of_le {es : EpochSchedule} {epoch : Nat}
    (he : es.firstNormalEpoch ≤ epoch) : es.getSlotsInEpoch epoch = es.slotsPerEpoch :=
  if_neg (Nat.not_lt.mpr he)

theorem getFirstSlotInEpoch_of_lt {es : EpochSchedule} {epoch : Nat}
    (he : es.firstNormalEpoch < epoch)
    (hsat : (epoch - es.firstNormalEpoch) * es.slotsPerEpoch + es.firstNormalSlot ≤ U64_MAX) :
    es.getFirstSlotInEpoch epoch =
      (epoch - es.firstNormalEpoch) * es.slotsPerEpoch + es.firstNormalSlot := by
  rw [getFirstSlotInEpoch, if_neg (Nat.not_le.mpr he), saturatingMul,
    Nat.min_eq_left (by omega), saturatingAdd_of_le hsat]

section Valid

variable {es : EpochSchedule} (hv : es.Valid)
include hv

theorem Valid.slotsPerEpoch_pos : 0 < es.slotsPerEpoch := by
  have := hv.minimum
  unfold MINIMUM_SLOTS_PER_EPOCH at this
  omega

theorem Valid.two_pow_le : 2 ^ (es.firstNormalEpoch + 5) ≤ 2 ^ 63 :=
  Nat.pow_le_pow_right (by norm_num) (by have := hv.firstNormalEpoch_le; omega)

/-- The warmup is at least as many slots as epochs. -/
theorem Valid.firstNormalEpoch_le_firstNormalSlot : es.firstNormalEpoch ≤ es.firstNormalSlot := by
  have hlt : es.firstNormalEpoch < 2 ^ es.firstNormalEpoch := Nat.lt_two_pow_self
  have hpow : 2 ^ (es.firstNormalEpoch + 5) = 2 ^ es.firstNormalEpoch * 32 := by
    rw [Nat.pow_add]
  rw [hv.firstNormalSlot_eq, hpow]
  omega

/-! ## Slots to epochs and back -/

/-- A warmup slot lies in the epoch `e` with `32 · 2^e ≤ slot + 32 < 32 · 2^(e + 1)`, at index
`slot + 32 - 32 · 2^e`. -/
theorem Valid.getEpochAndSlotIndex_of_lt {slot : Nat} (hs : slot < es.firstNormalSlot) :
    ∃ e, e < es.firstNormalEpoch ∧ 2 ^ (e + 5) ≤ slot + 32 ∧ slot + 32 < 2 ^ (e + 6) ∧
      es.getEpochAndSlotIndex slot = (e, slot + 32 - 2 ^ (e + 5)) := by
  have hs' : slot + 32 < 2 ^ (es.firstNormalEpoch + 5) := by
    have := hv.firstNormalSlot_eq
    omega
  have h63 := hv.two_pow_le
  have hfne := hv.firstNormalEpoch_le
  have hpos : slot + 32 ≠ 0 := by omega
  -- `L` is one less than the bit length of `slot + 32`
  set L := Nat.log2 (slot + 32) with hL
  have hLlo : 2 ^ L ≤ slot + 32 := Nat.log2_self_le hpos
  have hLhi : slot + 32 < 2 ^ (L + 1) := Nat.lt_log2_self
  have h5 : 5 ≤ L := (Nat.le_log2 hpos).mpr (by omega)
  have hLfne : L < es.firstNormalEpoch + 5 := (Nat.log2_lt hpos).mpr hs'
  refine ⟨L - 5, by omega, by rwa [Nat.sub_add_cancel h5],
    by rwa [show L - 5 + 6 = L + 1 by omega], ?_⟩
  have hadd : saturatingAdd U64_MAX (saturatingAdd U64_MAX slot MINIMUM_SLOTS_PER_EPOCH) 1 =
      slot + 32 + 1 := by
    have hinner : saturatingAdd U64_MAX slot MINIMUM_SLOTS_PER_EPOCH = slot + 32 :=
      saturatingAdd_of_le (by simp only [U64_MAX, MINIMUM_SLOTS_PER_EPOCH]; omega)
    rw [hinner, @saturatingAdd_of_le U64_MAX (slot + 32) 1 (by simp only [U64_MAX]; omega)]
  have hnext : nextPowerOfTwo (slot + 32 + 1) = 2 ^ (L + 1) := by
    rw [nextPowerOfTwo_eq (n := slot + 32 + 1) (by omega) (by omega), Nat.add_sub_cancel]
  have hlen : twoSaturatingPow (saturatingAdd U32_MAX (L + 1 - 5 - 1) 5) = 2 ^ L := by
    rw [@saturatingAdd_of_le U32_MAX (L + 1 - 5 - 1) 5 (by simp only [U32_MAX]; omega),
      show L + 1 - 5 - 1 + 5 = L by omega, twoSaturatingPow_of_lt (e := L) (by omega)]
  have h32 : 32 ≤ 2 ^ L := by
    rw [← Nat.sub_add_cancel h5]
    exact thirtyTwo_le_two_pow _
  rw [getEpochAndSlotIndex, if_pos hs]
  dsimp only
  rw [hadd, hnext, trailingZeros_two_pow (show L + 1 ≤ 64 by omega),
    trailingZeros_MINIMUM_SLOTS_PER_EPOCH, hlen]
  simp only [MINIMUM_SLOTS_PER_EPOCH, Prod.mk.injEq]
  refine ⟨by omega, ?_⟩
  rw [Nat.sub_add_cancel h5]
  omega

/-- From `first_normal_slot` on, a slot's epoch and index are a division by `slots_per_epoch`. -/
theorem Valid.getEpochAndSlotIndex_of_le {slot : Nat} (hs : es.firstNormalSlot ≤ slot)
    (hmax : slot ≤ U64_MAX) :
    es.getEpochAndSlotIndex slot =
      (es.firstNormalEpoch + (slot - es.firstNormalSlot) / es.slotsPerEpoch,
        (slot - es.firstNormalSlot) % es.slotsPerEpoch) := by
  have hne : es.slotsPerEpoch ≠ 0 := Nat.pos_iff_ne_zero.mp hv.slotsPerEpoch_pos
  have hdiv : (slot - es.firstNormalSlot) / es.slotsPerEpoch ≤ slot - es.firstNormalSlot :=
    Nat.div_le_self _ _
  have hle := hv.firstNormalEpoch_le_firstNormalSlot
  rw [getEpochAndSlotIndex, if_neg (by omega)]
  simp only [if_neg hne, Prod.mk.injEq, and_true]
  exact saturatingAdd_of_le (by omega)

theorem Valid.getSlotsInEpoch_of_lt {epoch : Nat} (he : epoch < es.firstNormalEpoch) :
    es.getSlotsInEpoch epoch = 2 ^ (epoch + 5) := by
  have hfne := hv.firstNormalEpoch_le
  rw [getSlotsInEpoch, if_pos he, trailingZeros_MINIMUM_SLOTS_PER_EPOCH,
    Nat.mod_eq_of_lt (by omega), saturatingAdd_of_le (by simp only [U32_MAX]; omega),
    twoSaturatingPow_of_lt (by omega)]

theorem Valid.getFirstSlotInEpoch_of_le {epoch : Nat} (he : epoch ≤ es.firstNormalEpoch) :
    es.getFirstSlotInEpoch epoch = 2 ^ (epoch + 5) - 32 := by
  have hfne := hv.firstNormalEpoch_le
  have hpow : 2 ^ (epoch + 5) = 2 ^ epoch * 32 := by rw [Nat.pow_add]
  have hle : 2 ^ epoch ≤ 2 ^ 58 := Nat.pow_le_pow_right (by norm_num) (by omega)
  rw [getFirstSlotInEpoch, if_pos he, Nat.mod_eq_of_lt (by omega),
    twoSaturatingPow_of_lt (by omega), saturatingMul, MINIMUM_SLOTS_PER_EPOCH, hpow,
    Nat.sub_mul, Nat.min_eq_left (by simp only [U64_MAX]; omega)]

/-- Every slot's index is within its epoch, and the epoch's first slot plus the index is the
slot. -/
theorem Valid.getEpochAndSlotIndex_spec {slot : Nat} (hmax : slot ≤ U64_MAX) :
    (es.getEpochAndSlotIndex slot).2 < es.getSlotsInEpoch (es.getEpochAndSlotIndex slot).1 ∧
      es.getFirstSlotInEpoch (es.getEpochAndSlotIndex slot).1 +
        (es.getEpochAndSlotIndex slot).2 = slot := by
  by_cases hs : slot < es.firstNormalSlot
  · obtain ⟨e, he, hlo, hhi, heq⟩ := hv.getEpochAndSlotIndex_of_lt hs
    have hpow : 2 ^ (e + 6) = 2 * 2 ^ (e + 5) := by rw [Nat.pow_succ]; ring
    have h32 := thirtyTwo_le_two_pow e
    rw [heq, hv.getSlotsInEpoch_of_lt he, hv.getFirstSlotInEpoch_of_le he.le]
    omega
  · have hs' : es.firstNormalSlot ≤ slot := Nat.le_of_not_lt hs
    have hpos := hv.slotsPerEpoch_pos
    rw [hv.getEpochAndSlotIndex_of_le hs' hmax]
    dsimp only
    refine ⟨?_, ?_⟩
    · rw [getSlotsInEpoch_of_le (Nat.le_add_right _ _)]
      exact Nat.mod_lt _ hpos
    · -- the first normal epoch starts at `first_normal_slot` by either formula
      by_cases hq : (slot - es.firstNormalSlot) / es.slotsPerEpoch = 0
      · have hlt : slot - es.firstNormalSlot < es.slotsPerEpoch :=
          (Nat.div_eq_zero_iff_lt hpos).mp hq
        rw [hq, Nat.add_zero, hv.getFirstSlotInEpoch_of_le le_rfl, ← hv.firstNormalSlot_eq,
          Nat.mod_eq_of_lt hlt]
        omega
      · have hmul := Nat.div_mul_le_self (slot - es.firstNormalSlot) es.slotsPerEpoch
        have hq' : 0 < (slot - es.firstNormalSlot) / es.slotsPerEpoch := Nat.pos_of_ne_zero hq
        have hfirst := @getFirstSlotInEpoch_of_lt es
          (es.firstNormalEpoch + (slot - es.firstNormalSlot) / es.slotsPerEpoch) (by omega)
          (by rw [Nat.add_sub_cancel_left]; omega)
        rw [hfirst, Nat.add_sub_cancel_left]
        have hsplit := Nat.div_add_mod' (slot - es.firstNormalSlot) es.slotsPerEpoch
        omega

/-- Epoch `e + 1` starts right after epoch `e` ends, unless its first slot is past
`u64::MAX`. -/
theorem Valid.getFirstSlotInEpoch_succ {epoch : Nat}
    (hsat : (epoch + 1 - es.firstNormalEpoch) * es.slotsPerEpoch + es.firstNormalSlot ≤
      U64_MAX) :
    es.getFirstSlotInEpoch (epoch + 1) = es.getLastSlotInEpoch epoch + 1 := by
  have h63 := hv.two_pow_le
  have hmin := hv.minimum
  unfold MINIMUM_SLOTS_PER_EPOCH at hmin
  rw [getLastSlotInEpoch]
  rcases Nat.lt_trichotomy (epoch + 1) (es.firstNormalEpoch + 1) with hlt | heq | hgt
  · -- a warmup epoch, of `32 · 2^e` slots
    have hle : 2 ^ (epoch + 1 + 5) ≤ 2 ^ (es.firstNormalEpoch + 5) :=
      Nat.pow_le_pow_right (by norm_num) (by omega)
    have hpow : 2 ^ (epoch + 1 + 5) = 2 * 2 ^ (epoch + 5) := by
      rw [show epoch + 1 + 5 = epoch + 5 + 1 by omega, Nat.pow_succ]
      ring
    have h32 := thirtyTwo_le_two_pow epoch
    rw [hv.getFirstSlotInEpoch_of_le (by omega), hv.getFirstSlotInEpoch_of_le (by omega),
      hv.getSlotsInEpoch_of_lt (by omega), saturatingAdd_of_le (by simp only [U64_MAX]; omega)]
    omega
  · -- the first normal epoch, which starts where the warmup ends
    have he : epoch = es.firstNormalEpoch := by omega
    subst he
    rw [Nat.add_sub_cancel_left, Nat.one_mul] at hsat
    rw [getFirstSlotInEpoch_of_lt (by omega) (by rw [Nat.add_sub_cancel_left, Nat.one_mul]; exact hsat),
      hv.getFirstSlotInEpoch_of_le le_rfl, getSlotsInEpoch_of_le le_rfl, ← hv.firstNormalSlot_eq,
      Nat.add_sub_cancel_left, Nat.one_mul, saturatingAdd_of_le (by omega)]
    omega
  · -- a later normal epoch
    have hfirst : (epoch - es.firstNormalEpoch) * es.slotsPerEpoch + es.firstNormalSlot ≤
        U64_MAX := by
      have := Nat.mul_le_mul_right es.slotsPerEpoch
        (show epoch - es.firstNormalEpoch ≤ epoch + 1 - es.firstNormalEpoch by omega)
      omega
    have hsucc : (epoch + 1 - es.firstNormalEpoch) * es.slotsPerEpoch =
        (epoch - es.firstNormalEpoch) * es.slotsPerEpoch + es.slotsPerEpoch := by
      rw [show epoch + 1 - es.firstNormalEpoch = epoch - es.firstNormalEpoch + 1 by omega,
        Nat.succ_mul]
    rw [getFirstSlotInEpoch_of_lt (by omega) hsat, getFirstSlotInEpoch_of_lt (by omega) hfirst,
      getSlotsInEpoch_of_le (by omega), saturatingAdd_of_le (by omega)]
    omega

/-! ## The leader-schedule epoch -/

theorem Valid.getLeaderScheduleEpoch_of_lt {slot : Nat} (hs : slot < es.firstNormalSlot) :
    es.getLeaderScheduleEpoch slot = es.getEpoch slot + 1 := by
  obtain ⟨e, he, -, -, heq⟩ := hv.getEpochAndSlotIndex_of_lt hs
  have hfne := hv.firstNormalEpoch_le
  rw [getLeaderScheduleEpoch, if_pos hs, getEpoch, heq]
  exact saturatingAdd_of_le (by simp only [U64_MAX]; omega)

theorem Valid.getLeaderScheduleEpoch_of_le {slot : Nat} (hs : es.firstNormalSlot ≤ slot) :
    es.getLeaderScheduleEpoch slot = es.firstNormalEpoch +
      min (slot - es.firstNormalSlot + es.leaderScheduleSlotOffset) U64_MAX /
        es.slotsPerEpoch := by
  have hne : es.slotsPerEpoch ≠ 0 := Nat.pos_iff_ne_zero.mp hv.slotsPerEpoch_pos
  have hfne := hv.firstNormalEpoch_le
  have hdiv := Nat.div_le_self
    (min (slot - es.firstNormalSlot + es.leaderScheduleSlotOffset) U64_MAX) es.slotsPerEpoch
  have hmin := hv.minimum
  have hdiv2 : min (slot - es.firstNormalSlot + es.leaderScheduleSlotOffset) U64_MAX /
      es.slotsPerEpoch ≤ U64_MAX / 2 := by
    calc _ ≤ U64_MAX / es.slotsPerEpoch := Nat.div_le_div_right (Nat.min_le_right _ _)
      _ ≤ U64_MAX / 2 := Nat.div_le_div_left (by unfold MINIMUM_SLOTS_PER_EPOCH at hmin; omega)
          (by norm_num)
  rw [getLeaderScheduleEpoch, if_neg (by omega)]
  simp only [if_neg hne, saturatingAdd]
  simp only [U64_MAX] at hdiv2 ⊢
  omega

/-- The warmup epoch of the next slot is the same or one more. -/
theorem Valid.getEpoch_succ_of_lt {slot : Nat} (hs : slot + 1 < es.firstNormalSlot) :
    es.getEpoch slot ≤ es.getEpoch (slot + 1) ∧ es.getEpoch (slot + 1) ≤ es.getEpoch slot + 1 := by
  obtain ⟨e, -, hlo, hhi, heq⟩ := hv.getEpochAndSlotIndex_of_lt (show slot < _ by omega)
  obtain ⟨e', -, hlo', hhi', heq'⟩ := hv.getEpochAndSlotIndex_of_lt hs
  rw [getEpoch, getEpoch, heq, heq']
  have h1 : e + 5 < e' + 6 := (Nat.pow_lt_pow_iff_right (show 1 < 2 by norm_num)).mp (by omega)
  have h2 : e' + 5 < e + 6 + 1 := (Nat.pow_lt_pow_iff_right (show 1 < 2 by norm_num)).mp
    (by rw [pow_succ 2 (e + 6)]; omega)
  omega

/-- The last warmup slot is in epoch `first_normal_epoch - 1`. -/
theorem Valid.getEpoch_of_succ_eq {slot : Nat} (hs : slot + 1 = es.firstNormalSlot) :
    es.getEpoch slot + 1 = es.firstNormalEpoch := by
  obtain ⟨e, he, -, hhi, heq⟩ := hv.getEpochAndSlotIndex_of_lt (show slot < _ by omega)
  have hfns := hv.firstNormalSlot_eq
  rw [getEpoch, heq]
  have : es.firstNormalEpoch + 5 < e + 6 + 1 :=
    (Nat.pow_lt_pow_iff_right (show 1 < 2 by norm_num)).mp
      (by rw [pow_succ 2 (e + 6)]; omega)
  omega

theorem Valid.getLeaderScheduleEpoch_le_succ (slot : Nat) :
    es.getLeaderScheduleEpoch slot ≤ es.getLeaderScheduleEpoch (slot + 1) := by
  rcases Nat.lt_or_ge (slot + 1) es.firstNormalSlot with hs | hs
  · rw [hv.getLeaderScheduleEpoch_of_lt (show slot < es.firstNormalSlot by omega),
      hv.getLeaderScheduleEpoch_of_lt hs]
    exact Nat.succ_le_succ (hv.getEpoch_succ_of_lt hs).1
  · rw [hv.getLeaderScheduleEpoch_of_le hs]
    rcases Nat.lt_or_ge slot es.firstNormalSlot with hs' | hs'
    · -- the last warmup slot: one epoch ahead is the first normal epoch
      rw [hv.getLeaderScheduleEpoch_of_lt hs', hv.getEpoch_of_succ_eq (by omega)]
      exact Nat.le_add_right _ _
    · rw [hv.getLeaderScheduleEpoch_of_le hs']
      exact Nat.add_le_add_left (Nat.div_le_div_right (by omega)) _

/-- The leader-schedule epoch never decreases. -/
theorem Valid.getLeaderScheduleEpoch_mono {slot slot' : Nat} (h : slot ≤ slot') :
    es.getLeaderScheduleEpoch slot ≤ es.getLeaderScheduleEpoch slot' :=
  monotone_nat_of_le_succ hv.getLeaderScheduleEpoch_le_succ h

/-- The leader-schedule epoch grows by at most one per slot, given that at `first_normal_slot`,
where it jumps by `leader_schedule_slot_offset / slots_per_epoch`, that jump is at most one. -/
theorem Valid.getLeaderScheduleEpoch_succ_le
    (hoffset : es.firstNormalSlot = 0 ∨ es.leaderScheduleSlotOffset < 2 * es.slotsPerEpoch)
    (slot : Nat) :
    es.getLeaderScheduleEpoch (slot + 1) ≤ es.getLeaderScheduleEpoch slot + 1 := by
  have hpos := hv.slotsPerEpoch_pos
  rcases Nat.lt_or_ge (slot + 1) es.firstNormalSlot with hs | hs
  · rw [hv.getLeaderScheduleEpoch_of_lt (show slot < es.firstNormalSlot by omega),
      hv.getLeaderScheduleEpoch_of_lt hs]
    exact Nat.succ_le_succ (hv.getEpoch_succ_of_lt hs).2
  · rw [hv.getLeaderScheduleEpoch_of_le hs]
    rcases Nat.lt_or_ge slot es.firstNormalSlot with hs' | hs'
    · -- at `first_normal_slot` the jump is the offset over `slots_per_epoch`
      have hoff : es.leaderScheduleSlotOffset < 2 * es.slotsPerEpoch := by
        rcases hoffset with h0 | h
        · omega
        · exact h
      have hjump : min (slot + 1 - es.firstNormalSlot + es.leaderScheduleSlotOffset) U64_MAX /
          es.slotsPerEpoch ≤ 1 := by
        rw [Nat.le_iff_lt_add_one, Nat.div_lt_iff_lt_mul hpos]
        omega
      rw [hv.getLeaderScheduleEpoch_of_lt hs', hv.getEpoch_of_succ_eq (by omega)]
      omega
    · rw [hv.getLeaderScheduleEpoch_of_le hs', Nat.add_assoc]
      refine Nat.add_le_add_left ?_ _
      calc min (slot + 1 - es.firstNormalSlot + es.leaderScheduleSlotOffset) U64_MAX /
            es.slotsPerEpoch
          ≤ (min (slot - es.firstNormalSlot + es.leaderScheduleSlotOffset) U64_MAX +
              es.slotsPerEpoch) / es.slotsPerEpoch := Nat.div_le_div_right (by omega)
        _ = _ := Nat.add_div_right _ hpos

/-- A slot's leader-schedule epoch is never behind its epoch. -/
theorem Valid.getEpoch_le_getLeaderScheduleEpoch {slot : Nat} (hmax : slot ≤ U64_MAX) :
    es.getEpoch slot ≤ es.getLeaderScheduleEpoch slot := by
  rcases Nat.lt_or_ge slot es.firstNormalSlot with hs | hs
  · rw [hv.getLeaderScheduleEpoch_of_lt hs]
    exact Nat.le_succ _
  · rw [hv.getLeaderScheduleEpoch_of_le hs, getEpoch, hv.getEpochAndSlotIndex_of_le hs hmax]
    exact Nat.add_le_add_left (Nat.div_le_div_right (by omega)) _

end Valid

theorem epoch_schedule_slot_epoch_bijection (slotsPerEpoch leaderScheduleSlotOffset : Nat)
    (warmup : Bool) (hmin : MINIMUM_SLOTS_PER_EPOCH ≤ slotsPerEpoch)
    (hmax : slotsPerEpoch ≤ 2 ^ 63)
    (hoffset : warmup = false ∨ leaderScheduleSlotOffset < 2 * slotsPerEpoch) :
    ∃ es, custom slotsPerEpoch leaderScheduleSlotOffset warmup = some es ∧
      (∀ slot ≤ U64_MAX, ∀ e i, es.getEpochAndSlotIndex slot = (e, i) →
        i < es.getSlotsInEpoch e ∧ es.getFirstSlotInEpoch e + i = slot) ∧
      (∀ epoch, (epoch + 1 - es.firstNormalEpoch) * es.slotsPerEpoch + es.firstNormalSlot ≤
          U64_MAX → es.getFirstSlotInEpoch (epoch + 1) = es.getLastSlotInEpoch epoch + 1) ∧
      (∀ slot slot', slot ≤ slot' →
        es.getLeaderScheduleEpoch slot ≤ es.getLeaderScheduleEpoch slot') ∧
      (∀ slot, es.getLeaderScheduleEpoch (slot + 1) ≤ es.getLeaderScheduleEpoch slot + 1) ∧
      (∀ slot ≤ U64_MAX, es.getEpoch slot ≤ es.getLeaderScheduleEpoch slot) := by
  obtain ⟨es, hes, hv, hspe, hoff, hnowarmup⟩ :=
    custom_valid hmin hmax leaderScheduleSlotOffset warmup
  -- without warmup there is no jump at `first_normal_slot`; with it, the offset bounds the jump
  have hjump : es.firstNormalSlot = 0 ∨
      es.leaderScheduleSlotOffset < 2 * es.slotsPerEpoch := by
    rcases hoffset with h | h
    · exact Or.inl (hnowarmup h)
    · rw [hspe, hoff]
      exact Or.inr h
  refine ⟨es, hes, ?_, fun _ => hv.getFirstSlotInEpoch_succ,
    fun _ _ => hv.getLeaderScheduleEpoch_mono, hv.getLeaderScheduleEpoch_succ_le hjump,
    fun _ => hv.getEpoch_le_getLeaderScheduleEpoch⟩
  intro slot hslot e i heq
  have hspec := hv.getEpochAndSlotIndex_spec hslot
  rw [heq] at hspec
  exact hspec

theorem epoch_schedule_slot_epoch_bijection_default :
    ∃ es, custom DEFAULT_SLOTS_PER_EPOCH DEFAULT_LEADER_SCHEDULE_SLOT_OFFSET true = some es ∧
      (∀ slot ≤ U64_MAX, ∀ e i, es.getEpochAndSlotIndex slot = (e, i) →
        i < es.getSlotsInEpoch e ∧ es.getFirstSlotInEpoch e + i = slot) ∧
      (∀ epoch, (epoch + 1 - es.firstNormalEpoch) * es.slotsPerEpoch + es.firstNormalSlot ≤
          U64_MAX → es.getFirstSlotInEpoch (epoch + 1) = es.getLastSlotInEpoch epoch + 1) ∧
      (∀ slot slot', slot ≤ slot' →
        es.getLeaderScheduleEpoch slot ≤ es.getLeaderScheduleEpoch slot') ∧
      (∀ slot, es.getLeaderScheduleEpoch (slot + 1) ≤ es.getLeaderScheduleEpoch slot + 1) ∧
      (∀ slot ≤ U64_MAX, es.getEpoch slot ≤ es.getLeaderScheduleEpoch slot) :=
  epoch_schedule_slot_epoch_bijection DEFAULT_SLOTS_PER_EPOCH DEFAULT_LEADER_SCHEDULE_SLOT_OFFSET
    true (by decide) (by decide) (by decide)

/-- With 64 slots per epoch the warmup ends at slot 32, in epoch 1; an offset of two epochs moves
the leader-schedule epoch from 1 at slot 31 to 3 at slot 32. -/
theorem getLeaderScheduleEpoch_jumps_at_firstNormalSlot :
    (custom 64 128 true).map (fun es => (es.getLeaderScheduleEpoch 31,
      es.getLeaderScheduleEpoch 32)) = some (1, 3) := by
  decide

end EpochSchedule

end Agave
