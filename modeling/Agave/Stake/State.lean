import Agave.Sdk.Basic

/-!
# Stake accounts

`sdk/program/src/stake/state.rs` and the stake program's errors. A stake account is
uninitialized, initialized with its `Meta` (rent-exempt reserve, authorities, lockup), or
delegated: its `Meta` with a `Stake` (the delegation and the vote credits it has been paid up
to) and its flags.

Only what the modelled functions read is kept: the deprecated `warmup_cooldown_rate` of a
delegation and the clock's slot, epoch start and leader-schedule epoch are left out. Amounts
and epochs are `u64`, here `Nat`; `Epoch::MAX` is `U64_MAX`.
-/

namespace Agave.StakeProgram

/-- The fields of `Clock` a lockup reads. -/
structure Clock where
  unixTimestamp : Int
  epoch : Nat
  deriving DecidableEq, Repr

/-- `Lockup`. -/
structure Lockup where
  unixTimestamp : Int
  epoch : Nat
  custodian : Pubkey
  deriving DecidableEq, Repr

/-- `Lockup::is_in_force`: a lockup binds until its time and epoch, unless its custodian signs. -/
def Lockup.isInForce (lockup : Lockup) (clock : Clock) (custodian : Option Pubkey) : Bool :=
  if custodian = some lockup.custodian then false
  else decide (lockup.unixTimestamp > clock.unixTimestamp) || decide (lockup.epoch > clock.epoch)

/-- `Authorized`. -/
structure Authorized where
  staker : Pubkey
  withdrawer : Pubkey
  deriving DecidableEq, Repr

/-- `Meta`. -/
structure Meta where
  rentExemptReserve : Nat
  authorized : Authorized
  lockup : Lockup
  deriving DecidableEq, Repr

/-- `Delegation`. -/
structure Delegation where
  voterPubkey : Pubkey
  stake : Nat
  activationEpoch : Nat
  deactivationEpoch : Nat
  deriving DecidableEq, Repr

/-- `Stake`. -/
structure Stake where
  delegation : Delegation
  creditsObserved : Nat
  deriving DecidableEq, Repr

/-- `StakeFlags`, a `u8` of bit flags. -/
structure StakeFlags where
  bits : UInt8
  deriving DecidableEq, Repr

/-- `StakeFlags::empty`. -/
def StakeFlags.empty : StakeFlags := ⟨0⟩

/-- `StakeFlags::union`. -/
def StakeFlags.union (a b : StakeFlags) : StakeFlags := ⟨a.bits ||| b.bits⟩

/-- `StakeStateV2`. -/
inductive StakeStateV2 where
  | uninitialized
  | initialized (stakeMeta : Meta)
  | stake (stakeMeta : Meta) (stake : Stake) (flags : StakeFlags)
  | rewardsPool
  deriving DecidableEq, Repr

/-- The `StakeError`s the modelled functions raise. -/
inductive StakeError where
  | mergeTransientStake
  | mergeMismatch
  deriving DecidableEq, Repr

/-- The `InstructionError`s the modelled functions raise; a `StakeError` is `Custom`. -/
inductive InstructionError where
  | insufficientFunds
  | arithmeticOverflow
  | invalidAccountData
  | custom (err : StakeError)
  deriving DecidableEq, Repr

/-- `u128::MAX`. -/
def U128_MAX : Nat := 2 ^ 128 - 1

/-- `a.checked_add(b)` on an unsigned integer whose largest value is `max`. -/
def checkedAddWithin (max a b : Nat) : Option Nat := if a + b ≤ max then some (a + b) else none

/-- `a.checked_mul(b)` on an unsigned integer whose largest value is `max`. -/
def checkedMulWithin (max a b : Nat) : Option Nat := if a * b ≤ max then some (a * b) else none

/-- `a.checked_sub(b)`. -/
def checkedSubNat (a b : Nat) : Option Nat := if b ≤ a then some (a - b) else none

/-- `a.checked_div(b)`. -/
def checkedDivNat (a b : Nat) : Option Nat := if b = 0 then none else some (a / b)

/-- `instruction::checked_add`: `u64` addition that fails with `InsufficientFunds`. -/
def checkedAdd (a b : Nat) : Except InstructionError Nat :=
  match checkedAddWithin U64_MAX a b with
  | some sum => .ok sum
  | none => .error .insufficientFunds

theorem checkedAddWithin_of_le {max a b : Nat} (h : a + b ≤ max) :
    checkedAddWithin max a b = some (a + b) := if_pos h

theorem checkedMulWithin_of_le {max a b : Nat} (h : a * b ≤ max) :
    checkedMulWithin max a b = some (a * b) := if_pos h

theorem checkedSubNat_of_le {a b : Nat} (h : b ≤ a) : checkedSubNat a b = some (a - b) := if_pos h

theorem checkedDivNat_of_pos {a b : Nat} (h : 0 < b) : checkedDivNat a b = some (a / b) :=
  if_neg (Nat.pos_iff_ne_zero.mp h)

theorem checkedAdd_eq_ok_iff {a b sum : Nat} :
    checkedAdd a b = .ok sum ↔ a + b ≤ U64_MAX ∧ sum = a + b := by
  unfold checkedAdd checkedAddWithin
  by_cases hle : a + b ≤ U64_MAX
  · simp [hle, eq_comm]
  · simp [hle]

theorem checkedAdd_ne_arithmeticOverflow (a b : Nat) :
    checkedAdd a b ≠ .error .arithmeticOverflow := by
  unfold checkedAdd
  split <;> simp

end Agave.StakeProgram
