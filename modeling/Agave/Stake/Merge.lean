import Agave.Stake.State
import Agave.Lib.CeilDiv

/-!
# Merging two stake accounts

`MergeKind::merge` and the two functions under it in `programs/stake/src/stake_state.rs`. Two
accounts merge when their metadata agree (lockups may differ once both have expired) and, if
both are delegated, their voters agree and neither is deactivating. The destination's delegation
then absorbs the source's lamports: all of them from an inactive source into an activating
destination, the source's reserve and stake from an activating source, and only the stake from
a fully active one.

The absorbed credits are the stake-weighted mean of the two accounts' credits, rounded up in
`u128` arithmetic (`stakeWeightedCreditsObserved`). In range it is the rational ceiling
(`stakeWeightedCreditsObserved_eq_ceil`), so it lies between the two credits and the merged
account is owed no more rewards than the two were; it fails only on a `u64` overflow of the
total stake or on a total of zero (`stakeWeightedCreditsObserved_eq_none`).
-/

namespace Agave.StakeProgram

/-- `MergeKind`: an account that may be merged, by its activation state. -/
inductive MergeKind where
  | inactive (stakeMeta : Meta) (lamports : Nat) (flags : StakeFlags)
  | activationEpoch (stakeMeta : Meta) (stake : Stake) (flags : StakeFlags)
  | fullyActive (stakeMeta : Meta) (stake : Stake)
  deriving DecidableEq, Repr

namespace MergeKind

/-- `MergeKind::meta`. -/
def stakeMeta : MergeKind → Meta
  | .inactive m _ _ => m
  | .activationEpoch m _ _ => m
  | .fullyActive m _ => m

/-- `MergeKind::active_stake`. -/
def activeStake : MergeKind → Option Stake
  | .inactive _ _ _ => none
  | .activationEpoch _ stake _ => some stake
  | .fullyActive _ stake => some stake

/-- `MergeKind::metas_can_merge`. -/
def metasCanMerge (stake source : Meta) (clock : Clock) : Except InstructionError Unit :=
  -- lockups may mismatch so long as both have expired
  let canMergeLockups := decide (stake.lockup = source.lockup) ||
    (!stake.lockup.isInForce clock none && !source.lockup.isInForce clock none)
  if decide (stake.authorized = source.authorized) && canMergeLockups then .ok ()
  else .error (.custom .mergeMismatch)

/-- `MergeKind::active_delegations_can_merge`. -/
def activeDelegationsCanMerge (stake source : Delegation) : Except InstructionError Unit :=
  if stake.voterPubkey ≠ source.voterPubkey then .error (.custom .mergeMismatch)
  else if stake.deactivationEpoch = U64_MAX ∧ source.deactivationEpoch = U64_MAX then .ok ()
  else .error (.custom .mergeMismatch)

end MergeKind

/-- `stake_weighted_credits_observed`: the credits of the merged stake, the mean of the two
credits weighted by stake, rounded up by adding `total_stake - 1` before dividing. -/
def stakeWeightedCreditsObserved (stake : Stake) (absorbedLamports absorbedCreditsObserved : Nat) :
    Option Nat :=
  if stake.creditsObserved = absorbedCreditsObserved then some stake.creditsObserved
  else do
    let totalStake ← checkedAddWithin U64_MAX stake.delegation.stake absorbedLamports
    let stakeWeightedCredits ←
      checkedMulWithin U128_MAX stake.creditsObserved stake.delegation.stake
    let absorbedWeightedCredits ←
      checkedMulWithin U128_MAX absorbedCreditsObserved absorbedLamports
    let sum ← checkedAddWithin U128_MAX stakeWeightedCredits absorbedWeightedCredits
    let rounded ← checkedAddWithin U128_MAX sum totalStake
    let totalWeightedCredits ← checkedSubNat rounded 1
    let credits ← checkedDivNat totalWeightedCredits totalStake
    -- `u64::try_from(..).ok()`
    if credits ≤ U64_MAX then some credits else none

/-- `merge_delegation_stake_and_credits_observed`. -/
def mergeDelegationStakeAndCreditsObserved (stake : Stake)
    (absorbedLamports absorbedCreditsObserved : Nat) : Except InstructionError Stake :=
  match stakeWeightedCreditsObserved stake absorbedLamports absorbedCreditsObserved with
  | none => .error .arithmeticOverflow
  | some creditsObserved => do
    let total ← checkedAdd stake.delegation.stake absorbedLamports
    pure { delegation := { stake.delegation with stake := total }, creditsObserved }

namespace MergeKind

/-- The `merged_state` match of `MergeKind::merge`, once both checks have passed. -/
def mergedState : MergeKind → MergeKind → Except InstructionError (Option StakeStateV2)
  | .inactive _ _ _, .inactive _ _ _ => .ok none
  | .inactive _ _ _, .activationEpoch _ _ _ => .ok none
  | .activationEpoch m stake flags, .inactive _ sourceLamports sourceFlags => do
    let total ← checkedAdd stake.delegation.stake sourceLamports
    pure (some (.stake m { stake with delegation := { stake.delegation with stake := total } }
      (flags.union sourceFlags)))
  | .activationEpoch m stake flags, .activationEpoch sourceMeta sourceStake sourceFlags => do
    let sourceLamports ← checkedAdd sourceMeta.rentExemptReserve sourceStake.delegation.stake
    let stake ← mergeDelegationStakeAndCreditsObserved stake sourceLamports
      sourceStake.creditsObserved
    pure (some (.stake m stake (flags.union sourceFlags)))
  | .fullyActive m stake, .fullyActive _ sourceStake => do
    -- the source's reserve is not staked: it becomes withdrawable lamports of the destination
    let stake ← mergeDelegationStakeAndCreditsObserved stake sourceStake.delegation.stake
      sourceStake.creditsObserved
    pure (some (.stake m stake .empty))
  | _, _ => .error (.custom .mergeMismatch)

/-- `MergeKind::merge`. -/
def merge (self source : MergeKind) (clock : Clock) :
    Except InstructionError (Option StakeStateV2) := do
  metasCanMerge self.stakeMeta source.stakeMeta clock
  -- `self.active_stake().zip(source.active_stake()).map(..).unwrap_or(Ok(()))`
  (match self.activeStake, source.activeStake with
    | some stake, some source => activeDelegationsCanMerge stake.delegation source.delegation
    | _, _ => pure ())
  mergedState self source

/-- The lamports the destination's delegation absorbs from the source, in the three cases where
`merge` stakes them. -/
def absorbedLamports : MergeKind → MergeKind → Option Nat
  | .activationEpoch _ _ _, .inactive _ lamports _ => some lamports
  | .activationEpoch _ _ _, .activationEpoch sourceMeta sourceStake _ =>
    some (sourceMeta.rentExemptReserve + sourceStake.delegation.stake)
  | .fullyActive _ _, .fullyActive _ sourceStake => some sourceStake.delegation.stake
  | _, _ => none

/-- Only the `MergeMismatch` of the two checks can stop `merge` before `mergedState`. -/
theorem metasCanMerge_eq_error {stake source : Meta} {clock : Clock} {e : InstructionError}
    (h : metasCanMerge stake source clock = .error e) : e = .custom .mergeMismatch := by
  dsimp only [metasCanMerge] at h
  split at h
  · cases h
  · exact (Except.error.inj h).symm

theorem activeDelegationsCanMerge_eq_error {stake source : Delegation} {e : InstructionError}
    (h : activeDelegationsCanMerge stake source = .error e) : e = .custom .mergeMismatch := by
  unfold activeDelegationsCanMerge at h
  split at h
  · exact (Except.error.inj h).symm
  · split at h
    · cases h
    · exact (Except.error.inj h).symm

end MergeKind

/-! ## The stake-weighted credits -/

section Weighted

variable {stake : Stake} {a ca : Nat}

theorem stakeWeightedCreditsObserved_of_eq (h : stake.creditsObserved = ca) :
    stakeWeightedCreditsObserved stake a ca = some stake.creditsObserved := if_pos h

/-- With `u64` credits and a total stake that fits `u64`, no `u128` step fails: the products
of `u64` values leave room in `u128` for the rounding term, and the quotient is at most the
larger credit. -/
theorem stakeWeightedCreditsObserved_of_ne (hne : stake.creditsObserved ≠ ca)
    (hcd : stake.creditsObserved ≤ U64_MAX) (hca : ca ≤ U64_MAX)
    (hpos : 0 < stake.delegation.stake + a) (hsum : stake.delegation.stake + a ≤ U64_MAX) :
    stakeWeightedCreditsObserved stake a ca =
      some ((stake.creditsObserved * stake.delegation.stake + ca * a +
        (stake.delegation.stake + a) - 1) / (stake.delegation.stake + a)) := by
  have hmul_d : stake.creditsObserved * stake.delegation.stake ≤
      U64_MAX * stake.delegation.stake := Nat.mul_le_mul_right _ hcd
  have hmul_a : ca * a ≤ U64_MAX * a := Nat.mul_le_mul_right a hca
  have hnum : stake.creditsObserved * stake.delegation.stake + ca * a ≤
      U64_MAX * (stake.delegation.stake + a) := by
    rw [Nat.mul_add]; omega
  have hweighted_d : stake.creditsObserved * stake.delegation.stake ≤ U128_MAX := by
    simp only [U64_MAX, U128_MAX] at hmul_d hsum ⊢; omega
  have hweighted_a : ca * a ≤ U128_MAX := by
    simp only [U64_MAX, U128_MAX] at hmul_a hsum ⊢; omega
  have hsum128 : stake.creditsObserved * stake.delegation.stake + ca * a ≤ U128_MAX := by
    simp only [U64_MAX, U128_MAX] at hnum hsum ⊢; omega
  have hround : stake.creditsObserved * stake.delegation.stake + ca * a +
      (stake.delegation.stake + a) ≤ U128_MAX := by
    simp only [U64_MAX, U128_MAX] at hnum hsum ⊢; omega
  have hfit : (stake.creditsObserved * stake.delegation.stake + ca * a +
      (stake.delegation.stake + a) - 1) / (stake.delegation.stake + a) ≤ U64_MAX :=
    CeilDiv.add_pred_div_le hpos hnum
  have hone : 1 ≤ stake.creditsObserved * stake.delegation.stake + ca * a +
      (stake.delegation.stake + a) := by omega
  unfold stakeWeightedCreditsObserved
  rw [if_neg hne]
  simp only [checkedAddWithin_of_le hsum, Option.bind_eq_bind, Option.bind_some,
    checkedMulWithin_of_le hweighted_d, checkedMulWithin_of_le hweighted_a,
    checkedAddWithin_of_le hsum128, checkedAddWithin_of_le hround,
    checkedSubNat_of_le hone, checkedDivNat_of_pos hpos, if_pos hfit]

/-- In range, both branches compute the stake-weighted mean rounded up. -/
theorem stakeWeightedCreditsObserved_eq_ceil
    (hcd : stake.creditsObserved ≤ U64_MAX) (hca : ca ≤ U64_MAX)
    (hpos : 0 < stake.delegation.stake + a) (hsum : stake.delegation.stake + a ≤ U64_MAX) :
    stakeWeightedCreditsObserved stake a ca =
      some ((stake.creditsObserved * stake.delegation.stake + ca * a +
        (stake.delegation.stake + a) - 1) / (stake.delegation.stake + a)) := by
  by_cases heq : stake.creditsObserved = ca
  · rw [stakeWeightedCreditsObserved_of_eq heq]
    -- equal credits: the mean is exact, and rounding up leaves it
    have hexact : stake.creditsObserved * stake.delegation.stake + ca * a =
        stake.creditsObserved * (stake.delegation.stake + a) := by
      rw [← heq, Nat.mul_add]
    rw [hexact]
    exact congrArg some (le_antisymm (CeilDiv.le_add_pred_div hpos le_rfl)
      (CeilDiv.add_pred_div_le hpos le_rfl))
  · exact stakeWeightedCreditsObserved_of_ne heq hcd hca hpos hsum

-- three lamports at 10 credits absorbing one at 11: ⌈(30 + 11) / 4⌉ = 11
example : stakeWeightedCreditsObserved ⟨⟨⟨0⟩, 3, 0, 0⟩, 10⟩ 1 11 = some 11 := by decide

/-- With `u64` credits the mean fails only when the credits differ and the total stake
overflows `u64` or is zero (then `checked_sub(1)` fails on a zero numerator). -/
theorem stakeWeightedCreditsObserved_eq_none
    (h : stakeWeightedCreditsObserved stake a ca = none)
    (hcd : stake.creditsObserved ≤ U64_MAX) (hca : ca ≤ U64_MAX) :
    stake.creditsObserved ≠ ca ∧
      (U64_MAX < stake.delegation.stake + a ∨ stake.delegation.stake + a = 0) := by
  have hne : stake.creditsObserved ≠ ca := by
    intro heq
    rw [stakeWeightedCreditsObserved_of_eq heq] at h
    cases h
  refine ⟨hne, ?_⟩
  by_contra hfit
  rw [not_or, Nat.not_lt] at hfit
  rw [stakeWeightedCreditsObserved_of_ne hne hcd hca (by omega) hfit.1] at h
  cases h

end Weighted

section MergeDelegation

variable {stake stake' : Stake} {a ca : Nat}

/-- `merge_delegation_stake_and_credits_observed` adds the absorbed lamports to the stake and
takes the weighted credits. -/
theorem mergeDelegationStakeAndCreditsObserved_eq_ok
    (h : mergeDelegationStakeAndCreditsObserved stake a ca = .ok stake') :
    stakeWeightedCreditsObserved stake a ca = some stake'.creditsObserved ∧
      stake'.delegation = { stake.delegation with stake := stake.delegation.stake + a } := by
  unfold mergeDelegationStakeAndCreditsObserved at h
  split at h
  · cases h
  · rename_i credits hcredits
    obtain ⟨total, hadd, hstake⟩ := except_bind_eq_ok h
    obtain ⟨-, rfl⟩ := checkedAdd_eq_ok_iff.mp hadd
    cases Except.ok.inj hstake
    exact ⟨hcredits, rfl⟩

/-- Its `ArithmeticOverflow` comes from the mean alone: the addition fails with
`InsufficientFunds`. -/
theorem mergeDelegationStakeAndCreditsObserved_eq_arithmeticOverflow
    (h : mergeDelegationStakeAndCreditsObserved stake a ca = .error .arithmeticOverflow) :
    stakeWeightedCreditsObserved stake a ca = none := by
  unfold mergeDelegationStakeAndCreditsObserved at h
  split at h
  · assumption
  · rcases except_bind_eq_error h with hadd | ⟨_, -, hpure⟩
    · exact absurd hadd (checkedAdd_ne_arithmeticOverflow _ _)
    · exact absurd hpure (except_pure_ne_error _ _)

end MergeDelegation

namespace MergeKind

section Merge

variable {d s : MergeKind} {clock : Clock}

/-- Once both checks pass, `merge` is `mergedState`. -/
theorem mergedState_of_merge_eq_ok {r : Option StakeStateV2} (h : d.merge s clock = .ok r) :
    mergedState d s = .ok r := by
  obtain ⟨_, -, h⟩ := except_bind_eq_ok h
  obtain ⟨_, -, h⟩ := except_bind_eq_ok h
  exact h

/-- A failed `merge` failed a check, with `MergeMismatch`, or failed in `mergedState`. -/
theorem merge_eq_error {e : InstructionError} (h : d.merge s clock = .error e) :
    e = .custom .mergeMismatch ∨ mergedState d s = .error e := by
  rcases except_bind_eq_error h with hmetas | ⟨_, -, h⟩
  · exact .inl (metasCanMerge_eq_error hmetas)
  rcases except_bind_eq_error h with hdelegations | ⟨_, -, h⟩
  · left
    -- the delegation check runs only when both kinds are delegated
    split at hdelegations
    · exact activeDelegationsCanMerge_eq_error hdelegations
    · exact absurd hdelegations (except_pure_ne_error _ _)
  · exact .inr h

/-- A merged state is a delegated account whose stake is the destination's plus the absorbed
lamports. -/
theorem mergedState_eq_ok_some {st : StakeStateV2} (h : mergedState d s = .ok (some st)) :
    ∃ dstake absorbed m stake flags, d.activeStake = some dstake ∧
      d.absorbedLamports s = some absorbed ∧ st = .stake m stake flags ∧
      stake.delegation.stake = dstake.delegation.stake + absorbed := by
  cases d with
  | inactive => cases s <;> simp [mergedState] at h
  | activationEpoch m stake flags =>
    cases s with
    | inactive sourceMeta lamports sourceFlags =>
      obtain ⟨total, hadd, hst⟩ := except_bind_eq_ok h
      obtain ⟨-, rfl⟩ := checkedAdd_eq_ok_iff.mp hadd
      cases Except.ok.inj hst
      exact ⟨stake, lamports, m, _, _, rfl, rfl, rfl, rfl⟩
    | activationEpoch sourceMeta sourceStake sourceFlags =>
      obtain ⟨sourceLamports, hsource, h⟩ := except_bind_eq_ok h
      obtain ⟨stake', hmerge, hst⟩ := except_bind_eq_ok h
      obtain ⟨-, rfl⟩ := checkedAdd_eq_ok_iff.mp hsource
      have hdelegation := (mergeDelegationStakeAndCreditsObserved_eq_ok hmerge).2
      cases Except.ok.inj hst
      exact ⟨stake, _, m, stake', _, rfl, rfl, rfl, by rw [hdelegation]⟩
    | fullyActive => simp [mergedState] at h
  | fullyActive m stake =>
    cases s with
    | fullyActive sourceMeta sourceStake =>
      obtain ⟨stake', hmerge, hst⟩ := except_bind_eq_ok h
      have hdelegation := (mergeDelegationStakeAndCreditsObserved_eq_ok hmerge).2
      cases Except.ok.inj hst
      exact ⟨stake, _, m, stake', _, rfl, rfl, rfl, by rw [hdelegation]⟩
    | _ => simp [mergedState] at h

/-- `mergedState` fails with `ArithmeticOverflow` only where both kinds are delegated and the
stake-weighted mean of their credits fails. -/
theorem mergedState_eq_arithmeticOverflow
    (h : mergedState d s = .error .arithmeticOverflow) :
    ∃ dstake sstake absorbed, d.activeStake = some dstake ∧ s.activeStake = some sstake ∧
      d.absorbedLamports s = some absorbed ∧
      stakeWeightedCreditsObserved dstake absorbed sstake.creditsObserved = none := by
  cases d with
  | inactive => cases s <;> simp [mergedState] at h
  | activationEpoch m stake flags =>
    cases s with
    | inactive =>
      rcases except_bind_eq_error h with hadd | ⟨_, -, hpure⟩
      · exact absurd hadd (checkedAdd_ne_arithmeticOverflow _ _)
      · exact absurd hpure (except_pure_ne_error _ _)
    | activationEpoch sourceMeta sourceStake sourceFlags =>
      rcases except_bind_eq_error h with hadd | ⟨sourceLamports, hsource, h⟩
      · exact absurd hadd (checkedAdd_ne_arithmeticOverflow _ _)
      obtain ⟨-, rfl⟩ := checkedAdd_eq_ok_iff.mp hsource
      rcases except_bind_eq_error h with hmerge | ⟨_, -, hpure⟩
      · exact ⟨stake, sourceStake, _, rfl, rfl, rfl,
          mergeDelegationStakeAndCreditsObserved_eq_arithmeticOverflow hmerge⟩
      · exact absurd hpure (except_pure_ne_error _ _)
    | fullyActive => simp [mergedState] at h
  | fullyActive m stake =>
    cases s with
    | fullyActive sourceMeta sourceStake =>
      rcases except_bind_eq_error h with hmerge | ⟨_, -, hpure⟩
      · exact ⟨stake, sourceStake, _, rfl, rfl, rfl,
          mergeDelegationStakeAndCreditsObserved_eq_arithmeticOverflow hmerge⟩
      · exact absurd hpure (except_pure_ne_error _ _)
    | _ => simp [mergedState] at h

end Merge

end MergeKind

/-- A merge stakes, on top of the destination's stake, exactly the lamports `absorbedLamports`
names; the merged credits are the stake-weighted mean rounded up, between the two credits, and
owe at most one credit per lamport less than the two accounts did; and an `ArithmeticOverflow`
means differing credits with a total stake that overflows `u64` or is zero. -/
theorem merge_conserves_stake_and_credits :
    (∀ (d s : MergeKind) (clock : Clock) (st : StakeStateV2), d.merge s clock = .ok (some st) →
      ∃ dstake absorbed m stake flags, d.activeStake = some dstake ∧
        d.absorbedLamports s = some absorbed ∧ st = .stake m stake flags ∧
        stake.delegation.stake = dstake.delegation.stake + absorbed) ∧
    (∀ (stake : Stake) (a ca : Nat), stake.creditsObserved ≤ U64_MAX → ca ≤ U64_MAX →
      0 < stake.delegation.stake + a → stake.delegation.stake + a ≤ U64_MAX →
      ∃ c, stakeWeightedCreditsObserved stake a ca = some c ∧
        c = ⌈((stake.creditsObserved * stake.delegation.stake + ca * a : ℕ) : ℚ) /
          ((stake.delegation.stake + a : ℕ) : ℚ)⌉₊ ∧
        min stake.creditsObserved ca ≤ c ∧ c ≤ max stake.creditsObserved ca ∧
        stake.creditsObserved * stake.delegation.stake + ca * a ≤
          c * (stake.delegation.stake + a) ∧
        c * (stake.delegation.stake + a) -
          (stake.creditsObserved * stake.delegation.stake + ca * a) <
          stake.delegation.stake + a) ∧
    (∀ (d s : MergeKind) (clock : Clock),
      (∀ st ∈ d.activeStake, st.creditsObserved ≤ U64_MAX) →
      (∀ st ∈ s.activeStake, st.creditsObserved ≤ U64_MAX) →
      d.merge s clock = .error .arithmeticOverflow →
      ∃ dstake sstake absorbed, d.activeStake = some dstake ∧ s.activeStake = some sstake ∧
        d.absorbedLamports s = some absorbed ∧ dstake.creditsObserved ≠ sstake.creditsObserved ∧
        (U64_MAX < dstake.delegation.stake + absorbed ∨
          (dstake.delegation.stake = 0 ∧ absorbed = 0))) := by
  refine ⟨fun d s clock st h =>
    MergeKind.mergedState_eq_ok_some (MergeKind.mergedState_of_merge_eq_ok h), ?_, ?_⟩
  · intro stake a ca hcd hca hpos hsum
    have hbetween := CeilDiv.weighted_add_pred_div_mem (x := stake.creditsObserved)
      (y := ca) hpos
    have hlo := CeilDiv.le_add_pred_div_mul
      (stake.creditsObserved * stake.delegation.stake + ca * a) hpos
    have hhi := CeilDiv.add_pred_div_mul_lt
      (stake.creditsObserved * stake.delegation.stake + ca * a) hpos
    refine ⟨_, stakeWeightedCreditsObserved_eq_ceil hcd hca hpos hsum,
      CeilDiv.add_pred_div_eq_ceil _ hpos, hbetween.1, hbetween.2, hlo, ?_⟩
    omega
  · intro d s clock hd hs h
    rcases MergeKind.merge_eq_error h with hmismatch | hstate
    · cases hmismatch
    obtain ⟨dstake, sstake, absorbed, hdstake, hsstake, habsorbed, hnone⟩ :=
      MergeKind.mergedState_eq_arithmeticOverflow hstate
    obtain ⟨hne, hwhy⟩ :=
      stakeWeightedCreditsObserved_eq_none hnone (hd dstake hdstake) (hs sstake hsstake)
    refine ⟨dstake, sstake, absorbed, hdstake, hsstake, habsorbed, hne, ?_⟩
    omega

/-- A fully active delegation to the zero voter, under an all-zero meta. -/
def fullyActiveAt (lamports credits : Nat) : MergeKind :=
  .fullyActive ⟨0, ⟨⟨0⟩, ⟨0⟩⟩, ⟨0, 0, ⟨0⟩⟩⟩ ⟨⟨⟨0⟩, lamports, 0, U64_MAX⟩, credits⟩

/-- Two fully active delegations to one voter, three lamports at 10 credits and one at 11: they
merge into four lamports, at credits between the two. With `u64::MAX` lamports at the destination
the sum overflows. -/
theorem merge_conserves_stake_and_credits_fully_active :
    (∃ st, (fullyActiveAt 3 10).merge (fullyActiveAt 1 11) ⟨0, 5⟩ = .ok (some st) ∧
      ∃ m stake flags, st = .stake m stake flags ∧ stake.delegation.stake = 3 + 1) ∧
    (∃ c, stakeWeightedCreditsObserved ⟨⟨⟨0⟩, 3, 0, U64_MAX⟩, 10⟩ 1 11 = some c ∧
      10 ≤ c ∧ c ≤ 11) ∧
    ((fullyActiveAt U64_MAX 10).merge (fullyActiveAt 1 11) ⟨0, 5⟩ = .error .arithmeticOverflow ∧
      ∃ absorbed, (fullyActiveAt U64_MAX 10).absorbedLamports (fullyActiveAt 1 11) = some absorbed ∧
        U64_MAX < U64_MAX + absorbed) := by
  obtain ⟨hok, hmean, hoverflow⟩ := merge_conserves_stake_and_credits
  obtain ⟨st, hst⟩ : ∃ st, (fullyActiveAt 3 10).merge (fullyActiveAt 1 11) ⟨0, 5⟩ =
      .ok (some st) := ⟨_, rfl⟩
  refine ⟨⟨st, hst, ?_⟩, ?_, rfl, ?_⟩
  · -- the destination's three lamports absorb the source's one
    obtain ⟨dstake, absorbed, m, stake, flags, hd, habs, hst', hsum⟩ := hok _ _ _ _ hst
    cases hd
    cases habs
    exact ⟨m, stake, flags, hst', hsum⟩
  · obtain ⟨c, hc, -, hmin, hmax, -⟩ := hmean ⟨⟨⟨0⟩, 3, 0, U64_MAX⟩, 10⟩ 1 11 (by decide)
      (by decide) (by decide) (by decide)
    exact ⟨c, hc, hmin, hmax⟩
  · obtain ⟨dstake, sstake, absorbed, hd, -, habs, -, hbig⟩ := hoverflow
      (fullyActiveAt U64_MAX 10) (fullyActiveAt 1 11) ⟨0, 5⟩
      (fun st hst => by cases hst; decide) (fun st hst => by cases hst; decide) rfl
    cases hd
    exact ⟨absorbed, habs, hbig.resolve_right fun h => absurd h.1 (by decide)⟩

end Agave.StakeProgram
