import Mathlib.Data.Nat.ModEq
import Agave.Stake.State
import Agave.Vote.EpochCredits

/-!
# Inflation points and reward redemption

`programs/stake/src/points.rs` and `programs/stake/src/rewards.rs`, with
`VoteState::commission_split`. A stake earns, in each epoch of its vote account's credit history,
its effective stake times the credits of that epoch it has not yet been paid for
(`calculateStakePointsAndCredits`); the epoch's rewards are shared out in proportion to the points,
rounded down, and each share is split between the voter and the staker by the commission, each
part rounded down on its own (`calculateStakeRewards`).

The effective stake of a delegation in an epoch, which the code reads off the stake history with
the warm-up and cool-down rules, is a parameter `stakeAt` here; the vote account's commission is
passed beside its `VoteState`. `none` is a panic of an `unwrap`.

On a well-formed credit history the points are exactly the stake times the unobserved credits of
each epoch (`calculateStakePointsAndCredits_of_lt`), and they stay within `u128`
(`points_le`). With a point value over at least the points of all the stakes redeemed, no
redemption panics, each pays at most its share (`calculateStakeRewards_spec`), and all of them
together pay at most the rewards (`sum_payout_le`).
-/

namespace Agave.StakeProgram

open Vote

/-- `PointValue`: the lamports to split, a `u64`, over the points, a `u128`. -/
structure PointValue where
  rewards : Nat
  points : Nat
  deriving DecidableEq, Repr

/-- `CalculatedStakePoints`. -/
structure CalculatedStakePoints where
  points : Nat
  newCreditsObserved : Nat
  forceCreditsUpdateWithSkippedReward : Bool
  deriving DecidableEq, Repr

/-- `CalculatedStakeRewards`. -/
structure CalculatedStakeRewards where
  stakerRewards : Nat
  voterRewards : Nat
  newCreditsObserved : Nat
  deriving DecidableEq, Repr

/-! ## Points -/

/-- The credits of an epoch the stake is paid for: all of them when it had observed none of the
epoch, those past the running maximum when it registered during the epoch, else none. -/
def earnedCredits (creditsInStake newCreditsObserved finalEpochCredits initialEpochCredits : Nat) :
    Nat :=
  if creditsInStake < initialEpochCredits then
    -- the staker observed the entire epoch
    finalEpochCredits - initialEpochCredits
  else if creditsInStake < finalEpochCredits then
    -- the staker registered sometime during the epoch, partial credit
    finalEpochCredits - newCreditsObserved
  else
    -- the staker has already observed or been redeemed this epoch
    0

/-- A turn of the loop over `epoch_credits`: the points and the running maximum of the credits. -/
def pointsStep (stakeAt : Epoch → Nat) (creditsInStake : Nat) (acc : Nat × Nat)
    (entry : Epoch × Nat × Nat) : Nat × Nat :=
  let stakeAmount := stakeAt entry.1
  let earned := earnedCredits creditsInStake acc.2 entry.2.1 entry.2.2
  (acc.1 + stakeAmount * earned, max acc.2 entry.2.1)

/-- `calculate_stake_points_and_credits`. -/
def calculateStakePointsAndCredits (stake : Stake) (newVoteState : VoteState)
    (stakeAt : Epoch → Nat) : CalculatedStakePoints :=
  let creditsInStake := stake.creditsObserved
  let creditsInVote := credits newVoteState.epochCredits
  -- if there is no newer credits since observed, return no point
  if creditsInVote < creditsInStake then ⟨0, creditsInVote, true⟩
  else if creditsInVote = creditsInStake then ⟨0, creditsInStake, false⟩
  else
    let acc := newVoteState.epochCredits.foldl (pointsStep stakeAt creditsInStake)
      (0, creditsInStake)
    ⟨acc.1, acc.2, false⟩

/-- The credits of an entry not yet observed by a stake that has observed `c`: those from the
larger of the entry's start and `c` to its end. -/
def unobserved (c : Nat) (entry : Epoch × Nat × Nat) : Nat := entry.2.1 - max entry.2.2 c

/-- Past an entry that ends at or below the next one's start, the running maximum is `c` or the
credits the next entry starts with, and the next entry earns its unobserved credits. -/
theorem earnedCredits_eq {c prev final initial : Nat} (hprev : prev ≤ initial)
    (hentry : initial ≤ final) :
    earnedCredits c (max c prev) final initial = final - max initial c := by
  unfold earnedCredits
  split_ifs <;> omega

/-- In a chained history the entry after another starts where it ends. -/
theorem le_head_of_isChain {e : Epoch × Nat × Nat} {rest : List (Epoch × Nat × Nat)}
    (hchain : (e :: rest).IsChain EpochCreditsStep) : ∀ e' ∈ rest.head?, e.2.1 ≤ e'.2.2 := by
  intro e' he'
  cases rest with
  | nil => cases he'
  | cons y rest' =>
    cases he'
    exact Nat.le_of_eq (List.isChain_cons_cons.mp hchain).1.2.symm

theorem getD_map_getLast?_cons {f : Epoch × Nat × Nat → Nat} (e : Epoch × Nat × Nat)
    (rest : List (Epoch × Nat × Nat)) (d : Nat) :
    ((e :: rest).getLast?.map f).getD d = (rest.getLast?.map f).getD (f e) := by
  rw [List.getLast?_cons, Option.map_some, Option.getD_some, Option.getD_map]

/-- The loop over a chained history from an accumulator whose credits end at or below the first
entry's start: it adds the stake times the unobserved credits of each entry, and the maximum ends
at the last entry's end. -/
theorem foldl_pointsStep (stakeAt : Epoch → Nat) (c : Nat) :
    ∀ (l : List (Epoch × Nat × Nat)) (points prev : Nat), l.IsChain EpochCreditsStep →
      (∀ e ∈ l, e.2.2 ≤ e.2.1) → (∀ e ∈ l.head?, prev ≤ e.2.2) →
      l.foldl (pointsStep stakeAt c) (points, max c prev) =
        (points + (l.map fun e => stakeAt e.1 * unobserved c e).sum,
          max c ((l.getLast?.map (·.2.1)).getD prev))
  | [], points, prev, _, _, _ => by simp
  | e :: rest, points, prev, hchain, hentries, hprev => by
    have hentry := hentries e List.mem_cons_self
    have hstart : prev ≤ e.2.2 := hprev e rfl
    have hstep : pointsStep stakeAt c (points, max c prev) e =
        (points + stakeAt e.1 * unobserved c e, max c e.2.1) := by
      simp only [pointsStep, earnedCredits_eq hstart hentry, unobserved]
      congr 1
      omega
    rw [List.foldl_cons, hstep, foldl_pointsStep stakeAt c rest _ e.2.1 hchain.tail
      (fun e' he' => hentries e' (List.mem_cons_of_mem _ he')) (le_head_of_isChain hchain),
      getD_map_getLast?_cons, List.map_cons, List.sum_cons, Nat.add_assoc]

/-- On a history chained by its credits, whose entries lose none, and with newer credits than the
stake has observed: the points are the stake times the unobserved credits of each epoch, and the
credits observed move to the vote account's. -/
theorem calculateStakePointsAndCredits_of_lt {stake : Stake} {voteState : VoteState}
    (stakeAt : Epoch → Nat) (hchain : voteState.epochCredits.IsChain EpochCreditsStep)
    (hentries : ∀ e ∈ voteState.epochCredits, e.2.2 ≤ e.2.1)
    (hcredits : stake.creditsObserved < credits voteState.epochCredits) :
    calculateStakePointsAndCredits stake voteState stakeAt =
      ⟨(voteState.epochCredits.map fun e => stakeAt e.1 * unobserved stake.creditsObserved e).sum,
        max stake.creditsObserved (credits voteState.epochCredits), false⟩ := by
  have hfold := foldl_pointsStep stakeAt stake.creditsObserved voteState.epochCredits 0 0 hchain
    hentries (fun e _ => Nat.zero_le _)
  rw [Nat.max_zero, Nat.zero_add] at hfold
  unfold calculateStakePointsAndCredits
  dsimp only
  rw [if_neg (by omega), if_neg (by omega), hfold]
  rfl

/-- The unobserved credits of a chained history add up to no more than the credits past `c`:
the sum is bounded by the telescoping of the entries. -/
theorem sum_unobserved_le (c : Nat) :
    ∀ (l : List (Epoch × Nat × Nat)) (prev : Nat), l.IsChain EpochCreditsStep →
      (∀ e ∈ l, e.2.2 ≤ e.2.1) → (∀ e ∈ l.head?, prev ≤ e.2.2) →
      (l.map (unobserved c)).sum + max c prev ≤ max c ((l.getLast?.map (·.2.1)).getD prev)
  | [], prev, _, _, _ => by simp
  | e :: rest, prev, hchain, hentries, hprev => by
    have hentry := hentries e List.mem_cons_self
    have hstart : prev ≤ e.2.2 := hprev e rfl
    have ih := sum_unobserved_le c rest e.2.1 hchain.tail
      (fun e' he' => hentries e' (List.mem_cons_of_mem _ he')) (le_head_of_isChain hchain)
    -- the entry's unobserved credits close the gap from `max c prev` to `max c e.2.1`
    have he : unobserved c e = e.2.1 - max e.2.2 c := rfl
    rw [List.map_cons, List.sum_cons, getD_map_getLast?_cons]
    omega

/-- The points stay within the stake times the credits past those observed: within `u128` when
both are `u64`s. -/
theorem points_le {stake : Stake} {voteState : VoteState} {stakeAt : Epoch → Nat}
    (hchain : voteState.epochCredits.IsChain EpochCreditsStep)
    (hentries : ∀ e ∈ voteState.epochCredits, e.2.2 ≤ e.2.1)
    (hstake : ∀ epoch, stakeAt epoch ≤ stake.delegation.stake) :
    (voteState.epochCredits.map fun e => stakeAt e.1 * unobserved stake.creditsObserved e).sum ≤
      stake.delegation.stake * (credits voteState.epochCredits - stake.creditsObserved) := by
  have hsum := sum_unobserved_le stake.creditsObserved voteState.epochCredits 0 hchain hentries
    (fun e _ => Nat.zero_le _)
  have hcredits : (voteState.epochCredits.getLast?.map (·.2.1)).getD 0 =
      credits voteState.epochCredits := rfl
  rw [hcredits, Nat.max_zero] at hsum
  calc (voteState.epochCredits.map fun e => stakeAt e.1 * unobserved stake.creditsObserved e).sum
      ≤ (voteState.epochCredits.map fun e =>
          stake.delegation.stake * unobserved stake.creditsObserved e).sum :=
        List.sum_le_sum fun e _ => Nat.mul_le_mul_right _ (hstake e.1)
    _ = stake.delegation.stake * (voteState.epochCredits.map (unobserved stake.creditsObserved)).sum := by
        rw [List.sum_map_mul_left]
    _ ≤ stake.delegation.stake * (credits voteState.epochCredits - stake.creditsObserved) :=
        Nat.mul_le_mul_left _ (by omega)

/-! ## Rewards -/

/-- `VoteState::commission_split` at the vote account's commission: the voter's part of `on`, the
staker's, and whether both have one. -/
def commissionSplit (commission on : Nat) : Nat × Nat × Bool :=
  match min commission 100 with
  | 0 => (0, on, false)
  | 100 => (on, 0, false)
  | split =>
    -- mine and theirs independently and symmetrically, each rounded down: a residual fractional
    -- lamport is discarded
    let mine := on * split / 100
    let theirs := on * (100 - split) / 100
    (mine, theirs, true)

/-- `calculate_stake_rewards`: `none` is a panic of one of its `unwrap`s, `some none` no payout. -/
def calculateStakeRewards (rewardedEpoch : Epoch) (stake : Stake) (pointValue : PointValue)
    (voteState : VoteState) (commission : Nat) (stakeAt : Epoch → Nat) :
    Option (Option CalculatedStakeRewards) :=
  let calculated := calculateStakePointsAndCredits stake voteState stakeAt
  -- drive credits_observed forward unconditionally when rewards are disabled or when this is the
  -- stake's activation epoch
  let force :=
    if pointValue.rewards = 0 then true
    else if stake.delegation.activationEpoch = rewardedEpoch then true
    else calculated.forceCreditsUpdateWithSkippedReward
  if force then some (some ⟨0, 0, calculated.newCreditsObserved⟩)
  else if calculated.points = 0 then some none
  else if pointValue.points = 0 then some none
  else
    (checkedMulWithin U128_MAX calculated.points pointValue.rewards).bind fun product =>
    (checkedDivNat product pointValue.points).bind fun rewards =>
    -- `u64::try_from(rewards).unwrap()`
    if rewards > U64_MAX then none
    -- don't bother trying to split if fractional lamports got truncated
    else if rewards = 0 then some none
    else
      match commissionSplit commission rewards with
      | (voterRewards, stakerRewards, isSplit) =>
        -- don't collect if we lose a whole lamport somewhere
        if (voterRewards = 0 ∨ stakerRewards = 0) ∧ isSplit = true then some none
        else some (some ⟨stakerRewards, voterRewards, calculated.newCreditsObserved⟩)

/-- A stake's share of the rewards, rounded down: its points over those of the point value. -/
def share (pointValue : PointValue) (points : Nat) : Nat :=
  points * pointValue.rewards / pointValue.points

/-- The two parts of the split are the commission's part and the rest, each rounded down; a
commission past 100 counts as 100. -/
theorem commissionSplit_parts (commission on : Nat) :
    (commissionSplit commission on).1 = on * min commission 100 / 100 ∧
      (commissionSplit commission on).2.1 = on * (100 - min commission 100) / 100 := by
  unfold commissionSplit
  split
  · rename_i hzero
    simp [hzero]
  · rename_i hfull
    simp [hfull]
  · exact ⟨rfl, rfl⟩

/-- The split never pays out more than it splits. -/
theorem commissionSplit_add_le (commission on : Nat) :
    (commissionSplit commission on).1 + (commissionSplit commission on).2.1 ≤ on := by
  obtain ⟨hvoter, hstaker⟩ := commissionSplit_parts commission on
  have hsplit : min commission 100 ≤ 100 := Nat.min_le_right _ _
  rw [hvoter, hstaker]
  calc on * min commission 100 / 100 + on * (100 - min commission 100) / 100
      ≤ (on * min commission 100 + on * (100 - min commission 100)) / 100 :=
        Nat.div_add_div_le_add_div
    _ = on := by
        rw [← Nat.mul_add, Nat.add_sub_cancel' hsplit, Nat.mul_div_cancel _ (by decide)]

/-- A share over a point value with at least the stake's points is within the rewards. -/
theorem share_le {pointValue : PointValue} {points : Nat} (hpoints : points ≤ pointValue.points) :
    share pointValue points ≤ pointValue.rewards :=
  Nat.div_le_of_le_mul (Nat.mul_le_mul_right _ hpoints)

/-- A redemption over a point value with at least the stake's points, whose product with the
rewards is within `u128`, and with rewards within `u64`, never panics. It pays either nothing,
with the credits observed moved forward, or the stake's share split by the commission; either way
at most the share. -/
theorem calculateStakeRewards_spec (rewardedEpoch : Epoch) (stake : Stake)
    (pointValue : PointValue) (voteState : VoteState) (commission : Nat) (stakeAt : Epoch → Nat)
    (hpoints : (calculateStakePointsAndCredits stake voteState stakeAt).points ≤ pointValue.points)
    (hmul : (calculateStakePointsAndCredits stake voteState stakeAt).points * pointValue.rewards <
      2 ^ 128)
    (hrewards : pointValue.rewards ≤ U64_MAX) :
    ∃ o, calculateStakeRewards rewardedEpoch stake pointValue voteState commission stakeAt =
      some o ∧ ∀ r ∈ o,
        r.newCreditsObserved =
          (calculateStakePointsAndCredits stake voteState stakeAt).newCreditsObserved ∧
        r.stakerRewards + r.voterRewards ≤
          share pointValue (calculateStakePointsAndCredits stake voteState stakeAt).points ∧
        (r.stakerRewards = 0 ∧ r.voterRewards = 0 ∨
          r.voterRewards = share pointValue
              (calculateStakePointsAndCredits stake voteState stakeAt).points *
                min commission 100 / 100 ∧
            r.stakerRewards = share pointValue
              (calculateStakePointsAndCredits stake voteState stakeAt).points *
                (100 - min commission 100) / 100) := by
  unfold calculateStakeRewards
  dsimp only
  generalize calculateStakePointsAndCredits stake voteState stakeAt = calculated at hpoints hmul ⊢
  by_cases hforce : (if pointValue.rewards = 0 then true
      else if stake.delegation.activationEpoch = rewardedEpoch then true
      else calculated.forceCreditsUpdateWithSkippedReward) = true
  · -- credits forced forward, nothing paid
    rw [if_pos hforce]
    exact ⟨_, rfl, fun r hr => by cases hr; simp⟩
  rw [if_neg hforce]
  by_cases hzero : calculated.points = 0
  · rw [if_pos hzero]
    exact ⟨none, rfl, by simp⟩
  rw [if_neg hzero]
  by_cases hzero_points : pointValue.points = 0
  · rw [if_pos hzero_points]
    exact ⟨none, rfl, by simp⟩
  rw [if_neg hzero_points]
  have hproduct : calculated.points * pointValue.rewards ≤ U128_MAX := by
    unfold U128_MAX
    omega
  have hshare : share pointValue calculated.points ≤ U64_MAX :=
    Nat.le_trans (share_le hpoints) hrewards
  have hshare_eq : calculated.points * pointValue.rewards / pointValue.points =
      share pointValue calculated.points := rfl
  rw [checkedMulWithin_of_le hproduct, Option.bind_some,
    checkedDivNat_of_pos (Nat.pos_of_ne_zero hzero_points), Option.bind_some, hshare_eq,
    if_neg (Nat.not_lt.mpr hshare)]
  split
  · exact ⟨none, rfl, by simp⟩
  obtain ⟨hvoter, hstaker⟩ := commissionSplit_parts commission (share pointValue calculated.points)
  have hsum := commissionSplit_add_le commission (share pointValue calculated.points)
  rcases hsplit : commissionSplit commission (share pointValue calculated.points) with
    ⟨voterRewards, stakerRewards, isSplit⟩
  rw [hsplit] at hvoter hstaker hsum
  dsimp only at hvoter hstaker hsum ⊢
  split
  · exact ⟨none, rfl, by simp⟩
  · -- the stake's share, split by the commission
    refine ⟨_, rfl, fun r hr => ?_⟩
    cases hr
    exact ⟨rfl, by rw [Nat.add_comm]; exact hsum, Or.inr ⟨hvoter, hstaker⟩⟩

/-! ## Redeeming the stakes of an epoch -/

/-- A stake to redeem: the stake, the state and commission of its vote account, and its effective
stake in each epoch. -/
structure Redemption where
  stake : Stake
  voteState : VoteState
  commission : Nat
  stakeAt : Epoch → Nat

/-- The points the stake earns. -/
def Redemption.points (r : Redemption) : Nat :=
  (calculateStakePointsAndCredits r.stake r.voteState r.stakeAt).points

/-- The lamports a redemption pays out, to the staker and the voter together. -/
def payout : Option (Option CalculatedStakeRewards) → Nat
  | some (some rewards) => rewards.stakerRewards + rewards.voterRewards
  | _ => 0

/-- Shares rounded down one at a time add up to at most the total rounded down. -/
theorem sum_map_div_le {α : Type} (f : α → Nat) (d : Nat) :
    ∀ l : List α, (l.map fun x => f x / d).sum ≤ (l.map f).sum / d
  | [] => by simp
  | x :: rest => by
    rw [List.map_cons, List.sum_cons, List.map_cons, List.sum_cons]
    calc f x / d + (rest.map fun x => f x / d).sum
        ≤ f x / d + (rest.map f).sum / d := Nat.add_le_add_left (sum_map_div_le f d rest) _
      _ ≤ (f x + (rest.map f).sum) / d := Nat.div_add_div_le_add_div

/-- Redeeming stakes over a point value with at least all their points pays out at most the
rewards, whatever the commissions and however the rounding falls. -/
theorem sum_payout_le (rewardedEpoch : Epoch) (pointValue : PointValue)
    (redeemed : List Redemption)
    (hpoints : (redeemed.map Redemption.points).sum ≤ pointValue.points)
    (hmul : ∀ r ∈ redeemed, r.points * pointValue.rewards < 2 ^ 128)
    (hrewards : pointValue.rewards ≤ U64_MAX) :
    (redeemed.map fun r => payout (calculateStakeRewards rewardedEpoch r.stake pointValue
      r.voteState r.commission r.stakeAt)).sum ≤ pointValue.rewards := by
  -- each redemption pays at most its share
  have hpayout : ∀ r ∈ redeemed, payout (calculateStakeRewards rewardedEpoch r.stake pointValue
      r.voteState r.commission r.stakeAt) ≤ share pointValue r.points := by
    intro r hr
    have hle : r.points ≤ pointValue.points :=
      Nat.le_trans (List.le_sum_of_mem (List.mem_map_of_mem hr)) hpoints
    obtain ⟨o, ho, hspec⟩ := calculateStakeRewards_spec rewardedEpoch r.stake pointValue
      r.voteState r.commission r.stakeAt hle (hmul r hr) hrewards
    rw [ho]
    cases o with
    | none => exact Nat.zero_le _
    | some rewards => exact (hspec rewards rfl).2.1
  calc (redeemed.map fun r => payout (calculateStakeRewards rewardedEpoch r.stake pointValue
        r.voteState r.commission r.stakeAt)).sum
      ≤ (redeemed.map fun r => r.points * pointValue.rewards / pointValue.points).sum :=
        List.sum_le_sum hpayout
    _ ≤ (redeemed.map fun r => r.points * pointValue.rewards).sum / pointValue.points :=
        sum_map_div_le _ _ redeemed
    _ = (redeemed.map Redemption.points).sum * pointValue.rewards / pointValue.points := by
        rw [List.sum_map_mul_right]
    _ ≤ pointValue.rewards :=
        Nat.div_le_of_le_mul (Nat.mul_le_mul_right _ hpoints)

/-- Points and rewards together. On a credit history whose epochs go up, whose entries each start
where the one before ended and lose no credits, with newer credits than the stake has observed:
the points are the stake of each epoch times the credits of the epoch it has not observed, within
the full stake times the new credits, and the credits observed move to the vote account's. Over a
point value with at least the points of all the stakes redeemed: no redemption panics, each pays
at most its share of the rewards, and when it pays, the voter the commission's part of the share
and the staker the rest, each rounded down, a commission past 100 counting as 100; all together pay
at most the rewards. -/
theorem stake_points_and_rewards_exact (stake : Stake) (voteState : VoteState)
    (stakeAt : Epoch → Nat) (hchain : voteState.epochCredits.IsChain EpochCreditsStep)
    (hentries : ∀ e ∈ voteState.epochCredits, e.2.2 ≤ e.2.1)
    (hcredits : stake.creditsObserved < credits voteState.epochCredits)
    (hstake : ∀ epoch, stakeAt epoch ≤ stake.delegation.stake)
    (rewardedEpoch : Epoch) (pointValue : PointValue) (redeemed : List Redemption)
    (hpoints : (redeemed.map Redemption.points).sum ≤ pointValue.points)
    (hmul : ∀ r ∈ redeemed, r.points * pointValue.rewards < 2 ^ 128)
    (hrewards : pointValue.rewards ≤ U64_MAX) :
    calculateStakePointsAndCredits stake voteState stakeAt =
        ⟨(voteState.epochCredits.map fun e => stakeAt e.1 * unobserved stake.creditsObserved e).sum,
          max stake.creditsObserved (credits voteState.epochCredits), false⟩ ∧
      (voteState.epochCredits.map fun e => stakeAt e.1 * unobserved stake.creditsObserved e).sum ≤
        stake.delegation.stake * (credits voteState.epochCredits - stake.creditsObserved) ∧
      (∀ r ∈ redeemed, ∃ o, calculateStakeRewards rewardedEpoch r.stake pointValue r.voteState
          r.commission r.stakeAt = some o ∧ ∀ rewards ∈ o,
        rewards.stakerRewards + rewards.voterRewards ≤ share pointValue r.points ∧
        (rewards.stakerRewards = 0 ∧ rewards.voterRewards = 0 ∨
          rewards.voterRewards = share pointValue r.points * min r.commission 100 / 100 ∧
            rewards.stakerRewards =
              share pointValue r.points * (100 - min r.commission 100) / 100)) ∧
      (redeemed.map fun r => payout (calculateStakeRewards rewardedEpoch r.stake pointValue
        r.voteState r.commission r.stakeAt)).sum ≤ pointValue.rewards := by
  refine ⟨calculateStakePointsAndCredits_of_lt stakeAt hchain hentries hcredits,
    points_le hchain hentries hstake, ?_, sum_payout_le rewardedEpoch pointValue redeemed hpoints
      hmul hrewards⟩
  intro r hr
  have hle : r.points ≤ pointValue.points :=
    Nat.le_trans (List.le_sum_of_mem (List.mem_map_of_mem hr)) hpoints
  obtain ⟨o, ho, hspec⟩ := calculateStakeRewards_spec rewardedEpoch r.stake pointValue r.voteState
    r.commission r.stakeAt hle (hmul r hr) hrewards
  exact ⟨o, ho, fun rewards hrewards => (hspec rewards hrewards).2⟩

/-- A stake of 5 that has observed 2 credits, on a vote account with 4 credits in epoch 0 and 5
more in epoch 1 and a commission of 10: it earns 5 × 2 + 5 × 5 points. -/
def twoEpochRedemption : Redemption :=
  ⟨⟨⟨⟨0⟩, 5, 0, U64_MAX⟩, 2⟩, ⟨[], none, [(0, 4, 0), (1, 9, 4)]⟩, 10, fun _ => 5⟩

theorem stake_points_and_rewards_exact_two_epochs :
    calculateStakePointsAndCredits twoEpochRedemption.stake twoEpochRedemption.voteState
        twoEpochRedemption.stakeAt =
        ⟨(twoEpochRedemption.voteState.epochCredits.map fun e =>
            twoEpochRedemption.stakeAt e.1 *
              unobserved twoEpochRedemption.stake.creditsObserved e).sum,
          max twoEpochRedemption.stake.creditsObserved
            (credits twoEpochRedemption.voteState.epochCredits), false⟩ ∧
      (twoEpochRedemption.voteState.epochCredits.map fun e =>
          twoEpochRedemption.stakeAt e.1 *
            unobserved twoEpochRedemption.stake.creditsObserved e).sum ≤
        twoEpochRedemption.stake.delegation.stake *
          (credits twoEpochRedemption.voteState.epochCredits -
            twoEpochRedemption.stake.creditsObserved) ∧
      (∀ r ∈ [twoEpochRedemption], ∃ o, calculateStakeRewards 1 r.stake ⟨1000, 35⟩ r.voteState
          r.commission r.stakeAt = some o ∧ ∀ rewards ∈ o,
        rewards.stakerRewards + rewards.voterRewards ≤ share ⟨1000, 35⟩ r.points ∧
        (rewards.stakerRewards = 0 ∧ rewards.voterRewards = 0 ∨
          rewards.voterRewards = share ⟨1000, 35⟩ r.points * min r.commission 100 / 100 ∧
            rewards.stakerRewards =
              share ⟨1000, 35⟩ r.points * (100 - min r.commission 100) / 100)) ∧
      ([twoEpochRedemption].map fun r => payout (calculateStakeRewards 1 r.stake ⟨1000, 35⟩
        r.voteState r.commission r.stakeAt)).sum ≤ 1000 :=
  stake_points_and_rewards_exact twoEpochRedemption.stake twoEpochRedemption.voteState
    twoEpochRedemption.stakeAt (by simp [twoEpochRedemption, EpochCreditsStep]) (by decide)
    (by decide) (fun _ => Nat.le_refl 5) 1
    ⟨1000, 35⟩ [twoEpochRedemption] (by decide) (by decide) (by decide)

/-- A commission past 100 counts as 100: at a commission of 150 the voter gets the whole share,
100 lamports, not 150 × 100 / 100. -/
theorem calculateStakeRewards_commission_above_hundred :
    calculateStakeRewards 1 twoEpochRedemption.stake ⟨1000, 350⟩ twoEpochRedemption.voteState 150
        twoEpochRedemption.stakeAt = some (some ⟨0, 100, 9⟩) ∧
      share ⟨1000, 350⟩ twoEpochRedemption.points = 100 ∧ 100 ≠ 100 * 150 / 100 := by
  decide

end Agave.StakeProgram
