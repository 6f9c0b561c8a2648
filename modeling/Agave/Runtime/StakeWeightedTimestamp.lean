import Agave.Lib.Duration
import Agave.Lib.SortedMap
import Agave.Sdk.Basic

/-!
# The stake-weighted timestamp

`runtime/src/stake_weighted_timestamp.rs`: a bank's clock is the stake-weighted median of the
timestamps its voters last reported, each moved on to the current slot at `slot_duration` a slot,
then kept within a drift of the time the slots since the epoch's start take by PoH.

The first loop adds each vote's stake to its estimate in a `BTreeMap`. Its invariant, `Tallied`,
is that the stake in the map at or below any time is the stake of the votes whose estimate is at
or below it. The second loop walks the map in order and stops at the first estimate where the
stake so far passes half the total (`findMedian_spec`). The bound compares the estimate's offset
from the epoch's start with the PoH offset `P`, and moves an estimate more than `S` late or more
than `F` early onto that edge (`boundEstimate_eq`).

Every step saturates or wraps at the width of its type: the `u128` stake sums, the `Duration`
products, the `u64`-to-`i64` casts of whole seconds, the `i64` sums, and the casts of slot counts
to `u32`. Where none of them does, the result is the clamped weighted median of the exact
estimates. The slots since the epoch's start are cast to `u32` like those since each vote, but
nothing bounds them: from `2 ^ 32` slots on, the PoH offset wraps.
-/

namespace Agave.Runtime

/-- `UnixTimestamp`, an `i64`. -/
abbrev UnixTimestamp := Int

def MAX_ALLOWABLE_DRIFT_PERCENTAGE_FAST : Nat := 25
def MAX_ALLOWABLE_DRIFT_PERCENTAGE_SLOW_V2 : Nat := 150

def U128_MAX : Nat := 2 ^ 128 - 1

/-- `MaxAllowableDrift`: how far, in percent of the PoH offset, the estimate may run fast or slow;
`u32`s. -/
structure MaxAllowableDrift where
  fast : Nat
  slow : Nat

/-- A vote's `estimate` in the first loop: its timestamp moved on by the slots since it, each
`slot_duration` long, the number of slots cast to `u32`. -/
def voteEstimate (slot : Nat) (slotDuration : Duration) (timestampSlot : Nat)
    (timestamp : UnixTimestamp) : UnixTimestamp :=
  let offset := slotDuration.saturatingMul ((slot - timestampSlot) % 2 ^ 32)
  I64.saturatingAdd timestamp (I64.ofU64 offset.asSecs)

/-- `stake_per_timestamp.entry(estimate).and_modify(|stake_sum| *stake_sum =
stake_sum.saturating_add(stake)).or_insert(stake)`. -/
def addStake (estimate : UnixTimestamp) (stake : Nat)
    (stakePerTimestamp : List (UnixTimestamp × Nat)) : List (UnixTimestamp × Nat) :=
  match SortedMap.get? estimate stakePerTimestamp with
  | some stakeSum =>
    SortedMap.insert estimate (saturatingAdd U128_MAX stakeSum stake) stakePerTimestamp
  | none => SortedMap.insert estimate stake stakePerTimestamp

/-- The body of the first loop: the vote's stake, `0` for a voter without one, goes to its
estimate and into `total_stake`. -/
def addVoteTimestamp (stakes : Pubkey → Option Nat) (slot : Nat) (slotDuration : Duration)
    (acc : List (UnixTimestamp × Nat) × Nat) (vote : Pubkey × Nat × UnixTimestamp) :
    List (UnixTimestamp × Nat) × Nat :=
  let estimate := voteEstimate slot slotDuration vote.2.1 vote.2.2
  let stake := (stakes vote.1).getD 0
  (addStake estimate stake acc.1, saturatingAdd U128_MAX acc.2 stake)

/-- The second loop: walk the estimates in order adding up their stake, and stop at the first
where the sum passes half the total; `estimate` stays `0` if none does. -/
def findMedian (totalStake stakeAccumulator : Nat) :
    List (UnixTimestamp × Nat) → UnixTimestamp
  | [] => 0
  | (timestamp, stake) :: rest =>
    let stakeAccumulator := saturatingAdd U128_MAX stakeAccumulator stake
    if stakeAccumulator > totalStake / 2 then timestamp
    else findMedian totalStake stakeAccumulator rest

/-- The estimate's offset from the start of the epoch in whole seconds, a `u64`: the difference
of the two cast to `u64`, or their `i64` difference cast. -/
def estimateOffsetSecs (fixEstimateIntoU64 : Bool) (estimate epochStartTimestamp : UnixTimestamp) :
    Nat :=
  if fixEstimateIntoU64 then I64.toU64 estimate - I64.toU64 epochStartTimestamp
  else I64.toU64 (I64.saturatingSub estimate epochStartTimestamp)

theorem estimateOffsetSecs_le (fixEstimateIntoU64 : Bool) (estimate epochStartTimestamp : UnixTimestamp) :
    estimateOffsetSecs fixEstimateIntoU64 estimate epochStartTimestamp ≤ 2 ^ 64 - 1 := by
  unfold estimateOffsetSecs
  split
  · exact le_trans (Nat.sub_le _ _) (I64.toU64_le _)
  · exact I64.toU64_le _

/-- The end of the function: the estimate bounded by `max_allowable_drift` since the start of the
epoch. -/
def boundEstimate (slot : Nat) (slotDuration : Duration) (epochStartSlot : Nat)
    (epochStartTimestamp : UnixTimestamp) (maxAllowableDrift : MaxAllowableDrift)
    (fixEstimateIntoU64 : Bool) (estimate : UnixTimestamp) : UnixTimestamp :=
  let pohEstimateOffset := slotDuration.saturatingMul ((slot - epochStartSlot) % 2 ^ 32)
  let estimateOffset :=
    Duration.fromSecs (estimateOffsetSecs fixEstimateIntoU64 estimate epochStartTimestamp)
      (estimateOffsetSecs_le _ _ _)
  let maxAllowableDriftFast :=
    (pohEstimateOffset.saturatingMul maxAllowableDrift.fast).div 100 (by decide)
  let maxAllowableDriftSlow :=
    (pohEstimateOffset.saturatingMul maxAllowableDrift.slow).div 100 (by decide)
  if pohEstimateOffset < estimateOffset ∧
      maxAllowableDriftSlow < estimateOffset.saturatingSub pohEstimateOffset then
    I64.saturatingAdd
      (I64.saturatingAdd epochStartTimestamp (I64.ofU64 pohEstimateOffset.asSecs))
      (I64.ofU64 maxAllowableDriftSlow.asSecs)
  else if estimateOffset < pohEstimateOffset ∧
      maxAllowableDriftFast < pohEstimateOffset.saturatingSub estimateOffset then
    I64.saturatingSub
      (I64.saturatingAdd epochStartTimestamp (I64.ofU64 pohEstimateOffset.asSecs))
      (I64.ofU64 maxAllowableDriftFast.asSecs)
  else estimate

/-- `calculate_stake_weighted_timestamp`, over the votes in the order the iterator gives them. -/
def calculateStakeWeightedTimestamp (uniqueTimestamps : List (Pubkey × Nat × UnixTimestamp))
    (stakes : Pubkey → Option Nat) (slot : Nat) (slotDuration : Duration)
    (epochStartTimestamp : Option (Nat × UnixTimestamp)) (maxAllowableDrift : MaxAllowableDrift)
    (fixEstimateIntoU64 : Bool) : Option UnixTimestamp :=
  let tally := uniqueTimestamps.foldl (addVoteTimestamp stakes slot slotDuration) ([], 0)
  if tally.2 = 0 then none
  else
    let estimate := findMedian tally.2 0 tally.1
    match epochStartTimestamp with
    | none => some estimate
    | some (epochStartSlot, epochStartTimestamp) =>
      some (boundEstimate slot slotDuration epochStartSlot epochStartTimestamp maxAllowableDrift
        fixEstimateIntoU64 estimate)

/-! ## What it computes -/

/-- `⌊n · d⌋` in whole seconds: the time `n` slots of length `d` take. -/
def offsetSecs (n : Nat) (d : Duration) : Nat := n * d.toNanos / NANOS_PER_SEC

/-- A vote's timestamp moved on exactly to `slot`. -/
def exactEstimate (slot : Nat) (slotDuration : Duration) (vote : Pubkey × Nat × UnixTimestamp) :
    UnixTimestamp :=
  vote.2.2 + offsetSecs (slot - vote.2.1) slotDuration

/-- The stake of the votes whose estimate `e` is at or below `x`. -/
def stakeAtOrBelow (e : Pubkey × Nat × UnixTimestamp → UnixTimestamp)
    (stake : Pubkey × Nat × UnixTimestamp → Nat) (x : UnixTimestamp)
    (votes : List (Pubkey × Nat × UnixTimestamp)) : Nat :=
  ((votes.filter fun v => e v ≤ x).map stake).sum

/-- The estimate `m` kept within the drift: with the PoH offset `P` and the drifts `F` and `S`
allowed fast and slow, in nanoseconds, an offset from the epoch's start `t0` beyond `P + S` is
moved to the whole seconds of `P` and `S` after `t0`, one short of `P - F` to those of `P`
less those of `F`. -/
def driftBound (t0 m : UnixTimestamp) (P F S : Nat) : UnixTimestamp :=
  let E := (m - t0).toNat * NANOS_PER_SEC
  if P + S < E then t0 + (P / NANOS_PER_SEC : Nat) + (S / NANOS_PER_SEC : Nat)
  else if E + F < P then t0 + (P / NANOS_PER_SEC : Nat) - (F / NANOS_PER_SEC : Nat)
  else m

/-! ### One vote's estimate -/

/-- A product that stays under `Duration::MAX` is not cut off. -/
theorem toNanos_saturatingMul_of_le {d : Duration} {n : Nat}
    (h : d.toNanos * n ≤ Duration.MAX.toNanos) : (d.saturatingMul n).toNanos = d.toNanos * n := by
  rw [Duration.toNanos_saturatingMul, min_eq_left h]

/-- Whole seconds below `2 ^ 63` cast to `i64` exactly. -/
theorem ofU64_asSecs {d : Duration} (h : d.toNanos / NANOS_PER_SEC < 2 ^ 63) :
    I64.ofU64 d.asSecs = (d.toNanos / NANOS_PER_SEC : Nat) := by
  rw [Duration.asSecs_eq]
  exact I64.ofU64_of_lt h

/-- A length of fewer than `2 ^ 63` seconds is under `Duration::MAX`. -/
theorem le_MAX_of_div_lt {t : Nat} (h : t / NANOS_PER_SEC < 2 ^ 63) : t ≤ Duration.MAX.toNanos := by
  simp only [Duration.MAX, Duration.toNanos, NANOS_PER_SEC] at h ⊢
  omega

/-- Without overflow, the first loop's estimate is the exact one. -/
theorem voteEstimate_eq {slot timestampSlot : Nat} {slotDuration : Duration}
    {timestamp : UnixTimestamp} (hslots : slot - timestampSlot < 2 ^ 32)
    (hoffset : offsetSecs (slot - timestampSlot) slotDuration < 2 ^ 63)
    (hlo : I64.MIN ≤ timestamp)
    (hhi : timestamp + offsetSecs (slot - timestampSlot) slotDuration ≤ I64.MAX) :
    voteEstimate slot slotDuration timestampSlot timestamp =
      timestamp + offsetSecs (slot - timestampSlot) slotDuration := by
  have hlen : slotDuration.toNanos * (slot - timestampSlot) =
      (slot - timestampSlot) * slotDuration.toNanos := Nat.mul_comm _ _
  have hoffsetTime : (slotDuration.saturatingMul ((slot - timestampSlot) % 2 ^ 32)).toNanos =
      (slot - timestampSlot) * slotDuration.toNanos := by
    rw [Nat.mod_eq_of_lt hslots, toNanos_saturatingMul_of_le (by
      rw [hlen]
      exact le_MAX_of_div_lt hoffset), hlen]
  unfold voteEstimate
  dsimp only
  rw [ofU64_asSecs (by rw [hoffsetTime]; exact hoffset), hoffsetTime]
  apply I64.saturatingAdd_of_le _ hhi
  have : (0 : Int) ≤ (offsetSecs (slot - timestampSlot) slotDuration : Int) := Int.natCast_nonneg _
  exact le_trans hlo (le_add_of_nonneg_right this)

/-! ### The first loop -/

/-- The stake in the map at or below `x`. -/
def belowSum (x : UnixTimestamp) (m : List (UnixTimestamp × Nat)) : Nat :=
  (m.map fun p => if p.1 ≤ x then p.2 else 0).sum

theorem belowSum_cons (x : UnixTimestamp) (p : UnixTimestamp × Nat) (rest : List (UnixTimestamp × Nat)) :
    belowSum x (p :: rest) = (if p.1 ≤ x then p.2 else 0) + belowSum x rest := by
  simp [belowSum]

theorem belowSum_eq_zero {x : UnixTimestamp} {m : List (UnixTimestamp × Nat)}
    (h : ∀ p ∈ m, x < p.1) : belowSum x m = 0 := by
  unfold belowSum
  rw [List.sum_eq_zero]
  intro a ha
  obtain ⟨p, hp, rfl⟩ := List.mem_map.mp ha
  rw [if_neg (not_le.mpr (h p hp))]

theorem belowSum_eq_sum {x : UnixTimestamp} {m : List (UnixTimestamp × Nat)}
    (h : ∀ p ∈ m, p.1 ≤ x) : belowSum x m = (m.map (·.2)).sum := by
  unfold belowSum
  congr 1
  exact List.map_congr_left fun p hp => if_pos (h p hp)

theorem value_le_sum {m : List (UnixTimestamp × Nat)} {p : UnixTimestamp × Nat} (hp : p ∈ m) :
    p.2 ≤ (m.map (·.2)).sum :=
  List.le_sum_of_mem (List.mem_map_of_mem hp)

/-- Adding a vote's stake at its estimate adds it to the stake at or below every time from the
estimate on, and to the total; the estimate gets an entry and no other key appears. -/
theorem addStake_spec {m : List (UnixTimestamp × Nat)} (hm : SortedMap.Sorted m)
    (estimate : UnixTimestamp) (stake : Nat) (hbound : (m.map (·.2)).sum + stake ≤ U128_MAX) :
    SortedMap.Sorted (addStake estimate stake m) ∧
      (∀ x, belowSum x (addStake estimate stake m) =
        belowSum x m + if estimate ≤ x then stake else 0) ∧
      ((addStake estimate stake m).map (·.2)).sum = (m.map (·.2)).sum + stake ∧
      (∀ p ∈ addStake estimate stake m, p.1 = estimate ∨ p ∈ m) ∧
      ∀ x, (∃ p ∈ m, p.1 = x) ∨ x = estimate → ∃ p ∈ addStake estimate stake m, p.1 = x := by
  unfold addStake
  cases hget : SortedMap.get? estimate m with
  | some stakeSum =>
    dsimp only
    have hmem := (SortedMap.get?_eq_some_iff hm).mp hget
    -- the sum at the estimate is part of the total, so it does not saturate
    have hsat : saturatingAdd U128_MAX stakeSum stake = stakeSum + stake :=
      saturatingAdd_of_le (le_trans (Nat.add_le_add_right (value_le_sum hmem) _) hbound)
    rw [hsat]
    refine ⟨SortedMap.sorted_insert hm, fun x => ?_, ?_, fun p hp => ?_,
      fun x hx => SortedMap.exists_key_insert hm _ hx⟩
    · have := SortedMap.sum_map_insert_of_mem hm hmem (stakeSum + stake)
        fun p => if p.1 ≤ x then p.2 else 0
      unfold belowSum
      split_ifs at this ⊢ <;> omega
    · have := SortedMap.sum_map_insert_of_mem hm hmem (stakeSum + stake) (·.2)
      dsimp only at this
      omega
    · rcases SortedMap.mem_insert_of_mem hp with rfl | hp
      · exact .inl rfl
      · exact .inr hp
  | none =>
    have habsent := SortedMap.get?_eq_none_iff.mp hget
    refine ⟨SortedMap.sorted_insert hm, fun x => ?_, ?_, fun p hp => ?_,
      fun x hx => SortedMap.exists_key_insert hm _ hx⟩
    · have := SortedMap.sum_map_insert_of_not_mem hm habsent stake
        fun p => if p.1 ≤ x then p.2 else 0
      unfold belowSum
      rw [this]
    · exact SortedMap.sum_map_insert_of_not_mem hm habsent stake (·.2)
    · rcases SortedMap.mem_insert_of_mem hp with rfl | hp
      · exact .inl rfl
      · exact .inr hp

section Tally

variable {stakes : Pubkey → Option Nat} {slot : Nat} {slotDuration : Duration}

/-- What the first loop has built after some votes: the map, in key order, holds at or below any
time the stake of the votes whose estimate is at or below it, and its keys are their estimates;
its values and `total_stake` add up to their stake. -/
structure Tallied (stakes : Pubkey → Option Nat) (slot : Nat) (slotDuration : Duration)
    (votes : List (Pubkey × Nat × UnixTimestamp))
    (acc : List (UnixTimestamp × Nat) × Nat) : Prop where
  sorted : SortedMap.Sorted acc.1
  belowSum_eq : ∀ x, belowSum x acc.1 =
    stakeAtOrBelow (fun v => voteEstimate slot slotDuration v.2.1 v.2.2)
      (fun v => (stakes v.1).getD 0) x votes
  sum_eq : (acc.1.map (·.2)).sum = (votes.map fun v => (stakes v.1).getD 0).sum
  total_eq : acc.2 = (votes.map fun v => (stakes v.1).getD 0).sum
  key_mem : ∀ p ∈ acc.1, ∃ v ∈ votes, voteEstimate slot slotDuration v.2.1 v.2.2 = p.1
  mem_key : ∀ v ∈ votes, ∃ p ∈ acc.1, p.1 = voteEstimate slot slotDuration v.2.1 v.2.2

theorem tallied_nil : Tallied stakes slot slotDuration [] ([], 0) :=
  ⟨List.Pairwise.nil, fun _ => rfl, rfl, rfl, nofun, nofun⟩

/-- The step: one more vote, while the stake stays within `u128`. -/
theorem Tallied.addVoteTimestamp {votes : List (Pubkey × Nat × UnixTimestamp)}
    {acc : List (UnixTimestamp × Nat) × Nat} (h : Tallied stakes slot slotDuration votes acc)
    (vote : Pubkey × Nat × UnixTimestamp)
    (hbound : ((votes ++ [vote]).map fun v => (stakes v.1).getD 0).sum ≤ U128_MAX) :
    Tallied stakes slot slotDuration (votes ++ [vote])
      (Agave.Runtime.addVoteTimestamp stakes slot slotDuration acc vote) := by
  rw [List.map_append, List.sum_append, List.map_singleton, List.sum_singleton] at hbound
  obtain ⟨hsorted, hbelow, hsum, hkeys, hcover⟩ :=
    addStake_spec h.sorted (voteEstimate slot slotDuration vote.2.1 vote.2.2)
      ((stakes vote.1).getD 0) (h.sum_eq ▸ hbound)
  simp only [Agave.Runtime.addVoteTimestamp]
  refine ⟨hsorted, fun x => ?_, ?_, ?_, fun p hp => ?_, fun v hv => ?_⟩
  · rw [hbelow x, h.belowSum_eq x]
    simp only [stakeAtOrBelow, List.filter_append, List.map_append, List.sum_append]
    split_ifs with hle <;> simp [hle]
  · rw [hsum, h.sum_eq]
    simp
  · show saturatingAdd U128_MAX acc.2 _ = _
    rw [h.total_eq, saturatingAdd_of_le hbound]
    simp
  · rcases hkeys p hp with hp | hp
    · exact ⟨vote, List.mem_append_right _ (List.mem_singleton_self vote), hp.symm⟩
    · obtain ⟨v, hv, hvp⟩ := h.key_mem p hp
      exact ⟨v, List.mem_append_left _ hv, hvp⟩
  · rcases List.mem_append.mp hv with hv | hv
    · exact hcover _ (.inl (h.mem_key v hv))
    · exact hcover _ (.inr (by rw [List.mem_singleton.mp hv]))

/-- The run: the whole first loop, while the stake of all the votes stays within `u128`. -/
theorem Tallied.foldl {pre : List (Pubkey × Nat × UnixTimestamp)}
    {acc : List (UnixTimestamp × Nat) × Nat} (h : Tallied stakes slot slotDuration pre acc)
    (votes : List (Pubkey × Nat × UnixTimestamp))
    (hbound : ((pre ++ votes).map fun v => (stakes v.1).getD 0).sum ≤ U128_MAX) :
    Tallied stakes slot slotDuration (pre ++ votes)
      (votes.foldl (Agave.Runtime.addVoteTimestamp stakes slot slotDuration) acc) := by
  -- induction on the votes still to come, from any tally of those before
  induction votes generalizing pre acc with
  | nil => simpa using h
  | cons vote votes ih =>
    have hstep := h.addVoteTimestamp vote (by
      refine le_trans ?_ hbound
      simp only [List.map_append, List.sum_append, List.map_cons, List.sum_cons, List.map_nil,
        List.sum_nil]
      omega)
    have hrest := ih hstep (by simpa using hbound)
    simpa using hrest

end Tally

/-! ### The second loop -/

/-- The second loop stops at the first entry, in key order, where the stake so far passes half
the total, while the sums stay within `u128`. -/
theorem findMedian_spec {L : List (UnixTimestamp × Nat)} (hL : SortedMap.Sorted L)
    (totalStake acc : Nat) (hsum : acc + (L.map (·.2)).sum ≤ U128_MAX)
    (hpass : ∃ p ∈ L, totalStake / 2 < acc + belowSum p.1 L) :
    ∃ p ∈ L, p.1 = findMedian totalStake acc L ∧ totalStake / 2 < acc + belowSum p.1 L ∧
      ∀ q ∈ L, totalStake / 2 < acc + belowSum q.1 L → p.1 ≤ q.1 := by
  induction L generalizing acc with
  | nil =>
    obtain ⟨p, hp, -⟩ := hpass
    cases hp
  | cons first rest ih =>
    obtain ⟨timestamp, stake⟩ := first
    unfold SortedMap.Sorted at hL
    rw [List.pairwise_cons] at hL
    simp only [List.map_cons, List.sum_cons] at hsum
    -- the first key is below the rest, so the stake at or below it is its own
    have hfirst : belowSum timestamp ((timestamp, stake) :: rest) = stake := by
      rw [belowSum_cons, if_pos le_rfl, belowSum_eq_zero hL.1, Nat.add_zero]
    have hafter : ∀ q ∈ rest, belowSum q.1 ((timestamp, stake) :: rest) = stake + belowSum q.1 rest :=
      fun q hq => by rw [belowSum_cons, if_pos (le_of_lt (hL.1 q hq))]
    have hsat : saturatingAdd U128_MAX acc stake = acc + stake :=
      saturatingAdd_of_le (by omega)
    unfold findMedian
    dsimp only
    rw [hsat]
    split_ifs with hhalf
    · refine ⟨(timestamp, stake), List.mem_cons_self, rfl, by rw [hfirst]; exact hhalf,
        fun q hq _ => ?_⟩
      rcases List.mem_cons.mp hq with rfl | hq
      · exact le_rfl
      · exact le_of_lt (hL.1 q hq)
    · -- the first entry does not pass half, so the stop is among the rest
      have hpass' : ∃ p ∈ rest, totalStake / 2 < acc + stake + belowSum p.1 rest := by
        obtain ⟨p, hp, hp2⟩ := hpass
        rcases List.mem_cons.mp hp with rfl | hp
        · rw [hfirst] at hp2
          exact absurd hp2 hhalf
        · exact ⟨p, hp, by rw [hafter p hp] at hp2; omega⟩
      obtain ⟨p, hp, heq, hp2, hmin⟩ := ih hL.2 (acc + stake) (by omega) hpass'
      refine ⟨p, List.mem_cons_of_mem _ hp, heq, by rw [hafter p hp]; omega, fun q hq hq2 => ?_⟩
      rcases List.mem_cons.mp hq with rfl | hq
      · rw [hfirst] at hq2
        exact absurd hq2 hhalf
      · exact hmin q hq (by rw [hafter q hq] at hq2; omega)

/-! ### The bound -/

/-- With the fix, the offset of an estimate from an epoch start, both at or after `0`, is their
difference. -/
theorem estimateOffsetSecs_true {m t0 : UnixTimestamp} (hm0 : 0 ≤ m) (hm : m ≤ I64.MAX)
    (ht0 : 0 ≤ t0) (ht0' : t0 ≤ I64.MAX) : estimateOffsetSecs true m t0 = (m - t0).toNat := by
  have hm' := I64.toU64_of_nonneg hm0 hm
  have ht := I64.toU64_of_nonneg ht0 ht0'
  simp only [estimateOffsetSecs, if_true]
  omega

/-- A drift of at most `Duration::MAX` is less than `2 ^ 63` seconds after dividing by `100`. -/
theorem div_hundred_secs_lt {t : Nat} (h : t ≤ Duration.MAX.toNanos) :
    t / 100 / NANOS_PER_SEC < 2 ^ 63 := by
  simp only [Duration.MAX, Duration.toNanos, NANOS_PER_SEC] at h ⊢
  omega

/-- The bound with the fix, on an estimate and an epoch start at or after `0`, when the PoH
offset and its drifts fit a `Duration`, the slots since the epoch's start fit a `u32`, and the
late edge fits an `i64`. -/
theorem boundEstimate_eq {slot epochStartSlot : Nat} {slotDuration : Duration}
    {t0 m : UnixTimestamp} (drift : MaxAllowableDrift) (ht0 : 0 ≤ t0) (hm0 : 0 ≤ m)
    (hm : m ≤ I64.MAX) (hslots : slot - epochStartSlot < 2 ^ 32)
    (hpoh : (slot - epochStartSlot) * slotDuration.toNanos * max 1 (max drift.fast drift.slow) ≤
      Duration.MAX.toNanos)
    (hedge : t0 + ((slot - epochStartSlot) * slotDuration.toNanos / NANOS_PER_SEC : Nat) +
      ((slot - epochStartSlot) * slotDuration.toNanos * drift.slow / 100 / NANOS_PER_SEC : Nat) ≤
        I64.MAX) :
    boundEstimate slot slotDuration epochStartSlot t0 drift true m =
      driftBound t0 m ((slot - epochStartSlot) * slotDuration.toNanos)
        ((slot - epochStartSlot) * slotDuration.toNanos * drift.fast / 100)
        ((slot - epochStartSlot) * slotDuration.toNanos * drift.slow / 100) := by
  unfold boundEstimate driftBound
  dsimp only
  set P := (slot - epochStartSlot) * slotDuration.toNanos with hP
  set poh := slotDuration.saturatingMul ((slot - epochStartSlot) % 2 ^ 32) with hpoh_def
  -- the PoH offset and its drifts are not cut off
  have hPk : ∀ k, k ≤ max 1 (max drift.fast drift.slow) → P * k ≤ Duration.MAX.toNanos :=
    fun k hk => le_trans (Nat.mul_le_mul_left P hk) hpoh
  have hpohTime : poh.toNanos = P := by
    rw [hpoh_def, Nat.mod_eq_of_lt hslots, toNanos_saturatingMul_of_le, Nat.mul_comm]
    rw [Nat.mul_comm]
    simpa using hPk 1 (le_max_left _ _)
  have hdrift : ∀ k, k ≤ max 1 (max drift.fast drift.slow) →
      ((poh.saturatingMul k).div 100 (by decide)).toNanos = P * k / 100 := by
    intro k hk
    rw [Duration.toNanos_div, toNanos_saturatingMul_of_le (by rw [hpohTime]; exact hPk k hk),
      hpohTime]
  have hfast := hdrift drift.fast (le_trans (le_max_left _ _) (le_max_right _ _))
  have hslow := hdrift drift.slow (le_trans (le_max_right _ _) (le_max_right _ _))
  -- every edge in whole seconds fits an `i64`
  have hnonneg : (0 : Int) ≤ (P / NANOS_PER_SEC : Nat) := Int.natCast_nonneg _
  have hnonneg' : (0 : Int) ≤ (P * drift.slow / 100 / NANOS_PER_SEC : Nat) := Int.natCast_nonneg _
  have ht0' : t0 ≤ I64.MAX := by linarith
  have hPs : P / NANOS_PER_SEC < 2 ^ 63 := by
    have : ((P / NANOS_PER_SEC : Nat) : Int) ≤ I64.MAX := by linarith
    unfold I64.MAX at this
    omega
  have hFs := div_hundred_secs_lt (hPk drift.fast (le_trans (le_max_left _ _) (le_max_right _ _)))
  have hSs := div_hundred_secs_lt (hPk drift.slow (le_trans (le_max_right _ _) (le_max_right _ _)))
  have hoffset : (Duration.fromSecs (estimateOffsetSecs true m t0)
      (estimateOffsetSecs_le _ _ _)).toNanos = (m - t0).toNat * NANOS_PER_SEC := by
    rw [Duration.toNanos_fromSecs, estimateOffsetSecs_true hm0 hm ht0 ht0']
  -- both edges compare lengths: past the PoH offset by more than the slow drift, or short of it
  -- by more than the fast one
  simp only [Duration.lt_and_lt_saturatingSub_iff, hpohTime, hfast, hslow, hoffset]
  rw [ofU64_asSecs (show poh.toNanos / NANOS_PER_SEC < 2 ^ 63 by rw [hpohTime]; exact hPs),
    ofU64_asSecs (show ((poh.saturatingMul drift.fast).div 100 (by decide)).toNanos /
      NANOS_PER_SEC < 2 ^ 63 by rw [hfast]; exact hFs),
    ofU64_asSecs (show ((poh.saturatingMul drift.slow).div 100 (by decide)).toNanos /
      NANOS_PER_SEC < 2 ^ 63 by rw [hslow]; exact hSs), hpohTime, hfast, hslow]
  have hsum : t0 + (P / NANOS_PER_SEC : Nat) ≤ I64.MAX := by linarith
  have hmin : I64.MIN ≤ t0 + (P / NANOS_PER_SEC : Nat) := by
    unfold I64.MIN
    linarith
  rw [I64.saturatingAdd_of_le hmin hsum]
  split_ifs with hlate hearly
  · exact I64.saturatingAdd_of_le (by linarith) hedge
  · apply I64.saturatingSub_of_le _ (by linarith)
    have : ((P * drift.fast / 100 / NANOS_PER_SEC : Nat) : Int) < 2 ^ 63 := by exact_mod_cast hFs
    unfold I64.MIN
    linarith
  · rfl

/-! ## The whole function -/

/-- `m` is a weighted median of the votes' estimates `e`: an estimate at or below which more than
half the stake lies, and the least such estimate. -/
def IsWeightedMedian (e : Pubkey × Nat × UnixTimestamp → UnixTimestamp)
    (stake : Pubkey × Nat × UnixTimestamp → Nat) (votes : List (Pubkey × Nat × UnixTimestamp))
    (m : UnixTimestamp) : Prop :=
  (∃ v ∈ votes, e v = m) ∧ (votes.map stake).sum / 2 < stakeAtOrBelow e stake m votes ∧
    ∀ v ∈ votes, (votes.map stake).sum / 2 < stakeAtOrBelow e stake (e v) votes → m ≤ e v

/-- With the fix and nothing saturating or wrapping, the stake-weighted timestamp is `None`
exactly when the votes carry no stake, and otherwise the weighted median of the exact estimates,
kept within the drift allowed from the epoch's start. -/
theorem stake_weighted_timestamp_clamped_median (votes : List (Pubkey × Nat × UnixTimestamp))
    (stakes : Pubkey → Option Nat) (slot : Nat) (slotDuration : Duration)
    (epochStartTimestamp : Option (Nat × UnixTimestamp)) (drift : MaxAllowableDrift)
    (hslots : ∀ v ∈ votes, v.2.1 ≤ slot ∧ slot - v.2.1 < 2 ^ 32)
    (hestimates : ∀ v ∈ votes, I64.MIN ≤ v.2.2 ∧ offsetSecs (slot - v.2.1) slotDuration < 2 ^ 63 ∧
      exactEstimate slot slotDuration v ≤ I64.MAX)
    (hstake : (votes.map fun v => (stakes v.1).getD 0).sum ≤ U128_MAX) :
    (calculateStakeWeightedTimestamp votes stakes slot slotDuration epochStartTimestamp drift
        true = none ↔ (votes.map fun v => (stakes v.1).getD 0).sum = 0) ∧
    ((votes.map fun v => (stakes v.1).getD 0).sum ≠ 0 →
      ∃ m, IsWeightedMedian (exactEstimate slot slotDuration) (fun v => (stakes v.1).getD 0)
          votes m ∧
        (epochStartTimestamp = none →
          calculateStakeWeightedTimestamp votes stakes slot slotDuration epochStartTimestamp drift
            true = some m) ∧
        ∀ s0 t0, epochStartTimestamp = some (s0, t0) → 0 ≤ t0 →
          (∀ v ∈ votes, 0 ≤ exactEstimate slot slotDuration v) → slot - s0 < 2 ^ 32 →
          (slot - s0) * slotDuration.toNanos * max 1 (max drift.fast drift.slow) ≤
            Duration.MAX.toNanos →
          t0 + ((slot - s0) * slotDuration.toNanos / NANOS_PER_SEC : Nat) +
            ((slot - s0) * slotDuration.toNanos * drift.slow / 100 / NANOS_PER_SEC : Nat) ≤
              I64.MAX →
          calculateStakeWeightedTimestamp votes stakes slot slotDuration epochStartTimestamp drift
            true = some (driftBound t0 m ((slot - s0) * slotDuration.toNanos)
              ((slot - s0) * slotDuration.toNanos * drift.fast / 100)
              ((slot - s0) * slotDuration.toNanos * drift.slow / 100))) := by
  have htally := (@tallied_nil stakes slot slotDuration).foldl votes (by simpa using hstake)
  rw [List.nil_append] at htally
  -- the first loop's estimates are the exact ones, so are its sums
  have hest : ∀ v ∈ votes, voteEstimate slot slotDuration v.2.1 v.2.2 =
      exactEstimate slot slotDuration v := fun v hv =>
    voteEstimate_eq (hslots v hv).2 (hestimates v hv).2.1 (hestimates v hv).1
      (hestimates v hv).2.2
  have hbelow : ∀ x, stakeAtOrBelow (fun v => voteEstimate slot slotDuration v.2.1 v.2.2)
      (fun v => (stakes v.1).getD 0) x votes =
        stakeAtOrBelow (exactEstimate slot slotDuration) (fun v => (stakes v.1).getD 0) x votes := by
    intro x
    have hfilter : votes.filter (fun v => decide (voteEstimate slot slotDuration v.2.1 v.2.2 ≤ x)) =
        votes.filter (fun v => decide (exactEstimate slot slotDuration v ≤ x)) :=
      List.filter_congr fun v hv => by rw [hest v hv]
    simp only [stakeAtOrBelow]
    rw [hfilter]
  unfold calculateStakeWeightedTimestamp
  dsimp only
  rw [htally.total_eq]
  refine ⟨?_, fun htotal => ?_⟩
  · split_ifs with htotal
    · simp [htotal]
    · cases epochStartTimestamp <;> simp [htotal]
  set L := (votes.foldl (addVoteTimestamp stakes slot slotDuration) ([], 0)).1 with hL
  set total := (votes.map fun v => (stakes v.1).getD 0).sum with htotal_def
  -- the greatest estimate has all the stake at or below it, more than half of it
  have hne : L ≠ [] := by
    intro hnil
    have hsum := htally.sum_eq
    rw [← hL, hnil] at hsum
    exact htotal hsum.symm
  obtain ⟨top, htop, htopmax⟩ := SortedMap.exists_max_key hne
  have hpass : ∃ p ∈ L, total / 2 < 0 + belowSum p.1 L := by
    refine ⟨top, htop, ?_⟩
    rw [belowSum_eq_sum htopmax, htally.sum_eq]
    omega
  obtain ⟨p, hp, hpm, hphalf, hpmin⟩ := findMedian_spec htally.sorted total 0
    (by rw [Nat.zero_add, htally.sum_eq]; exact hstake) hpass
  have hmedian : IsWeightedMedian (exactEstimate slot slotDuration) (fun v => (stakes v.1).getD 0)
      votes p.1 := by
    refine ⟨?_, ?_, fun v hv hvhalf => ?_⟩
    · obtain ⟨v, hv, hvp⟩ := htally.key_mem p hp
      exact ⟨v, hv, (hest v hv).symm.trans hvp⟩
    · rw [← hbelow, ← htally.belowSum_eq]
      omega
    · obtain ⟨q, hq, hqv⟩ := htally.mem_key v hv
      rw [hest v hv] at hqv
      rw [← hqv, ← hbelow, ← htally.belowSum_eq] at hvhalf
      rw [← hqv]
      exact hpmin q hq (by omega)
  refine ⟨p.1, hmedian, fun hnone => ?_, fun s0 t0 hsome ht0 hnonneg hs0 hpoh hedge => ?_⟩
  · rw [if_neg htotal, hnone]
    dsimp only
    rw [← hpm]
  · rw [if_neg htotal, hsome]
    dsimp only
    rw [← hpm]
    obtain ⟨v, hv, hvm⟩ := hmedian.1
    congr 1
    exact boundEstimate_eq drift ht0 (hvm ▸ hnonneg v hv) (hvm ▸ (hestimates v hv).2.2) hs0 hpoh
      hedge

/-- Two votes, at slots 10 and 8 with timestamps 1000 and 990 and stakes 3 and 1, at slot 10 with
slots of 400 ms. -/
def twoVoteClock : List (Pubkey × Nat × UnixTimestamp) × (Pubkey → Option Nat) × Duration :=
  ([(⟨1⟩, 10, 1000), (⟨2⟩, 8, 990)],
    fun pk => if pk = ⟨1⟩ then some 3 else if pk = ⟨2⟩ then some 1 else none,
    ⟨0, 400000000, Duration.ZERO.secs_le, by decide⟩)

theorem stake_weighted_timestamp_two_votes :
    (calculateStakeWeightedTimestamp twoVoteClock.1 twoVoteClock.2.1 10 twoVoteClock.2.2
        (some (0, 996)) ⟨25, 150⟩ true = none ↔
      (twoVoteClock.1.map fun v => (twoVoteClock.2.1 v.1).getD 0).sum = 0) ∧
    ((twoVoteClock.1.map fun v => (twoVoteClock.2.1 v.1).getD 0).sum ≠ 0 →
      ∃ m, IsWeightedMedian (exactEstimate 10 twoVoteClock.2.2)
          (fun v => (twoVoteClock.2.1 v.1).getD 0) twoVoteClock.1 m ∧
        ((some (0, 996) : Option (Nat × UnixTimestamp)) = none →
          calculateStakeWeightedTimestamp twoVoteClock.1 twoVoteClock.2.1 10 twoVoteClock.2.2
            (some (0, 996)) ⟨25, 150⟩ true = some m) ∧
        ∀ s0 t0, (some (0, 996) : Option (Nat × UnixTimestamp)) = some (s0, t0) → 0 ≤ t0 →
          (∀ v ∈ twoVoteClock.1, 0 ≤ exactEstimate 10 twoVoteClock.2.2 v) → 10 - s0 < 2 ^ 32 →
          (10 - s0) * twoVoteClock.2.2.toNanos * max 1 (max 25 150) ≤ Duration.MAX.toNanos →
          t0 + ((10 - s0) * twoVoteClock.2.2.toNanos / NANOS_PER_SEC : Nat) +
            ((10 - s0) * twoVoteClock.2.2.toNanos * 150 / 100 / NANOS_PER_SEC : Nat) ≤ I64.MAX →
          calculateStakeWeightedTimestamp twoVoteClock.1 twoVoteClock.2.1 10 twoVoteClock.2.2
              (some (0, 996)) ⟨25, 150⟩ true =
            some (driftBound t0 m ((10 - s0) * twoVoteClock.2.2.toNanos)
              ((10 - s0) * twoVoteClock.2.2.toNanos * 25 / 100)
              ((10 - s0) * twoVoteClock.2.2.toNanos * 150 / 100))) :=
  stake_weighted_timestamp_clamped_median twoVoteClock.1 twoVoteClock.2.1 10 twoVoteClock.2.2
    (some (0, 996)) ⟨25, 150⟩ (by decide) (by decide) (by decide)

/-- The slots since the epoch's start wrap at `2 ^ 32`. One vote with stake at slot `2 ^ 32`,
timestamp 1000, slots of one second, an epoch that started at slot 0 and time 0: the PoH offset
is cast down to no slots at all, so the estimate is taken to run late and moved to 0, where the
exact PoH offset of `2 ^ 32` seconds would have moved it to `2 ^ 32 - 2 ^ 30`. -/
theorem calculateStakeWeightedTimestamp_epoch_slots_wrap :
    calculateStakeWeightedTimestamp [(⟨1⟩, 2 ^ 32, 1000)] (fun _ => some 1) (2 ^ 32)
        ⟨1, 0, by decide, by decide⟩ (some (0, 0))
        ⟨MAX_ALLOWABLE_DRIFT_PERCENTAGE_FAST, MAX_ALLOWABLE_DRIFT_PERCENTAGE_SLOW_V2⟩ true =
      some 0 ∧
    driftBound 0 1000 (2 ^ 32 * NANOS_PER_SEC) (2 ^ 32 * NANOS_PER_SEC * 25 / 100)
      (2 ^ 32 * NANOS_PER_SEC * 150 / 100) = 3221225472 := by
  decide

end Agave.Runtime
