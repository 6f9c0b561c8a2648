import Agave.Vote.State

/-!
# The vote instruction: `process_vote` and its unchecked forms

`programs/vote/src/vote_state/mod.rs`. A `Vote` names slots, oldest first, and the hash of the
newest of them. `check_slots_are_valid` walks the vote's slots and the `SlotHashes` history
(newest first) together from their oldest ends: slots no later than the last vote are skipped,
every other slot must be found in the history, and the newest must carry the vote's hash. Each
slot then goes through `process_next_vote_slot`.

A validator records a vote in its own tower through `process_vote_unchecked`, which builds the
history from the vote itself; for a vote on one slot the check then only asks that the slot be
newer than the last vote (`processVoteUnchecked_singleton`).
-/

namespace Agave.Vote

/-- `VoteError`, the variants that the modelled vote functions return. -/
inductive VoteError where
  | voteTooOld
  | slotsMismatch
  | slotHashMismatch
  | emptySlots
  | tooSoonToReauthorize
  | lockoutConflict
  | newVoteStateLockoutMismatch
  | slotsNotOrdered
  | confirmationsNotOrdered
  | zeroConfirmations
  | confirmationTooLarge
  | rootRollBack
  | confirmationRollBack
  | slotSmallerThanRoot
  | tooManyVotes
  | votesTooOldAllFiltered
  | rootOnDifferentFork
  | assertionFailed
  deriving DecidableEq, Repr

set_option linter.dupNamespace false in
/-- `Vote`, without the timestamp, which these functions do not read. -/
structure Vote where
  slots : List Slot
  hash : Hash
  deriving DecidableEq, Repr

/-- The loop of `check_slots_are_valid`. `i` walks the vote's slots from the oldest; `j` counts
the entries of `slot_hashes` (newest first) not yet passed, so `slot_hashes[j - 1]` is the
oldest of those. `j` starts at the length and only decreases, so the index is in range. -/
def checkSlotsAreValidLoop (lastVotedSlot : Option Slot) (voteSlots : List Slot)
    (slotHashes : List (Slot × Hash)) (i j : Nat) : Nat × Nat :=
  if h : i < voteSlots.length ∧ j > 0 then
    -- 1) skip the slots at or before the last vote
    if lastVotedSlot.any (voteSlots[i] ≤ ·) then
      checkSlotsAreValidLoop lastVotedSlot voteSlots slotHashes (i + 1) j
    -- 2) look for the hash of this slot among newer entries
    else if some voteSlots[i] ≠ slotHashes[j - 1]?.map (·.1) then
      checkSlotsAreValidLoop lastVotedSlot voteSlots slotHashes i (j - 1)
    -- 3) found it: move on in both
    else checkSlotsAreValidLoop lastVotedSlot voteSlots slotHashes (i + 1) (j - 1)
  else (i, j)
termination_by voteSlots.length - i + j

/-- `check_slots_are_valid`. -/
def checkSlotsAreValid (vs : VoteState) (voteSlots : List Slot) (voteHash : Hash)
    (slotHashes : List (Slot × Hash)) : Except VoteError Unit :=
  let (i, j) := checkSlotsAreValidLoop vs.lastVotedSlot voteSlots slotHashes 0 slotHashes.length
  -- never reached steps 2) or 3): no slot is newer than the last vote
  if j = slotHashes.length then .error .voteTooOld
  -- some slot has no entry in the history
  else if i ≠ voteSlots.length then .error .slotsMismatch
  -- the newest slot's entry has another hash
  else if slotHashes[j]?.map (·.2) ≠ some voteHash then .error .slotHashMismatch
  else .ok ()

/-- `process_vote_unfiltered`. -/
def processVoteUnfiltered (vs : VoteState) (voteSlots : List Slot) (vote : Vote)
    (slotHashes : List (Slot × Hash)) (epoch : Epoch) (currentSlot : Slot)
    (timelyVoteCredits : Bool) : Except VoteError VoteState := do
  checkSlotsAreValid vs voteSlots vote.hash slotHashes
  return voteSlots.foldl (fun vs s => vs.processNextVoteSlot s epoch currentSlot timelyVoteCredits) vs

/-- `process_vote`: drop the slots older than the history, then `process_vote_unfiltered`. -/
def processVote (vs : VoteState) (vote : Vote) (slotHashes : List (Slot × Hash)) (epoch : Epoch)
    (currentSlot : Slot) (timelyVoteCredits : Bool) : Except VoteError VoteState :=
  if vote.slots.isEmpty then .error .emptySlots
  else
    let earliestSlotInHistory := (slotHashes.getLast?.map (·.1)).getD 0
    let voteSlots := vote.slots.filter (· ≥ earliestSlotInHistory)
    if voteSlots.isEmpty then .error .votesTooOldAllFiltered
    else processVoteUnfiltered vs voteSlots vote slotHashes epoch currentSlot timelyVoteCredits

/-- `process_vote_unchecked`: the history is the vote's own slots, newest first, all with the
vote's hash. -/
def processVoteUnchecked (vs : VoteState) (vote : Vote) : Except VoteError VoteState :=
  if vote.slots.isEmpty then .error .emptySlots
  else
    let slotHashes := vote.slots.reverse.map (·, vote.hash)
    processVoteUnfiltered vs vote.slots vote slotHashes vs.currentEpoch 0 true

/-- `process_slot_vote_unchecked`: a vote for one slot with the default hash, its error ignored
(a failed vote leaves the state as it was). -/
def processSlotVoteUnchecked (vs : VoteState) (slot : Slot) : VoteState :=
  match processVoteUnchecked vs ⟨[slot], default⟩ with
  | .ok vs' => vs'
  | .error _ => vs

/-- A vote on one slot checked against the history it makes itself: it passes exactly when the
slot is newer than the last vote. -/
theorem checkSlotsAreValid_singleton (vs : VoteState) (slot : Slot) (hash : Hash) :
    checkSlotsAreValid vs [slot] hash [(slot, hash)] =
      if vs.lastVotedSlot.any (slot ≤ ·) then .error .voteTooOld else .ok () := by
  unfold checkSlotsAreValid
  by_cases hold : vs.lastVotedSlot.any (slot ≤ ·)
  · -- step 1) skips the only slot and the loop ends with `j` untouched
    rw [checkSlotsAreValidLoop, dif_pos (by simp), if_pos (by simpa using hold),
      checkSlotsAreValidLoop, dif_neg (by simp)]
    simp [hold]
  · -- step 3) matches the only slot against the only entry
    rw [checkSlotsAreValidLoop, dif_pos (by simp), if_neg (by simpa using hold), if_neg (by simp),
      checkSlotsAreValidLoop, dif_neg (by simp)]
    simp [hold]

theorem processVoteUnchecked_singleton (vs : VoteState) (slot : Slot) (hash : Hash) :
    processVoteUnchecked vs ⟨[slot], hash⟩ =
      if vs.lastVotedSlot.any (slot ≤ ·) then .error .voteTooOld
      else .ok (vs.processNextVoteSlot slot vs.currentEpoch 0 true) := by
  have hcheck := checkSlotsAreValid_singleton vs slot hash
  unfold processVoteUnchecked processVoteUnfiltered
  simp only [List.isEmpty_cons, Bool.false_eq_true, if_false, List.reverse_singleton,
    List.map_singleton, hcheck, List.foldl_cons, List.foldl_nil]
  split <;> rfl

/-- The simulated vote in the tower's lockout check: a slot no later than the last vote is
ignored by both the check and `process_next_vote_slot`, so the result is always the latter. -/
theorem processSlotVoteUnchecked_eq (vs : VoteState) (slot : Slot) :
    processSlotVoteUnchecked vs slot = vs.processNextVoteSlot slot vs.currentEpoch 0 true := by
  unfold processSlotVoteUnchecked
  rw [processVoteUnchecked_singleton]
  by_cases hold : vs.lastVotedSlot.any (slot ≤ ·)
  · simp only [if_pos hold]
    unfold VoteState.processNextVoteSlot
    rw [if_pos hold]
  · simp only [if_neg hold]

/-! ## What `check_slots_are_valid` accepts

The loop walks the vote's slots up and the history up from its oldest entry. Over a vote whose
slots increase and a history whose slots decrease, the loop reaches the end of the vote exactly
when every slot newer than the last vote is in the history, and it then stops at the entry of the
vote's last slot. So the check passes exactly when some slot is newer than the last vote, all
those are in the history, and the newest of them carries the vote's hash
(`check_slots_are_valid_spec`). -/

section CheckSlotsAreValid

variable {lastVotedSlot : Option Slot} {voteSlots : List Slot} {slotHashes : List (Slot × Hash)}

/-- Step 1) skips a slot exactly when it is not newer than the last vote. -/
theorem any_le_iff_not_all_lt (o : Option Slot) (s : Slot) :
    o.any (s ≤ ·) = true ↔ ¬o.all (· < s) = true := by
  cases o <;> simp

theorem checkSlotsAreValidLoop_skip {i j : Nat} (h : i < voteSlots.length ∧ j > 0)
    (hskip : lastVotedSlot.any (voteSlots[i] ≤ ·) = true) :
    checkSlotsAreValidLoop lastVotedSlot voteSlots slotHashes i j =
      checkSlotsAreValidLoop lastVotedSlot voteSlots slotHashes (i + 1) j := by
  rw [checkSlotsAreValidLoop, dif_pos h, if_pos hskip]

theorem checkSlotsAreValidLoop_pass {i j : Nat} (h : i < voteSlots.length ∧ j > 0)
    (hnew : ¬lastVotedSlot.any (voteSlots[i] ≤ ·) = true)
    (hne : some voteSlots[i] ≠ slotHashes[j - 1]?.map (·.1)) :
    checkSlotsAreValidLoop lastVotedSlot voteSlots slotHashes i j =
      checkSlotsAreValidLoop lastVotedSlot voteSlots slotHashes i (j - 1) := by
  rw [checkSlotsAreValidLoop, dif_pos h, if_neg hnew, if_pos hne]

theorem checkSlotsAreValidLoop_found {i j : Nat} (h : i < voteSlots.length ∧ j > 0)
    (hnew : ¬lastVotedSlot.any (voteSlots[i] ≤ ·) = true)
    (hfound : ¬some voteSlots[i] ≠ slotHashes[j - 1]?.map (·.1)) :
    checkSlotsAreValidLoop lastVotedSlot voteSlots slotHashes i j =
      checkSlotsAreValidLoop lastVotedSlot voteSlots slotHashes (i + 1) (j - 1) := by
  rw [checkSlotsAreValidLoop, dif_pos h, if_neg hnew, if_neg hfound]

theorem checkSlotsAreValidLoop_stop {i j : Nat} (h : ¬(i < voteSlots.length ∧ j > 0)) :
    checkSlotsAreValidLoop lastVotedSlot voteSlots slotHashes i j = (i, j) := by
  rw [checkSlotsAreValidLoop, dif_neg h]

theorem checkSlotsAreValidLoop_snd_le (i j : Nat) :
    (checkSlotsAreValidLoop lastVotedSlot voteSlots slotHashes i j).2 ≤ j := by
  induction i, j using checkSlotsAreValidLoop.induct lastVotedSlot voteSlots slotHashes with
  | case1 i j h hskip ih =>
    rw [checkSlotsAreValidLoop_skip h hskip]
    exact ih
  | case2 i j h hnew hne ih =>
    rw [checkSlotsAreValidLoop_pass h hnew hne]
    omega
  | case3 i j h hnew hfound ih =>
    rw [checkSlotsAreValidLoop_found h hnew hfound]
    omega
  | case4 i j h =>
    rw [checkSlotsAreValidLoop_stop h]

/-- The loop passes no entry of the history exactly when there is none left or every slot left is
skipped by step 1). -/
theorem checkSlotsAreValidLoop_snd_eq_iff (i j : Nat) :
    (checkSlotsAreValidLoop lastVotedSlot voteSlots slotHashes i j).2 = j ↔
      j = 0 ∨ ∀ k (hk : k < voteSlots.length), i ≤ k →
        lastVotedSlot.any (voteSlots[k] ≤ ·) = true := by
  induction i, j using checkSlotsAreValidLoop.induct lastVotedSlot voteSlots slotHashes with
  | case1 i j h hskip ih =>
    rw [checkSlotsAreValidLoop_skip h hskip, ih]
    -- the slot at `i` is skipped, so it makes no difference whether the slots from `i` or from
    -- `i + 1` are asked to be
    constructor
    · rintro (hj | hall)
      · exact .inl hj
      · refine .inr fun k hk hik => ?_
        rcases Nat.eq_or_lt_of_le hik with rfl | hlt
        · exact hskip
        · exact hall k hk hlt
    · rintro (hj | hall)
      · exact .inl hj
      · exact .inr fun k hk hik => hall k hk (by omega)
  | case2 i j h hnew hne ih =>
    rw [checkSlotsAreValidLoop_pass h hnew hne]
    have hle : (checkSlotsAreValidLoop lastVotedSlot voteSlots slotHashes i (j - 1)).2 ≤ j - 1 :=
      checkSlotsAreValidLoop_snd_le i (j - 1)
    constructor
    · intro heq
      omega
    · rintro (hj | hall)
      · omega
      · exact absurd (hall i h.1 (Nat.le_refl i)) hnew
  | case3 i j h hnew hfound ih =>
    rw [checkSlotsAreValidLoop_found h hnew hfound]
    have hle : (checkSlotsAreValidLoop lastVotedSlot voteSlots slotHashes (i + 1) (j - 1)).2 ≤
        j - 1 := checkSlotsAreValidLoop_snd_le (i + 1) (j - 1)
    constructor
    · intro heq
      omega
    · rintro (hj | hall)
      · omega
      · exact absurd (hall i h.1 (Nat.le_refl i)) hnew
  | case4 i j h =>
    rw [checkSlotsAreValidLoop_stop h]
    refine iff_of_true rfl ?_
    by_cases hj : j = 0
    · exact .inl hj
    · exact .inr fun k hk hik => absurd ⟨by omega, by omega⟩ h

/-- Reaching the end of the vote means every slot left that step 1) does not skip was found among
the entries not yet passed. -/
theorem checkSlotsAreValidLoop_found_of_fst (i j : Nat)
    (hend : (checkSlotsAreValidLoop lastVotedSlot voteSlots slotHashes i j).1 = voteSlots.length) :
    ∀ k (hk : k < voteSlots.length), i ≤ k → ¬lastVotedSlot.any (voteSlots[k] ≤ ·) = true →
      ∃ q < j, slotHashes[q]?.map (·.1) = some voteSlots[k] := by
  induction i, j using checkSlotsAreValidLoop.induct lastVotedSlot voteSlots slotHashes with
  | case1 i j h hskip ih =>
    rw [checkSlotsAreValidLoop_skip h hskip] at hend
    intro k hk hik hnew
    rcases Nat.eq_or_lt_of_le hik with rfl | hlt
    · exact absurd hskip hnew
    · exact ih hend k hk hlt hnew
  | case2 i j h hnew hne ih =>
    rw [checkSlotsAreValidLoop_pass h hnew hne] at hend
    intro k hk hik hnew'
    obtain ⟨q, hq, hfound⟩ := ih hend k hk hik hnew'
    exact ⟨q, by omega, hfound⟩
  | case3 i j h hnew hfound ih =>
    rw [checkSlotsAreValidLoop_found h hnew hfound] at hend
    intro k hk hik hnew'
    rcases Nat.eq_or_lt_of_le hik with rfl | hlt
    · -- the slot at `i` is the one step 3) found
      exact ⟨j - 1, by omega, (not_not.mp hfound).symm⟩
    · obtain ⟨q, hq, hfound'⟩ := ih hend k hk hlt hnew'
      exact ⟨q, by omega, hfound'⟩
  | case4 i j h =>
    rw [checkSlotsAreValidLoop_stop h] at hend
    intro k hk hik
    omega

/-- A slot of the vote that is not among the first `j` entries keeps the loop at it. -/
theorem checkSlotsAreValidLoop_fst_of_missing {i : Nat} (hi : i < voteSlots.length)
    (hnew : ¬lastVotedSlot.any (voteSlots[i] ≤ ·) = true) :
    ∀ j, (∀ q < j, slotHashes[q]?.map (·.1) ≠ some voteSlots[i]) →
      (checkSlotsAreValidLoop lastVotedSlot voteSlots slotHashes i j).1 = i
  | 0, _ => by rw [checkSlotsAreValidLoop_stop (by omega)]
  | j + 1, hmissing => by
    rw [checkSlotsAreValidLoop_pass ⟨hi, by omega⟩ hnew (Ne.symm (hmissing j (by omega))),
      Nat.add_sub_cancel]
    exact checkSlotsAreValidLoop_fst_of_missing hi hnew j fun q hq => hmissing q (by omega)

variable (hslots : voteSlots.Pairwise (· < ·)) (hhashes : slotHashes.Pairwise (fun a b => b.1 < a.1))

include hhashes in
/-- The history's slots decrease along it. -/
theorem slot_lt_of_lt {q q' : Nat} (hqq' : q < q') {a b : Slot}
    (ha : slotHashes[q]?.map (·.1) = some a) (hb : slotHashes[q']?.map (·.1) = some b) : b < a := by
  obtain ⟨x, hx, rfl⟩ := Option.map_eq_some_iff.mp ha
  obtain ⟨y, hy, rfl⟩ := Option.map_eq_some_iff.mp hb
  obtain ⟨hq, rfl⟩ := List.getElem?_eq_some_iff.mp hx
  obtain ⟨hq', rfl⟩ := List.getElem?_eq_some_iff.mp hy
  exact List.pairwise_iff_getElem.mp hhashes q q' hq hq' hqq'

include hslots in
theorem voteSlot_lt_of_lt {k k' : Nat} (hk : k < k') (hk' : k' < voteSlots.length) :
    voteSlots[k] < voteSlots[k'] :=
  List.pairwise_iff_getElem.mp hslots k k' (by omega) hk' hk

include hslots in
theorem voteSlot_le_of_le {k k' : Nat} (hk : k ≤ k') (hk' : k' < voteSlots.length) :
    voteSlots[k] ≤ voteSlots[k'] := by
  rcases Nat.eq_or_lt_of_le hk with rfl | hlt
  · exact Nat.le_refl _
  · exact Nat.le_of_lt (voteSlot_lt_of_lt hslots hlt hk')

include hhashes in
/-- Two entries of the history with one slot are one entry. -/
theorem mem_iff_eq_of_getElem? {j : Nat} {m : Slot} {h : Hash} (hj : slotHashes[j]? = some (m, h))
    (x : Hash) : (m, x) ∈ slotHashes ↔ x = h := by
  constructor
  · intro hmem
    obtain ⟨q, hq⟩ := List.mem_iff_getElem?.mp hmem
    have hqj : q = j := by
      by_contra hne
      rcases Nat.lt_or_gt_of_ne hne with hlt | hgt
      · exact Nat.lt_irrefl m (slot_lt_of_lt hhashes hlt (by rw [hq]; rfl) (by rw [hj]; rfl))
      · exact Nat.lt_irrefl m (slot_lt_of_lt hhashes hgt (by rw [hj]; rfl) (by rw [hq]; rfl))
    subst hqj
    rw [hj, Option.some_inj, Prod.mk.injEq] at hq
    exact hq.2.symm
  · rintro rfl
    exact List.mem_iff_getElem?.mpr ⟨j, hj⟩

theorem mem_map_fst_iff {s : Slot} :
    s ∈ slotHashes.map (·.1) ↔ ∃ q < slotHashes.length, slotHashes[q]?.map (·.1) = some s := by
  rw [List.mem_iff_getElem?]
  constructor
  · rintro ⟨q, hq⟩
    rw [List.getElem?_map] at hq
    obtain ⟨x, hx, -⟩ := Option.map_eq_some_iff.mp hq
    exact ⟨q, (List.getElem?_eq_some_iff.mp hx).1, hq⟩
  · rintro ⟨q, -, hq⟩
    exact ⟨q, by rw [List.getElem?_map]; exact hq⟩

include hslots hhashes in
/-- The converse, for a vote whose last slot is not skipped: when every slot left that step 1)
does not skip is among the entries not yet passed, and the entries already passed are older than
all of them, the loop reaches the end of the vote. -/
theorem checkSlotsAreValidLoop_fst_of_found
    (hlast : ∀ (h : 0 < voteSlots.length),
      ¬lastVotedSlot.any (voteSlots[voteSlots.length - 1] ≤ ·) = true)
    (i j : Nat) (hi : i ≤ voteSlots.length) (hj : j ≤ slotHashes.length)
    (hbelow : ∀ k (hk : k < voteSlots.length), i ≤ k →
      ¬lastVotedSlot.any (voteSlots[k] ≤ ·) = true →
        ∀ q (hq : q < slotHashes.length), j ≤ q → slotHashes[q].1 < voteSlots[k])
    (hfound : ∀ k (hk : k < voteSlots.length), i ≤ k →
      ¬lastVotedSlot.any (voteSlots[k] ≤ ·) = true →
        ∃ q < j, slotHashes[q]?.map (·.1) = some voteSlots[k]) :
    (checkSlotsAreValidLoop lastVotedSlot voteSlots slotHashes i j).1 = voteSlots.length := by
  induction i, j using checkSlotsAreValidLoop.induct lastVotedSlot voteSlots slotHashes with
  | case1 i j h hskip ih =>
    rw [checkSlotsAreValidLoop_skip h hskip]
    exact ih (by omega) hj (fun k hk hik => hbelow k hk (by omega))
      (fun k hk hik => hfound k hk (by omega))
  | case2 i j h hnew hne ih =>
    rw [checkSlotsAreValidLoop_pass h hnew hne]
    have hsome : slotHashes[j - 1]?.map (·.1) = some slotHashes[j - 1].1 := by
      rw [List.getElem?_eq_getElem (by omega), Option.map_some]
    have hne' : slotHashes[j - 1].1 ≠ voteSlots[i] := fun heq => hne (by rw [hsome, heq])
    rcases Nat.lt_or_gt_of_ne hne' with hlt | hgt
    · -- the entry passed is older than the slot at `i`, so older than every slot left
      refine ih hi (by omega) (fun k hk hik hnew' q hq hjq => ?_) (fun k hk hik hnew' => ?_)
      · rcases Nat.eq_or_lt_of_le hjq with rfl | hlt'
        · exact Nat.lt_of_lt_of_le hlt (voteSlot_le_of_le hslots hik hk)
        · exact hbelow k hk hik hnew' q hq (by omega)
      · obtain ⟨q, hq, hq'⟩ := hfound k hk hik hnew'
        refine ⟨q, ?_, hq'⟩
        rcases Nat.lt_or_ge q (j - 1) with hlt' | hge
        · exact hlt'
        · -- the entry at `j - 1` is older than the slot at `k`, so it is not that slot
          have hqj : q = j - 1 := by omega
          subst hqj
          rw [hsome, Option.some_inj] at hq'
          have hle : voteSlots[i] ≤ voteSlots[k] := voteSlot_le_of_le hslots hik hk
          rw [hq'] at hlt
          exact absurd hlt (Nat.not_lt.mpr hle)
    · -- the entry passed is newer than the slot at `i`, and the ones before it newer still, so
      -- the slot at `i` is not in the history
      obtain ⟨q, hq, hq'⟩ := hfound i h.1 (Nat.le_refl i) hnew
      rcases Nat.lt_or_ge q (j - 1) with hlt' | hge
      · exact absurd (slot_lt_of_lt hhashes hlt' hq' hsome) (Nat.lt_asymm hgt)
      · have hqj : q = j - 1 := by omega
        subst hqj
        rw [hsome, Option.some_inj] at hq'
        exact absurd hq' hne'
  | case3 i j h hnew hfound' ih =>
    rw [checkSlotsAreValidLoop_found h hnew hfound']
    have hmatch : slotHashes[j - 1]?.map (·.1) = some voteSlots[i] := (not_not.mp hfound').symm
    have hslot : slotHashes[j - 1].1 = voteSlots[i] := by
      rw [List.getElem?_eq_getElem (by omega), Option.map_some, Option.some_inj] at hmatch
      exact hmatch
    refine ih (by omega) (by omega) (fun k hk hik hnew' q hq hjq => ?_) (fun k hk hik hnew' => ?_)
    · rcases Nat.eq_or_lt_of_le hjq with rfl | hlt'
      · rw [hslot]
        exact voteSlot_lt_of_lt hslots (by omega) hk
      · exact hbelow k hk (by omega) hnew' q hq (by omega)
    · -- a later slot is newer than the one found at `j - 1`, so it is found before it
      obtain ⟨q, hq, hq'⟩ := hfound k hk (by omega) hnew'
      refine ⟨q, ?_, hq'⟩
      rcases Nat.lt_or_ge q (j - 1) with hlt' | hge
      · exact hlt'
      · have hqj : q = j - 1 := by omega
        subst hqj
        have hik := voteSlot_lt_of_lt hslots (show i < k by omega) hk
        rw [hmatch, Option.some_inj] at hq'
        rw [hq'] at hik
        exact absurd hik (Nat.lt_irrefl _)
  | case4 i j h =>
    rw [checkSlotsAreValidLoop_stop h]
    by_cases hlen : i < voteSlots.length
    · -- no entry is left, yet the last slot is newer than the last vote and must be found
      obtain ⟨q, hq, -⟩ := hfound (voteSlots.length - 1) (by omega) (by omega) (hlast (by omega))
      omega
    · omega

/-- When the loop reaches the end of a vote whose last slot is not skipped, it stops at that slot's
entry. -/
theorem checkSlotsAreValidLoop_snd_of_fst
    (hlast : ∀ (h : 0 < voteSlots.length),
      ¬lastVotedSlot.any (voteSlots[voteSlots.length - 1] ≤ ·) = true)
    (i j : Nat) (hi : i < voteSlots.length)
    (hend : (checkSlotsAreValidLoop lastVotedSlot voteSlots slotHashes i j).1 = voteSlots.length) :
    slotHashes[(checkSlotsAreValidLoop lastVotedSlot voteSlots slotHashes i j).2]?.map (·.1) =
      voteSlots.getLast? := by
  induction i, j using checkSlotsAreValidLoop.induct lastVotedSlot voteSlots slotHashes with
  | case1 i j h hskip ih =>
    rw [checkSlotsAreValidLoop_skip h hskip] at hend ⊢
    refine ih ?_ hend
    -- the last slot is not skipped, so the one skipped at `i` is not the last
    by_contra hge
    have hi' : i = voteSlots.length - 1 := by omega
    subst hi'
    exact hlast (by omega) hskip
  | case2 i j h hnew hne ih =>
    rw [checkSlotsAreValidLoop_pass h hnew hne] at hend ⊢
    exact ih hi hend
  | case3 i j h hnew hfound ih =>
    rw [checkSlotsAreValidLoop_found h hnew hfound] at hend ⊢
    by_cases hi' : i + 1 < voteSlots.length
    · exact ih hi' hend
    · -- the slot found at `j - 1` was the last
      rw [checkSlotsAreValidLoop_stop (by omega), List.getLast?_eq_getElem?,
        show voteSlots.length - 1 = i by omega, List.getElem?_eq_getElem h.1]
      exact (not_not.mp hfound).symm
  | case4 i j h =>
    rw [checkSlotsAreValidLoop_stop h] at hend
    omega

/-- A slot newer than the last vote is followed only by newer ones. -/
theorem not_any_le_of_le {o : Option Nat} {a b : Nat} (ha : ¬o.any (a ≤ ·) = true) (hab : a ≤ b) :
    ¬o.any (b ≤ ·) = true := by
  cases o with
  | none => simp
  | some x =>
    simp only [Option.any_some, decide_eq_true_eq, Nat.not_le] at ha ⊢
    omega

/-- `check_slots_are_valid` on a vote whose slots increase, against a history whose slots
decrease: it passes exactly when every slot of the vote newer than the last vote is in the
history and the newest of them has the vote's hash there; and it finds the vote too old exactly
when no slot is newer than the last vote or the history is empty. -/
theorem check_slots_are_valid_spec (vs : VoteState) (voteSlots : List Slot) (voteHash : Hash)
    (slotHashes : List (Slot × Hash)) (hslots : voteSlots.Pairwise (· < ·))
    (hhashes : slotHashes.Pairwise (fun a b => b.1 < a.1)) :
    (checkSlotsAreValid vs voteSlots voteHash slotHashes = .ok () ↔
      (∀ s ∈ voteSlots.filter (fun s => vs.lastVotedSlot.all (· < s)),
        s ∈ slotHashes.map (·.1)) ∧
      ∃ m, (voteSlots.filter fun s => vs.lastVotedSlot.all (· < s)).max? = some m ∧
        (m, voteHash) ∈ slotHashes) ∧
    (checkSlotsAreValid vs voteSlots voteHash slotHashes = .error .voteTooOld ↔
      voteSlots.filter (fun s => vs.lastVotedSlot.all (· < s)) = [] ∨ slotHashes = []) := by
  set S := voteSlots.filter fun s => vs.lastVotedSlot.all (· < s) with hS
  -- the slots newer than the last vote are those that step 1) does not skip
  have hempty : S = [] ↔ ∀ k (hk : k < voteSlots.length),
      vs.lastVotedSlot.any (voteSlots[k] ≤ ·) = true := by
    rw [hS, List.filter_eq_nil_iff]
    constructor
    · intro hall k hk
      rw [any_le_iff_not_all_lt]
      exact hall _ (List.getElem_mem hk)
    · intro hall s hs
      obtain ⟨k, hk, rfl⟩ := List.getElem_of_mem hs
      exact (any_le_iff_not_all_lt _ _).mp (hall k hk)
  have hinS : (∀ s ∈ S, s ∈ slotHashes.map (·.1)) ↔ ∀ k (hk : k < voteSlots.length), 0 ≤ k →
      ¬vs.lastVotedSlot.any (voteSlots[k] ≤ ·) = true →
        ∃ q < slotHashes.length, slotHashes[q]?.map (·.1) = some voteSlots[k] := by
    constructor
    · intro hall k hk _ hnew
      rw [any_le_iff_not_all_lt, not_not] at hnew
      exact mem_map_fst_iff.mp (hall _ (List.mem_filter.mpr ⟨List.getElem_mem hk, hnew⟩))
    · intro hall s hs
      obtain ⟨hmem, hnew⟩ := List.mem_filter.mp hs
      obtain ⟨k, hk, rfl⟩ := List.getElem_of_mem hmem
      exact mem_map_fst_iff.mpr (hall k hk (Nat.zero_le k)
        (by rw [any_le_iff_not_all_lt, not_not]; exact hnew))
  -- a vote with a slot newer than the last vote ends with one, which is the newest of them
  have hlast : S ≠ [] → ∀ (h : 0 < voteSlots.length),
      ¬vs.lastVotedSlot.any (voteSlots[voteSlots.length - 1] ≤ ·) = true := by
    intro hne hpos
    obtain ⟨k, hk, hnew⟩ : ∃ k, ∃ hk : k < voteSlots.length,
        ¬vs.lastVotedSlot.any (voteSlots[k] ≤ ·) = true := by
      by_contra hall
      simp only [not_exists, not_not] at hall
      exact hne (hempty.mpr hall)
    exact not_any_le_of_le hnew (voteSlot_le_of_le hslots (by omega) (by omega))
  have hmax : S ≠ [] → S.max? = voteSlots.getLast? := by
    intro hne
    have hpos : 0 < voteSlots.length := by
      rcases List.exists_mem_of_ne_nil S hne with ⟨s, hs⟩
      exact List.length_pos_of_mem (List.mem_filter.mp hs).1
    rw [List.getLast?_eq_getElem?, List.getElem?_eq_getElem (by omega), List.max?_eq_some_iff]
    constructor
    · have hnew := hlast hne hpos
      rw [any_le_iff_not_all_lt, not_not] at hnew
      exact List.mem_filter.mpr ⟨List.getElem_mem _, hnew⟩
    · intro b hb
      obtain ⟨k, hk, rfl⟩ := List.getElem_of_mem (List.mem_filter.mp hb).1
      exact voteSlot_le_of_le hslots (by omega) (by omega)
  unfold checkSlotsAreValid
  generalize hr : checkSlotsAreValidLoop vs.lastVotedSlot voteSlots slotHashes 0
    slotHashes.length = r
  obtain ⟨i, j⟩ := r
  have hsnd := @checkSlotsAreValidLoop_snd_eq_iff vs.lastVotedSlot voteSlots slotHashes 0
    slotHashes.length
  rw [hr] at hsnd
  dsimp only
  by_cases hj : j = slotHashes.length
  · -- no entry was passed: no slot is newer than the last vote, or there is no history
    have hnone : S = [] ∨ slotHashes = [] := by
      rcases hsnd.mp hj with h0 | hall
      · exact .inr (List.eq_nil_of_length_eq_zero h0)
      · exact .inl (hempty.mpr fun k hk => hall k hk (Nat.zero_le k))
    rw [if_pos hj]
    refine ⟨iff_of_false (by simp) ?_, iff_of_true rfl hnone⟩
    rintro ⟨-, m, hm, hmem⟩
    rcases hnone with h0 | h0
    · rw [h0] at hm
      exact absurd hm (by simp)
    · rw [h0] at hmem
      exact absurd hmem List.not_mem_nil
  · have hne : S ≠ [] := fun h0 => hj (hsnd.mpr (.inr fun k hk _ => hempty.mp h0 k hk))
    have hH : slotHashes ≠ [] := fun h0 => hj (hsnd.mpr (.inl (by rw [h0]; rfl)))
    rw [if_neg hj]
    refine ⟨?_, iff_of_false (by split_ifs <;> simp) (by rintro (h | h) <;> contradiction)⟩
    by_cases hi : i = voteSlots.length
    · -- the loop reached the end of the vote, at the entry of its last slot
      have hpos : 0 < voteSlots.length := by
        rcases List.exists_mem_of_ne_nil S hne with ⟨s, hs⟩
        exact List.length_pos_of_mem (List.mem_filter.mp hs).1
      have hall : ∀ s ∈ S, s ∈ slotHashes.map (·.1) := by
        have := @checkSlotsAreValidLoop_found_of_fst vs.lastVotedSlot voteSlots slotHashes 0
          slotHashes.length
        rw [hr] at this
        exact hinS.mpr (this hi)
      have hentry := checkSlotsAreValidLoop_snd_of_fst (hlast hne) 0 slotHashes.length hpos
        (by rw [hr]; exact hi)
      rw [hr] at hentry
      obtain ⟨last, hget⟩ : ∃ last, voteSlots.getLast? = some last :=
        ⟨_, List.getLast?_eq_getElem?.trans (List.getElem?_eq_getElem (by omega))⟩
      rw [hget] at hentry
      obtain ⟨⟨m, h'⟩, hjget, rfl⟩ := Option.map_eq_some_iff.mp hentry
      rw [if_neg (not_not.mpr hi), hjget, Option.map_some]
      by_cases hh : h' = voteHash
      · subst hh
        rw [if_neg (not_not.mpr rfl)]
        exact iff_of_true rfl ⟨hall, m, by rw [hmax hne, hget], List.mem_iff_getElem?.mpr ⟨j, hjget⟩⟩
      · rw [if_pos (by simpa using hh)]
        refine iff_of_false (by simp) ?_
        rintro ⟨-, m', hm', hmem⟩
        rw [hmax hne, hget, Option.some_inj] at hm'
        subst hm'
        exact hh ((mem_iff_eq_of_getElem? hhashes hjget voteHash).mp hmem).symm
    · -- some slot newer than the last vote is not in the history
      rw [if_pos (show i ≠ voteSlots.length from hi)]
      refine iff_of_false (by simp) ?_
      rintro ⟨hall, -⟩
      have := checkSlotsAreValidLoop_fst_of_found hslots hhashes (hlast hne) 0 slotHashes.length
        (Nat.zero_le _) (Nat.le_refl _) (fun k _ _ _ q hq hq' => absurd hq (by omega))
        (hinS.mp hall)
      rw [hr] at this
      exact hi this

/-- A vote on slots 2, 4 and 5 after a vote on 3, against a history of 3, 4 and 5. -/
theorem check_slots_are_valid_spec_after_three :
    [2, 4, 5].Pairwise (· < ·) ∧
      [((5 : Slot), (default : Hash)), (4, default), (3, default)].Pairwise
        (fun a b => b.1 < a.1) ∧
      ((checkSlotsAreValid ⟨[LandedVote.ofLockout (Lockout.new 3)], none, []⟩ [2, 4, 5] default
          [(5, default), (4, default), (3, default)] = .ok () ↔
        (∀ s ∈ [2, 4, 5].filter (fun s => (some 3).all (· < s)),
          s ∈ [((5 : Slot), (default : Hash)), (4, default), (3, default)].map (·.1)) ∧
        ∃ m, ([2, 4, 5].filter fun s => (some 3).all (· < s)).max? = some m ∧
          (m, default) ∈ [((5 : Slot), (default : Hash)), (4, default), (3, default)]) ∧
      (checkSlotsAreValid ⟨[LandedVote.ofLockout (Lockout.new 3)], none, []⟩ [2, 4, 5] default
          [(5, default), (4, default), (3, default)] = .error .voteTooOld ↔
        [2, 4, 5].filter (fun s => (some 3).all (· < s)) = [] ∨
          [((5 : Slot), (default : Hash)), (4, default), (3, default)] = [])) :=
  ⟨by decide, by decide, check_slots_are_valid_spec _ _ _ _ (by decide) (by decide)⟩

end CheckSlotsAreValid

end Agave.Vote
