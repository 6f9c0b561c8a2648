import Agave.Vote.Program
import Agave.Lib.Slice

/-!
# Checking a proposed vote state against the slot history

`check_and_filter_proposed_vote_state` of `programs/vote/src/vote_state/mod.rs`, which
`process_tower_sync` and `process_vote_state_update` run on the lockouts and the root that a vote
proposes before the vote state takes them over. The proposed lockouts are oldest first and the
`SlotHashes` history newest first; one loop walks both from their oldest ends, with the proposed
root, when there is one, checked first. A slot older than the whole history cannot be checked: a
root that old is replaced by the latest vote of the vote state no later than it (or the vote
state's root), and a lockout that old is dropped unless the vote state already has its slot.

The loop is a `def` by well-founded recursion on what is left to walk. The function returns
`none` where the source panics (its final `assert_eq!` and the index after the loop), and the
lockouts and the root it leaves in place of the proposed ones on `Ok`; on `Err` the caller
discards them.
-/

namespace Agave.Vote

open Slice

/-- `VoteState::contains_slot`: a binary search of the votes by slot. The votes are a `VecDeque`,
which searches its two halves in turn; a list is the deque laid out in one piece. -/
def VoteState.containsSlot (vs : VoteState) (candidateSlot : Slot) : Bool :=
  match binarySearchBy vs.votes fun vote => compare vote.slot candidateSlot with
  | .ok _ => true
  | .error _ => false

/-- The proposed root after the history check: a root older than the oldest entry of the history
is replaced by the vote state's root, and then by the latest vote no later than it. -/
def rewriteProposedRoot (vs : VoteState) (proposedRoot : Option Slot)
    (earliestSlotHashInHistory : Slot) : Option Slot :=
  match proposedRoot with
  | some root =>
    if root < earliestSlotHashInHistory then
      ((vs.votes.reverse.find? (·.slot ≤ root)).map (·.slot)).or vs.rootSlot
    else some root
  | none => none

/-- The loop of `check_and_filter_proposed_vote_state`. `rootToCheck` is the root while it has not
been checked, `proposedLockoutsIndex` the next lockout, and `slotHashesIndex` counts the entries
of the history not yet passed, so `slotHashes[slotHashesIndex - 1]` is the oldest of them.
`slotHashesIndex` starts at the length and only decreases, which `hindex` records, so the entry
read is in range. `proposedLockoutsIndicesToFilter` collects the lockouts too old to check that the
vote state does not have. Each turn passes an entry, checks the root or moves to the next
lockout. -/
def checkAndFilterLoop (vs : VoteState) (proposedLockouts : List Lockout)
    (slotHashes : List (Slot × Hash)) (earliestSlotHashInHistory : Slot)
    (rootToCheck : Option Slot) (proposedLockoutsIndex slotHashesIndex : Nat)
    (hindex : slotHashesIndex ≤ slotHashes.length) (proposedLockoutsIndicesToFilter : List Nat) :
    Except VoteError (Option Slot × Nat × Nat × List Nat) :=
  if h : proposedLockoutsIndex < proposedLockouts.length ∧ slotHashesIndex > 0 then
    let proposedVoteSlot := rootToCheck.getD proposedLockouts[proposedLockoutsIndex].slot
    if rootToCheck.isNone ∧ proposedLockoutsIndex > 0 ∧
        proposedVoteSlot ≤ proposedLockouts[proposedLockoutsIndex - 1].slot then
      .error .slotsNotOrdered
    else
      let ancestorSlot := slotHashes[slotHashesIndex - 1].1
      match compare proposedVoteSlot ancestorSlot with
      | .lt =>
        if slotHashesIndex = slotHashes.length then
          -- the slot is older than the whole history
          if proposedVoteSlot ≥ earliestSlotHashInHistory then .error .assertionFailed
          else
            let proposedLockoutsIndicesToFilter :=
              if !vs.containsSlot proposedVoteSlot && rootToCheck.isNone then
                proposedLockoutsIndicesToFilter ++ [proposedLockoutsIndex]
              else proposedLockoutsIndicesToFilter
            -- the root being checked is `proposedVoteSlot`, so the source's `assert_eq!` of the
            -- two holds and its second check repeats the one above
            if rootToCheck.isSome then
              if proposedVoteSlot ≥ earliestSlotHashInHistory then .error .assertionFailed
              else checkAndFilterLoop vs proposedLockouts slotHashes earliestSlotHashInHistory none
                proposedLockoutsIndex slotHashesIndex hindex proposedLockoutsIndicesToFilter
            else checkAndFilterLoop vs proposedLockouts slotHashes earliestSlotHashInHistory none
              (proposedLockoutsIndex + 1) slotHashesIndex hindex proposedLockoutsIndicesToFilter
        -- new enough to be in the history but not in it: another fork
        else if rootToCheck.isSome then .error .rootOnDifferentFork
        else .error .slotsMismatch
      | .gt =>
        checkAndFilterLoop vs proposedLockouts slotHashes earliestSlotHashInHistory rootToCheck
          proposedLockoutsIndex (slotHashesIndex - 1) (by omega) proposedLockoutsIndicesToFilter
      | .eq =>
        if rootToCheck.isSome then
          checkAndFilterLoop vs proposedLockouts slotHashes earliestSlotHashInHistory none
            proposedLockoutsIndex slotHashesIndex hindex proposedLockoutsIndicesToFilter
        else
          checkAndFilterLoop vs proposedLockouts slotHashes earliestSlotHashInHistory none
            (proposedLockoutsIndex + 1) (slotHashesIndex - 1) (by omega)
            proposedLockoutsIndicesToFilter
  else .ok (rootToCheck, proposedLockoutsIndex, slotHashesIndex, proposedLockoutsIndicesToFilter)
termination_by proposedLockouts.length - proposedLockoutsIndex + slotHashesIndex +
  (if rootToCheck.isSome then 1 else 0)
decreasing_by
  all_goals
    try simp only [Option.isSome_none, Bool.false_eq_true, if_false]
    split <;> simp_all <;> omega

/-- The `retain` of the lockouts: `filterVotesIndex` walks the indices to filter, which the loop
collected in increasing order, and the lockout at each of them is dropped. -/
def retainLockouts (proposedLockoutsIndicesToFilter : List Nat) :
    List Lockout → Nat → Nat → List Lockout
  | [], _, _ => []
  | lockout :: rest, proposedLockoutsIndex, filterVotesIndex =>
    if filterVotesIndex = proposedLockoutsIndicesToFilter.length then
      lockout :: retainLockouts proposedLockoutsIndicesToFilter rest (proposedLockoutsIndex + 1)
        filterVotesIndex
    else if proposedLockoutsIndicesToFilter[filterVotesIndex]? = some proposedLockoutsIndex then
      retainLockouts proposedLockoutsIndicesToFilter rest (proposedLockoutsIndex + 1)
        (filterVotesIndex + 1)
    else
      lockout :: retainLockouts proposedLockoutsIndicesToFilter rest (proposedLockoutsIndex + 1)
        filterVotesIndex

/-- `check_and_filter_proposed_vote_state`: on `Ok`, the lockouts and the root that replace the
proposed ones. -/
def checkAndFilterProposedVoteState (vs : VoteState) (proposedLockouts : List Lockout)
    (proposedRoot : Option Slot) (proposedHash : Hash) (slotHashes : List (Slot × Hash)) :
    Option (Except VoteError (List Lockout × Option Slot)) :=
  match proposedLockouts.getLast? with
  | none => some (.error .emptySlots)
  | some lastLockout =>
    let lastProposedSlot := lastLockout.slot
    -- the proposed state must be newer than the last vote
    if vs.lastVotedSlot.any (lastProposedSlot ≤ ·) then some (.error .voteTooOld)
    else
      match slotHashes.getLast? with
      | none => some (.error .slotsMismatch)
      | some (earliestSlotHashInHistory, _) =>
        -- the last proposed slot must be in the history to check its hash
        if lastProposedSlot < earliestSlotHashInHistory then some (.error .voteTooOld)
        else
          let proposedRoot := rewriteProposedRoot vs proposedRoot earliestSlotHashInHistory
          match checkAndFilterLoop vs proposedLockouts slotHashes earliestSlotHashInHistory
              proposedRoot 0 slotHashes.length (Nat.le_refl _) [] with
          | .error e => some (.error e)
          | .ok (_, proposedLockoutsIndex, slotHashesIndex, proposedLockoutsIndicesToFilter) =>
            -- the last proposed slot was not found in the history
            if proposedLockoutsIndex ≠ proposedLockouts.length then some (.error .slotsMismatch)
            else
              match slotHashes[slotHashesIndex]? with
              | none => none
              | some (slot, hash) =>
                if lastProposedSlot ≠ slot then none
                else if hash ≠ proposedHash then some (.error .slotHashMismatch)
                else some (.ok (retainLockouts proposedLockoutsIndicesToFilter proposedLockouts 0 0,
                  proposedRoot))

/-! ## One turn of the loop

One equation for each turn that goes on, and the inversion of a loop that ends in `Ok`: each of its
turns passes an entry older than the slot checked, finds the root or a lockout at the oldest entry
left, or lets through a root or a lockout older than the whole history. -/

section Loop

variable {vs : VoteState} {proposedLockouts : List Lockout} {slotHashes : List (Slot × Hash)}
  {earliest : Slot}

/-- The check of `SlotsNotOrdered` passes on lockouts that increase. -/
theorem not_slotsNotOrdered {rootToCheck : Option Slot} {i : Nat}
    (hi : i < proposedLockouts.length)
    (hordered : rootToCheck = none → 0 < i →
      proposedLockouts[i - 1].slot < proposedLockouts[i].slot) :
    ¬(rootToCheck.isNone = true ∧ i > 0 ∧
      rootToCheck.getD proposedLockouts[i].slot ≤ proposedLockouts[i - 1].slot) := by
  rintro ⟨hnone, hpos, hle⟩
  rw [Option.isNone_iff_eq_none] at hnone
  subst hnone
  exact absurd hle (Nat.not_le.mpr (hordered rfl hpos))

theorem ordered_of_not_slotsNotOrdered {rootToCheck : Option Slot} {i : Nat}
    (hi : i < proposedLockouts.length)
    (h : ¬(rootToCheck.isNone = true ∧ i > 0 ∧
      rootToCheck.getD proposedLockouts[i].slot ≤ proposedLockouts[i - 1].slot)) :
    rootToCheck = none → 0 < i → proposedLockouts[i - 1].slot < proposedLockouts[i].slot := by
  intro hnone hpos
  subst hnone
  exact Nat.lt_of_not_le fun hle => h ⟨rfl, hpos, hle⟩

theorem checkAndFilterLoop_stop {rootToCheck : Option Slot} {i p : Nat}
    {hp : p ≤ slotHashes.length} {F : List Nat} (h : ¬(i < proposedLockouts.length ∧ p > 0)) :
    checkAndFilterLoop vs proposedLockouts slotHashes earliest rootToCheck i p hp F =
      .ok (rootToCheck, i, p, F) := by
  rw [checkAndFilterLoop, dif_neg h]

/-- An entry older than the slot checked is passed. -/
theorem checkAndFilterLoop_pass {rootToCheck : Option Slot} {i p : Nat}
    {hp : p ≤ slotHashes.length} {F : List Nat} (hi : i < proposedLockouts.length) (hp0 : 0 < p)
    (hordered : rootToCheck = none → 0 < i →
      proposedLockouts[i - 1].slot < proposedLockouts[i].slot)
    (hlt : slotHashes[p - 1].1 < rootToCheck.getD proposedLockouts[i].slot) :
    checkAndFilterLoop vs proposedLockouts slotHashes earliest rootToCheck i p hp F =
      checkAndFilterLoop vs proposedLockouts slotHashes earliest rootToCheck i (p - 1)
        (by omega) F := by
  rw [checkAndFilterLoop]
  dsimp only
  rw [dif_pos ⟨hi, hp0⟩, if_neg (not_slotsNotOrdered hi hordered), Nat.compare_eq_gt.mpr hlt]

/-- The root found at the oldest entry left is checked, and the entry stays for the lockouts. -/
theorem checkAndFilterLoop_rootFound {root : Slot} {i p : Nat} {hp : p ≤ slotHashes.length}
    {F : List Nat} (hi : i < proposedLockouts.length) (hp0 : 0 < p)
    (heq : slotHashes[p - 1].1 = root) :
    checkAndFilterLoop vs proposedLockouts slotHashes earliest (some root) i p hp F =
      checkAndFilterLoop vs proposedLockouts slotHashes earliest none i p hp F := by
  rw [checkAndFilterLoop]
  dsimp only
  rw [dif_pos ⟨hi, hp0⟩, if_neg (not_slotsNotOrdered hi (by simp)), Option.getD_some,
    Nat.compare_eq_eq.mpr heq.symm]
  rfl

/-- A lockout found at the oldest entry left is checked, and the entry passed. -/
theorem checkAndFilterLoop_found {i p : Nat} {hp : p ≤ slotHashes.length} {F : List Nat}
    (hi : i < proposedLockouts.length) (hp0 : 0 < p)
    (hordered : 0 < i → proposedLockouts[i - 1].slot < proposedLockouts[i].slot)
    (heq : slotHashes[p - 1].1 = proposedLockouts[i].slot) :
    checkAndFilterLoop vs proposedLockouts slotHashes earliest none i p hp F =
      checkAndFilterLoop vs proposedLockouts slotHashes earliest none (i + 1) (p - 1)
        (by omega) F := by
  rw [checkAndFilterLoop]
  dsimp only
  rw [dif_pos ⟨hi, hp0⟩, if_neg (not_slotsNotOrdered hi fun _ => hordered), Option.getD_none,
    Nat.compare_eq_eq.mpr heq.symm]
  rfl

/-- A root older than the whole history is let through. -/
theorem checkAndFilterLoop_rootTooOld {root : Slot} {i : Nat}
    {hp : slotHashes.length ≤ slotHashes.length} {F : List Nat}
    (hi : i < proposedLockouts.length) (hn : 0 < slotHashes.length)
    (hlt : root < slotHashes[slotHashes.length - 1].1) (hold : root < earliest) :
    checkAndFilterLoop vs proposedLockouts slotHashes earliest (some root) i slotHashes.length hp
        F =
      checkAndFilterLoop vs proposedLockouts slotHashes earliest none i slotHashes.length hp F := by
  rw [checkAndFilterLoop]
  dsimp only
  rw [dif_pos ⟨hi, hn⟩, if_neg (not_slotsNotOrdered hi (by simp)), Option.getD_some,
    Nat.compare_eq_lt.mpr hlt, if_pos rfl, if_neg (Nat.not_le.mpr hold)]
  simp only [Option.isNone_some, Bool.and_false, Bool.false_eq_true, if_false, Option.isSome_some,
    if_true, if_neg (Nat.not_le.mpr hold)]

/-- A lockout older than the whole history is let through, and marked to be dropped when the vote
state does not have its slot. -/
theorem checkAndFilterLoop_tooOld {i : Nat} {hp : slotHashes.length ≤ slotHashes.length}
    {F : List Nat} (hi : i < proposedLockouts.length) (hn : 0 < slotHashes.length)
    (hordered : 0 < i → proposedLockouts[i - 1].slot < proposedLockouts[i].slot)
    (hlt : proposedLockouts[i].slot < slotHashes[slotHashes.length - 1].1)
    (hold : proposedLockouts[i].slot < earliest) :
    checkAndFilterLoop vs proposedLockouts slotHashes earliest none i slotHashes.length hp F =
      checkAndFilterLoop vs proposedLockouts slotHashes earliest none (i + 1) slotHashes.length hp
        (if !vs.containsSlot proposedLockouts[i].slot then F ++ [i] else F) := by
  rw [checkAndFilterLoop]
  dsimp only
  rw [dif_pos ⟨hi, hn⟩, if_neg (not_slotsNotOrdered hi fun _ => hordered), Option.getD_none,
    Nat.compare_eq_lt.mpr hlt, if_pos rfl, if_neg (Nat.not_le.mpr hold)]
  simp only [Option.isNone_none, Bool.and_true, Option.isSome_none, Bool.false_eq_true, if_false]

/-- What a turn of a loop that ends in `Ok` did: it stopped, passed an entry, found the root or a
lockout at the oldest entry left, or let through a root or a lockout older than the history. -/
theorem checkAndFilterLoop_eq_ok {rootToCheck : Option Slot} {i p : Nat}
    {hp : p ≤ slotHashes.length} {F : List Nat} {r : Option Slot × Nat × Nat × List Nat}
    (h : checkAndFilterLoop vs proposedLockouts slotHashes earliest rootToCheck i p hp F = .ok r) :
    (¬(i < proposedLockouts.length ∧ p > 0) ∧ r = (rootToCheck, i, p, F)) ∨
    (∃ (hi : i < proposedLockouts.length) (hp0 : 0 < p),
      (rootToCheck = none → 0 < i → proposedLockouts[i - 1].slot < proposedLockouts[i].slot) ∧
      slotHashes[p - 1].1 < rootToCheck.getD proposedLockouts[i].slot ∧
      checkAndFilterLoop vs proposedLockouts slotHashes earliest rootToCheck i (p - 1) (by omega)
        F = .ok r) ∨
    (∃ root, rootToCheck = some root ∧ i < proposedLockouts.length ∧ ∃ (hp0 : 0 < p),
      slotHashes[p - 1].1 = root ∧
      checkAndFilterLoop vs proposedLockouts slotHashes earliest none i p hp F = .ok r) ∨
    (∃ (hi : i < proposedLockouts.length) (hp0 : 0 < p), rootToCheck = none ∧
      (0 < i → proposedLockouts[i - 1].slot < proposedLockouts[i].slot) ∧
      slotHashes[p - 1].1 = proposedLockouts[i].slot ∧
      checkAndFilterLoop vs proposedLockouts slotHashes earliest none (i + 1) (p - 1) (by omega)
        F = .ok r) ∨
    (∃ root, rootToCheck = some root ∧ i < proposedLockouts.length ∧
      ∃ (hn : p = slotHashes.length) (hp0 : 0 < p), root < slotHashes[p - 1].1 ∧ root < earliest ∧
      checkAndFilterLoop vs proposedLockouts slotHashes earliest none i p hp F = .ok r) ∨
    (∃ (hi : i < proposedLockouts.length) (hp0 : 0 < p), rootToCheck = none ∧
      p = slotHashes.length ∧
      (0 < i → proposedLockouts[i - 1].slot < proposedLockouts[i].slot) ∧
      proposedLockouts[i].slot < slotHashes[p - 1].1 ∧ proposedLockouts[i].slot < earliest ∧
      checkAndFilterLoop vs proposedLockouts slotHashes earliest none (i + 1) p hp
        (if !vs.containsSlot proposedLockouts[i].slot then F ++ [i] else F) = .ok r) := by
  rw [checkAndFilterLoop] at h
  dsimp only at h
  split at h
  · rename_i hc
    split at h
    · cases h
    · rename_i hord
      have hordered := ordered_of_not_slotsNotOrdered hc.1 hord
      split at h
      · -- older than the oldest entry left: let through only when nothing was passed
        rename_i hcmp
        rw [Nat.compare_eq_lt] at hcmp
        split at h
        · rename_i hn
          split at h
          · cases h
          · rename_i hold
            split at h
            · rename_i hsome
              obtain ⟨root, rfl⟩ := Option.isSome_iff_exists.mp hsome
              simp only [Option.isNone_some, Bool.and_false, Bool.false_eq_true, if_false,
                Option.getD_some] at h hcmp hold
              exact .inr (.inr (.inr (.inr (.inl ⟨root, rfl, hc.1, hn, hc.2, hcmp,
                Nat.lt_of_not_le hold, h⟩))))
            · rename_i hnone
              have hnone' : rootToCheck = none := Option.not_isSome_iff_eq_none.mp hnone
              subst hnone'
              simp only [Option.isNone_none, Bool.and_true, Option.getD_none] at h hcmp hold
              exact .inr (.inr (.inr (.inr (.inr ⟨hc.1, hc.2, rfl, hn, hordered rfl, hcmp,
                Nat.lt_of_not_le hold, h⟩))))
        · split at h <;> cases h
      · rename_i hcmp
        rw [Nat.compare_eq_gt] at hcmp
        exact .inr (.inl ⟨hc.1, hc.2, hordered, hcmp, h⟩)
      · rename_i hcmp
        rw [Nat.compare_eq_eq] at hcmp
        split at h
        · rename_i hsome
          obtain ⟨root, rfl⟩ := Option.isSome_iff_exists.mp hsome
          exact .inr (.inr (.inl ⟨root, rfl, hc.1, hc.2, hcmp.symm, h⟩))
        · rename_i hnone
          have hnone' : rootToCheck = none := Option.not_isSome_iff_eq_none.mp hnone
          subst hnone'
          exact .inr (.inr (.inr (.inl ⟨hc.1, hc.2, rfl, hordered rfl, hcmp.symm, h⟩)))
  · rename_i hc
    exact .inl ⟨hc, (Except.ok.inj h).symm⟩

/-- Induction over a loop that ends in `Ok`: a property of the state that its stop has and that
each kind of turn carries back holds of every state the loop went through. The turn that checks
the root also gets the rest of the run, from which what the lockouts do is read. -/
theorem checkAndFilterLoop_ok_induction {r : Option Slot × Nat × Nat × List Nat}
    (motive : Option Slot → Nat → (p : Nat) → p ≤ slotHashes.length → List Nat → Prop)
    (stop : ∀ rootToCheck i p hp F, ¬(i < proposedLockouts.length ∧ p > 0) →
      r = (rootToCheck, i, p, F) → motive rootToCheck i p hp F)
    (pass : ∀ rootToCheck i p hp F (hi : i < proposedLockouts.length) (hp0 : 0 < p),
      (rootToCheck = none → 0 < i → proposedLockouts[i - 1].slot < proposedLockouts[i].slot) →
      slotHashes[p - 1].1 < rootToCheck.getD proposedLockouts[i].slot →
      motive rootToCheck i (p - 1) (by omega) F → motive rootToCheck i p hp F)
    (rootFound : ∀ root i p hp F, i < proposedLockouts.length → ∀ (hp0 : 0 < p),
      slotHashes[p - 1].1 = root →
      checkAndFilterLoop vs proposedLockouts slotHashes earliest none i p hp F = .ok r →
      motive none i p hp F → motive (some root) i p hp F)
    (found : ∀ i p hp F (hi : i < proposedLockouts.length) (hp0 : 0 < p),
      (0 < i → proposedLockouts[i - 1].slot < proposedLockouts[i].slot) →
      slotHashes[p - 1].1 = proposedLockouts[i].slot →
      motive none (i + 1) (p - 1) (by omega) F → motive none i p hp F)
    (rootTooOld : ∀ root i p hp F, i < proposedLockouts.length → p = slotHashes.length →
      ∀ (hp0 : 0 < p), root < slotHashes[p - 1].1 → root < earliest →
      motive none i p hp F → motive (some root) i p hp F)
    (tooOld : ∀ i p hp F (hi : i < proposedLockouts.length) (hp0 : 0 < p),
      p = slotHashes.length →
      (0 < i → proposedLockouts[i - 1].slot < proposedLockouts[i].slot) →
      proposedLockouts[i].slot < slotHashes[p - 1].1 → proposedLockouts[i].slot < earliest →
      motive none (i + 1) p hp
        (if !vs.containsSlot proposedLockouts[i].slot then F ++ [i] else F) →
      motive none i p hp F) :
    ∀ rootToCheck i p hp F,
      checkAndFilterLoop vs proposedLockouts slotHashes earliest rootToCheck i p hp F = .ok r →
        motive rootToCheck i p hp F := by
  intro rootToCheck i p hp F h
  -- on what is left to walk, as the loop's termination
  generalize hN : proposedLockouts.length - i + p + (if rootToCheck.isSome then 1 else 0) = N
  induction N using Nat.strong_induction_on generalizing rootToCheck i p F with
  | _ N ih =>
    rcases checkAndFilterLoop_eq_ok h with ⟨hc, rfl⟩ | ⟨hi, hp0, hord, hlt, h'⟩ |
      ⟨root, rfl, hi, hp0, heq, h'⟩ | ⟨hi, hp0, rfl, hord, heq, h'⟩ |
      ⟨root, rfl, hi, hn, hp0, hlt, hold, h'⟩ | ⟨hi, hp0, rfl, hn, hord, hlt, hold, h'⟩
    · exact stop _ _ _ _ _ hc rfl
    · exact pass _ _ _ _ _ hi hp0 hord hlt (ih _ (by omega) _ _ _ _ _ h' rfl)
    · exact rootFound _ _ _ _ _ hi hp0 heq h' (ih _ (by simp at hN ⊢; omega) _ _ _ _ _ h' rfl)
    · exact found _ _ _ _ hi hp0 hord heq (ih _ (by simp at hN ⊢; omega) _ _ _ _ _ h' rfl)
    · exact rootTooOld _ _ _ _ _ hi hn hp0 hlt hold (ih _ (by simp at hN ⊢; omega) _ _ _ _ _ h' rfl)
    · exact tooOld _ _ _ _ hi hp0 hn hord hlt hold (ih _ (by simp at hN ⊢; omega) _ _ _ _ _ h' rfl)

end Loop

/-! ## What a loop that reaches the last lockout says

Over a history whose slots decrease, a loop that ends in `Ok` at the end of the lockouts went
through lockouts that increase; each lockout not older than the history, and the root when it is
not, was found among the entries not yet passed; a lockout older than the history came while no
entry was passed; a root newer than the oldest entry is no later than any lockout; and the
lockouts marked to be dropped are the ones older than the history that the vote state does not
have. -/

/-- A lockout the check drops: older than the history, and not a slot the vote state has. -/
def dropsLockout (vs : VoteState) (earliestSlotHashInHistory : Slot) (lockout : Lockout) : Bool :=
  decide (lockout.slot < earliestSlotHashInHistory) && !vs.containsSlot lockout.slot

/-- The indices, counted from `start`, of the lockouts that the check drops. -/
def droppedIndices (vs : VoteState) (earliestSlotHashInHistory : Slot) (lockouts : List Lockout)
    (start : Nat) : List Nat :=
  (lockouts.zipIdx start).filterMap fun p =>
    if dropsLockout vs earliestSlotHashInHistory p.1 then some p.2 else none

section Sound

variable {vs : VoteState} {proposedLockouts : List Lockout} {slotHashes : List (Slot × Hash)}
  {earliest : Slot}

theorem droppedIndices_drop {i : Nat} (hi : i < proposedLockouts.length) :
    droppedIndices vs earliest (proposedLockouts.drop i) i =
      (if dropsLockout vs earliest proposedLockouts[i] then [i] else []) ++
        droppedIndices vs earliest (proposedLockouts.drop (i + 1)) (i + 1) := by
  unfold droppedIndices
  rw [List.drop_eq_getElem_cons hi, List.zipIdx_cons, List.filterMap_cons]
  by_cases hd : dropsLockout vs earliest proposedLockouts[i] <;> simp [hd]

/-- A lockout not older than the history is kept. -/
theorem dropsLockout_of_le {lockout : Lockout} (h : earliest ≤ lockout.slot) :
    dropsLockout vs earliest lockout = false := by
  simp [dropsLockout, Nat.not_lt.mpr h]

/-- The loop marks a lockout older than the history exactly when the check drops it. -/
theorem append_marked_of_lt {lockout : Lockout} {i : Nat} (F D : List Nat)
    (h : lockout.slot < earliest) :
    (if !vs.containsSlot lockout.slot then F ++ [i] else F) ++ D =
      F ++ ((if dropsLockout vs earliest lockout then [i] else []) ++ D) := by
  by_cases hcontains : vs.containsSlot lockout.slot <;> simp [dropsLockout, h, hcontains]

theorem droppedIndices_drop_length :
    droppedIndices vs earliest (proposedLockouts.drop proposedLockouts.length)
      proposedLockouts.length = [] := by
  rw [List.drop_length]
  rfl

variable (hhashes : slotHashes.Pairwise (fun a b => b.1 < a.1))
  (hE : ∀ hn : 0 < slotHashes.length,
    (GetElem.getElem slotHashes (slotHashes.length - 1) (Nat.sub_one_lt_of_lt hn)).1 = earliest)

include hhashes in
theorem hashSlot_le {q q' : Nat} (hqq' : q ≤ q') (hq' : q' < slotHashes.length) :
    slotHashes[q'].1 ≤ slotHashes[q].1 := by
  rcases Nat.eq_or_lt_of_le hqq' with rfl | hlt
  · exact Nat.le_refl _
  · exact Nat.le_of_lt (List.pairwise_iff_getElem.mp hhashes q q' (by omega) hq' hlt)

include hhashes in
theorem hashSlot_lt {q q' : Nat} (hqq' : q < q') (hq' : q' < slotHashes.length) :
    slotHashes[q'].1 < slotHashes[q].1 :=
  List.pairwise_iff_getElem.mp hhashes q q' (by omega) hq' hqq'

include hhashes hE in
/-- The oldest entry is the earliest slot of the history. -/
theorem earliest_le {q : Nat} (hq : q < slotHashes.length) : earliest ≤ slotHashes[q].1 := by
  rw [← hE (by omega)]
  exact hashSlot_le hhashes (by omega) (by omega)

include hhashes hE in
/-- Each lockout not older than the history was found among the entries not yet passed, and a
lockout older than it came while none was passed. -/
theorem checkAndFilterLoop_found_of_ok {r : Option Slot × Nat × Nat × List Nat}
    (hr : r.2.1 = proposedLockouts.length) :
    ∀ rootToCheck i p hp F,
      checkAndFilterLoop vs proposedLockouts slotHashes earliest rootToCheck i p hp F = .ok r →
        (∀ k, i ≤ k → ∀ (hk : k < proposedLockouts.length), earliest ≤ proposedLockouts[k].slot →
          ∃ q, ∃ hq : q < p, slotHashes[q].1 = proposedLockouts[k].slot) ∧
        (∀ k, i ≤ k → ∀ (hk : k < proposedLockouts.length), proposedLockouts[k].slot < earliest →
          p = slotHashes.length) := by
  refine checkAndFilterLoop_ok_induction _ ?_ ?_ ?_ ?_ ?_ ?_
  · -- the loop stopped at the end of the lockouts
    intro rootToCheck i p hp F _ hstop
    subst hstop
    simp only at hr
    exact ⟨fun k hik hk _ => absurd hk (by omega), fun k hik hk _ => absurd hk (by omega)⟩
  · rintro rootToCheck i p hp F _ hp0 _ _ ⟨ihFound, ihOld⟩
    refine ⟨fun k hik hk hle => ?_, fun k hik hk hlt => ?_⟩
    · obtain ⟨q, hq, heq⟩ := ihFound k hik hk hle
      exact ⟨q, by omega, heq⟩
    · -- no older lockout is left once an entry is passed
      have := ihOld k hik hk hlt
      omega
  · intro root i p hp F _ _ _ _ ih
    exact ih
  · rintro i p hp F _ hp0 _ heq ⟨ihFound, ihOld⟩
    refine ⟨fun k hik hk hle => ?_, fun k hik hk hlt => ?_⟩
    · rcases Nat.eq_or_lt_of_le hik with rfl | hlt
      · exact ⟨p - 1, by omega, heq⟩
      · obtain ⟨q, hq, heq'⟩ := ihFound k hlt hk hle
        exact ⟨q, by omega, heq'⟩
    · rcases Nat.eq_or_lt_of_le hik with rfl | hlt'
      · -- a lockout found in the history is not older than it
        have := earliest_le hhashes hE (show p - 1 < slotHashes.length by omega)
        rw [heq] at this
        exact absurd hlt (Nat.not_lt.mpr this)
      · have := ihOld k hlt' hk hlt
        omega
  · intro root i p hp F _ _ _ _ _ ih
    exact ih
  · rintro i p hp F _ _ hn _ _ hold ⟨ihFound, -⟩
    refine ⟨fun k hik hk hle => ?_, fun _ _ _ _ => hn⟩
    rcases Nat.eq_or_lt_of_le hik with rfl | hlt
    · exact absurd hle (Nat.not_le.mpr hold)
    · exact ihFound k hlt hk hle

omit hhashes hE in
/-- The lockouts from the one checked on increase. -/
theorem checkAndFilterLoop_ordered_of_ok {r : Option Slot × Nat × Nat × List Nat}
    (hr : r.2.1 = proposedLockouts.length) :
    ∀ rootToCheck i p hp F,
      checkAndFilterLoop vs proposedLockouts slotHashes earliest rootToCheck i p hp F = .ok r →
        ∀ k, i ≤ k → 0 < k → ∀ (hk : k < proposedLockouts.length),
          proposedLockouts[k - 1].slot < proposedLockouts[k].slot := by
  refine checkAndFilterLoop_ok_induction _ ?_ ?_ ?_ ?_ ?_ ?_
  · intro rootToCheck i p hp F _ hstop
    subst hstop
    simp only at hr
    exact fun k hik _ hk => absurd hk (by omega)
  · intro rootToCheck i p hp F _ _ _ _ ih
    exact ih
  · intro root i p hp F _ _ _ _ ih
    exact ih
  · -- the lockout found was checked against the one before it
    intro i p hp F _ _ hord _ ih k hik hpos hk
    rcases Nat.eq_or_lt_of_le hik with rfl | hlt
    · exact hord hpos
    · exact ih k hlt hpos hk
  · intro root i p hp F _ _ _ _ _ ih
    exact ih
  · intro i p hp F _ _ _ hord _ _ ih k hik hpos hk
    rcases Nat.eq_or_lt_of_le hik with rfl | hlt
    · exact hord hpos
    · exact ih k hlt hpos hk

include hhashes hE in
/-- A root checked while lockouts are left was found among the entries not yet passed unless it
is older than the history, and a root newer than the oldest entry is no later than any lockout
left. -/
theorem checkAndFilterLoop_root_of_ok {r : Option Slot × Nat × Nat × List Nat}
    (hr : r.2.1 = proposedLockouts.length) :
    ∀ rootToCheck i p hp F,
      checkAndFilterLoop vs proposedLockouts slotHashes earliest rootToCheck i p hp F = .ok r →
        ∀ root, rootToCheck = some root → i < proposedLockouts.length →
          (earliest ≤ root → ∃ q, ∃ hq : q < p, slotHashes[q].1 = root) ∧
          (earliest < root → ∀ k, i ≤ k → ∀ (hk : k < proposedLockouts.length),
            root ≤ proposedLockouts[k].slot) := by
  refine checkAndFilterLoop_ok_induction _ ?_ ?_ ?_ ?_ ?_ ?_
  · intro rootToCheck i p hp F _ hstop root _ hi
    subst hstop
    simp only at hr
    omega
  · intro rootToCheck i p hp F _ _ _ _ ih root hroot hi
    obtain ⟨ihFound, ihBelow⟩ := ih root hroot hi
    refine ⟨fun hle => ?_, ihBelow⟩
    obtain ⟨q, hq, heq⟩ := ihFound hle
    exact ⟨q, by omega, heq⟩
  · -- the root found: the lockouts left were found among the entries from it on
    intro root' i p hp F _ hp0 heq hrest _ root hroot _
    cases hroot
    obtain ⟨hfound, hold⟩ := checkAndFilterLoop_found_of_ok hhashes hE hr _ _ _ _ _ hrest
    refine ⟨fun _ => ⟨p - 1, by omega, heq⟩, fun hlt k hik hk => ?_⟩
    by_cases hk' : earliest ≤ proposedLockouts[k].slot
    · obtain ⟨q, hq, heq'⟩ := hfound k hik hk hk'
      rw [← heq, ← heq']
      exact hashSlot_le hhashes (by omega) (by omega)
    · -- an older lockout would mean nothing was passed, and the root the oldest entry
      have hn := hold k hik hk (Nat.lt_of_not_le hk')
      subst hn
      rw [hE hp0] at heq
      exact absurd hlt (by rw [heq]; exact Nat.lt_irrefl _)
  · intro i p hp F _ _ _ _ _ root hroot
    cases hroot
  · intro root' i p hp F _ _ _ _ hold _ root hroot _
    cases hroot
    exact ⟨fun hle => absurd hold (Nat.not_lt.mpr hle),
      fun hlt => absurd hold (Nat.not_lt.mpr (Nat.le_of_lt hlt))⟩
  · intro i p hp F _ _ _ _ _ _ _ root hroot
    cases hroot

include hhashes hE in
/-- The lockouts marked to be dropped are the ones the check drops. -/
theorem checkAndFilterLoop_filter_of_ok {r : Option Slot × Nat × Nat × List Nat}
    (hr : r.2.1 = proposedLockouts.length) :
    ∀ rootToCheck i p hp F,
      checkAndFilterLoop vs proposedLockouts slotHashes earliest rootToCheck i p hp F = .ok r →
        r.2.2.2 = F ++ droppedIndices vs earliest (proposedLockouts.drop i) i := by
  refine checkAndFilterLoop_ok_induction _ ?_ ?_ ?_ ?_ ?_ ?_
  · intro rootToCheck i p hp F _ hstop
    subst hstop
    simp only at hr ⊢
    rw [hr, droppedIndices_drop_length, List.append_nil]
  · intro rootToCheck i p hp F _ _ _ _ ih
    exact ih
  · intro root i p hp F _ _ _ _ ih
    exact ih
  · -- a lockout found in the history is not older than it, so it stays
    intro i p hp F hi hp0 _ heq ih
    have hle := earliest_le hhashes hE (show p - 1 < slotHashes.length by omega)
    rw [heq] at hle
    rw [ih, droppedIndices_drop hi, dropsLockout_of_le hle]
    rfl
  · intro root i p hp F _ _ _ _ _ ih
    exact ih
  · intro i p hp F hi _ _ _ _ hold ih
    rw [ih, droppedIndices_drop hi, append_marked_of_lt F _ hold]

/-! ## A loop that reaches the last lockout -/

theorem lockoutSlot_lt_of_lt (hsorted : (proposedLockouts.map (·.slot)).Pairwise (· < ·))
    {k k' : Nat} (hkk' : k < k') (hk' : k' < proposedLockouts.length) :
    proposedLockouts[k].slot < proposedLockouts[k'].slot := by
  have := List.pairwise_iff_getElem.mp hsorted k k' (by simp; omega) (by simpa using hk') hkk'
  simpa using this

theorem lockoutSlot_le_of_le (hsorted : (proposedLockouts.map (·.slot)).Pairwise (· < ·))
    {k k' : Nat} (hkk' : k ≤ k') (hk' : k' < proposedLockouts.length) :
    proposedLockouts[k].slot ≤ proposedLockouts[k'].slot := by
  rcases Nat.eq_or_lt_of_le hkk' with rfl | hlt
  · exact Nat.le_refl _
  · exact Nat.le_of_lt (lockoutSlot_lt_of_lt hsorted hlt hk')

include hhashes hE in
/-- A loop on the lockouts from `i`, with the entries from `p` on passed, reaches the end of the
lockouts when they increase, the last is not older than the history, each lockout not older than
it is among the entries not passed and newer than those passed, and an older one comes only while
no entry is passed. It marks the lockouts the check drops and stops at the entry of the last
lockout. -/
theorem checkAndFilterLoop_none_eq_ok (hn : 0 < slotHashes.length)
    (hsorted : (proposedLockouts.map (·.slot)).Pairwise (· < ·))
    (hlast : ∀ (h : 0 < proposedLockouts.length),
      earliest ≤ proposedLockouts[proposedLockouts.length - 1].slot) :
    ∀ i p hp F, i ≤ proposedLockouts.length →
      (∀ k, i ≤ k → ∀ (hk : k < proposedLockouts.length), proposedLockouts[k].slot < earliest →
        p = slotHashes.length) →
      (∀ k, i ≤ k → ∀ (hk : k < proposedLockouts.length), earliest ≤ proposedLockouts[k].slot →
        ∃ q, ∃ hq : q < p, slotHashes[q].1 = proposedLockouts[k].slot) →
      (∀ k, i ≤ k → ∀ (hk : k < proposedLockouts.length), earliest ≤ proposedLockouts[k].slot →
        ∀ q, p ≤ q → ∀ (hq : q < slotHashes.length), slotHashes[q].1 < proposedLockouts[k].slot) →
      ∃ p', checkAndFilterLoop vs proposedLockouts slotHashes earliest none i p hp F =
          .ok (none, proposedLockouts.length, p',
            F ++ droppedIndices vs earliest (proposedLockouts.drop i) i) ∧
        (i < proposedLockouts.length →
          slotHashes[p']?.map (·.1) = proposedLockouts.getLast?.map (·.slot)) := by
  intro i p hp F hi hold hfound hbelow
  -- on what is left to walk, as the loop's termination
  generalize hN : proposedLockouts.length - i + p = N
  induction N using Nat.strong_induction_on generalizing i p F with
  | _ N ih =>
    by_cases hi' : i < proposedLockouts.length
    · have hordered : 0 < i → proposedLockouts[i - 1].slot < proposedLockouts[i].slot :=
        fun _ => lockoutSlot_lt_of_lt hsorted (by omega) hi'
      -- a lockout is left, so an entry is left for it
      have hp0 : 0 < p := by
        by_contra hp0
        by_cases hk : earliest ≤ proposedLockouts[i].slot
        · obtain ⟨q, hq, -⟩ := hfound i (Nat.le_refl i) hi' hk
          omega
        · have := hold i (Nat.le_refl i) hi' (Nat.lt_of_not_le hk)
          omega
      rcases Nat.lt_trichotomy slotHashes[p - 1].1 proposedLockouts[i].slot with hlt | heq | hgt
      · -- the oldest entry left is older than the lockout: pass it
        rw [checkAndFilterLoop_pass hi' hp0 (fun _ => hordered) hlt]
        refine ih _ (by omega) i (p - 1) _ F hi (fun k hik hk hold' => ?_)
          (fun k hik hk hle => ?_) (fun k hik hk hle q hq hq' => ?_) rfl
        · -- no lockout older than the history is left: it would precede this one
          have := Nat.lt_of_lt_of_le (Nat.lt_of_le_of_lt (earliest_le hhashes hE (by omega)) hlt)
            (lockoutSlot_le_of_le hsorted hik hk)
          exact absurd hold' (Nat.not_lt.mpr (Nat.le_of_lt this))
        · obtain ⟨q, hq, heq⟩ := hfound k hik hk hle
          refine ⟨q, ?_, heq⟩
          by_contra hge
          have hqp : q = p - 1 := by omega
          subst hqp
          rw [heq] at hlt
          exact absurd (lockoutSlot_le_of_le hsorted hik hk) (Nat.not_le.mpr hlt)
        · rcases Nat.eq_or_lt_of_le hq with rfl | hq''
          · exact Nat.lt_of_lt_of_le hlt (lockoutSlot_le_of_le hsorted hik hk)
          · exact hbelow k hik hk hle q (by omega) hq'
      · -- the lockout is the oldest entry left: go on past both
        rw [checkAndFilterLoop_found hi' hp0 hordered heq]
        have hle : earliest ≤ proposedLockouts[i].slot := by
          rw [← heq]
          exact earliest_le hhashes hE (by omega)
        -- no lockout left is older than the history, and each is newer than the one found
        have hold' : ∀ k, i + 1 ≤ k → ∀ (hk : k < proposedLockouts.length),
            proposedLockouts[k].slot < earliest → p - 1 = slotHashes.length :=
          fun k _ hk hold' => absurd hold' (Nat.not_lt.mpr (Nat.le_trans hle
            (Nat.le_of_lt (lockoutSlot_lt_of_lt hsorted (by omega) hk))))
        have hfound' : ∀ k, i + 1 ≤ k → ∀ (hk : k < proposedLockouts.length),
            earliest ≤ proposedLockouts[k].slot →
              ∃ q, ∃ hq : q < p - 1, slotHashes[q].1 = proposedLockouts[k].slot := by
          intro k hik hk hle'
          obtain ⟨q, hq, heq'⟩ := hfound k (by omega) hk hle'
          refine ⟨q, ?_, heq'⟩
          by_contra hge
          have hqp : q = p - 1 := by omega
          subst hqp
          rw [heq] at heq'
          exact absurd heq' (Nat.ne_of_lt (lockoutSlot_lt_of_lt hsorted (by omega) hk))
        have hbelow' : ∀ k, i + 1 ≤ k → ∀ (hk : k < proposedLockouts.length),
            earliest ≤ proposedLockouts[k].slot →
              ∀ q, p - 1 ≤ q → ∀ (hq : q < slotHashes.length),
                slotHashes[q].1 < proposedLockouts[k].slot := by
          intro k hik hk hle' q hq hq'
          rcases Nat.eq_or_lt_of_le hq with rfl | hq''
          · rw [heq]
            exact lockoutSlot_lt_of_lt hsorted (by omega) hk
          · exact hbelow k (by omega) hk hle' q (by omega) hq'
        obtain ⟨p', hrun, hptr⟩ :=
          ih _ (by omega) (i + 1) (p - 1) (by omega) F (by omega) hold' hfound' hbelow' rfl
        refine ⟨p', ?_, fun _ => ?_⟩
        · rw [hrun, droppedIndices_drop hi', dropsLockout_of_le hle]
          rfl
        · by_cases hi'' : i + 1 < proposedLockouts.length
          · exact hptr hi''
          · -- it was the last lockout: the loop stops at its entry
            rw [checkAndFilterLoop_stop (by omega)] at hrun
            simp only [Except.ok.injEq, Prod.mk.injEq] at hrun
            obtain ⟨-, -, rfl, -⟩ := hrun
            rw [List.getLast?_eq_getElem?, show proposedLockouts.length - 1 = i by omega,
              List.getElem?_eq_getElem hi', List.getElem?_eq_getElem (by omega), Option.map_some,
              Option.map_some, heq]
      · by_cases hk : earliest ≤ proposedLockouts[i].slot
        · -- not older than the history, yet older than an entry left before its own
          obtain ⟨q, hq, heq⟩ := hfound i (Nat.le_refl i) hi' hk
          have := hashSlot_le hhashes (show q ≤ p - 1 by omega) (by omega)
          rw [heq] at this
          exact absurd hgt (Nat.not_lt.mpr this)
        · -- older than the history: let through while no entry is passed
          have hpn := hold i (Nat.le_refl i) hi' (Nat.lt_of_not_le hk)
          subst hpn
          rw [checkAndFilterLoop_tooOld hi' hn hordered hgt (Nat.lt_of_not_le hk)]
          obtain ⟨p', hrun, hptr⟩ := ih _ (by omega) (i + 1) slotHashes.length hp _ (by omega)
            (fun k _ hk hold' => hold k (by omega) hk hold')
            (fun k hik hk hle => hfound k (by omega) hk hle)
            (fun k hik hk hle q hq hq' => hbelow k (by omega) hk hle q hq hq') rfl
          refine ⟨p', ?_, fun _ => ?_⟩
          · rw [hrun, droppedIndices_drop hi', append_marked_of_lt F _ (Nat.lt_of_not_le hk)]
          · -- the last lockout is not older than the history, so this one is not the last
            refine hptr ?_
            by_contra hi''
            have := hlast (by omega)
            simp only [show proposedLockouts.length - 1 = i by omega] at this
            exact hk this
    · -- no lockout is left
      have hieq : i = proposedLockouts.length := by omega
      subst hieq
      refine ⟨p, ?_, fun h => absurd h hi'⟩
      rw [checkAndFilterLoop_stop (by omega), droppedIndices_drop_length, List.append_nil]

/-- Looking for the root passes the entries older than it. -/
theorem checkAndFilterLoop_rootSearch {root : Slot} {i q : Nat} {F : List Nat}
    (hi : i < proposedLockouts.length) (hq : q < slotHashes.length)
    (holder : ∀ q', q < q' → ∀ (hq' : q' < slotHashes.length), slotHashes[q'].1 < root) :
    ∀ d p (hp : p ≤ slotHashes.length), p = q + 1 + d →
      checkAndFilterLoop vs proposedLockouts slotHashes earliest (some root) i p hp F =
        checkAndFilterLoop vs proposedLockouts slotHashes earliest (some root) i (q + 1) (by omega)
          F
  | 0, p, hp, hpd => by
    subst hpd
    rfl
  | d + 1, p, hp, hpd => by
    rw [checkAndFilterLoop_pass hi (by omega) (by simp) (holder (p - 1) (by omega) (by omega))]
    exact checkAndFilterLoop_rootSearch hi hq holder d (p - 1) (by omega) (by omega)

include hhashes hE in
/-- The loop from the start, with the root when there is one, reaches the end of lockouts that
increase, whose last is not older than the history, whose lockouts not older than it are in it,
when the root is in the history unless older than it, and no later than any lockout when newer
than the oldest entry. It marks the lockouts the check drops and stops at the entry of the last
lockout. -/
theorem checkAndFilterLoop_start_eq_ok {rootToCheck : Option Slot} (hn : 0 < slotHashes.length)
    (hm : 0 < proposedLockouts.length)
    (hsorted : (proposedLockouts.map (·.slot)).Pairwise (· < ·))
    (hlast : earliest ≤ proposedLockouts[proposedLockouts.length - 1].slot)
    (hfound : ∀ k (hk : k < proposedLockouts.length), earliest ≤ proposedLockouts[k].slot →
      ∃ q, ∃ hq : q < slotHashes.length, slotHashes[q].1 = proposedLockouts[k].slot)
    (hrootFound : ∀ root ∈ rootToCheck, earliest ≤ root →
      ∃ q, ∃ hq : q < slotHashes.length, slotHashes[q].1 = root)
    (hrootBelow : ∀ root ∈ rootToCheck, earliest < root →
      ∀ k (hk : k < proposedLockouts.length), root ≤ proposedLockouts[k].slot) :
    ∃ p', checkAndFilterLoop vs proposedLockouts slotHashes earliest rootToCheck 0
        slotHashes.length (Nat.le_refl _) [] =
          .ok (none, proposedLockouts.length, p', droppedIndices vs earliest proposedLockouts 0) ∧
      slotHashes[p']?.map (·.1) = proposedLockouts.getLast?.map (·.slot) := by
  -- once the root is checked, the lockouts are walked from the entries not yet passed
  have hlockouts : ∀ p hp,
      (∀ k (hk : k < proposedLockouts.length), proposedLockouts[k].slot < earliest →
        p = slotHashes.length) →
      (∀ k (hk : k < proposedLockouts.length), earliest ≤ proposedLockouts[k].slot →
        ∃ q, ∃ hq : q < p, slotHashes[q].1 = proposedLockouts[k].slot) →
      (∀ k (hk : k < proposedLockouts.length), earliest ≤ proposedLockouts[k].slot →
        ∀ q, p ≤ q → ∀ (hq : q < slotHashes.length), slotHashes[q].1 < proposedLockouts[k].slot) →
      ∃ p', checkAndFilterLoop vs proposedLockouts slotHashes earliest none 0 p hp [] =
          .ok (none, proposedLockouts.length, p', droppedIndices vs earliest proposedLockouts 0) ∧
        slotHashes[p']?.map (·.1) = proposedLockouts.getLast?.map (·.slot) := by
    intro p hp hold hfound' hbelow
    obtain ⟨p', hrun, hptr⟩ := checkAndFilterLoop_none_eq_ok hhashes hE hn hsorted (fun _ => hlast)
      0 p hp [] (Nat.zero_le _) (fun k _ => hold k) (fun k _ => hfound' k) (fun k _ => hbelow k)
    exact ⟨p', by rw [hrun, List.drop_zero, List.nil_append], hptr hm⟩
  -- from the start, no entry is passed
  have hfromStart := hlockouts slotHashes.length (Nat.le_refl _) (fun _ _ _ => rfl) hfound
    (fun _ _ _ q hq hq' => absurd hq' (by omega))
  cases rootToCheck with
  | none => exact hfromStart
  | some root =>
    rcases Nat.lt_trichotomy root earliest with hlt | heq | hgt
    · -- a root older than the history is let through
      rw [checkAndFilterLoop_rootTooOld hm hn (by rw [hE hn]; exact hlt) hlt]
      exact hfromStart
    · -- the root is the oldest entry
      rw [checkAndFilterLoop_rootFound hm hn (by rw [hE hn, heq])]
      exact hfromStart
    · -- a newer root is found past the entries older than it, and stays for the lockouts
      obtain ⟨q, hq, hroot⟩ := hrootFound root rfl (Nat.le_of_lt hgt)
      have hbelowRoot := hrootBelow root rfl hgt
      rw [checkAndFilterLoop_rootSearch hm hq
          (fun q' hqq' hq' => hroot ▸ hashSlot_lt hhashes hqq' hq') (slotHashes.length - q - 1)
          slotHashes.length (Nat.le_refl _) (by omega),
        checkAndFilterLoop_rootFound hm (by omega) hroot]
      refine hlockouts (q + 1) _ (fun k hk hold => ?_) (fun k hk hle => ?_)
        (fun k hk hle q' hq' hq'' => ?_)
      · exact absurd hold (Nat.not_lt.mpr (Nat.le_trans (Nat.le_of_lt hgt) (hbelowRoot k hk)))
      · -- a lockout is no older than the root, so its entry is not after the root's
        obtain ⟨q', hq', heq'⟩ := hfound k hk hle
        refine ⟨q', ?_, heq'⟩
        by_contra hge
        have := hashSlot_lt hhashes (show q < q' by omega) hq'
        rw [hroot, heq'] at this
        exact absurd (hbelowRoot k hk) (Nat.not_le.mpr this)
      · have := hashSlot_lt hhashes (show q < q' by omega) hq''
        rw [hroot] at this
        exact Nat.lt_of_lt_of_le this (hbelowRoot k hk)

omit hhashes hE in
theorem le_of_mem_droppedIndices {rest : List Lockout} {start k : Nat}
    (h : k ∈ droppedIndices vs earliest rest start) : start ≤ k := by
  obtain ⟨⟨lockout, k'⟩, hmem, hk⟩ := List.mem_filterMap.mp h
  split at hk
  · cases hk
    exact (List.mem_zipIdx hmem).1
  · cases hk

omit hhashes hE in
/-- The `retain` keeps the lockouts the check does not drop, when the indices it is given from
`filterVotesIndex` on are those of the lockouts the check drops. -/
theorem retainLockouts_eq (F : List Nat) : ∀ (rest : List Lockout) (idx fvi : Nat),
    F.drop fvi = droppedIndices vs earliest rest idx →
      retainLockouts F rest idx fvi = rest.filter fun l => !dropsLockout vs earliest l
  | [], _, _, _ => rfl
  | lockout :: rest, idx, fvi, h => by
    have hcons : droppedIndices vs earliest (lockout :: rest) idx =
        (if dropsLockout vs earliest lockout then [idx] else []) ++
          droppedIndices vs earliest rest (idx + 1) := by
      unfold droppedIndices
      rw [List.zipIdx_cons, List.filterMap_cons]
      by_cases hd : dropsLockout vs earliest lockout <;> simp [hd]
    rw [hcons] at h
    unfold retainLockouts
    by_cases hlt : fvi < F.length
    · rw [List.drop_eq_getElem_cons hlt] at h
      rw [if_neg (Nat.ne_of_lt hlt)]
      by_cases hidx : F[fvi] = idx
      · -- the index marked is this lockout's: it is dropped
        rw [if_pos (by rw [List.getElem?_eq_getElem hlt, hidx])]
        by_cases hd : dropsLockout vs earliest lockout
        · rw [if_pos hd, List.singleton_append, List.cons.injEq] at h
          rw [List.filter_cons_of_neg (by simp [hd])]
          exact retainLockouts_eq F rest (idx + 1) (fvi + 1) h.2
        · -- a kept lockout's index is not marked: the marks after it are later
          rw [if_neg hd, List.nil_append] at h
          have := le_of_mem_droppedIndices (h ▸ List.mem_cons_self : F[fvi] ∈ _)
          omega
      · rw [if_neg (by rw [List.getElem?_eq_getElem hlt]; exact fun h' => hidx (Option.some_inj.mp h'))]
        by_cases hd : dropsLockout vs earliest lockout
        · rw [if_pos hd, List.singleton_append, List.cons.injEq] at h
          exact absurd h.1 hidx
        · rw [if_neg hd, List.nil_append, ← List.drop_eq_getElem_cons hlt] at h
          rw [List.filter_cons_of_pos (by simp [hd])]
          exact congrArg (lockout :: ·) (retainLockouts_eq F rest (idx + 1) fvi h)
    · -- no marks are left: every lockout stays
      rw [List.drop_eq_nil_of_le (by omega)] at h
      have hd : dropsLockout vs earliest lockout = false := by
        by_contra hd
        rw [if_pos (by simpa using hd)] at h
        cases h
      rw [if_neg (by simp [hd]), List.nil_append] at h
      have hnone : F[fvi]? ≠ some idx := by rw [List.getElem?_eq_none (by omega)]; simp
      rw [List.filter_cons_of_pos (by simp [hd])]
      by_cases hend : fvi = F.length
      · rw [if_pos hend]
        exact congrArg (lockout :: ·) (retainLockouts_eq F rest (idx + 1) fvi
          (by rw [List.drop_eq_nil_of_le (by omega)]; exact h))
      · rw [if_neg hend, if_neg hnone]
        exact congrArg (lockout :: ·) (retainLockouts_eq F rest (idx + 1) fvi
          (by rw [List.drop_eq_nil_of_le (by omega)]; exact h))

end Sound

/-- The vote that replaces an old root is the latest one no later than it. -/
theorem find?_reverse_map_slot (votes : List LandedVote) (root : Slot) :
    (votes.reverse.find? (·.slot ≤ root)).map (·.slot) =
      ((votes.map (·.slot)).filter (· ≤ root)).getLast? := by
  rw [← List.head?_filter, List.filter_reverse, List.head?_reverse, ← List.getLast?_map,
    List.filter_map]
  rfl

/-! ## What the check accepts

The source's loop stops at the first slot it cannot place, so besides what the slots must be on
their own it asks one thing of the proposed root and the lockouts together: a root newer than the
oldest entry of the history is found at its entry and the lockouts are looked for from there, so
none of them may be older than the root. -/

/-- The root the check goes on with: one older than the history becomes the latest vote slot not
after it, or the vote state's root when there is none. -/
theorem rewriteProposedRoot_eq (vs : VoteState) (proposedRoot : Option Slot) (earliest : Slot) :
    rewriteProposedRoot vs proposedRoot earliest = proposedRoot.bind fun r =>
      if earliest ≤ r then some r
      else (((vs.votes.map (·.slot)).filter (· ≤ r)).getLast?).or vs.rootSlot := by
  cases proposedRoot with
  | none => rfl
  | some r =>
    simp only [rewriteProposedRoot, Option.bind_some]
    by_cases hr : r < earliest
    · rw [if_pos hr, if_neg (Nat.not_le.mpr hr), find?_reverse_map_slot]
    · rw [if_neg hr, if_pos (Nat.le_of_not_lt hr)]

theorem getElem_last_fst_of_getLast? {slotHashes : List (Slot × Hash)} {earliest : Slot}
    {h0 : Hash} (hH : slotHashes.getLast? = some (earliest, h0)) (hn : 0 < slotHashes.length) :
    (GetElem.getElem slotHashes (slotHashes.length - 1) (Nat.sub_one_lt_of_lt hn)).1 = earliest := by
  rw [List.getLast?_eq_getElem?, List.getElem?_eq_getElem (by omega), Option.some_inj] at hH
  rw [hH]

/-- The check goes through exactly when it passes each early test, its loop reaches the end of the
lockouts, and the entry the loop stopped at holds the last proposed slot with the proposed hash. -/
theorem checkAndFilterProposedVoteState_eq_ok {vs : VoteState} {proposedLockouts : List Lockout}
    {proposedRoot : Option Slot} {proposedHash : Hash} {slotHashes : List (Slot × Hash)}
    {lockouts : List Lockout} {root : Option Slot} :
    checkAndFilterProposedVoteState vs proposedLockouts proposedRoot proposedHash slotHashes =
        some (.ok (lockouts, root)) ↔
      ∃ lastLockout earliest h0 rt p F, proposedLockouts.getLast? = some lastLockout ∧
        ¬vs.lastVotedSlot.any (lastLockout.slot ≤ ·) ∧
        slotHashes.getLast? = some (earliest, h0) ∧ ¬lastLockout.slot < earliest ∧
        checkAndFilterLoop vs proposedLockouts slotHashes earliest
          (rewriteProposedRoot vs proposedRoot earliest) 0 slotHashes.length (Nat.le_refl _) [] =
            .ok (rt, proposedLockouts.length, p, F) ∧
        slotHashes[p]? = some (lastLockout.slot, proposedHash) ∧
        lockouts = retainLockouts F proposedLockouts 0 0 ∧
        root = rewriteProposedRoot vs proposedRoot earliest := by
  unfold checkAndFilterProposedVoteState
  constructor
  · -- every test on the way out of the function fails but the last
    intro h
    split at h
    · cases h
    rename_i lastLockout hlastL
    dsimp only at h
    split at h
    · cases h
    rename_i hvote
    split at h
    · cases h
    rename_i earliest h0 hH
    split at h
    · cases h
    rename_i hold
    split at h
    · cases h
    rename_i rt idx p F hrun
    split at h
    · cases h
    rename_i hidx
    split at h
    · cases h
    rename_i slot hash hget
    split at h
    · cases h
    rename_i hs
    split at h
    · cases h
    rename_i hh
    simp only [Option.some.injEq, Except.ok.injEq, Prod.mk.injEq] at h
    obtain ⟨rfl, rfl⟩ := h
    simp only [ne_eq, not_not] at hidx hs hh
    subst hidx hs hh
    exact ⟨lastLockout, earliest, h0, rt, p, F, hlastL, hvote, hH, hold, hrun, hget, rfl, rfl⟩
  · rintro ⟨lastLockout, earliest, h0, rt, p, F, hlastL, hvote, hH, hold, hrun, hget, rfl, rfl⟩
    rw [hlastL]
    dsimp only
    rw [if_neg hvote, hH]
    dsimp only
    rw [if_neg hold, hrun]
    dsimp only
    rw [if_neg (not_not.mpr rfl), hget]
    dsimp only
    rw [if_neg (not_not.mpr rfl), if_neg (not_not.mpr rfl)]

theorem mem_map_iff_getElem {α β : Type} {f : α → β} {l : List α} {b : β} :
    b ∈ l.map f ↔ ∃ k, ∃ hk : k < l.length, f l[k] = b := by
  rw [List.mem_map]
  constructor
  · rintro ⟨a, ha, rfl⟩
    obtain ⟨k, hk, rfl⟩ := List.getElem_of_mem ha
    exact ⟨k, hk, rfl⟩
  · rintro ⟨k, hk, rfl⟩
    exact ⟨l[k], List.getElem_mem hk, rfl⟩

/-- Lockouts whose slots go up at each step have increasing slots. -/
theorem pairwise_slot_of_ordered {proposedLockouts : List Lockout}
    (h : ∀ k, 0 < k → ∀ (hk : k < proposedLockouts.length),
      proposedLockouts[k - 1].slot < proposedLockouts[k].slot) :
    (proposedLockouts.map (·.slot)).Pairwise (· < ·) := by
  refine List.isChain_iff_pairwise.mp (List.isChain_iff_getElem.mpr fun j hj => ?_)
  have := h (j + 1) (Nat.succ_pos j) (by simpa using hj)
  simpa using this

theorem length_pos_of_getLast? {α : Type} {l : List α} {a : α} (h : l.getLast? = some a) :
    0 < l.length :=
  List.length_pos_iff.mpr fun hnil => by rw [hnil] at h; cases h

/-- `check_and_filter_proposed_vote_state` against a history whose slots decrease: it accepts
exactly lockouts that increase, whose last slot is newer than the last vote and is in the history
with the proposed hash, whose slots not older than the history are in it, with a root (the
rewritten one, when the proposed one is older than the history) that is in the history unless older
than it and, when newer than the oldest entry, no later than any lockout. It then keeps the lockouts
but those older than the history that the vote state does not have, and the rewritten root. -/
theorem check_and_filter_proposed_vote_state_spec (vs : VoteState)
    (proposedLockouts : List Lockout) (proposedRoot : Option Slot) (proposedHash : Hash)
    (slotHashes : List (Slot × Hash)) (hhashes : slotHashes.Pairwise (fun a b => b.1 < a.1))
    (lockouts : List Lockout) (root : Option Slot) :
    let earliest := (slotHashes.getLast?.map (·.1)).getD 0
    let newRoot := proposedRoot.bind fun r =>
      if earliest ≤ r then some r
      else (((vs.votes.map (·.slot)).filter (· ≤ r)).getLast?).or vs.rootSlot
    checkAndFilterProposedVoteState vs proposedLockouts proposedRoot proposedHash slotHashes =
        some (.ok (lockouts, root)) ↔
      (proposedLockouts.map (·.slot)).Pairwise (· < ·) ∧
      (∃ last, (proposedLockouts.map (·.slot)).getLast? = some last ∧
        vs.lastVotedSlot.all (· < last) ∧ (last, proposedHash) ∈ slotHashes) ∧
      (∀ s ∈ proposedLockouts.map (·.slot), earliest ≤ s → s ∈ slotHashes.map (·.1)) ∧
      (∀ r ∈ newRoot, earliest ≤ r → r ∈ slotHashes.map (·.1)) ∧
      (∀ r ∈ newRoot, earliest < r → ∀ s ∈ proposedLockouts.map (·.slot), r ≤ s) ∧
      lockouts = proposedLockouts.filter (fun l => !dropsLockout vs earliest l) ∧
      root = newRoot := by
  intro earliest newRoot
  rw [checkAndFilterProposedVoteState_eq_ok]
  rcases hH : slotHashes.getLast? with _ | ⟨e, h0⟩
  · -- without a history nothing is accepted
    refine iff_of_false (fun ⟨_, _, _, _, _, _, _, _, h, _⟩ => by cases h) ?_
    rintro ⟨-, ⟨last, -, -, hmem⟩, -⟩
    rw [List.getLast?_eq_none_iff.mp hH] at hmem
    cases hmem
  have hE := getElem_last_fst_of_getLast? hH
  have hearliest : earliest = e := by simp only [earliest, hH, Option.map_some, Option.getD_some]
  have hroot : rewriteProposedRoot vs proposedRoot e = newRoot := by
    rw [rewriteProposedRoot_eq]
    simp only [newRoot, hearliest]
  rw [hearliest]
  constructor
  · -- what the loop's run to the end says of the lockouts and the root
    rintro ⟨lastLockout, _, _, rt, p, F, hlastL, hvote, ⟨⟩, -, hrun, hget, rfl, rfl⟩
    rw [hroot] at hrun
    have hm := length_pos_of_getLast? hlastL
    have hr : (rt, proposedLockouts.length, p, F).2.1 = proposedLockouts.length := rfl
    have hordered := checkAndFilterLoop_ordered_of_ok hr _ _ _ _ _ hrun
    obtain ⟨hfound, -⟩ := checkAndFilterLoop_found_of_ok hhashes hE hr _ _ _ _ _ hrun
    have hrootFacts := checkAndFilterLoop_root_of_ok hhashes hE hr _ _ _ _ _ hrun
    have hfilter := checkAndFilterLoop_filter_of_ok hhashes hE hr _ _ _ _ _ hrun
    refine ⟨pairwise_slot_of_ordered fun k hk => hordered k (Nat.zero_le k) hk,
      ⟨lastLockout.slot, by rw [List.getLast?_map, hlastL]; rfl, ?_, List.mem_of_getElem? hget⟩,
      fun s hs hle => ?_, fun r hr' hle => ?_, fun r hr' hlt s hs => ?_,
      retainLockouts_eq F proposedLockouts 0 0 (by rw [List.drop_zero]; exact hfilter), hroot⟩
    · rw [any_le_iff_not_all_lt, not_not] at hvote
      exact hvote
    · obtain ⟨k, hk, rfl⟩ := mem_map_iff_getElem.mp hs
      obtain ⟨q, hq, heq⟩ := hfound k (Nat.zero_le k) hk hle
      exact mem_map_iff_getElem.mpr ⟨q, by omega, heq⟩
    · obtain ⟨q, hq, heq⟩ := (hrootFacts r hr' hm).1 hle
      exact mem_map_iff_getElem.mpr ⟨q, by omega, heq⟩
    · obtain ⟨k, hk, rfl⟩ := mem_map_iff_getElem.mp hs
      exact (hrootFacts r hr' hm).2 hlt k (Nat.zero_le k) hk
  · -- the conditions walk the loop to the last lockout's entry
    rintro ⟨hsorted, ⟨last, hlast, hnew, hmem⟩, hfound, hrootFound, hrootBelow, rfl, rfl⟩
    rw [List.getLast?_map] at hlast
    obtain ⟨lastLockout, hlastL, rfl⟩ := Option.map_eq_some_iff.mp hlast
    have hn : 0 < slotHashes.length := List.length_pos_of_mem hmem
    have hm := length_pos_of_getLast? hlastL
    have hlastIdx : proposedLockouts[proposedLockouts.length - 1] = lastLockout := by
      rw [List.getLast?_eq_getElem?, List.getElem?_eq_getElem (by omega), Option.some_inj] at hlastL
      exact hlastL
    -- the last slot is in the history, so it is not older than it
    have hold : e ≤ lastLockout.slot := by
      obtain ⟨q, hq, hentry⟩ := List.getElem_of_mem hmem
      have := earliest_le hhashes hE hq
      rw [hentry] at this
      exact this
    obtain ⟨p', hrun, hptr⟩ := checkAndFilterLoop_start_eq_ok hhashes hE hn hm hsorted
      (by rw [hlastIdx]; exact hold)
      (fun k hk hle => mem_map_iff_getElem.mp (hfound _ (List.mem_map_of_mem (List.getElem_mem hk)) hle))
      (fun r hr' hle => mem_map_iff_getElem.mp (hrootFound r hr' hle))
      (fun r hr' hlt k hk => hrootBelow r hr' hlt _ (List.mem_map_of_mem (List.getElem_mem hk)))
    -- the entry the loop stopped at holds the last slot, with the proposed hash
    rw [hlastL, Option.map_some] at hptr
    obtain ⟨⟨slot, hash⟩, hget, hslot⟩ := Option.map_eq_some_iff.mp hptr
    simp only at hslot
    subst hslot
    have hhash : proposedHash = hash := (mem_iff_eq_of_getElem? hhashes hget proposedHash).mp hmem
    subst hhash
    exact ⟨lastLockout, e, h0, none, p', _, hlastL, fun h => (any_le_iff_not_all_lt _ _).mp h hnew,
      rfl, Nat.not_lt.mpr hold, by rw [hroot]; exact hrun, hget,
      (retainLockouts_eq _ proposedLockouts 0 0 rfl).symm, hroot.symm⟩

/-- Against the history 5, 4 the proposed lockouts 3 and 5 go through: 3 is older than the history
and not in the vote state, so it is dropped. -/
theorem check_and_filter_proposed_vote_state_spec_older_slot :
    let slotHashes : List (Slot × Hash) := [(5, default), (4, default)]
    slotHashes.Pairwise (fun a b => b.1 < a.1) ∧
      checkAndFilterProposedVoteState ⟨[], none, []⟩ [⟨3, 2⟩, ⟨5, 1⟩] none default slotHashes =
        some (.ok ([⟨5, 1⟩], none)) := by
  intro slotHashes
  have hhashes : slotHashes.Pairwise (fun a b => b.1 < a.1) := by decide
  refine ⟨hhashes, (check_and_filter_proposed_vote_state_spec ⟨[], none, []⟩ [⟨3, 2⟩, ⟨5, 1⟩]
    none default slotHashes hhashes _ _).mpr ⟨by decide, ⟨5, rfl, rfl, by decide⟩, by decide,
    by decide, by decide, ?_, rfl⟩⟩
  simp +decide [slotHashes, dropsLockout, VoteState.containsSlot, binarySearchBy,
    binarySearchByLoop]

/-- The slots and the root on their own are not enough: against the history 20, 10, 5 the lockouts
5 and 20 with the root 10 have every slot, and the root, in the history, the last with the proposed
hash, yet the loop finds the root at 10 and looks for 5 only below it, and fails. -/
theorem check_and_filter_proposed_vote_state_root_after_lockout :
    let vs : VoteState := ⟨[], none, []⟩
    let proposedLockouts : List Lockout := [⟨5, 2⟩, ⟨20, 1⟩]
    let slotHashes : List (Slot × Hash) := [(20, default), (10, default), (5, default)]
    slotHashes.Pairwise (fun a b => b.1 < a.1) ∧
      (proposedLockouts.map (·.slot)).Pairwise (· < ·) ∧
      vs.lastVotedSlot.all (· < 20) ∧ (20, default) ∈ slotHashes ∧
      (∀ s ∈ proposedLockouts.map (·.slot), s ∈ slotHashes.map (·.1)) ∧
      10 ∈ slotHashes.map (·.1) ∧
      checkAndFilterProposedVoteState vs proposedLockouts (some 10) default slotHashes =
        some (.error .slotsMismatch) := by
  intro vs proposedLockouts slotHashes
  refine ⟨by decide, by decide, by decide, by decide, by decide, by decide, ?_⟩
  simp +decide [vs, proposedLockouts, slotHashes, checkAndFilterProposedVoteState,
    rewriteProposedRoot, checkAndFilterLoop]

end Agave.Vote
