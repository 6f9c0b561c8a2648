import Agave.Sdk.Basic

/-!
# The vote state and its slot-by-slot update

`sdk/program/src/vote/state/mod.rs`: a validator's tower of votes is a stack of lockouts,
oldest first, with the root below it. A vote for a new slot (`process_next_vote_slot`) pops the
lockouts that have expired at that slot, pushes the new vote, moves the oldest lockout into the
root once the stack holds `MAX_LOCKOUT_HISTORY` of them, and doubles the lockout of every vote
that has seen enough confirmations (`double_lockouts`). The credits that the rooted vote earns
go into `epoch_credits` (`increment_credits`).

The stack is a list whose back is the list's last element. `pop_expired_votes` pops from the
back while the back lockout has expired: that is `List.rdropWhile`, whose dropped part
(`rtakeWhile`) is then exactly the expired votes.
-/

namespace Agave.Vote

-- `Slot` and `Epoch` are `u64`
abbrev Slot := Nat
abbrev Epoch := Nat

def MAX_LOCKOUT_HISTORY : Nat := 31
def INITIAL_LOCKOUT : Nat := 2
def MAX_EPOCH_CREDITS_HISTORY : Nat := 64
def VOTE_CREDITS_GRACE_SLOTS : Nat := 2
def VOTE_CREDITS_MAXIMUM_PER_SLOT : Nat := 16

/-- `Lockout`: a voted slot and how many confirmations it has seen. -/
structure Lockout where
  slot : Slot
  confirmationCount : Nat
  deriving DecidableEq, Repr

namespace Lockout

/-- `Lockout::new`: one confirmation. -/
def new (slot : Slot) : Lockout := ⟨slot, 1⟩

/-- `lockout`: `(INITIAL_LOCKOUT as u64).pow(confirmation_count)`, which wraps past `u64`. -/
def lockout (l : Lockout) : Nat := INITIAL_LOCKOUT ^ l.confirmationCount % 2 ^ 64

/-- `last_locked_out_slot`: the last slot of another fork the vote still forbids. -/
def lastLockedOutSlot (l : Lockout) : Slot := saturatingAdd U64_MAX l.slot l.lockout

/-- `is_locked_out_at_slot`. -/
def isLockedOutAtSlot (l : Lockout) (slot : Slot) : Bool := slot ≤ l.lastLockedOutSlot

/-- `increase_confirmation_count`, saturating at `u32::MAX`. -/
def increaseConfirmationCount (l : Lockout) (by_ : Nat) : Lockout :=
  { l with confirmationCount := saturatingAdd U32_MAX l.confirmationCount by_ }

/-- Below 64 confirmations the power does not wrap. -/
theorem lockout_eq_pow {l : Lockout} (h : l.confirmationCount < 64) :
    l.lockout = 2 ^ l.confirmationCount :=
  Nat.mod_eq_of_lt (Nat.pow_lt_pow_right (by decide) h)

/-- More confirmations lock a vote out for longer, as long as the power does not wrap. -/
theorem lastLockedOutSlot_le_of_confirmationCount_le {l l' : Lockout} (hslot : l.slot = l'.slot)
    (hle : l.confirmationCount ≤ l'.confirmationCount) (hlt : l'.confirmationCount < 64) :
    l.lastLockedOutSlot ≤ l'.lastLockedOutSlot := by
  have hpow : l.lockout ≤ l'.lockout := by
    rw [lockout_eq_pow (by omega), lockout_eq_pow hlt]
    exact Nat.pow_le_pow_right (by decide) hle
  unfold lastLockedOutSlot
  rw [hslot]
  exact saturatingAdd_le_saturatingAdd_right hpow

end Lockout

/-- `LandedVote`: a lockout with the latency of the vote that added it. -/
structure LandedVote where
  latency : Nat
  lockout : Lockout
  deriving DecidableEq, Repr

namespace LandedVote

/-- `LandedVote::slot`. -/
def slot (v : LandedVote) : Slot := v.lockout.slot

/-- `LandedVote::confirmation_count`. -/
def confirmationCount (v : LandedVote) : Nat := v.lockout.confirmationCount

/-- `From<Lockout> for LandedVote`: no latency recorded. -/
def ofLockout (l : Lockout) : LandedVote := ⟨0, l⟩

end LandedVote

/-- The fields of `VoteState` that the modelled functions read and write. -/
structure VoteState where
  votes : List LandedVote
  rootSlot : Option Slot
  epochCredits : List (Epoch × Nat × Nat)
  deriving DecidableEq, Repr

namespace VoteState

/-- `last_lockout`. -/
def lastLockout (vs : VoteState) : Option Lockout := vs.votes.getLast?.map (·.lockout)

/-- `last_voted_slot`. -/
def lastVotedSlot (vs : VoteState) : Option Slot := vs.lastLockout.map (·.slot)

/-- `current_epoch`: the epoch of the last `epoch_credits` entry. -/
def currentEpoch (vs : VoteState) : Epoch := (vs.epochCredits.getLast?.map (·.1)).getD 0

theorem lastVotedSlot_eq (vs : VoteState) : vs.lastVotedSlot = vs.votes.getLast?.map (·.slot) := by
  unfold lastVotedSlot lastLockout
  cases vs.votes.getLast? <;> rfl

end VoteState

/-- `compute_vote_latency`: slots between the vote's slot and the slot it landed in, capped at
`u8::MAX`. -/
def computeVoteLatency (votedForSlot currentSlot : Slot) : Nat :=
  min (currentSlot - votedForSlot) 255

/-- `credits_for_vote_at_index`: the credits a vote earns when it is rooted, from its latency. -/
def creditsForVoteAtIndex (votes : List LandedVote) (index : Nat) (timelyVoteCredits : Bool) :
    Nat :=
  let latency := (votes[index]?.map (·.latency)).getD 0
  if latency = 0 ∨ !timelyVoteCredits then 1
  else if latency ≤ VOTE_CREDITS_GRACE_SLOTS then VOTE_CREDITS_MAXIMUM_PER_SLOT
  else
    let diff := latency - VOTE_CREDITS_GRACE_SLOTS
    if VOTE_CREDITS_MAXIMUM_PER_SLOT ≤ diff then 1 else VOTE_CREDITS_MAXIMUM_PER_SLOT - diff

/-- `increment_credits`: open an entry for a new epoch (or move the current one when it earned
nothing), drop the oldest past `MAX_EPOCH_CREDITS_HISTORY`, then add the credits. -/
def incrementCredits (epochCredits : List (Epoch × Nat × Nat)) (epoch : Epoch) (credits : Nat) :
    List (Epoch × Nat × Nat) :=
  let epochCredits :=
    match epochCredits.getLast? with
    | none => [(epoch, 0, 0)]
    | some (lastEpoch, lastCredits, prevCredits) =>
      if epoch ≠ lastEpoch then
        let moved :=
          if lastCredits ≠ prevCredits then epochCredits ++ [(epoch, lastCredits, lastCredits)]
          else epochCredits.dropLast ++ [(epoch, lastCredits, prevCredits)]
        if moved.length > MAX_EPOCH_CREDITS_HISTORY then moved.tail else moved
      else epochCredits
  epochCredits.modifyLast fun (e, c, p) => (e, saturatingAdd U64_MAX c credits, p)

/-- `pop_expired_votes`: pop from the back while the back vote is no longer locked out. -/
def popExpiredVotes (votes : List LandedVote) (nextVoteSlot : Slot) : List LandedVote :=
  votes.rdropWhile fun v => !v.lockout.isLockedOutAtSlot nextVoteSlot

/-- The body of the loop in `double_lockouts`: the vote at depth `i` of a stack `stackDepth` deep
gains a confirmation once the stack has grown past `i + confirmation_count`. -/
def doubleLockoutAt (stackDepth i : Nat) (v : LandedVote) : LandedVote :=
  if stackDepth > i + v.confirmationCount then
    { v with lockout := v.lockout.increaseConfirmationCount 1 }
  else v

/-- `double_lockouts`. -/
def doubleLockouts (votes : List LandedVote) : List LandedVote :=
  let stackDepth := votes.length
  votes.mapIdx (doubleLockoutAt stackDepth)

theorem popExpiredVotes_isPrefix (votes : List LandedVote) (nextVoteSlot : Slot) :
    popExpiredVotes votes nextVoteSlot <+: votes :=
  List.rdropWhile_prefix _ _

/-- The vote left on top by `pop_expired_votes` is still locked out at the new slot. -/
theorem le_lastLockedOutSlot_of_popExpiredVotes {votes : List LandedVote} {nextVoteSlot : Slot}
    {top : LandedVote} (h : top ∈ (popExpiredVotes votes nextVoteSlot).getLast?) :
    nextVoteSlot ≤ top.lockout.lastLockedOutSlot := by
  obtain ⟨hne, rfl⟩ := List.mem_getLast?_eq_getLast h
  have hnot := List.rdropWhile_last_not _ _ hne
  by_contra hlt
  apply hnot
  simp only [Lockout.isLockedOutAtSlot, Bool.not_eq_true']
  exact decide_eq_false hlt

@[simp] theorem doubleLockoutAt_slot (stackDepth i : Nat) (v : LandedVote) :
    (doubleLockoutAt stackDepth i v).slot = v.slot := by
  unfold doubleLockoutAt
  split <;> rfl

theorem doubleLockoutAt_confirmationCount {v : LandedVote} (stackDepth i : Nat)
    (hc : v.confirmationCount < U32_MAX) :
    (doubleLockoutAt stackDepth i v).confirmationCount =
      if stackDepth > i + v.confirmationCount then v.confirmationCount + 1
      else v.confirmationCount := by
  unfold doubleLockoutAt
  split
  · exact saturatingAdd_of_le hc
  · rfl

theorem doubleLockoutAt_of_le {v : LandedVote} {stackDepth i : Nat}
    (h : stackDepth ≤ i + v.confirmationCount) : doubleLockoutAt stackDepth i v = v :=
  if_neg (Nat.not_lt.mpr h)

/-- Doubling never shortens a lockout, as long as the power does not wrap. -/
theorem lastLockedOutSlot_le_doubleLockoutAt {v : LandedVote} (stackDepth i : Nat)
    (hc : v.confirmationCount < 63) :
    v.lockout.lastLockedOutSlot ≤ (doubleLockoutAt stackDepth i v).lockout.lastLockedOutSlot := by
  have hcount := doubleLockoutAt_confirmationCount stackDepth i
    (show v.confirmationCount < U32_MAX by unfold U32_MAX; omega)
  apply Lockout.lastLockedOutSlot_le_of_confirmationCount_le (doubleLockoutAt_slot _ _ _).symm
  · change v.confirmationCount ≤ (doubleLockoutAt stackDepth i v).confirmationCount
    split at hcount <;> omega
  · change (doubleLockoutAt stackDepth i v).confirmationCount < 64
    split at hcount <;> omega

@[simp] theorem length_doubleLockouts (votes : List LandedVote) :
    (doubleLockouts votes).length = votes.length := List.length_mapIdx

@[simp] theorem map_slot_doubleLockouts (votes : List LandedVote) :
    (doubleLockouts votes).map (·.slot) = votes.map (·.slot) := by
  apply List.ext_getElem (by simp)
  intro i _ _
  simp [doubleLockouts]

/-- Doubling a stack with a vote pushed on top: the stack below is doubled at the new depth. -/
theorem doubleLockouts_append_singleton (votes : List LandedVote) (v : LandedVote) :
    doubleLockouts (votes ++ [v]) =
      votes.mapIdx (doubleLockoutAt (votes.length + 1)) ++
        [doubleLockoutAt (votes.length + 1) votes.length v] := by
  simp [doubleLockouts, List.mapIdx_append]

/-- A vote that `pop_expired_votes` pops had expired at the new slot. -/
theorem lastLockedOutSlot_lt_of_not_mem_popExpiredVotes {votes : List LandedVote}
    {nextVoteSlot : Slot} {v : LandedVote} (hv : v ∈ votes)
    (hpop : v ∉ popExpiredVotes votes nextVoteSlot) :
    v.lockout.lastLockedOutSlot < nextVoteSlot := by
  have hsplit : popExpiredVotes votes nextVoteSlot ++
      votes.rtakeWhile (fun v => !v.lockout.isLockedOutAtSlot nextVoteSlot) = votes :=
    List.rdropWhile_append_rtakeWhile
  rw [← hsplit] at hv
  rcases List.mem_append.mp hv with hv | hv
  · exact absurd hv hpop
  · have hexp := List.mem_rtakeWhile_imp hv
    simp only [Lockout.isLockedOutAtSlot, Bool.not_eq_true', decide_eq_false_iff_not,
      Nat.not_le] at hexp
    exact hexp

/-- A vote of the stack below the pushed one keeps its slot after `double_lockouts`. -/
theorem exists_slot_eq_of_mem_doubleLockouts {votes : List LandedVote} {v w : LandedVote}
    (hw : w ∈ votes) : ∃ w' ∈ doubleLockouts (votes ++ [v]), w'.slot = w.slot := by
  have hmem : w.slot ∈ (doubleLockouts (votes ++ [v])).map (·.slot) := by
    rw [map_slot_doubleLockouts]
    exact List.mem_map_of_mem (List.mem_append_left _ hw)
  obtain ⟨w', hw', hslot⟩ := List.mem_map.mp hmem
  exact ⟨w', hw', hslot⟩

/-- The pushed vote ends up on top of the doubled stack. -/
theorem getLast?_doubleLockouts_append_singleton (votes : List LandedVote) (v : LandedVote) :
    (doubleLockouts (votes ++ [v])).getLast?.map (·.slot) = some v.slot := by
  rw [doubleLockouts_append_singleton, List.getLast?_concat]
  simp

/-- The arguments of one `process_next_vote_slot` call. -/
structure SlotVote where
  slot : Slot
  epoch : Epoch
  currentSlot : Slot
  timelyVoteCredits : Bool
  deriving DecidableEq, Repr

namespace VoteState

/-- `process_next_vote_slot`. -/
def processNextVoteSlot (vs : VoteState) (nextVoteSlot : Slot) (epoch : Epoch)
    (currentSlot : Slot) (timelyVoteCredits : Bool) : VoteState :=
  -- Ignore votes for slots earlier than we already have votes for
  if vs.lastVotedSlot.any (nextVoteSlot ≤ ·) then vs
  else
    let votes := popExpiredVotes vs.votes nextVoteSlot
    let landedVote : LandedVote :=
      { latency := if timelyVoteCredits then computeVoteLatency nextVoteSlot currentSlot else 0,
        lockout := Lockout.new nextVoteSlot }
    -- Once the stack is full, pop the oldest lockout and distribute rewards
    let popped : VoteState :=
      if votes.length = MAX_LOCKOUT_HISTORY then
        match votes with
        | oldest :: rest =>
          { votes := rest, rootSlot := some oldest.slot,
            epochCredits := incrementCredits vs.epochCredits epoch
              (creditsForVoteAtIndex votes 0 timelyVoteCredits) }
        -- unreachable: a full stack is not empty
        | [] => { vs with votes := [] }
      else { vs with votes := votes }
    { popped with votes := doubleLockouts (popped.votes ++ [landedVote]) }

/-- The three things `process_next_vote_slot` can do: ignore a slot no later than the last
vote; push a vote for it on the votes still locked out there; or, when those fill the stack,
first move the oldest of them into the root. -/
theorem processNextVoteSlot_cases (vs : VoteState) (slot : Slot) (epoch : Epoch)
    (currentSlot : Slot) (timely : Bool) :
    (vs.lastVotedSlot.any (slot ≤ ·) ∧ vs.processNextVoteSlot slot epoch currentSlot timely = vs) ∨
    (vs.lastVotedSlot.all (· < slot) ∧ ∃ latency,
      ((popExpiredVotes vs.votes slot).length ≠ MAX_LOCKOUT_HISTORY ∧
        vs.processNextVoteSlot slot epoch currentSlot timely =
          { vs with votes := doubleLockouts (popExpiredVotes vs.votes slot ++
              [⟨latency, Lockout.new slot⟩]) }) ∨
      (∃ oldest rest credits, popExpiredVotes vs.votes slot = oldest :: rest ∧
        rest.length + 1 = MAX_LOCKOUT_HISTORY ∧
        vs.processNextVoteSlot slot epoch currentSlot timely =
          ⟨doubleLockouts (rest ++ [⟨latency, Lockout.new slot⟩]), some oldest.slot, credits⟩)) := by
  unfold processNextVoteSlot
  by_cases hign : vs.lastVotedSlot.any (slot ≤ ·)
  · exact .inl ⟨hign, if_pos hign⟩
  refine .inr ⟨?_, if timely then computeVoteLatency slot currentSlot else 0, ?_⟩
  · cases h : vs.lastVotedSlot <;> simp_all
  simp only [if_neg hign]
  split
  · rename_i hfull
    split
    · rename_i oldest rest heq
      simp only [heq, List.length_cons] at hfull
      exact .inr ⟨oldest, rest, _, heq, hfull, rfl⟩
    · rename_i heq
      simp only [heq, List.length_nil] at hfull
      exact absurd hfull (by decide)
  · rename_i hfull
    exact .inl ⟨hfull, rfl⟩

/-- A sequence of `process_next_vote_slot` calls. -/
def processNextVoteSlots (vs : VoteState) (calls : List SlotVote) : VoteState :=
  calls.foldl (fun vs c => vs.processNextVoteSlot c.slot c.epoch c.currentSlot c.timelyVoteCredits)
    vs

@[simp] theorem processNextVoteSlots_cons (vs : VoteState) (c : SlotVote) (calls : List SlotVote) :
    vs.processNextVoteSlots (c :: calls) =
      (vs.processNextVoteSlot c.slot c.epoch c.currentSlot c.timelyVoteCredits).processNextVoteSlots
        calls := rfl

theorem processNextVoteSlots_append (vs : VoteState) (pre post : List SlotVote) :
    vs.processNextVoteSlots (pre ++ post) = (vs.processNextVoteSlots pre).processNextVoteSlots post :=
  List.foldl_append

variable {vs : VoteState} {slot : Slot} {epoch : Epoch} {currentSlot : Slot} {timely : Bool}

theorem not_any_le_of_all_lt {o : Option Slot} (h : o.all (· < slot) = true) :
    ¬ o.any (slot ≤ ·) = true := by
  cases o <;> simp_all

/-- A vote newer than the last one becomes the last vote. -/
theorem lastVotedSlot_processNextVoteSlot (hnew : vs.lastVotedSlot.all (· < slot) = true) :
    (vs.processNextVoteSlot slot epoch currentSlot timely).lastVotedSlot = some slot := by
  have hign : ¬ vs.lastVotedSlot.any (slot ≤ ·) = true := by
    cases h : vs.lastVotedSlot <;> simp_all
  rcases processNextVoteSlot_cases vs slot epoch currentSlot timely with
    ⟨hold, -⟩ | ⟨-, latency, ⟨-, heq⟩ | ⟨oldest, rest, credits, -, -, heq⟩⟩
  · exact absurd hold hign
  all_goals
    rw [heq, lastVotedSlot_eq]
    exact getLast?_doubleLockouts_append_singleton _ _

/-- A root, once set, stays set. -/
theorem isSome_rootSlot_processNextVoteSlot (h : vs.rootSlot.isSome = true) :
    (vs.processNextVoteSlot slot epoch currentSlot timely).rootSlot.isSome = true := by
  rcases processNextVoteSlot_cases vs slot epoch currentSlot timely with
    ⟨-, heq⟩ | ⟨-, latency, ⟨-, heq⟩ | ⟨oldest, rest, credits, -, -, heq⟩⟩
  all_goals rw [heq]
  · exact h
  · exact h
  · rfl

/-- The root after a vote is the old one, or a vote of the old tower moved into it. -/
theorem rootSlot_processNextVoteSlot :
    (vs.processNextVoteSlot slot epoch currentSlot timely).rootSlot = vs.rootSlot ∨
      ∃ v ∈ vs.votes, (vs.processNextVoteSlot slot epoch currentSlot timely).rootSlot = some v.slot := by
  rcases processNextVoteSlot_cases vs slot epoch currentSlot timely with
    ⟨-, heq⟩ | ⟨-, latency, ⟨-, heq⟩ | ⟨oldest, rest, credits, hsplit, -, heq⟩⟩
  · rw [heq]
    exact .inl rfl
  · rw [heq]
    exact .inl rfl
  · have hmem : oldest ∈ popExpiredVotes vs.votes slot := by
      rw [hsplit]
      exact List.mem_cons_self
    rw [heq]
    exact .inr ⟨oldest, (popExpiredVotes_isPrefix _ _).subset hmem, rfl⟩

/-- A vote that leaves the tower, and does not become its root, had expired at the new slot. -/
theorem lastLockedOutSlot_lt_of_removed {v : LandedVote} (hv : v ∈ vs.votes)
    (hgone : ∀ w ∈ (vs.processNextVoteSlot slot epoch currentSlot timely).votes, w.slot ≠ v.slot)
    (hroot : (vs.processNextVoteSlot slot epoch currentSlot timely).rootSlot ≠ some v.slot) :
    v.lockout.lastLockedOutSlot < slot := by
  apply lastLockedOutSlot_lt_of_not_mem_popExpiredVotes hv
  intro hpop
  rcases processNextVoteSlot_cases vs slot epoch currentSlot timely with
    ⟨-, heq⟩ | ⟨-, latency, ⟨-, heq⟩ | ⟨oldest, rest, credits, hsplit, -, heq⟩⟩
  · -- an ignored slot keeps every vote
    rw [heq] at hgone
    exact hgone v hv rfl
  · obtain ⟨w', hw', hslot⟩ := exists_slot_eq_of_mem_doubleLockouts (v := ⟨latency, Lockout.new slot⟩) hpop
    rw [heq] at hgone
    exact hgone w' hw' hslot
  · rw [hsplit] at hpop
    rcases List.mem_cons.mp hpop with rfl | hrest
    · -- the oldest vote moves into the root
      rw [heq] at hroot
      exact hroot rfl
    · obtain ⟨w', hw', hslot⟩ := exists_slot_eq_of_mem_doubleLockouts (v := ⟨latency, Lockout.new slot⟩) hrest
      rw [heq] at hgone
      exact hgone w' hw' hslot

end VoteState

end Agave.Vote
