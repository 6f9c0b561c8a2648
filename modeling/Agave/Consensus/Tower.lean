import Agave.Vote.Program

/-!
# The local tower

`core/src/consensus.rs`. A validator keeps its own `VoteState` in its `Tower` and records each
of its votes there with `record_bank_vote_and_update_lockouts`, which panics when the vote
program rejects the vote. Before voting on a slot it asks `is_locked_out`: the slot must be
newer than the last vote, and after simulating the vote (which pops the votes that have
expired at that slot) every vote left must be the slot itself or one of its ancestors. The
check ends with an assertion that the simulated root is an ancestor too.

Only the vote state of the tower is modelled; `last_vote`, the timestamps and the threshold
fields are not read by these functions' results. A panic is `none`.
-/

namespace Agave.Consensus

open Agave.Vote

/-- `Tower`, with the field that the lockout logic reads and writes. -/
structure Tower where
  voteState : VoteState
  deriving DecidableEq, Repr

namespace Tower

/-- `root`: `root_slot.unwrap()`, so `none` is the panic on a tower without a root. -/
def root (t : Tower) : Option Slot := t.voteState.rootSlot

/-- `is_recent`: newer than the last vote, or than the root when there is no vote yet. -/
def isRecent (t : Tower) (slot : Slot) : Bool :=
  match t.voteState.lastVotedSlot with
  | some lastVotedSlot => !decide (slot ≤ lastVotedSlot)
  | none =>
    match t.voteState.rootSlot with
    | some root => !decide (slot ≤ root)
    | none => true

/-- `is_locked_out`; `none` is the failed assertion on the simulated root. -/
def isLockedOut (t : Tower) (slot : Slot) (ancestors : Finset Slot) : Option Bool :=
  if !t.isRecent slot then some true
  else
    -- simulate the vote to pop the votes that have expired at `slot`
    let voteState := processSlotVoteUnchecked t.voteState slot
    if voteState.votes.any (fun vote => slot ≠ vote.slot && vote.slot ∉ ancestors) then some true
    else
      match voteState.rootSlot with
      | some rootSlot =>
        -- bank forks purges the non-descendants of the root, so this should never fail
        if slot ≠ rootSlot ∧ rootSlot ∉ ancestors then none else some false
      | none => some false

/-- `record_bank_vote_and_update_lockouts`: the tower after the vote, and the new root when it
moved. `none` is a panic: a failed vote, or a tower without a root. -/
def recordBankVoteAndUpdateLockouts (t : Tower) (voteSlot : Slot) (voteHash : Hash) :
    Option (Tower × Option Slot) := do
  let oldRoot ← t.root
  match processVoteUnchecked t.voteState ⟨[voteSlot], voteHash⟩ with
  | .error _ => none
  | .ok voteState =>
    let t' : Tower := { t with voteState }
    let newRoot ← t'.root
    some (t', if oldRoot ≠ newRoot then some newRoot else none)

/-- The vote state after the tower votes on a recent `slot`: what `process_vote_unchecked`
returns, in the simulation of `is_locked_out` and in the real vote alike. -/
def votedState (t : Tower) (slot : Slot) : VoteState :=
  t.voteState.processNextVoteSlot slot t.voteState.currentEpoch 0 true

variable {t : Tower} {slot : Slot} {ancestors : Finset Slot}

theorem isRecent_iff : t.isRecent slot = true ↔
    t.voteState.lastVotedSlot.all (· < slot) = true ∧
      (t.voteState.votes = [] → ∀ r ∈ t.voteState.rootSlot, r < slot) := by
  unfold isRecent
  rw [VoteState.lastVotedSlot_eq]
  cases htop : t.voteState.votes.getLast? with
  | some top =>
    have hne : t.voteState.votes ≠ [] := by
      intro hnil
      simp [hnil] at htop
    simp [hne]
  | none =>
    have hnil : t.voteState.votes = [] := List.getLast?_eq_none_iff.mp htop
    cases t.voteState.rootSlot <;> simp [hnil]

/-- The vote a recent slot gets in the real tower is the vote it gets in the simulation. -/
theorem recordBankVoteAndUpdateLockouts_of_isRecent (hroot : t.root.isSome = true)
    (hrec : t.isRecent slot = true) (voteHash : Hash) :
    ∃ newRoot, t.recordBankVoteAndUpdateLockouts slot voteHash =
      some (⟨t.votedState slot⟩, newRoot) := by
  obtain ⟨oldRoot, hold⟩ := Option.isSome_iff_exists.mp hroot
  have hnew : ¬ t.voteState.lastVotedSlot.any (slot ≤ ·) = true := by
    have := (isRecent_iff.mp hrec).1
    cases h : t.voteState.lastVotedSlot <;> simp_all
  have hsome : (t.voteState.processNextVoteSlot slot t.voteState.currentEpoch 0 true).rootSlot.isSome
      = true := VoteState.isSome_rootSlot_processNextVoteSlot hroot
  obtain ⟨newRoot, hnewRoot⟩ := Option.isSome_iff_exists.mp hsome
  refine ⟨if oldRoot ≠ newRoot then some newRoot else none, ?_⟩
  unfold recordBankVoteAndUpdateLockouts
  simp only [hold, processVoteUnchecked_singleton, if_neg hnew]
  simp [root, votedState, hnewRoot]

/-- The votes of a simulated vote that the lockout check lets through: each is the slot or one
of its ancestors. -/
theorem slot_eq_or_mem_of_not_any {votes : List LandedVote}
    (hany : ¬ (votes.any fun vote => slot ≠ vote.slot && vote.slot ∉ ancestors) = true) :
    ∀ v ∈ votes, v.slot = slot ∨ v.slot ∈ ancestors := by
  intro v hv
  simp only [List.any_eq_true, Bool.and_eq_true, decide_eq_true_eq, not_exists, not_and,
    not_not] at hany
  by_cases hs : v.slot = slot
  · exact .inl hs
  · exact .inr (hany v hv (Ne.symm hs))

/-- A lockout check that passes: the slot is recent, and after the simulated vote every vote
and the root are the slot or among its ancestors. -/
theorem isLockedOut_eq_some_false (h : t.isLockedOut slot ancestors = some false) :
    t.isRecent slot = true ∧
      (∀ v ∈ (t.votedState slot).votes, v.slot = slot ∨ v.slot ∈ ancestors) ∧
      ∀ r ∈ (t.votedState slot).rootSlot, r = slot ∨ r ∈ ancestors := by
  unfold isLockedOut at h
  rw [processSlotVoteUnchecked_eq] at h
  by_cases hrec : t.isRecent slot = true
  · rw [if_neg (by simp [hrec])] at h
    dsimp only at h
    split at h
    · cases h
    · rename_i hany
      refine ⟨hrec, slot_eq_or_mem_of_not_any hany, ?_⟩
      intro r hr
      rw [Option.mem_def] at hr
      unfold votedState at hr
      simp only [hr] at h
      split at h
      · cases h
      · rename_i hassert
        by_cases hs : r = slot
        · exact .inl hs
        · exact .inr (by simpa [Ne.symm hs] using hassert)
  · rw [if_pos (by simpa using hrec)] at h
    cases h

/-- A failed assertion: the slot is recent, every vote after the simulated vote is the slot or
among its ancestors, and the simulated root is neither. -/
theorem isLockedOut_eq_none (h : t.isLockedOut slot ancestors = none) :
    t.isRecent slot = true ∧
      (∀ v ∈ (t.votedState slot).votes, v.slot = slot ∨ v.slot ∈ ancestors) ∧
      ∃ r ∈ (t.votedState slot).rootSlot, r ≠ slot ∧ r ∉ ancestors := by
  unfold isLockedOut at h
  rw [processSlotVoteUnchecked_eq] at h
  by_cases hrec : t.isRecent slot = true
  · rw [if_neg (by simp [hrec])] at h
    dsimp only at h
    split at h
    · cases h
    · rename_i hany
      refine ⟨hrec, slot_eq_or_mem_of_not_any hany, ?_⟩
      split at h
      · rename_i r hr
        split at h
        · rename_i hassert
          exact ⟨r, hr, Ne.symm hassert.1, hassert.2⟩
        · cases h
      · cases h
  · rw [if_pos (by simpa using hrec)] at h
    cases h

end Tower

end Agave.Consensus
