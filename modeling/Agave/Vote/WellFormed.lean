import Agave.Vote.State

/-!
# Well-formed towers under `process_next_vote_slot`

A tower is well formed when it holds at most `MAX_LOCKOUT_HISTORY` votes, its slots increase and
its confirmation counts (all in `1..=MAX_LOCKOUT_HISTORY`) decrease from the bottom of the stack
up, each vote lies inside the lockout of the vote below it, and the root is below every vote.

The push is the step with an argument in it. Counts of at least one that strictly decrease
over `n` votes give the vote at depth `i` at least `n - i` confirmations; after the push the
stack is `n + 1` deep, so `double_lockouts` raises exactly the votes that have `n - i`, and
strict decrease survives (`Stacked.push_doubleLockouts`).

`process_next_vote_slot` compares a new slot only with the last vote, never with the root. On
an empty stack over a root it therefore accepts a slot below the root and leaves a tower whose
root is above its only vote (`processNextVoteSlot_below_root`). The run theorem asks that the
first slot voted on such a stack be above its root; after one vote the stack is never empty again.
-/

namespace Agave.Vote

/-- `b` may sit directly on top of `a`: a later slot, fewer confirmations, and inside `a`'s
lockout. -/
def Stacks (a b : LandedVote) : Prop :=
  a.slot < b.slot ∧ b.confirmationCount < a.confirmationCount ∧
    b.slot ≤ a.lockout.lastLockedOutSlot

/-- The vote stack of a well-formed tower. -/
structure Stacked (votes : List LandedVote) : Prop where
  length_le : votes.length ≤ MAX_LOCKOUT_HISTORY
  count_pos : ∀ v ∈ votes, 1 ≤ v.confirmationCount
  count_le : ∀ v ∈ votes, v.confirmationCount ≤ MAX_LOCKOUT_HISTORY
  chain : votes.IsChain Stacks

/-- A well-formed vote state. -/
structure WellFormed (vs : VoteState) : Prop where
  stacked : Stacked vs.votes
  root_lt : ∀ r ∈ vs.rootSlot, ∀ v ∈ vs.votes, r < v.slot

/-- The root does not move back, and once set it stays set. -/
def RootLe (a b : Option Slot) : Prop := ∀ r ∈ a, ∃ r' ∈ b, r ≤ r'

theorem RootLe.refl (a : Option Slot) : RootLe a a := fun r hr => ⟨r, hr, le_rfl⟩

theorem RootLe.trans {a b c : Option Slot} (hab : RootLe a b) (hbc : RootLe b c) : RootLe a c := by
  intro r hr
  obtain ⟨r', hr', hle⟩ := hab r hr
  obtain ⟨r'', hr'', hle'⟩ := hbc r' hr'
  exact ⟨r'', hr'', hle.trans hle'⟩

namespace Stacked

variable {votes votes' : List LandedVote}

theorem nil : Stacked [] := ⟨by simp, by simp, by simp, .nil⟩

theorem of_isPrefix (h : Stacked votes) (hp : votes' <+: votes) : Stacked votes' where
  length_le := hp.length_le.trans h.length_le
  count_pos v hv := h.count_pos v (hp.subset hv)
  count_le v hv := h.count_le v (hp.subset hv)
  chain := h.chain.infix hp.isInfix

theorem tail (h : Stacked votes) : Stacked votes.tail where
  length_le := by
    have := h.length_le
    simp only [List.length_tail]
    omega
  count_pos v hv := h.count_pos v (List.mem_of_mem_tail hv)
  count_le v hv := h.count_le v (List.mem_of_mem_tail hv)
  chain := h.chain.tail

theorem pairwise_slot (h : Stacked votes) : votes.Pairwise (·.slot < ·.slot) := by
  have hmap : (votes.map (·.slot)).IsChain (· < ·) :=
    List.isChain_map_of_isChain _ (fun _ _ hs => hs.1) h.chain
  exact List.pairwise_map.mp hmap.pairwise

theorem nodup_slot (h : Stacked votes) : (votes.map (·.slot)).Nodup :=
  (List.pairwise_map.mpr h.pairwise_slot).imp ne_of_lt

/-- Counts of at least one that strictly decrease: the vote at depth `i` has at least as many
confirmations as there are votes from it to the top. -/
theorem length_le_add_count (h : Stacked votes) (i : Nat) (hi : i < votes.length) :
    votes.length ≤ i + votes[i].confirmationCount := by
  induction votes generalizing i with
  | nil => simp at hi
  | cons a rest ih =>
    have hrest : Stacked rest := h.tail
    cases i with
    | zero =>
      cases rest with
      | nil => simpa using h.count_pos a (by simp)
      | cons b rest' =>
        have hab : b.confirmationCount < a.confirmationCount :=
          (List.isChain_cons_cons.mp h.chain).1.2.1
        have hb := ih hrest 0 (by simp)
        simp only [List.length_cons, List.getElem_cons_zero, Nat.zero_add] at hb ⊢
        omega
    | succ j =>
      have hj := ih hrest j (by simpa using hi)
      simp only [List.length_cons, List.getElem_cons_succ]
      omega

/-- Every vote of the stack is no later than the top one. -/
theorem slot_le_of_mem_getLast? (h : Stacked votes) {top v : LandedVote}
    (htop : top ∈ votes.getLast?) (hv : v ∈ votes) : v.slot ≤ top.slot := by
  obtain ⟨hne, rfl⟩ := List.mem_getLast?_eq_getLast htop
  have hp := h.pairwise_slot
  rw [← List.dropLast_append_getLast hne] at hp hv
  rw [List.pairwise_append] at hp
  rcases List.mem_append.mp hv with hv | hv
  · exact (hp.2.2 v hv _ (List.mem_singleton_self _)).le
  · rw [List.mem_singleton.mp hv]

end Stacked

/-- One consecutive pair through `double_lockouts` on a stack `d` deep, at depths `i` and
`i + 1`. Both votes have as many confirmations as strictly decreasing counts force from their
depth; the upper vote has fewer, or it is the one-confirmation vote just pushed on top. -/
theorem stacks_doubleLockoutAt {a b : LandedVote} {d i : Nat} (hslot : a.slot < b.slot)
    (hlocked : b.slot ≤ a.lockout.lastLockedOutSlot)
    (hcount : b.confirmationCount < a.confirmationCount ∨ b.confirmationCount = 1 ∧ d = i + 2)
    (ha : d ≤ i + 1 + a.confirmationCount) (hb : d ≤ i + 2 + b.confirmationCount)
    (hc : a.confirmationCount < 63) :
    Stacks (doubleLockoutAt d i a) (doubleLockoutAt d (i + 1) b) := by
  have ha' := doubleLockoutAt_confirmationCount d i (show a.confirmationCount < U32_MAX by
    unfold U32_MAX; omega)
  have hb' := doubleLockoutAt_confirmationCount d (i + 1) (show b.confirmationCount < U32_MAX by
    unfold U32_MAX; omega)
  refine ⟨by simpa using hslot, ?_, ?_⟩
  · -- the upper vote gains a confirmation only when the lower one has just one more
    rw [ha', hb']
    split_ifs <;> omega
  · calc (doubleLockoutAt d (i + 1) b).slot = b.slot := doubleLockoutAt_slot _ _ _
      _ ≤ a.lockout.lastLockedOutSlot := hlocked
      _ ≤ (doubleLockoutAt d i a).lockout.lastLockedOutSlot :=
        lastLockedOutSlot_le_doubleLockoutAt d i hc

namespace Stacked

variable {votes : List LandedVote} {v : LandedVote}

/-- The votes below the new one, doubled at the new depth, stay stacked. -/
theorem isChain_mapIdx_doubleLockoutAt (h : Stacked votes) :
    (votes.mapIdx (doubleLockoutAt (votes.length + 1))).IsChain Stacks := by
  rw [List.isChain_iff_getElem]
  intro i hi
  have hi' : i + 1 < votes.length := by simpa using hi
  have hab : Stacks votes[i] votes[i + 1] := List.isChain_iff_getElem.mp h.chain i hi'
  have hca := h.length_le_add_count i (by omega)
  have hcb := h.length_le_add_count (i + 1) hi'
  have hle := h.count_le votes[i] (List.getElem_mem _)
  simp only [List.getElem_mapIdx]
  exact stacks_doubleLockoutAt hab.1 hab.2.2 (.inl hab.2.1) (by omega) (by omega)
    (by unfold MAX_LOCKOUT_HISTORY at hle; omega)

/-- The push in `process_next_vote_slot`: a one-confirmation vote on top of a stacked tower
that is not full, later than its top vote and inside that vote's lockout, then
`double_lockouts`. -/
theorem push_doubleLockouts (h : Stacked votes) (hlen : votes.length < MAX_LOCKOUT_HISTORY)
    (hv : v.confirmationCount = 1)
    (htop : ∀ top ∈ votes.getLast?, top.slot < v.slot ∧ v.slot ≤ top.lockout.lastLockedOutSlot) :
    Stacked (doubleLockouts (votes ++ [v])) := by
  have hv' : doubleLockoutAt (votes.length + 1) votes.length v = v :=
    doubleLockoutAt_of_le (by omega)
  rw [doubleLockouts_append_singleton, hv']
  refine ⟨?_, ?_, ?_, ?_⟩
  · simp only [List.length_append, List.length_mapIdx, List.length_singleton]
    omega
  · intro w hw
    rcases List.mem_append.mp hw with hw | hw
    · obtain ⟨i, hi, rfl⟩ := List.mem_mapIdx.mp hw
      have hpos := h.count_pos votes[i] (List.getElem_mem _)
      have hle := h.count_le votes[i] (List.getElem_mem _)
      rw [doubleLockoutAt_confirmationCount _ _ (by unfold U32_MAX MAX_LOCKOUT_HISTORY at *; omega)]
      split <;> omega
    · rw [List.mem_singleton.mp hw, hv]
  · intro w hw
    rcases List.mem_append.mp hw with hw | hw
    · -- a vote that gains a confirmation had fewer than the stack is deep
      obtain ⟨i, hi, rfl⟩ := List.mem_mapIdx.mp hw
      have hle := h.count_le votes[i] (List.getElem_mem _)
      rw [doubleLockoutAt_confirmationCount _ _ (by unfold U32_MAX MAX_LOCKOUT_HISTORY at *; omega)]
      split <;> omega
    · rw [List.mem_singleton.mp hw, hv]
      decide
  · refine List.isChain_append.mpr ⟨h.isChain_mapIdx_doubleLockoutAt, .singleton _, ?_⟩
    intro x hx y hy
    obtain rfl : y = v := by simpa using hy.symm
    rw [List.getLast?_mapIdx] at hx
    obtain ⟨top, htop', rfl⟩ := Option.mem_map.mp hx
    obtain ⟨hslot, hlocked⟩ := htop top htop'
    have hne : votes ≠ [] := by rintro rfl; simp at htop'
    have hn : 0 < votes.length := List.length_pos_iff.mpr hne
    have hpos := h.count_pos top (List.mem_of_getLast? htop')
    have hle := h.count_le top (List.mem_of_getLast? htop')
    have hpair := stacks_doubleLockoutAt (d := votes.length + 1) (i := votes.length - 1) hslot
      hlocked (.inr ⟨hv, by omega⟩) (by omega) (by omega)
      (by unfold MAX_LOCKOUT_HISTORY at hle; omega)
    rwa [Nat.sub_add_cancel hn, hv'] at hpair

end Stacked

/-- The stack just before `process_next_vote_slot` pushes a vote for `slot`: every vote is
earlier, the top one still locks `slot` out, and the root is below all of them. -/
structure Pushable (votes : List LandedVote) (rootSlot : Option Slot) (slot : Slot) : Prop where
  stacked : Stacked votes
  slot_lt : ∀ v ∈ votes, v.slot < slot
  locked : ∀ top ∈ votes.getLast?, slot ≤ top.lockout.lastLockedOutSlot
  root_lt : ∀ r ∈ rootSlot, r < slot ∧ ∀ v ∈ votes, r < v.slot

namespace Pushable

variable {oldest : LandedVote} {votes rest : List LandedVote} {rootSlot : Option Slot}
  {slot : Slot}

/-- Moving the oldest vote into the root keeps the stack pushable. -/
theorem popFront (h : Pushable (oldest :: rest) rootSlot slot) :
    Pushable rest (some oldest.slot) slot where
  stacked := h.stacked.tail
  slot_lt v hv := h.slot_lt v (List.mem_cons_of_mem _ hv)
  locked top htop := by
    cases rest with
    | nil => simp at htop
    | cons b rest' => exact h.locked top (by simpa using htop)
  root_lt r hr := by
    obtain rfl : r = oldest.slot := by simpa using hr.symm
    exact ⟨h.slot_lt oldest (by simp), (List.pairwise_cons.mp h.stacked.pairwise_slot).1⟩

theorem rootLe_popFront (h : Pushable (oldest :: rest) rootSlot slot) :
    RootLe rootSlot (some oldest.slot) :=
  fun r hr => ⟨oldest.slot, rfl, ((h.root_lt r hr).2 oldest (by simp)).le⟩

/-- Pushing the new vote on a pushable stack that is not full gives a well-formed tower. -/
theorem push (h : Pushable votes rootSlot slot) (hlen : votes.length < MAX_LOCKOUT_HISTORY)
    (latency : Nat) (epochCredits : List (Epoch × Nat × Nat)) :
    WellFormed ⟨doubleLockouts (votes ++ [⟨latency, Lockout.new slot⟩]), rootSlot, epochCredits⟩ where
  stacked := h.stacked.push_doubleLockouts hlen rfl fun top htop =>
    ⟨h.slot_lt top (List.mem_of_getLast? htop), h.locked top htop⟩
  root_lt r hr v hv := by
    -- doubling keeps the slots, so `v` has the slot of a vote below or of the new one
    have hmem : v.slot ∈ (votes ++ [(⟨latency, Lockout.new slot⟩ : LandedVote)]).map (·.slot) := by
      rw [← map_slot_doubleLockouts]
      exact List.mem_map_of_mem hv
    obtain ⟨w, hw, hwv⟩ := List.mem_map.mp hmem
    rw [← hwv]
    rcases List.mem_append.mp hw with hw | hw
    · exact (h.root_lt r hr).2 w hw
    · rw [List.mem_singleton.mp hw]
      exact (h.root_lt r hr).1

end Pushable

variable {vs : VoteState} {slot : Slot} {epoch : Epoch} {currentSlot : Slot} {timely : Bool}

/-- A well-formed tower after `pop_expired_votes` at a slot later than its last vote, and above
its root when the stack is empty. -/
theorem pushable_popExpiredVotes (hw : WellFormed vs)
    (hnew : vs.lastVotedSlot.all (· < slot) = true)
    (hroot : vs.votes = [] → ∀ r ∈ vs.rootSlot, r < slot) :
    Pushable (popExpiredVotes vs.votes slot) vs.rootSlot slot := by
  have hpop := popExpiredVotes_isPrefix vs.votes slot
  -- every vote is no later than the top one, which is earlier than `slot`
  have hslot : ∀ v ∈ vs.votes, v.slot < slot := by
    intro v hv
    rw [VoteState.lastVotedSlot_eq] at hnew
    cases htop : vs.votes.getLast? with
    | none => simp_all
    | some top =>
      have hlt : top.slot < slot := by simpa [htop] using hnew
      exact (hw.stacked.slot_le_of_mem_getLast? htop hv).trans_lt hlt
  refine ⟨hw.stacked.of_isPrefix hpop, fun v hv => hslot v (hpop.subset hv),
    fun top htop => le_lastLockedOutSlot_of_popExpiredVotes htop, ?_⟩
  intro r hr
  refine ⟨?_, fun v hv => hw.root_lt r hr v (hpop.subset hv)⟩
  cases hvotes : vs.votes with
  | nil => exact hroot hvotes r hr
  | cons v rest =>
    have hv : v ∈ vs.votes := by simp [hvotes]
    exact (hw.root_lt r hr v hv).trans (hslot v hv)

/-- One `process_next_vote_slot` keeps a tower well formed and never moves its root back,
provided a vote on an empty stack is above the root. -/
theorem processNextVoteSlot_wellFormed (hw : WellFormed vs)
    (hroot : vs.votes = [] → ∀ r ∈ vs.rootSlot, r < slot) :
    WellFormed (vs.processNextVoteSlot slot epoch currentSlot timely) ∧
      RootLe vs.rootSlot (vs.processNextVoteSlot slot epoch currentSlot timely).rootSlot := by
  rcases VoteState.processNextVoteSlot_cases vs slot epoch currentSlot timely with
    ⟨-, heq⟩ | ⟨hnew, latency, ⟨hlen, heq⟩ | ⟨oldest, rest, credits, hpop, hlen, heq⟩⟩
  · rw [heq]
    exact ⟨hw, RootLe.refl _⟩
  · -- the unexpired votes do not fill the stack: push on them
    have hp := pushable_popExpiredVotes hw hnew hroot
    have hlt : (popExpiredVotes vs.votes slot).length < MAX_LOCKOUT_HISTORY :=
      lt_of_le_of_ne hp.stacked.length_le hlen
    rw [heq]
    exact ⟨hp.push hlt latency vs.epochCredits, RootLe.refl _⟩
  · -- they fill it: the oldest becomes the root first
    have hp := pushable_popExpiredVotes hw hnew hroot
    rw [hpop] at hp
    rw [heq]
    exact ⟨hp.popFront.push (by omega) latency credits, hp.rootLe_popFront⟩

/-- After `process_next_vote_slot` the stack is never empty. -/
theorem processNextVoteSlot_votes_ne_nil :
    (vs.processNextVoteSlot slot epoch currentSlot timely).votes ≠ [] := by
  rcases VoteState.processNextVoteSlot_cases vs slot epoch currentSlot timely with
    ⟨hign, heq⟩ | ⟨-, latency, ⟨-, heq⟩ | ⟨oldest, rest, credits, -, -, heq⟩⟩
  · -- a slot is only ignored against a last vote
    rw [heq]
    intro hnil
    rw [VoteState.lastVotedSlot_eq, hnil] at hign
    simp at hign
  all_goals
    rw [heq]
    exact List.ne_nil_of_length_pos (by simp)

/-- A run of `process_next_vote_slot` calls keeps a tower well formed and never moves the root
back, provided the first slot voted on an empty stack is above the root. -/
theorem processNextVoteSlots_wellFormed {calls : List SlotVote} (hw : WellFormed vs)
    (hfirst : vs.votes = [] → ∀ r ∈ vs.rootSlot, ∀ c ∈ calls.head?, r < c.slot) :
    WellFormed (vs.processNextVoteSlots calls) ∧
      RootLe vs.rootSlot (vs.processNextVoteSlots calls).rootSlot := by
  induction calls generalizing vs with
  | nil => exact ⟨hw, RootLe.refl _⟩
  | cons c rest ih =>
    obtain ⟨hw', hle⟩ :
        WellFormed (vs.processNextVoteSlot c.slot c.epoch c.currentSlot c.timelyVoteCredits) ∧
          RootLe vs.rootSlot
            (vs.processNextVoteSlot c.slot c.epoch c.currentSlot c.timelyVoteCredits).rootSlot :=
      processNextVoteSlot_wellFormed hw fun hnil r hr => hfirst hnil r hr c rfl
    -- after the first vote the stack is not empty, so the root no longer constrains the run
    obtain ⟨hw'', hle'⟩ := ih hw' (fun hnil => absurd hnil processNextVoteSlot_votes_ne_nil)
    rw [VoteState.processNextVoteSlots_cons]
    exact ⟨hw'', hle.trans hle'⟩

theorem processNextVoteSlots_votes_ne_nil {calls : List SlotVote} (h : calls ≠ []) :
    (vs.processNextVoteSlots calls).votes ≠ [] := by
  induction calls generalizing vs with
  | nil => exact absurd rfl h
  | cons c rest ih =>
    rw [VoteState.processNextVoteSlots_cons]
    cases rest with
    | nil => exact processNextVoteSlot_votes_ne_nil
    | cons d rest' => exact ih (List.cons_ne_nil d rest')

/-- Along a run of `process_next_vote_slot` calls from a well-formed tower, where the first slot
voted on an empty stack is above the root, every state is well formed and the root never moves
back: from the state after `pre` to the state after `pre ++ post`. -/
theorem processNextVoteSlots_append_wellFormed {pre post : List SlotVote} (hw : WellFormed vs)
    (hfirst : vs.votes = [] → ∀ r ∈ vs.rootSlot, ∀ c ∈ (pre ++ post).head?, r < c.slot) :
    WellFormed (vs.processNextVoteSlots (pre ++ post)) ∧
      RootLe (vs.processNextVoteSlots pre).rootSlot
        (vs.processNextVoteSlots (pre ++ post)).rootSlot := by
  have hpre : WellFormed (vs.processNextVoteSlots pre) ∧
      RootLe vs.rootSlot (vs.processNextVoteSlots pre).rootSlot :=
    processNextVoteSlots_wellFormed hw fun hnil r hr c hc =>
      hfirst hnil r hr c (by cases pre <;> simp_all)
  rw [VoteState.processNextVoteSlots_append]
  refine processNextVoteSlots_wellFormed hpre.1 fun hnil r hr c hc => ?_
  cases pre with
  | nil => exact hfirst hnil r hr c hc
  | cons d rest =>
    exact absurd hnil (processNextVoteSlots_votes_ne_nil (List.cons_ne_nil d rest))

theorem processNextVoteSlots_from_root_zero :
    WellFormed ((⟨[], some 0, []⟩ : VoteState).processNextVoteSlots
        ([⟨1, 0, 1, true⟩] ++ [⟨2, 0, 2, true⟩])) ∧
      RootLe ((⟨[], some 0, []⟩ : VoteState).processNextVoteSlots [⟨1, 0, 1, true⟩]).rootSlot
        ((⟨[], some 0, []⟩ : VoteState).processNextVoteSlots
          ([⟨1, 0, 1, true⟩] ++ [⟨2, 0, 2, true⟩])).rootSlot :=
  processNextVoteSlots_append_wellFormed ⟨Stacked.nil, by simp⟩ (by simp)

/-- Well-formedness does not survive a vote on an empty stack below the root: the
root `5` ends up above the only vote, for slot `3`. -/
theorem processNextVoteSlot_below_root :
    WellFormed ⟨[], some 5, []⟩ ∧
      ¬ WellFormed ((⟨[], some 5, []⟩ : VoteState).processNextVoteSlot 3 0 0 true) := by
  refine ⟨⟨Stacked.nil, by simp⟩, fun hw => ?_⟩
  have hlt := hw.root_lt 5 rfl
  revert hlt
  decide

end Agave.Vote
