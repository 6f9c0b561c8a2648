import Agave.Consensus.ForkChoice.Votes

/-!
# Heaviest-subtree fork choice: whole runs

A fork choice starts as `new` at a root. Replay then hangs every frozen bank under its parent
(`add_new_leaf_slot`) and counts the latest votes of each bank's vote accounts (`add_votes`).
`Accounted` holds at the start (`accounted_new`) and after every such call (`Accounted.run`), so
in every fork choice a run reaches (`Reachable.toAccounted`) `stake_voted_at` is the stake of the
latest votes for the block, `stake_voted_subtree` the sum over the block's subtree, and a batch of
votes of distinct validators is counted without a panic (`Reachable.addVotes_isSome`). One table
of epoch stakes and one epoch schedule serve the whole run.

What replay guarantees of a new block is a hypothesis of the step (`Op.Valid`): its parent is a
block of a smaller slot, and no latest vote is for it yet (a vote is for a bank that replay has
frozen, and so added).
-/

namespace Agave.Consensus

open Agave.Vote

namespace HeaviestSubtreeForkChoice

variable {stake : Pubkey → Slot → Nat} {fc fc' : HeaviestSubtreeForkChoice} {k p : SlotHashKey}

/-! ### What keeps the bookkeeping -/

theorem SameFrame.stakeVotedSubtree (h : SameFrame fc fc') (c : SlotHashKey) :
    fc'.stakeVotedSubtree c = fc.stakeVotedSubtree c := by
  have := congrArg (Option.map fun x => x.2.1) (h.frame c)
  simpa [HeaviestSubtreeForkChoice.stakeVotedSubtree, Option.map_map, Function.comp_def,
    ForkInfo.frame] using this

/-- The best and deepest slots and the heights are none of the bookkeeping's business. -/
theorem Accounted.sameFrame (h : Accounted stake fc) (hs : SameFrame fc fc') :
    Accounted stake fc' := by
  refine ⟨h.shape.sameTree hs.sameTree, hs.latestVotes ▸ h.voters, fun m info' hm => ?_,
    fun m info' hm => ?_⟩
  · obtain ⟨info, hget, hframe⟩ := hs.get_eq_some hm
    have hat : info'.stakeVotedAt = info.stakeVotedAt := congrArg Prod.fst hframe
    rw [hat, h.votedAt m info hget, hs.latestVotes]
  · obtain ⟨info, hget, hframe⟩ := hs.get_eq_some hm
    have hat : info'.stakeVotedAt = info.stakeVotedAt := congrArg Prod.fst hframe
    have hsub : info'.stakeVotedSubtree = info.stakeVotedSubtree := congrArg (·.2.1) hframe
    have hch : info'.children = info.children := congrArg (·.2.2.1.2) hframe
    rw [hat, hsub, hch, h.subtree m info hget]
    unfold childrenStake
    simp only [hs.stakeVotedSubtree]

theorem childrenStake_insertChild {l : List SlotHashKey} (hk : k ∉ l) :
    fc.childrenStake (insertChild k l) = fc.childrenStake l + (fc.stakeVotedSubtree k).getD 0 := by
  unfold childrenStake insertChild
  rw [if_neg hk, ((List.perm_orderedInsert _ k l).map _).sum_eq, List.map_cons, List.sum_cons,
    add_comm]

/-! ### A new fork choice -/

theorem new_eq (root : SlotHashKey) :
    new root = ⟨[(root, newLeafInfo root none none)], [], root⟩ := rfl

theorem get_new (root k : SlotHashKey) :
    (new root).get k = if k = root then some (newLeafInfo root none none) else none := by
  rw [new_eq]
  by_cases h : k = root
  · subst h
    simp [get, AssocList.get?]
  · simp [get, AssocList.get?, Ne.symm h, h]

/-- The root alone, with no stake and no votes. -/
theorem accounted_new (stake : Pubkey → Slot → Nat) (root : SlotHashKey) :
    Accounted stake (new root) := by
  -- the root is the only block
  have honly : ∀ k info, (new root).get k = some info → k = root ∧ info = newLeafInfo root none none :=
    fun k info hk => by
      rw [get_new] at hk
      split_ifs at hk with h
      · cases hk
        exact ⟨h, rfl⟩
  refine ⟨⟨by simp [new_eq], ⟨_, (get_new root root).trans (if_pos rfl), rfl⟩, fun k info hk hne => ?_,
    fun k info c hk hc => ?_, fun k info hk => ?_⟩, by simp [new_eq], fun k info hk => ?_,
    fun k info hk => ?_⟩
  · exact absurd (honly k info hk).1 (by simpa [new_eq] using hne)
  · obtain ⟨-, rfl⟩ := honly k info hk
    cases hc
  · obtain ⟨-, rfl⟩ := honly k info hk
    exact List.Pairwise.nil
  · obtain ⟨-, rfl⟩ := honly k info hk
    simp [newLeafInfo, votedStake, new_eq]
  · obtain ⟨-, rfl⟩ := honly k info hk
    simp [newLeafInfo, childrenStake]

/-! ### A new leaf -/

/-- The new leaf has no stake and no latest vote, and it adds no stake to its parent's children. -/
theorem Accounted.hangLeaf (h : Accounted stake fc) {pinfo : ForkInfo} (hk : fc.get k = none)
    (hp : fc.get p = some pinfo) (hslot : p.slot < k.slot)
    (hvote : ∀ pubkey, (pubkey, k) ∉ fc.latestVotes) : Accounted stake (fc.hangLeaf k p) := by
  have hsv : ∀ m, (fc.hangLeaf k p).stakeVotedSubtree m =
      if m = k then some 0 else fc.stakeVotedSubtree m := by
    intro m
    unfold HeaviestSubtreeForkChoice.stakeVotedSubtree
    rw [get_hangLeaf hk hp]
    split_ifs with hmk hmp
    · rfl
    · subst hmp
      simp [hp]
    · rfl
  -- the new leaf is nobody's child yet, not being a block
  have hnotchild : ∀ m info, fc.get m = some info → k ∉ info.children := fun m info hm hc => by
    obtain ⟨cinfo, hcget, -⟩ := h.shape.children m info k hm hc
    rw [hk] at hcget
    cases hcget
  have hcs : ∀ l, k ∉ l → (fc.hangLeaf k p).childrenStake l = fc.childrenStake l := fun l hl => by
    unfold childrenStake
    congr 1
    exact List.map_congr_left fun c hc => by
      rw [hsv, if_neg]
      rintro rfl
      exact hl hc
  refine ⟨h.shape.hangLeaf hk hp hslot, h.voters, fun m info' hm => ?_, fun m info' hm => ?_⟩
  · rw [get_hangLeaf hk hp] at hm
    split_ifs at hm with hmk hmp
    · -- no latest vote is for the new leaf
      cases hm
      subst hmk
      refine (List.sum_eq_zero fun x hx => ?_).symm
      obtain ⟨e, he, rfl⟩ := List.mem_map.mp hx
      have hne : e.2 ≠ m := fun heq => hvote e.1 (heq ▸ he)
      simp [voteWeight, hne]
    · cases hm
      exact h.votedAt m pinfo (hmp ▸ hp)
    · exact h.votedAt m info' hm
  · rw [get_hangLeaf hk hp] at hm
    split_ifs at hm with hmk hmp
    · cases hm
      simp [newLeafInfo, childrenStake]
    · -- the parent: one more child, of no stake
      cases hm
      subst hmp
      show pinfo.stakeVotedSubtree =
        pinfo.stakeVotedAt + (fc.hangLeaf k m).childrenStake (insertChild k pinfo.children)
      rw [childrenStake_insertChild (hnotchild m pinfo hp), hcs _ (hnotchild m pinfo hp), hsv,
        if_pos rfl, h.subtree m pinfo hp]
      rfl
    · rw [hcs _ (hnotchild m info' hm)]
      exact h.subtree m info' hm

/-- `add_new_leaf_slot` of a new block under a block of a smaller slot, with no latest vote for
it, does not panic and keeps the bookkeeping. -/
theorem Accounted.addNewLeafSlot (h : Accounted stake fc) {pinfo : ForkInfo}
    (hk : fc.get k = none) (hp : fc.get p = some pinfo) (hslot : p.slot < k.slot)
    (hvote : ∀ pubkey, (pubkey, k) ∉ fc.latestVotes) :
    ∃ fc', fc.addNewLeafSlot k (some p) = some fc' ∧ Accounted stake fc' := by
  obtain ⟨fc', hadd, hsame, -⟩ := h.shape.addNewLeafSlot hk hp hslot
  exact ⟨fc', hadd, (h.hangLeaf hk hp hslot hvote).sameFrame hsame⟩

/-! ### Runs -/

/-- The calls replay makes on the fork choice. -/
inductive Op
  | addNewLeafSlot (slotHashKey parent : SlotHashKey)
  | addVotes (pubkeyVotes : List (Pubkey × SlotHashKey))

/-- A call, with the epochs' stakes `add_votes` weighs the votes by. -/
def Op.run (epochStakes : Epoch → Option EpochStakes) (epochSchedule : EpochSchedule) :
    Op → HeaviestSubtreeForkChoice → Option HeaviestSubtreeForkChoice
  | .addNewLeafSlot slotHashKey parent, fc => fc.addNewLeafSlot slotHashKey (some parent)
  | .addVotes pubkeyVotes, fc => (fc.addVotes pubkeyVotes epochStakes epochSchedule).map Prod.snd

/-- What replay guarantees of a call: a block not in the tree yet goes under a block of a smaller
slot, and no validator's latest vote is for it. -/
def Op.Valid : Op → HeaviestSubtreeForkChoice → Prop
  | .addNewLeafSlot slotHashKey parent, fc => fc.get slotHashKey = none →
    (∃ pinfo, fc.get parent = some pinfo ∧ parent.slot < slotHashKey.slot) ∧
      ∀ pubkey, (pubkey, slotHashKey) ∉ fc.latestVotes
  | .addVotes _, _ => True

/-- The fork choices a run reaches from a root. -/
inductive Reachable (epochStakes : Epoch → Option EpochStakes) (epochSchedule : EpochSchedule) :
    HeaviestSubtreeForkChoice → Prop
  | init (root : SlotHashKey) : Reachable epochStakes epochSchedule (new root)
  | run {fc fc' : HeaviestSubtreeForkChoice} (op : Op) :
      Reachable epochStakes epochSchedule fc → op.Valid fc →
      op.run epochStakes epochSchedule fc = some fc' → Reachable epochStakes epochSchedule fc'

section Run

variable {epochStakes : Epoch → Option EpochStakes} {epochSchedule : EpochSchedule}

/-- What a call can do: leave a block already there alone, hang a new leaf as replay guarantees
it, or count a batch of votes. -/
theorem Op.run_cases {op : Op} (hvalid : op.Valid fc)
    (hrun : op.run epochStakes epochSchedule fc = some fc') :
    fc' = fc ∨
      (∃ k p pinfo, fc.get k = none ∧ fc.get p = some pinfo ∧ p.slot < k.slot ∧
        (∀ pubkey, (pubkey, k) ∉ fc.latestVotes) ∧ fc.addNewLeafSlot k (some p) = some fc') ∨
      ∃ pubkeyVotes best, fc.addVotes pubkeyVotes epochStakes epochSchedule = some (best, fc') := by
  cases op with
  | addNewLeafSlot k p =>
    by_cases hk : fc.get k = none
    · obtain ⟨⟨pinfo, hp, hslot⟩, hvote⟩ := hvalid hk
      exact .inr (.inl ⟨k, p, pinfo, hk, hp, hslot, hvote, hrun⟩)
    · -- a block already there is left alone
      have hcontains : fc.containsBlock k = true := Option.isSome_iff_ne_none.mpr hk
      rw [Op.run, HeaviestSubtreeForkChoice.addNewLeafSlot, if_pos hcontains,
        Option.some.injEq] at hrun
      exact .inl hrun.symm
  | addVotes pubkeyVotes =>
    obtain ⟨⟨best, fc''⟩, hadd, hsnd⟩ := Option.map_eq_some_iff.mp hrun
    cases hsnd
    exact .inr (.inr ⟨pubkeyVotes, best, hadd⟩)

/-- Every call replay makes keeps the bookkeeping. -/
theorem Accounted.run (h : Accounted (voteStake epochStakes epochSchedule) fc) {op : Op}
    (hvalid : op.Valid fc) (hrun : op.run epochStakes epochSchedule fc = some fc') :
    Accounted (voteStake epochStakes epochSchedule) fc' := by
  rcases Op.run_cases hvalid hrun with rfl | ⟨k, p, pinfo, hk, hp, hslot, hvote, hadd⟩ |
    ⟨pubkeyVotes, best, hadd⟩
  · exact h
  · obtain ⟨fc'', hadd', hacc⟩ := h.addNewLeafSlot hk hp hslot hvote
    rw [hadd', Option.some.injEq] at hadd
    exact hadd ▸ hacc
  · exact h.addVotes hadd

theorem Reachable.toAccounted (h : Reachable epochStakes epochSchedule fc) :
    Accounted (voteStake epochStakes epochSchedule) fc := by
  induction h with
  | init root => exact accounted_new _ root
  | run op _ hvalid hrun ih => exact ih.run hvalid hrun

end Run

/-! ### A run with two forks

The runs the witnesses below take: a root, two blocks under it, a batch in which one validator
votes for each, and a second batch in which the first validator moves to the other block. -/

/-- Only the default validator holds stake: 5 in every epoch. -/
def soloStakes : Epoch → Option EpochStakes := fun _ => some ⟨fun p => if p = default then 5 else 0⟩

theorem voteStake_soloStakes_sum (epochSchedule : EpochSchedule) (votes : List (Pubkey × Slot)) :
    (votes.map fun v => voteStake soloStakes epochSchedule v.1 v.2).sum =
      5 * (votes.map Prod.fst).count default := by
  induction votes with
  | nil => rfl
  | cons v votes ih =>
    rw [List.map_cons, List.sum_cons, ih, List.map_cons, List.count_cons]
    by_cases hv : v.1 = default
    · simp [voteStake, soloStakes, hv]
      ring
    · simp [voteStake, soloStakes, hv]

theorem stakesFit_soloStakes (epochSchedule : EpochSchedule) :
    StakesFit soloStakes epochSchedule := by
  intro votes hnodup
  have hcount := List.nodup_iff_count_le_one.mp hnodup default
  rw [voteStake_soloStakes_sum]
  unfold U64_MAX
  omega

/-- A root with blocks of slots 1 and 2 under it, after a batch in which the default validator
votes for the first and the validator `⟨1⟩` for the second. -/
def twoForks : Option HeaviestSubtreeForkChoice := do
  let fc ← (new ⟨0, default⟩).addNewLeafSlot ⟨1, default⟩ (some ⟨0, default⟩)
  let fc ← fc.addNewLeafSlot ⟨2, default⟩ (some ⟨0, default⟩)
  (fc.addVotes [(default, ⟨1, default⟩), (⟨1⟩, ⟨2, default⟩)] soloStakes
    ⟨32, 32, false, 0, 0⟩).map Prod.snd

/-- `twoForks` after a second batch: the default validator moves to slot 2, and `⟨1⟩` votes for
it again. -/
def twoForksMoved : Option HeaviestSubtreeForkChoice :=
  twoForks.bind fun fc => (fc.addVotes [(default, ⟨2, default⟩), (⟨1⟩, ⟨2, default⟩)] soloStakes
    ⟨32, 32, false, 0, 0⟩).map Prod.snd

theorem reachable_twoForks :
    Reachable soloStakes ⟨32, 32, false, 0, 0⟩ (twoForks.getD (new ⟨0, default⟩)) :=
  have h₁ : Reachable soloStakes ⟨32, 32, false, 0, 0⟩ _ :=
    Reachable.run (.addNewLeafSlot ⟨1, default⟩ ⟨0, default⟩) (Reachable.init ⟨0, default⟩)
      (fun _ => ⟨⟨_, rfl, by decide⟩, fun _ => List.not_mem_nil⟩) rfl
  have h₂ := Reachable.run (.addNewLeafSlot ⟨2, default⟩ ⟨0, default⟩) h₁
    (fun _ => ⟨⟨_, rfl, by decide⟩, fun _ => List.not_mem_nil⟩) rfl
  Reachable.run (.addVotes [(default, ⟨1, default⟩), (⟨1⟩, ⟨2, default⟩)]) h₂ trivial rfl

theorem reachable_twoForksMoved :
    Reachable soloStakes ⟨32, 32, false, 0, 0⟩ (twoForksMoved.getD (new ⟨0, default⟩)) :=
  Reachable.run (.addVotes [(default, ⟨2, default⟩), (⟨1⟩, ⟨2, default⟩)]) reachable_twoForks
    trivial rfl

section Run

variable {epochStakes : Epoch → Option EpochStakes} {epochSchedule : EpochSchedule}

/-- In every fork choice a run reaches, a batch of votes of distinct validators is counted
without a panic, and `add_votes` returns the best overall slot of the new fork choice. -/
theorem Reachable.addVotes_isSome (h : Reachable epochStakes epochSchedule fc)
    {pubkeyVotes : List (Pubkey × SlotHashKey)} (hdistinct : (pubkeyVotes.map Prod.fst).Nodup) :
    ∃ best fc', fc.addVotes pubkeyVotes epochStakes epochSchedule = some (best, fc') ∧
      fc'.bestOverallSlot = some best :=
  h.toAccounted.shape.addVotes_eq_some_best h.toAccounted.voters hdistinct epochStakes epochSchedule

/-- The second batch of `twoForks`: a latest vote replaced, two votes for one block gathered by
`update_stake`, and the root aggregated over both children. -/
theorem Reachable.addVotes_isSome_moved :
    ∃ best fc', (twoForks.getD (new ⟨0, default⟩)).addVotes
      [(default, ⟨2, default⟩), (⟨1⟩, ⟨2, default⟩)] soloStakes ⟨32, 32, false, 0, 0⟩ =
        some (best, fc') ∧ fc'.bestOverallSlot = some best :=
  Reachable.addVotes_isSome reachable_twoForks (by decide)

end Run

end HeaviestSubtreeForkChoice

end Agave.Consensus
