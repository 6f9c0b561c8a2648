import Agave.Consensus.ForkChoice.Run

/-!
# Heaviest-subtree fork choice: subtrees

`stake_voted_subtree` is kept by sums: a block's own stake and its children's subtree stakes
(`SubtreeStakes`), brought up to date by the `Aggregate`s `add_votes` puts over the ancestors of
the votes that moved. What it stands for is the stake of the latest votes for the block or for a
block below it, which `is_strict_ancestor` decides (`subtreeStake`). The two agree in every fork
choice a run reaches (`Reachable.stakeVotedSubtree_eq`): each latest vote weighs on its own block
and, through exactly one child at each step, on every ancestor of it
(`Forest.ite_isAncestorOrSelf_eq`). When no validators' stakes add up past `u64::MAX`
(`StakesFit`), no subtree's do either (`subtreeStake_le`), so the `u64` sums of the code hold
these values between calls (`Reachable.accounted`).

The same trees make `subtree_diff` exact: on a tree the children lists are the forest's children
(`Shape.listsChildren`), so the traversal never panics and collects the blocks below `root1` that
are reached without passing `root2` (`Shape.subtreeDiff_collects`).
-/

namespace Agave.Consensus

open Agave.Vote

namespace HeaviestSubtreeForkChoice

variable {stake : Pubkey → Slot → Nat} {fc : HeaviestSubtreeForkChoice} {k c : SlotHashKey}

/-! ### `is_strict_ancestor` -/

theorem slot_hash_beq_iff {x a : SlotHashKey} :
    (x.slot == a.slot && x.hash == a.hash) = true ↔ x = a := by
  cases x
  cases a
  simp

/-- A block not in the tree has no parent, so no strict ancestor. -/
theorem not_isAncestor_of_get_eq_none (h : Shape fc) (hn : fc.get k = none) (a : SlotHashKey) :
    ¬(fc.forest h).IsAncestor a k := by
  intro ha
  obtain ⟨d, hd, -⟩ := Relation.TransGen.head'_iff.mp ha
  have hparent : fc.parent k = some d := hd
  simp [HeaviestSubtreeForkChoice.parent, hn] at hparent

/-- On a tree `is_strict_ancestor` is strict ancestry: its shortcuts, the node itself and a
greater slot, never turn an ancestor away. -/
theorem Shape.isStrictAncestor_iff (h : Shape fc) (a n : SlotHashKey) :
    fc.isStrictAncestor a n = true ↔ (fc.forest h).IsAncestor a n := by
  have hwalk : ((fc.ancestors n).any fun x => x.slot == a.slot && x.hash == a.hash) = true ↔
      (fc.forest h).IsAncestor a n := by
    simp only [List.any_eq_true, slot_hash_beq_iff, exists_eq_right]
    cases hn : fc.get n with
    | none =>
      have hparent : fc.parent n = none := by simp [HeaviestSubtreeForkChoice.parent, hn]
      rw [ancestors_of_parent_eq_none hparent]
      exact ⟨fun ha => absurd ha List.not_mem_nil, fun ha =>
        absurd ha (not_isAncestor_of_get_eq_none h hn a)⟩
    | some info => exact h.mem_ancestors_iff hn
  unfold isStrictAncestor
  split_ifs with heq hslot
  · subst heq
    simp only [false_iff]
    exact fun ha => lt_irrefl a ha.lt
  · -- an ancestor's key is smaller, and so is its slot
    simp only [false_iff]
    intro ha
    rcases SlotHashKey.lt_iff.mp ha.lt with hlt | ⟨heq, -⟩
    · exact Nat.lt_asymm hslot hlt
    · exact Nat.ne_of_gt hslot heq
  · exact hwalk

/-! ### Children -/

/-- The children a block lists are exactly the blocks whose parent it is. -/
theorem Shape.mem_children_iff (h : Shape fc) {info : ForkInfo} (hk : fc.get k = some info) :
    c ∈ info.children ↔ fc.parent c = some k := by
  constructor
  · intro hc
    obtain ⟨-, -, hparent, -⟩ := h.child hk hc
    exact hparent
  · intro hp
    obtain ⟨-, pinfo, -, -, hpget, hmem, -⟩ := h.parent_eq_some hp
    rw [hk, Option.some.injEq] at hpget
    exact hpget ▸ hmem

/-! ### `subtree_diff` -/

/-- The children lists of a tree are its forest's children. -/
theorem Shape.listsChildren (h : Shape fc) :
    TreeDiff.ListsChildren (fc.forest h) (fc.forkInfos.map Prod.fst) fc.children := by
  intro a ha
  obtain ⟨⟨a', v⟩, hmem, rfl⟩ := List.mem_map.mp ha
  obtain ⟨info, hget⟩ := Option.isSome_iff_exists.mp (AssocList.get?_isSome_of_mem hmem)
  have hget : fc.get a' = some info := hget
  refine ⟨info.children, by simp [HeaviestSubtreeForkChoice.children, hget],
    (h.sorted _ info hget).imp ne_of_lt, fun c => h.mem_children_iff hget, fun c hc => ?_⟩
  obtain ⟨cinfo, hcget, -⟩ := h.child hget hc
  exact mem_keys_of_get hcget

/-- On a tree, `subtree_diff` of a block never panics and collects exactly the blocks of its
subtree whose way down from it does not pass `root2`. -/
theorem Shape.subtreeDiff_collects (h : Shape fc) {root1 : SlotHashKey}
    (hroot1 : fc.containsBlock root1 = true) (root2 : SlotHashKey) :
    ∃ result, fc.subtreeDiff root1 root2 = some result ∧
      ∀ z, z ∈ result ↔ (fc.forest h).ReachesAvoiding root2 root1 z := by
  obtain ⟨info, hget⟩ := Option.isSome_iff_exists.mp hroot1
  exact TreeDiff.subtreeDiff_eq h.nodup h.listsChildren (mem_keys_of_get hget) hroot1
    (List.length_map _).le

/-- The two forks under the root, cut at slot 1: the traversal from the root passes the root and
slot 2 and skips slot 1. -/
theorem Shape.subtreeDiff_collects_twoForks :
    (twoForks.getD (new ⟨0, default⟩)).containsBlock ⟨0, default⟩ = true ∧
      ∃ result, (twoForks.getD (new ⟨0, default⟩)).subtreeDiff ⟨0, default⟩ ⟨1, default⟩ =
          some result ∧
        ∀ z, z ∈ result ↔ ((twoForks.getD (new ⟨0, default⟩)).forest
          reachable_twoForks.toAccounted.shape).ReachesAvoiding ⟨1, default⟩ ⟨0, default⟩ z :=
  ⟨by decide, Shape.subtreeDiff_collects reachable_twoForks.toAccounted.shape (by decide)
    ⟨1, default⟩⟩

/-! ### The stake of a subtree's votes -/

/-- The stake of the latest votes for `k` or for a block below it. -/
def subtreeStake (stake : Pubkey → Slot → Nat) (fc : HeaviestSubtreeForkChoice)
    (k : SlotHashKey) : Nat :=
  (fc.latestVotes.map fun e =>
    if e.2 = k ∨ fc.isStrictAncestor k e.2 = true then stake e.1 e.2.slot else 0).sum

/-- A subtree's votes are those for its root and those of its children's subtrees. -/
theorem Shape.subtreeStake_eq (h : Shape fc) {info : ForkInfo} (hk : fc.get k = some info) :
    subtreeStake stake fc k =
      votedStake stake fc.latestVotes k + (info.children.map (subtreeStake stake fc)).sum := by
  -- one vote at a time, by the disjoint subtrees of the children
  have hvote : ∀ e : Pubkey × SlotHashKey,
      (if e.2 = k ∨ fc.isStrictAncestor k e.2 = true then stake e.1 e.2.slot else 0) =
        voteWeight stake k e.1 e.2 + (info.children.map fun c =>
          if e.2 = c ∨ fc.isStrictAncestor c e.2 = true then stake e.1 e.2.slot else 0).sum := by
    intro e
    have hP : ∀ x, (e.2 = x ∨ fc.isStrictAncestor x e.2 = true) ↔
        (fc.forest h).IsAncestorOrSelf x e.2 := fun x => by
      rw [h.isStrictAncestor_iff, Forest.isAncestorOrSelf_iff, eq_comm]
    have hnodup : info.children.Nodup := (h.sorted k info hk).imp ne_of_lt
    exact Forest.ite_isAncestorOrSelf_eq hP hnodup (fun c => h.mem_children_iff hk) _
  unfold subtreeStake votedStake
  rw [List.map_congr_left fun e _ => hvote e, List.sum_map_add]
  congr 1
  -- the double sum, votes outside and children inside, turned around
  have hswap := Multiset.sum_map_sum_map (fc.latestVotes : Multiset (Pubkey × SlotHashKey))
    (info.children : Multiset SlotHashKey) (f := fun e c =>
      if e.2 = c ∨ fc.isStrictAncestor c e.2 = true then stake e.1 e.2.slot else 0)
  simpa using hswap

/-- In a tree that keeps the bookkeeping, every block's subtree stake is the stake of the latest
votes for it or for a block below it. -/
theorem Accounted.stakeVotedSubtree_eq_subtreeStake (h : Accounted stake fc) {info : ForkInfo}
    (hk : fc.get k = some info) : info.stakeVotedSubtree = subtreeStake stake fc k := by
  -- down the tree: the children's subtree stakes are their votes' already
  refine h.shape.induction_on_children
    (P := fun k info => info.stakeVotedSubtree = subtreeStake stake fc k) ?_ hk
  intro k info hk ih
  rw [h.subtree k info hk, h.votedAt k info hk, h.shape.subtreeStake_eq hk]
  congr 1
  unfold childrenStake
  congr 1
  apply List.map_congr_left
  intro c hc
  obtain ⟨cinfo, hcget, -, -⟩ := h.shape.child hk hc
  have hsub : fc.stakeVotedSubtree c = some cinfo.stakeVotedSubtree := by
    simp [HeaviestSubtreeForkChoice.stakeVotedSubtree, hcget]
  rw [hsub, Option.getD_some, ih c hc cinfo hcget]

section Run

variable {epochStakes : Epoch → Option EpochStakes} {epochSchedule : EpochSchedule}

/-- Latest votes, one per validator, weigh `u64::MAX` at most on any block's subtree when the
stakes fit. -/
theorem subtreeStake_le (hfit : StakesFit epochStakes epochSchedule)
    (hvoters : (fc.latestVotes.map Prod.fst).Nodup) (k : SlotHashKey) :
    subtreeStake (voteStake epochStakes epochSchedule) fc k ≤ U64_MAX := by
  unfold subtreeStake
  rw [List.sum_map_ite, List.map_const', List.sum_replicate, smul_zero, add_zero]
  -- the votes counted are those of the subtree, from distinct validators
  have hnodup : (((fc.latestVotes.filter fun e => e.2 = k ∨ fc.isStrictAncestor k e.2 = true).map
      fun e => (e.1, e.2.slot)).map Prod.fst).Nodup := by
    rw [List.map_map]
    exact hvoters.sublist (List.filter_sublist.map _)
  have hsum := hfit _ hnodup
  rwa [List.map_map] at hsum

/-- The bookkeeping over whole runs, with one table of epoch stakes and one epoch schedule for the
whole run: the fork infos form a tree, one latest vote per validator, every `stake_voted_at` the
stake of the latest votes for its block and every `stake_voted_subtree` its own stake and its
children's. When the stakes fit, no stored stake passes `u64::MAX`. -/
theorem Reachable.accounted (hfit : StakesFit epochStakes epochSchedule)
    (h : Reachable epochStakes epochSchedule fc) :
    Accounted (voteStake epochStakes epochSchedule) fc ∧
      ∀ k info, fc.get k = some info →
        info.stakeVotedAt ≤ info.stakeVotedSubtree ∧ info.stakeVotedSubtree ≤ U64_MAX := by
  have hacc := h.toAccounted
  refine ⟨hacc, fun k info hk => ⟨?_, ?_⟩⟩
  · rw [hacc.subtree k info hk]
    exact Nat.le_add_right _ _
  · rw [hacc.stakeVotedSubtree_eq_subtreeStake hk]
    exact subtreeStake_le hfit hacc.voters k

/-- The two forks after the second batch, in which a validator's latest vote moved. -/
theorem Reachable.accounted_twoForksMoved :
    Accounted (voteStake soloStakes ⟨32, 32, false, 0, 0⟩) (twoForksMoved.getD (new ⟨0, default⟩)) ∧
      ∀ k info, (twoForksMoved.getD (new ⟨0, default⟩)).get k = some info →
        info.stakeVotedAt ≤ info.stakeVotedSubtree ∧ info.stakeVotedSubtree ≤ U64_MAX :=
  Reachable.accounted (stakesFit_soloStakes _) reachable_twoForksMoved

/-- In every fork choice a run reaches, `stake_voted_subtree` of a block is the stake, in the
epoch of each vote, of the validators whose latest vote is for the block or a block below it;
when the stakes fit, it is at most `u64::MAX`. -/
theorem Reachable.stakeVotedSubtree_eq (hfit : StakesFit epochStakes epochSchedule)
    (h : Reachable epochStakes epochSchedule fc) (hk : fc.containsBlock k = true) :
    fc.stakeVotedSubtree k = some (subtreeStake (voteStake epochStakes epochSchedule) fc k) ∧
      subtreeStake (voteStake epochStakes epochSchedule) fc k ≤ U64_MAX := by
  obtain ⟨info, hget⟩ := Option.isSome_iff_exists.mp hk
  have hacc := h.toAccounted
  refine ⟨?_, subtreeStake_le hfit hacc.voters k⟩
  rw [HeaviestSubtreeForkChoice.stakeVotedSubtree, hget, Option.map_some,
    hacc.stakeVotedSubtree_eq_subtreeStake hget]

/-- The root of the two forks after the second batch: the stake that moved stays in its subtree. -/
theorem Reachable.stakeVotedSubtree_eq_twoForksMoved :
    (twoForksMoved.getD (new ⟨0, default⟩)).containsBlock ⟨0, default⟩ = true ∧
      (twoForksMoved.getD (new ⟨0, default⟩)).stakeVotedSubtree ⟨0, default⟩ =
        some (subtreeStake (voteStake soloStakes ⟨32, 32, false, 0, 0⟩)
          (twoForksMoved.getD (new ⟨0, default⟩)) ⟨0, default⟩) ∧
      subtreeStake (voteStake soloStakes ⟨32, 32, false, 0, 0⟩)
          (twoForksMoved.getD (new ⟨0, default⟩)) ⟨0, default⟩ ≤ U64_MAX :=
  ⟨by decide, Reachable.stakeVotedSubtree_eq (stakesFit_soloStakes _) reachable_twoForksMoved
    (by decide)⟩

end Run

end HeaviestSubtreeForkChoice

end Agave.Consensus
