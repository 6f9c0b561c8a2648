import Agave.TipDistributor.Generate
import Agave.TipDistribution.Claim

/-!
# The tip distributor's proofs pass the program's claim

The two sides written apart agree: the program checks a proof by folding it with the sorted join
(`verify_eq`), from the node of the claimant and the amount, which is the leaf of the tree node
(`claimNode_eq_leaf`). So every node of a generated tree has a proof the program accepts, and any
set of distinct nodes, claimed in any order from the uploaded root, stays within the limits
uploaded with it: `tip_distribution_proofs_verify`.
-/

namespace Agave.TipDistributor

open MerkleTree MerkleLevels TipDistribution

/-- The program's check of a proof is the sorted fold of the tree. -/
theorem verify_eq (sha256 : List UInt8 → Hash) (proof : List Hash) (root leaf : Hash) :
    verify sha256 proof root leaf =
      (proof.foldl (sortedJoin (hashIntermediate (hashv sha256))) leaf == root) := rfl

/-- The node the program proves is the leaf the tree has for the node: both hash the claimant and
the amount, and hash that with the leaf prefix. -/
theorem claimNode_eq_leaf (sha256 : List UInt8 → Hash) (node : TreeNode) :
    claimNode sha256 node.claimant node.amount = leaf sha256 node := by
  simp [claimNode, leaf, hashLeaf, hashv, LEAF_PREFIX, TreeNode.hash]

/-- What a node's claimant sends to `claim`. -/
def claimOf (node : TreeNode) : Pubkey × UInt64 × List Hash :=
  (node.claimant, node.amount, node.proof.getD [])

/-- What distinct nodes add up to is at most what all of them do. -/
theorem sum_map_le_of_subperm {α : Type} (f : α → Nat) {l₁ l₂ : List α} (h : l₁.Subperm l₂) :
    (l₁.map f).sum ≤ (l₂.map f).sum := by
  obtain ⟨l, hperm, hsub⟩ := h
  rw [← (hperm.map f).sum_eq]
  exact (hsub.map f).sum_le_sum fun _ _ => Nat.zero_le _

/-- For a stake meta whose fee is at most all the tips and whose total stake is that of its
delegations (not zero when there is one), the tree generated for it hands out at most the tips to
as many nodes as it says, every node's proof passes the program's check, and every set of distinct
nodes claimed in any order from the uploaded root goes through. -/
theorem tip_distribution_proofs_verify (sha256 : List UInt8 → Hash) (stakeMeta : StakeMeta)
    (tipDistributionMeta : TipDistributionMeta)
    (hmeta : stakeMeta.maybeTipDistributionMeta = some tipDistributionMeta)
    (hfee : tipDistributionMeta.validatorFeeBps.toNat ≤ 10000)
    (hdelegated : stakeMeta.totalDelegated.toNat =
      (stakeMeta.delegations.map (·.lamportsDelegated.toNat)).sum)
    (hnonzero : stakeMeta.delegations ≠ [] → stakeMeta.totalDelegated ≠ 0)
    (hlen : stakeMeta.delegations.length < 2 ^ 63) :
    ∃ g, generatedMerkleTree sha256 stakeMeta = some (some g) ∧
      g.maxTotalClaim = tipDistributionMeta.totalTips ∧
      (g.treeNodes.map (·.amount.toNat)).sum ≤ g.maxTotalClaim.toNat ∧
      g.maxNumNodes.toNat = g.treeNodes.length ∧
      (∀ node ∈ g.treeNodes, ∃ proof, node.proof = some proof ∧
        verify sha256 proof g.merkleRoot (claimNode sha256 node.claimant node.amount) = true) ∧
      ∀ claimed : List TreeNode, claimed.Subperm g.treeNodes →
        ∃ merkleRoot, claimAll sha256 (uploadMerkleRoot g.merkleRoot g.maxTotalClaim g.maxNumNodes)
          (claimed.map claimOf) = .ok merkleRoot := by
  have hsplit : SplitsTips stakeMeta tipDistributionMeta := ⟨hmeta, hfee, hdelegated, hnonzero⟩
  obtain ⟨g, hg, hmax, hnum, hpairs, hproofs⟩ :=
    generatedMerkleTree_eq sha256 hmeta (vecFromStakeMeta_eq hsplit) (List.cons_ne_nil _ _)
  -- the generated nodes are those of the split, with their proofs
  have hamounts : g.treeNodes.map (·.amount.toNat) =
      ({ claimant := stakeMeta.validatorVoteAccount
         amount := UInt64.ofNat (validatorCut tipDistributionMeta)
         proof := none } :: stakeMeta.delegations.map (rewardNode
           (tipDistributionMeta.totalTips.toNat - validatorCut tipDistributionMeta)
           stakeMeta.totalDelegated.toNat)).map (·.amount.toNat) := by
    have := congrArg (List.map fun p => p.2.toNat) hpairs
    rw [List.map_map, List.map_map] at this
    exact this
  have hlength : g.treeNodes.length = stakeMeta.delegations.length + 1 := by
    have := congrArg List.length hpairs
    simpa using this
  have hsum : (g.treeNodes.map (·.amount.toNat)).sum ≤ g.maxTotalClaim.toNat := by
    rw [hamounts, hmax]
    exact sum_amount_le hsplit
  have hcount : g.maxNumNodes.toNat = g.treeNodes.length := by
    rw [hnum, hlength, List.length_cons, List.length_map]
    exact toNat_ofNat_of_le (Nat.le_refl _) (by omega)
  -- each node's proof folds into the root, which is what the program checks
  have hverify : ∀ node ∈ g.treeNodes, ∃ proof, node.proof = some proof ∧
      verify sha256 proof g.merkleRoot (claimNode sha256 node.claimant node.amount) = true := by
    intro node hnode
    obtain ⟨proof, hproof, hfold⟩ := hproofs node hnode
    refine ⟨proof, hproof, ?_⟩
    rw [verify_eq, claimNode_eq_leaf, hfold, beq_self_eq_true]
  refine ⟨g, hg, hmax, hsum, hcount, hverify, fun claimed hclaimed => ?_⟩
  apply claimAll_ok
  · intro c hc
    obtain ⟨node, hnode, rfl⟩ := List.mem_map.mp hc
    obtain ⟨proof, hproof, hcheck⟩ := hverify node (hclaimed.subset hnode)
    simpa [claimOf, hproof, uploadMerkleRoot] using hcheck
  · have := sum_map_le_of_subperm (·.amount.toNat) hclaimed
    simp only [uploadMerkleRoot, UInt64.toNat_zero, Nat.zero_add, List.map_map]
    exact this.trans hsum
  · simp only [uploadMerkleRoot, UInt64.toNat_zero, Nat.zero_add, List.length_map, hcount]
    exact hclaimed.length_le

/-- A stake meta with one delegation, and the tree generated for it. -/
theorem tip_distribution_proofs_verify_one_delegation :
    let stakeMeta : StakeMeta :=
      { validatorVoteAccount := default
        maybeTipDistributionMeta := some
          { merkleRootUploadAuthority := default, tipDistributionPubkey := default,
            totalTips := 1000, validatorFeeBps := 500 }
        delegations := [{ stakeAccountPubkey := default, lamportsDelegated := 7 }]
        totalDelegated := 7 }
    (500 : UInt16).toNat ≤ 10000 ∧
      stakeMeta.totalDelegated.toNat =
        (stakeMeta.delegations.map (·.lamportsDelegated.toNat)).sum ∧
      (stakeMeta.delegations ≠ [] → stakeMeta.totalDelegated ≠ 0) ∧
      stakeMeta.delegations.length < 2 ^ 63 ∧
      ∃ g, generatedMerkleTree (fun _ => default) stakeMeta = some (some g) ∧
        g.maxTotalClaim = 1000 ∧
        (g.treeNodes.map (·.amount.toNat)).sum ≤ g.maxTotalClaim.toNat ∧
        g.maxNumNodes.toNat = g.treeNodes.length ∧
        (∀ node ∈ g.treeNodes, ∃ proof, node.proof = some proof ∧
          verify (fun _ => default) proof g.merkleRoot
            (claimNode (fun _ => default) node.claimant node.amount) = true) ∧
        ∀ claimed : List TreeNode, claimed.Subperm g.treeNodes →
          ∃ merkleRoot, claimAll (fun _ => default)
            (uploadMerkleRoot g.merkleRoot g.maxTotalClaim g.maxNumNodes)
            (claimed.map claimOf) = .ok merkleRoot :=
  by
    intro stakeMeta
    exact ⟨by decide, by decide, fun _ => by decide, by decide,
      tip_distribution_proofs_verify (fun _ => default) stakeMeta _ rfl (by decide) (by decide)
        (fun _ => by decide) (by decide)⟩

end Agave.TipDistributor
