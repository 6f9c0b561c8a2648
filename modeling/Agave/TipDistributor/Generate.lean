import Agave.MerkleTree.Tree
import Agave.Sdk.Transaction

/-!
# The tip distributor's merkle trees

`tip-distributor/src/lib.rs`. For a validator with a tip distribution account, the tips are split
into tree nodes (`TreeNode::vec_from_stake_meta`): the validator's cut, `validator_fee_bps` of
the tips, and for each delegation its share of the rest, pro rata to its stake, rounded down. The
nodes are hashed into the leaves of a sorted merkle tree, and each node gets its proof
(`generatedMerkleTree`, the body of `new_from_stake_meta_collection`).

The split never hands out more than the tips (`sum_amount_le`): the cut is at most the tips when
`validator_fee_bps` is at most `10_000`, and the shares, each rounded down, add up to at most the
rest when `total_delegated` is the sum of the delegations. Of a stake meta's other fields, and a
node's, only those read here are kept.
-/

namespace Agave.TipDistributor

open MerkleTree MerkleLevels

/-- `Delegation`: the stake account and what it delegates. -/
structure Delegation where
  stakeAccountPubkey : Pubkey
  lamportsDelegated : UInt64
  deriving DecidableEq, Repr

/-- `TipDistributionMeta`. -/
structure TipDistributionMeta where
  merkleRootUploadAuthority : Pubkey
  tipDistributionPubkey : Pubkey
  totalTips : UInt64
  validatorFeeBps : UInt16
  deriving DecidableEq, Repr

/-- `StakeMeta`: the validator, its tip distribution account if any, and its delegations. -/
structure StakeMeta where
  validatorVoteAccount : Pubkey
  maybeTipDistributionMeta : Option TipDistributionMeta
  delegations : List Delegation
  totalDelegated : UInt64
  deriving DecidableEq, Repr

/-- `TreeNode`: who may claim, how much, and the proof of the claim. -/
structure TreeNode where
  claimant : Pubkey
  amount : UInt64
  proof : Option (List Hash)
  deriving DecidableEq, Repr

/-- `GeneratedMerkleTree`. -/
structure GeneratedMerkleTree where
  tipDistributionAccount : Pubkey
  merkleRootUploadAuthority : Pubkey
  merkleRoot : Hash
  treeNodes : List TreeNode
  maxTotalClaim : UInt64
  maxNumNodes : UInt64
  deriving DecidableEq, Repr

/-- `u128::MAX`. -/
def U128_MAX : Nat := 2 ^ 128 - 1

/-- `checked_mul` on `u128`. -/
def checkedMul (a b : Nat) : Option Nat := if a * b ≤ U128_MAX then some (a * b) else none

/-- `checked_div`. -/
def checkedDiv (a b : Nat) : Option Nat := if b = 0 then none else some (a / b)

/-- `checked_sub`. -/
def checkedSub (a b : Nat) : Option Nat := if b ≤ a then some (a - b) else none

/-- `TreeNode::vec_from_stake_meta`: `some none` without a tip distribution account; `none` is a
panic of an `unwrap`. -/
def vecFromStakeMeta (stakeMeta : StakeMeta) : Option (Option (List TreeNode)) :=
  match stakeMeta.maybeTipDistributionMeta with
  | none => some none
  | some tipDistributionMeta =>
    (checkedMul tipDistributionMeta.totalTips.toNat tipDistributionMeta.validatorFeeBps.toNat).bind
      fun product => (checkedDiv product 10000).bind fun validatorAmount =>
    -- `as u64`
    let validatorAmount := UInt64.ofNat validatorAmount
    (checkedSub tipDistributionMeta.totalTips.toNat validatorAmount.toNat).bind
      fun remainingTotalRewards =>
    let totalDelegated := stakeMeta.totalDelegated.toNat
    (stakeMeta.delegations.mapM fun delegation =>
      ((checkedMul delegation.lamportsDelegated.toNat remainingTotalRewards).bind fun product =>
        checkedDiv product totalDelegated).map fun rewardAmount =>
          { claimant := delegation.stakeAccountPubkey, amount := UInt64.ofNat rewardAmount,
            proof := none }).map fun rewards =>
    some ({ claimant := stakeMeta.validatorVoteAccount, amount := validatorAmount, proof := none } ::
      rewards)

/-- `TreeNode::hash`: the claimant and the amount fed to one `Hasher`. -/
def TreeNode.hash (sha256 : List UInt8 → Hash) (node : TreeNode) : Hash :=
  sha256 (node.claimant.toBytes ++ toLeBytes 8 node.amount.toNat)

/-- The tree of one stake meta, as `new_from_stake_meta_collection` builds it: `some none` for a
stake meta without a tip distribution account; `none` is a panic. -/
def generatedMerkleTree (sha256 : List UInt8 → Hash) (stakeMeta : StakeMeta) :
    Option (Option GeneratedMerkleTree) :=
  match stakeMeta.maybeTipDistributionMeta with
  | none => some none
  | some tipDistributionMeta =>
    (vecFromStakeMeta stakeMeta).bind fun
    | none => some none
    | some treeNodes =>
      let hashedNodes := treeNodes.map fun n => (n.hash sha256).toBytes
      (MerkleTree.new (hashv sha256) hashedNodes true).bind fun merkleTree =>
      (treeNodes.zipIdx.mapM fun ((treeNode, i) : TreeNode × Nat) =>
        (getProof merkleTree i).map fun proof => { treeNode with proof := some proof }).bind
          fun treeNodes =>
      (getRoot merkleTree).map fun merkleRoot =>
        some { tipDistributionAccount := tipDistributionMeta.tipDistributionPubkey
               merkleRootUploadAuthority := tipDistributionMeta.merkleRootUploadAuthority
               merkleRoot
               treeNodes
               maxTotalClaim := tipDistributionMeta.totalTips
               maxNumNodes := UInt64.ofNat treeNodes.length }

/-- `GeneratedMerkleTreeCollection::new_from_stake_meta_collection`, its trees: those of the stake
metas with a tip distribution account. -/
def newFromStakeMetaCollection (sha256 : List UInt8 → Hash) (stakeMetas : List StakeMeta) :
    Option (List GeneratedMerkleTree) :=
  ((stakeMetas.filter (·.maybeTipDistributionMeta.isSome)).mapM
    (generatedMerkleTree sha256)).map List.reduceOption

/-! ## The split of the tips -/

/-- The validator's cut of the tips. -/
def validatorCut (tipDistributionMeta : TipDistributionMeta) : Nat :=
  tipDistributionMeta.totalTips.toNat * tipDistributionMeta.validatorFeeBps.toNat / 10000

/-- The node of a delegation, with its share of the rest of the tips, pro rata to its stake. -/
def rewardNode (rest totalDelegated : Nat) (delegation : Delegation) : TreeNode :=
  { claimant := delegation.stakeAccountPubkey
    amount := UInt64.ofNat (delegation.lamportsDelegated.toNat * rest / totalDelegated)
    proof := none }

theorem mapM_eq_some_map {α β : Type} {f : α → Option β} {g : α → β} :
    ∀ {l : List α}, (∀ x ∈ l, f x = some (g x)) → l.mapM f = some (l.map g)
  | [], _ => rfl
  | x :: l, h => by
    rw [List.mapM_cons, h x List.mem_cons_self,
      mapM_eq_some_map fun y hy => h y (List.mem_cons_of_mem x hy)]
    rfl

theorem toNat_ofNat_of_le {n m : Nat} (h : n ≤ m) (hm : m < 2 ^ 64) : (UInt64.ofNat n).toNat = n :=
  UInt64.toNat_ofNat_of_lt' (by rw [UInt64.size]; omega)

/-- Shares rounded down add up to at most the share of the sum. -/
theorem sum_map_div_le (l : List Nat) (d : Nat) : (l.map (· / d)).sum ≤ l.sum / d := by
  induction l with
  | nil => simp
  | cons a l ih =>
    rw [List.map_cons, List.sum_cons, List.sum_cons]
    exact (Nat.add_le_add_left ih _).trans Nat.div_add_div_le_add_div

section Split

variable {stakeMeta : StakeMeta} {tipDistributionMeta : TipDistributionMeta}

/-- The assumptions of a stake meta the split reads: a fee of at most all the tips, and a total
stake that is the sum of the delegations, not zero when there is one. -/
structure SplitsTips (stakeMeta : StakeMeta) (tipDistributionMeta : TipDistributionMeta) : Prop where
  maybeMeta : stakeMeta.maybeTipDistributionMeta = some tipDistributionMeta
  fee : tipDistributionMeta.validatorFeeBps.toNat ≤ 10000
  delegated : stakeMeta.totalDelegated.toNat =
    (stakeMeta.delegations.map (·.lamportsDelegated.toNat)).sum
  nonzero : stakeMeta.delegations ≠ [] → stakeMeta.totalDelegated ≠ 0

theorem validatorCut_le (hfee : tipDistributionMeta.validatorFeeBps.toNat ≤ 10000) :
    validatorCut tipDistributionMeta ≤ tipDistributionMeta.totalTips.toNat := by
  unfold validatorCut
  apply Nat.div_le_of_le_mul
  rw [Nat.mul_comm 10000]
  exact Nat.mul_le_mul_left _ hfee

/-- The split does not panic: the products fit a `u128`, and the total stake is not zero when
it divides. -/
theorem vecFromStakeMeta_eq (h : SplitsTips stakeMeta tipDistributionMeta) :
    vecFromStakeMeta stakeMeta =
      some (some ({ claimant := stakeMeta.validatorVoteAccount
                    amount := UInt64.ofNat (validatorCut tipDistributionMeta)
                    proof := none } ::
        stakeMeta.delegations.map (rewardNode
          (tipDistributionMeta.totalTips.toNat - validatorCut tipDistributionMeta)
          stakeMeta.totalDelegated.toNat))) := by
  have htips := UInt64.toNat_lt tipDistributionMeta.totalTips
  have hcut := validatorCut_le h.fee
  have hcut64 := toNat_ofNat_of_le hcut htips
  have hproduct : tipDistributionMeta.totalTips.toNat * tipDistributionMeta.validatorFeeBps.toNat ≤
      U128_MAX := by
    have := UInt16.toNat_lt tipDistributionMeta.validatorFeeBps
    unfold U128_MAX
    calc _ ≤ 2 ^ 64 * 2 ^ 16 := Nat.mul_le_mul htips.le this.le
      _ ≤ 2 ^ 128 - 1 := by norm_num
  unfold vecFromStakeMeta
  rw [h.maybeMeta]
  dsimp only
  rw [checkedMul, if_pos hproduct, Option.bind_some, checkedDiv, if_neg (by norm_num),
    Option.bind_some, show tipDistributionMeta.totalTips.toNat *
      tipDistributionMeta.validatorFeeBps.toNat / 10000 = validatorCut tipDistributionMeta from rfl]
  rw [hcut64, checkedSub, if_pos hcut, Option.bind_some, mapM_eq_some_map, Option.map_some]
  -- each share: the product fits, and the total stake is not zero
  intro delegation hmem
  have hlamports := UInt64.toNat_lt delegation.lamportsDelegated
  have hshare : delegation.lamportsDelegated.toNat *
      (tipDistributionMeta.totalTips.toNat - validatorCut tipDistributionMeta) ≤ U128_MAX := by
    unfold U128_MAX
    calc _ ≤ (2 ^ 64 - 1) * (2 ^ 64 - 1) := Nat.mul_le_mul (by omega) (by omega)
      _ ≤ 2 ^ 128 - 1 := by norm_num
  have htotal : stakeMeta.totalDelegated.toNat ≠ 0 := by
    intro h0
    exact h.nonzero (List.ne_nil_of_mem hmem) (UInt64.toNat_inj.mp (by simpa using h0))
  rw [checkedMul, if_pos hshare, Option.bind_some, checkedDiv, if_neg htotal, Option.map_some]
  rfl

/-- The nodes hand out at most the tips. -/
theorem sum_amount_le (h : SplitsTips stakeMeta tipDistributionMeta) :
    (({ claimant := stakeMeta.validatorVoteAccount
        amount := UInt64.ofNat (validatorCut tipDistributionMeta)
        proof := none } :: stakeMeta.delegations.map (rewardNode
          (tipDistributionMeta.totalTips.toNat - validatorCut tipDistributionMeta)
          stakeMeta.totalDelegated.toNat)).map (·.amount.toNat)).sum ≤
      tipDistributionMeta.totalTips.toNat := by
  have htips := UInt64.toNat_lt tipDistributionMeta.totalTips
  have hcut := validatorCut_le h.fee
  set rest := tipDistributionMeta.totalTips.toNat - validatorCut tipDistributionMeta
  set total := stakeMeta.totalDelegated.toNat
  -- a share is at most the rest, so `as u64` keeps it
  have hshare : ∀ delegation ∈ stakeMeta.delegations,
      (rewardNode rest total delegation).amount.toNat =
        delegation.lamportsDelegated.toNat * rest / total := by
    intro delegation hmem
    have hle : delegation.lamportsDelegated.toNat ≤ total := by
      rw [show total = _ from h.delegated]
      exact List.le_sum_of_mem (List.mem_map_of_mem hmem)
    apply toNat_ofNat_of_le _ (show rest < 2 ^ 64 by omega)
    rcases Nat.eq_zero_or_pos total with h0 | hpos
    · rw [h0, Nat.div_zero]
      exact Nat.zero_le _
    · exact Nat.div_le_of_le_mul (Nat.mul_le_mul_right rest hle)
  -- the shares add up to at most the rest
  have hshares : ((stakeMeta.delegations.map (rewardNode rest total)).map
      (·.amount.toNat)).sum ≤ rest := by
    have hamounts : (stakeMeta.delegations.map (rewardNode rest total)).map (·.amount.toNat) =
        stakeMeta.delegations.map fun d => d.lamportsDelegated.toNat * rest / total := by
      rw [List.map_map]
      exact List.map_congr_left hshare
    rw [hamounts]
    calc _ = ((stakeMeta.delegations.map fun d => d.lamportsDelegated.toNat * rest).map
            (· / total)).sum := by rw [List.map_map]; rfl
      _ ≤ (stakeMeta.delegations.map fun d => d.lamportsDelegated.toNat * rest).sum / total :=
          sum_map_div_le _ _
      _ = total * rest / total := by
          rw [List.sum_map_mul_right, show total = _ from h.delegated]
      _ ≤ rest := Nat.div_le_of_le_mul (Nat.le_refl _)
  rw [List.map_cons, List.sum_cons, toNat_ofNat_of_le hcut htips]
  omega

end Split

/-! ## The proofs of the nodes -/

/-- A node read as a leaf: its hash, hashed with the leaf prefix. -/
def leaf (sha256 : List UInt8 → Hash) (node : TreeNode) : Hash :=
  hashLeaf (hashv sha256) (node.hash sha256).toBytes

/-- The tree of a stake meta whose split goes through: its nodes are those of the split, each with
its proof, which folds with the sorted join from the node's leaf into the root. -/
theorem generatedMerkleTree_eq (sha256 : List UInt8 → Hash) {stakeMeta : StakeMeta}
    {tipDistributionMeta : TipDistributionMeta}
    (hmeta : stakeMeta.maybeTipDistributionMeta = some tipDistributionMeta)
    {treeNodes : List TreeNode} (hvec : vecFromStakeMeta stakeMeta = some (some treeNodes))
    (hne : treeNodes ≠ []) :
    ∃ g, generatedMerkleTree sha256 stakeMeta = some (some g) ∧
      g.maxTotalClaim = tipDistributionMeta.totalTips ∧
      g.maxNumNodes = UInt64.ofNat treeNodes.length ∧
      g.treeNodes.map (fun node => (node.claimant, node.amount)) =
        treeNodes.map (fun node => (node.claimant, node.amount)) ∧
      ∀ node ∈ g.treeNodes, ∃ proof, node.proof = some proof ∧
        proof.foldl (sortedJoin (hashIntermediate (hashv sha256))) (leaf sha256 node) =
          g.merkleRoot := by
  set hashedNodes := treeNodes.map fun n => (n.hash sha256).toBytes
  set merkleTree : MerkleTree :=
    { leafCount := hashedNodes.length
      nodes := (levels (join (hashv sha256) true) (hashedNodes.map (hashLeaf (hashv sha256)))).flatten }
  -- the proof of each position, and the root, from the tree `new` builds
  have hproof : ∀ i (hi : i < treeNodes.length), ∃ root proof, getRoot merkleTree = some root ∧
      getProof merkleTree i = some proof ∧
      proof.foldl (sortedJoin (hashIntermediate (hashv sha256))) (leaf sha256 treeNodes[i]) =
        root := by
    intro i hi
    obtain ⟨t, root, proof, ht, hroot, hget, hfold⟩ :=
      @foldl_getProof (hashv sha256) hashedNodes _ (by rw [List.length_map]; exact hi)
    rw [new_eq] at ht
    cases ht
    refine ⟨root, proof, hroot, hget, ?_⟩
    rw [← hfold, List.getElem_map]
    rfl
  obtain ⟨root, -, hroot, -, -⟩ := hproof 0 (List.length_pos_iff.mpr hne)
  -- every node gets its proof
  have hproofs : (treeNodes.zipIdx.mapM fun ((treeNode, i) : TreeNode × Nat) =>
      (getProof merkleTree i).map fun proof => { treeNode with proof := some proof }) =
      some (treeNodes.zipIdx.map fun ((treeNode, i) : TreeNode × Nat) =>
        { treeNode with proof := getProof merkleTree i }) := by
    apply mapM_eq_some_map
    rintro ⟨treeNode, i⟩ hmem
    obtain ⟨-, hi, -⟩ := List.mem_zipIdx hmem
    obtain ⟨-, proof, -, hget, -⟩ := hproof i (by omega)
    dsimp only
    rw [hget]
    rfl
  unfold generatedMerkleTree
  rw [hmeta]
  dsimp only
  rw [hvec, Option.bind_some]
  dsimp only
  rw [new_eq, Option.bind_some, hproofs, Option.bind_some, hroot, Option.map_some]
  refine ⟨_, rfl, rfl, by simp, ?_, ?_⟩
  · rw [List.map_map]
    conv_rhs => rw [← List.zipIdx_map_fst 0 treeNodes, List.map_map]
    rfl
  · intro node hnode
    obtain ⟨⟨treeNode, i⟩, hmem, rfl⟩ := List.mem_map.mp hnode
    obtain ⟨-, hi, htreeNode⟩ := List.mem_zipIdx hmem
    obtain ⟨root', proof, hroot', hget, hfold⟩ := hproof i (by omega)
    rw [hroot, Option.some.injEq] at hroot'
    subst hroot'
    refine ⟨proof, by dsimp only; rw [hget], ?_⟩
    rw [← hfold, htreeNode]
    rfl

end Agave.TipDistributor
