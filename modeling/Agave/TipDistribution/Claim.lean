import Agave.MerkleTree.Tree
import Agave.Sdk.Transaction

/-!
# The tip distribution program's claim

`claim` of `tip-distribution/src/lib.rs`, with `verify` of `merkle_proof.rs`. A claim proves its
node, the claimant and the amount hashed as the tip distributor hashes a tree node, by a proof
that `verify` folds into the uploaded root, each pair joined in sorted order since the proof does
not say on which side a sibling is. The claim then counts the funds and the nodes claimed against
the limits uploaded with the root. Of the instruction only the root's accounting is kept: the
claim status account, the expiry check and the transfer of the lamports are left out.

Over a run of claims from a freshly uploaded root (`claimAll`), every claim goes through when each
proof verifies and the claims add up to no more than the limits (`claimAll_ok`).
-/

namespace Agave.TipDistribution

/-- `merkle_proof::verify`. -/
def verify (sha256 : List UInt8 → Hash) (proof : List Hash) (root leaf : Hash) : Bool :=
  let computedHash := proof.foldl (fun computedHash proofElement =>
    if computedHash ≤ proofElement then
      -- Hash(current computed hash + current element of the proof)
      hashv sha256 [[1], computedHash.toBytes, proofElement.toBytes]
    else
      -- Hash(current element of the proof + current computed hash)
      hashv sha256 [[1], proofElement.toBytes, computedHash.toBytes]) leaf
  -- Check if the computed hash (root) is equal to the provided root
  computedHash == root

/-- `MerkleRoot`. -/
structure MerkleRoot where
  root : Hash
  maxTotalClaim : UInt64
  maxNumNodes : UInt64
  totalFundsClaimed : UInt64
  numNodesClaimed : UInt64
  deriving DecidableEq, Repr

/-- The errors of `claim` that its accounting raises. -/
inductive ErrorCode where
  | invalidProof
  | arithmeticError
  | exceedsMaxClaim
  | exceedsMaxNumNodes
  deriving DecidableEq, Repr

/-- `checked_add` on `u64`. -/
def checkedAdd (a b : UInt64) : Option UInt64 :=
  if a.toNat + b.toNat ≤ U64_MAX then some (a + b) else none

/-- `upload_merkle_root`: the root and its limits, nothing claimed yet. -/
def uploadMerkleRoot (root : Hash) (maxTotalClaim maxNumNodes : UInt64) : MerkleRoot :=
  { root, maxTotalClaim, maxNumNodes, totalFundsClaimed := 0, numNodesClaimed := 0 }

/-- The node a claim proves. -/
def claimNode (sha256 : List UInt8 → Hash) (claimant : Pubkey) (amount : UInt64) : Hash :=
  hashv sha256 [[0], (hashv sha256 [claimant.toBytes, toLeBytes 8 amount.toNat]).toBytes]

/-- `claim`, on the merkle root. -/
def claim (sha256 : List UInt8 → Hash) (merkleRoot : MerkleRoot) (claimant : Pubkey)
    (amount : UInt64) (proof : List Hash) : Except ErrorCode MerkleRoot :=
  if !verify sha256 proof merkleRoot.root (claimNode sha256 claimant amount) then
    .error .invalidProof
  else
    match checkedAdd merkleRoot.totalFundsClaimed amount with
    | none => .error .arithmeticError
    | some totalFundsClaimed =>
      if totalFundsClaimed > merkleRoot.maxTotalClaim then .error .exceedsMaxClaim
      else
        match checkedAdd merkleRoot.numNodesClaimed 1 with
        | none => .error .arithmeticError
        | some numNodesClaimed =>
          if numNodesClaimed > merkleRoot.maxNumNodes then .error .exceedsMaxNumNodes
          else .ok { merkleRoot with totalFundsClaimed, numNodesClaimed }

/-- Claims one after another: the claimant, the amount and the proof of each. -/
def claimAll (sha256 : List UInt8 → Hash) (merkleRoot : MerkleRoot)
    (claims : List (Pubkey × UInt64 × List Hash)) : Except ErrorCode MerkleRoot :=
  claims.foldlM (fun merkleRoot (claimant, amount, proof) =>
    claim sha256 merkleRoot claimant amount proof) merkleRoot

/-! ## Claims within the limits -/

theorem checkedAdd_eq {a b : UInt64} (h : a.toNat + b.toNat ≤ U64_MAX) :
    ∃ c, checkedAdd a b = some c ∧ c.toNat = a.toNat + b.toNat := by
  refine ⟨a + b, by rw [checkedAdd, if_pos h], ?_⟩
  rw [UInt64.toNat_add, Nat.mod_eq_of_lt (by unfold U64_MAX at h; omega)]

/-- A claim that verifies and stays within the limits goes through, and counts its funds and
itself. -/
theorem claim_ok (sha256 : List UInt8 → Hash) {merkleRoot : MerkleRoot} {claimant : Pubkey}
    {amount : UInt64} {proof : List Hash}
    (hverify : verify sha256 proof merkleRoot.root (claimNode sha256 claimant amount) = true)
    (hfunds : merkleRoot.totalFundsClaimed.toNat + amount.toNat ≤ merkleRoot.maxTotalClaim.toNat)
    (hnodes : merkleRoot.numNodesClaimed.toNat + 1 ≤ merkleRoot.maxNumNodes.toNat) :
    ∃ merkleRoot', claim sha256 merkleRoot claimant amount proof = .ok merkleRoot' ∧
      merkleRoot'.root = merkleRoot.root ∧ merkleRoot'.maxTotalClaim = merkleRoot.maxTotalClaim ∧
      merkleRoot'.maxNumNodes = merkleRoot.maxNumNodes ∧
      merkleRoot'.totalFundsClaimed.toNat = merkleRoot.totalFundsClaimed.toNat + amount.toNat ∧
      merkleRoot'.numNodesClaimed.toNat = merkleRoot.numNodesClaimed.toNat + 1 := by
  -- a `u64` limit bounds the sums, so neither addition overflows
  have hmax := UInt64.toNat_lt merkleRoot.maxTotalClaim
  have hmaxNodes := UInt64.toNat_lt merkleRoot.maxNumNodes
  obtain ⟨totalFundsClaimed, hadd, htotal⟩ := checkedAdd_eq (a := merkleRoot.totalFundsClaimed)
    (b := amount) (by unfold U64_MAX; omega)
  obtain ⟨numNodesClaimed, hadd', hnum⟩ := checkedAdd_eq (a := merkleRoot.numNodesClaimed)
    (b := 1) (by unfold U64_MAX; simp only [UInt64.toNat_one]; omega)
  rw [UInt64.toNat_one] at hnum
  unfold claim
  rw [hverify, Bool.not_true, if_neg Bool.false_ne_true, hadd]
  dsimp only
  rw [if_neg (by rw [gt_iff_lt, UInt64.lt_iff_toNat_lt]; omega), hadd']
  dsimp only
  rw [if_neg (by rw [gt_iff_lt, UInt64.lt_iff_toNat_lt]; omega)]
  exact ⟨_, rfl, rfl, rfl, rfl, htotal, hnum⟩

/-- A run of claims that each verify, and that together stay within the limits, goes through. -/
theorem claimAll_ok (sha256 : List UInt8 → Hash) :
    ∀ (claims : List (Pubkey × UInt64 × List Hash)) (merkleRoot : MerkleRoot),
      (∀ c ∈ claims, verify sha256 c.2.2 merkleRoot.root (claimNode sha256 c.1 c.2.1) = true) →
      merkleRoot.totalFundsClaimed.toNat + (claims.map (·.2.1.toNat)).sum ≤
        merkleRoot.maxTotalClaim.toNat →
      merkleRoot.numNodesClaimed.toNat + claims.length ≤ merkleRoot.maxNumNodes.toNat →
      ∃ merkleRoot', claimAll sha256 merkleRoot claims = .ok merkleRoot'
  | [], merkleRoot, _, _, _ => ⟨merkleRoot, rfl⟩
  | (claimant, amount, proof) :: claims, merkleRoot, hverify, hfunds, hnodes => by
    rw [List.map_cons, List.sum_cons] at hfunds
    rw [List.length_cons] at hnodes
    obtain ⟨merkleRoot', hclaim, hroot, hmax, hmaxNodes, htotal, hnum⟩ :=
      claim_ok sha256 (hverify _ List.mem_cons_self) (by omega) (by omega)
    -- the rest of the run, from the root after the first claim
    obtain ⟨merkleRoot'', hrest⟩ := claimAll_ok sha256 claims merkleRoot'
      (fun c hc => hroot ▸ hverify c (List.mem_cons_of_mem _ hc))
      (by rw [htotal, hmax]; omega) (by rw [hnum, hmaxNodes]; omega)
    refine ⟨merkleRoot'', ?_⟩
    unfold claimAll
    rw [List.foldlM_cons]
    dsimp only
    rw [hclaim]
    exact hrest

end Agave.TipDistribution
