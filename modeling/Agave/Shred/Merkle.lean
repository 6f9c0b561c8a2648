import Agave.Sdk.Basic
import Agave.Lib.MerkleLevels

/-!
# The Merkle tree of an erasure batch

`shred/merkle.rs`. The shreds of an erasure batch are the leaves of a binary Merkle tree, and each
shred carries the root with its own proof. `make_merkle_tree` lays the levels of the tree end to end
in one vector, `make_merkle_proof` reads a leaf's siblings off that vector level by level, and
`get_merkle_root` folds a proof back into a root, the node on the side its index says. A proof
entry, and each child of a join, is the first 20 bytes of a hash.

The vector the source builds is the list of levels of `MerkleLevels` laid end to end
(`makeMerkleTree_eq`), the proof it reads is a leaf's path cut to proof entries
(`makeMerkleProof_eq`), and the fold of the verifier is the indexed fold of the path
(`getMerkleRoot_map_entry`). So every leaf has a proof of `⌈log₂ n⌉` entries that leads back to the
root (`merkle_proofs_complete`).
-/

namespace Agave.Shred

open MerkleLevels

/-- `SIZE_OF_MERKLE_PROOF_ENTRY`. -/
def SIZE_OF_MERKLE_PROOF_ENTRY : Nat := 20

/-- `MERKLE_HASH_PREFIX_NODE`. -/
def MERKLE_HASH_PREFIX_NODE : List UInt8 := "\x01SOLANA_MERKLE_SHREDS_NODE".toUTF8.toList

/-- `MerkleProofEntry = [u8; 20]`. -/
abbrev MerkleProofEntry := List UInt8

/-- The errors of `shred.rs` that the modelled functions return: `get_merkle_root`'s, those of a
data shred's capacity and payload, of `make_shreds_from_data`, and the erasure error of `deshred`. -/
inductive Error where
  | invalidMerkleProof
  | invalidProofSize (proofSize : Nat)
  | invalidDataSize (size payload : Nat)
  | invalidParentSlot (slot parentSlot : Nat)
  | unknownProofSize
  | tooFewDataShards
  deriving DecidableEq, Repr

/-- `join_nodes`: the parent of two nodes, each cut to a proof entry. -/
def joinNodes (sha256 : List UInt8 → Hash) (node other : List UInt8) : Hash :=
  let node := node.take SIZE_OF_MERKLE_PROOF_ENTRY
  let other := other.take SIZE_OF_MERKLE_PROOF_ENTRY
  hashv sha256 [MERKLE_HASH_PREFIX_NODE, node, other]

/-- `get_merkle_root`: the root from a leaf at `index` and its proof. -/
def getMerkleRoot (sha256 : List UInt8 → Hash) (index : Nat) (node : Hash)
    (proof : List MerkleProofEntry) : Except Error Hash :=
  let (index, root) := proof.foldl (fun (index, node) other =>
    let parent := if index % 2 = 0 then joinNodes sha256 node.toBytes other
      else joinNodes sha256 other node.toBytes
    (index >>> 1, parent)) (index, node)
  if index = 0 then .ok root else .error .invalidMerkleProof

/-- The inner loop of `make_merkle_tree`: for each `index` of
`(offset..offset + size).step_by(2)`, the parent of the node there and of the next one, or of the
node with itself when it is the last of its level, pushed onto the vector. The source indexes the
vector, which cannot be out of bounds here; a read past the end is `default`. -/
def pushParents (sha256 : List UInt8 → Hash) (offset size : Nat) (nodes : List Hash) :
    List Hash :=
  (List.range' offset ((size + 1) / 2) 2).foldl (fun nodes index =>
    let node := nodes.getD index default
    let other := nodes.getD (min (index + 1) (offset + size - 1)) default
    let parent := joinNodes sha256 node.toBytes other.toBytes
    nodes ++ [parent]) nodes

theorem length_foldl_push {β : Type} (f : List Hash → β → Hash) :
    ∀ (idxs : List β) (nodes : List Hash),
      (idxs.foldl (fun nodes index => nodes ++ [f nodes index]) nodes).length =
        nodes.length + idxs.length
  | [], _ => rfl
  | index :: idxs, nodes => by
    simp only [List.foldl_cons, length_foldl_push f idxs, List.length_append, List.length_cons,
      List.length_nil]
    omega

theorem length_pushParents (sha256 : List UInt8 → Hash) (offset size : Nat) (nodes : List Hash) :
    (pushParents sha256 offset size nodes).length = nodes.length + (size + 1) / 2 := by
  unfold pushParents
  rw [length_foldl_push, List.length_range']

/-- The outer loop of `make_merkle_tree`, over the `size` nodes of the level last pushed. -/
def makeMerkleTreeLoop (sha256 : List UInt8 → Hash) (nodes : List Hash) (size : Nat) :
    List Hash :=
  if size > 1 then
    let offset := nodes.length - size
    let nodes' := pushParents sha256 offset size nodes
    makeMerkleTreeLoop sha256 nodes' (nodes'.length - offset - size)
  else nodes
termination_by size
decreasing_by
  rw [length_pushParents]
  omega

/-- `make_merkle_tree`. -/
def makeMerkleTree (sha256 : List UInt8 → Hash) (nodes : List Hash) : List Hash :=
  makeMerkleTreeLoop sha256 nodes nodes.length

/-- The loop of `make_merkle_proof`: the sibling of the node at `index` among the `size` nodes of
the level at `offset`, cut to a proof entry, then the level above. -/
def makeMerkleProofLoop (tree : List Hash) (index size offset : Nat)
    (proof : List MerkleProofEntry) : Option (List MerkleProofEntry) :=
  if size > 1 then
    match tree[offset + min (index ^^^ 1) (size - 1)]? with
    | none => none
    | some node =>
      let entry := node.toBytes.take SIZE_OF_MERKLE_PROOF_ENTRY
      makeMerkleProofLoop tree (index >>> 1) ((size + 1) >>> 1) (offset + size) (proof ++ [entry])
  else if offset + 1 = tree.length then some proof else none
termination_by size
decreasing_by
  simp only [Nat.shiftRight_one]
  omega

/-- `make_merkle_proof`. -/
def makeMerkleProof (index size : Nat) (tree : List Hash) : Option (List MerkleProofEntry) :=
  if index ≥ size then none else makeMerkleProofLoop tree index size 0 []

/-- `usize::is_power_of_two`. -/
def isPowerOfTwo (n : Nat) : Bool := n == 2 ^ n.log2

/-- `usize::BITS - n.leading_zeros()`: the number of bits of `n`. -/
def bitLength (n : Nat) : Nat := if n = 0 then 0 else n.log2 + 1

/-- `get_proof_size`: the number of entries of a proof in a batch of `numShreds` shreds. For a
power of two the number of bits is at least one, and for a `usize` the size is at most 64, so
neither the subtraction nor the conversion to `u8` fails. -/
def getProofSize (numShreds : Nat) : Nat :=
  let bits := bitLength numShreds
  if isPowerOfTwo numShreds then bits - 1 else bits

/-- The number of nodes of a tree over `n` leaves: the leaves and, while a level has two nodes, the
level of their parents. -/
def merkleTreeSize (n : Nat) : Nat := if 1 < n then n + merkleTreeSize ((n + 1) / 2) else n
termination_by n
decreasing_by omega

theorem merkleTreeSize_of_one_lt {n : Nat} (h : 1 < n) :
    merkleTreeSize n = n + merkleTreeSize ((n + 1) / 2) := by
  rw [merkleTreeSize, if_pos h]

theorem merkleTreeSize_of_not_one_lt {n : Nat} (h : ¬1 < n) : merkleTreeSize n = n := by
  rw [merkleTreeSize, if_neg h]

/-! ## The tree is its levels laid end to end -/

/-- The join the tree is built with. -/
def join (sha256 : List UInt8 → Hash) (node other : Hash) : Hash :=
  joinNodes sha256 node.toBytes other.toBytes

/-- A read of the middle part of three lists laid end to end. -/
theorem getD_append_middle {α : Type} (pre mid post : List α) {k : Nat} (hk : k < mid.length)
    (d : α) : (pre ++ mid ++ post).getD (pre.length + k) d = mid[k] := by
  rw [List.getD_eq_getElem?_getD, List.append_assoc, List.getElem?_append_right (by omega),
    Nat.add_sub_cancel_left, List.getElem?_append_left hk, List.getElem?_eq_getElem hk]
  rfl

/-- The first `m` parents of a level, pushed after it. -/
theorem foldl_pushParents (sha256 : List UInt8 → Hash) (pre level : List Hash) :
    ∀ m, m ≤ (level.length + 1) / 2 →
      (List.range' pre.length m 2).foldl (fun nodes index =>
        nodes ++ [joinNodes sha256 (nodes.getD index default).toBytes
          (nodes.getD (min (index + 1) (pre.length + level.length - 1)) default).toBytes])
        (pre ++ level) = pre ++ level ++ (up (join sha256) level).take m
  | 0, _ => by simp
  | m + 1, hm => by
    rw [List.range'_concat, List.foldl_append, foldl_pushParents sha256 pre level m (by omega),
      List.foldl_cons, List.foldl_nil]
    -- the node and its partner are read in the level, not among the parents pushed so far
    have hnode : 2 * m < level.length := by omega
    have hpartner : min (pre.length + 2 * m + 1) (pre.length + level.length - 1) =
        pre.length + min (2 * m + 1) (level.length - 1) := by omega
    have hup : (up (join sha256) level)[m]? =
        some (join sha256 level[2 * m] level[min (2 * m + 1) (level.length - 1)]) := by
      rw [getElem?_up, List.getElem?_eq_getElem hnode, Option.map_some]
      by_cases hlast : 2 * m + 1 < level.length
      · rw [List.getElem?_eq_getElem hlast, Option.getD_some]
        simp only [show min (2 * m + 1) (level.length - 1) = 2 * m + 1 by omega]
      · rw [List.getElem?_eq_none (by omega), Option.getD_none]
        simp only [show min (2 * m + 1) (level.length - 1) = 2 * m by omega]
    rw [show pre.length + 2 * m = pre.length + 2 * m from rfl, hpartner,
      getD_append_middle _ _ _ hnode, getD_append_middle _ _ _ (by omega),
      List.take_add_one, hup, Option.toList_some, List.append_assoc]
    rfl

theorem pushParents_eq (sha256 : List UInt8 → Hash) (pre level : List Hash) :
    pushParents sha256 pre.length level.length (pre ++ level) =
      pre ++ level ++ up (join sha256) level := by
  unfold pushParents
  rw [foldl_pushParents sha256 pre level _ (Nat.le_refl _), List.take_of_length_le]
  rw [length_up]

/-- The loop of `make_merkle_tree` from a level lays it and the levels above it end to end. -/
theorem makeMerkleTreeLoop_eq (sha256 : List UInt8 → Hash) (level : List Hash) :
    ∀ pre, makeMerkleTreeLoop sha256 (pre ++ level) level.length =
      pre ++ (levels (join sha256) level).flatten := by
  induction level using levels.induct (join sha256) with
  | case1 level hlen ih =>
    intro pre
    rw [makeMerkleTreeLoop, if_pos hlen]
    dsimp only
    rw [List.length_append, Nat.add_sub_cancel, pushParents_eq, levels_eq, if_pos hlen,
      List.flatten_cons, show (pre ++ level ++ up (join sha256) level).length - pre.length -
        level.length = (up (join sha256) level).length by simp, ih (pre ++ level),
      List.append_assoc]
  | case2 level hlen =>
    intro pre
    rw [makeMerkleTreeLoop, if_neg hlen, levels_eq, if_neg hlen]
    simp

theorem makeMerkleTree_eq (sha256 : List UInt8 → Hash) (nodes : List Hash) :
    makeMerkleTree sha256 nodes = (levels (join sha256) nodes).flatten := by
  have := makeMerkleTreeLoop_eq sha256 nodes []
  rw [List.nil_append, List.nil_append] at this
  exact this

theorem length_makeMerkleTree (sha256 : List UInt8 → Hash) (nodes : List Hash) :
    (makeMerkleTree sha256 nodes).length = merkleTreeSize nodes.length := by
  rw [makeMerkleTree_eq]
  induction nodes using levels.induct (join sha256) with
  | case1 level hlen ih =>
    rw [length_flatten_levels, if_pos hlen, ih, length_up, merkleTreeSize_of_one_lt hlen]
  | case2 level hlen =>
    rw [length_flatten_levels, if_neg hlen, merkleTreeSize_of_not_one_lt hlen, Nat.add_zero]

/-! ## The proof is the path of the leaf -/

/-- A proof entry: the first 20 bytes of a node. -/
def entry (node : Hash) : MerkleProofEntry := node.toBytes.take SIZE_OF_MERKLE_PROOF_ENTRY

/-- The node the loop reads is the sibling: `index ^ 1` is the other node of the pair, and the last
node of an odd level is its own sibling. -/
theorem getElem?_xor_one_min {α : Type} {level : List α} {j : Nat} (hj : j < level.length) :
    level[min (j ^^^ 1) (level.length - 1)]? = sibling level j := by
  unfold sibling
  by_cases heven : j % 2 = 0
  · rw [Nat.xor_one_of_even (Nat.even_iff.mpr heven), if_pos heven]
    by_cases hlast : j + 1 < level.length
    · rw [show min (j + 1) (level.length - 1) = j + 1 by omega, List.getElem?_eq_getElem hlast]
      rfl
    · rw [show min (j + 1) (level.length - 1) = j by omega,
        List.getElem?_eq_none (show level.length ≤ j + 1 by omega)]
      rfl
  · rw [Nat.xor_one_of_odd (Nat.odd_iff.mpr (show j % 2 = 1 by omega)), if_neg heven,
      show min (j - 1) (level.length - 1) = j - 1 by omega]

/-- The loop of `make_merkle_proof` from a level reads the siblings of the node's path, cut to
proof entries. -/
theorem makeMerkleProofLoop_eq (sha256 : List UInt8 → Hash) (level : List Hash) :
    ∀ pre index proof, index < level.length →
      makeMerkleProofLoop (pre ++ (levels (join sha256) level).flatten) index level.length
          pre.length proof =
        (siblings (levels (join sha256) level) index).map (proof ++ ·.map entry) := by
  induction level using levels.induct (join sha256) with
  | case1 level hlen ih =>
    intro pre index proof hindex
    have hlevels : levels (join sha256) level = level :: levels (join sha256) (up (join sha256) level) := by
      rw [levels_eq, if_pos hlen]
    -- the sibling is read in this level, and the loop goes on one level up
    obtain ⟨s, hs⟩ : ∃ s, sibling level index = some s := by
      rw [← getElem?_xor_one_min hindex]
      exact ⟨_, List.getElem?_eq_getElem (by omega)⟩
    have hread : (pre ++ (levels (join sha256) level).flatten)[pre.length +
        min (index ^^^ 1) (level.length - 1)]? = some s := by
      rw [hlevels, List.flatten_cons, ← List.append_assoc, List.getElem?_append_left (by simp; omega),
        List.getElem?_append_right (by omega), Nat.add_sub_cancel_left, getElem?_xor_one_min hindex, hs]
    rw [makeMerkleProofLoop, if_pos hlen, hread]
    dsimp only
    rw [hlevels, siblings_cons_levels, hs, Option.bind_some, List.flatten_cons,
      ← List.append_assoc, Nat.shiftRight_one, Nat.shiftRight_one,
      show pre.length + level.length = (pre ++ level).length by simp, ← length_up (join sha256),
      ih (pre ++ level) (index / 2) _ (by rw [length_up]; omega), Option.map_map]
    congr 1
    funext path
    simp only [Function.comp, List.map_cons, entry, List.append_assoc, List.singleton_append]
  | case2 level hlen =>
    intro pre index proof hindex
    rw [makeMerkleProofLoop, if_neg hlen, levels_eq, if_neg hlen, if_pos (by simp; omega),
      show siblings [level] index = some [] from rfl, Option.map_some, List.map_nil,
      List.append_nil]

theorem makeMerkleProof_eq (sha256 : List UInt8 → Hash) (nodes : List Hash) {index : Nat}
    (hindex : index < nodes.length) :
    makeMerkleProof index nodes.length (makeMerkleTree sha256 nodes) =
      (siblings (levels (join sha256) nodes) index).map (·.map entry) := by
  rw [makeMerkleProof, if_neg (Nat.not_le.mpr hindex), makeMerkleTree_eq]
  have := makeMerkleProofLoop_eq sha256 nodes [] index [] hindex
  simp only [List.nil_append, List.length_nil] at this
  exact this

/-- The verifier's fold over proof entries is the indexed fold of the path: `join_nodes` cuts the
node to an entry again, which changes nothing. -/
theorem getMerkleRoot_map_entry (sha256 : List UInt8 → Hash) (index : Nat) (node : Hash)
    (path : List Hash) :
    getMerkleRoot sha256 index node (path.map entry) =
      let r := path.foldl (joinAt (join sha256)) (index, node)
      if r.1 = 0 then .ok r.2 else .error .invalidMerkleProof := by
  unfold getMerkleRoot
  rw [List.foldl_map]
  have hstep : ∀ (p : Nat × Hash) (s : Hash),
      (match p, entry s with
        | (index, node), other =>
          ((index >>> 1, if index % 2 = 0 then joinNodes sha256 node.toBytes other
            else joinNodes sha256 other node.toBytes) : Nat × Hash)) = joinAt (join sha256) p s := by
    rintro ⟨i, a⟩ s
    simp only [joinAt, join, joinNodes, entry, List.take_take, Nat.min_self, Nat.shiftRight_one]
  simp only [hstep]

/-! ## The proof size -/

theorem getProofSize_eq_clog {n : Nat} (hn : 0 < n) : getProofSize n = Nat.clog 2 n := by
  have hlog := Nat.log2_self_le (Nat.pos_iff_ne_zero.mp hn)
  have hlt : n < 2 ^ (n.log2 + 1) := Nat.lt_log2_self
  unfold getProofSize bitLength isPowerOfTwo
  rw [if_neg (Nat.pos_iff_ne_zero.mp hn)]
  by_cases hpow : n = 2 ^ n.log2
  · -- a power of two: `log₂ n` levels exactly
    rw [if_pos (beq_iff_eq.mpr hpow), Nat.add_sub_cancel, hpow, Nat.clog_pow 2 _ (by decide),
      Nat.log2_two_pow]
  · -- otherwise one more than the levels below it
    rw [if_neg (by rw [beq_iff_eq]; exact hpow)]
    refine Nat.le_antisymm ?_ ((Nat.clog_le_iff_le_pow (by decide)).mpr (Nat.le_of_lt hlt))
    exact (Nat.lt_clog_iff_pow_lt (by decide)).mpr (Nat.lt_of_le_of_ne hlog (Ne.symm hpow))

/-! ## Every leaf's proof leads to the root -/

/-- `make_merkle_tree` and `make_merkle_proof` against `get_merkle_root`: the tree over `n` leaves
has the leaves and each level of parents above them; a leaf past the end has no proof; and every
leaf has a proof of `get_proof_size(n) = ⌈log₂ n⌉` entries that `get_merkle_root` folds into the
last node of the tree. -/
theorem merkle_proofs_complete (sha256 : List UInt8 → Hash) (nodes : List Hash) :
    let tree := makeMerkleTree sha256 nodes
    tree.length = merkleTreeSize nodes.length ∧
      (∀ i, nodes.length ≤ i → makeMerkleProof i nodes.length tree = none) ∧
      ∀ i (hi : i < nodes.length), ∃ proof root,
        makeMerkleProof i nodes.length tree = some proof ∧
        proof.length = getProofSize nodes.length ∧
        getProofSize nodes.length = Nat.clog 2 nodes.length ∧
        tree.getLast? = some root ∧ getMerkleRoot sha256 i nodes[i] proof = .ok root := by
  intro tree
  refine ⟨length_makeMerkleTree sha256 nodes, fun i hi => if_pos hi, fun i hi => ?_⟩
  obtain ⟨root, path, hroot, hpath, hfold⟩ := @foldl_joinAt_siblings _ (join sha256) nodes _ hi
  have hne : nodes ≠ [] := List.ne_nil_of_length_pos (by omega)
  have hsize := getProofSize_eq_clog (Nat.lt_of_le_of_lt (Nat.zero_le i) hi)
  refine ⟨path.map entry, root, ?_, ?_, hsize, ?_, ?_⟩
  · rw [makeMerkleProof_eq sha256 nodes hi, hpath]
    rfl
  · -- one entry for each level below the root
    have hlen := length_siblings_levels nodes hpath
    rw [length_levels hne] at hlen
    rw [List.length_map, hsize]
    omega
  · show (makeMerkleTree sha256 nodes).getLast? = some root
    rw [makeMerkleTree_eq]
    exact getLast?_flatten hroot
  · rw [getMerkleRoot_map_entry, hfold]
    rfl

end Agave.Shred
