import Agave.Lib.AssocList
import Agave.Lib.Forest
import Agave.Consensus.TreeDiff
import Agave.Vote.State
import Agave.Gossip.Crds
import Agave.MerkleTree.Tree

/-!
# Heaviest-subtree fork choice: the tree of forks

`core/src/consensus/heaviest_subtree_fork_choice.rs`. The fork choice keeps a `ForkInfo` for every
block it knows, a slot with the hash of its bank: the stake whose latest vote is that block, the
stake voted in the subtree it roots, the subtree's height, its heaviest and its deepest leaf, the
parent and the children, and what is known of the block's validity. `add_new_leaf_slot` hangs a
new block under its parent, and `propagate_new_leaf` tells the ancestors whose best or deepest leaf
it now is.

The `HashMap` of fork infos is an association list. Its length is the fuel of the walks up the
parent pointers (`AncestorIterator`), which in a tree never run out of it
(`Forest.depth_lt_length`). A `BTreeSet` of children is a sorted list. `last_root_time` and the
state printing it paces are left out: they only log. A panic (`unwrap`, `expect`, `assert!`) is
`none`.
-/

namespace Agave.Consensus

open Agave.Vote

/-- The order of `Hash`, the word its bytes make (`<` and `≤` as `Gossip.Crds` and
`MerkleTree.Tree` give them): not `≤`, so `>`. -/
theorem Hash.lt_of_not_le {a b : Hash} (h : ¬b ≤ a) : a < b :=
  BitVec.not_le.mp h

/-- `SlotHashKey = (Slot, Hash)`. -/
structure SlotHashKey where
  slot : Slot
  hash : Hash
  deriving DecidableEq, Repr

namespace SlotHashKey

/-- The tuple's derived order: by slot, then by hash, the word of its bytes. -/
def ordKey (k : SlotHashKey) : Slot ×ₗ Nat := toLex (k.slot, k.hash.toBitVec.toNat)

theorem ordKey_injective : Function.Injective ordKey := by
  rintro ⟨s, ⟨h⟩⟩ ⟨s', ⟨h'⟩⟩ heq
  simp only [ordKey, toLex_inj, Prod.mk.injEq] at heq
  rw [heq.1, BitVec.toNat_inj.mp heq.2]

instance : LinearOrder SlotHashKey := LinearOrder.lift' ordKey ordKey_injective

instance : WellFoundedLT SlotHashKey := ⟨InvImage.wf ordKey wellFounded_lt⟩

/-- `SlotHashKey::default()`: slot zero and the zero hash. -/
instance : Inhabited SlotHashKey := ⟨⟨0, default⟩⟩

theorem lt_iff {a b : SlotHashKey} :
    a < b ↔ a.slot < b.slot ∨ a.slot = b.slot ∧ a.hash < b.hash := by
  show ordKey a < ordKey b ↔ _
  rw [ordKey, ordKey, Prod.Lex.toLex_lt_toLex]
  rfl

theorem lt_of_slot_lt {a b : SlotHashKey} (h : a.slot < b.slot) : a < b := lt_iff.mpr (.inl h)

end SlotHashKey

/-- `ForkInfo`. -/
structure ForkInfo where
  stakeVotedAt : Nat
  stakeVotedSubtree : Nat
  height : Nat
  bestSlot : SlotHashKey
  deepestSlot : SlotHashKey
  parent : Option SlotHashKey
  children : List SlotHashKey
  latestInvalidAncestor : Option Slot
  isDuplicateConfirmed : Bool
  deriving DecidableEq, Repr

namespace ForkInfo

/-- `is_unconfirmed_duplicate`: the block itself was marked invalid. -/
def isUnconfirmedDuplicate (i : ForkInfo) (mySlot : Slot) : Bool :=
  (i.latestInvalidAncestor.map fun ancestor => decide (ancestor = mySlot)).getD false

/-- `is_candidate`: no ancestor, nor the block, is marked invalid. -/
def isCandidate (i : ForkInfo) : Bool := i.latestInvalidAncestor.isNone

/-- `set_duplicate_confirmed`. -/
def setDuplicateConfirmed (i : ForkInfo) : ForkInfo :=
  { i with isDuplicateConfirmed := true, latestInvalidAncestor := none }

/-- `update_with_newly_valid_ancestor`: an invalid ancestor at or below the valid one is cleared. -/
def updateWithNewlyValidAncestor (i : ForkInfo) (newlyValidAncestor : Slot) : ForkInfo :=
  match i.latestInvalidAncestor with
  | some latestInvalidAncestor =>
    if latestInvalidAncestor ≤ newlyValidAncestor then { i with latestInvalidAncestor := none }
    else i
  | none => i

/-- `update_with_newly_invalid_ancestor`; `none` is the `assert!` that the block is not duplicate
confirmed. -/
def updateWithNewlyInvalidAncestor (i : ForkInfo) (newlyInvalidAncestor : Slot) :
    Option ForkInfo :=
  if i.isDuplicateConfirmed then none
  else if (i.latestInvalidAncestor.map fun latest => decide (newlyInvalidAncestor > latest)).getD
      true then
    some { i with latestInvalidAncestor := some newlyInvalidAncestor }
  else some i

end ForkInfo

/-- `BTreeSet::insert` on the sorted children. -/
def insertChild (child : SlotHashKey) (children : List SlotHashKey) : List SlotHashKey :=
  if child ∈ children then children else children.orderedInsert (· ≤ ·) child

/-- `HeaviestSubtreeForkChoice`, without `last_root_time`. -/
structure HeaviestSubtreeForkChoice where
  forkInfos : List (SlotHashKey × ForkInfo)
  latestVotes : List (Pubkey × SlotHashKey)
  treeRoot : SlotHashKey
  deriving DecidableEq, Repr

namespace HeaviestSubtreeForkChoice

/-! ### Reading the tree -/

/-- `fork_infos.get`. -/
def get (fc : HeaviestSubtreeForkChoice) (k : SlotHashKey) : Option ForkInfo :=
  AssocList.get? k fc.forkInfos

/-- `fork_infos.get_mut(k)` and a change of the entry; nothing when `k` is absent. -/
def modify (fc : HeaviestSubtreeForkChoice) (k : SlotHashKey) (f : ForkInfo → ForkInfo) :
    HeaviestSubtreeForkChoice :=
  { fc with forkInfos := AssocList.modify k f fc.forkInfos }

/-- `contains_block`. -/
def containsBlock (fc : HeaviestSubtreeForkChoice) (k : SlotHashKey) : Bool := (fc.get k).isSome

/-- `best_slot`. -/
def bestSlot (fc : HeaviestSubtreeForkChoice) (k : SlotHashKey) : Option SlotHashKey :=
  (fc.get k).map (·.bestSlot)

/-- `deepest_slot`. -/
def deepestSlot (fc : HeaviestSubtreeForkChoice) (k : SlotHashKey) : Option SlotHashKey :=
  (fc.get k).map (·.deepestSlot)

/-- `best_overall_slot`; `none` is the `unwrap` on a tree without its root. -/
def bestOverallSlot (fc : HeaviestSubtreeForkChoice) : Option SlotHashKey :=
  fc.bestSlot fc.treeRoot

/-- `deepest_overall_slot`. -/
def deepestOverallSlot (fc : HeaviestSubtreeForkChoice) : Option SlotHashKey :=
  fc.deepestSlot fc.treeRoot

/-- `stake_voted_subtree`. -/
def stakeVotedSubtree (fc : HeaviestSubtreeForkChoice) (k : SlotHashKey) : Option Nat :=
  (fc.get k).map (·.stakeVotedSubtree)

/-- `stake_voted_at`. -/
def stakeVotedAt (fc : HeaviestSubtreeForkChoice) (k : SlotHashKey) : Option Nat :=
  (fc.get k).map (·.stakeVotedAt)

/-- `height`. -/
def height (fc : HeaviestSubtreeForkChoice) (k : SlotHashKey) : Option Nat :=
  (fc.get k).map (·.height)

/-- `latest_invalid_ancestor`. -/
def latestInvalidAncestor (fc : HeaviestSubtreeForkChoice) (k : SlotHashKey) : Option Slot :=
  (fc.get k).bind (·.latestInvalidAncestor)

/-- `is_duplicate_confirmed`. -/
def isDuplicateConfirmed (fc : HeaviestSubtreeForkChoice) (k : SlotHashKey) : Option Bool :=
  (fc.get k).map (·.isDuplicateConfirmed)

/-- `is_candidate`. -/
def isCandidate (fc : HeaviestSubtreeForkChoice) (k : SlotHashKey) : Option Bool :=
  (fc.get k).map (·.isCandidate)

/-- `parent`. -/
def parent (fc : HeaviestSubtreeForkChoice) (k : SlotHashKey) : Option SlotHashKey :=
  (fc.get k).bind (·.parent)

/-- `children` of `TreeDiff`. -/
def children (fc : HeaviestSubtreeForkChoice) (k : SlotHashKey) : Option (List SlotHashKey) :=
  (fc.get k).map (·.children)

/-- `subtree_diff` of `TreeDiff for &HeaviestSubtreeForkChoice`: `contains_slot` and `children`
read `fork_infos`, and the loop is bounded by the number of blocks. -/
def subtreeDiff (fc : HeaviestSubtreeForkChoice) (root1 root2 : SlotHashKey) :
    Option (List SlotHashKey) :=
  TreeDiff.subtreeDiff fc.containsBlock fc.children fc.forkInfos.length root1 root2

/-- `ancestor_iterator`: the parent, its parent, and so on, bounded by the number of blocks. -/
def ancestors (fc : HeaviestSubtreeForkChoice) (k : SlotHashKey) : List SlotHashKey :=
  Forest.walk fc.parent fc.forkInfos.length k

/-- `is_strict_ancestor`: not the node itself, not of a greater slot, and met by
`ancestor_iterator`. -/
def isStrictAncestor (fc : HeaviestSubtreeForkChoice) (maybeAncestorKey nodeKey : SlotHashKey) :
    Bool :=
  if maybeAncestorKey = nodeKey then false
  else if maybeAncestorKey.slot > nodeKey.slot then false
  else (fc.ancestors nodeKey).any fun ancestor =>
    ancestor.slot == maybeAncestorKey.slot && ancestor.hash == maybeAncestorKey.hash

/-! ### Best and deepest children -/

/-- The loop of `is_best_child` over the children of the parent. -/
def isBestChildLoop (fc : HeaviestSubtreeForkChoice) (maybeBestChild : SlotHashKey)
    (maybeBestChildWeight : Nat) : List SlotHashKey → Option Bool
  | [] => some true
  | child :: rest => do
    let childWeight ← fc.stakeVotedSubtree child
    -- children marked invalid are not counted
    if !(← fc.isCandidate child) then fc.isBestChildLoop maybeBestChild maybeBestChildWeight rest
    else if childWeight > maybeBestChildWeight ∨
        (maybeBestChildWeight = childWeight ∧ child < maybeBestChild) then some false
    else fc.isBestChildLoop maybeBestChild maybeBestChildWeight rest

/-- `is_best_child`: no candidate sibling is heavier, or as heavy with a smaller key. -/
def isBestChild (fc : HeaviestSubtreeForkChoice) (maybeBestChild : SlotHashKey) : Option Bool := do
  let maybeBestChildWeight ← fc.stakeVotedSubtree maybeBestChild
  match fc.parent maybeBestChild with
  | none => some true
  | some parent => fc.isBestChildLoop maybeBestChild maybeBestChildWeight (← fc.children parent)

/-- The loop of `is_deepest_child` over the children of the parent. -/
def isDeepestChildLoop (fc : HeaviestSubtreeForkChoice) (maybeDeepestChild : SlotHashKey)
    (maybeDeepestChildWeight maybeDeepestChildHeight : Nat) : List SlotHashKey → Option Bool
  | [] => some true
  | child :: rest => do
    let childHeight ← fc.height child
    let childWeight ← fc.stakeVotedSubtree child
    match compare childHeight maybeDeepestChildHeight, compare childWeight maybeDeepestChildWeight,
      compare child maybeDeepestChild with
    | .gt, _, _ => some false
    -- tie broken by stake, then by the smaller key
    | .eq, .gt, _ => some false
    | .eq, .eq, .lt => some false
    | _, _, _ =>
      fc.isDeepestChildLoop maybeDeepestChild maybeDeepestChildWeight maybeDeepestChildHeight rest

/-- `is_deepest_child`: no sibling is higher, or as high and heavier, or as high and as heavy with
a smaller key. -/
def isDeepestChild (fc : HeaviestSubtreeForkChoice) (maybeDeepestChild : SlotHashKey) :
    Option Bool := do
  let maybeDeepestChildWeight ← fc.stakeVotedSubtree maybeDeepestChild
  let maybeDeepestChildHeight ← fc.height maybeDeepestChild
  match fc.parent maybeDeepestChild with
  | none => some true
  | some parent =>
    fc.isDeepestChildLoop maybeDeepestChild maybeDeepestChildWeight maybeDeepestChildHeight
      (← fc.children parent)

/-! ### A new leaf -/

/-- The first loop of `propagate_new_leaf`: going up from the parent, each ancestor whose best
slot is the parent's old best slot takes the new leaf instead; the first that does not stops it. -/
def propagateBestSlot (fc : HeaviestSubtreeForkChoice) (slotHashKey parentBestSlotHashKey :
    SlotHashKey) : List SlotHashKey → Option HeaviestSubtreeForkChoice
  | [] => some fc
  | ancestor :: rest => do
    let info ← fc.get ancestor
    if info.bestSlot = parentBestSlotHashKey then
      (fc.modify ancestor fun i => { i with bestSlot := slotHashKey }).propagateBestSlot
        slotHashKey parentBestSlotHashKey rest
    else some fc

/-- The second loop of `propagate_new_leaf`: going up from the parent while the node below is the
deepest child, the ancestor's deepest slot becomes the new leaf and its height one more than the
node below. -/
def propagateDeepestSlot (fc : HeaviestSubtreeForkChoice) (slotHashKey : SlotHashKey) :
    List SlotHashKey → SlotHashKey → Nat → Option HeaviestSubtreeForkChoice
  | [], _, _ => some fc
  | ancestor :: rest, currentChild, currentHeight => do
    if !(← fc.isDeepestChild currentChild) then some fc
    else
      let _ ← fc.get ancestor
      (fc.modify ancestor fun i =>
          { i with deepestSlot := slotHashKey, height := currentHeight + 1 }).propagateDeepestSlot
        slotHashKey rest ancestor (currentHeight + 1)

/-- `propagate_new_leaf`. Both loops walk from the parent up: the walk reads only parent pointers,
which neither loop changes. -/
def propagateNewLeaf (fc : HeaviestSubtreeForkChoice) (slotHashKey parentSlotHashKey :
    SlotHashKey) : Option HeaviestSubtreeForkChoice := do
  let parentBestSlotHashKey ← fc.bestSlot parentSlotHashKey
  let walk := parentSlotHashKey :: fc.ancestors parentSlotHashKey
  let fc ← if (← fc.isBestChild slotHashKey) then
      fc.propagateBestSlot slotHashKey parentBestSlotHashKey walk
    else some fc
  fc.propagateDeepestSlot slotHashKey walk slotHashKey 1

/-- The `ForkInfo` of a new leaf: no stake, height one, itself as its best and deepest slot, the
parent's latest invalid ancestor; a block without a parent is the root and counts as duplicate
confirmed. -/
def newLeafInfo (slotHashKey : SlotHashKey) (parent : Option SlotHashKey)
    (parentLatestInvalidAncestor : Option Slot) : ForkInfo where
  stakeVotedAt := 0
  stakeVotedSubtree := 0
  height := 1
  bestSlot := slotHashKey
  deepestSlot := slotHashKey
  parent := parent
  children := []
  latestInvalidAncestor := parentLatestInvalidAncestor
  isDuplicateConfirmed := parent.isNone

/-- `add_new_leaf_slot`; `none` is the `unwrap` on a parent that is not in the tree. -/
def addNewLeafSlot (fc : HeaviestSubtreeForkChoice) (slotHashKey : SlotHashKey)
    (parent : Option SlotHashKey) : Option HeaviestSubtreeForkChoice :=
  -- a block already there (the same version of a duplicate slot, repaired again) is left alone
  if fc.containsBlock slotHashKey then some fc
  else
    let parentLatestInvalidAncestor := parent.bind fc.latestInvalidAncestor
    let fc := { fc with
      forkInfos := AssocList.insert slotHashKey
        (newLeafInfo slotHashKey parent parentLatestInvalidAncestor) fc.forkInfos }
    match parent with
    | none => some fc
    | some parent => do
      let _ ← fc.get parent
      (fc.modify parent fun i => { i with children := insertChild slotHashKey i.children })
        |>.propagateNewLeaf slotHashKey parent

/-- `HeaviestSubtreeForkChoice::new`: the root alone. -/
def new (treeRoot : SlotHashKey) : HeaviestSubtreeForkChoice :=
  let empty : HeaviestSubtreeForkChoice := ⟨[], [], treeRoot⟩
  (empty.addNewLeafSlot treeRoot none).getD empty

end HeaviestSubtreeForkChoice

end Agave.Consensus
