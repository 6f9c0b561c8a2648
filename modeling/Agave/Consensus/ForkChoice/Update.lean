import Agave.Consensus.ForkChoice.Tree
import Agave.Lib.SortedMap
import Agave.Sdk.EpochSchedule

/-!
# Heaviest-subtree fork choice: votes and aggregation

A batch of votes (`add_votes`) is turned into update operations (`generate_update_operations`):
each validator's stake moves from the block of its previous latest vote (`Subtract`) to the block
of its new one (`Add`), and every ancestor of either gets an `Aggregate`. The operations sit in a
`BTreeMap` keyed by block and label and are run from the greatest key down
(`process_update_operations`): blocks of later slots first, and for each block its stake changes
before its `Aggregate` (the label order), so that `aggregate_slot` sums children that are already
up to date.

The `BTreeMap` is a sorted association list (`SortedMap`) over the lexicographic key. The
`HashMap` of pubkeys seen in the batch keeps only the keys: the slots stored with them are never
read. Stakes are `u64` in the source and `Nat` here; the subtraction never goes below zero in a
tree whose stakes agree with its votes (`ForkChoice.Votes`).
-/

namespace Agave.Consensus

open Agave.Vote

/-- `UpdateLabel`, ordered as its derived `Ord`: by variant, then by slot. -/
inductive UpdateLabel where
  | aggregate
  | add
  | markValid (slot : Slot)
  | markInvalid (slot : Slot)
  | subtract
  deriving DecidableEq, Repr

namespace UpdateLabel

/-- The variant's position, then its slot. -/
def rank : UpdateLabel → ℕ ×ₗ ℕ
  | aggregate => toLex (0, 0)
  | add => toLex (1, 0)
  | markValid slot => toLex (2, slot)
  | markInvalid slot => toLex (3, slot)
  | subtract => toLex (4, 0)

theorem rank_injective : Function.Injective rank := by
  intro a b h
  cases a <;> cases b <;> simp_all [rank]

instance : LinearOrder UpdateLabel := LinearOrder.lift' rank rank_injective

end UpdateLabel

/-- `UpdateOperation`. -/
inductive UpdateOperation where
  | add (stake : Nat)
  | markValid (slot : Slot)
  | markInvalid (slot : Slot)
  | subtract (stake : Nat)
  | aggregate
  deriving DecidableEq, Repr

/-- `update_stake`: an `Add` or a `Subtract` gathers more stake; the others panic. -/
def UpdateOperation.updateStake : UpdateOperation → Nat → Option UpdateOperation
  | .add stake, newStake => some (.add (stake + newStake))
  | .subtract stake, newStake => some (.subtract (stake + newStake))
  | _, _ => none

/-- The key of an update operation: the block, then the label. -/
abbrev OpKey := SlotHashKey ×ₗ UpdateLabel

/-- `UpdateOperations`, the entries of the `BTreeMap` in key order. -/
abbrev UpdateOperations := List (OpKey × UpdateOperation)

/-- `(slot_hash_key, label)`. -/
def opKey (slotHashKey : SlotHashKey) (label : UpdateLabel) : OpKey := toLex (slotHashKey, label)

/-- `EpochStakes`, as `vote_account_stake` reads it. -/
structure EpochStakes where
  voteAccountStake : Pubkey → Nat

/-- The stake a vote for `slot` carries: the voter's stake in the slot's epoch, zero when the
epoch's stakes are not known. -/
def voteStake (epochStakes : Epoch → Option EpochStakes) (epochSchedule : EpochSchedule)
    (pubkey : Pubkey) (slot : Slot) : Nat :=
  ((epochStakes (epochSchedule.getEpoch slot)).map fun stakes => stakes.voteAccountStake pubkey).getD 0

/-- The stakes of any validators, one vote each, each in its vote's epoch, add up to `u64::MAX`
at most. The code keeps the sums in `u64`, whose `+=` wraps in a release build; in this range the
sums it keeps between calls are these. -/
def StakesFit (epochStakes : Epoch → Option EpochStakes) (epochSchedule : EpochSchedule) : Prop :=
  ∀ votes : List (Pubkey × Slot), (votes.map Prod.fst).Nodup →
    (votes.map fun v => voteStake epochStakes epochSchedule v.1 v.2).sum ≤ U64_MAX

/-- `entry(key).and_modify(|update| update.update_stake(stake)).or_insert(operation)`. -/
def entryUpdateStake (ops : UpdateOperations) (key : OpKey) (operation : UpdateOperation)
    (stake : Nat) : Option UpdateOperations :=
  match SortedMap.get? key ops with
  | some update => (update.updateStake stake).map fun update => SortedMap.insert key update ops
  | none => some (SortedMap.insert key operation ops)

/-- `do_insert_aggregate_operation`: the block's `Aggregate`, with the validity mark if one is
given; `false` when the `Aggregate` was already there. -/
def doInsertAggregateOperation (ops : UpdateOperations)
    (modifyForkValidity : Option UpdateOperation) (slotHashKey : SlotHashKey) :
    UpdateOperations × Bool :=
  if SortedMap.contains (opKey slotHashKey .aggregate) ops then (ops, false)
  else
    let ops := match modifyForkValidity with
      | some (.markValid slot) =>
        SortedMap.insert (opKey slotHashKey (.markValid slot)) (.markValid slot) ops
      | some (.markInvalid slot) =>
        SortedMap.insert (opKey slotHashKey (.markInvalid slot)) (.markInvalid slot) ops
      | _ => ops
    (SortedMap.insert (opKey slotHashKey .aggregate) .aggregate ops, true)

/-- The loop of `do_insert_aggregate_operations_across_ancestors` over the ancestors. An ancestor
already aggregated stops it: the ancestors above it were inserted with it. -/
def insertAggregateOperationsLoop (modifyForkValidity : Option UpdateOperation) :
    List SlotHashKey → UpdateOperations → UpdateOperations
  | [], ops => ops
  | parent :: rest, ops =>
    match doInsertAggregateOperation ops modifyForkValidity parent with
    | (ops, true) => insertAggregateOperationsLoop modifyForkValidity rest ops
    | (ops, false) => ops

namespace HeaviestSubtreeForkChoice

/-- `do_insert_aggregate_operations_across_ancestors`. -/
def doInsertAggregateOperationsAcrossAncestors (fc : HeaviestSubtreeForkChoice)
    (ops : UpdateOperations) (modifyForkValidity : Option UpdateOperation)
    (slotHashKey : SlotHashKey) : UpdateOperations :=
  insertAggregateOperationsLoop modifyForkValidity (fc.ancestors slotHashKey) ops

/-- `insert_aggregate_operations`: an `Aggregate` for every strict ancestor. -/
def insertAggregateOperations (fc : HeaviestSubtreeForkChoice) (ops : UpdateOperations)
    (slotHashKey : SlotHashKey) : UpdateOperations :=
  fc.doInsertAggregateOperationsAcrossAncestors ops none slotHashKey

/-! ### Aggregation -/

/-- The locals `aggregate_slot` carries through its loop over the children. -/
structure AggregateState where
  stakeVotedSubtree : Nat
  deepestChildHeight : Nat
  bestSlotHashKey : SlotHashKey
  deepestSlotHashKey : SlotHashKey
  isDuplicateConfirmed : Bool
  bestChildStakeVotedSubtree : Nat
  bestChildSlotKey : SlotHashKey
  deepestChildStakeVotedSubtree : Nat
  deepestChildSlotKey : SlotHashKey
  deriving DecidableEq, Repr

/-- Where the loop of `aggregate_slot` starts: the block's own stake, and itself as best and
deepest child until a child is met. -/
def AggregateState.init (slotHashKey : SlotHashKey) (stakeVotedAt : Nat) : AggregateState where
  stakeVotedSubtree := stakeVotedAt
  deepestChildHeight := 0
  bestSlotHashKey := slotHashKey
  deepestSlotHashKey := slotHashKey
  isDuplicateConfirmed := false
  bestChildStakeVotedSubtree := 0
  bestChildSlotKey := slotHashKey
  deepestChildStakeVotedSubtree := 0
  deepestChildSlotKey := slotHashKey

/-- One turn of the loop of `aggregate_slot`. Every child adds its subtree's stake, candidate or
not; the best child is the heaviest candidate, ties to the smaller key; the deepest child is the
highest, ties to the heavier and then to the smaller key. -/
def aggregateChild (fc : HeaviestSubtreeForkChoice) (slotHashKey : SlotHashKey)
    (acc : AggregateState) (childKey : SlotHashKey) : Option AggregateState := do
  let child ← fc.get childKey
  let acc := { acc with
    stakeVotedSubtree := acc.stakeVotedSubtree + child.stakeVotedSubtree
    isDuplicateConfirmed := acc.isDuplicateConfirmed || child.isDuplicateConfirmed }
  let acc :=
    if child.isCandidate ∧ (acc.bestChildSlotKey = slotHashKey ∨
        child.stakeVotedSubtree > acc.bestChildStakeVotedSubtree ∨
        (child.stakeVotedSubtree = acc.bestChildStakeVotedSubtree ∧
          childKey < acc.bestChildSlotKey)) then
      { acc with
        bestChildStakeVotedSubtree := child.stakeVotedSubtree
        bestChildSlotKey := childKey
        bestSlotHashKey := child.bestSlot }
    else acc
  match decide (acc.deepestChildSlotKey = slotHashKey), compare child.height acc.deepestChildHeight,
    compare child.stakeVotedSubtree acc.deepestChildStakeVotedSubtree,
    compare childKey acc.deepestChildSlotKey with
  | true, _, _, _ | _, .gt, _, _ | _, .eq, .gt, _ | _, .eq, .eq, .lt =>
    some { acc with
      deepestChildHeight := child.height
      deepestChildStakeVotedSubtree := child.stakeVotedSubtree
      deepestChildSlotKey := childKey
      deepestSlotHashKey := child.deepestSlot }
  | _, _, _, _ => some acc

/-- What `aggregate_slot` writes into the block once its loop is done. -/
def AggregateState.apply (acc : AggregateState) (i : ForkInfo) : ForkInfo :=
  let i := if acc.isDuplicateConfirmed then i.setDuplicateConfirmed else i
  { i with
    stakeVotedSubtree := acc.stakeVotedSubtree
    height := acc.deepestChildHeight + 1
    bestSlot := acc.bestSlotHashKey
    deepestSlot := acc.deepestSlotHashKey }

/-- `aggregate_slot`: the block's subtree stake, height, best and deepest slot recomputed from its
children; `none` is the `expect` on a child that is not in the tree. -/
def aggregateSlot (fc : HeaviestSubtreeForkChoice) (slotHashKey : SlotHashKey) :
    Option HeaviestSubtreeForkChoice :=
  match fc.get slotHashKey with
  | none => some fc
  | some info => do
    let acc ← info.children.foldlM (fc.aggregateChild slotHashKey)
      (AggregateState.init slotHashKey info.stakeVotedAt)
    some (fc.modify slotHashKey acc.apply)

/-- `mark_fork_valid`. -/
def markForkValid (fc : HeaviestSubtreeForkChoice) (forkToModifyKey : SlotHashKey)
    (validSlot : Slot) : HeaviestSubtreeForkChoice :=
  fc.modify forkToModifyKey fun i =>
    let i := i.updateWithNewlyValidAncestor validSlot
    if forkToModifyKey.slot = validSlot then { i with isDuplicateConfirmed := true } else i

/-- `mark_fork_invalid`; `none` is the `assert!` on a duplicate confirmed block. -/
def markForkInvalid (fc : HeaviestSubtreeForkChoice) (forkToModifyKey : SlotHashKey)
    (invalidSlot : Slot) : Option HeaviestSubtreeForkChoice :=
  match fc.get forkToModifyKey with
  | none => some fc
  | some info => do
    let info ← info.updateWithNewlyInvalidAncestor invalidSlot
    some (fc.modify forkToModifyKey fun _ => info)

/-- `add_slot_stake`. -/
def addSlotStake (fc : HeaviestSubtreeForkChoice) (slotHashKey : SlotHashKey) (stake : Nat) :
    HeaviestSubtreeForkChoice :=
  fc.modify slotHashKey fun i =>
    { i with stakeVotedAt := i.stakeVotedAt + stake,
             stakeVotedSubtree := i.stakeVotedSubtree + stake }

/-- `subtract_slot_stake`. -/
def subtractSlotStake (fc : HeaviestSubtreeForkChoice) (slotHashKey : SlotHashKey) (stake : Nat) :
    HeaviestSubtreeForkChoice :=
  fc.modify slotHashKey fun i =>
    { i with stakeVotedAt := i.stakeVotedAt - stake,
             stakeVotedSubtree := i.stakeVotedSubtree - stake }

/-- One entry of `process_update_operations`. -/
def processUpdateOperation (fc : HeaviestSubtreeForkChoice) (slotHashKey : SlotHashKey) :
    UpdateOperation → Option HeaviestSubtreeForkChoice
  | .markValid validSlot => some (fc.markForkValid slotHashKey validSlot)
  | .markInvalid invalidSlot => fc.markForkInvalid slotHashKey invalidSlot
  | .aggregate => fc.aggregateSlot slotHashKey
  | .add stake => some (fc.addSlotStake slotHashKey stake)
  | .subtract stake => some (fc.subtractSlotStake slotHashKey stake)

/-- `process_update_operations`: from the greatest key down. -/
def processUpdateOperations (fc : HeaviestSubtreeForkChoice) (ops : UpdateOperations) :
    Option HeaviestSubtreeForkChoice :=
  ops.reverse.foldlM (fun fc entry => fc.processUpdateOperation (ofLex entry.1).1 entry.2) fc

/-! ### Votes -/

/-- The old vote's half of a moved vote in `generate_update_operations`: its stake subtracted
from its block, when there is stake to move, with the block's ancestors to aggregate. `none` is
the `assert!` that the new vote is newer than the old one. -/
def subtractOldVote (fc : HeaviestSubtreeForkChoice) (epochStakes : Epoch → Option EpochStakes)
    (epochSchedule : EpochSchedule) (ops : UpdateOperations) (pubkey : Pubkey)
    (newVoteSlotHash : SlotHashKey) : Option SlotHashKey → Option UpdateOperations
  | none => some ops
  | some old =>
    if !(if newVoteSlotHash.slot = old.slot then decide (newVoteSlotHash.hash < old.hash)
        else decide (newVoteSlotHash.slot > old.slot)) then none
    else
      let stakeUpdate := voteStake epochStakes epochSchedule pubkey old.slot
      if stakeUpdate > 0 then do
        let ops ← entryUpdateStake ops (opKey old .subtract) (.subtract stakeUpdate) stakeUpdate
        some (fc.insertAggregateOperations ops old)
      else some ops

/-- The second arm of the `match` in `generate_update_operations`: the latest vote replaced, the
stake moved from the old vote's block (`subtractOldVote`) to the new one's, with the ancestors of
the new one to aggregate. -/
def moveVote (epochStakes : Epoch → Option EpochStakes) (epochSchedule : EpochSchedule)
    (ops : UpdateOperations) (fc : HeaviestSubtreeForkChoice) (pubkey : Pubkey)
    (newVoteSlotHash : SlotHashKey) : Option (UpdateOperations × HeaviestSubtreeForkChoice) := do
  let old := AssocList.get? pubkey fc.latestVotes
  let fc := { fc with latestVotes := AssocList.insert pubkey newVoteSlotHash fc.latestVotes }
  let ops ← fc.subtractOldVote epochStakes epochSchedule ops pubkey newVoteSlotHash old
  let stakeUpdate := voteStake epochStakes epochSchedule pubkey newVoteSlotHash.slot
  let ops ← entryUpdateStake ops (opKey newVoteSlotHash .add) (.add stakeUpdate) stakeUpdate
  some (fc.insertAggregateOperations ops newVoteSlotHash, fc)

/-- One vote of the loop of `generate_update_operations`, over the operations so far, the pubkeys
seen in the batch and the fork choice, whose latest votes it updates. `none` is the panic on a
second vote of a pubkey in one batch, or a failed `assert!` of `moveVote`. -/
def generateUpdateOperationsStep (epochStakes : Epoch → Option EpochStakes)
    (epochSchedule : EpochSchedule)
    (acc : UpdateOperations × List Pubkey × HeaviestSubtreeForkChoice)
    (pubkeyVote : Pubkey × SlotHashKey) :
    Option (UpdateOperations × List Pubkey × HeaviestSubtreeForkChoice) :=
  let (ops, observedPubkeys, fc) := acc
  let (pubkey, newVoteSlotHash) := pubkeyVote
  -- a vote below the root changes nothing fork choice can see
  if newVoteSlotHash.slot < fc.treeRoot.slot then some acc
  else if pubkey ∈ observedPubkeys then none
  else
    let observedPubkeys := pubkey :: observedPubkeys
    let moved := (moveVote epochStakes epochSchedule ops fc pubkey newVoteSlotHash).map
      fun (ops, fc) => (ops, observedPubkeys, fc)
    match AssocList.get? pubkey fc.latestVotes with
    | some latest =>
      -- not newer than the latest vote (a smaller hash of the same slot counts as newer)
      if newVoteSlotHash.slot < latest.slot ∨
          (newVoteSlotHash.slot = latest.slot ∧ newVoteSlotHash.hash ≥ latest.hash) then
        some (ops, observedPubkeys, fc)
      else moved
    | none => moved

/-- `generate_update_operations`: the operations, and the fork choice with its latest votes
updated. -/
def generateUpdateOperations (fc : HeaviestSubtreeForkChoice)
    (pubkeyVotes : List (Pubkey × SlotHashKey)) (epochStakes : Epoch → Option EpochStakes)
    (epochSchedule : EpochSchedule) : Option (UpdateOperations × HeaviestSubtreeForkChoice) := do
  let (ops, _, fc) ← pubkeyVotes.foldlM (generateUpdateOperationsStep epochStakes epochSchedule)
    ([], [], fc)
  some (ops, fc)

/-- `add_votes`: the fork choice after the batch, and its best overall slot. -/
def addVotes (fc : HeaviestSubtreeForkChoice) (pubkeyVotes : List (Pubkey × SlotHashKey))
    (epochStakes : Epoch → Option EpochStakes) (epochSchedule : EpochSchedule) :
    Option (SlotHashKey × HeaviestSubtreeForkChoice) := do
  let (ops, fc) ← fc.generateUpdateOperations pubkeyVotes epochStakes epochSchedule
  let fc ← fc.processUpdateOperations ops
  let best ← fc.bestOverallSlot
  some (best, fc)

end HeaviestSubtreeForkChoice

end Agave.Consensus
