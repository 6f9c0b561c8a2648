import Agave.Consensus.ForkChoice.Process

/-!
# Heaviest-subtree fork choice: counting the votes

`stake_voted_at` of a block is to be the stake of the validators whose latest vote is for it
(`votedStake`), and `stake_voted_subtree` the block's own stake and its children's
(`SubtreeStakes`). `add_votes` keeps both. Its first half, `generate_update_operations`, moves each
new vote in `latest_votes` and records the move in a batch; `Generated` is what the loop keeps of
it: the batch is sorted, holds only stake entries and `Aggregate`s, aggregates the parent of every
block it touches, and its `Add`s and `Subtract`s account for the moved votes, a `Subtract` never
more than the observed validators' old votes brought. The second half runs the batch
(`Processed`), and the sums come out right (`Accounted.addVotes`). A batch with a validator twice
is the one panic (`Shape.addVotes_eq_some_best`).
-/

namespace Agave.Consensus

open Agave.Vote

/-! ### Entries of a batch -/

theorem opKey_inj {k k' : SlotHashKey} {l l' : UpdateLabel} :
    opKey k l = opKey k' l' ↔ k = k' ∧ l = l' := by
  simp [opKey]

theorem isStakeOp_add {key : OpKey} (h : key.label = .add) (s : Nat) : IsStakeOp (key, .add s) := by
  simp only [IsStakeOp, h]

theorem isStakeOp_subtract {key : OpKey} (h : key.label = .subtract) (s : Nat) :
    IsStakeOp (key, .subtract s) := by
  simp only [IsStakeOp, h]

theorem isStakeOp_aggregate (k : SlotHashKey) : IsStakeOp (opKey k .aggregate, .aggregate) := by
  simp only [IsStakeOp, OpKey.label_opKey]

/-- `update_stake` on a stake entry adds the stake and keeps the entry a stake entry. -/
theorem IsStakeOp.updateStake {key : OpKey} {u : UpdateOperation} (hu : IsStakeOp (key, u))
    (hlabel : key.label ≠ .aggregate) (s : Nat) :
    ∃ u', u.updateStake s = some u' ∧ IsStakeOp (key, u') ∧ u'.stake = u.stake + s := by
  rcases hu.cases with ⟨a, hl, rfl⟩ | ⟨a, hl, rfl⟩ | ⟨hl, -⟩
  · exact ⟨.add (a + s), rfl, isStakeOp_add hl _, rfl⟩
  · exact ⟨.subtract (a + s), rfl, isStakeOp_subtract hl _, rfl⟩
  · exact absurd hl hlabel

section Insert

variable {ops : UpdateOperations} {key : OpKey} {op : UpdateOperation}

theorem isStakeOp_insert (htyped : ∀ e ∈ ops, IsStakeOp e) (hop : IsStakeOp (key, op)) :
    ∀ e ∈ SortedMap.insert key op ops, IsStakeOp e := fun e he => by
  rcases SortedMap.mem_insert_of_mem he with rfl | he
  · exact hop
  · exact htyped e he

theorem stakeAt_insert (hsorted : SortedMap.Sorted ops) (key' : OpKey) :
    stakeAt (SortedMap.insert key op ops) key' = if key' = key then op.stake else stakeAt ops key' := by
  unfold stakeAt
  rw [SortedMap.get?_insert hsorted]
  split <;> rfl

theorem aggregates_insert (hsorted : SortedMap.Sorted ops) (k : SlotHashKey) :
    aggregates (SortedMap.insert key op ops) k = true ↔
      opKey k .aggregate = key ∨ aggregates ops k = true :=
  SortedMap.contains_insert hsorted _ _ _

/-- `entry(key).and_modify(update_stake).or_insert(operation)` on a batch of stake entries: the
key's entry replaced by one that carries the old stake and the new. -/
theorem entryUpdateStake_eq_insert (hsorted : SortedMap.Sorted ops)
    (htyped : ∀ e ∈ ops, IsStakeOp e) (hop : IsStakeOp (key, op)) (hlabel : key.label ≠ .aggregate)
    (s : Nat) (hs : op.stake = s) :
    ∃ op', entryUpdateStake ops key op s = some (SortedMap.insert key op' ops) ∧
      IsStakeOp (key, op') ∧ op'.stake = stakeAt ops key + s := by
  unfold entryUpdateStake
  cases hget : SortedMap.get? key ops with
  | none => exact ⟨op, rfl, hop, by simp [stakeAt, hget, hs]⟩
  | some u =>
    have hu := htyped _ ((SortedMap.get?_eq_some_iff hsorted).mp hget)
    obtain ⟨u', hu', htyped', hstake⟩ := hu.updateStake hlabel s
    exact ⟨u', by simp [hu'], htyped', by simp [stakeAt, hget, hstake]⟩

end Insert

namespace HeaviestSubtreeForkChoice

variable {fc : HeaviestSubtreeForkChoice} {ops : UpdateOperations} {x : SlotHashKey}

/-! ### The `Aggregate`s over a block -/

/-- A batch of sorted stake entries and `Aggregate`s, closed under parents: what
`generate_update_operations` keeps between two votes. -/
structure Batch (fc : HeaviestSubtreeForkChoice) (ops : UpdateOperations) : Prop where
  sorted : SortedMap.Sorted ops
  typed : ∀ e ∈ ops, IsStakeOp e
  closed : Closed fc ops

/-- Closed but for the parent of `x`, which an entry of `x` has just been put under. -/
def ClosedBelow (fc : HeaviestSubtreeForkChoice) (ops : UpdateOperations) (x : SlotHashKey) :
    Prop :=
  ∀ e ∈ ops, ∀ p, fc.parent e.1.node = some p → aggregates ops p = true ∨ fc.parent x = some p

theorem Batch.closedBelow_insert (hb : Batch fc ops) {key : OpKey} {op : UpdateOperation} :
    ClosedBelow fc (SortedMap.insert key op ops) key.node := fun e he p hp => by
  rcases SortedMap.mem_insert_of_mem he with rfl | he
  · exact .inr hp
  · exact .inl ((aggregates_insert hb.sorted p).mpr (.inr (hb.closed e he p hp)))

/-- The loop of `do_insert_aggregate_operations_across_ancestors` closes the batch again: it
aggregates the ancestors of `x` up to the first that was aggregated already, whose own
ancestors are by closure. It adds only `Aggregate`s. -/
theorem Shape.insertAggregateOperationsLoop (h : Shape fc) (x : SlotHashKey) :
    ∀ ops, SortedMap.Sorted ops → (∀ e ∈ ops, IsStakeOp e) → ClosedBelow fc ops x →
      Batch fc (insertAggregateOperationsLoop none (fc.ancestors x) ops) ∧
        ∀ key, key.label ≠ .aggregate →
          stakeAt (insertAggregateOperationsLoop none (fc.ancestors x) ops) key = stakeAt ops key := by
  -- on the parent order: the loop goes on at the parent, which has a smaller key
  induction x using WellFoundedLT.induction with
  | _ x ih =>
  intro ops hsorted htyped hbelow
  cases hp : fc.parent x with
  | none =>
    rw [ancestors_of_parent_eq_none hp]
    refine ⟨⟨hsorted, htyped, fun e he p hpe => ?_⟩, fun _ _ => rfl⟩
    rcases hbelow e he p hpe with h | h
    · exact h
    · rw [hp] at h; cases h
  | some a =>
    obtain ⟨info, -, hget, -⟩ := h.parent_eq_some hp
    rw [h.ancestors_of_parent hget hp, Agave.Consensus.insertAggregateOperationsLoop]
    by_cases hagg : aggregates ops a = true
    · -- `a` was aggregated already: the loop stops, and the batch is closed
      have hdo : doInsertAggregateOperation ops none a = (ops, false) := if_pos hagg
      rw [hdo]
      refine ⟨⟨hsorted, htyped, fun e he p hpe => ?_⟩, fun _ _ => rfl⟩
      rcases hbelow e he p hpe with h | h
      · exact h
      · rw [hp] at h
        cases h
        exact hagg
    · -- `a` gets its `Aggregate`, and the loop goes on above it
      have hdo : doInsertAggregateOperation ops none a =
          (SortedMap.insert (opKey a .aggregate) .aggregate ops, true) := if_neg hagg
      rw [hdo]
      have hbelow' : ClosedBelow fc (SortedMap.insert (opKey a .aggregate) .aggregate ops) a := by
        intro e he p hpe
        rcases SortedMap.mem_insert_of_mem he with rfl | he
        · exact .inr hpe
        · refine .inl ((aggregates_insert hsorted p).mpr ?_)
          rcases hbelow e he p hpe with h | h
          · exact .inr h
          · rw [hp] at h
            cases h
            exact .inl rfl
      obtain ⟨hb, hstake⟩ := ih a (h.parent_lt hp) _ (SortedMap.sorted_insert hsorted)
        (isStakeOp_insert htyped (isStakeOp_aggregate a)) hbelow'
      refine ⟨hb, fun key hkey => ?_⟩
      rw [hstake key hkey, stakeAt_insert hsorted, if_neg]
      rintro rfl
      exact hkey rfl

/-- `insert_aggregate_operations` after a new entry of `x`. -/
theorem Shape.insertAggregateOperations (h : Shape fc) (hsorted : SortedMap.Sorted ops)
    (htyped : ∀ e ∈ ops, IsStakeOp e) (hbelow : ClosedBelow fc ops x) :
    Batch fc (fc.insertAggregateOperations ops x) ∧
      ∀ key, key.label ≠ .aggregate → stakeAt (fc.insertAggregateOperations ops x) key = stakeAt ops key :=
  h.insertAggregateOperationsLoop x ops hsorted htyped hbelow

/-- The `Aggregate`s read only the tree, not the latest votes. -/
theorem insertAggregateOperations_congr {fc' : HeaviestSubtreeForkChoice}
    (h : fc'.forkInfos = fc.forkInfos) :
    fc'.insertAggregateOperations = fc.insertAggregateOperations := by
  unfold insertAggregateOperations doInsertAggregateOperationsAcrossAncestors ancestors parent get
  rw [h]

/-! ### The latest votes -/

/-- What a latest vote counts toward a block: the voter's stake, if the vote is for the block. -/
def voteWeight (stake : Pubkey → Slot → Nat) (k : SlotHashKey) (pubkey : Pubkey)
    (vote : SlotHashKey) : Nat :=
  if vote = k then stake pubkey vote.slot else 0

/-- The stake of the latest votes for a block: what its `stake_voted_at` is to hold. -/
def votedStake (stake : Pubkey → Slot → Nat) (latestVotes : List (Pubkey × SlotHashKey))
    (k : SlotHashKey) : Nat :=
  (latestVotes.map fun e => voteWeight stake k e.1 e.2).sum

/-- The same over the latest votes of the validators of `observed`. -/
def observedStake (stake : Pubkey → Slot → Nat) (latestVotes : List (Pubkey × SlotHashKey))
    (observed : List Pubkey) (k : SlotHashKey) : Nat :=
  (latestVotes.map fun e => if e.1 ∈ observed then voteWeight stake k e.1 e.2 else 0).sum

section Sums

variable {stake : Pubkey → Slot → Nat} {latestVotes : List (Pubkey × SlotHashKey)}
  {pubkey : Pubkey}

/-- A replaced latest vote: the old vote's weight out, the new one's in. -/
theorem votedStake_insert (stake : Pubkey → Slot → Nat) (latestVotes : List (Pubkey × SlotHashKey))
    (pubkey : Pubkey) (vote : SlotHashKey) (k : SlotHashKey) :
    votedStake stake (AssocList.insert pubkey vote latestVotes) k +
        ((AssocList.get? pubkey latestVotes).map (voteWeight stake k pubkey)).getD 0 =
      votedStake stake latestVotes k + voteWeight stake k pubkey vote :=
  AssocList.sum_insert (voteWeight stake k) pubkey vote latestVotes

/-- One more observed validator brings its latest vote. -/
theorem observedStake_cons (hkeys : (latestVotes.map Prod.fst).Nodup) {observed : List Pubkey}
    (hpk : pubkey ∉ observed) (k : SlotHashKey) :
    observedStake stake latestVotes (pubkey :: observed) k =
      observedStake stake latestVotes observed k +
        ((AssocList.get? pubkey latestVotes).map (voteWeight stake k pubkey)).getD 0 := by
  have h := AssocList.sum_congr_of_ne
    (fun p v => if p ∈ observed then voteWeight stake k p v else 0)
    (fun p v => if p ∈ pubkey :: observed then voteWeight stake k p v else 0) pubkey hkeys
    fun p v hp => by simp [hp]
  -- the validator was not observed, so the first weight has nothing at it
  have h0 : ((AssocList.get? pubkey latestVotes).map
      fun v => if pubkey ∈ observed then voteWeight stake k pubkey v else 0).getD 0 = 0 := by
    cases AssocList.get? pubkey latestVotes <;> simp [hpk]
  rw [h0, add_zero] at h
  simpa [observedStake] using h

theorem observedStake_le_votedStake (observed : List Pubkey) (k : SlotHashKey) :
    observedStake stake latestVotes observed k ≤ votedStake stake latestVotes k :=
  List.sum_le_sum fun e _ => by split <;> simp

end Sums

/-! ### Generating a batch -/

/-- What the loop of `generate_update_operations` keeps, started from `fc₀`: the batch so far
(`acc.1`), the validators seen (`acc.2.1`), and the fork choice with their votes moved
(`acc.2.2`). The `Add`s and `Subtract`s account for the moved votes, and the `Subtract`s come off
the old votes of seen validators only. -/
structure Generated (stake : Pubkey → Slot → Nat) (fc₀ : HeaviestSubtreeForkChoice)
    (acc : UpdateOperations × List Pubkey × HeaviestSubtreeForkChoice) : Prop where
  batch : Batch fc₀ acc.1
  forkInfos : acc.2.2.forkInfos = fc₀.forkInfos
  treeRoot : acc.2.2.treeRoot = fc₀.treeRoot
  voters : (acc.2.2.latestVotes.map Prod.fst).Nodup
  counted : ∀ k, votedStake stake fc₀.latestVotes k + addedStake acc.1 k =
    votedStake stake acc.2.2.latestVotes k + subtractedStake acc.1 k
  bounded : ∀ k, subtractedStake acc.1 k ≤ observedStake stake fc₀.latestVotes acc.2.1 k
  unobserved : ∀ pubkey, pubkey ∉ acc.2.1 →
    AssocList.get? pubkey acc.2.2.latestVotes = AssocList.get? pubkey fc₀.latestVotes

theorem Generated.init (stake : Pubkey → Slot → Nat)
    (hvoters : (fc.latestVotes.map Prod.fst).Nodup) : Generated stake fc ([], [], fc) := by
  have hzero : ∀ key, stakeAt [] key = 0 := fun key => stakeAt_eq_zero (by simp)
  refine ⟨⟨List.Pairwise.nil, by simp, by simp [Closed]⟩, rfl, rfl, hvoters, fun k => ?_,
    fun k => ?_, fun _ _ => rfl⟩
  · simp [addedStake, subtractedStake, hzero]
  · simp [subtractedStake, hzero]

section Generate

variable {stake : Pubkey → Slot → Nat} {epochStakes : Epoch → Option EpochStakes}
  {epochSchedule : EpochSchedule} {fc₀ : HeaviestSubtreeForkChoice} {observed : List Pubkey}
  {pubkey : Pubkey} {vote : SlotHashKey}

/-- A validator seen without a move of its vote. -/
theorem Generated.observe (hvoters : (fc₀.latestVotes.map Prod.fst).Nodup)
    (hgen : Generated stake fc₀ (ops, observed, fc)) (hpk : pubkey ∉ observed) :
    Generated stake fc₀ (ops, pubkey :: observed, fc) := by
  refine ⟨hgen.batch, hgen.forkInfos, hgen.treeRoot, hgen.voters, hgen.counted, fun k => ?_,
    fun p hp => hgen.unobserved p fun h => hp (List.mem_cons_of_mem _ h)⟩
  have h := hgen.bounded k
  dsimp only at h ⊢
  rw [observedStake_cons hvoters hpk]
  omega

/-- The old vote's half of a move: the old vote's weight added to the `Subtract` of its block. -/
theorem Generated.subtractOldVote (hshape : Shape fc₀)
    (hgen : Generated (voteStake epochStakes epochSchedule) fc₀ (ops, observed, fc))
    {fc' : HeaviestSubtreeForkChoice} (hfc' : fc'.forkInfos = fc₀.forkInfos)
    (hnewer : ∀ old, AssocList.get? pubkey fc.latestVotes = some old →
      (if vote.slot = old.slot then decide (vote.hash < old.hash)
        else decide (vote.slot > old.slot)) = true) :
    ∃ ops₁, fc'.subtractOldVote epochStakes epochSchedule ops pubkey vote
        (AssocList.get? pubkey fc.latestVotes) = some ops₁ ∧
      Batch fc₀ ops₁ ∧ (∀ k, addedStake ops₁ k = addedStake ops k) ∧
      ∀ k, subtractedStake ops₁ k = subtractedStake ops k +
        ((AssocList.get? pubkey fc.latestVotes).map
          (voteWeight (voteStake epochStakes epochSchedule) k pubkey)).getD 0 := by
  have hb : Batch fc₀ ops := hgen.batch
  cases ho : AssocList.get? pubkey fc.latestVotes with
  | none => exact ⟨ops, rfl, hb, fun _ => rfl, fun _ => by simp⟩
  | some old =>
    have hassert := hnewer old ho
    by_cases hpos : voteStake epochStakes epochSchedule pubkey old.slot > 0
    · -- a `Subtract` of the old vote's stake, and its block's ancestors aggregated
      obtain ⟨op', hentry, hop', hstake'⟩ := entryUpdateStake_eq_insert hb.sorted hb.typed
        (isStakeOp_subtract (OpKey.label_opKey old .subtract)
          (voteStake epochStakes epochSchedule pubkey old.slot)) (by simp)
        (voteStake epochStakes epochSchedule pubkey old.slot) rfl
      obtain ⟨hb₁, hstake₁⟩ := hshape.insertAggregateOperations (x := old)
        (SortedMap.sorted_insert hb.sorted) (isStakeOp_insert hb.typed hop') hb.closedBelow_insert
      refine ⟨_, ?_, hb₁, fun k => ?_, fun k => ?_⟩
      · simp [HeaviestSubtreeForkChoice.subtractOldVote, hassert, hpos, hentry,
          insertAggregateOperations_congr hfc']
      · rw [addedStake, hstake₁ _ (by simp), stakeAt_insert hb.sorted, if_neg (by simp [opKey_inj])]
        rfl
      · rw [subtractedStake, hstake₁ _ (by simp), stakeAt_insert hb.sorted]
        by_cases hk : old = k
        · subst hk
          simp [hstake', voteWeight, subtractedStake]
        · simp [opKey_inj, Ne.symm hk, voteWeight, hk, subtractedStake]
    · -- no stake to move
      have hzero : voteStake epochStakes epochSchedule pubkey old.slot = 0 := by omega
      refine ⟨ops, ?_, hb, fun _ => rfl, fun k => ?_⟩
      · simp [HeaviestSubtreeForkChoice.subtractOldVote, hassert, hzero]
      · simp [voteWeight, hzero]

/-- A moved vote: the stake of its validator taken off the old vote's block and put on the new
one's, in the batch and in the latest votes alike. -/
theorem Generated.moveVote (hshape : Shape fc₀) (hvoters : (fc₀.latestVotes.map Prod.fst).Nodup)
    (hgen : Generated (voteStake epochStakes epochSchedule) fc₀ (ops, observed, fc))
    (hpk : pubkey ∉ observed) (vote : SlotHashKey)
    (hnewer : ∀ old, AssocList.get? pubkey fc.latestVotes = some old →
      (if vote.slot = old.slot then decide (vote.hash < old.hash)
        else decide (vote.slot > old.slot)) = true) :
    ∃ res, moveVote epochStakes epochSchedule ops fc pubkey vote = some res ∧
      Generated (voteStake epochStakes epochSchedule) fc₀ (res.1, pubkey :: observed, res.2) := by
  let fc' : HeaviestSubtreeForkChoice :=
    { fc with latestVotes := AssocList.insert pubkey vote fc.latestVotes }
  have hfc' : fc'.forkInfos = fc₀.forkInfos := hgen.forkInfos
  obtain ⟨ops₁, h₁, hb₁, hadd₁, hsub₁⟩ := hgen.subtractOldVote hshape hfc' hnewer
  obtain ⟨op', hentry, hop', hstake'⟩ := entryUpdateStake_eq_insert hb₁.sorted hb₁.typed
    (isStakeOp_add (OpKey.label_opKey vote .add) (voteStake epochStakes epochSchedule pubkey vote.slot))
    (by simp) (voteStake epochStakes epochSchedule pubkey vote.slot) rfl
  obtain ⟨hb₂, hstake₂⟩ := hshape.insertAggregateOperations (x := vote)
    (SortedMap.sorted_insert hb₁.sorted) (isStakeOp_insert hb₁.typed hop') hb₁.closedBelow_insert
  refine ⟨(fc₀.insertAggregateOperations (SortedMap.insert (opKey vote .add) op' ops₁) vote, fc'),
    ?_, ?_⟩
  · simp only [HeaviestSubtreeForkChoice.moveVote, Option.bind_eq_bind, fc'] at h₁ ⊢
    rw [h₁, Option.bind_some, hentry, Option.bind_some, insertAggregateOperations_congr hfc']
  -- the stake changes of the whole move
  have hadd₂ : ∀ k, addedStake (fc₀.insertAggregateOperations
      (SortedMap.insert (opKey vote .add) op' ops₁) vote) k =
        addedStake ops k + voteWeight (voteStake epochStakes epochSchedule) k pubkey vote := by
    intro k
    have ha := hadd₁ k
    rw [addedStake, hstake₂ _ (by simp), stakeAt_insert hb₁.sorted]
    simp only [addedStake] at ha
    by_cases hk : vote = k
    · subst hk
      simp [hstake', voteWeight, ha, addedStake]
    · simp [opKey_inj, Ne.symm hk, voteWeight, hk, ha, addedStake]
  have hsub₂ : ∀ k, subtractedStake (fc₀.insertAggregateOperations
      (SortedMap.insert (opKey vote .add) op' ops₁) vote) k =
        subtractedStake ops k + ((AssocList.get? pubkey fc.latestVotes).map
          (voteWeight (voteStake epochStakes epochSchedule) k pubkey)).getD 0 := by
    intro k
    rw [subtractedStake, hstake₂ _ (by simp), stakeAt_insert hb₁.sorted,
      if_neg (by simp [opKey_inj]), ← hsub₁ k]
    rfl
  refine ⟨hb₂, hgen.forkInfos, hgen.treeRoot, AssocList.nodup_keys_insert hgen.voters,
    fun k => ?_, fun k => ?_, fun p hp => ?_⟩
  · have hc := hgen.counted k
    have hins := votedStake_insert (voteStake epochStakes epochSchedule) fc.latestVotes pubkey vote k
    dsimp only [fc'] at hc ⊢
    rw [hadd₂, hsub₂]
    omega
  · have hbd := hgen.bounded k
    have hu : AssocList.get? pubkey fc.latestVotes = AssocList.get? pubkey fc₀.latestVotes :=
      hgen.unobserved pubkey hpk
    dsimp only at hbd ⊢
    rw [hsub₂, observedStake_cons hvoters hpk, ← hu]
    omega
  · rw [List.mem_cons, not_or] at hp
    exact (AssocList.get?_insert_ne hp.1 _ _).trans (hgen.unobserved p hp.2)

/-- The loop moves a vote that is not older than its validator's latest one, and `moveVote`'s
`assert!` then holds. -/
theorem newer_of_not_older {vote latest : SlotHashKey}
    (h : ¬(vote.slot < latest.slot ∨ (vote.slot = latest.slot ∧ vote.hash ≥ latest.hash))) :
    (if vote.slot = latest.slot then decide (vote.hash < latest.hash)
      else decide (vote.slot > latest.slot)) = true := by
  rw [not_or, not_and, not_lt] at h
  split
  · exact decide_eq_true (Hash.lt_of_not_le (h.2 ‹_›))
  · exact decide_eq_true (lt_of_le_of_ne h.1 (Ne.symm ‹_›))

/-- A vote of a validator the loop has not seen: skipped below the root, otherwise seen, and
moved if it is newer than the validator's latest vote. -/
theorem Generated.step (hshape : Shape fc₀) (hvoters : (fc₀.latestVotes.map Prod.fst).Nodup)
    {acc : UpdateOperations × List Pubkey × HeaviestSubtreeForkChoice}
    {pubkeyVote : Pubkey × SlotHashKey}
    (hgen : Generated (voteStake epochStakes epochSchedule) fc₀ acc)
    (hfresh : pubkeyVote.1 ∉ acc.2.1) :
    ∃ acc', generateUpdateOperationsStep epochStakes epochSchedule acc pubkeyVote = some acc' ∧
      Generated (voteStake epochStakes epochSchedule) fc₀ acc' ∧
      acc'.2.1 ⊆ pubkeyVote.1 :: acc.2.1 := by
  obtain ⟨ops, observed, fc⟩ := acc
  obtain ⟨pubkey, vote⟩ := pubkeyVote
  dsimp only at hfresh ⊢
  unfold generateUpdateOperationsStep
  by_cases hroot : vote.slot < fc.treeRoot.slot
  · exact ⟨_, by simp [hroot], hgen, List.subset_cons_self _ _⟩
  -- seen now; moved unless older than the latest vote
  cases hl : AssocList.get? pubkey fc.latestVotes with
  | none =>
    obtain ⟨res, hmove, hgen'⟩ := hgen.moveVote hshape hvoters hfresh vote (by simp [hl])
    exact ⟨_, by simp [hroot, hfresh, hl, hmove], hgen', List.Subset.refl _⟩
  | some latest =>
    by_cases holder : vote.slot < latest.slot ∨ (vote.slot = latest.slot ∧ vote.hash ≥ latest.hash)
    · exact ⟨_, by simp [hroot, hfresh, hl, holder], hgen.observe hvoters hfresh,
        List.Subset.refl _⟩
    · obtain ⟨res, hmove, hgen'⟩ := hgen.moveVote hshape hvoters hfresh vote fun old hold => by
        rw [hl, Option.some.injEq] at hold
        exact hold ▸ newer_of_not_older holder
      exact ⟨_, by simp [hroot, hfresh, hl, holder, hmove], hgen', List.Subset.refl _⟩

/-- A second vote of a validator in one batch is the panic, unless it is below the root. -/
theorem generateUpdateOperationsStep_of_mem
    {acc : UpdateOperations × List Pubkey × HeaviestSubtreeForkChoice}
    {pubkeyVote : Pubkey × SlotHashKey} (h : pubkeyVote.1 ∈ acc.2.1) :
    generateUpdateOperationsStep epochStakes epochSchedule acc pubkeyVote = none ∨
      generateUpdateOperationsStep epochStakes epochSchedule acc pubkeyVote = some acc := by
  obtain ⟨ops, observed, fc⟩ := acc
  obtain ⟨pubkey, vote⟩ := pubkeyVote
  dsimp only at h
  unfold generateUpdateOperationsStep
  by_cases hroot : vote.slot < fc.treeRoot.slot
  · exact .inr (by simp [hroot])
  · exact .inl (by simp [hroot, h])

/-- Whatever votes the loop gets through, it keeps `Generated`. -/
theorem Generated.foldlM (hshape : Shape fc₀) (hvoters : (fc₀.latestVotes.map Prod.fst).Nodup)
    {pubkeyVotes : List (Pubkey × SlotHashKey)} :
    ∀ {acc acc'}, Generated (voteStake epochStakes epochSchedule) fc₀ acc →
      pubkeyVotes.foldlM (generateUpdateOperationsStep epochStakes epochSchedule) acc = some acc' →
      Generated (voteStake epochStakes epochSchedule) fc₀ acc' := by
  induction pubkeyVotes with
  | nil =>
    intro acc acc' hgen h
    cases h
    exact hgen
  | cons v rest ih =>
    intro acc acc' hgen h
    rw [List.foldlM_cons] at h
    cases hs : generateUpdateOperationsStep epochStakes epochSchedule acc v with
    | none => simp [hs] at h
    | some a =>
      simp only [hs, Option.bind_eq_bind, Option.bind_some] at h
      refine ih ?_ h
      by_cases hfresh : v.1 ∈ acc.2.1
      · -- a validator seen before: the vote was below the root and skipped
        rcases generateUpdateOperationsStep_of_mem hfresh with h' | h' <;> rw [hs] at h'
        · cases h'
        · cases h'
          exact hgen
      · obtain ⟨a', hs', hgen', -⟩ := hgen.step hshape hvoters hfresh
        rw [hs, Option.some.injEq] at hs'
        exact hs' ▸ hgen'

/-- Votes of distinct validators not seen yet: the loop gets through them all. -/
theorem Generated.foldlM_isSome (hshape : Shape fc₀)
    (hvoters : (fc₀.latestVotes.map Prod.fst).Nodup) {pubkeyVotes : List (Pubkey × SlotHashKey)} :
    ∀ {acc}, Generated (voteStake epochStakes epochSchedule) fc₀ acc →
      (pubkeyVotes.map Prod.fst).Nodup → (∀ v ∈ pubkeyVotes, v.1 ∉ acc.2.1) →
      ∃ acc', pubkeyVotes.foldlM (generateUpdateOperationsStep epochStakes epochSchedule) acc =
        some acc' := by
  induction pubkeyVotes with
  | nil => intro acc _ _ _; exact ⟨acc, rfl⟩
  | cons v rest ih =>
    intro acc hgen hdistinct hfresh
    rw [List.map_cons, List.nodup_cons] at hdistinct
    obtain ⟨a, hs, hgen', hsub⟩ := hgen.step hshape hvoters (hfresh v List.mem_cons_self)
    -- the later validators are none of those seen so far, nor this one
    have hfresh' : ∀ w ∈ rest, w.1 ∉ a.2.1 := fun w hw hmem => by
      rcases List.mem_cons.mp (hsub hmem) with heq | hmem'
      · exact hdistinct.1 (heq ▸ List.mem_map_of_mem hw)
      · exact hfresh w (List.mem_cons_of_mem _ hw) hmem'
    obtain ⟨acc', h'⟩ := ih hgen' hdistinct.2 hfresh'
    exact ⟨acc', by rw [List.foldlM_cons, hs, Option.bind_eq_bind, Option.bind_some, h']⟩

end Generate

/-- The loop changes the latest votes only. -/
theorem Generated.eq_with (hgen : Generated stake fc₀ acc) :
    acc.2.2 = { fc₀ with latestVotes := acc.2.2.latestVotes } := by
  obtain ⟨ops, observed, ⟨forkInfos, latestVotes, treeRoot⟩⟩ := acc
  have h1 : forkInfos = fc₀.forkInfos := hgen.forkInfos
  have h2 : treeRoot = fc₀.treeRoot := hgen.treeRoot
  subst h1 h2
  rfl

/-! ### `add_votes` -/

/-- The bookkeeping of the fork choice: a tree, one latest vote per validator, every block's own
stake that of the latest votes for it, and every subtree stake the block's own and its
children's. -/
structure Accounted (stake : Pubkey → Slot → Nat) (fc : HeaviestSubtreeForkChoice) : Prop where
  shape : Shape fc
  voters : (fc.latestVotes.map Prod.fst).Nodup
  votedAt : ∀ k info, fc.get k = some info → info.stakeVotedAt = votedStake stake fc.latestVotes k
  subtree : SubtreeStakes fc

/-- `generate_update_operations` and `process_update_operations` taken apart. -/
theorem addVotes_eq_some {pubkeyVotes : List (Pubkey × SlotHashKey)}
    {epochStakes : Epoch → Option EpochStakes} {epochSchedule : EpochSchedule}
    {best : SlotHashKey} {fc' : HeaviestSubtreeForkChoice}
    (h : fc.addVotes pubkeyVotes epochStakes epochSchedule = some (best, fc')) :
    ∃ acc, pubkeyVotes.foldlM (generateUpdateOperationsStep epochStakes epochSchedule)
        ([], [], fc) = some acc ∧
      acc.2.2.processUpdateOperations acc.1 = some fc' ∧ fc'.bestOverallSlot = some best := by
  unfold addVotes generateUpdateOperations at h
  simp only [Option.bind_eq_bind, Option.bind_eq_some_iff] at h
  obtain ⟨⟨ops, fc₁⟩, ⟨⟨ops', observed, fc₁'⟩, hfold, hpair⟩, g, hproc, best', hbest, hres⟩ := h
  cases hpair
  cases hres
  exact ⟨_, hfold, hproc, hbest⟩

theorem Shape.withLatestVotes (h : Shape fc) (latestVotes : List (Pubkey × SlotHashKey)) :
    Shape { fc with latestVotes := latestVotes } :=
  h.sameTree ⟨rfl, rfl, fun _ => rfl⟩

/-- `add_votes` on a tree, taken apart: the generation loop keeps `Generated`, and its batch runs
on the tree of `fc` with the new latest votes, which the fork choice it returns keeps. -/
theorem addVotes_processed {pubkeyVotes : List (Pubkey × SlotHashKey)}
    {epochStakes : Epoch → Option EpochStakes} {epochSchedule : EpochSchedule}
    {best : SlotHashKey} {fc' : HeaviestSubtreeForkChoice} (hshape : Shape fc)
    (hvoters : (fc.latestVotes.map Prod.fst).Nodup)
    (hadd : fc.addVotes pubkeyVotes epochStakes epochSchedule = some (best, fc')) :
    ∃ acc, Generated (voteStake epochStakes epochSchedule) fc acc ∧
      Processed { fc with latestVotes := acc.2.2.latestVotes } acc.1 fc' ∧
      fc'.latestVotes = acc.2.2.latestVotes := by
  obtain ⟨acc, hfold, hproc, -⟩ := addVotes_eq_some hadd
  have hgen := Generated.foldlM hshape hvoters (Generated.init _ hvoters) hfold
  rw [hgen.eq_with] at hproc
  obtain ⟨g, hg, hP⟩ := processed (hshape.withLatestVotes _) hgen.batch.sorted hgen.batch.typed
  rw [hproc, Option.some.injEq] at hg
  subst hg
  exact ⟨acc, hgen, hP, by rw [latestVotes_processUpdateOperations hproc]⟩

/-- `add_votes` keeps the bookkeeping: after the batch every block's own stake is that of the new
latest votes for it, and every subtree stake a sum again. -/
theorem Accounted.addVotes {pubkeyVotes : List (Pubkey × SlotHashKey)}
    {epochStakes : Epoch → Option EpochStakes} {epochSchedule : EpochSchedule}
    {best : SlotHashKey} {fc' : HeaviestSubtreeForkChoice}
    (h : Accounted (voteStake epochStakes epochSchedule) fc)
    (hadd : fc.addVotes pubkeyVotes epochStakes epochSchedule = some (best, fc')) :
    Accounted (voteStake epochStakes epochSchedule) fc' := by
  obtain ⟨acc, hgen, hP, hvotes⟩ := addVotes_processed h.shape h.voters hadd
  have hshape₁ := h.shape.withLatestVotes acc.2.2.latestVotes
  -- no `Subtract` takes off more than the old votes for its block brought
  have hsub : ∀ k info, fc.get k = some info → subtractedStake acc.1 k ≤ info.stakeVotedAt :=
    fun k info hk => (hgen.bounded k).trans
      ((observedStake_le_votedStake _ k).trans (h.votedAt k info hk).ge)
  refine ⟨hshape₁.sameTree hP.sameTree, hvotes ▸ hgen.voters, fun k info' hk' => ?_,
    hP.subtreeStakes hshape₁ h.subtree hgen.batch.closed hsub⟩
  obtain ⟨info, hk, hat⟩ := hP.stakeVotedAt hk'
  have hc := hgen.counted k
  have hle := hsub k info hk
  have hv := h.votedAt k info hk
  rw [hat, hvotes]
  omega

/-- `add_votes` on a tree with one latest vote per validator returns, with the best overall slot
of the new fork choice, unless the batch holds two votes of one validator. -/
theorem Shape.addVotes_eq_some_best (h : Shape fc)
    (hvoters : (fc.latestVotes.map Prod.fst).Nodup)
    {pubkeyVotes : List (Pubkey × SlotHashKey)} (hdistinct : (pubkeyVotes.map Prod.fst).Nodup)
    (epochStakes : Epoch → Option EpochStakes) (epochSchedule : EpochSchedule) :
    ∃ best fc', fc.addVotes pubkeyVotes epochStakes epochSchedule = some (best, fc') ∧
      fc'.bestOverallSlot = some best := by
  have hgen₀ := Generated.init (voteStake epochStakes epochSchedule) hvoters
  obtain ⟨acc, hfold⟩ := Generated.foldlM_isSome h hvoters hgen₀ hdistinct
    fun _ _ => List.not_mem_nil
  have hgen := Generated.foldlM h hvoters hgen₀ hfold
  have hshape₁ : Shape acc.2.2 := hgen.eq_with ▸ h.withLatestVotes _
  obtain ⟨g, hg, hP⟩ := processed hshape₁ hgen.batch.sorted hgen.batch.typed
  -- the root is still a block, so it has a best slot
  obtain ⟨rinfo, hroot, -⟩ := (hshape₁.sameTree hP.sameTree).root
  refine ⟨rinfo.bestSlot, g, ?_, by simp [bestOverallSlot, bestSlot, hroot]⟩
  unfold addVotes generateUpdateOperations
  simp [hfold, hg, bestOverallSlot, bestSlot, hroot]

end HeaviestSubtreeForkChoice

end Agave.Consensus
