import Agave.Consensus.ForkChoice.Shape

/-!
# Heaviest-subtree fork choice: running a batch of operations

`process_update_operations` runs the sorted operations from the greatest key down, so a batch
`e :: rest` is `rest` first and then its smallest entry `e` (`processUpdateOperations_cons`).
`Processed fc ops g` says what a tail `ops` of a batch of `Add`, `Subtract` and `Aggregate`
operations has done: a block without an operation is as it was; a block with some has lost its
`Subtract` and gained its `Add`, in its own stake and in its subtree's, until its `Aggregate`
recomputes it from its children as `aggregate_slot` would in the final tree. The children of an
aggregated block have greater keys, so every one of their operations is in the tail already; the
order of the labels puts a block's `Aggregate` after its stake changes. `Processed.cons` is one
step; `processed` the whole batch.
-/

namespace Agave.Consensus

open Agave.Vote

namespace OpKey

/-- The block of an operation's key. -/
def node (key : OpKey) : SlotHashKey := (ofLex key).1

/-- The label of an operation's key. -/
def label (key : OpKey) : UpdateLabel := (ofLex key).2

@[simp] theorem label_opKey (k : SlotHashKey) (l : UpdateLabel) : (opKey k l).label = l := rfl

theorem eq_opKey (key : OpKey) : key = opKey key.node key.label := rfl

theorem lt_iff {x y : OpKey} : x < y ↔ x.node < y.node ∨ x.node = y.node ∧ x.label < y.label :=
  Prod.Lex.toLex_lt_toLex (x := ofLex x) (y := ofLex y)

end OpKey

namespace UpdateLabel

theorem aggregate_le (l : UpdateLabel) : aggregate ≤ l := by
  show rank aggregate ≤ rank l
  cases l <;> simp [rank, Prod.Lex.toLex_le_toLex]

theorem le_subtract (l : UpdateLabel) : l ≤ subtract := by
  show rank l ≤ rank subtract
  cases l <;> simp [rank, Prod.Lex.toLex_le_toLex]

end UpdateLabel

/-- An entry `add_votes` puts in a batch: an `Add` or a `Subtract` under its label, or an
`Aggregate`. -/
def IsStakeOp (e : OpKey × UpdateOperation) : Prop :=
  match e.1.label, e.2 with
  | .add, .add _ => True
  | .subtract, .subtract _ => True
  | .aggregate, .aggregate => True
  | _, _ => False

/-- The stake an `Add` or a `Subtract` carries; the other entries carry none. -/
def UpdateOperation.stake : UpdateOperation → Nat
  | .add stake => stake
  | .subtract stake => stake
  | _ => 0

/-- The stake of the entry of a key, zero without one. -/
def stakeAt (ops : UpdateOperations) (key : OpKey) : Nat :=
  ((SortedMap.get? key ops).map UpdateOperation.stake).getD 0

/-- The stake of the `Add` at a block. -/
def addedStake (ops : UpdateOperations) (k : SlotHashKey) : Nat := stakeAt ops (opKey k .add)

/-- The stake of the `Subtract` at a block. -/
def subtractedStake (ops : UpdateOperations) (k : SlotHashKey) : Nat :=
  stakeAt ops (opKey k .subtract)

/-- Whether a block has an `Aggregate`. -/
def aggregates (ops : UpdateOperations) (k : SlotHashKey) : Bool :=
  SortedMap.contains (opKey k .aggregate) ops

theorem SortedMap.get?_cons {key : OpKey} {e : OpKey × UpdateOperation} {rest : UpdateOperations} :
    SortedMap.get? key (e :: rest) = if e.1 = key then some e.2 else SortedMap.get? key rest := by
  unfold SortedMap.get?
  rw [List.find?_cons]
  by_cases h : e.1 = key <;> simp [h]

theorem aggregates_cons {e : OpKey × UpdateOperation} {rest : UpdateOperations} {k : SlotHashKey} :
    aggregates (e :: rest) k = true ↔ e.1 = opKey k .aggregate ∨ aggregates rest k = true := by
  simp [aggregates, SortedMap.contains_eq_true_iff]

theorem stakeAt_cons_self (e : OpKey × UpdateOperation) (rest : UpdateOperations) :
    stakeAt (e :: rest) e.1 = e.2.stake := by
  simp [stakeAt, SortedMap.get?_cons]

theorem stakeAt_cons_of_ne {e : OpKey × UpdateOperation} {rest : UpdateOperations} {key : OpKey}
    (h : e.1 ≠ key) : stakeAt (e :: rest) key = stakeAt rest key := by
  simp only [stakeAt, SortedMap.get?_cons, if_neg h]

theorem stakeAt_eq_zero {ops : UpdateOperations} {key : OpKey} (h : ∀ e ∈ ops, e.1 ≠ key) :
    stakeAt ops key = 0 := by
  simp [stakeAt, SortedMap.get?_eq_none_iff.mpr h]

/-- An entry whose key is not the `Add` of a block leaves the block's added stake. -/
theorem addedStake_cons_of_ne {e : OpKey × UpdateOperation} {rest : UpdateOperations}
    {k : SlotHashKey} (h : e.1 ≠ opKey k .add) : addedStake (e :: rest) k = addedStake rest k :=
  stakeAt_cons_of_ne h

theorem subtractedStake_cons_of_ne {e : OpKey × UpdateOperation} {rest : UpdateOperations}
    {k : SlotHashKey} (h : e.1 ≠ opKey k .subtract) :
    subtractedStake (e :: rest) k = subtractedStake rest k :=
  stakeAt_cons_of_ne h

theorem IsStakeOp.cases {e : OpKey × UpdateOperation} (he : IsStakeOp e) :
    (∃ s, e.1.label = .add ∧ e.2 = .add s) ∨ (∃ s, e.1.label = .subtract ∧ e.2 = .subtract s) ∨
      e.1.label = .aggregate ∧ e.2 = .aggregate := by
  unfold IsStakeOp at he
  split at he <;> simp_all

theorem OpKey.ne_opKey_of_label_ne {key : OpKey} {l : UpdateLabel} (h : key.label ≠ l)
    (k : SlotHashKey) : key ≠ opKey k l :=
  fun hkey => h (by rw [hkey]; rfl)

theorem addedStake_eq_zero {ops : UpdateOperations} {k : SlotHashKey}
    (h : ∀ e ∈ ops, e.1 ≠ opKey k .add) : addedStake ops k = 0 :=
  stakeAt_eq_zero h

theorem subtractedStake_eq_zero {ops : UpdateOperations} {k : SlotHashKey}
    (h : ∀ e ∈ ops, e.1 ≠ opKey k .subtract) : subtractedStake ops k = 0 :=
  stakeAt_eq_zero h

theorem aggregates_eq_false {ops : UpdateOperations} {k : SlotHashKey}
    (h : ∀ e ∈ ops, e.1 ≠ opKey k .aggregate) : aggregates ops k = false := by
  simp only [aggregates, Bool.eq_false_iff, ne_eq, SortedMap.contains_eq_true_iff, not_exists,
    not_and]
  exact h

/-- A block without an entry in a batch has neither stake change nor aggregation from it. -/
theorem addedStake_of_forall_ne {ops : UpdateOperations} {k : SlotHashKey}
    (h : ∀ e ∈ ops, e.1.node ≠ k) : addedStake ops k = 0 :=
  addedStake_eq_zero fun e he hkey => h e he (by rw [hkey]; rfl)

theorem subtractedStake_of_forall_ne {ops : UpdateOperations} {k : SlotHashKey}
    (h : ∀ e ∈ ops, e.1.node ≠ k) : subtractedStake ops k = 0 :=
  subtractedStake_eq_zero fun e he hkey => h e he (by rw [hkey]; rfl)

theorem aggregates_of_forall_ne {ops : UpdateOperations} {k : SlotHashKey}
    (h : ∀ e ∈ ops, e.1.node ≠ k) : aggregates ops k = false :=
  aggregates_eq_false fun e he hkey => h e he (by rw [hkey]; rfl)

/-- Above the smallest entry of a sorted batch, its block has only greater labels. -/
theorem ne_opKey_of_lt {e : OpKey × UpdateOperation} {rest : UpdateOperations}
    (hlt : ∀ e' ∈ rest, e.1 < e'.1) {l : UpdateLabel} (hl : l ≤ e.1.label) :
    ∀ e' ∈ rest, e'.1 ≠ opKey e.1.node l := by
  intro e' he' hkey
  have h := hlt e' he'
  rw [hkey, OpKey.lt_iff] at h
  rcases h with h | ⟨-, h⟩
  · exact lt_irrefl _ h
  · exact absurd hl (not_le.mpr h)

/-- The smallest entry of a batch is below every block with an `Aggregate` in the tail. -/
theorem node_lt_of_aggregates {e : OpKey × UpdateOperation} {rest : UpdateOperations}
    {k : SlotHashKey} (hlt : ∀ e' ∈ rest, e.1 < e'.1) (hagg : aggregates rest k = true) :
    e.1.node < k := by
  obtain ⟨e', he', hkey⟩ := SortedMap.contains_eq_true_iff.mp hagg
  have h := hlt e' he'
  rw [hkey, OpKey.lt_iff] at h
  rcases h with h | ⟨-, h⟩
  · exact h
  · exact absurd (UpdateLabel.aggregate_le _) (not_le.mpr h)

namespace HeaviestSubtreeForkChoice

variable {fc g g' : HeaviestSubtreeForkChoice} {k m : SlotHashKey}

/-- The subtree stakes of some blocks, summed; a block not in the tree counts zero. -/
def childrenStake (fc : HeaviestSubtreeForkChoice) (children : List SlotHashKey) : Nat :=
  (children.map fun c => (fc.stakeVotedSubtree c).getD 0).sum

/-- Each block's subtree stake is its own stake and its children's subtree stakes. -/
def SubtreeStakes (fc : HeaviestSubtreeForkChoice) : Prop :=
  ∀ k info, fc.get k = some info → info.stakeVotedSubtree = info.stakeVotedAt + fc.childrenStake info.children

/-- Every block with an entry has its parent aggregated: what the `Aggregate`s that
`insert_aggregate_operations` puts over every changed block give. -/
def Closed (fc : HeaviestSubtreeForkChoice) (ops : UpdateOperations) : Prop :=
  ∀ e ∈ ops, ∀ p, fc.parent e.1.node = some p → aggregates ops p = true

theorem childrenStake_congr {children : List SlotHashKey}
    (h : ∀ c ∈ children, g.get c = fc.get c) : g.childrenStake children = fc.childrenStake children := by
  unfold childrenStake stakeVotedSubtree
  congr 1
  exact List.map_congr_left fun c hc => by rw [h c hc]

/-! ### One operation -/

theorem processUpdateOperations_cons (e : OpKey × UpdateOperation) (rest : UpdateOperations) :
    fc.processUpdateOperations (e :: rest) =
      (fc.processUpdateOperations rest).bind fun g => g.processUpdateOperation e.1.node e.2 := by
  simp [processUpdateOperations, List.foldlM_append, OpKey.node]

/-- A turn of the loop of `aggregate_slot` adds the child's subtree stake, whatever it makes of the
best and the deepest child. -/
theorem aggregateChild_eq_some (acc : AggregateState) {c : SlotHashKey} {child : ForkInfo}
    (hc : fc.get c = some child) :
    ∃ acc', fc.aggregateChild k acc c = some acc' ∧
      acc'.stakeVotedSubtree = acc.stakeVotedSubtree + child.stakeVotedSubtree := by
  unfold aggregateChild
  simp only [hc, Option.bind_eq_bind, Option.bind_some]
  split <;> split <;> exact ⟨_, rfl, rfl⟩

/-- The loop of `aggregate_slot` reads the children only. -/
theorem foldlM_aggregateChild_congr {children : List SlotHashKey}
    (h : ∀ c ∈ children, g.get c = fc.get c) (acc : AggregateState) :
    children.foldlM (g.aggregateChild k) acc = children.foldlM (fc.aggregateChild k) acc := by
  induction children generalizing acc with
  | nil => rfl
  | cons c rest ih =>
    have hc : g.aggregateChild k acc c = fc.aggregateChild k acc c := by
      unfold aggregateChild
      rw [h c List.mem_cons_self]
    rw [List.foldlM_cons, List.foldlM_cons, hc]
    congr 1
    funext acc'
    exact ih (fun c' hc' => h c' (List.mem_cons_of_mem _ hc')) acc'

theorem foldlM_aggregateChild {children : List SlotHashKey} (acc : AggregateState)
    (hchildren : ∀ c ∈ children, (fc.get c).isSome) :
    ∃ acc', children.foldlM (fc.aggregateChild k) acc = some acc' ∧
      acc'.stakeVotedSubtree = acc.stakeVotedSubtree + fc.childrenStake children := by
  induction children generalizing acc with
  | nil => exact ⟨acc, rfl, by simp [childrenStake]⟩
  | cons c rest ih =>
    obtain ⟨child, hchild⟩ := Option.isSome_iff_exists.mp (hchildren c List.mem_cons_self)
    obtain ⟨acc₁, hacc₁, hstake₁⟩ := aggregateChild_eq_some (k := k) acc hchild
    obtain ⟨acc', hacc', hstake'⟩ := ih acc₁ fun c' hc' => hchildren c' (List.mem_cons_of_mem _ hc')
    refine ⟨acc', by rw [List.foldlM_cons, hacc₁, Option.bind_eq_bind, Option.bind_some, hacc'], ?_⟩
    simp only [childrenStake, List.map_cons, List.sum_cons, stakeVotedSubtree, hchild,
      Option.map_some, Option.getD_some] at hstake' ⊢
    rw [hstake', hstake₁]
    omega

/-- `aggregate_slot` on a block whose children are all in the tree: the subtree stake becomes the
block's own stake and its children's. -/
theorem aggregateSlot_eq_some {info : ForkInfo} (hk : fc.get k = some info)
    (hchildren : ∀ c ∈ info.children, (fc.get c).isSome) :
    ∃ acc : AggregateState, info.children.foldlM (fc.aggregateChild k)
        (AggregateState.init k info.stakeVotedAt) = some acc ∧
      fc.aggregateSlot k = some (fc.modify k acc.apply) ∧
      acc.stakeVotedSubtree = info.stakeVotedAt + fc.childrenStake info.children := by
  obtain ⟨acc, hacc, hstake⟩ := foldlM_aggregateChild (k := k)
    (AggregateState.init k info.stakeVotedAt) hchildren
  refine ⟨acc, hacc, ?_, hstake⟩
  unfold aggregateSlot
  simp only [hk, hacc, Option.bind_eq_bind, Option.bind_some]

theorem get_addSlotStake_self {info : ForkInfo} (hk : fc.get k = some info) (stake : Nat) :
    (fc.addSlotStake k stake).get k = some { info with
      stakeVotedAt := info.stakeVotedAt + stake,
      stakeVotedSubtree := info.stakeVotedSubtree + stake } := by
  rw [addSlotStake, get_modify_self, hk]
  rfl

theorem get_subtractSlotStake_self {info : ForkInfo} (hk : fc.get k = some info) (stake : Nat) :
    (fc.subtractSlotStake k stake).get k = some { info with
      stakeVotedAt := info.stakeVotedAt - stake,
      stakeVotedSubtree := info.stakeVotedSubtree - stake } := by
  rw [subtractSlotStake, get_modify_self, hk]
  rfl

theorem AggregateState.links_apply (acc : AggregateState) (i : ForkInfo) :
    (acc.apply i).links = i.links := by
  unfold AggregateState.apply ForkInfo.setDuplicateConfirmed
  split <;> rfl

theorem AggregateState.stakeVotedSubtree_apply (acc : AggregateState) (i : ForkInfo) :
    (acc.apply i).stakeVotedSubtree = acc.stakeVotedSubtree := rfl

theorem AggregateState.stakeVotedAt_apply (acc : AggregateState) (i : ForkInfo) :
    (acc.apply i).stakeVotedAt = i.stakeVotedAt := by
  unfold AggregateState.apply ForkInfo.setDuplicateConfirmed
  split <;> rfl

/-- An entry of a batch of `add_votes`, run on a tree, changes only its own block. -/
theorem processUpdateOperation_eq_some (hshape : Shape g) {e : OpKey × UpdateOperation}
    (he : IsStakeOp e) :
    ∃ g', g.processUpdateOperation e.1.node e.2 = some g' ∧ SameTree g g' ∧
      ∀ m, m ≠ e.1.node → g'.get m = g.get m := by
  obtain ⟨key, op⟩ := e
  unfold IsStakeOp at he
  -- the only entries are `Add`, `Subtract` and `Aggregate`
  cases op with
  | add stake =>
    exact ⟨_, rfl, sameTree_modify _ _ (by intro; rfl), fun m hm => get_modify_ne _ hm _⟩
  | subtract stake =>
    exact ⟨_, rfl, sameTree_modify _ _ (by intro; rfl), fun m hm => get_modify_ne _ hm _⟩
  | aggregate =>
    cases hget : g.get key.node with
    | none =>
      refine ⟨g, ?_, .refl g, fun _ _ => rfl⟩
      simp [processUpdateOperation, aggregateSlot, hget]
    | some info =>
      have hchildren : ∀ c ∈ info.children, (g.get c).isSome := fun c hc => by
        obtain ⟨cinfo, hcget, -⟩ := hshape.children _ info c hget hc
        simp [hcget]
      obtain ⟨acc, -, hacc, -⟩ := aggregateSlot_eq_some hget hchildren
      exact ⟨_, hacc, sameTree_modify _ _ acc.links_apply, fun m hm => get_modify_ne _ hm _⟩
  | markValid slot => split at he <;> simp_all
  | markInvalid slot => split at he <;> simp_all

/-! ### A batch -/

/-- What a tail `ops` of a sorted batch has done to `fc` (see the module docstring). -/
structure Processed (fc : HeaviestSubtreeForkChoice) (ops : UpdateOperations)
    (g : HeaviestSubtreeForkChoice) : Prop where
  sameTree : SameTree fc g
  untouched : ∀ k, (∀ e ∈ ops, e.1.node ≠ k) → g.get k = fc.get k
  touched : ∀ k info, fc.get k = some info → (∃ e ∈ ops, e.1.node = k) →
    ∃ info', g.get k = some info' ∧ info'.children = info.children ∧
      info'.stakeVotedAt = info.stakeVotedAt - subtractedStake ops k + addedStake ops k ∧
      (aggregates ops k = true → ∃ i acc, info'.children.foldlM (g.aggregateChild k)
          (AggregateState.init k i.stakeVotedAt) = some acc ∧ info' = acc.apply i ∧
          i.latestInvalidAncestor = info.latestInvalidAncestor) ∧
      (aggregates ops k = false → info'.stakeVotedSubtree =
        info.stakeVotedSubtree - subtractedStake ops k + addedStake ops k ∧
        info'.bestSlot = info.bestSlot ∧ info'.latestInvalidAncestor = info.latestInvalidAncestor)

theorem processed_nil (fc : HeaviestSubtreeForkChoice) : Processed fc [] fc :=
  ⟨.refl fc, fun _ _ => rfl, fun _ _ _ ⟨_, he, _⟩ => by cases he⟩

/-- Before its smallest entry `e` runs, the block of `e` has had only the tail's stake changes:
the tail holds no `Aggregate` of it, which would sort below `e`. -/
theorem Processed.before {e : OpKey × UpdateOperation} {rest : UpdateOperations}
    (hP : Processed fc rest g) (hlt : ∀ e' ∈ rest, e.1 < e'.1) {info : ForkInfo}
    (hk : fc.get e.1.node = some info) :
    ∃ info₀, g.get e.1.node = some info₀ ∧ info₀.children = info.children ∧
      info₀.stakeVotedAt =
        info.stakeVotedAt - subtractedStake rest e.1.node + addedStake rest e.1.node ∧
      info₀.stakeVotedSubtree =
        info.stakeVotedSubtree - subtractedStake rest e.1.node + addedStake rest e.1.node ∧
      info₀.bestSlot = info.bestSlot ∧ info₀.latestInvalidAncestor = info.latestInvalidAncestor := by
  by_cases hin : ∃ e' ∈ rest, e'.1.node = e.1.node
  · obtain ⟨info₀, hget, hch, hat, -, hnot⟩ := hP.touched _ info hk hin
    exact ⟨info₀, hget, hch, hat,
      hnot (aggregates_eq_false (ne_opKey_of_lt hlt (UpdateLabel.aggregate_le _)))⟩
  · simp only [not_exists, not_and] at hin
    refine ⟨info, (hP.untouched _ hin).trans hk, rfl, ?_, ?_, rfl, rfl⟩ <;>
      rw [subtractedStake_of_forall_ne hin, addedStake_of_forall_ne hin] <;> rfl

/-- The smallest entry's own block once it has run: its `Add` or `Subtract` applied to the block's
stakes, or its `Aggregate` summing the children, all of whose entries have run. -/
theorem Processed.touched_cons_self (hshape : Shape fc) {e : OpKey × UpdateOperation}
    {rest : UpdateOperations} (hP : Processed fc rest g) (hlt : ∀ e' ∈ rest, e.1 < e'.1)
    (he : IsStakeOp e) (hstep : g.processUpdateOperation e.1.node e.2 = some g')
    (hframe : ∀ m, m ≠ e.1.node → g'.get m = g.get m) {info : ForkInfo}
    (hk : fc.get e.1.node = some info) :
    ∃ info', g'.get e.1.node = some info' ∧ info'.children = info.children ∧
      info'.stakeVotedAt = info.stakeVotedAt - subtractedStake (e :: rest) e.1.node +
        addedStake (e :: rest) e.1.node ∧
      (aggregates (e :: rest) e.1.node = true → ∃ i acc, info'.children.foldlM
          (g'.aggregateChild e.1.node) (AggregateState.init e.1.node i.stakeVotedAt) = some acc ∧
          info' = acc.apply i ∧ i.latestInvalidAncestor = info.latestInvalidAncestor) ∧
      (aggregates (e :: rest) e.1.node = false → info'.stakeVotedSubtree =
        info.stakeVotedSubtree - subtractedStake (e :: rest) e.1.node +
          addedStake (e :: rest) e.1.node ∧
        info'.bestSlot = info.bestSlot ∧ info'.latestInvalidAncestor = info.latestInvalidAncestor) := by
  obtain ⟨info₀, hget₀, hch₀, hat₀, hsub₀, hbest₀, hinv₀⟩ := hP.before hlt hk
  have hkey : e.1 = opKey e.1.node e.1.label := OpKey.eq_opKey e.1
  have hne : ∀ l, e.1.label ≠ l → e.1 ≠ opKey e.1.node l :=
    fun l h => OpKey.ne_opKey_of_label_ne h _
  rcases he.cases with ⟨s, hl, hop⟩ | ⟨s, hl, hop⟩ | ⟨hl, hop⟩
  · -- `Add`: the tail has nothing at the block below `Subtract`
    rw [hop] at hstep
    cases Option.some.inj hstep
    have hadd : addedStake rest e.1.node = 0 := addedStake_eq_zero (ne_opKey_of_lt hlt hl.ge)
    have hadd' : addedStake (e :: rest) e.1.node = s := by
      rw [addedStake, ← (hl ▸ hkey : e.1 = opKey e.1.node .add), stakeAt_cons_self, hop]
      rfl
    have hsub' : subtractedStake (e :: rest) e.1.node = subtractedStake rest e.1.node :=
      subtractedStake_cons_of_ne (hne .subtract (by rw [hl]; decide))
    have hagg : aggregates (e :: rest) e.1.node = false := by
      rw [Bool.eq_false_iff, ne_eq, aggregates_cons, not_or]
      exact ⟨hne .aggregate (by rw [hl]; decide), by
        rw [aggregates_eq_false (ne_opKey_of_lt hlt (UpdateLabel.aggregate_le _))]; simp⟩
    refine ⟨_, get_addSlotStake_self hget₀ s, hch₀, ?_, fun h => absurd h (by simp [hagg]),
      fun _ => ⟨?_, hbest₀, hinv₀⟩⟩
    · simp only [hat₀, hadd, hadd', hsub']
      omega
    · simp only [hsub₀, hadd, hadd', hsub']
      omega
  · -- `Subtract`: the greatest label, so the tail has nothing at the block
    rw [hop] at hstep
    cases Option.some.inj hstep
    have hnone : ∀ l, ∀ e' ∈ rest, e'.1 ≠ opKey e.1.node l :=
      fun l => ne_opKey_of_lt hlt (hl ▸ UpdateLabel.le_subtract l)
    have hsub' : subtractedStake (e :: rest) e.1.node = s := by
      rw [subtractedStake, ← (hl ▸ hkey : e.1 = opKey e.1.node .subtract), stakeAt_cons_self, hop]
      rfl
    have hadd' : addedStake (e :: rest) e.1.node = 0 := by
      rw [addedStake_cons_of_ne (hne .add (by rw [hl]; decide))]
      exact addedStake_eq_zero (hnone _)
    have hagg : aggregates (e :: rest) e.1.node = false := by
      rw [Bool.eq_false_iff, ne_eq, aggregates_cons, not_or]
      exact ⟨hne .aggregate (by rw [hl]; decide), by
        rw [aggregates_eq_false (hnone _)]; simp⟩
    rw [addedStake_eq_zero (hnone _), subtractedStake_eq_zero (hnone _)] at hat₀ hsub₀
    refine ⟨_, get_subtractSlotStake_self hget₀ s, hch₀, ?_, fun h => absurd h (by simp [hagg]),
      fun _ => ⟨?_, hbest₀, hinv₀⟩⟩
    · simp only [hat₀, hadd', hsub']
      omega
    · simp only [hsub₀, hadd', hsub']
      omega
  · -- `Aggregate`: every child is above the block, so all of its entries have run
    rw [hop] at hstep
    change g.aggregateSlot e.1.node = some g' at hstep
    have hshapeg : Shape g := hshape.sameTree hP.sameTree
    have hchildren : ∀ c ∈ info₀.children, (g.get c).isSome := fun c hc => by
      obtain ⟨cinfo, hcget, -⟩ := hshapeg.child hget₀ hc
      simp [hcget]
    obtain ⟨acc, hfold, hacc, -⟩ := aggregateSlot_eq_some hget₀ hchildren
    rw [hacc] at hstep
    cases Option.some.inj hstep
    have hadd' : addedStake (e :: rest) e.1.node = addedStake rest e.1.node :=
      addedStake_cons_of_ne (hne .add (by rw [hl]; decide))
    have hsub' : subtractedStake (e :: rest) e.1.node = subtractedStake rest e.1.node :=
      subtractedStake_cons_of_ne (hne .subtract (by rw [hl]; decide))
    have hchildren' : (acc.apply info₀).children = info₀.children :=
      congrArg Prod.snd (acc.links_apply info₀)
    have hagg : aggregates (e :: rest) e.1.node = true := aggregates_cons.mpr (Or.inl (hl ▸ hkey))
    refine ⟨acc.apply info₀, by rw [get_modify_self, hget₀]; rfl, hchildren'.trans hch₀, ?_,
      fun _ => ⟨info₀, acc, ?_, rfl, hinv₀⟩, fun h => absurd hagg (by rw [h]; decide)⟩
    · rw [acc.stakeVotedAt_apply, hat₀, hadd', hsub']
    · -- the children, above the block, are as the loop read them
      rw [hchildren', foldlM_aggregateChild_congr fun c hc => ?_]
      · exact hfold
      · obtain ⟨-, -, -, hkc⟩ := hshapeg.child hget₀ hc
        exact get_modify_ne _ (ne_of_gt hkc) _

/-- One more entry, the smallest of the batch so far. -/
theorem Processed.cons (hshape : Shape fc) {e : OpKey × UpdateOperation} {rest : UpdateOperations}
    (hP : Processed fc rest g) (hlt : ∀ e' ∈ rest, e.1 < e'.1) (he : IsStakeOp e)
    (hstep : g.processUpdateOperation e.1.node e.2 = some g') : Processed fc (e :: rest) g' := by
  have hshapeg : Shape g := hshape.sameTree hP.sameTree
  obtain ⟨g'', hstep', hsame, hframe⟩ := processUpdateOperation_eq_some hshapeg he
  rw [hstep] at hstep'
  cases hstep'
  refine ⟨hP.sameTree.trans hsame, fun k hk => ?_, fun k info hk hin => ?_⟩
  · -- a block without an entry
    rw [hframe k (hk e List.mem_cons_self).symm]
    exact hP.untouched k fun e' he' => hk e' (List.mem_cons_of_mem _ he')
  by_cases hjk : e.1.node = k
  · subst hjk
    exact hP.touched_cons_self hshape hlt he hstep hframe hk
  · -- another block: the entry changed none of its stakes nor its children's
    have hin' : ∃ e' ∈ rest, e'.1.node = k := by
      obtain ⟨e', he', hnode⟩ := hin
      rcases List.mem_cons.mp he' with rfl | he'
      · exact absurd hnode hjk
      · exact ⟨e', he', hnode⟩
    obtain ⟨info', hget, hch, hat, hagg, hnot⟩ := hP.touched k info hk hin'
    have hkey : ∀ l, e.1 ≠ opKey k l := fun l hkey => hjk (by rw [hkey]; rfl)
    have hagg_iff : aggregates (e :: rest) k = aggregates rest k := by
      rw [Bool.eq_iff_iff, aggregates_cons]
      exact ⟨fun h => h.resolve_left (hkey _), Or.inr⟩
    refine ⟨info', (hframe k (Ne.symm hjk)).trans hget, hch, ?_, fun h => ?_, fun h => ?_⟩
    · rw [subtractedStake_cons_of_ne (hkey _), addedStake_cons_of_ne (hkey _), hat]
    · rw [hagg_iff] at h
      -- the children are above `k`, which is above the entry's block
      have hbelow := node_lt_of_aggregates hlt h
      obtain ⟨i, acc, hfold, hinfo, hinv⟩ := hagg h
      refine ⟨i, acc, ?_, hinfo, hinv⟩
      rw [foldlM_aggregateChild_congr fun c hc => ?_]
      · exact hfold
      · obtain ⟨-, -, -, hkc⟩ := hshapeg.child hget hc
        exact hframe c (ne_of_gt (hbelow.trans hkc))
    · rw [subtractedStake_cons_of_ne (hkey _), addedStake_cons_of_ne (hkey _)]
      exact hnot (hagg_iff ▸ h)

/-- A sorted batch of `Add`, `Subtract` and `Aggregate` entries runs to its end on a tree, and
leaves it as `Processed` says. -/
theorem processed (hshape : Shape fc) {ops : UpdateOperations} (hsorted : SortedMap.Sorted ops)
    (htyped : ∀ e ∈ ops, IsStakeOp e) :
    ∃ g, fc.processUpdateOperations ops = some g ∧ Processed fc ops g := by
  induction ops with
  | nil => exact ⟨fc, rfl, processed_nil fc⟩
  | cons e rest ih =>
    have hlt : ∀ e' ∈ rest, e.1 < e'.1 := (List.pairwise_cons.mp hsorted).1
    obtain ⟨g, hg, hP⟩ := ih (List.pairwise_cons.mp hsorted).2
      fun e' he' => htyped e' (List.mem_cons_of_mem _ he')
    have he := htyped e List.mem_cons_self
    obtain ⟨g', hstep, -⟩ := processUpdateOperation_eq_some (hshape.sameTree hP.sameTree) he
    refine ⟨g', ?_, hP.cons hshape hlt he hstep⟩
    rw [processUpdateOperations_cons, hg, Option.bind_some, hstep]

/-- A block that is not aggregated has no entry below it, so its children are as they were. -/
theorem Processed.get_child (hshape : Shape fc) (hP : Processed fc ops g)
    (hclosed : Closed fc ops) {info : ForkInfo} (hk : fc.get k = some info)
    (hagg : aggregates ops k = false) {c : SlotHashKey} (hc : c ∈ info.children) :
    g.get c = fc.get c := by
  refine hP.untouched c fun e he hnode => ?_
  obtain ⟨-, -, hparent, -⟩ := hshape.child hk hc
  have := hclosed e he k (hnode ▸ hparent)
  rw [hagg] at this
  cases this

theorem Processed.childrenStake (hshape : Shape fc) (hP : Processed fc ops g)
    (hclosed : Closed fc ops) {info : ForkInfo} (hk : fc.get k = some info)
    (hagg : aggregates ops k = false) :
    g.childrenStake info.children = fc.childrenStake info.children :=
  childrenStake_congr fun _ hc => hP.get_child hshape hclosed hk hagg hc

/-- After a closed batch whose subtractions do not exceed the stakes they come off, every subtree
stake is a sum again. -/
theorem Processed.subtreeStakes (hshape : Shape fc) (hsum : SubtreeStakes fc)
    (hP : Processed fc ops g) (hclosed : Closed fc ops)
    (hsub : ∀ k info, fc.get k = some info → subtractedStake ops k ≤ info.stakeVotedAt) :
    SubtreeStakes g := by
  intro k info' hk'
  obtain ⟨info, hk⟩ := hP.sameTree.exists_get hk'
  by_cases hin : ∃ e ∈ ops, e.1.node = k
  · obtain ⟨info'', hget, hch, hat, haggT, haggF⟩ := hP.touched k info hk hin
    rw [hk', Option.some.injEq] at hget
    subst hget
    cases hagg : aggregates ops k
    · -- only stake changes at the block: they shift both of its stakes alike
      have hcs := hP.childrenStake hshape hclosed hk hagg
      have hle := hsub k info hk
      rw [(haggF hagg).1, hat, hch, hcs, hsum k info hk]
      omega
    · -- the `Aggregate` summed the children as they are now
      obtain ⟨i, acc, hfold, hinfo, -⟩ := haggT hagg
      subst hinfo
      have hshapeg : Shape g := hshape.sameTree hP.sameTree
      have hchildren : ∀ c ∈ (acc.apply i).children, (g.get c).isSome := fun c hc => by
        obtain ⟨cinfo, hcget, -⟩ := hshapeg.child hk' hc
        simp [hcget]
      obtain ⟨acc', hfold', hstake⟩ :=
        foldlM_aggregateChild (k := k) (AggregateState.init k i.stakeVotedAt) hchildren
      rw [hfold, Option.some.injEq] at hfold'
      subst hfold'
      rw [acc.stakeVotedSubtree_apply, hstake, acc.stakeVotedAt_apply]
      rfl
  · -- no entry at the block, so none below it
    simp only [not_exists, not_and] at hin
    rw [hP.untouched k hin, hk, Option.some.injEq] at hk'
    subst hk'
    rw [hP.childrenStake hshape hclosed hk (aggregates_of_forall_ne hin)]
    exact hsum k _ hk

/-- Every block's own stake after a batch: its `Subtract` off and its `Add` on. -/
theorem Processed.stakeVotedAt (hP : Processed fc ops g) {info' : ForkInfo}
    (hk' : g.get k = some info') :
    ∃ info, fc.get k = some info ∧
      info'.stakeVotedAt = info.stakeVotedAt - subtractedStake ops k + addedStake ops k := by
  obtain ⟨info, hk⟩ := hP.sameTree.exists_get hk'
  by_cases hin : ∃ e ∈ ops, e.1.node = k
  · obtain ⟨info'', hget, -, hat, -⟩ := hP.touched k info hk hin
    rw [hk', Option.some.injEq] at hget
    exact ⟨info, hk, hget ▸ hat⟩
  · simp only [not_exists, not_and] at hin
    rw [hP.untouched k hin, hk, Option.some.injEq] at hk'
    refine ⟨info, hk, ?_⟩
    rw [subtractedStake_of_forall_ne hin, addedStake_of_forall_ne hin, ← hk']
    rfl

/-- Running entries changes the blocks only, never the latest votes. -/
theorem latestVotes_processUpdateOperation {op : UpdateOperation}
    (h : fc.processUpdateOperation k op = some g) : g.latestVotes = fc.latestVotes := by
  cases op with
  | markInvalid slot =>
    simp only [processUpdateOperation, markForkInvalid] at h
    split at h
    · cases h
      rfl
    · simp only [Option.bind_eq_bind, Option.bind_eq_some_iff] at h
      obtain ⟨_, -, h⟩ := h
      cases h
      rfl
  | aggregate =>
    simp only [processUpdateOperation, aggregateSlot] at h
    split at h
    · cases h
      rfl
    · simp only [Option.bind_eq_bind, Option.bind_eq_some_iff] at h
      obtain ⟨_, -, h⟩ := h
      cases h
      rfl
  | markValid slot => cases h; rfl
  | add stake => cases h; rfl
  | subtract stake => cases h; rfl

theorem latestVotes_processUpdateOperations {ops : UpdateOperations}
    (h : fc.processUpdateOperations ops = some g) : g.latestVotes = fc.latestVotes := by
  induction ops generalizing g with
  | nil => cases h; rfl
  | cons e rest ih =>
    rw [processUpdateOperations_cons, Option.bind_eq_some_iff] at h
    obtain ⟨g₁, h₁, h⟩ := h
    exact (latestVotes_processUpdateOperation h).trans (ih h₁)

end HeaviestSubtreeForkChoice

end Agave.Consensus
