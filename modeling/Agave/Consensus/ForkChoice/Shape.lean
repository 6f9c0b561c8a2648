import Agave.Consensus.ForkChoice.Update

/-!
# Heaviest-subtree fork choice: the shape of the tree

`Shape` is what the fork choice needs of its parent and child pointers: distinct blocks, a root
without a parent, every other block under a parent of a smaller slot that lists it among its
children, every child present with that parent, and the children sorted. In such a tree the
parent pointers make a `Forest` (`forest`), so the walk of `ancestor_iterator` never runs out of
fuel and meets exactly the strict ancestors (`mem_ancestors_iff`, `ancestors_of_parent`).

Only `add_new_leaf_slot` changes the pointers (`Shape.addNewLeafSlot`); the aggregation, the stake
updates and the propagation of a new leaf change other fields (`SameTree`), and so keep the shape.
-/

namespace Agave.Consensus

open Agave.Vote

/-- The parent and the children of a block. -/
def ForkInfo.links (i : ForkInfo) : Option SlotHashKey × List SlotHashKey := (i.parent, i.children)

/-- Everything of a block but its best and deepest slots and its height, the fields that the
propagation of a new leaf writes. -/
def ForkInfo.frame (i : ForkInfo) :
    Nat × Nat × (Option SlotHashKey × List SlotHashKey) × Option Slot × Bool :=
  (i.stakeVotedAt, i.stakeVotedSubtree, i.links, i.latestInvalidAncestor, i.isDuplicateConfirmed)

namespace HeaviestSubtreeForkChoice

variable {fc fc' fc'' : HeaviestSubtreeForkChoice} {k k' p c : SlotHashKey}

/-! ### Reading a changed tree -/

@[simp] theorem get_modify_self (fc : HeaviestSubtreeForkChoice) (k : SlotHashKey)
    (f : ForkInfo → ForkInfo) : (fc.modify k f).get k = (fc.get k).map f :=
  AssocList.get?_modify_self k f fc.forkInfos

@[simp] theorem get_modify_ne (fc : HeaviestSubtreeForkChoice) (h : k' ≠ k)
    (f : ForkInfo → ForkInfo) : (fc.modify k f).get k' = fc.get k' :=
  AssocList.get?_modify_ne h f fc.forkInfos

theorem get_modify (fc : HeaviestSubtreeForkChoice) (k k' : SlotHashKey)
    (f : ForkInfo → ForkInfo) :
    (fc.modify k f).get k' = if k' = k then (fc.get k').map f else fc.get k' := by
  split
  · subst k'
    exact get_modify_self fc k f
  · exact get_modify_ne fc ‹_› f

/-! ### Same blocks, same pointers -/

/-- Two fork choices with the same blocks, root, parents and children. -/
structure SameTree (fc fc' : HeaviestSubtreeForkChoice) : Prop where
  keys : fc'.forkInfos.map Prod.fst = fc.forkInfos.map Prod.fst
  treeRoot : fc'.treeRoot = fc.treeRoot
  links : ∀ k, (fc'.get k).map ForkInfo.links = (fc.get k).map ForkInfo.links

theorem SameTree.refl (fc : HeaviestSubtreeForkChoice) : SameTree fc fc := ⟨rfl, rfl, fun _ => rfl⟩

theorem SameTree.trans (h : SameTree fc fc') (h' : SameTree fc' fc'') : SameTree fc fc'' :=
  ⟨h'.keys.trans h.keys, h'.treeRoot.trans h.treeRoot, fun k => (h'.links k).trans (h.links k)⟩

/-- A change of a block that leaves its parent and children is a change of the same tree. -/
theorem sameTree_modify (fc : HeaviestSubtreeForkChoice) (k : SlotHashKey)
    {f : ForkInfo → ForkInfo} (hf : ∀ i, (f i).links = i.links) : SameTree fc (fc.modify k f) := by
  refine ⟨AssocList.keys_modify k f fc.forkInfos, rfl, fun k' => ?_⟩
  rw [get_modify]
  split
  · cases fc.get k' <;> simp [hf]
  · rfl

theorem SameTree.length (h : SameTree fc fc') : fc'.forkInfos.length = fc.forkInfos.length := by
  rw [← List.length_map (f := Prod.fst), h.keys, List.length_map]

theorem SameTree.parent (h : SameTree fc fc') (k : SlotHashKey) : fc'.parent k = fc.parent k := by
  have hk := h.links k
  unfold HeaviestSubtreeForkChoice.parent
  cases h1 : fc'.get k <;> cases h2 : fc.get k <;> simp_all [ForkInfo.links]

theorem SameTree.children (h : SameTree fc fc') (k : SlotHashKey) :
    fc'.children k = fc.children k := by
  have hk := h.links k
  unfold HeaviestSubtreeForkChoice.children
  cases h1 : fc'.get k <;> cases h2 : fc.get k <;> simp_all [ForkInfo.links]

theorem SameTree.ancestors (h : SameTree fc fc') (k : SlotHashKey) :
    fc'.ancestors k = fc.ancestors k := by
  unfold HeaviestSubtreeForkChoice.ancestors
  rw [h.length, funext h.parent]

theorem SameTree.isSome_get (h : SameTree fc fc') (k : SlotHashKey) :
    (fc'.get k).isSome = (fc.get k).isSome := by
  have hk := h.links k
  cases h1 : fc'.get k <;> cases h2 : fc.get k <;> simp_all

/-! ### Same blocks but for the best and deepest slots -/

/-- Two fork choices that differ in the best and deepest slots and the heights only. -/
structure SameFrame (fc fc' : HeaviestSubtreeForkChoice) : Prop where
  keys : fc'.forkInfos.map Prod.fst = fc.forkInfos.map Prod.fst
  treeRoot : fc'.treeRoot = fc.treeRoot
  latestVotes : fc'.latestVotes = fc.latestVotes
  frame : ∀ k, (fc'.get k).map ForkInfo.frame = (fc.get k).map ForkInfo.frame

theorem SameFrame.refl (fc : HeaviestSubtreeForkChoice) : SameFrame fc fc :=
  ⟨rfl, rfl, rfl, fun _ => rfl⟩

theorem SameFrame.trans (h : SameFrame fc fc') (h' : SameFrame fc' fc'') : SameFrame fc fc'' :=
  ⟨h'.keys.trans h.keys, h'.treeRoot.trans h.treeRoot, h'.latestVotes.trans h.latestVotes,
    fun k => (h'.frame k).trans (h.frame k)⟩

theorem sameFrame_modify (fc : HeaviestSubtreeForkChoice) (k : SlotHashKey)
    {f : ForkInfo → ForkInfo} (hf : ∀ i, (f i).frame = i.frame) :
    SameFrame fc (fc.modify k f) := by
  refine ⟨AssocList.keys_modify k f fc.forkInfos, rfl, rfl, fun k' => ?_⟩
  rw [get_modify]
  split
  · cases fc.get k' <;> simp [hf]
  · rfl

/-- A block of the second is a block of the first with the same frame. -/
theorem SameFrame.get_eq_some (h : SameFrame fc fc') {info' : ForkInfo}
    (hk : fc'.get k = some info') : ∃ info, fc.get k = some info ∧ info'.frame = info.frame := by
  have := h.frame k
  rw [hk] at this
  cases hget : fc.get k with
  | none => rw [hget] at this; cases this
  | some info =>
    rw [hget, Option.map_some, Option.map_some, Option.some.injEq] at this
    exact ⟨info, rfl, this⟩

theorem SameFrame.sameTree (h : SameFrame fc fc') : SameTree fc fc' := by
  refine ⟨h.keys, h.treeRoot, fun k => ?_⟩
  have := congrArg (Option.map fun x => x.2.2.1) (h.frame k)
  simpa [Option.map_map, Function.comp_def, ForkInfo.frame] using this

/-- A block of the second tree is a block of the first. -/
theorem SameTree.exists_get (h : SameTree fc fc') {info' : ForkInfo} (hk : fc'.get k = some info') :
    ∃ info, fc.get k = some info := by
  have := h.isSome_get k
  rw [hk, Option.isSome_some] at this
  exact Option.isSome_iff_exists.mp this.symm

/-! ### The shape -/

/-- The tree the parent and child pointers make. -/
structure Shape (fc : HeaviestSubtreeForkChoice) : Prop where
  nodup : (fc.forkInfos.map Prod.fst).Nodup
  root : ∃ info, fc.get fc.treeRoot = some info ∧ info.parent = none
  parent : ∀ k info, fc.get k = some info → k ≠ fc.treeRoot →
    ∃ p pinfo, info.parent = some p ∧ fc.get p = some pinfo ∧ k ∈ pinfo.children ∧ p.slot < k.slot
  children : ∀ k info c, fc.get k = some info → c ∈ info.children →
    ∃ cinfo, fc.get c = some cinfo ∧ cinfo.parent = some k
  sorted : ∀ k info, fc.get k = some info → info.children.Pairwise (· < ·)

theorem Shape.sameTree (h : Shape fc) (hsame : SameTree fc fc') : Shape fc' := by
  -- every field reads only the keys, the root, the parents and the children
  have hlinks : ∀ k info', fc'.get k = some info' →
      ∃ info, fc.get k = some info ∧ info'.parent = info.parent ∧ info'.children = info.children := by
    intro k info' hk
    have := hsame.links k
    rw [hk] at this
    cases hget : fc.get k with
    | none => rw [hget] at this; cases this
    | some info =>
      rw [hget] at this
      simp only [Option.map_some, Option.some.injEq, ForkInfo.links, Prod.mk.injEq] at this
      exact ⟨info, rfl, this.1, this.2⟩
  have hback : ∀ k info, fc.get k = some info →
      ∃ info', fc'.get k = some info' ∧ info'.parent = info.parent ∧
        info'.children = info.children := by
    intro k info hk
    have := hsame.links k
    rw [hk] at this
    cases hget : fc'.get k with
    | none => rw [hget] at this; cases this
    | some info' =>
      rw [hget] at this
      simp only [Option.map_some, Option.some.injEq, ForkInfo.links, Prod.mk.injEq] at this
      exact ⟨info', rfl, this.1, this.2⟩
  refine ⟨hsame.keys ▸ h.nodup, ?_, ?_, ?_, ?_⟩
  · obtain ⟨info, hroot, hnone⟩ := h.root
    obtain ⟨info', hroot', hparent, -⟩ := hback _ _ hroot
    exact ⟨info', hsame.treeRoot ▸ hroot', hparent ▸ hnone⟩
  · intro k info' hk hne
    obtain ⟨info, hk0, hparent, -⟩ := hlinks k info' hk
    obtain ⟨p, pinfo, hp, hpget, hmem, hslot⟩ := h.parent k info hk0 (hsame.treeRoot ▸ hne)
    obtain ⟨pinfo', hpget', -, hch⟩ := hback p pinfo hpget
    exact ⟨p, pinfo', hparent ▸ hp, hpget', hch ▸ hmem, hslot⟩
  · intro k info' c hk hc
    obtain ⟨info, hk0, -, hch⟩ := hlinks k info' hk
    obtain ⟨cinfo, hcget, hcparent⟩ := h.children k info c hk0 (hch ▸ hc)
    obtain ⟨cinfo', hcget', hparent', -⟩ := hback c cinfo hcget
    exact ⟨cinfo', hcget', hparent' ▸ hcparent⟩
  · intro k info' hk
    obtain ⟨info, hk0, -, hch⟩ := hlinks k info' hk
    exact hch ▸ h.sorted k info hk0

/-- What a tree says of a block with a parent: the parent is a block of a smaller slot that lists
it among its children. -/
theorem Shape.parent_eq_some (h : Shape fc) (hp : fc.parent k = some p) :
    ∃ info pinfo, fc.get k = some info ∧ info.parent = some p ∧ fc.get p = some pinfo ∧
      k ∈ pinfo.children ∧ p.slot < k.slot := by
  unfold HeaviestSubtreeForkChoice.parent at hp
  cases hk : fc.get k with
  | none => rw [hk] at hp; cases hp
  | some info =>
    rw [hk, Option.bind_some] at hp
    by_cases hroot : k = fc.treeRoot
    · -- the root has no parent
      obtain ⟨rinfo, hr, hnone⟩ := h.root
      rw [← hroot, hk, Option.some.injEq] at hr
      rw [hr, hnone] at hp
      cases hp
    · obtain ⟨p', pinfo, hp', hpget, hmem, hslot⟩ := h.parent k info hk hroot
      rw [hp', Option.some.injEq] at hp
      subst hp
      exact ⟨info, pinfo, rfl, hp', hpget, hmem, hslot⟩

/-- The parent of any block has a smaller key. -/
theorem Shape.parent_lt (h : Shape fc) (hp : fc.parent k = some p) : p < k := by
  obtain ⟨_, _, _, _, _, _, hslot⟩ := h.parent_eq_some hp
  exact SlotHashKey.lt_of_slot_lt hslot

/-- The parent pointers of a tree as a `Forest`. -/
def forest (fc : HeaviestSubtreeForkChoice) (h : Shape fc) : Forest SlotHashKey :=
  ⟨fc.parent, fun hp => h.parent_lt hp⟩

theorem mem_keys_of_get {info : ForkInfo} (hk : fc.get k = some info) :
    k ∈ fc.forkInfos.map Prod.fst :=
  List.mem_map_of_mem (f := Prod.fst) (AssocList.mem_of_get? hk)

/-- The parent of a block is a block. -/
theorem Shape.get_parent (h : Shape fc) (hp : fc.parent k = some p) :
    ∃ pinfo, fc.get p = some pinfo := by
  obtain ⟨_, pinfo, _, _, hpget, _⟩ := h.parent_eq_some hp
  exact ⟨pinfo, hpget⟩

/-- Fewer parent steps lead from a block to the root than there are blocks. -/
theorem Shape.depth_lt (h : Shape fc) {info : ForkInfo} (hk : fc.get k = some info) :
    (fc.forest h).depth k < fc.forkInfos.length := by
  rw [← List.length_map (f := Prod.fst)]
  refine Forest.depth_lt_length (mem_keys_of_get hk) fun b _ p hp => ?_
  obtain ⟨pinfo, hpget⟩ := h.get_parent hp
  exact mem_keys_of_get hpget

/-- From a block with a parent, `ancestor_iterator` yields the parent and then its ancestors. -/
theorem Shape.ancestors_of_parent (h : Shape fc) {info : ForkInfo} (hk : fc.get k = some info)
    (hp : fc.parent k = some p) : fc.ancestors k = p :: fc.ancestors p :=
  Forest.walk_of_parent_eq_some (F := fc.forest h) (h.depth_lt hk).le hp

theorem ancestors_of_parent_eq_none (hp : fc.parent k = none) : fc.ancestors k = [] := by
  unfold HeaviestSubtreeForkChoice.ancestors
  cases fc.forkInfos.length with
  | zero => rfl
  | succ n =>
    rw [Forest.walk]
    simp [hp]

/-- The strict ancestors of a block of a tree are blocks. -/
theorem Shape.ancestors_isSome (h : Shape fc) (hk : (fc.get k).isSome) :
    ∀ a ∈ fc.ancestors k, (fc.get a).isSome := by
  -- the keys are closed under parents, and the walk stays among them
  have hclosed : ∀ b ∈ fc.forkInfos.map Prod.fst, ∀ p, fc.parent b = some p →
      p ∈ fc.forkInfos.map Prod.fst := fun b _ p hp => by
    obtain ⟨pinfo, hpget⟩ := h.get_parent hp
    exact mem_keys_of_get hpget
  obtain ⟨info, hget⟩ := Option.isSome_iff_exists.mp hk
  intro a ha
  obtain ⟨⟨a', v⟩, hmem, rfl⟩ := List.mem_map.mp
    (Forest.walk_subset (F := fc.forest h) hclosed (mem_keys_of_get hget) a ha)
  exact AssocList.get?_isSome_of_mem hmem

/-- In a tree, `ancestor_iterator` meets exactly the strict ancestors. -/
theorem Shape.mem_ancestors_iff (h : Shape fc) {info : ForkInfo} (hk : fc.get k = some info) :
    k' ∈ fc.ancestors k ↔ (fc.forest h).IsAncestor k' k :=
  Forest.mem_walk_iff (F := fc.forest h) (h.depth_lt hk).le

/-- A child is a block whose parent is the block that lists it, and its key is greater. -/
theorem Shape.child (h : Shape fc) {info : ForkInfo} (hk : fc.get k = some info)
    (hc : c ∈ info.children) : ∃ cinfo, fc.get c = some cinfo ∧ fc.parent c = some k ∧ k < c := by
  obtain ⟨cinfo, hcget, hcparent⟩ := h.children k info c hk hc
  have hparent : fc.parent c = some k := by simp [HeaviestSubtreeForkChoice.parent, hcget, hcparent]
  exact ⟨cinfo, hcget, hparent, h.parent_lt hparent⟩

/-- Induction down a tree: what holds of every block whose children all have it holds of every
block. The measure is how far the number of blocks is above the block's depth, one less at each
child. -/
theorem Shape.induction_on_children (h : Shape fc) {P : SlotHashKey → ForkInfo → Prop}
    (step : ∀ k info, fc.get k = some info →
      (∀ c ∈ info.children, ∀ cinfo, fc.get c = some cinfo → P c cinfo) → P k info)
    {info : ForkInfo} (hk : fc.get k = some info) : P k info := by
  obtain ⟨n, hn⟩ : ∃ n, fc.forkInfos.length ≤ (fc.forest h).depth k + n := ⟨_, le_add_self⟩
  induction n generalizing k info with
  | zero => exact absurd (h.depth_lt hk) (by omega)
  | succ n ih =>
    refine step k info hk fun c hc cinfo hcget => ih hcget ?_
    obtain ⟨-, -, hparent, -⟩ := h.child hk hc
    have hdepth := Forest.depth_of_parent_eq_some (F := fc.forest h) hparent
    omega

/-! ### A new leaf keeps the tree -/

theorem mem_insertChild {l : List SlotHashKey} : c ∈ insertChild k l ↔ c = k ∨ c ∈ l := by
  unfold insertChild
  split
  · constructor
    · exact Or.inr
    · rintro (rfl | h) <;> assumption
  · exact List.mem_orderedInsert _

theorem pairwise_insertChild {l : List SlotHashKey} (hl : l.Pairwise (· < ·)) :
    (insertChild k l).Pairwise (· < ·) := by
  unfold insertChild
  split
  · exact hl
  · rename_i hk
    -- sorted by `≤` and without repeats is sorted by `<`
    have hle : (l.orderedInsert (· ≤ ·) k).Pairwise (· ≤ ·) :=
      (hl.imp le_of_lt).orderedInsert k l
    have hnodup : (l.orderedInsert (· ≤ ·) k).Nodup :=
      (List.perm_orderedInsert _ k l).nodup_iff.mpr
        (List.nodup_cons.mpr ⟨hk, hl.imp ne_of_lt⟩)
    exact (hle.and hnodup).imp fun ⟨h1, h2⟩ => lt_of_le_of_ne h1 h2

theorem sameFrame_propagateBestSlot {b : SlotHashKey} {l : List SlotHashKey}
    (h : fc.propagateBestSlot k b l = some fc') : SameFrame fc fc' := by
  induction l generalizing fc with
  | nil => cases h; exact .refl _
  | cons a rest ih =>
    unfold propagateBestSlot at h
    cases hget : fc.get a with
    | none => rw [hget] at h; cases h
    | some info =>
      simp only [hget, Option.bind_eq_bind, Option.bind_some] at h
      split at h
      · exact (sameFrame_modify fc a (by intro; rfl)).trans (ih h)
      · cases h; exact .refl _

theorem sameFrame_propagateDeepestSlot {l : List SlotHashKey} {child : SlotHashKey}
    {height : Nat} (h : fc.propagateDeepestSlot k l child height = some fc') :
    SameFrame fc fc' := by
  induction l generalizing fc child height with
  | nil => cases h; exact .refl _
  | cons a rest ih =>
    unfold propagateDeepestSlot at h
    cases hdeep : fc.isDeepestChild child with
    | none => rw [hdeep] at h; cases h
    | some deepest =>
      simp only [hdeep, Option.bind_eq_bind, Option.bind_some] at h
      split at h
      · cases h; exact .refl _
      · cases hget : fc.get a with
        | none => rw [hget] at h; cases h
        | some info =>
          simp only [hget, Option.bind_some] at h
          exact (sameFrame_modify fc a (by intro; rfl)).trans (ih h)

theorem sameFrame_propagateNewLeaf (h : fc.propagateNewLeaf k p = some fc') :
    SameFrame fc fc' := by
  unfold propagateNewLeaf at h
  cases hbest : fc.bestSlot p with
  | none => rw [hbest] at h; cases h
  | some parentBest =>
    simp only [hbest, Option.bind_eq_bind, Option.bind_some] at h
    cases hisBest : fc.isBestChild k with
    | none => rw [hisBest] at h; cases h
    | some isBest =>
      simp only [hisBest, Option.bind_some] at h
      cases isBest with
      | false => exact sameFrame_propagateDeepestSlot h
      | true =>
        simp only [if_true] at h
        cases hmid : fc.propagateBestSlot k parentBest (p :: fc.ancestors p) with
        | none => rw [hmid] at h; cases h
        | some mid =>
          simp only [hmid, Option.bind_some] at h
          exact (sameFrame_propagateBestSlot hmid).trans (sameFrame_propagateDeepestSlot h)

/-! ### A new leaf never panics -/

theorem isBestChildLoop_isSome {b : SlotHashKey} {w : Nat} {l : List SlotHashKey}
    (hl : ∀ c ∈ l, (fc.get c).isSome) : (fc.isBestChildLoop b w l).isSome := by
  induction l with
  | nil => rfl
  | cons c rest ih =>
    obtain ⟨info, hc⟩ := Option.isSome_iff_exists.mp (hl c List.mem_cons_self)
    have ih := ih fun c' hc' => hl c' (List.mem_cons_of_mem _ hc')
    simp only [isBestChildLoop, stakeVotedSubtree, isCandidate, hc, Option.map_some,
      Option.bind_eq_bind, Option.bind_some]
    split
    · exact ih
    · split
      · rfl
      · exact ih

theorem isDeepestChildLoop_isSome {b : SlotHashKey} {w d : Nat} {l : List SlotHashKey}
    (hl : ∀ c ∈ l, (fc.get c).isSome) : (fc.isDeepestChildLoop b w d l).isSome := by
  induction l with
  | nil => rfl
  | cons c rest ih =>
    obtain ⟨info, hc⟩ := Option.isSome_iff_exists.mp (hl c List.mem_cons_self)
    have ih := ih fun c' hc' => hl c' (List.mem_cons_of_mem _ hc')
    simp only [isDeepestChildLoop, stakeVotedSubtree, height, hc, Option.map_some,
      Option.bind_eq_bind, Option.bind_some]
    split <;> first | rfl | exact ih

/-- The children of a block of a tree are blocks. -/
theorem Shape.children_isSome (h : Shape fc) {info : ForkInfo} (hk : fc.get k = some info) :
    ∀ c ∈ info.children, (fc.get c).isSome := fun c hc => by
  obtain ⟨cinfo, hcget, -⟩ := h.children k info c hk hc
  simp [hcget]

theorem Shape.isBestChild_isSome (h : Shape fc) (hk : (fc.get k).isSome) :
    (fc.isBestChild k).isSome := by
  obtain ⟨info, hget⟩ := Option.isSome_iff_exists.mp hk
  unfold isBestChild
  cases hp : fc.parent k with
  | none => simp [stakeVotedSubtree, hget]
  | some p =>
    obtain ⟨pinfo, hpget⟩ := h.get_parent hp
    simp [stakeVotedSubtree, HeaviestSubtreeForkChoice.children, hget, hpget,
      isBestChildLoop_isSome (h.children_isSome hpget)]

theorem Shape.isDeepestChild_isSome (h : Shape fc) (hk : (fc.get k).isSome) :
    (fc.isDeepestChild k).isSome := by
  obtain ⟨info, hget⟩ := Option.isSome_iff_exists.mp hk
  unfold isDeepestChild
  cases hp : fc.parent k with
  | none => simp [stakeVotedSubtree, height, hget]
  | some p =>
    obtain ⟨pinfo, hpget⟩ := h.get_parent hp
    simp [stakeVotedSubtree, height, HeaviestSubtreeForkChoice.children, hget, hpget,
      isDeepestChildLoop_isSome (h.children_isSome hpget)]

theorem propagateBestSlot_isSome {b : SlotHashKey} {l : List SlotHashKey}
    (hl : ∀ a ∈ l, (fc.get a).isSome) : (fc.propagateBestSlot k b l).isSome := by
  induction l generalizing fc with
  | nil => rfl
  | cons a rest ih =>
    obtain ⟨info, ha⟩ := Option.isSome_iff_exists.mp (hl a List.mem_cons_self)
    unfold propagateBestSlot
    simp only [ha, Option.bind_eq_bind, Option.bind_some]
    split
    · have hsame : SameTree fc (fc.modify a fun i => { i with bestSlot := k }) :=
        sameTree_modify fc a (by intro; rfl)
      exact ih fun a' ha' => (hsame.isSome_get a').trans (hl a' (List.mem_cons_of_mem _ ha'))
    · rfl

/-- The second loop of `propagate_new_leaf` runs through on a tree: the node below and the
ancestors it walks are blocks. -/
theorem Shape.propagateDeepestSlot_isSome (h : Shape fc) {l : List SlotHashKey}
    {child : SlotHashKey} {height : Nat} (hchild : (fc.get child).isSome)
    (hl : ∀ a ∈ l, (fc.get a).isSome) : (fc.propagateDeepestSlot k l child height).isSome := by
  induction l generalizing fc child height with
  | nil => rfl
  | cons a rest ih =>
    obtain ⟨deepest, hdeep⟩ := Option.isSome_iff_exists.mp (h.isDeepestChild_isSome hchild)
    obtain ⟨info, ha⟩ := Option.isSome_iff_exists.mp (hl a List.mem_cons_self)
    unfold propagateDeepestSlot
    simp only [hdeep, ha, Option.bind_eq_bind, Option.bind_some]
    split
    · rfl
    · have hsame : SameTree fc
          (fc.modify a fun i => { i with deepestSlot := k, height := height + 1 }) :=
        sameTree_modify fc a (by intro; rfl)
      refine ih (h.sameTree hsame) ?_ fun a' ha' => ?_
      · rw [hsame.isSome_get, ha, Option.isSome_some]
      · exact (hsame.isSome_get a').trans (hl a' (List.mem_cons_of_mem _ ha'))

theorem Shape.propagateNewLeaf_isSome (h : Shape fc) (hk : (fc.get k).isSome)
    (hp : (fc.get p).isSome) : (fc.propagateNewLeaf k p).isSome := by
  obtain ⟨pinfo, hpget⟩ := Option.isSome_iff_exists.mp hp
  obtain ⟨isBest, hbest⟩ := Option.isSome_iff_exists.mp (h.isBestChild_isSome hk)
  have hwalk : ∀ a ∈ p :: fc.ancestors p, (fc.get a).isSome :=
    List.forall_mem_cons.mpr ⟨hp, h.ancestors_isSome hp⟩
  unfold propagateNewLeaf
  simp only [bestSlot, hpget, hbest, Option.map_some, Option.bind_eq_bind, Option.bind_some]
  cases isBest with
  | false => exact h.propagateDeepestSlot_isSome hk hwalk
  | true =>
    obtain ⟨mid, hmid⟩ := Option.isSome_iff_exists.mp (propagateBestSlot_isSome (k := k)
      (b := pinfo.bestSlot) hwalk)
    have hsame := (sameFrame_propagateBestSlot hmid).sameTree
    simp only [if_true, hmid, Option.bind_some]
    exact (h.sameTree hsame).propagateDeepestSlot_isSome
      (by rw [hsame.isSome_get]; exact hk) fun a ha => by rw [hsame.isSome_get]; exact hwalk a ha

/-- The fork choice with the new leaf in the map. -/
def insertLeaf (fc : HeaviestSubtreeForkChoice) (k p : SlotHashKey) : HeaviestSubtreeForkChoice :=
  { fc with
    forkInfos :=
      AssocList.insert k (newLeafInfo k (some p) (fc.latestInvalidAncestor p)) fc.forkInfos }

/-- The fork choice with the new leaf in the map and among its parent's children. -/
def hangLeaf (fc : HeaviestSubtreeForkChoice) (k p : SlotHashKey) : HeaviestSubtreeForkChoice :=
  (fc.insertLeaf k p).modify p fun i => { i with children := insertChild k i.children }

theorem get_insertLeaf (fc : HeaviestSubtreeForkChoice) (k p m : SlotHashKey) :
    (fc.insertLeaf k p).get m =
      if m = k then some (newLeafInfo k (some p) (fc.latestInvalidAncestor p)) else fc.get m := by
  unfold insertLeaf get
  split
  · subst m
    exact AssocList.get?_insert_self _ _ _
  · exact AssocList.get?_insert_ne ‹_› _ _

/-- A block of the tree is not a key the tree does not hold, such as a new leaf. -/
theorem ne_leaf_of_get {m : SlotHashKey} {info : ForkInfo} (hk : fc.get k = none)
    (hm : fc.get m = some info) : m ≠ k := by
  rintro rfl
  rw [hk] at hm
  cases hm

theorem addNewLeafSlot_eq {pinfo : ForkInfo} (hk : fc.get k = none) (hp : fc.get p = some pinfo) :
    fc.addNewLeafSlot k (some p) = (fc.hangLeaf k p).propagateNewLeaf k p := by
  have hpk : p ≠ k := ne_leaf_of_get hk hp
  have hget : (fc.insertLeaf k p).get p = some pinfo := by rw [get_insertLeaf, if_neg hpk, hp]
  unfold addNewLeafSlot
  rw [if_neg (by simp [containsBlock, hk])]
  exact congrArg (Option.bind · _) hget |>.trans (Option.bind_some _ _)

theorem get_hangLeaf {pinfo : ForkInfo} (hk : fc.get k = none) (hp : fc.get p = some pinfo)
    (m : SlotHashKey) :
    (fc.hangLeaf k p).get m =
      if m = k then some (newLeafInfo k (some p) (fc.latestInvalidAncestor p))
      else if m = p then some { pinfo with children := insertChild k pinfo.children }
      else fc.get m := by
  have hkp : k ≠ p := (ne_leaf_of_get hk hp).symm
  unfold hangLeaf
  simp only [get_modify, get_insertLeaf]
  by_cases hmk : m = k
  · subst hmk
    simp [hkp]
  · by_cases hmp : m = p
    · subst hmp
      simp [hmk, hp]
    · simp [hmk, hmp]

/-- Away from the new leaf, hanging it changes only its parent's children. -/
theorem get_hangLeaf_of_ne {m : SlotHashKey} (hm : m ≠ k) :
    (fc.hangLeaf k p).get m =
      (fc.get m).map fun i => if m = p then { i with children := insertChild k i.children } else i := by
  unfold hangLeaf
  rw [get_modify, get_insertLeaf, if_neg hm]
  split <;> simp

theorem get_hangLeaf_self (hkp : k ≠ p) :
    (fc.hangLeaf k p).get k = some (newLeafInfo k (some p) (fc.latestInvalidAncestor p)) := by
  unfold hangLeaf
  rw [get_modify, get_insertLeaf, if_pos rfl, if_neg hkp]

/-- A new block hung under a block of a smaller slot keeps the tree a tree. -/
theorem Shape.hangLeaf (h : Shape fc) {pinfo : ForkInfo} (hk : fc.get k = none)
    (hp : fc.get p = some pinfo) (hslot : p.slot < k.slot) : Shape (fc.hangLeaf k p) := by
  have hkp : k ≠ p := (ne_leaf_of_get hk hp).symm
  have hself : (fc.hangLeaf k p).get k = some _ := get_hangLeaf_self hkp
  have hpnew : (fc.hangLeaf k p).get p = some { pinfo with children := insertChild k pinfo.children } := by
    rw [get_hangLeaf_of_ne hkp.symm, hp]
    simp
  -- a block other than the leaf: same parent, at least its old children
  have hold : ∀ m info', m ≠ k → (fc.hangLeaf k p).get m = some info' →
      ∃ info, fc.get m = some info ∧ info'.parent = info.parent ∧
        (∀ c, c ∈ info'.children ↔ (m = p ∧ c = k) ∨ c ∈ info.children) ∧
        (info.children.Pairwise (· < ·) → info'.children.Pairwise (· < ·)) := by
    intro m info' hm hget
    rw [get_hangLeaf_of_ne hm] at hget
    obtain ⟨info, hinfo, rfl⟩ := Option.map_eq_some_iff.mp hget
    refine ⟨info, hinfo, ?_, fun c => ?_, fun hs => ?_⟩
    · split <;> rfl
    · split
      · rename_i hmp
        simp [mem_insertChild, hmp]
      · rename_i hmp
        simp [hmp]
    · split
      · exact pairwise_insertChild hs
      · exact hs
  have hnew : ∀ m info, m ≠ k → fc.get m = some info →
      ∃ info', (fc.hangLeaf k p).get m = some info' ∧ info'.parent = info.parent ∧
        info.children ⊆ info'.children := by
    intro m info hm hget
    refine ⟨_, by rw [get_hangLeaf_of_ne hm, hget]; rfl, ?_, fun c hc => ?_⟩
    · split <;> rfl
    · split
      · exact mem_insertChild.mpr (Or.inr hc)
      · exact hc
  have hrootk : fc.treeRoot ≠ k := by
    obtain ⟨rinfo, hr, -⟩ := h.root
    rintro hrk
    rw [hrk, hk] at hr
    cases hr
  refine ⟨?_, ?_, ?_, ?_, ?_⟩
  · unfold HeaviestSubtreeForkChoice.hangLeaf insertLeaf HeaviestSubtreeForkChoice.modify
    rw [AssocList.keys_modify]
    exact AssocList.nodup_keys_insert h.nodup
  · obtain ⟨rinfo, hr, hnone⟩ := h.root
    obtain ⟨rinfo', hr', hparent, -⟩ := hnew _ _ hrootk hr
    exact ⟨rinfo', hr', hparent ▸ hnone⟩
  · intro m info' hm hne
    by_cases hmk : m = k
    · subst hmk
      rw [hself] at hm
      cases hm
      exact ⟨p, _, rfl, hpnew, mem_insertChild.mpr (.inl rfl), hslot⟩
    · obtain ⟨info, hinfo, hparent, -, -⟩ := hold m info' hmk hm
      obtain ⟨q, qinfo, hq, hqget, hmem, hqslot⟩ := h.parent m info hinfo hne
      have hqk : q ≠ k := ne_leaf_of_get hk hqget
      obtain ⟨qinfo', hqget', -, hsub⟩ := hnew q qinfo hqk hqget
      exact ⟨q, qinfo', hparent ▸ hq, hqget', hsub hmem, hqslot⟩
  · intro m info' c hm hc
    by_cases hmk : m = k
    · subst hmk
      rw [hself] at hm
      cases hm
      simp [newLeafInfo] at hc
    · obtain ⟨info, hinfo, -, hchildren, -⟩ := hold m info' hmk hm
      rcases (hchildren c).mp hc with ⟨rfl, rfl⟩ | hc
      · exact ⟨_, hself, rfl⟩
      · obtain ⟨cinfo, hcget, hcparent⟩ := h.children m info c hinfo hc
        have hck : c ≠ k := ne_leaf_of_get hk hcget
        obtain ⟨cinfo', hcget', hparent', -⟩ := hnew c cinfo hck hcget
        exact ⟨cinfo', hcget', hparent' ▸ hcparent⟩
  · intro m info' hm
    by_cases hmk : m = k
    · subst hmk
      rw [hself] at hm
      cases hm
      simp [newLeafInfo]
    · obtain ⟨info, hinfo, -, -, hsorted⟩ := hold m info' hmk hm
      exact hsorted (h.sorted m info hinfo)

/-- `add_new_leaf_slot` of a new block under a block of a smaller slot does not panic, and keeps
the tree a tree. -/
theorem Shape.addNewLeafSlot (h : Shape fc) {pinfo : ForkInfo} (hk : fc.get k = none)
    (hp : fc.get p = some pinfo) (hslot : p.slot < k.slot) :
    ∃ fc', fc.addNewLeafSlot k (some p) = some fc' ∧ SameFrame (fc.hangLeaf k p) fc' ∧
      Shape fc' := by
  have hkp : k ≠ p := (ne_leaf_of_get hk hp).symm
  have hshape := h.hangLeaf hk hp hslot
  have hkget : ((fc.hangLeaf k p).get k).isSome := by rw [get_hangLeaf_self hkp]; rfl
  have hpget : ((fc.hangLeaf k p).get p).isSome := by
    rw [get_hangLeaf_of_ne hkp.symm, hp]
    rfl
  obtain ⟨fc', hfc'⟩ := Option.isSome_iff_exists.mp (hshape.propagateNewLeaf_isSome hkget hpget)
  have hsame := sameFrame_propagateNewLeaf hfc'
  exact ⟨fc', (addNewLeafSlot_eq hk hp).trans hfc', hsame, hshape.sameTree hsame.sameTree⟩

end HeaviestSubtreeForkChoice

end Agave.Consensus
