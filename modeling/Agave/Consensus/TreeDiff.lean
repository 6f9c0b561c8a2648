import Agave.Lib.Forest

/-!
# `TreeDiff`

`core/src/consensus/tree_diff.rs`. `subtree_diff(root1, root2)` collects the keys reachable from
`root1` through `children` without entering the subtree at `root2`: a loop pops a stack of pending
keys, skips `root2`, and pushes the children of every other key it keeps. The stack's top is the
head of a list here, and the `HashSet` it fills is a list kept free of duplicates by
`List.insert`; its order is not the source's, and no caller reads it. The loop is bounded by a
fuel.

On a forest whose nodes are listed in `nodes`, with `children` listing exactly the children of
each node, fuel for every node below the pending keys is enough (`subtreeDiffLoop_eq`), and then
the keys collected are exactly those reached from `root1` avoiding `root2`
(`subtreeDiff_eq`): one pop at a time, a key reached avoiding `root2` is the popped key or is
reached from one of the children pushed in its place (`Forest.reachesAvoiding_iff`).
-/

namespace Agave.Consensus.TreeDiff

/-- The `while let Some(current_key) = pending_keys.pop()` loop of `subtree_diff`, for at most
`fuel` pops. -/
def subtreeDiffLoop {κ : Type*} [DecidableEq κ] (children : κ → Option (List κ)) (root2 : κ) :
    Nat → List κ → List κ → Option (List κ)
  | 0, _, reachableSet => some reachableSet
  | _ + 1, [], reachableSet => some reachableSet
  | fuel + 1, currentKey :: pendingKeys, reachableSet =>
    if currentKey = root2 then subtreeDiffLoop children root2 fuel pendingKeys reachableSet
    else do
      -- `expect("slot was discovered earlier, must exist")`
      let childKeys ← children currentKey
      subtreeDiffLoop children root2 fuel (childKeys.reverse ++ pendingKeys)
        (reachableSet.insert currentKey)

/-- `TreeDiff::subtree_diff`; `none` is the `expect` on a pending key without children. -/
def subtreeDiff {κ : Type*} [DecidableEq κ] (containsSlot : κ → Bool)
    (children : κ → Option (List κ)) (fuel : Nat) (root1 root2 : κ) : Option (List κ) :=
  if !containsSlot root1 then some []
  else subtreeDiffLoop children root2 fuel [root1] []

section Forest

variable {α : Type*} [Preorder α] [DecidableEq α] {F : Forest α} {nodes : List α}
  {children : α → Option (List α)} {root2 : α}

/-- `children` lists, for every node of `nodes`, its children in the forest, once each, all of
them nodes. -/
def ListsChildren (F : Forest α) (nodes : List α) (children : α → Option (List α)) : Prop :=
  ∀ a ∈ nodes, ∃ cs, children a = some cs ∧ cs.Nodup ∧ (∀ c, c ∈ cs ↔ F.ParentOf c a) ∧
    ∀ c ∈ cs, c ∈ nodes

/-- With fuel for every node below the pending keys, the loop runs to its end and collects the
keys reached from a pending key avoiding `root2`. -/
theorem subtreeDiffLoop_eq (root2 : α) (hnodes : nodes.Nodup)
    (hch : ListsChildren F nodes children)
    (fuel : Nat) (pendingKeys reachableSet : List α) (hpending : ∀ p ∈ pendingKeys, p ∈ nodes)
    (hfuel : (pendingKeys.map (F.subtreeCount nodes)).sum ≤ fuel) :
    ∃ result, subtreeDiffLoop children root2 fuel pendingKeys reachableSet = some result ∧
      ∀ z, z ∈ result ↔ z ∈ reachableSet ∨ ∃ p ∈ pendingKeys, F.ReachesAvoiding root2 p z := by
  induction fuel generalizing pendingKeys reachableSet with
  | zero =>
    -- no fuel left: the stack is empty already
    cases pendingKeys with
    | nil => exact ⟨reachableSet, rfl, by simp⟩
    | cons p rest =>
      have hpos := F.subtreeCount_pos (hpending p List.mem_cons_self)
      simp only [List.map_cons, List.sum_cons] at hfuel
      omega
  | succ fuel ih =>
    cases pendingKeys with
    | nil => exact ⟨reachableSet, rfl, by simp⟩
    | cons p rest =>
      have hp := hpending p List.mem_cons_self
      have hrest : ∀ q ∈ rest, q ∈ nodes := fun q hq => hpending q (List.mem_cons_of_mem _ hq)
      have hpos := F.subtreeCount_pos hp
      simp only [List.map_cons, List.sum_cons] at hfuel
      by_cases hroot : p = root2
      · -- `root2` is skipped, and nothing is reached from it
        subst hroot
        obtain ⟨result, hloop, hmem⟩ := ih rest reachableSet hrest (by omega)
        refine ⟨result, by rw [subtreeDiffLoop, if_pos rfl, hloop], fun z => ?_⟩
        rw [hmem, List.exists_mem_cons_iff, or_iff_right (Forest.not_reachesAvoiding_self p z)]
      · -- the popped key is kept and its children are pushed in its place
        obtain ⟨cs, hcs, hnodup, hparent, hcsnodes⟩ := hch p hp
        have hcount := F.subtreeCount_eq hnodes hp hnodup hparent
        have hpending' : ∀ q ∈ cs.reverse ++ rest, q ∈ nodes := fun q hq => by
          rcases List.mem_append.mp hq with hq | hq
          · exact hcsnodes q (List.mem_reverse.mp hq)
          · exact hrest q hq
        have hfuel' : ((cs.reverse ++ rest).map (F.subtreeCount nodes)).sum ≤ fuel := by
          rw [List.map_append, List.sum_append, List.map_reverse, List.sum_reverse]
          omega
        obtain ⟨result, hloop, hmem⟩ := ih _ (reachableSet.insert p) hpending' hfuel'
        refine ⟨result, ?_, fun z => ?_⟩
        · rw [subtreeDiffLoop, if_neg hroot, hcs, Option.bind_eq_bind, Option.bind_some, hloop]
        · rw [hmem, List.mem_insert_iff, List.exists_mem_cons_iff, Forest.reachesAvoiding_iff hroot]
          simp only [List.mem_append, List.mem_reverse, or_and_right, exists_or]
          constructor
          · rintro ((rfl | hz) | (⟨c, hc, hcz⟩ | hq))
            · exact .inr (.inl (.inl rfl))
            · exact .inl hz
            · exact .inr (.inl (.inr ⟨c, (hparent c).mp hc, hcz⟩))
            · exact .inr (.inr hq)
          · rintro (hz | ((rfl | ⟨c, hc, hcz⟩) | hq))
            · exact .inl (.inr hz)
            · exact .inl (.inl rfl)
            · exact .inr (.inl ⟨c, (hparent c).mpr hc, hcz⟩)
            · exact .inr (.inr hq)

/-- With fuel for every node, `subtree_diff` of a node collects exactly the nodes reached from it
avoiding `root2`. -/
theorem subtreeDiff_eq {containsSlot : α → Bool} {root1 : α} {fuel : Nat} (hnodes : nodes.Nodup)
    (hch : ListsChildren F nodes children) (hroot1 : root1 ∈ nodes)
    (hcontains : containsSlot root1 = true) (hfuel : nodes.length ≤ fuel) :
    ∃ result, subtreeDiff containsSlot children fuel root1 root2 = some result ∧
      ∀ z, z ∈ result ↔ F.ReachesAvoiding root2 root1 z := by
  have hcount := F.subtreeCount_le_length nodes root1
  obtain ⟨result, hloop, hmem⟩ := subtreeDiffLoop_eq root2 hnodes hch fuel [root1] []
    (by simpa using hroot1) (by simp; omega)
  refine ⟨result, by rw [subtreeDiff, hcontains, Bool.not_true, if_neg Bool.false_ne_true, hloop],
    fun z => ?_⟩
  simp [hmem]

end Forest

end Agave.Consensus.TreeDiff
