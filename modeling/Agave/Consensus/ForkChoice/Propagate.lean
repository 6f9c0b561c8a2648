import Agave.Consensus.ForkChoice.Heaviest

/-!
# Heaviest-subtree fork choice: a new leaf and the best slots

`add_new_leaf_slot` hangs a block of no stake under its parent (`hangLeaf`) and asks whether it is
now the parent's heaviest candidate child (`is_best_child`). If it is, the first loop of
`propagate_new_leaf` walks up from the parent and gives the leaf to every block whose best slot was
the parent's, stopping at the first that had another: the longest such prefix of the walk
(`propagateBestSlot_eq`, read as `TakesLeaf`). The rule of `BestSlots` holds again after it
(`BestSlots.propagateBestSlot`), one lemma for each kind of block: the leaf, the parent, an
ancestor of the prefix, which reached the parent's old best slot through its child on the way to
the parent, and any other block, such as the one where the loop stopped. The second loop writes deepest slots and
heights only, so the whole call keeps `BestSlots` (`BestSlots.addNewLeafSlot`).
-/

namespace Agave.Consensus

open Agave.Vote

namespace HeaviestSubtreeForkChoice

variable {fc fc' : HeaviestSubtreeForkChoice} {k p m : SlotHashKey} {pinfo : ForkInfo}

/-! ### The two loops of `propagate_new_leaf` -/

theorem bestSlot_modify {f : ForkInfo → ForkInfo} (hf : ∀ i, (f i).bestSlot = i.bestSlot)
    (a m : SlotHashKey) : (fc.modify a f).bestSlot m = fc.bestSlot m := by
  unfold HeaviestSubtreeForkChoice.bestSlot
  rw [get_modify]
  split
  · cases fc.get m <;> simp [hf]
  · rfl

/-- The second loop writes deepest slots and heights only. -/
theorem bestSlot_propagateDeepestSlot {l : List SlotHashKey} {child : SlotHashKey} {height : Nat}
    (h : fc.propagateDeepestSlot k l child height = some fc') (m : SlotHashKey) :
    fc'.bestSlot m = fc.bestSlot m := by
  induction l generalizing fc child height with
  | nil =>
    cases h
    rfl
  | cons a rest ih =>
    unfold propagateDeepestSlot at h
    cases hdeep : fc.isDeepestChild child with
    | none => rw [hdeep] at h; cases h
    | some deepest =>
      simp only [hdeep, Option.bind_eq_bind, Option.bind_some] at h
      split at h
      · cases h
        rfl
      · cases hget : fc.get a with
        | none => rw [hget] at h; cases h
        | some info =>
          simp only [hget, Option.bind_some] at h
          exact (ih h).trans (bestSlot_modify (by intro; rfl) a m)

/-- The first loop on a walk without repeats: the blocks of the longest prefix whose best slot is
`x` take the leaf `k`, and nothing else changes. -/
theorem propagateBestSlot_eq {l : List SlotHashKey} (hnodup : l.Nodup)
    (hl : ∀ a ∈ l, (fc.get a).isSome) (x : SlotHashKey) :
    ∃ fc', fc.propagateBestSlot k x l = some fc' ∧ SameFrame fc fc' ∧ ∀ m,
      fc'.get m = if m ∈ l.takeWhile (fun a => decide (fc.bestSlot a = some x))
        then (fc.get m).map fun i => { i with bestSlot := k } else fc.get m := by
  induction l generalizing fc with
  | nil => exact ⟨fc, rfl, .refl fc, fun m => by simp⟩
  | cons a rest ih =>
    obtain ⟨info, ha⟩ := Option.isSome_iff_exists.mp (hl a List.mem_cons_self)
    obtain ⟨hnotin, hrest⟩ := List.nodup_cons.mp hnodup
    by_cases hx : info.bestSlot = x
    · -- the block takes the leaf, and the loop goes on up the rest of the walk
      have hl' : ∀ b ∈ rest, ((fc.modify a fun i => { i with bestSlot := k }).get b).isSome :=
        fun b hb => by
          rw [get_modify_ne _ (fun h : b = a => hnotin (h ▸ hb))]
          exact hl b (List.mem_cons_of_mem _ hb)
      obtain ⟨fc', hprop, hsame, hget⟩ := ih hrest hl'
      -- the rest of the walk reads best slots the block's change did not touch
      have htake : rest.takeWhile (fun b => decide
            ((fc.modify a fun i => { i with bestSlot := k }).bestSlot b = some x)) =
          rest.takeWhile (fun b => decide (fc.bestSlot b = some x)) :=
        Forest.takeWhile_congr fun b hb => by
          unfold HeaviestSubtreeForkChoice.bestSlot
          rw [get_modify_ne _ (fun h : b = a => hnotin (h ▸ hb))]
      have hpa : decide (fc.bestSlot a = some x) = true := by simp [bestSlot_of_get ha, hx]
      refine ⟨fc', ?_, (sameFrame_modify fc a (by intro; rfl)).trans hsame, fun m => ?_⟩
      · unfold propagateBestSlot
        simp only [ha, Option.bind_eq_bind, Option.bind_some, if_pos hx]
        exact hprop
      · rw [hget m, htake, List.takeWhile_cons, if_pos hpa]
        by_cases hma : m = a
        · subst hma
          have hnot : m ∉ rest.takeWhile (fun b => decide (fc.bestSlot b = some x)) :=
            fun h => hnotin ((List.takeWhile_sublist _).subset h)
          simp [hnot]
        · simp [hma]
    · have hpa : decide (fc.bestSlot a = some x) = false := by simp [bestSlot_of_get ha, hx]
      refine ⟨fc, ?_, .refl fc, fun m => ?_⟩
      · unfold propagateBestSlot
        simp [ha, hx]
      · rw [List.takeWhile_cons, hpa]
        simp

/-! ### `is_best_child` -/

/-- The loop of `is_best_child` answers whether no candidate child goes before `b`. -/
theorem isBestChildLoop_eq_some {b : SlotHashKey} {l : List SlotHashKey} {r : Bool}
    (h : fc.isBestChildLoop b (fc.subtreeWeight b) l = some r) :
    r = true ↔ ∀ c ∈ l, fc.isCandidate c = some true → ¬fc.Heavier c b := by
  induction l with
  | nil =>
    cases h
    simp
  | cons c rest ih =>
    unfold isBestChildLoop at h
    cases hw : fc.stakeVotedSubtree c with
    | none => simp [hw] at h
    | some cw =>
      cases hcand : fc.isCandidate c with
      | none => simp [hw, hcand] at h
      | some cand =>
        have hcw : fc.subtreeWeight c = cw := by simp [subtreeWeight, hw]
        have hheavier : fc.Heavier c b ↔ (cw > fc.subtreeWeight b ∨
            (fc.subtreeWeight b = cw ∧ c < b)) := by
          unfold Heavier
          rw [hcw]
        simp only [hw, hcand, Option.bind_eq_bind, Option.bind_some] at h
        cases cand with
        | false =>
          -- a child that is no candidate is skipped
          simp only [Bool.not_false, if_true] at h
          rw [ih h, List.forall_mem_cons]
          simp [hcand]
        | true =>
          simp only [Bool.not_true, Bool.false_eq_true, if_false] at h
          split_ifs at h with hcond
          · cases h
            simp only [Bool.false_eq_true, false_iff, not_forall]
            exact ⟨c, List.mem_cons_self, hcand, not_not.mpr (hheavier.mpr hcond)⟩
          · rw [ih h, List.forall_mem_cons]
            simp only [hcand, forall_const]
            exact ⟨fun hall => ⟨fun hc => hcond (hheavier.mp hc), hall⟩, fun h => h.2⟩

/-- What the first loop of `propagate_new_leaf` leaves: the blocks of `U`, the parent and those
above it up to the first whose best slot was not the parent's, take the leaf `k`; every other block
keeps its info, and what a parent's rule reads of its children is as before. -/
structure TakesLeaf (fc₁ fc₂ : HeaviestSubtreeForkChoice) (hshape₁ : Shape fc₁)
    (p x k : SlotHashKey) (U : List SlotHashKey) : Prop where
  mem : ∀ a, a ∈ U ↔ (fc₁.forest hshape₁).IsAncestorOrSelf a p ∧
    ∀ y, (fc₁.forest hshape₁).IsAncestorOrSelf y p → a ≤ y → fc₁.bestSlot y = some x
  get : ∀ m info, fc₁.get m = some info →
    fc₂.get m = some (if m ∈ U then { info with bestSlot := k } else info)
  same : ∀ c, fc₂.isCandidate c = fc₁.isCandidate c ∧ fc₂.subtreeWeight c = fc₁.subtreeWeight c

namespace TakesLeaf

variable {fc₁ fc₂ : HeaviestSubtreeForkChoice} {hshape₁ : Shape fc₁} {x c : SlotHashKey}
  {U : List SlotHashKey}

/-- The parent heads the walk with its own best slot, so it takes the leaf. -/
theorem parent_mem (ht : TakesLeaf fc₁ fc₂ hshape₁ p x k U)
    (hbest : fc₁.bestSlot p = some x) : p ∈ U := by
  refine (ht.mem p).mpr ⟨Forest.IsAncestorOrSelf.refl p, fun y hy hpy => ?_⟩
  rw [le_antisymm hy.le hpy]
  exact hbest

/-- A child of the parent is below every block of the walk. -/
theorem not_mem_of_parentOf (ht : TakesLeaf fc₁ fc₂ hshape₁ p x k U)
    (hc : (fc₁.forest hshape₁).ParentOf c p) : c ∉ U := fun hcU =>
  absurd ((ht.mem c).mp hcU).1.le (not_le_of_gt ((fc₁.forest hshape₁).parent_lt hc))

end TakesLeaf

/-! ### The hung leaf -/

section Leaf

variable (hshape : Shape fc) (hk : fc.get k = none) (hp : fc.get p = some pinfo)
  (hslot : p.slot < k.slot)

/-- Off the leaf, every block reads the same to a parent's rule. -/
theorem sameChoice_hangLeaf (hm : m ≠ k) : SameChoice (fc.hangLeaf k p) fc m := by
  unfold SameChoice HeaviestSubtreeForkChoice.isCandidate HeaviestSubtreeForkChoice.subtreeWeight
    HeaviestSubtreeForkChoice.stakeVotedSubtree HeaviestSubtreeForkChoice.bestSlot
  rw [get_hangLeaf_of_ne hm]
  cases fc.get m <;> split <;> simp [ForkInfo.isCandidate]

/-- The leaf: no children, and its own best slot. -/
theorem bestSlotOk_newLeafInfo (g : HeaviestSubtreeForkChoice) (parent : Option SlotHashKey)
    (l : Option Slot) : g.BestSlotOk k (newLeafInfo k parent l) :=
  .inl ⟨fun _ hc => absurd hc List.not_mem_nil, rfl⟩

variable {fc₂ : HeaviestSubtreeForkChoice} {hshape₁ : Shape (fc.hangLeaf k p)} {x c : SlotHashKey}
  {U : List SlotHashKey}

/-- Off the leaf, a block reads to its parent's rule as it did before the leaf was hung. -/
theorem TakesLeaf.weigh (ht : TakesLeaf (fc.hangLeaf k p) fc₂ hshape₁ p x k U) (hc : c ≠ k) :
    fc₂.isCandidate c = fc.isCandidate c ∧ fc₂.subtreeWeight c = fc.subtreeWeight c :=
  ⟨(ht.same c).1.trans (sameChoice_hangLeaf hc).1, (ht.same c).2.trans (sameChoice_hangLeaf hc).2.1⟩

include hk in
/-- The leaf is one more block. -/
theorem keys_hangLeaf :
    (fc.hangLeaf k p).forkInfos.map Prod.fst = fc.forkInfos.map Prod.fst ++ [k] := by
  unfold hangLeaf insertLeaf HeaviestSubtreeForkChoice.modify
  rw [AssocList.keys_modify]
  unfold AssocList.insert
  rw [AssocList.keys_alter, if_neg]
  intro hmem
  obtain ⟨⟨k', v⟩, hentry, rfl⟩ := List.mem_map.mp hmem
  have := AssocList.get?_isSome_of_mem hentry
  rw [show AssocList.get? k' fc.forkInfos = fc.get k' from rfl, hk] at this
  cases this

include hshape hk in
/-- Walking up from a block other than the leaf meets the blocks it met before. -/
theorem ancestors_hangLeaf (hm : m ≠ k) : (fc.hangLeaf k p).ancestors m = fc.ancestors m := by
  have hparent : ∀ x, x ≠ k → (fc.hangLeaf k p).parent x = fc.parent x := fun x hx => by
    unfold HeaviestSubtreeForkChoice.parent
    rw [get_hangLeaf_of_ne hx]
    cases fc.get x <;> split <;> rfl
  have hnil : ∀ (parent : SlotHashKey → Option SlotHashKey) (n : Nat), parent m = none →
      Forest.walk parent n m = [] := fun parent n h => by
    cases n <;> simp [Forest.walk, h]
  unfold HeaviestSubtreeForkChoice.ancestors
  cases hget : fc.get m with
  | none =>
    have hnone : fc.parent m = none := by simp [HeaviestSubtreeForkChoice.parent, hget]
    rw [hnil _ _ hnone, hnil _ _ ((hparent m hm).trans hnone)]
  | some info =>
    -- every node met is a block, so not the leaf; and the walk has fuel to spare
    have hclosed : ∀ b ∈ fc.forkInfos.map Prod.fst, ∀ q, fc.parent b = some q →
        q ∈ fc.forkInfos.map Prod.fst := fun b _ q hq => by
      obtain ⟨qinfo, hqget⟩ := hshape.get_parent hq
      exact mem_keys_of_get hqget
    have hnotk : ∀ x ∈ m :: Forest.walk fc.parent (fc.hangLeaf k p).forkInfos.length m, x ≠ k :=
      fun x hx => by
        rintro rfl
        have hmem : x ∈ fc.forkInfos.map Prod.fst := by
          rcases List.mem_cons.mp hx with rfl | hx
          · exact mem_keys_of_get hget
          · exact Forest.walk_subset (F := fc.forest hshape) hclosed (mem_keys_of_get hget) x hx
        obtain ⟨⟨x', v⟩, hxmem, rfl⟩ := List.mem_map.mp hmem
        have := AssocList.get?_isSome_of_mem hxmem
        rw [show AssocList.get? x' fc.forkInfos = fc.get x' from rfl, hk] at this
        cases this
    have hlen : (fc.hangLeaf k p).forkInfos.length = fc.forkInfos.length + 1 := by
      rw [← List.length_map (f := Prod.fst), keys_hangLeaf hk, List.length_append,
        List.length_map, List.length_singleton]
    have hdepth := hshape.depth_lt hget
    have hwalk : Forest.walk (fc.hangLeaf k p).parent (fc.hangLeaf k p).forkInfos.length m =
        Forest.walk fc.parent (fc.hangLeaf k p).forkInfos.length m :=
      Forest.walk_congr (F := fc.forest hshape) fun x hx => hparent x (hnotk x hx)
    have hfuel : Forest.walk fc.parent (fc.hangLeaf k p).forkInfos.length m =
        Forest.walk fc.parent fc.forkInfos.length m :=
      Forest.walk_congr_fuel (F := fc.forest hshape) (by omega) hdepth.le
    rw [hwalk, hfuel]

include hshape hk in
/-- Nor is a child of one. -/
theorem ne_leaf_of_mem_children {info : ForkInfo} (hm : fc.get m = some info) {c : SlotHashKey}
    (hc : c ∈ info.children) : c ≠ k := by
  obtain ⟨cinfo, hcget, -⟩ := hshape.child hm hc
  exact ne_leaf_of_get hk hcget

include hshape hk in
/-- An old block keeps the rule with its old children: they read the same. -/
theorem BestSlots.rule_hangLeaf (h : BestSlots fc) {info : ForkInfo} (hm : fc.get m = some info)
    (hcand : info.isCandidate = true) : (fc.hangLeaf k p).BestSlotOk m info :=
  (h.rule m info hm hcand).congr rfl rfl fun _ hc =>
    sameChoice_hangLeaf (ne_leaf_of_mem_children hshape hk hm hc)

include hk hp

theorem ne_of_get_hangLeaf : k ≠ p := (ne_leaf_of_get hk hp).symm

/-- A block other than the parent reads as it did. -/
theorem get_hangLeaf_of_get {info : ForkInfo} (hm : fc.get m = some info) (hmp : m ≠ p) :
    (fc.hangLeaf k p).get m = some info := by
  rw [get_hangLeaf hk hp, if_neg (ne_leaf_of_get hk hm), if_neg hmp, hm]

/-- The leaf has no stake, no children and its parent's candidacy, and is its own best slot. -/
theorem get_hangLeaf_leaf :
    (fc.hangLeaf k p).get k =
      some (newLeafInfo k (some p) pinfo.latestInvalidAncestor) := by
  rw [get_hangLeaf_self (ne_of_get_hangLeaf hk hp)]
  simp [latestInvalidAncestor, hp]

/-- `is_best_child` of the leaf runs its loop over the parent's children, the leaf among them. -/
theorem isBestChild_hangLeaf :
    (fc.hangLeaf k p).isBestChild k = (fc.hangLeaf k p).isBestChildLoop k
      ((fc.hangLeaf k p).subtreeWeight k) (insertChild k pinfo.children) := by
  have hkp := ne_of_get_hangLeaf hk hp
  have hleaf := get_hangLeaf_leaf hk hp
  have hparent : (fc.hangLeaf k p).get p = some { pinfo with children := insertChild k pinfo.children } := by
    rw [get_hangLeaf hk hp, if_neg hkp.symm, if_pos rfl]
  unfold isBestChild
  simp [subtreeWeight, HeaviestSubtreeForkChoice.stakeVotedSubtree, HeaviestSubtreeForkChoice.parent,
    HeaviestSubtreeForkChoice.children, hleaf, hparent, newLeafInfo]

theorem get_hangLeaf_parent :
    (fc.hangLeaf k p).get p = some { pinfo with children := insertChild k pinfo.children } := by
  rw [get_hangLeaf hk hp, if_neg (ne_of_get_hangLeaf hk hp).symm, if_pos rfl]

include hshape in
/-- A best slot after hanging the leaf is the block itself or below it. -/
theorem BestSlots.below_hangLeaf (h : BestSlots fc) {info : ForkInfo}
    (hm : (fc.hangLeaf k p).get m = some info) :
    info.bestSlot = m ∨ (fc.hangLeaf k p).isStrictAncestor m info.bestSlot = true := by
  by_cases hmk : m = k
  · subst hmk
    rw [get_hangLeaf_leaf hk hp, Option.some.injEq] at hm
    subst hm
    exact .inl rfl
  · rw [get_hangLeaf_of_ne hmk] at hm
    obtain ⟨info₀, hget, rfl⟩ := Option.map_eq_some_iff.mp hm
    have hbest : (if m = p then { info₀ with children := insertChild k info₀.children }
        else info₀).bestSlot = info₀.bestSlot := by
      split <;> rfl
    rw [hbest]
    rcases h.below m info₀ hget with hself | hanc
    · exact .inl hself
    · -- the best slot is a block, so not the leaf
      have hbk : info₀.bestSlot ≠ k := by
        intro hbk
        rw [hbk, hshape.isStrictAncestor_iff] at hanc
        exact not_isAncestor_of_get_eq_none hshape hk m hanc
      unfold isStrictAncestor at hanc ⊢
      rw [ancestors_hangLeaf hshape hk hbk]
      exact .inr hanc

include hshape in
/-- With the leaf hung, every block's best slot is in its subtree. -/
theorem BestSlots.isAncestorOrSelf_bestSlot (h : BestSlots fc) (hshape₁ : Shape (fc.hangLeaf k p))
    {info : ForkInfo} (hm : (fc.hangLeaf k p).get m = some info) :
    ((fc.hangLeaf k p).forest hshape₁).IsAncestorOrSelf m info.bestSlot := by
  rcases h.below_hangLeaf hshape hk hp hm with hself | hanc
  · rw [hself]
    exact Forest.IsAncestorOrSelf.refl m
  · exact ((hshape₁.isStrictAncestor_iff _ _).mp hanc).isAncestorOrSelf

/-- Among the parent's children with the leaf: the leaf goes first exactly when
`is_best_child` says so. -/
theorem isBestChild_hangLeaf_eq_some {r : Bool} (hr : (fc.hangLeaf k p).isBestChild k = some r) :
    r = true ↔ ∀ c ∈ insertChild k pinfo.children,
      (fc.hangLeaf k p).isCandidate c = some true → ¬(fc.hangLeaf k p).Heavier c k := by
  rw [isBestChild_hangLeaf hk hp] at hr
  exact isBestChildLoop_eq_some hr

include hshape in
/-- When the leaf is not the parent's heaviest child, hanging it keeps the best slots. -/
theorem BestSlots.hangLeaf (h : BestSlots fc)
    (hisBest : (fc.hangLeaf k p).isBestChild k = some false) : BestSlots (fc.hangLeaf k p) := by
  refine ⟨fun m info hm hcand => ?_, fun m info hm => h.below_hangLeaf hshape hk hp hm, ?_⟩
  · by_cases hmk : m = k
    · rw [hmk, get_hangLeaf_leaf hk hp, Option.some.injEq] at hm
      rw [hmk, ← hm]
      exact bestSlotOk_newLeafInfo _ _ _
    by_cases hmp : m = p
    · rw [hmp, get_hangLeaf_parent hk hp, Option.some.injEq] at hm
      subst hm
      rw [hmp]
      -- a candidate child goes before the leaf
      obtain ⟨c₀, hc₀, hcand₀, hbeat⟩ : ∃ c₀ ∈ insertChild k pinfo.children,
          (fc.hangLeaf k p).isCandidate c₀ = some true ∧ (fc.hangLeaf k p).Heavier c₀ k := by
        have := (isBestChild_hangLeaf_eq_some hk hp hisBest).not.mp (by simp)
        push Not at this
        exact this
      have hc₀k : c₀ ≠ k := by
        rintro rfl
        exact hbeat.asymm hbeat
      have hc₀old : c₀ ∈ pinfo.children := (mem_insertChild.mp hc₀).resolve_left hc₀k
      have hold : ∀ c ∈ pinfo.children, c ≠ k := fun _ hc => ne_leaf_of_mem_children hshape hk hp hc
      rcases h.rule p pinfo hp hcand with ⟨hnone, -⟩ | ⟨c, hheavy, hbest⟩
      · exact absurd ((sameChoice_hangLeaf hc₀k).1.symm.trans hcand₀) (hnone c₀ hc₀old)
      · -- the heaviest old child still goes first, before the leaf too
        have hheavy₁ : (fc.hangLeaf k p).IsHeaviestChild pinfo.children c :=
          hheavy.congr fun c' hc' =>
            ⟨(sameChoice_hangLeaf (hold c' hc')).1, (sameChoice_hangLeaf (hold c' hc')).2.1⟩
        refine .inr ⟨c, ⟨mem_insertChild.mpr (.inr hheavy.1), hheavy₁.2.1,
          fun c' hc' hcand' hne => ?_⟩, ?_⟩
        · rcases mem_insertChild.mp hc' with rfl | hc'
          · by_cases hc₀c : c₀ = c
            · exact hc₀c ▸ hbeat
            · exact (hheavy₁.2.2 c₀ hc₀old hcand₀ hc₀c).trans hbeat
          · exact hheavy₁.2.2 c' hc' hcand' hne
        · rw [(sameChoice_hangLeaf (hold c hheavy.1)).2.2]
          exact hbest
    · -- any other block is as it was
      rw [get_hangLeaf hk hp, if_neg hmk, if_neg hmp] at hm
      exact h.rule_hangLeaf hshape hk hm hcand
  · obtain ⟨rinfo, hroot, -⟩ := hshape.root
    show (fc.hangLeaf k p).isCandidate fc.treeRoot = some true
    rw [(sameChoice_hangLeaf (ne_leaf_of_get hk hroot)).1]
    exact h.root

/-- The parent: the leaf is its heaviest child now, and the leaf is its own best slot. -/
theorem TakesLeaf.bestSlotOk_parent (hisBest : (fc.hangLeaf k p).isBestChild k = some true)
    (ht : TakesLeaf (fc.hangLeaf k p) fc₂ hshape₁ p x k U) (hkU : k ∉ U)
    (hcand : pinfo.isCandidate = true) :
    fc₂.BestSlotOk p { pinfo with children := insertChild k pinfo.children, bestSlot := k } := by
  have hleaf := get_hangLeaf_leaf hk hp
  have hcandk : (fc.hangLeaf k p).isCandidate k = some true := by
    rw [isCandidate_of_get hleaf]
    simpa [newLeafInfo, ForkInfo.isCandidate] using hcand
  have hheavy₁ : (fc.hangLeaf k p).IsHeaviestChild (insertChild k pinfo.children) k := by
    refine ⟨mem_insertChild.mpr (.inl rfl), hcandk, fun c hc hcandc hne => ?_⟩
    have hnot := (isBestChild_hangLeaf_eq_some hk hp hisBest).mp rfl c hc hcandc
    exact (heavier_or_heavier (Ne.symm hne)).resolve_right hnot
  refine .inr ⟨k, hheavy₁.congr fun c _ => ht.same c, ?_⟩
  rw [bestSlot_of_get (ht.get k _ hleaf), if_neg hkU]
  rfl

include hshape in
/-- An ancestor that takes the leaf had the parent's best slot, so it reached it through its child
on the way down to the parent, which takes the leaf too. -/
theorem BestSlots.bestSlotOk_of_takesLeaf (h : BestSlots fc)
    (ht : TakesLeaf (fc.hangLeaf k p) fc₂ hshape₁ p pinfo.bestSlot k U) {info : ForkInfo}
    (hm : fc.get m = some info) (hcand : info.isCandidate = true) (hmU : m ∈ U) (hmp : m ≠ p) :
    fc₂.BestSlotOk m { info with bestSlot := k } := by
  set F := (fc.hangLeaf k p).forest hshape₁
  have hm₁ := get_hangLeaf_of_get hk hp hm hmp
  obtain ⟨hmW, hmbest⟩ := (ht.mem m).mp hmU
  have hanc : F.IsAncestor m p := (Forest.isAncestorOrSelf_iff.mp hmW).resolve_left hmp
  have hbestm : info.bestSlot = pinfo.bestSlot := by
    have := hmbest m hmW le_rfl
    rw [bestSlot_of_get hm₁] at this
    exact Option.some.inj this
  have hX : F.IsAncestorOrSelf p pinfo.bestSlot := by
    have := h.isAncestorOrSelf_bestSlot hshape hk hp hshape₁ (get_hangLeaf_parent hk hp)
    exact this
  rcases h.rule m info hm hcand with ⟨-, hself⟩ | ⟨c, hheavy, hcbest⟩
  · -- its own best slot would put it in the parent's subtree
    rw [hself] at hbestm
    exact absurd (hbestm ▸ hX).le (not_le_of_gt hanc.lt)
  · have hck := ne_leaf_of_mem_children hshape hk hm hheavy.1
    obtain ⟨cinfo₁, hcget₁, hcparent, -⟩ := hshape₁.child hm₁ hheavy.1
    have hcbest₁ : cinfo₁.bestSlot = pinfo.bestSlot := by
      rw [← (sameChoice_hangLeaf hck).2.2, bestSlot_of_get hcget₁, hbestm] at hcbest
      exact Option.some.inj hcbest
    have hcX : F.IsAncestorOrSelf c pinfo.bestSlot :=
      hcbest₁ ▸ h.isAncestorOrSelf_bestSlot hshape hk hp hshape₁ hcget₁
    have hcU : c ∈ U := (ht.mem c).mpr ⟨hanc.isAncestorOrSelf_of_child hcparent hcX hX,
      fun y hy hcy => hmbest y hy ((F.parent_lt hcparent).le.trans hcy)⟩
    refine .inr ⟨c, hheavy.congr fun c' hc' => ht.weigh (ne_leaf_of_mem_children hshape hk hm hc'), ?_⟩
    rw [bestSlot_of_get (ht.get c cinfo₁ hcget₁), if_pos hcU]

include hshape in
/-- Outside the prefix a block keeps its best slot, and so does its heaviest child: a child that
took the leaf would have put the block, right above it, in the prefix too. -/
theorem BestSlots.bestSlotOk_of_not_takesLeaf (h : BestSlots fc)
    (ht : TakesLeaf (fc.hangLeaf k p) fc₂ hshape₁ p pinfo.bestSlot k U) {info : ForkInfo}
    (hm : fc.get m = some info) (hcand : info.isCandidate = true) (hmU : m ∉ U) (hmp : m ≠ p) :
    fc₂.BestSlotOk m info := by
  set F := (fc.hangLeaf k p).forest hshape₁
  have hm₁ := get_hangLeaf_of_get hk hp hm hmp
  rcases h.rule m info hm hcand with ⟨hnone, hself⟩ | ⟨c, hheavy, hcbest⟩
  · refine .inl ⟨fun c hc => ?_, hself⟩
    rw [(ht.weigh (ne_leaf_of_mem_children hshape hk hm hc)).1]
    exact hnone c hc
  · have hck := ne_leaf_of_mem_children hshape hk hm hheavy.1
    obtain ⟨cinfo₁, hcget₁, hcparent, -⟩ := hshape₁.child hm₁ hheavy.1
    have hcU : c ∉ U := by
      intro hcU
      obtain ⟨hcW, hcbest'⟩ := (ht.mem c).mp hcU
      have hmX : (fc.hangLeaf k p).bestSlot m = some pinfo.bestSlot := by
        rw [← hcbest' c hcW le_rfl, bestSlot_of_get hm₁, (sameChoice_hangLeaf hck).2.2, hcbest]
      have hmp' : F.IsAncestorOrSelf m p :=
        (Forest.IsAncestor.trans_isAncestorOrSelf (F := F) (Relation.TransGen.single hcparent)
          hcW).isAncestorOrSelf
      refine hmU ((ht.mem m).mpr ⟨hmp', fun y hy hmy => ?_⟩)
      rcases eq_or_lt_of_le hmy with rfl | hlt
      · exact hmX
      · exact hcbest' y hy (hy.le_of_parentOf_lt hcW hcparent hlt)
    refine .inr ⟨c, hheavy.congr fun c' hc' => ht.weigh (ne_leaf_of_mem_children hshape hk hm hc'), ?_⟩
    rw [bestSlot_of_get (ht.get c cinfo₁ hcget₁), if_neg hcU, ← bestSlot_of_get hcget₁,
      (sameChoice_hangLeaf hck).2.2]
    exact hcbest

include hshape hslot in
/-- When the leaf is the parent's heaviest child, the first loop of `propagate_new_leaf` gives it
to the longest run of blocks up from the parent whose best slot was the parent's, and the best
slots keep the rule. -/
theorem BestSlots.propagateBestSlot (h : BestSlots fc)
    (hisBest : (fc.hangLeaf k p).isBestChild k = some true) {fc₂ : HeaviestSubtreeForkChoice}
    (hprop : (fc.hangLeaf k p).propagateBestSlot k pinfo.bestSlot
      (p :: (fc.hangLeaf k p).ancestors p) = some fc₂) : BestSlots fc₂ := by
  have hshape₁ : Shape (fc.hangLeaf k p) := hshape.hangLeaf hk hp hslot
  have hp₁ := get_hangLeaf_parent hk hp
  have hleaf := get_hangLeaf_leaf hk hp
  -- the walk up from the parent: the parent and its ancestors, going down the order
  have hmemW : ∀ a, a ∈ p :: (fc.hangLeaf k p).ancestors p ↔
      ((fc.hangLeaf k p).forest hshape₁).IsAncestorOrSelf a p := fun a => by
    rw [List.mem_cons, hshape₁.mem_ancestors_iff hp₁, Forest.isAncestorOrSelf_iff]
  have hsorted : (p :: (fc.hangLeaf k p).ancestors p).Pairwise (· > ·) :=
    Forest.pairwise_walk (F := (fc.hangLeaf k p).forest hshape₁) _ p
  have hsome : ∀ a ∈ p :: (fc.hangLeaf k p).ancestors p, ((fc.hangLeaf k p).get a).isSome :=
    fun a ha => by
      rcases List.mem_cons.mp ha with rfl | ha
      · simp [hp₁]
      · exact hshape₁.ancestors_isSome (by simp [hp₁]) a ha
  obtain ⟨fc₂', hprop', hsame, hget₂⟩ :=
    propagateBestSlot_eq (k := k) (hsorted.imp ne_of_gt) hsome pinfo.bestSlot
  rw [hprop, Option.some.injEq] at hprop'
  subst hprop'
  -- the blocks that took the leaf: a prefix of the walk, all with the parent's best slot
  set U := (p :: (fc.hangLeaf k p).ancestors p).takeWhile
    (fun a => decide ((fc.hangLeaf k p).bestSlot a = some pinfo.bestSlot)) with hU
  have ht : TakesLeaf (fc.hangLeaf k p) fc₂ hshape₁ p pinfo.bestSlot k U := by
    refine ⟨fun a => ?_, fun m info₁ hm => ?_, fun c => ⟨hsame.isCandidate c, hsame.subtreeWeight c⟩⟩
    · rw [hU, Forest.mem_takeWhile_iff_of_pairwise hsorted]
      simp only [hmemW, decide_eq_true_eq]
    · rw [hget₂ m, hm]
      split <;> rfl
  have hpU : p ∈ U := ht.parent_mem (by rw [bestSlot_of_get hp₁])
  have hkp : ((fc.hangLeaf k p).forest hshape₁).ParentOf k p := by
    show (fc.hangLeaf k p).parent k = some p
    simp [HeaviestSubtreeForkChoice.parent, hleaf, newLeafInfo]
  have hkU : k ∉ U := ht.not_mem_of_parentOf hkp
  refine ⟨fun m info₂ hm₂ hcand => ?_, fun m info₂ hm₂ => ?_, ?_⟩
  · obtain ⟨info₁, hm₁⟩ := hsame.sameTree.exists_get hm₂
    rw [ht.get m info₁ hm₁, Option.some.injEq] at hm₂
    have hcand₁ : info₁.isCandidate = true := by
      rw [← hm₂] at hcand
      split at hcand <;> exact hcand
    by_cases hmk : m = k
    · rw [hmk] at hm₁ hm₂ ⊢
      rw [hleaf, Option.some.injEq] at hm₁
      rw [← hm₂, if_neg hkU, ← hm₁]
      exact bestSlotOk_newLeafInfo _ _ _
    by_cases hmp : m = p
    · rw [hmp] at hm₁ hm₂ ⊢
      rw [hp₁, Option.some.injEq] at hm₁
      subst hm₁
      rw [if_pos hpU] at hm₂
      subst hm₂
      exact ht.bestSlotOk_parent hk hp hisBest hkU hcand₁
    -- any other block: an ancestor that took the leaf, or one as it was
    have hm₀ : fc.get m = some info₁ := by
      rw [get_hangLeaf hk hp, if_neg hmk, if_neg hmp] at hm₁
      exact hm₁
    split_ifs at hm₂ with hmU <;> subst hm₂
    · exact h.bestSlotOk_of_takesLeaf hshape hk hp ht hm₀ hcand₁ hmU hmp
    · exact h.bestSlotOk_of_not_takesLeaf hshape hk hp ht hm₀ hcand₁ hmU hmp
  · -- a best slot that changed is the leaf, below every block of the prefix
    have hiso : ∀ a b, fc₂.isStrictAncestor a b = (fc.hangLeaf k p).isStrictAncestor a b :=
      fun a b => by
        unfold isStrictAncestor
        rw [hsame.sameTree.ancestors]
    obtain ⟨info₁, hm₁⟩ := hsame.sameTree.exists_get hm₂
    rw [ht.get m info₁ hm₁, Option.some.injEq] at hm₂
    subst hm₂
    rw [hiso]
    split_ifs with hmU
    · right
      rw [hshape₁.isStrictAncestor_iff]
      exact ((ht.mem m).mp hmU).1.trans_isAncestor (Relation.TransGen.single hkp)
    · exact h.below_hangLeaf hshape hk hp hm₁
  · obtain ⟨rinfo, hroot, -⟩ := hshape.root
    rw [hsame.treeRoot, hsame.isCandidate]
    show (fc.hangLeaf k p).isCandidate fc.treeRoot = some true
    rw [(sameChoice_hangLeaf (ne_leaf_of_get hk hroot)).1]
    exact h.root

include hshape hslot in
/-- `add_new_leaf_slot` of a new block keeps the best slots, whether the leaf is its parent's
heaviest child or not. -/
theorem BestSlots.addNewLeafSlot (h : BestSlots fc)
    (hadd : fc.addNewLeafSlot k (some p) = some fc') : BestSlots fc' := by
  have hshape₁ : Shape (fc.hangLeaf k p) := hshape.hangLeaf hk hp hslot
  rw [addNewLeafSlot_eq hk hp] at hadd
  unfold propagateNewLeaf at hadd
  rw [bestSlot_of_get (get_hangLeaf_parent hk hp)] at hadd
  simp only [Option.bind_eq_bind, Option.bind_some] at hadd
  obtain ⟨r, hr⟩ := Option.isSome_iff_exists.mp
    (hshape₁.isBestChild_isSome (by rw [get_hangLeaf_leaf hk hp]; rfl))
  rw [hr, Option.bind_some] at hadd
  -- the second loop writes deepest slots and heights only
  have hdeep : ∀ {fc₂ : HeaviestSubtreeForkChoice}, BestSlots fc₂ →
      fc₂.propagateDeepestSlot k (p :: (fc.hangLeaf k p).ancestors p) k 1 = some fc' →
      BestSlots fc' :=
    fun h₂ hd => h₂.congr (sameFrame_propagateDeepestSlot hd) (bestSlot_propagateDeepestSlot hd)
  cases r with
  | false => exact hdeep (h.hangLeaf hshape hk hp hr) hadd
  | true =>
    simp only [if_true] at hadd
    cases hmid : (fc.hangLeaf k p).propagateBestSlot k pinfo.bestSlot
        (p :: (fc.hangLeaf k p).ancestors p) with
    | none => rw [hmid] at hadd; cases hadd
    | some fc₂ =>
      rw [hmid, Option.bind_some] at hadd
      exact hdeep (h.propagateBestSlot hshape hk hp hslot hr hmid) hadd

end Leaf

end HeaviestSubtreeForkChoice

end Agave.Consensus
