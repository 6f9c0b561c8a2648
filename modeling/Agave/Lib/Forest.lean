import Mathlib

/-!
# Forests given by parent pointers

A forest whose nodes carry an order in which every parent is smaller than its child, as the
slots of a block tree are. Ancestry is the transitive closure of the step from a node to its
parent. Because a node has one parent, the ancestors of a node form a chain, and on that chain
ancestry agrees with the order (`isAncestor_of_lt`): of two ancestors of a node, the smaller is
an ancestor of the larger.

Over a well-founded order every node reaches a root, and `depth` counts the parent steps it takes.
-/

/-- A forest given by a parent function, each parent below its child. -/
structure Forest (α : Type*) [Preorder α] where
  parent : α → Option α
  parent_lt : ∀ {a p : α}, parent a = some p → p < a

namespace Forest

variable {α : Type*} [Preorder α]

/-- The step towards the roots: `p` is the parent of `a`. -/
def ParentOf (F : Forest α) (a p : α) : Prop := F.parent a = some p

/-- `a` is a strict ancestor of `b`. -/
def IsAncestor (F : Forest α) (a b : α) : Prop := Relation.TransGen F.ParentOf b a

/-- `a` is `b` or an ancestor of `b`. -/
def IsAncestorOrSelf (F : Forest α) (a b : α) : Prop := Relation.ReflTransGen F.ParentOf b a

variable {F : Forest α} {a b c : α}

theorem parentOf_rightUnique : Relator.RightUnique F.ParentOf := by
  intro a p q hp hq
  exact Option.some.inj (hp.symm.trans hq)

theorem IsAncestor.lt (h : F.IsAncestor a b) : a < b := by
  induction h with
  | single hp => exact F.parent_lt hp
  | tail _ hp ih => exact (F.parent_lt hp).trans ih

theorem IsAncestor.isAncestorOrSelf (h : F.IsAncestor a b) : F.IsAncestorOrSelf a b :=
  Relation.TransGen.to_reflTransGen h

theorem IsAncestorOrSelf.refl (a : α) : F.IsAncestorOrSelf a a := Relation.ReflTransGen.refl

theorem isAncestorOrSelf_iff : F.IsAncestorOrSelf a b ↔ a = b ∨ F.IsAncestor a b :=
  Relation.reflTransGen_iff_eq_or_transGen

theorem IsAncestorOrSelf.le (h : F.IsAncestorOrSelf a b) : a ≤ b := by
  rcases isAncestorOrSelf_iff.mp h with rfl | h
  · exact le_rfl
  · exact h.lt.le

theorem IsAncestor.trans (hab : F.IsAncestor a b) (hbc : F.IsAncestor b c) : F.IsAncestor a c :=
  Relation.TransGen.trans hbc hab

theorem IsAncestor.trans_isAncestorOrSelf (hab : F.IsAncestor a b)
    (hbc : F.IsAncestorOrSelf b c) : F.IsAncestor a c :=
  Relation.TransGen.trans_right hbc hab

theorem IsAncestorOrSelf.trans_isAncestor (hab : F.IsAncestorOrSelf a b)
    (hbc : F.IsAncestor b c) : F.IsAncestor a c :=
  Relation.TransGen.trans_left hbc hab

theorem IsAncestorOrSelf.trans (hab : F.IsAncestorOrSelf a b) (hbc : F.IsAncestorOrSelf b c) :
    F.IsAncestorOrSelf a c :=
  Relation.ReflTransGen.trans hbc hab

/-- The ancestors of a node form a chain. -/
theorem IsAncestorOrSelf.total (ha : F.IsAncestorOrSelf a c) (hb : F.IsAncestorOrSelf b c) :
    F.IsAncestorOrSelf a b ∨ F.IsAncestorOrSelf b a :=
  Relation.ReflTransGen.total_of_right_unique parentOf_rightUnique hb ha

/-- Of two ancestors of a node, the smaller is an ancestor of the larger. -/
theorem isAncestor_of_lt (ha : F.IsAncestorOrSelf a c) (hb : F.IsAncestorOrSelf b c)
    (hlt : a < b) : F.IsAncestor a b := by
  rcases ha.total hb with hab | hba
  · rcases isAncestorOrSelf_iff.mp hab with rfl | hab
    · exact absurd hlt (lt_irrefl a)
    · exact hab
  · -- `b` below `a` would put `b` under `a` in the order as well
    exact absurd (hlt.trans_le hba.le) (lt_irrefl a)

/-! ### Subtrees

The subtree of `a` is `a` itself and the subtrees of its children, and the children's subtrees are
disjoint: a node strictly below `a` is below exactly one child of `a`. So a weight summed over a
subtree is the node's own weight and its children's subtree sums (`ite_isAncestorOrSelf_eq`). -/

/-- A strict ancestor of a node is its parent or an ancestor of the parent. -/
theorem IsAncestor.isAncestorOrSelf_of_parentOf {p : α} (h : F.IsAncestor a b)
    (hp : F.ParentOf b p) : F.IsAncestorOrSelf a p := by
  obtain ⟨d, hd, hda⟩ := Relation.TransGen.head'_iff.mp h
  rwa [parentOf_rightUnique hd hp] at hda

/-- A node is in the subtree of none of its children. -/
theorem not_isAncestorOrSelf_of_parentOf (hc : F.ParentOf c a) : ¬F.IsAncestorOrSelf c a :=
  fun h => lt_irrefl a ((F.parent_lt hc).trans_le h.le)

/-- A node of the subtree of `a` is `a` or a node of the subtree of a child of `a`. -/
theorem isAncestorOrSelf_iff_eq_or_child :
    F.IsAncestorOrSelf a b ↔ a = b ∨ ∃ c, F.ParentOf c a ∧ F.IsAncestorOrSelf c b := by
  unfold IsAncestorOrSelf
  rw [Relation.ReflTransGen.cases_tail_iff]
  constructor
  · rintro (rfl | ⟨c, hbc, hca⟩)
    · exact .inl rfl
    · exact .inr ⟨c, hca, hbc⟩
  · rintro (rfl | ⟨c, hca, hbc⟩)
    · exact .inl rfl
    · exact .inr ⟨c, hbc, hca⟩

/-- Two children of a node share no node of their subtrees. -/
theorem eq_of_parentOf_of_isAncestorOrSelf {c' : α} (hc : F.ParentOf c a) (hc' : F.ParentOf c' a)
    (hb : F.IsAncestorOrSelf c b) (hb' : F.IsAncestorOrSelf c' b) : c = c' := by
  -- one is above the other on the way up from `b`; strictly above would put it at or above `a`
  rcases hb.total hb' with h | h
  · rcases isAncestorOrSelf_iff.mp h with h | h
    · exact h
    · exact absurd (h.isAncestorOrSelf_of_parentOf hc') (not_isAncestorOrSelf_of_parentOf hc)
  · rcases isAncestorOrSelf_iff.mp h with h | h
    · exact h.symm
    · exact absurd (h.isAncestorOrSelf_of_parentOf hc) (not_isAncestorOrSelf_of_parentOf hc')

/-- On the way up from `x`, a node above the parent of `c` is at or above `c`. -/
theorem IsAncestorOrSelf.le_of_parentOf_lt {x m : α} (hb : F.IsAncestorOrSelf b x)
    (hc : F.IsAncestorOrSelf c x) (hp : F.ParentOf c m) (hlt : m < b) : c ≤ b := by
  rcases hb.total hc with hbc | hcb
  · -- `b` strictly above `c` would be at or above its parent `m`
    rcases isAncestorOrSelf_iff.mp hbc with rfl | hbc
    · exact le_rfl
    · exact absurd hlt (not_lt_of_ge (hbc.isAncestorOrSelf_of_parentOf hp).le)
  · exact hcb.le

/-- Of the children of an ancestor `m` of `p`, the one whose subtree meets the subtree of `p` is
on the way from `m` down to `p`. -/
theorem IsAncestor.isAncestorOrSelf_of_child {m p x : α} (hmp : F.IsAncestor m p)
    (hc : F.ParentOf c m) (hcx : F.IsAncestorOrSelf c x) (hpx : F.IsAncestorOrSelf p x) :
    F.IsAncestorOrSelf c p := by
  rcases isAncestorOrSelf_iff_eq_or_child.mp hmp.isAncestorOrSelf with rfl | ⟨d, hd, hdp⟩
  · exact absurd hmp.lt (lt_irrefl m)
  · rwa [eq_of_parentOf_of_isAncestorOrSelf hc hd hcx (hdp.trans hpx)]

/-- Weighing `b` in the subtree of `a`: its weight `m` counts at `a` itself, or in the subtree of
exactly one child of `a`, or nowhere. `P` decides the subtree relation towards `b`, and `cs` lists
the children of `a`. -/
theorem ite_isAncestorOrSelf_eq [DecidableEq α] {M : Type*} [AddCommMonoid M] {P : α → Prop}
    [DecidablePred P]
    (hP : ∀ x, P x ↔ F.IsAncestorOrSelf x b) {cs : List α} (hnodup : cs.Nodup)
    (hcs : ∀ c, c ∈ cs ↔ F.ParentOf c a) (m : M) :
    (if P a then m else 0) = (if b = a then m else 0) + (cs.map fun c => if P c then m else 0).sum := by
  -- no child's subtree holds `a`
  have hnot : ∀ c ∈ cs, ¬F.IsAncestorOrSelf c a := fun c hc =>
    not_isAncestorOrSelf_of_parentOf ((hcs c).mp hc)
  by_cases ha : P a
  · rcases isAncestorOrSelf_iff_eq_or_child.mp ((hP a).mp ha) with rfl | ⟨c₀, hc₀, hb⟩
    · -- `b` is `a`: no child counts it
      have hzero : ∀ c ∈ cs, (if P c then m else 0) = 0 := fun c hc =>
        if_neg fun h => hnot c hc ((hP c).mp h)
      rw [if_pos ha, if_pos rfl, List.map_congr_left hzero]
      simp
    · -- `b` is below the child `c₀` and no other
      have hne : b ≠ a := by
        rintro rfl
        exact not_isAncestorOrSelf_of_parentOf hc₀ hb
      have hone : ∀ c ∈ cs, (if P c then m else 0) = if c = c₀ then m else 0 := fun c hc => by
        refine if_congr ⟨fun h => ?_, fun h => h ▸ (hP c₀).mpr hb⟩ rfl rfl
        exact eq_of_parentOf_of_isAncestorOrSelf ((hcs c).mp hc) hc₀ ((hP c).mp h) hb
      rw [if_pos ha, if_neg hne, List.map_congr_left hone, ← List.sum_toFinset _ hnodup,
        Finset.sum_ite_eq', if_pos (List.mem_toFinset.mpr ((hcs c₀).mpr hc₀)), zero_add]
  · -- `b` is outside the subtree of `a`, so outside every child's
    have hne : b ≠ a := fun h => ha ((hP a).mpr (h ▸ IsAncestorOrSelf.refl b))
    have hzero : ∀ c ∈ cs, (if P c then m else 0) = 0 := fun c hc => if_neg fun h =>
      ha ((hP a).mpr (isAncestorOrSelf_iff_eq_or_child.mpr (.inr ⟨c, (hcs c).mp hc, (hP c).mp h⟩)))
    rw [if_neg ha, if_neg hne, List.map_congr_left hzero]
    simp

theorem IsAncestorOrSelf.antisymm (hab : F.IsAncestorOrSelf a b) (hba : F.IsAncestorOrSelf b a) :
    a = b := by
  rcases isAncestorOrSelf_iff.mp hab with rfl | hab
  · rfl
  · exact absurd (hab.lt.trans_le hba.le) (lt_irrefl a)

theorem IsAncestorOrSelf.of_parentOf (hc : F.ParentOf c a) : F.IsAncestorOrSelf a c :=
  Relation.ReflTransGen.single hc

/-! ### Avoiding a node

A traversal down from `a` that does not enter the subtree of `r` meets the nodes of the subtree of
`a` whose way down from `a` does not pass `r`. -/

/-- `b` is in the subtree of `a`, and the way down from `a` to `b` does not pass `r`. -/
def ReachesAvoiding (F : Forest α) (r a b : α) : Prop :=
  F.IsAncestorOrSelf a b ∧ ¬(F.IsAncestorOrSelf a r ∧ F.IsAncestorOrSelf r b)

theorem not_reachesAvoiding_self (r b : α) : ¬F.ReachesAvoiding r r b :=
  fun h => h.2 ⟨.refl r, h.1⟩

/-- Down from a node other than `r`: the node itself, or down from one of its children. -/
theorem reachesAvoiding_iff {r : α} (hne : a ≠ r) :
    F.ReachesAvoiding r a b ↔ a = b ∨ ∃ c, F.ParentOf c a ∧ F.ReachesAvoiding r c b := by
  constructor
  · rintro ⟨hab, hnot⟩
    rcases isAncestorOrSelf_iff_eq_or_child.mp hab with rfl | ⟨c, hc, hcb⟩
    · exact .inl rfl
    · -- `r` between the child and `b` would be between `a` and `b`
      exact .inr ⟨c, hc, hcb, fun ⟨hcr, hrb⟩ =>
        hnot ⟨(IsAncestorOrSelf.of_parentOf hc).trans hcr, hrb⟩⟩
  · rintro (rfl | ⟨c, hc, hcb, hnot⟩)
    · exact ⟨.refl a, fun ⟨har, hra⟩ => hne (har.antisymm hra)⟩
    · refine ⟨(IsAncestorOrSelf.of_parentOf hc).trans hcb, fun ⟨har, hrb⟩ => hnot ⟨?_, hrb⟩⟩
      -- `r` strictly below `a` and above `b` is at or below the child on the way to `b`
      rcases isAncestorOrSelf_iff.mp har with rfl | har
      · exact absurd rfl hne
      · exact har.isAncestorOrSelf_of_child hc hcb hrb

/-! ### Subtree sizes -/

open Classical in
/-- The number of nodes of `nodes` in the subtree of `a`. -/
noncomputable def subtreeCount (F : Forest α) (nodes : List α) (a : α) : Nat :=
  (nodes.map fun b => if F.IsAncestorOrSelf a b then 1 else 0).sum

theorem subtreeCount_pos {nodes : List α} (ha : a ∈ nodes) : 0 < F.subtreeCount nodes a := by
  classical
  have hmem : 1 ∈ nodes.map fun b => if F.IsAncestorOrSelf a b then 1 else 0 :=
    List.mem_map.mpr ⟨a, ha, if_pos (.refl a)⟩
  exact List.le_sum_of_mem hmem

theorem subtreeCount_le_length (nodes : List α) (a : α) :
    F.subtreeCount nodes a ≤ nodes.length := by
  classical
  have hle := List.sum_le_card_nsmul (nodes.map fun b => if F.IsAncestorOrSelf a b then 1 else 0) 1
    fun x hx => by
      obtain ⟨b, -, rfl⟩ := List.mem_map.mp hx
      split <;> omega
  simpa [subtreeCount] using hle

/-- A node's subtree is the node and its children's subtrees. -/
theorem subtreeCount_eq {nodes cs : List α} (hnodes : nodes.Nodup) (ha : a ∈ nodes)
    (hcs : cs.Nodup) (hch : ∀ c, c ∈ cs ↔ F.ParentOf c a) :
    F.subtreeCount nodes a = 1 + (cs.map (F.subtreeCount nodes)).sum := by
  classical
  unfold subtreeCount
  -- one node at a time, by the disjoint subtrees of the children
  have hb : ∀ b, (if F.IsAncestorOrSelf a b then 1 else 0) =
      (if b = a then 1 else 0) + (cs.map fun c => if F.IsAncestorOrSelf c b then 1 else 0).sum :=
    fun b => ite_isAncestorOrSelf_eq (fun x => Iff.rfl) hcs hch 1
  rw [List.map_congr_left fun b _ => hb b, List.sum_map_add]
  congr 1
  · rw [← List.sum_toFinset _ hnodes, Finset.sum_ite_eq', if_pos (List.mem_toFinset.mpr ha)]
  · -- the double sum, nodes outside and children inside, turned around
    have hswap := Multiset.sum_map_sum_map (nodes : Multiset α) (cs : Multiset α)
      (f := fun b c => if F.IsAncestorOrSelf c b then 1 else 0)
    simpa using hswap

/-! ### Depth -/

section Depth

/-- The number of parent steps from a node up to the root of its tree. -/
def depth [WellFoundedLT α] (F : Forest α) (a : α) : Nat :=
  match h : F.parent a with
  | none => 0
  | some p => F.depth p + 1
termination_by (wellFounded_lt (α := α)).wrap a
decreasing_by exact F.parent_lt h

variable [WellFoundedLT α] {p : α}

theorem depth_of_parent_eq_none (h : F.parent a = none) : F.depth a = 0 := by
  rw [depth]
  split <;> simp_all

theorem depth_of_parent_eq_some (h : F.parent a = some p) : F.depth a = F.depth p + 1 := by
  rw [depth]
  split <;> simp_all

end Depth

/-! ### Walking up the parent pointers

A program walks from a node up its parent pointers until a node has none. Bounded by `fuel`
steps the walk always ends; when the fuel is at least the node's depth the bound is never met
(`walk_congr_fuel`), and when every node on the way is in a list of nodes, the list's length is
such a bound (`depth_lt_length`). -/

section Walk

/-- The nodes met walking up from `a` by `parent`, at most `fuel` of them. -/
def walk (parent : α → Option α) : Nat → α → List α
  | 0, _ => []
  | fuel + 1, a =>
    match parent a with
    | none => []
    | some p => p :: walk parent fuel p

theorem walk_succ_of_parent_eq_none {fuel : Nat} (h : F.parent a = none) :
    walk F.parent (fuel + 1) a = [] := by
  simp [walk, h]

theorem walk_succ_of_parent_eq_some {fuel : Nat} {p : α} (h : F.parent a = some p) :
    walk F.parent (fuel + 1) a = p :: walk F.parent fuel p := by
  simp [walk, h]

/-- A walk reads the parent pointers of the nodes it meets only. -/
theorem walk_congr {parent' : α → Option α} {fuel : Nat}
    (h : ∀ x ∈ a :: walk F.parent fuel a, parent' x = F.parent x) :
    walk parent' fuel a = walk F.parent fuel a := by
  induction fuel generalizing a with
  | zero => rfl
  | succ fuel ih =>
    have ha := h a List.mem_cons_self
    cases hp : F.parent a with
    | none => simp [walk, ha, hp]
    | some p =>
      rw [walk_succ_of_parent_eq_some hp] at h
      simp only [walk, ha, hp]
      exact congrArg (p :: ·) (ih fun x hx => h x (List.mem_cons_of_mem _ hx))

/-- Each node met is an ancestor. -/
theorem isAncestor_of_mem_walk {fuel : Nat} (h : b ∈ walk F.parent fuel a) : F.IsAncestor b a := by
  induction fuel generalizing a with
  | zero => simp [walk] at h
  | succ fuel ih =>
    cases hp : F.parent a with
    | none => simp [walk_succ_of_parent_eq_none hp] at h
    | some p =>
      rw [walk_succ_of_parent_eq_some hp, List.mem_cons] at h
      rcases h with rfl | h
      · exact Relation.TransGen.single hp
      · exact (ih h).trans (Relation.TransGen.single hp)

/-- The nodes met descend in the order, each below the one before. -/
theorem pairwise_walk (fuel : Nat) (a : α) : (a :: walk F.parent fuel a).Pairwise (· > ·) := by
  induction fuel generalizing a with
  | zero => simp [walk]
  | succ fuel ih =>
    cases hp : F.parent a with
    | none => simp [walk_succ_of_parent_eq_none hp]
    | some p =>
      rw [walk_succ_of_parent_eq_some hp, List.pairwise_cons]
      refine ⟨fun b hb => ?_, ih p⟩
      rcases List.mem_cons.mp hb with rfl | hb
      · exact F.parent_lt hp
      · exact ((isAncestor_of_mem_walk hb).trans (Relation.TransGen.single hp)).lt

/-- A walk from a node of a parent-closed list of nodes stays in the list. -/
theorem walk_subset {nodes : List α} (hclosed : ∀ b ∈ nodes, ∀ p, F.parent b = some p → p ∈ nodes)
    {fuel : Nat} (ha : a ∈ nodes) : ∀ b ∈ walk F.parent fuel a, b ∈ nodes := by
  induction fuel generalizing a with
  | zero => simp [walk]
  | succ fuel ih =>
    cases hp : F.parent a with
    | none => simp [walk_succ_of_parent_eq_none hp]
    | some p =>
      have hp' := hclosed a ha p hp
      rw [walk_succ_of_parent_eq_some hp]
      exact List.forall_mem_cons.mpr ⟨hp', ih hp'⟩

theorem takeWhile_congr {β : Type*} {l : List β} {P Q : β → Bool} (h : ∀ x ∈ l, P x = Q x) :
    l.takeWhile P = l.takeWhile Q := by
  induction l with
  | nil => rfl
  | cons y ys ih =>
    rw [List.takeWhile_cons, List.takeWhile_cons, h y List.mem_cons_self,
      ih fun x hx => h x (List.mem_cons_of_mem _ hx)]

/-- On a list going down, `takeWhile` keeps exactly the members that pass with every member above
them: a loop up a walk that stops at the first node failing a test has changed those. -/
theorem mem_takeWhile_iff_of_pairwise {l : List α} (hl : l.Pairwise (· > ·)) {P : α → Bool} :
    b ∈ l.takeWhile P ↔ b ∈ l ∧ ∀ x ∈ l, b ≤ x → P x = true := by
  induction l with
  | nil => simp
  | cons y ys ih =>
    obtain ⟨hy, hys⟩ := List.pairwise_cons.mp hl
    rw [List.takeWhile_cons]
    cases hPy : P y with
    | true =>
      rw [if_pos rfl, List.mem_cons, ih hys]
      constructor
      · rintro (rfl | ⟨hb, hall⟩)
        · refine ⟨List.mem_cons_self, fun x hx hbx => ?_⟩
          rcases List.mem_cons.mp hx with rfl | hx
          · exact hPy
          · exact absurd (hy x hx) (not_lt_of_ge hbx)
        · refine ⟨List.mem_cons_of_mem _ hb, fun x hx hbx => ?_⟩
          rcases List.mem_cons.mp hx with rfl | hx
          · exact hPy
          · exact hall x hx hbx
      · rintro ⟨hb, hall⟩
        rcases List.mem_cons.mp hb with rfl | hb
        · exact .inl rfl
        · exact .inr ⟨hb, fun x hx hbx => hall x (List.mem_cons_of_mem _ hx) hbx⟩
    | false =>
      simp only [Bool.false_eq_true, if_false, List.not_mem_nil, false_iff, not_and]
      intro hb hall
      -- the head is above every member, so it had to pass
      have hby : b ≤ y := by
        rcases List.mem_cons.mp hb with rfl | hb
        · exact le_rfl
        · exact (hy b hb).le
      exact absurd (hall y List.mem_cons_self hby) (by simp [hPy])

variable [WellFoundedLT α]

/-- With fuel for the node's depth the walk is the whole way up: more fuel changes nothing. -/
theorem walk_eq_walk_depth {m : Nat} (hm : F.depth a ≤ m) :
    walk F.parent m a = walk F.parent (F.depth a) a := by
  induction m generalizing a with
  | zero => rw [show F.depth a = 0 by omega]
  | succ m ih =>
    cases hp : F.parent a with
    | none => rw [depth_of_parent_eq_none hp, walk_succ_of_parent_eq_none hp]; rfl
    | some p =>
      have hdepth := depth_of_parent_eq_some hp
      rw [hdepth, walk_succ_of_parent_eq_some hp, walk_succ_of_parent_eq_some hp,
        ih (by omega)]

theorem walk_congr_fuel {m n : Nat} (hm : F.depth a ≤ m) (hn : F.depth a ≤ n) :
    walk F.parent m a = walk F.parent n a := by
  rw [walk_eq_walk_depth hm, walk_eq_walk_depth hn]

/-- One step of a walk that has the fuel for the whole way. -/
theorem walk_of_parent_eq_some {m : Nat} {p : α} (hm : F.depth a ≤ m) (hp : F.parent a = some p) :
    walk F.parent m a = p :: walk F.parent m p := by
  have hdepth := depth_of_parent_eq_some hp
  obtain ⟨m, rfl⟩ : ∃ m', m = m' + 1 := ⟨m - 1, by omega⟩
  rw [walk_succ_of_parent_eq_some hp, walk_congr_fuel (by omega) (by omega : F.depth p ≤ m + 1)]

/-- With the fuel for the whole way, the walk meets exactly the ancestors. -/
theorem mem_walk_iff {m : Nat} (hm : F.depth a ≤ m) : b ∈ walk F.parent m a ↔ F.IsAncestor b a := by
  refine ⟨isAncestor_of_mem_walk, fun h => ?_⟩
  -- from `a` up to `b`, one parent step at a time
  induction h using Relation.TransGen.head_induction_on generalizing m with
  | single hp =>
    rw [walk_of_parent_eq_some hm hp]
    exact List.mem_cons_self
  | head hp _ ih =>
    have hdepth := depth_of_parent_eq_some hp
    rw [walk_of_parent_eq_some hm hp]
    exact List.mem_cons_of_mem _ (ih (by omega))

/-- On the naturals each parent step goes down by one at least, so a node's value bounds its
depth, and a walk of that much fuel meets every ancestor. -/
theorem depth_le_self {F : Forest ℕ} (a : ℕ) : F.depth a ≤ a := by
  induction a using Nat.strong_induction_on with
  | _ a ih =>
    cases hp : F.parent a with
    | none => rw [depth_of_parent_eq_none hp]; exact Nat.zero_le a
    | some p =>
      have hlt : p < a := F.parent_lt hp
      rw [depth_of_parent_eq_some hp]
      have := ih p hlt
      omega

theorem length_walk_depth (a : α) : (walk F.parent (F.depth a) a).length = F.depth a := by
  induction hn : F.depth a generalizing a with
  | zero => rfl
  | succ n ih =>
    cases hp : F.parent a with
    | none => rw [depth_of_parent_eq_none hp] at hn; cases hn
    | some p =>
      rw [depth_of_parent_eq_some hp, Nat.add_right_cancel_iff] at hn
      rw [walk_succ_of_parent_eq_some hp, List.length_cons, ih p hn]

/-- A node of a parent-closed list of nodes is fewer parent steps from its root than the list is
long: the fuel of a walk bounded by the number of nodes never runs out. -/
theorem depth_lt_length {nodes : List α} (ha : a ∈ nodes)
    (hclosed : ∀ b ∈ nodes, ∀ p, F.parent b = some p → p ∈ nodes) : F.depth a < nodes.length := by
  -- the way up from `a` has distinct nodes, all in the list
  have hnodup : (a :: walk F.parent (F.depth a) a).Nodup :=
    (pairwise_walk _ a).imp fun h => ne_of_gt h
  have hsub : a :: walk F.parent (F.depth a) a ⊆ nodes :=
    List.cons_subset.mpr ⟨ha, walk_subset hclosed ha⟩
  have hle := hnodup.length_le_of_subset hsub
  rw [List.length_cons, length_walk_depth] at hle
  omega

end Walk

end Forest
