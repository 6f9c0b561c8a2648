import Agave.Consensus.ForkChoice.Subtree

/-!
# Heaviest-subtree fork choice: the best slot

Where the fork choice has a validator build is the end of a descent: from the root, step into the
heaviest child that is a candidate, ties to the smaller key, until a block has no candidate child
(`HeaviestDescent`). The fork choice never walks that descent. It keeps a best slot in every
block: `aggregate_slot` recomputes a block's from its children's, and `add_new_leaf_slot` hands a
new leaf to the ancestors whose best slot was its parent's. What the stored best slots keep is a
rule local to each block (`BestSlotOk`), with every best slot in its block's subtree and a root
that is a candidate (`BestSlots`); from the rule the descent follows (`BestSlots.heaviestDescent`).

This module states the rule, shows that the loop of `aggregate_slot` writes a best slot that keeps
it (`bestSlotOk_of_foldlM`), and that a batch of `add_votes` keeps `BestSlots`
(`BestSlots.processed`): an aggregated block is recomputed from children whose entries have all
run, and any other block has neither its best slot nor its children's changed.
-/

namespace Agave.Consensus

open Agave.Vote

namespace HeaviestSubtreeForkChoice

variable {fc g : HeaviestSubtreeForkChoice} {k c b : SlotHashKey} {info : ForkInfo}

/-! ### The rule -/

/-- The weight siblings are compared by: the subtree stake, zero off the tree. -/
def subtreeWeight (fc : HeaviestSubtreeForkChoice) (k : SlotHashKey) : Nat :=
  (fc.stakeVotedSubtree k).getD 0

/-- `a` goes before `b` among siblings: heavier, or as heavy with the smaller key. -/
def Heavier (fc : HeaviestSubtreeForkChoice) (a b : SlotHashKey) : Prop :=
  fc.subtreeWeight b < fc.subtreeWeight a ∨ fc.subtreeWeight b = fc.subtreeWeight a ∧ a < b

/-- `c` is the heaviest candidate among `children`. -/
def IsHeaviestChild (fc : HeaviestSubtreeForkChoice) (children : List SlotHashKey)
    (c : SlotHashKey) : Prop :=
  c ∈ children ∧ fc.isCandidate c = some true ∧
    ∀ c' ∈ children, fc.isCandidate c' = some true → c' ≠ c → fc.Heavier c c'

/-- The best slot of a block by the rule: the block itself when none of its children is a
candidate, and the best slot of its heaviest candidate child otherwise. -/
def BestSlotOk (fc : HeaviestSubtreeForkChoice) (k : SlotHashKey) (info : ForkInfo) : Prop :=
  (∀ c ∈ info.children, fc.isCandidate c ≠ some true) ∧ info.bestSlot = k ∨
    ∃ c, fc.IsHeaviestChild info.children c ∧ fc.bestSlot c = some info.bestSlot

/-- What the stored best slots keep: the rule at every candidate block, every best slot in its
block's subtree, and a root that is a candidate. -/
structure BestSlots (fc : HeaviestSubtreeForkChoice) : Prop where
  rule : ∀ k info, fc.get k = some info → info.isCandidate = true → fc.BestSlotOk k info
  below : ∀ k info, fc.get k = some info →
    info.bestSlot = k ∨ fc.isStrictAncestor k info.bestSlot = true
  root : fc.isCandidate fc.treeRoot = some true

/-- From `k`, stepping into the heaviest candidate child while there is one ends at `b`. -/
inductive HeaviestDescent (fc : HeaviestSubtreeForkChoice) : SlotHashKey → SlotHashKey → Prop
  | stop {k : SlotHashKey} {info : ForkInfo} : fc.get k = some info →
      (∀ c ∈ info.children, fc.isCandidate c ≠ some true) → HeaviestDescent fc k k
  | step {k c b : SlotHashKey} {info : ForkInfo} : fc.get k = some info →
      fc.IsHeaviestChild info.children c → HeaviestDescent fc c b → HeaviestDescent fc k b

theorem subtreeWeight_of_get (hk : fc.get k = some info) :
    fc.subtreeWeight k = info.stakeVotedSubtree := by
  simp [subtreeWeight, HeaviestSubtreeForkChoice.stakeVotedSubtree, hk]

theorem isCandidate_of_get (hk : fc.get k = some info) : fc.isCandidate k = some info.isCandidate := by
  simp [HeaviestSubtreeForkChoice.isCandidate, hk]

theorem bestSlot_of_get (hk : fc.get k = some info) : fc.bestSlot k = some info.bestSlot := by
  simp [HeaviestSubtreeForkChoice.bestSlot, hk]

/-! ### The order of siblings -/

theorem Heavier.trans {a : SlotHashKey} (hab : fc.Heavier a b) (hbc : fc.Heavier b c) :
    fc.Heavier a c := by
  unfold Heavier at *
  rcases hab with hab | ⟨hab, hlt⟩ <;> rcases hbc with hbc | ⟨hbc, hlt'⟩
  · exact .inl (hbc.trans hab)
  · exact .inl (hbc ▸ hab)
  · exact .inl (hab ▸ hbc)
  · exact .inr ⟨hbc.trans hab, hlt.trans hlt'⟩

theorem Heavier.asymm {a : SlotHashKey} (h : fc.Heavier a b) : ¬fc.Heavier b a := by
  unfold Heavier at *
  rintro (h' | ⟨h', hlt'⟩) <;> rcases h with h | ⟨h, hlt⟩
  · exact lt_asymm h h'
  · exact absurd h' (h ▸ lt_irrefl _)
  · exact absurd h (h' ▸ lt_irrefl _)
  · exact lt_asymm hlt hlt'

/-- Of two siblings one goes first. -/
theorem heavier_or_heavier {a : SlotHashKey} (hne : a ≠ b) : fc.Heavier a b ∨ fc.Heavier b a := by
  unfold Heavier
  rcases lt_trichotomy (fc.subtreeWeight a) (fc.subtreeWeight b) with h | h | h
  · exact .inr (.inl h)
  · rcases lt_or_gt_of_ne hne with hlt | hlt
    · exact .inl (.inr ⟨h.symm, hlt⟩)
    · exact .inr (.inr ⟨h, hlt⟩)
  · exact .inl (.inl h)

theorem IsHeaviestChild.unique {l : List SlotHashKey} {c' : SlotHashKey}
    (h : fc.IsHeaviestChild l c) (h' : fc.IsHeaviestChild l c') : c = c' := by
  by_contra hne
  exact (h.2.2 c' h'.1 h'.2.1 (Ne.symm hne)).asymm (h'.2.2 c h.1 h.2.1 hne)

/-- The descent is a function of its start. -/
theorem HeaviestDescent.unique {b' : SlotHashKey} (h : fc.HeaviestDescent k b)
    (h' : fc.HeaviestDescent k b') : b = b' := by
  induction h generalizing b' with
  | stop hk hnone =>
    cases h' with
    | stop => rfl
    | step hk' hc _ =>
      rw [hk, Option.some.injEq] at hk'
      subst hk'
      exact absurd hc.2.1 (hnone _ hc.1)
  | step hk hc _ ih =>
    cases h' with
    | stop hk' hnone =>
      rw [hk, Option.some.injEq] at hk'
      subst hk'
      exact absurd hc.2.1 (hnone _ hc.1)
    | step hk' hc' hd' =>
      rw [hk, Option.some.injEq] at hk'
      subst hk'
      exact ih (hc.unique hc' ▸ hd')

/-! ### The rule read from the children -/

/-- What the rule at a parent reads of a child: whether it is a candidate, its weight and its
best slot. -/
def SameChoice (g fc : HeaviestSubtreeForkChoice) (c : SlotHashKey) : Prop :=
  g.isCandidate c = fc.isCandidate c ∧ g.subtreeWeight c = fc.subtreeWeight c ∧
    g.bestSlot c = fc.bestSlot c

theorem sameChoice_of_get_eq (h : g.get c = fc.get c) : SameChoice g fc c := by
  unfold SameChoice HeaviestSubtreeForkChoice.isCandidate subtreeWeight
    HeaviestSubtreeForkChoice.stakeVotedSubtree HeaviestSubtreeForkChoice.bestSlot
  rw [h]
  exact ⟨rfl, rfl, rfl⟩

/-- The heaviest child reads the children's candidacy and weights only. -/
theorem IsHeaviestChild.congr {l : List SlotHashKey} (h : fc.IsHeaviestChild l c)
    (hl : ∀ c ∈ l, g.isCandidate c = fc.isCandidate c ∧ g.subtreeWeight c = fc.subtreeWeight c) :
    g.IsHeaviestChild l c := by
  refine ⟨h.1, (hl c h.1).1.trans h.2.1, fun c' hc' hcand' hne => ?_⟩
  have := h.2.2 c' hc' ((hl c' hc').1.symm.trans hcand') hne
  unfold Heavier at this ⊢
  rwa [(hl c h.1).2, (hl c' hc').2]

/-- The rule at a block reads its children, its best slot and nothing else. -/
theorem BestSlotOk.congr {info' : ForkInfo} (h : fc.BestSlotOk k info)
    (hch : info'.children = info.children) (hbest : info'.bestSlot = info.bestSlot)
    (hc : ∀ c ∈ info.children, SameChoice g fc c) : g.BestSlotOk k info' := by
  rw [BestSlotOk, hch, hbest]
  rcases h with ⟨hnone, hself⟩ | ⟨c, hheavy, hcbest⟩
  · refine .inl ⟨fun c' hc' => ?_, hself⟩
    rw [(hc c' hc').1]
    exact hnone c' hc'
  · refine .inr ⟨c, hheavy.congr fun c' hc' => ⟨(hc c' hc').1, (hc c' hc').2.1⟩, ?_⟩
    rw [(hc c hheavy.1).2.2]
    exact hcbest

/-- By the rule, a best slot is the block itself or a child's best slot. -/
theorem BestSlotOk.eq_or_child (h : fc.BestSlotOk k info) :
    info.bestSlot = k ∨ ∃ c ∈ info.children, fc.bestSlot c = some info.bestSlot := by
  rcases h with ⟨-, hself⟩ | ⟨c, hheavy, hcbest⟩
  · exact .inl hself
  · exact .inr ⟨c, hheavy.1, hcbest⟩

/-- A slot in a child's subtree is strictly below the block. -/
theorem Shape.isStrictAncestor_of_child (h : Shape fc) (hk : fc.get k = some info)
    (hc : c ∈ info.children) (hcb : b = c ∨ fc.isStrictAncestor c b = true) :
    fc.isStrictAncestor k b = true := by
  obtain ⟨-, -, hparent, -⟩ := h.child hk hc
  have hkc : (fc.forest h).IsAncestor k c := Relation.TransGen.single hparent
  rw [h.isStrictAncestor_iff]
  rcases hcb with rfl | hcb
  · exact hkc
  · exact hkc.trans ((h.isStrictAncestor_iff c b).mp hcb)

theorem SameFrame.isCandidate (h : SameFrame fc g) (c : SlotHashKey) :
    g.isCandidate c = fc.isCandidate c := by
  have := congrArg (Option.map fun x => x.2.2.2.1.isNone) (h.frame c)
  simpa [HeaviestSubtreeForkChoice.isCandidate, Option.map_map, Function.comp_def,
    ForkInfo.frame, ForkInfo.isCandidate] using this

theorem SameFrame.subtreeWeight (h : SameFrame fc g) (c : SlotHashKey) :
    g.subtreeWeight c = fc.subtreeWeight c := by
  have := congrArg (Option.map fun x => x.2.1) (h.frame c)
  unfold HeaviestSubtreeForkChoice.subtreeWeight HeaviestSubtreeForkChoice.stakeVotedSubtree
  congr 1
  simpa [Option.map_map, Function.comp_def, ForkInfo.frame] using this

/-- The best slots read the frames and the best slots only: the deepest slots and the heights do
not matter. -/
theorem BestSlots.congr (h : BestSlots fc) (hsame : SameFrame fc g)
    (hbest : ∀ m, g.bestSlot m = fc.bestSlot m) : BestSlots g := by
  have hchoice : ∀ c, SameChoice g fc c := fun c =>
    ⟨hsame.isCandidate c, hsame.subtreeWeight c, hbest c⟩
  -- a block of `g` is one of `fc` with the same frame and best slot
  have hblock : ∀ m info', g.get m = some info' → ∃ info, fc.get m = some info ∧
      info'.children = info.children ∧ info'.bestSlot = info.bestSlot ∧
      info'.isCandidate = info.isCandidate := fun m info' hm => by
    obtain ⟨info, hget, hframe⟩ := hsame.get_eq_some hm
    have hb := hbest m
    rw [bestSlot_of_get hm, bestSlot_of_get hget, Option.some.injEq] at hb
    have hc := hsame.isCandidate m
    rw [isCandidate_of_get hm, isCandidate_of_get hget, Option.some.injEq] at hc
    exact ⟨info, hget, congrArg (·.2.2.1.2) hframe, hb, hc⟩
  refine ⟨fun m info' hm hcand => ?_, fun m info' hm => ?_, ?_⟩
  · obtain ⟨info, hget, hch, hb, hc⟩ := hblock m info' hm
    exact (h.rule m info hget (hc ▸ hcand)).congr hch hb fun c _ => hchoice c
  · obtain ⟨info, hget, -, hb, -⟩ := hblock m info' hm
    rw [hb]
    unfold isStrictAncestor
    rw [hsame.sameTree.ancestors]
    exact h.below m info hget
  · rw [hsame.treeRoot, hsame.isCandidate]
    exact h.root

/-! ### The descent -/

/-- In a tree whose best slots keep the rule, a candidate block's best slot is where the heaviest
descent from it ends. -/
theorem BestSlots.heaviestDescent (h : BestSlots fc) (hshape : Shape fc)
    (hk : fc.get k = some info) (hcand : info.isCandidate = true) :
    fc.HeaviestDescent k info.bestSlot := by
  refine hshape.induction_on_children
    (P := fun k info => info.isCandidate = true → fc.HeaviestDescent k info.bestSlot) ?_ hk hcand
  intro k info hk ih hcand
  rcases h.rule k info hk hcand with ⟨hnone, hbest⟩ | ⟨c, hheavy, hbest⟩
  · rw [hbest]
    exact .stop hk hnone
  · -- the heaviest child is a candidate block, and its descent is the block's
    obtain ⟨cinfo, hcget, -, -⟩ := hshape.child hk hheavy.1
    have hccand : cinfo.isCandidate = true := by
      have := hheavy.2.1
      rwa [isCandidate_of_get hcget, Option.some.injEq] at this
    rw [bestSlot_of_get hcget, Option.some.injEq] at hbest
    exact .step hk hheavy (hbest ▸ ih c hheavy.1 cinfo hcget hccand)

/-! ### The loop of `aggregate_slot` -/

/-- A turn of the loop on the best child: a candidate child takes the place when there is none
yet, or when it is heavier, or as heavy with a smaller key. -/
theorem aggregateChild_best {acc acc' : AggregateState} {child : ForkInfo}
    (hc : fc.get c = some child) (h : fc.aggregateChild k acc c = some acc') :
    if child.isCandidate = true ∧ (acc.bestChildSlotKey = k ∨
        child.stakeVotedSubtree > acc.bestChildStakeVotedSubtree ∨
        (child.stakeVotedSubtree = acc.bestChildStakeVotedSubtree ∧ c < acc.bestChildSlotKey))
    then acc'.bestChildStakeVotedSubtree = child.stakeVotedSubtree ∧ acc'.bestChildSlotKey = c ∧
      acc'.bestSlotHashKey = child.bestSlot
    else acc'.bestChildStakeVotedSubtree = acc.bestChildStakeVotedSubtree ∧
      acc'.bestChildSlotKey = acc.bestChildSlotKey ∧ acc'.bestSlotHashKey = acc.bestSlotHashKey := by
  unfold aggregateChild at h
  simp only [hc, Option.bind_eq_bind, Option.bind_some] at h
  -- the deepest child, matched on last, leaves the best child alone
  split_ifs with hbest
  · rw [if_pos hbest] at h
    split at h <;> (cases h; exact ⟨rfl, rfl, rfl⟩)
  · rw [if_neg hbest] at h
    split at h <;> (cases h; exact ⟨rfl, rfl, rfl⟩)

/-- What the loop knows after the children `done`: no candidate yet, and the block itself in the
best child's place; or their heaviest candidate, its weight and its best slot. -/
def BestSoFar (fc : HeaviestSubtreeForkChoice) (k : SlotHashKey) (done : List SlotHashKey)
    (acc : AggregateState) : Prop :=
  (∀ c ∈ done, fc.isCandidate c ≠ some true) ∧ acc.bestChildSlotKey = k ∧
      acc.bestSlotHashKey = k ∨
    fc.IsHeaviestChild done acc.bestChildSlotKey ∧
      acc.bestChildStakeVotedSubtree = fc.subtreeWeight acc.bestChildSlotKey ∧
      fc.bestSlot acc.bestChildSlotKey = some acc.bestSlotHashKey

theorem BestSoFar.init (s : Nat) : fc.BestSoFar k [] (AggregateState.init k s) :=
  .inl ⟨fun _ hc => absurd hc List.not_mem_nil, rfl, rfl⟩

/-- One turn of the loop, on a child other than the block. -/
theorem BestSoFar.aggregateChild {done : List SlotHashKey} {acc acc' : AggregateState}
    (h : fc.BestSoFar k done acc) (hdone : ∀ c ∈ done, c ≠ k) (hck : c ≠ k) {child : ForkInfo}
    (hc : fc.get c = some child) (hstep : fc.aggregateChild k acc c = some acc') :
    fc.BestSoFar k (done ++ [c]) acc' := by
  have hturn := aggregateChild_best hc hstep
  have hw : fc.subtreeWeight c = child.stakeVotedSubtree := subtreeWeight_of_get hc
  have hcand : fc.isCandidate c = some child.isCandidate := isCandidate_of_get hc
  rcases h with ⟨hnone, hkey, hbest⟩ | ⟨hheavy, hweight, hbest⟩
  · -- no candidate among `done`: a candidate child is the first
    by_cases hcc : child.isCandidate = true
    · rw [if_pos ⟨hcc, .inl hkey⟩] at hturn
      obtain ⟨hw', hkey', hbest'⟩ := hturn
      refine .inr ⟨⟨?_, ?_, fun c' hc' hcand' hne => ?_⟩, ?_, ?_⟩
      · rw [hkey']
        exact List.mem_append_right _ (List.mem_singleton_self c)
      · rw [hkey', hcand, hcc]
      · rcases List.mem_append.mp hc' with hc' | hc'
        · exact absurd hcand' (hnone c' hc')
        · exact absurd (List.mem_singleton.mp hc') (hkey' ▸ hne)
      · rw [hw', hkey', hw]
      · rw [hkey', bestSlot_of_get hc, hbest']
    · rw [if_neg fun h => hcc h.1] at hturn
      obtain ⟨-, hkey', hbest'⟩ := hturn
      refine .inl ⟨fun c' hc' => ?_, hkey'.trans hkey, hbest'.trans hbest⟩
      rcases List.mem_append.mp hc' with hc' | hc'
      · exact hnone c' hc'
      · rw [List.mem_singleton.mp hc', hcand]
        simpa using hcc
  · -- a heaviest candidate `acc.bestChildSlotKey` among `done`, never the block itself
    have hbk : acc.bestChildSlotKey ≠ k := hdone _ hheavy.1
    by_cases hwin : child.isCandidate = true ∧
        (child.stakeVotedSubtree > acc.bestChildStakeVotedSubtree ∨
          (child.stakeVotedSubtree = acc.bestChildStakeVotedSubtree ∧ c < acc.bestChildSlotKey))
    · rw [if_pos ⟨hwin.1, .inr hwin.2⟩] at hturn
      obtain ⟨hw', hkey', hbest'⟩ := hturn
      have hcb : fc.Heavier c acc.bestChildSlotKey := by
        unfold Heavier
        rw [← hweight, hw]
        rcases hwin.2 with hgt | ⟨heq, hlt⟩
        · exact .inl hgt
        · exact .inr ⟨heq.symm, hlt⟩
      refine .inr ⟨⟨?_, ?_, fun c' hc' hcand' hne => ?_⟩, ?_, ?_⟩
      · rw [hkey']
        exact List.mem_append_right _ (List.mem_singleton_self c)
      · rw [hkey', hcand, hwin.1]
      · rw [hkey'] at hne ⊢
        rcases List.mem_append.mp hc' with hc' | hc'
        · by_cases hcb' : c' = acc.bestChildSlotKey
          · exact hcb' ▸ hcb
          · exact hcb.trans (hheavy.2.2 c' hc' hcand' hcb')
        · exact absurd (List.mem_singleton.mp hc') hne
      · rw [hw', hkey', hw]
      · rw [hkey', bestSlot_of_get hc, hbest']
    · rw [if_neg fun h => hwin ⟨h.1, h.2.resolve_left hbk⟩] at hturn
      obtain ⟨hw', hkey', hbest'⟩ := hturn
      unfold BestSoFar
      rw [hw', hkey', hbest']
      refine .inr ⟨⟨List.mem_append_left _ hheavy.1, hheavy.2.1, fun c' hc' hcand' hne => ?_⟩,
        hweight, hbest⟩
      rcases List.mem_append.mp hc' with hc' | hc'
      · exact hheavy.2.2 c' hc' hcand' hne
      · -- the new child lost to the best so far
        obtain rfl := List.mem_singleton.mp hc'
        have hcc : child.isCandidate = true := by
          rw [hcand, Option.some.injEq] at hcand'
          exact hcand'
        have hlose : ¬(child.stakeVotedSubtree > acc.bestChildStakeVotedSubtree ∨
            (child.stakeVotedSubtree = acc.bestChildStakeVotedSubtree ∧
              c' < acc.bestChildSlotKey)) := fun h => hwin ⟨hcc, h⟩
        rcases @heavier_or_heavier fc _ _ hne with hwins | hloses
        · unfold Heavier at hwins
          rw [← hweight, hw] at hwins
          rcases hwins with hgt | ⟨heq, hlt⟩
          · exact absurd (.inl hgt) hlose
          · exact absurd (.inr ⟨heq.symm, hlt⟩) hlose
        · exact hloses

/-- The whole loop over children other than the block, all in the tree. -/
theorem BestSoFar.foldlM {done rest : List SlotHashKey} {acc acc' : AggregateState}
    (h : fc.BestSoFar k done acc) (hdone : ∀ c ∈ done, c ≠ k)
    (hrest : ∀ c ∈ rest, c ≠ k ∧ (fc.get c).isSome)
    (hfold : rest.foldlM (fc.aggregateChild k) acc = some acc') :
    fc.BestSoFar k (done ++ rest) acc' := by
  induction rest generalizing done acc with
  | nil =>
    cases hfold
    simpa using h
  | cons c rest ih =>
    obtain ⟨hck, hsome⟩ := hrest c List.mem_cons_self
    obtain ⟨child, hc⟩ := Option.isSome_iff_exists.mp hsome
    rw [List.foldlM_cons] at hfold
    obtain ⟨acc₁, hstep, hfold'⟩ := Option.bind_eq_some_iff.mp hfold
    have hdone' : ∀ c' ∈ done ++ [c], c' ≠ k := fun c' hc' => by
      rcases List.mem_append.mp hc' with hc' | hc'
      · exact hdone c' hc'
      · exact List.mem_singleton.mp hc' ▸ hck
    have := ih (h.aggregateChild hdone hck hc hstep) hdone'
      (fun c' hc' => hrest c' (List.mem_cons_of_mem _ hc')) hfold'
    simpa using this

/-- The best slot `aggregate_slot` writes keeps the rule. -/
theorem bestSlotOk_of_foldlM {s : Nat} {acc : AggregateState} {i : ForkInfo}
    (hchildren : ∀ c ∈ i.children, c ≠ k ∧ (fc.get c).isSome)
    (hfold : i.children.foldlM (fc.aggregateChild k) (AggregateState.init k s) = some acc) :
    fc.BestSlotOk k (acc.apply i) := by
  have hchildren' : (acc.apply i).children = i.children :=
    congrArg Prod.snd (acc.links_apply i)
  have hbest : (acc.apply i).bestSlot = acc.bestSlotHashKey := rfl
  have hsofar := (BestSoFar.init s).foldlM (fun _ hc => absurd hc List.not_mem_nil) hchildren hfold
  rw [List.nil_append] at hsofar
  rw [BestSlotOk, hchildren', hbest]
  rcases hsofar with ⟨hnone, -, hself⟩ | ⟨hheavy, -, hcbest⟩
  · exact .inl ⟨hnone, hself⟩
  · exact .inr ⟨_, hheavy, hcbest⟩

theorem AggregateState.latestInvalidAncestor_apply (acc : AggregateState) (i : ForkInfo) :
    (acc.apply i).latestInvalidAncestor =
      if acc.isDuplicateConfirmed then none else i.latestInvalidAncestor := by
  unfold AggregateState.apply ForkInfo.setDuplicateConfirmed
  split <;> rfl

/-! ### A batch of `add_votes` -/

section Batch

variable {ops : UpdateOperations}

/-- A block after a closed batch: as it was, with its best slot, its candidacy and its children's
blocks unchanged; or recomputed by its `Aggregate`, keeping the rule, and a candidate if it was. -/
theorem Processed.best (hshape : Shape fc) (hP : Processed fc ops g) (hclosed : Closed fc ops)
    {info' : ForkInfo} (hk' : g.get k = some info') :
    ∃ info, fc.get k = some info ∧ info'.children = info.children ∧
      (info'.bestSlot = info.bestSlot ∧ info'.latestInvalidAncestor = info.latestInvalidAncestor ∧
          (∀ c ∈ info.children, g.get c = fc.get c) ∨
        g.BestSlotOk k info' ∧
          (info.latestInvalidAncestor = none → info'.latestInvalidAncestor = none)) := by
  obtain ⟨info, hk⟩ := hP.sameTree.exists_get hk'
  have hshapeg : Shape g := hshape.sameTree hP.sameTree
  by_cases hin : ∃ e ∈ ops, e.1.node = k
  · obtain ⟨info'', hget, hch, -, haggT, haggF⟩ := hP.touched k info hk hin
    rw [hk', Option.some.injEq] at hget
    subst hget
    refine ⟨info, hk, hch, ?_⟩
    cases hagg : aggregates ops k
    · -- stake changes only
      obtain ⟨-, hbest, hinv⟩ := haggF hagg
      exact .inl ⟨hbest, hinv, fun c hc => hP.get_child hshape hclosed hk hagg hc⟩
    · -- recomputed from the children as they are now
      obtain ⟨i, acc, hfold, hinfo, hinv⟩ := haggT hagg
      subst hinfo
      have hchildren' : (acc.apply i).children = i.children :=
        congrArg Prod.snd (acc.links_apply i)
      rw [hchildren'] at hfold
      have hchildren : ∀ c ∈ i.children, c ≠ k ∧ (g.get c).isSome := fun c hc => by
        obtain ⟨cinfo, hcget, -, hkc⟩ := hshapeg.child hk' (hchildren' ▸ hc)
        exact ⟨ne_of_gt hkc, by simp [hcget]⟩
      refine .inr ⟨bestSlotOk_of_foldlM hchildren hfold, fun hnone => ?_⟩
      rw [acc.latestInvalidAncestor_apply, hinv, hnone]
      split <;> rfl
  · -- no entry at the block, so none at its children
    simp only [not_exists, not_and] at hin
    rw [hP.untouched k hin, hk, Option.some.injEq] at hk'
    subst hk'
    exact ⟨info, hk, rfl, .inl ⟨rfl, rfl, fun c hc =>
      hP.get_child hshape hclosed hk (aggregates_of_forall_ne hin) hc⟩⟩

/-- A closed batch of `add_votes` keeps the best slots. -/
theorem BestSlots.processed (h : BestSlots fc) (hshape : Shape fc) (hP : Processed fc ops g)
    (hclosed : Closed fc ops) : BestSlots g := by
  have hshapeg : Shape g := hshape.sameTree hP.sameTree
  refine ⟨fun k info' hk' hcand => ?_, fun k info' hk' => ?_, ?_⟩
  · obtain ⟨info, hk, hch, ⟨hbest, hinv, hc⟩ | ⟨hok, -⟩⟩ := hP.best hshape hclosed hk'
    · have hcand₀ : info.isCandidate = true := by
        unfold ForkInfo.isCandidate at hcand ⊢
        rwa [← hinv]
      exact (h.rule k info hk hcand₀).congr hch hbest fun c hc' => sameChoice_of_get_eq (hc c hc')
    · exact hok
  · -- down the tree of `g`: a recomputed best slot is the block's or a child's
    refine hshapeg.induction_on_children
      (P := fun k info' => info'.bestSlot = k ∨ g.isStrictAncestor k info'.bestSlot = true) ?_ hk'
    intro k info' hk' ih
    obtain ⟨info, hk, -, ⟨hbest, -, -⟩ | ⟨hok, -⟩⟩ := hP.best hshape hclosed hk'
    · rw [hbest]
      unfold isStrictAncestor
      rw [hP.sameTree.ancestors]
      exact h.below k info hk
    · rcases hok.eq_or_child with hself | ⟨c, hc, hcbest⟩
      · exact .inl hself
      · obtain ⟨cinfo, hcget, -, -⟩ := hshapeg.child hk' hc
        rw [bestSlot_of_get hcget, Option.some.injEq] at hcbest
        exact .inr (hshapeg.isStrictAncestor_of_child hk' hc (hcbest ▸ ih c hc cinfo hcget))
  · -- the root stays a candidate
    obtain ⟨rinfo, hroot, -⟩ := hshapeg.root
    obtain ⟨info, hk, -, ⟨-, hinv, -⟩ | ⟨-, hinv⟩⟩ := hP.best hshape hclosed hroot <;>
    · have hcand := h.root
      rw [← hP.sameTree.treeRoot, isCandidate_of_get hk, Option.some.injEq] at hcand
      rw [isCandidate_of_get hroot]
      unfold ForkInfo.isCandidate at hcand ⊢
      rw [Option.isNone_iff_eq_none] at hcand
      first
        | rw [hinv, hcand]; rfl
        | rw [hinv hcand]; rfl

end Batch

end HeaviestSubtreeForkChoice

end Agave.Consensus
