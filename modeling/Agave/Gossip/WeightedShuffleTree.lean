import Agave.Gossip.WeightedShuffle

/-!
# The tree of the weighted shuffle holds its weights

`Represents s d ws`: the state `s` keeps the weights `ws` at the leaves of a tree of depth `d`.
Its `tree` has the internal nodes of that depth, each with `FANOUT - 1` stored sums (`Shaped`);
the `j`-th sum of the node at depth `t` and position `q` is the sum of the weights under its
child `FANOUT * q + j` (`HoldsSums`); and `weight` is the sum of all the weights.

The loop up from a leaf (`updatePath`) meets the nodes above the leaf one level at a time. Each
turn updates the stored sum of the node it comes from, which is the one stored sum of its level
that holds the leaf (`holdsSums_updatePath`). So `new`, which adds each weight along its path,
builds a state that represents the weights (`represents_new`), and `remove` keeps it for the
weights with one entry taken off (`Represents.remove`). `remove_index` reads a leaf's weight back
from the stored sums on its path (`removeIndexLoop_eq`). `search` walks down and meets, at each
level, the child whose block of leaves holds the target (`searchLoop_spec`).
-/

namespace Agave.Gossip.WeightedShuffle

open ImplicitTree PrefixSum

theorem FANOUT_eq : FANOUT = 2 ^ BIT_SHIFT := rfl

theorem BIT_MASK_eq : BIT_MASK = 2 ^ BIT_SHIFT - 1 := rfl

/-! ## Positions in lists -/

section Lists

variable {α : Type}

theorem getD_modify (l : List α) (i : Nat) (g : α → α) (i' : Nat) (x : α) :
    (l.modify i g).getD i' x = if i' = i ∧ i < l.length then g (l.getD i x) else l.getD i' x := by
  simp only [List.getD_eq_getElem?_getD, List.getElem?_modify]
  by_cases hi : i' = i
  · subst hi
    by_cases hlen : i' < l.length <;> simp [hlen]
  · cases l[i']? <;> simp [hi, Ne.symm hi]

/-- Setting a position of a list of weights updates the function of its positions. -/
theorem getD_set_eq_update {l : List Nat} {k : Nat} (hk : k < l.length) (v : Nat) :
    (fun i => (l.set k v).getD i 0) = Function.update (fun i => l.getD i 0) k v := by
  funext i
  simp only [List.getD_eq_getElem?_getD, List.getElem?_set, Function.update_apply]
  by_cases hi : i = k
  · subst hi
    simp [hk]
  · simp [hi, Ne.symm hi]

/-- Appending a weight updates the function of positions at the old length. -/
theorem getD_append_singleton_eq_update (l : List Nat) (v : Nat) :
    (fun i => (l ++ [v]).getD i 0) = Function.update (fun i => l.getD i 0) l.length v := by
  funext i
  simp only [List.getD_eq_getElem?_getD, List.getElem?_append, Function.update_apply]
  rcases Nat.lt_trichotomy i l.length with hi | rfl | hi
  · simp [hi, Nat.ne_of_lt hi]
  · simp
  · simp [Nat.not_lt_of_gt hi, Nat.ne_of_gt hi, show ¬ i - l.length = 0 by omega]

theorem foldl_add_eq_add_sum (l : List Nat) (a : Nat) : l.foldl (· + ·) a = a + l.sum := by
  induction l generalizing a with
  | nil => simp
  | cons x l ih =>
    rw [List.foldl_cons, ih, List.sum_cons]
    omega

end Lists

/-! ## The stored sums -/

/-- The stored sum `tree[i][j]`, zero where there is none. -/
def entryAt (tree : List (List Nat)) (i j : Nat) : Nat := (tree.getD i []).getD j 0

theorem entryAt_modify (tree : List (List Nat)) (i j : Nat) (op : Nat → Nat) (i' j' : Nat) :
    entryAt (tree.modify i (·.modify j op)) i' j' =
      if i' = i ∧ j' = j ∧ i < tree.length ∧ j < (tree.getD i []).length then
        op (entryAt tree i j)
      else entryAt tree i' j' := by
  unfold entryAt
  rw [getD_modify]
  by_cases hi : i' = i ∧ i < tree.length
  · rw [if_pos hi, getD_modify]
    obtain ⟨rfl, hlen⟩ := hi
    by_cases hj : j' = j
    · subst hj
      simp [hlen]
    · simp [hj]
  · rw [if_neg hi, if_neg (fun h => hi ⟨h.1, h.2.2.1⟩)]

/-- The shape of a tree of depth `d`: its internal nodes, each with `FANOUT - 1` sums. -/
structure Shaped (tree : List (List Nat)) (d : Nat) : Prop where
  length_tree : tree.length = levelStart BIT_SHIFT d
  length_node : ∀ i < tree.length, (tree.getD i []).length = FANOUT - 1

theorem Shaped.modify {tree : List (List Nat)} {d : Nat} (h : Shaped tree d) (i j : Nat)
    (op : Nat → Nat) : Shaped (tree.modify i (·.modify j op)) d := by
  refine ⟨by rw [List.length_modify, h.length_tree], fun i' hi' => ?_⟩
  rw [List.length_modify] at hi'
  rw [getD_modify]
  split
  · rw [List.length_modify, h.length_node i (by omega)]
  · exact h.length_node i' hi'

/-- The loop up from a leaf keeps the shape. -/
theorem Shaped.updatePath {tree : List (List Nat)} {d : Nat} (op : Nat → Nat) :
    ∀ index, Shaped tree d → Shaped (updatePath op tree index) d := by
  intro index
  induction index using Nat.strong_induction_on generalizing tree with
  | _ index ih =>
    intro h
    rw [WeightedShuffle.updatePath]
    split
    · exact h
    · rename_i hindex
      have hlt : (index - 1) >>> BIT_SHIFT < index := by
        rw [Nat.shiftRight_eq_div_pow]
        exact Nat.lt_of_le_of_lt (Nat.div_le_self _ _) (by omega)
      apply ih _ hlt
      split
      · exact h.modify _ _ _
      · exact h

/-- The sum of the weights under the node at depth `t` and position `q` of a tree of depth `d`. -/
def nodeSum (d : Nat) (ws : List Nat) (t q : Nat) : Nat :=
  leafSum BIT_SHIFT (fun k => ws.getD k 0) (d - t) q

/-- At every node above depth `d`, the tree stores `E t q j` as the sum of its child `j`. -/
def HoldsSums (tree : List (List Nat)) (d : Nat) (E : Nat → Nat → Nat → Nat) : Prop :=
  ∀ t q j, t < d → q < (2 ^ BIT_SHIFT) ^ t → j < 2 ^ BIT_SHIFT - 1 →
    entryAt tree (levelStart BIT_SHIFT t + q) j = E t q j

/-- The state holds the weights `ws` in a tree of depth `d`. -/
structure Represents (s : WeightedShuffle) (d : Nat) (ws : List Nat) : Prop where
  shaped : Shaped s.tree d
  length_le : ws.length ≤ (2 ^ BIT_SHIFT) ^ d
  sums : HoldsSums s.tree d fun t q j => nodeSum d ws (t + 1) (2 ^ BIT_SHIFT * q + j)
  weight : s.weight = ws.sum

/-! ## The loop up from a leaf -/

section Climb

variable {op : Nat → Nat} {d : Nat} {ws ws' : List Nat}

/-- The node at depth `t + 1` above the leaf `k` is a child of the one at depth `t`, at the place
of its position's last digit. -/
theorem path_child {k t : Nat} (ht : t < d) :
    k / (2 ^ BIT_SHIFT) ^ (d - (t + 1)) =
      2 ^ BIT_SHIFT * (k / (2 ^ BIT_SHIFT) ^ (d - t)) +
        k / (2 ^ BIT_SHIFT) ^ (d - (t + 1)) % 2 ^ BIT_SHIFT := by
  have hd : d - t = d - (t + 1) + 1 := by omega
  rw [hd, div_pow_succ, Nat.div_add_mod]

/-- One level up from the leaf `k`: the node at depth `t + 1` is the child `c` of the one at
depth `t` and not the root, and the loop's offset and parent steps find `c` and that node. -/
theorem climb_up {k t : Nat} (hk : k < (2 ^ BIT_SHIFT) ^ d) (ht : t < d) :
    ∃ c, c < 2 ^ BIT_SHIFT ∧
      k / (2 ^ BIT_SHIFT) ^ (d - (t + 1)) = 2 ^ BIT_SHIFT * (k / (2 ^ BIT_SHIFT) ^ (d - t)) + c ∧
      k / (2 ^ BIT_SHIFT) ^ (d - t) < (2 ^ BIT_SHIFT) ^ t ∧
      levelStart BIT_SHIFT (t + 1) + k / (2 ^ BIT_SHIFT) ^ (d - (t + 1)) ≠ 0 ∧
      (levelStart BIT_SHIFT (t + 1) + k / (2 ^ BIT_SHIFT) ^ (d - (t + 1))) &&& BIT_MASK =
        (c + 1) % 2 ^ BIT_SHIFT ∧
      (levelStart BIT_SHIFT (t + 1) + k / (2 ^ BIT_SHIFT) ^ (d - (t + 1)) - 1) >>> BIT_SHIFT =
        levelStart BIT_SHIFT t + k / (2 ^ BIT_SHIFT) ^ (d - t) := by
  obtain ⟨c, hc, hpath⟩ : ∃ c, c < 2 ^ BIT_SHIFT ∧ k / (2 ^ BIT_SHIFT) ^ (d - (t + 1)) =
      2 ^ BIT_SHIFT * (k / (2 ^ BIT_SHIFT) ^ (d - t)) + c :=
    ⟨_, Nat.mod_lt _ (Nat.two_pow_pos _), path_child ht⟩
  refine ⟨c, hc, hpath, ?_, ?_, ?_, ?_⟩
  · rw [Nat.div_lt_iff_lt_mul (pow_pos (Nat.two_pow_pos _) _), ← pow_add,
      Nat.add_sub_cancel' (Nat.le_of_lt ht)]
    exact hk
  · exact Nat.ne_of_gt (Nat.lt_of_lt_of_le (levelStart_succ_pos BIT_SHIFT t) (Nat.le_add_right _ _))
  · rw [BIT_MASK_eq, offset_index, hpath, Nat.add_assoc, Nat.mul_add_mod]
  · rw [parent_index, hpath, Nat.mul_add_div (Nat.two_pow_pos _), Nat.div_eq_of_lt hc,
      Nat.add_zero]

/-- The sums a climb has reached: those of the nodes at depth `t` and below are already of the
new weights, those above still of the old. -/
def climbSums (d : Nat) (ws ws' : List Nat) (t : Nat) (t' q j : Nat) : Nat :=
  nodeSum d (if t' < t then ws else ws') (t' + 1) (2 ^ BIT_SHIFT * q + j)

/-- The child `j` of the node `q` and the child `c` of the node `p` differ unless both agree. -/
theorem child_ne {q p j c : Nat} (hj : j < 2 ^ BIT_SHIFT) (hc : c < 2 ^ BIT_SHIFT)
    (hne : q ≠ p ∨ j ≠ c) : 2 ^ BIT_SHIFT * q + j ≠ 2 ^ BIT_SHIFT * p + c := by
  have hF : 2 ^ BIT_SHIFT = 16 := rfl
  rw [hF] at hj hc ⊢
  omega

/-- The offset `(c + 1) % FANOUT` of the child `c`: one past `c`, or zero for the last child. -/
theorem offset_cases {c : Nat} (hc : c < 2 ^ BIT_SHIFT) :
    ((c + 1) % 2 ^ BIT_SHIFT > 0 ∧ (c + 1) % 2 ^ BIT_SHIFT - 1 = c ∧ c < 2 ^ BIT_SHIFT - 1) ∨
      (¬(c + 1) % 2 ^ BIT_SHIFT > 0 ∧ c = 2 ^ BIT_SHIFT - 1) := by
  have hF : 2 ^ BIT_SHIFT = 16 := rfl
  rw [hF] at hc ⊢
  omega

/-- One turn of the loop up from a leaf, at the node `2 ^ BIT_SHIFT * p + c` of depth `t + 1`,
the only node of its level whose sum changes: its parent's stored sum for it is updated, unless it
is the right-most child, whose sum is not stored. -/
theorem holdsSums_climbStep {tree : List (List Nat)} {t p c : Nat} (hshape : Shaped tree d)
    (ht : t < d) (hp : p < (2 ^ BIT_SHIFT) ^ t) (hc : c < 2 ^ BIT_SHIFT)
    (hon : nodeSum d ws' (t + 1) (2 ^ BIT_SHIFT * p + c) =
      op (nodeSum d ws (t + 1) (2 ^ BIT_SHIFT * p + c)))
    (hoff : ∀ q, q ≠ 2 ^ BIT_SHIFT * p + c → nodeSum d ws' (t + 1) q = nodeSum d ws (t + 1) q)
    (h : HoldsSums tree d (climbSums d ws ws' (t + 1))) :
    HoldsSums (if (c + 1) % 2 ^ BIT_SHIFT > 0 then
        tree.modify (levelStart BIT_SHIFT t + p) (·.modify ((c + 1) % 2 ^ BIT_SHIFT - 1) op)
      else tree) d (climbSums d ws ws' t) := by
  intro t' q j ht' hq hj
  have hjF : j < 2 ^ BIT_SHIFT := Nat.lt_of_lt_of_le hj (Nat.sub_le _ _)
  by_cases htt : t' = t
  · subst htt
    -- the stored sums of this level are of the old weights
    have hold : ∀ q j, q < (2 ^ BIT_SHIFT) ^ t' → j < 2 ^ BIT_SHIFT - 1 →
        entryAt tree (levelStart BIT_SHIFT t' + q) j =
          nodeSum d ws (t' + 1) (2 ^ BIT_SHIFT * q + j) := by
      intro q j hq hj
      rw [h t' q j ht' hq hj, climbSums, if_pos (Nat.lt_succ_self t')]
    rw [climbSums, if_neg (Nat.lt_irrefl t')]
    rcases offset_cases hc with ⟨hstored, hcj, hclt⟩ | ⟨hlast, hclast⟩
    · -- the parent's stored sum for the node is the one updated
      have hparent : levelStart BIT_SHIFT t' + p < tree.length := by
        rw [hshape.length_tree]
        exact (lt_levelStart_iff BIT_SHIFT hp).mpr ht'
      rw [if_pos hstored, entryAt_modify, hcj]
      by_cases hqj : q = p ∧ j = c
      · obtain ⟨rfl, rfl⟩ := hqj
        rw [if_pos ⟨rfl, rfl, hparent, by rw [hshape.length_node _ hparent, FANOUT_eq]; exact hclt⟩,
          hold q j hq hj, hon]
      · have hne : q ≠ p ∨ j ≠ c := by
          by_cases hqp : q = p
          · exact Or.inr fun hjc => hqj ⟨hqp, hjc⟩
          · exact Or.inl hqp
        have hindex : ¬(levelStart BIT_SHIFT t' + q = levelStart BIT_SHIFT t' + p ∧ j = c ∧
            levelStart BIT_SHIFT t' + p < tree.length ∧
            c < (tree.getD (levelStart BIT_SHIFT t' + p) []).length) := by
          rintro ⟨hi, hjc, -⟩
          exact hne.elim (· (by omega)) (· hjc)
        rw [if_neg hindex, hold q j hq hj, hoff _ (child_ne hjF hc hne)]
    · -- the node is the right-most child: no stored sum changes
      rw [if_neg hlast, hold q j hq hj, hoff _ (child_ne hjF hc (Or.inr (by omega)))]
  · -- another level: its stored sums are untouched and already as they should be
    have hsame : entryAt (if (c + 1) % 2 ^ BIT_SHIFT > 0 then
        tree.modify (levelStart BIT_SHIFT t + p) (·.modify ((c + 1) % 2 ^ BIT_SHIFT - 1) op)
        else tree) (levelStart BIT_SHIFT t' + q) j =
          entryAt tree (levelStart BIT_SHIFT t' + q) j := by
      split
      · rw [entryAt_modify, if_neg]
        rintro ⟨hi, -⟩
        exact htt (levelStart_add_inj BIT_SHIFT hq hp hi).1
      · rfl
    rw [hsame, h t' q j ht' hq hj, climbSums, climbSums]
    by_cases hlt : t' < t
    · rw [if_pos (Nat.lt_succ_of_lt hlt), if_pos hlt]
    · rw [if_neg (by omega), if_neg hlt]

/-- The loop up from the leaf `k` (`new`'s and `remove`'s) takes the stored sums of the old
weights `ws` to those of the new weights `ws'`, when `op` takes the sum of each node above the
leaf from the old to the new and no other node's sum changes. By induction on the depth `t` the
loop has reached: below it, the sums are already the new ones. -/
theorem holdsSums_updatePath {k : Nat} (hk : k < (2 ^ BIT_SHIFT) ^ d)
    (hon : ∀ t ≤ d, nodeSum d ws' t (k / (2 ^ BIT_SHIFT) ^ (d - t)) =
      op (nodeSum d ws t (k / (2 ^ BIT_SHIFT) ^ (d - t))))
    (hoff : ∀ t q, q ≠ k / (2 ^ BIT_SHIFT) ^ (d - t) → nodeSum d ws' t q = nodeSum d ws t q) :
    ∀ t ≤ d, ∀ tree, Shaped tree d → HoldsSums tree d (climbSums d ws ws' t) →
      HoldsSums (updatePath op tree (levelStart BIT_SHIFT t + k / (2 ^ BIT_SHIFT) ^ (d - t))) d
        (climbSums d ws ws' 0) := by
  intro t
  induction t with
  | zero =>
    -- at the root the loop stops
    intro _ tree _ h
    have hroot : k / (2 ^ BIT_SHIFT) ^ (d - 0) = 0 := Nat.div_eq_of_lt (by simpa using hk)
    rw [hroot, levelStart_zero, updatePath, if_pos rfl]
    exact h
  | succ t ih =>
    intro ht tree hshape h
    have htd : t < d := Nat.lt_of_succ_le ht
    -- the node at depth `t + 1` is the child `c` of the node `p` at depth `t`
    obtain ⟨c, hc, hpath, hp, hroot, hoffset, hparent⟩ := climb_up hk htd
    rw [updatePath, if_neg hroot]
    dsimp only
    rw [hoffset, hparent]
    apply ih (Nat.le_of_lt ht)
    · split
      · exact hshape.modify _ _ _
      · exact hshape
    · refine holdsSums_climbStep hshape htd hp hc ?_ (fun q hq => ?_) h
      · rw [← hpath]
        exact hon (t + 1) ht
      · exact hoff (t + 1) q (hpath ▸ hq)

end Climb

/-! ## Changing one weight -/

section Update

variable {d k v : Nat} {ws ws' : List Nat}

/-- The weights of the root are all the weights. -/
theorem sum_eq_nodeSum_root (h : ws.length ≤ (2 ^ BIT_SHIFT) ^ d) : ws.sum = nodeSum d ws 0 0 := by
  unfold nodeSum
  rw [Nat.sub_zero, leafSum_root, sum_eq_sum_range h]

theorem nodeSum_update_on
    (hws : (fun i => ws'.getD i 0) = Function.update (fun i => ws.getD i 0) k v) (t : Nat) :
    nodeSum d ws' t (k / (2 ^ BIT_SHIFT) ^ (d - t)) + ws.getD k 0 =
      nodeSum d ws t (k / (2 ^ BIT_SHIFT) ^ (d - t)) + v := by
  unfold nodeSum
  rw [hws]
  exact leafSum_update_of_div_eq rfl

theorem nodeSum_update_off
    (hws : (fun i => ws'.getD i 0) = Function.update (fun i => ws.getD i 0) k v) {t q : Nat}
    (hq : q ≠ k / (2 ^ BIT_SHIFT) ^ (d - t)) : nodeSum d ws' t q = nodeSum d ws t q := by
  unfold nodeSum
  rw [hws]
  exact leafSum_update_of_div_ne (Ne.symm hq)

/-- The loop up from the leaf `k` with `op` gives the stored sums of new weights that differ from
the old at `k` only, when `op` changes any sum that holds the old weight of `k` as the weight
changes. -/
theorem holdsSums_updatePath_leaf {op : Nat → Nat} {tree : List (List Nat)} (hshape : Shaped tree d)
    (h : HoldsSums tree d fun t q j => nodeSum d ws (t + 1) (2 ^ BIT_SHIFT * q + j))
    (hk : k < (2 ^ BIT_SHIFT) ^ d)
    (hws : (fun i => ws'.getD i 0) = Function.update (fun i => ws.getD i 0) k v)
    (hop : ∀ x, ws.getD k 0 ≤ x → op x + ws.getD k 0 = x + v) :
    HoldsSums (updatePath op tree (tree.length + k)) d
      fun t q j => nodeSum d ws' (t + 1) (2 ^ BIT_SHIFT * q + j) := by
  have hon : ∀ t ≤ d, nodeSum d ws' t (k / (2 ^ BIT_SHIFT) ^ (d - t)) =
      op (nodeSum d ws t (k / (2 ^ BIT_SHIFT) ^ (d - t))) := by
    intro t _
    have hchange := nodeSum_update_on hws (d := d) t
    have hstep := hop _ (le_leafSum (b := BIT_SHIFT) (f := fun i => ws.getD i 0) (h := d - t))
    unfold nodeSum at hchange ⊢
    omega
  have hstart : HoldsSums tree d (climbSums d ws ws' d) := by
    intro t q j ht hq hj
    rw [h t q j ht hq hj, climbSums, if_pos ht]
  have hleaf : tree.length + k = levelStart BIT_SHIFT d + k / (2 ^ BIT_SHIFT) ^ (d - d) := by
    rw [hshape.length_tree, Nat.sub_self, pow_zero, Nat.div_one]
  rw [hleaf]
  intro t q j ht hq hj
  rw [holdsSums_updatePath hk hon (fun t q hq => nodeSum_update_off hws hq) d le_rfl tree hshape
    hstart t q j ht hq hj, climbSums, if_neg (Nat.not_lt_zero t)]

/-- `remove` of the leaf `k` with its weight: the state holds the weights with `k` zeroed. -/
theorem Represents.remove {s : WeightedShuffle} (hs : Represents s d ws) (hk : k < ws.length) :
    Represents (s.remove k (ws.getD k 0)) d (ws.set k 0) := by
  have hkd : k < (2 ^ BIT_SHIFT) ^ d := Nat.lt_of_lt_of_le hk hs.length_le
  have hws := getD_set_eq_update hk 0
  refine ⟨hs.shaped.updatePath _ _, by rw [List.length_set]; exact hs.length_le,
    holdsSums_updatePath_leaf hs.shaped hs.sums hkd hws fun x hx => Nat.sub_add_cancel hx, ?_⟩
  -- the total loses the leaf's weight
  have hroot := nodeSum_update_on hws (d := d) 0
  rw [Nat.sub_zero, Nat.div_eq_of_lt hkd, ← sum_eq_nodeSum_root hs.length_le,
    ← sum_eq_nodeSum_root (by rw [List.length_set]; exact hs.length_le)] at hroot
  show s.weight - ws.getD k 0 = (ws.set k 0).sum
  rw [hs.weight]
  omega

end Update

/-! ## `new` -/

/-- The weights `new` keeps: a weight that is zero, or whose addition would overflow the sum of
the weights kept before it, counts as zero. -/
def effectiveWeights (weights : List Nat) : List Nat :=
  weights.foldl (fun kept weight =>
    kept ++ [if weight ≠ 0 ∧ kept.sum + weight ≤ U64_MAX then weight else 0]) []

/-- The indices of the weights that count as zero, in order. -/
def zerosOf (weights : List Nat) : List Nat :=
  (List.range weights.length).filter fun k => (effectiveWeights weights).getD k 0 = 0

theorem effectiveWeights_append_singleton (weights : List Nat) (weight : Nat) :
    effectiveWeights (weights ++ [weight]) = effectiveWeights weights ++
      [if weight ≠ 0 ∧ (effectiveWeights weights).sum + weight ≤ U64_MAX then weight else 0] := by
  rw [effectiveWeights, List.foldl_append]
  rfl

@[simp] theorem length_effectiveWeights (weights : List Nat) :
    (effectiveWeights weights).length = weights.length := by
  induction weights using List.reverseRecOn with
  | nil => rfl
  | append_singleton weights weight ih =>
    rw [effectiveWeights_append_singleton, List.length_append, List.length_append, ih]
    rfl

theorem zerosOf_append_singleton (weights : List Nat) (weight : Nat) :
    zerosOf (weights ++ [weight]) = zerosOf weights ++
      if (effectiveWeights (weights ++ [weight])).getD weights.length 0 = 0 then [weights.length]
      else [] := by
  unfold zerosOf
  rw [List.length_append, List.length_singleton, List.range_succ, List.filter_append]
  congr 1
  · -- the earlier weights keep their places
    apply List.filter_congr
    intro k hk
    rw [effectiveWeights_append_singleton, List.getD_append _ _ _ _
      (by rw [length_effectiveWeights]; exact List.mem_range.mp hk)]
  · rw [List.filter_cons, List.filter_nil]
    simp only [decide_eq_true_eq]

/-- The loop of `get_tree_size` ends at the start of a level whose leaves hold the items. -/
theorem getTreeSize_loop (count : Nat) :
    ∀ e, ∃ d, getTreeSize.loop count (levelStart BIT_SHIFT e) e = levelStart BIT_SHIFT d ∧
      count ≤ (2 ^ BIT_SHIFT) ^ d := by
  intro e
  -- on the gap between `count` and the leaves of depth `e`, which the loop narrows
  induction hgap : count - FANOUT ^ e using Nat.strong_induction_on generalizing e with
  | _ gap ih =>
    rw [getTreeSize.loop]
    split
    · rename_i hlt
      have hgrow : FANOUT ^ e < FANOUT ^ (e + 1) :=
        Nat.pow_lt_pow_right (by decide) (Nat.lt_succ_self e)
      rw [FANOUT_eq, ← levelStart_succ]
      exact ih (count - FANOUT ^ (e + 1)) (by omega) (e + 1) rfl
    · exact ⟨e, rfl, by rw [← FANOUT_eq]; omega⟩

theorem getTreeSize_eq (count : Nat) :
    ∃ d, getTreeSize count = levelStart BIT_SHIFT d ∧ count ≤ (2 ^ BIT_SHIFT) ^ d := by
  unfold getTreeSize
  split
  · -- a single item: one node
    rename_i hone
    refine ⟨1, ?_, by rw [hone]; exact Nat.one_le_pow _ _ (Nat.two_pow_pos _)⟩
    rw [getTreeSize.loop, if_neg (by rw [hone, pow_zero]; exact Nat.lt_irrefl 1)]
    rfl
  · exact getTreeSize_loop count 0

section New

variable {d : Nat}

/-- The state that the loop of `new` carries. -/
def newState (st : List (List Nat) × Nat × List Nat) : WeightedShuffle := ⟨st.1, st.2.1, st.2.2⟩

/-- The loop of `new` starts from zero sums. -/
theorem represents_newInit :
    Represents (newState (List.replicate (levelStart BIT_SHIFT d)
      (List.replicate (FANOUT - 1) 0), 0, [])) d [] := by
  refine ⟨⟨List.length_replicate, fun i hi => ?_⟩, Nat.zero_le _, ?_, rfl⟩
  · dsimp only [newState] at hi ⊢
    rw [List.length_replicate] at hi
    rw [List.getD_replicate _ hi, List.length_replicate]
  · intro t q j ht hq hj
    have hnode : levelStart BIT_SHIFT t + q < levelStart BIT_SHIFT d :=
      (lt_levelStart_iff BIT_SHIFT hq).mpr ht
    dsimp only [newState, entryAt]
    rw [List.getD_replicate _ hnode]
    simp [nodeSum, leafSum]

/-- One turn of the loop of `new`: the weight is added along its path, or filed among the zeros
when it is zero or would overflow the sum. -/
theorem represents_newStep {weights : List Nat} {weight : Nat}
    {st : List (List Nat) × Nat × List Nat} (hlen : weights.length < (2 ^ BIT_SHIFT) ^ d)
    (hs : Represents (newState st) d (effectiveWeights weights))
    (hzeros : st.2.2 = zerosOf weights) :
    Represents (newState (newStep st (weight, weights.length))) d
        (effectiveWeights (weights ++ [weight])) ∧
      (newStep st (weight, weights.length)).2.2 = zerosOf (weights ++ [weight]) := by
  obtain ⟨tree, sum, zeros⟩ := st
  dsimp only at hzeros
  have hsum : sum = (effectiveWeights weights).sum := hs.weight
  have hlen' : (effectiveWeights weights ++ [weight]).length ≤ (2 ^ BIT_SHIFT) ^ d := by
    rw [List.length_append, length_effectiveWeights]
    exact hlen
  -- the weight counts as zero: the tree and the sum stay, and its index joins the zeros
  have hskip : ¬(weight ≠ 0 ∧ (effectiveWeights weights).sum + weight ≤ U64_MAX) →
      Represents (newState (tree, sum, zeros ++ [weights.length])) d
        (effectiveWeights (weights ++ [weight])) ∧
      zeros ++ [weights.length] = zerosOf (weights ++ [weight]) := by
    intro hzero
    have hws : (fun i => (effectiveWeights weights ++ [0]).getD i 0) =
        fun i => (effectiveWeights weights).getD i 0 := by
      rw [getD_append_singleton_eq_update, Function.update_eq_self_iff, List.getD_eq_getElem?_getD,
        List.getElem?_eq_none (Nat.le_refl _), Option.getD_none]
    rw [effectiveWeights_append_singleton, if_neg hzero]
    refine ⟨⟨hs.shaped, ?_, ?_, ?_⟩, ?_⟩
    · rw [List.length_append, length_effectiveWeights]
      exact hlen
    · intro t q j ht hq hj
      have hsame := hs.sums t q j ht hq hj
      dsimp only [newState] at hsame ⊢
      rw [hsame, nodeSum, nodeSum, hws]
    · rw [List.sum_append, List.sum_singleton, Nat.add_zero]
      exact hs.weight
    · rw [zerosOf_append_singleton, effectiveWeights_append_singleton, if_neg hzero,
        List.getD_append_right _ _ _ _ (by rw [length_effectiveWeights]),
        length_effectiveWeights, Nat.sub_self]
      simp [hzeros]
  unfold newStep
  dsimp only
  split
  · exact hskip fun h => h.1 ‹_›
  · rename_i hne
    split
    · -- the weight fits: it is added along its path
      rename_i sum' hadd
      unfold StakeProgram.checkedAddWithin at hadd
      split at hadd
      · rename_i hfits
        cases hadd
        have hkept : weight ≠ 0 ∧ (effectiveWeights weights).sum + weight ≤ U64_MAX :=
          ⟨hne, hsum ▸ hfits⟩
        have hws := getD_append_singleton_eq_update (effectiveWeights weights) weight
        rw [length_effectiveWeights] at hws
        have hleaf : (effectiveWeights weights).getD weights.length 0 = 0 := by
          rw [List.getD_eq_getElem?_getD, List.getElem?_eq_none (by rw [length_effectiveWeights]),
            Option.getD_none]
        rw [effectiveWeights_append_singleton, if_pos hkept]
        refine ⟨⟨hs.shaped.updatePath _ _, hlen', ?_, ?_⟩, ?_⟩
        · exact holdsSums_updatePath_leaf hs.shaped hs.sums hlen hws fun x _ => by
            rw [hleaf, Nat.add_zero]
        · show sum + weight = _
          rw [List.sum_append, List.sum_singleton, hsum]
        · show zeros = _
          rw [zerosOf_append_singleton, effectiveWeights_append_singleton, if_pos hkept,
            List.getD_append_right _ _ _ _ (by rw [length_effectiveWeights]),
            length_effectiveWeights, Nat.sub_self]
          simp [hzeros, hne]
      · cases hadd
    · -- the sum would overflow
      rename_i hadd
      apply hskip
      rintro ⟨-, hfits⟩
      unfold StakeProgram.checkedAddWithin at hadd
      rw [if_pos (hsum ▸ hfits)] at hadd
      cases hadd

end New

/-- `new` builds a tree of the depth `get_tree_size` gives, holding the weights it keeps, and
files the others among its zeros in order. -/
theorem represents_new (weights : List Nat) :
    ∃ d, Represents (new weights) d (effectiveWeights weights) ∧
      (new weights).zeros = zerosOf weights := by
  obtain ⟨d, hsize, hcount⟩ := getTreeSize_eq weights.length
  -- the loop over the weights, by induction on the weights it has gone through
  have hloop : ∀ l : List Nat, l.length ≤ (2 ^ BIT_SHIFT) ^ d →
      Represents (newState (l.zipIdx.foldl newStep (List.replicate (levelStart BIT_SHIFT d)
        (List.replicate (FANOUT - 1) 0), 0, []))) d (effectiveWeights l) ∧
      (l.zipIdx.foldl newStep (List.replicate (levelStart BIT_SHIFT d)
        (List.replicate (FANOUT - 1) 0), 0, [])).2.2 = zerosOf l := by
    intro l
    induction l using List.reverseRecOn with
    | nil => exact fun _ => ⟨represents_newInit, rfl⟩
    | append_singleton l weight ih =>
      intro hlen
      rw [List.length_append, List.length_singleton] at hlen
      obtain ⟨hs, hzeros⟩ := ih (by omega)
      rw [List.zipIdx_append, List.foldl_append, Nat.zero_add]
      exact represents_newStep (by omega) hs hzeros
  obtain ⟨hs, hzeros⟩ := hloop weights hcount
  unfold new
  rw [hsize]
  exact ⟨d, hs, hzeros⟩

/-! ## `remove_index` -/

section RemoveIndex

variable {s : WeightedShuffle} {d k : Nat} {ws : List Nat}

/-- A node's sum is the sum of its children's, as the sums of a tree of depth `d`. -/
theorem nodeSum_eq_sum_children {t : Nat} (ht : t < d) (q : Nat) :
    nodeSum d ws t q =
      ∑ c ∈ Finset.range (2 ^ BIT_SHIFT), nodeSum d ws (t + 1) (2 ^ BIT_SHIFT * q + c) := by
  have hd : d - t = d - (t + 1) + 1 := by omega
  unfold nodeSum
  rw [hd, leafSum_succ]

/-- The first `j` stored sums of a node, of a state that represents `ws`, are those of its first
`j` children. -/
theorem sum_take_entries (hs : Represents s d ws) {t p : Nat} (ht : t < d)
    (hp : p < (2 ^ BIT_SHIFT) ^ t) {j : Nat} (hj : j ≤ 2 ^ BIT_SHIFT - 1) :
    ∑ i ∈ Finset.range j, (s.tree.getD (levelStart BIT_SHIFT t + p) []).getD i 0 =
      ∑ c ∈ Finset.range j, nodeSum d ws (t + 1) (2 ^ BIT_SHIFT * p + c) := by
  apply Finset.sum_congr rfl
  intro i hi
  exact hs.sums t p i ht hp (Nat.lt_of_lt_of_le (Finset.mem_range.mp hi) hj)

/-- The stored sums of a node, of a state that represents `ws`, add up to its sum less its last
child's. -/
theorem sum_entries (hs : Represents s d ws) {t p : Nat} (ht : t < d)
    (hp : p < (2 ^ BIT_SHIFT) ^ t) :
    (s.tree.getD (levelStart BIT_SHIFT t + p) []).sum +
        nodeSum d ws (t + 1) (2 ^ BIT_SHIFT * p + (2 ^ BIT_SHIFT - 1)) = nodeSum d ws t p := by
  have hnode : levelStart BIT_SHIFT t + p < s.tree.length := by
    rw [hs.shaped.length_tree]
    exact (lt_levelStart_iff BIT_SHIFT hp).mpr ht
  have hlen := hs.shaped.length_node _ hnode
  rw [FANOUT_eq] at hlen
  rw [sum_eq_sum_range (Nat.le_of_eq hlen), sum_take_entries hs ht hp le_rfl,
    nodeSum_eq_sum_children ht, ← Finset.sum_range_succ, Nat.sub_add_cancel (Nat.two_pow_pos _)]

/-- The loop of `remove_index` reads the weight of the leaf `k` back from the stored sums on its
path: at depth `t`, `weight` is the sum of the node less the leaf's weight. So it removes the
leaf's weight, or the leaf from the zeros when that weight is zero. -/
theorem removeIndexLoop_eq (hs : Represents s d ws) (hk : k < (2 ^ BIT_SHIFT) ^ d) :
    ∀ t ≤ d, removeIndexLoop s k (levelStart BIT_SHIFT t + k / (2 ^ BIT_SHIFT) ^ (d - t))
        (nodeSum d ws t (k / (2 ^ BIT_SHIFT) ^ (d - t)) - ws.getD k 0) =
      if ws.getD k 0 ≠ 0 then s.remove k (ws.getD k 0) else s.removeZero k := by
  intro t
  induction t with
  | zero =>
    -- at the root, the total less the weights passed is the leaf's
    intro _
    have hroot : k / (2 ^ BIT_SHIFT) ^ (d - 0) = 0 := Nat.div_eq_of_lt (by simpa using hk)
    have hle : ws.getD k 0 ≤ nodeSum d ws 0 0 := by
      have := le_leafSum (b := BIT_SHIFT) (f := fun i => ws.getD i 0) (h := d) (k := k)
      rwa [Nat.div_eq_of_lt hk] at this
    rw [hroot, levelStart_zero, removeIndexLoop, if_pos rfl, hs.weight,
      sum_eq_nodeSum_root hs.length_le]
    by_cases hw : ws.getD k 0 = 0
    · rw [if_neg (by omega), if_neg (by omega)]
    · rw [if_pos (by omega), if_pos hw, Nat.sub_sub_self hle]
  | succ t ih =>
    intro ht
    have htd : t < d := Nat.lt_of_succ_le ht
    obtain ⟨c, hc, hpath, hp, hroot, hoffset, hparent⟩ := climb_up hk htd
    have hle : ws.getD k 0 ≤ nodeSum d ws (t + 1) (k / (2 ^ BIT_SHIFT) ^ (d - (t + 1))) :=
      le_leafSum (b := BIT_SHIFT) (f := fun i => ws.getD i 0) (h := d - (t + 1))
    rw [removeIndexLoop, if_neg hroot]
    dsimp only
    rw [hoffset, hparent]
    rw [hpath] at hle
    rcases offset_cases hc with ⟨hstored, hcj, hclt⟩ | ⟨hlast, hclast⟩
    · -- the node is stored in its parent: its sum less `weight` is the leaf's weight
      have hnode := hs.sums t _ c htd hp hclt
      dsimp only [entryAt] at hnode
      rw [if_pos hstored, hcj, hnode, hpath]
      by_cases hw : ws.getD k 0 = 0
      · rw [if_neg (by omega), if_neg (by omega)]
      · rw [if_pos (by omega), if_pos hw, Nat.sub_sub_self hle]
    · -- the node is the right-most child: `weight` takes in the stored sums of its siblings
      rw [if_neg hlast, foldl_add_eq_add_sum, hpath, hclast]
      have hsiblings := sum_entries hs htd hp
      rw [hclast] at hle
      rw [show nodeSum d ws (t + 1) (2 ^ BIT_SHIFT * (k / (2 ^ BIT_SHIFT) ^ (d - t)) +
          (2 ^ BIT_SHIFT - 1)) - ws.getD k 0 +
          (s.tree.getD (levelStart BIT_SHIFT t + k / (2 ^ BIT_SHIFT) ^ (d - t)) []).sum =
          nodeSum d ws t (k / (2 ^ BIT_SHIFT) ^ (d - t)) - ws.getD k 0 by omega]
      exact ih (Nat.le_of_lt htd)

/-- `remove_index` of a leaf: its weight is removed, or, when it is zero, the leaf is taken out of
the zeros. -/
theorem removeIndex_eq (hs : Represents s d ws) (hk : k < (2 ^ BIT_SHIFT) ^ d) :
    s.removeIndex k =
      if ws.getD k 0 ≠ 0 then s.remove k (ws.getD k 0) else s.removeZero k := by
  have hleaf := removeIndexLoop_eq hs hk d le_rfl
  rw [Nat.sub_self, pow_zero, Nat.div_one] at hleaf
  unfold nodeSum at hleaf
  rw [Nat.sub_self, leafSum_zero, Nat.sub_self] at hleaf
  unfold removeIndex
  rw [hs.shaped.length_tree]
  exact hleaf

@[simp] theorem tree_removeZero (s : WeightedShuffle) (k : Nat) :
    (s.removeZero k).tree = s.tree := by
  unfold removeZero
  split <;> rfl

@[simp] theorem weight_removeZero (s : WeightedShuffle) (k : Nat) :
    (s.removeZero k).weight = s.weight := by
  unfold removeZero
  split <;> rfl

theorem zeros_removeZero (s : WeightedShuffle) (k : Nat) :
    (s.removeZero k).zeros = s.zeros.erase k := by
  unfold removeZero
  rw [List.erase_eq_eraseIdx]
  split <;> rename_i h <;> simp only [List.idxOf?, h]

/-- `remove_index` of an index keeps the tree holding the weights, with that one zeroed; the
index leaves the zeros if it was there. -/
theorem Represents.removeIndex (hs : Represents s d ws) (hk : k < ws.length) :
    Represents (s.removeIndex k) d (ws.set k 0) ∧
      (s.removeIndex k).zeros = if ws.getD k 0 = 0 then s.zeros.erase k else s.zeros := by
  rw [removeIndex_eq hs (Nat.lt_of_lt_of_le hk hs.length_le)]
  by_cases hw : ws.getD k 0 = 0
  · -- a zero weight: the tree stays, and the weights with it
    have hsame : ws.set k 0 = ws := by
      rw [List.getD_eq_getElem _ _ hk] at hw
      rw [← hw, List.set_getElem_self]
    rw [if_neg (fun h => h hw), if_pos hw, hsame, zeros_removeZero]
    refine ⟨⟨?_, hs.length_le, ?_, ?_⟩, rfl⟩
    · rw [tree_removeZero]
      exact hs.shaped
    · rw [tree_removeZero]
      exact hs.sums
    · rw [weight_removeZero]
      exact hs.weight
  · rw [if_pos hw, if_neg hw]
    exact ⟨hs.remove hk, rfl⟩

end RemoveIndex

/-! ## `search` -/

section Search

open Finset

/-- The loop over the stored sums of a node finds the first child whose running sum exceeds
`val`, or passes all of them. -/
theorem searchNode_spec : ∀ (cs : List Nat) (j0 val weight : Nat),
    (∃ j < cs.length, ∑ i ∈ range j, cs.getD i 0 ≤ val ∧
      val < ∑ i ∈ range (j + 1), cs.getD i 0 ∧
      searchNode cs j0 val weight =
        (some (j0 + j), val - ∑ i ∈ range j, cs.getD i 0, cs.getD j 0)) ∨
    (cs.sum ≤ val ∧ searchNode cs j0 val weight = (none, val - cs.sum, weight - cs.sum))
  | [], _, _, _ => Or.inr ⟨Nat.zero_le _, rfl⟩
  | c :: cs, j0, val, weight => by
    rw [searchNode]
    split
    · -- the first child holds the target
      rename_i hfirst
      exact Or.inl ⟨0, by simp, by simp, by simpa using hfirst, by simp⟩
    · rename_i hpast
      -- the rest of the loop runs on the sums after the first
      have hshift : ∀ j, ∑ i ∈ range (j + 1), (c :: cs).getD i 0 =
          ∑ i ∈ range j, cs.getD i 0 + c := by
        intro j
        rw [sum_range_succ']
        simp
      rcases searchNode_spec cs (j0 + 1) (val - c) (weight - c) with
        ⟨j, hj, hlo, hhi, heq⟩ | ⟨hsum, heq⟩
      · refine Or.inl ⟨j + 1, by simpa using hj, ?_, ?_, ?_⟩
        · rw [hshift]
          omega
        · rw [hshift]
          have := hshift (j + 1)
          rw [sum_range_succ] at this hhi ⊢
          omega
        · rw [heq, hshift, List.getD_cons_succ, Nat.add_right_comm, Nat.sub_sub, Nat.add_comm c,
            Nat.add_assoc j0 j 1]
      · refine Or.inr ⟨by rw [List.sum_cons]; omega, ?_⟩
        rw [heq, List.sum_cons, Nat.sub_sub, Nat.sub_sub]

variable {s : WeightedShuffle} {d : Nat} {ws : List Nat}

/-- The weights before the child `j` of a node: those before the node and those under its first
`j` children. -/
theorem prefix_child (ws : List Nat) {t h : Nat} (hd : t + h + 1 = d) (q j : Nat) :
    ∑ i ∈ range ((2 ^ BIT_SHIFT * q + j) * (2 ^ BIT_SHIFT) ^ h), ws.getD i 0 =
      ∑ i ∈ range (q * (2 ^ BIT_SHIFT) ^ (h + 1)), ws.getD i 0 +
        ∑ c ∈ range j, nodeSum d ws (t + 1) (2 ^ BIT_SHIFT * q + c) := by
  have hheight : d - (t + 1) = h := by omega
  have hsplit : (2 ^ BIT_SHIFT * q + j) * (2 ^ BIT_SHIFT) ^ h =
      q * (2 ^ BIT_SHIFT) ^ (h + 1) + j * (2 ^ BIT_SHIFT) ^ h := by ring
  unfold nodeSum
  rw [hheight, sum_range_leafSum, hsplit, sum_range_add_sum_Ico _ (Nat.le_add_right _ _)]

/-- The walk down from the node at depth `t` and position `q`, with `val` below its sum, ends at
the leaf `k` whose running sum first exceeds `val` added to the weights before the node. -/
theorem searchLoop_spec (hs : Represents s d ws) : ∀ h t q val, t + h = d →
    q < (2 ^ BIT_SHIFT) ^ t → val < nodeSum d ws t q →
    ∃ k, searchLoop s.tree (levelStart BIT_SHIFT t + q) val (nodeSum d ws t q) =
        (k, ws.getD k 0) ∧
      ∑ i ∈ range k, ws.getD i 0 ≤ ∑ i ∈ range (q * (2 ^ BIT_SHIFT) ^ h), ws.getD i 0 + val ∧
      ∑ i ∈ range (q * (2 ^ BIT_SHIFT) ^ h), ws.getD i 0 + val <
        ∑ i ∈ range (k + 1), ws.getD i 0
  | 0, t, q, val, hd, hq, hval => by
    -- a leaf: the walk stops at it
    have hdt : t = d := by omega
    subst hdt
    have hleaf : nodeSum t ws t q = ws.getD q 0 := by
      unfold nodeSum
      rw [Nat.sub_self, leafSum_zero]
    rw [searchLoop, if_neg (by rw [hs.shaped.length_tree]; omega), hs.shaped.length_tree,
      Nat.add_sub_cancel_left, hleaf]
    rw [hleaf] at hval
    refine ⟨q, rfl, by rw [pow_zero, Nat.mul_one]; omega, ?_⟩
    rw [pow_zero, Nat.mul_one, sum_range_succ]
    omega
  | h + 1, t, q, val, hd, hq, hval => by
    have ht : t < d := by omega
    have hnode : levelStart BIT_SHIFT t + q < s.tree.length := by
      rw [hs.shaped.length_tree]
      exact (lt_levelStart_iff BIT_SHIFT hq).mpr ht
    have hlen := hs.shaped.length_node _ hnode
    rw [FANOUT_eq] at hlen
    have hentry : ∀ j, j < 2 ^ BIT_SHIFT - 1 →
        (s.tree.getD (levelStart BIT_SHIFT t + q) []).getD j 0 =
          nodeSum d ws (t + 1) (2 ^ BIT_SHIFT * q + j) :=
      fun j hj => hs.sums t q j ht hq hj
    have hchild : ∀ j, j < 2 ^ BIT_SHIFT → 2 ^ BIT_SHIFT * q + j < (2 ^ BIT_SHIFT) ^ (t + 1) := by
      intro j hj
      rw [pow_succ']
      have := Nat.mul_le_mul_left (2 ^ BIT_SHIFT) (Nat.succ_le_of_lt hq)
      rw [Nat.mul_succ] at this
      omega
    rw [searchLoop, if_pos hnode]
    rcases searchNode_spec (s.tree.getD (levelStart BIT_SHIFT t + q) []) 0 val
        (nodeSum d ws t q) with ⟨j, hj, hlo, hhi, heq⟩ | ⟨hsum, heq⟩
    · -- the child `j` holds the target
      rw [hlen] at hj
      have hsums := sum_take_entries hs ht hq (Nat.le_of_lt hj)
      rw [sum_range_succ, hentry j hj] at hhi
      rw [heq, hentry j hj]
      dsimp only
      rw [Nat.zero_add, child_index]
      obtain ⟨k, hk, hklo, hkhi⟩ := searchLoop_spec hs h (t + 1) (2 ^ BIT_SHIFT * q + j)
        (val - ∑ i ∈ range j, (s.tree.getD (levelStart BIT_SHIFT t + q) []).getD i 0)
        (by omega) (hchild j (by omega)) (by omega)
      have hbase := prefix_child ws (show t + h + 1 = d by omega) q j
      refine ⟨k, hk, ?_, ?_⟩ <;> omega
    · -- past every stored sum: the right-most child holds the target
      have hlast := sum_entries hs ht hq
      have hsums := sum_take_entries hs ht hq le_rfl
      rw [← sum_eq_sum_range (Nat.le_of_eq hlen)] at hsums
      rw [heq]
      dsimp only
      have hindex : (levelStart BIT_SHIFT t + q) <<< BIT_SHIFT + FANOUT =
          levelStart BIT_SHIFT (t + 1) + (2 ^ BIT_SHIFT * q + (2 ^ BIT_SHIFT - 1)) := by
        rw [← child_index, FANOUT_eq, Nat.add_assoc, Nat.sub_add_cancel (Nat.two_pow_pos _)]
      have hweight : nodeSum d ws t q - (s.tree.getD (levelStart BIT_SHIFT t + q) []).sum =
          nodeSum d ws (t + 1) (2 ^ BIT_SHIFT * q + (2 ^ BIT_SHIFT - 1)) := by omega
      rw [hindex, hweight]
      obtain ⟨k, hk, hklo, hkhi⟩ := searchLoop_spec hs h (t + 1)
        (2 ^ BIT_SHIFT * q + (2 ^ BIT_SHIFT - 1))
        (val - (s.tree.getD (levelStart BIT_SHIFT t + q) []).sum) (by omega)
        (hchild _ (Nat.sub_lt (Nat.two_pow_pos _) Nat.one_pos)) (by omega)
      have hbase := prefix_child ws (show t + h + 1 = d by omega) q (2 ^ BIT_SHIFT - 1)
      refine ⟨k, hk, ?_, ?_⟩ <;> omega

/-- `search` of a value below the total: the index whose running sum first exceeds it, and the
index's weight. -/
theorem Represents.search_eq (hs : Represents s d ws) {val : Nat} (hval : val < ws.sum) :
    ∃ k, s.search val = (k, ws.getD k 0) ∧ k < ws.length ∧
      ∑ i ∈ range k, ws.getD i 0 ≤ val ∧ val < ∑ i ∈ range (k + 1), ws.getD i 0 := by
  rw [sum_eq_nodeSum_root hs.length_le] at hval
  obtain ⟨k, hk, hlo, hhi⟩ := searchLoop_spec hs d 0 0 val (Nat.zero_add d)
    (pow_pos (Nat.two_pow_pos _) 0) hval
  rw [Nat.zero_mul, sum_range_zero, Nat.zero_add] at hlo hhi
  refine ⟨k, ?_, ?_, hlo, hhi⟩
  · unfold search
    rw [hs.weight, sum_eq_nodeSum_root hs.length_le]
    exact hk
  · -- the leaf has weight, so it is one of the weights
    by_contra hout
    rw [sum_range_succ, List.getD_eq_getElem?_getD, List.getElem?_eq_none (by omega)] at hhi
    simp only [Option.getD_none, Nat.add_zero] at hhi
    omega

end Search

end Agave.Gossip.WeightedShuffle
