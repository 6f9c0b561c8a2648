import Mathlib.Algebra.BigOperators.Intervals
import Mathlib.Algebra.Order.BigOperators.Group.Finset
import Mathlib.Tactic.Ring

/-!
# Complete trees stored level by level

A complete tree whose internal nodes have `2 ^ b` children each can be kept in one array, level
by level from the root at `0`. The children of the node at `i` are then at `(i <<< b) + 1` through
`(i <<< b) + 2 ^ b`, and its parent is at `(i - 1) >>> b`. The node at depth `t` and position `q`
in its level sits at `levelStart b t + q`. The index arithmetic of a walk through the tree is then
arithmetic on `q` (`child_index`, `parent_index`, `offset_index`).

The leaves under the node at height `h` and position `q` are the positions
`q * (2 ^ b) ^ h ≤ i < (q + 1) * (2 ^ b) ^ h`, the `i` with `i / (2 ^ b) ^ h = q`. `leafSum` adds a
weight over them. A node's sum is the sum of its children's sums (`leafSum_succ`), and its first
`j` children hold a prefix of its leaves (`sum_range_leafSum`). Changing the weight of one leaf
changes the sums of exactly the nodes above it (`leafSum_update_of_div_eq`,
`leafSum_update_of_div_ne`).
-/

namespace ImplicitTree

variable (b : Nat)

/-- The index of the first node at depth `t`. -/
def levelStart : Nat → Nat
  | 0 => 0
  | t + 1 => levelStart t + (2 ^ b) ^ t

@[simp] theorem levelStart_zero : levelStart b 0 = 0 := rfl

theorem levelStart_succ (t : Nat) : levelStart b (t + 1) = levelStart b t + (2 ^ b) ^ t := rfl

/-- A level starts one past `2 ^ b` copies of the levels above it. -/
theorem levelStart_succ_eq_mul (t : Nat) : levelStart b (t + 1) = 2 ^ b * levelStart b t + 1 := by
  induction t with
  | zero => simp [levelStart]
  | succ t ih =>
    rw [levelStart_succ b (t + 1)]
    nth_rewrite 1 [ih]
    rw [levelStart_succ b t, pow_succ]
    ring

/-- The child `c + 1` of the node at depth `t` and position `q`. -/
theorem child_index (t q c : Nat) :
    ((levelStart b t + q) <<< b) + c + 1 = levelStart b (t + 1) + (2 ^ b * q + c) := by
  rw [Nat.shiftLeft_eq, levelStart_succ_eq_mul]
  ring

/-- The parent of the node at depth `t + 1` and position `q`. -/
theorem parent_index (t q : Nat) :
    (levelStart b (t + 1) + q - 1) >>> b = levelStart b t + q / 2 ^ b := by
  have hsplit : levelStart b (t + 1) + q - 1 = q + 2 ^ b * levelStart b t := by
    rw [levelStart_succ_eq_mul]
    omega
  rw [Nat.shiftRight_eq_div_pow, hsplit, Nat.add_mul_div_left _ _ (Nat.two_pow_pos b),
    Nat.add_comm]

/-- The low bits of the node at depth `t + 1` and position `q`: one past its place among its
siblings, and zero for the last of them. -/
theorem offset_index (t q : Nat) :
    (levelStart b (t + 1) + q) &&& (2 ^ b - 1) = (q + 1) % 2 ^ b := by
  have hsplit : levelStart b (t + 1) + q = (q + 1) + 2 ^ b * levelStart b t := by
    rw [levelStart_succ_eq_mul]
    omega
  rw [Nat.and_two_pow_sub_one_eq_mod, hsplit, Nat.add_mul_mod_self_left]

theorem levelStart_mono {t t' : Nat} (h : t ≤ t') : levelStart b t ≤ levelStart b t' := by
  induction h with
  | refl => exact le_rfl
  | step _ ih => exact ih.trans (Nat.le_add_right _ _)

/-- A node lies before the level `d` exactly when its depth is above `d`. -/
theorem lt_levelStart_iff {t q d : Nat} (hq : q < (2 ^ b) ^ t) :
    levelStart b t + q < levelStart b d ↔ t < d := by
  constructor
  · intro h
    by_contra hd
    have := levelStart_mono b (Nat.le_of_not_lt hd)
    omega
  · intro h
    have := levelStart_mono b (Nat.succ_le_of_lt h)
    rw [levelStart_succ] at this
    omega

theorem levelStart_succ_pos (t : Nat) : 0 < levelStart b (t + 1) := by
  rw [levelStart_succ_eq_mul]
  omega

/-- A node's index gives back its depth and position. -/
theorem levelStart_add_inj {t t' q q' : Nat} (hq : q < (2 ^ b) ^ t) (hq' : q' < (2 ^ b) ^ t')
    (h : levelStart b t + q = levelStart b t' + q') : t = t' ∧ q = q' := by
  have hlt : ∀ {t t' q q'}, q < (2 ^ b) ^ t → t < t' → levelStart b t + q < levelStart b t' + q' :=
    fun hq htt => Nat.lt_of_lt_of_le ((lt_levelStart_iff b hq).mpr htt) (Nat.le_add_right _ _)
  rcases Nat.lt_trichotomy t t' with htt | rfl | htt
  · exact absurd h (Nat.ne_of_lt (hlt hq htt))
  · exact ⟨rfl, by omega⟩
  · exact absurd h.symm (Nat.ne_of_lt (hlt hq' htt))

/-! ## The leaves under a node -/

/-- The sum of `f` over the leaves under the node at height `h` and position `q`. -/
def leafSum (f : Nat → Nat) (h q : Nat) : Nat :=
  ∑ i ∈ Finset.Ico (q * (2 ^ b) ^ h) ((q + 1) * (2 ^ b) ^ h), f i

variable {b}

@[simp] theorem leafSum_zero (f : Nat → Nat) (q : Nat) : leafSum b f 0 q = f q := by
  simp [leafSum]

/-- The first `j` children of a node hold the first `j` blocks of its leaves. -/
theorem sum_range_leafSum (f : Nat → Nat) (h q : Nat) :
    ∀ j, ∑ c ∈ Finset.range j, leafSum b f h (2 ^ b * q + c) =
      ∑ i ∈ Finset.Ico (q * (2 ^ b) ^ (h + 1)) (q * (2 ^ b) ^ (h + 1) + j * (2 ^ b) ^ h), f i
  | 0 => by simp
  | j + 1 => by
    have hlo : (2 ^ b * q + j) * (2 ^ b) ^ h = q * (2 ^ b) ^ (h + 1) + j * (2 ^ b) ^ h := by ring
    have hhi : (2 ^ b * q + j + 1) * (2 ^ b) ^ h =
        q * (2 ^ b) ^ (h + 1) + (j + 1) * (2 ^ b) ^ h := by ring
    rw [Finset.sum_range_succ, sum_range_leafSum f h q j, leafSum, hlo, hhi]
    exact Finset.sum_Ico_consecutive f (Nat.le_add_right _ _)
      (Nat.add_le_add_left (Nat.mul_le_mul_right _ (Nat.le_succ j)) _)

/-- A node's sum is the sum of its children's. -/
theorem leafSum_succ (f : Nat → Nat) (h q : Nat) :
    leafSum b f (h + 1) q = ∑ c ∈ Finset.range (2 ^ b), leafSum b f h (2 ^ b * q + c) := by
  have hhi : (q + 1) * (2 ^ b) ^ (h + 1) = q * (2 ^ b) ^ (h + 1) + 2 ^ b * (2 ^ b) ^ h := by ring
  rw [sum_range_leafSum, leafSum, hhi]

/-- The root of a tree of height `d` holds the first `(2 ^ b) ^ d` leaves. -/
theorem leafSum_root (f : Nat → Nat) (d : Nat) :
    leafSum b f d 0 = ∑ i ∈ Finset.range ((2 ^ b) ^ d), f i := by
  rw [leafSum, Nat.zero_mul, Nat.zero_add, Nat.one_mul, Finset.range_eq_Ico]

theorem mem_leaves_iff {h q i : Nat} :
    i ∈ Finset.Ico (q * (2 ^ b) ^ h) ((q + 1) * (2 ^ b) ^ h) ↔ i / (2 ^ b) ^ h = q := by
  have hpos : 0 < (2 ^ b) ^ h := pow_pos (Nat.two_pow_pos b) h
  rw [Finset.mem_Ico, ← Nat.le_div_iff_mul_le hpos, ← Nat.div_lt_iff_lt_mul hpos]
  omega

/-- A leaf's weight is part of the sum of every node above it. -/
theorem le_leafSum {f : Nat → Nat} {h k : Nat} : f k ≤ leafSum b f h (k / (2 ^ b) ^ h) :=
  Finset.single_le_sum (fun _ _ => Nat.zero_le _) (mem_leaves_iff.mpr rfl)

/-- Changing the leaf `k` changes the sum of a node above it by as much. -/
theorem leafSum_update_of_div_eq {f : Nat → Nat} {h q k v : Nat} (hk : k / (2 ^ b) ^ h = q) :
    leafSum b (Function.update f k v) h q + f k = leafSum b f h q + v := by
  have hmem := mem_leaves_iff.mpr hk
  unfold leafSum
  rw [Finset.sum_update_of_mem hmem, ← Finset.add_sum_erase _ _ hmem,
    Finset.sdiff_singleton_eq_erase]
  omega

/-- Changing the leaf `k` leaves the sum of a node not above it alone. -/
theorem leafSum_update_of_div_ne {f : Nat → Nat} {h q k v : Nat} (hk : k / (2 ^ b) ^ h ≠ q) :
    leafSum b (Function.update f k v) h q = leafSum b f h q :=
  Finset.sum_update_of_notMem (fun hmem => hk (mem_leaves_iff.mp hmem)) _ _

/-- The node at height `h + 1` above a leaf is the parent of the one at height `h`. -/
theorem div_pow_succ (k h : Nat) : k / (2 ^ b) ^ (h + 1) = k / (2 ^ b) ^ h / 2 ^ b := by
  rw [Nat.div_div_eq_div_mul, pow_succ]

end ImplicitTree
