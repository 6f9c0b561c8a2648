import Mathlib.Data.List.Basic

/-!
# Machine words as sets of bit indices

A `BitVec w` read as the set of the indices of its set bits, all below `w`. The bit-counting
operations of a word, `cpop` (Rust's `count_ones`) and `ctz` (`trailing_zeros`), are
characterised on that reading: the population count counts the members
(`toNat_cpop_eq_countP`), so it is one exactly for a single member (`countP_range_eq_one_iff`),
and a word whose one member is `i` has `i` trailing zeros (`toNat_ctz_of_forall_getLsbD`). The
word `1 <<< t` is the set `{t}` and `(1 <<< n) - 1` is `{0, …, n - 1}`.

A word's members are listed, lowest first, by the loop that takes the lowest set bit (`ctz`) and
clears it (`x & (x - 1)`, `getLsbD_and_sub_one`): `setBitIndices`, whose members are the set bits
(`mem_setBitIndices`) in increasing order (`pairwise_setBitIndices`).
-/

namespace BitSet

variable {w : Nat}

theorem cpopNatRec_zero_eq_countP (x : BitVec w) (n : Nat) :
    x.cpopNatRec n 0 = (List.range n).countP (x.getLsbD ·) := by
  induction n with
  | zero => rfl
  | succ n ih =>
    rw [BitVec.cpopNatRec_succ, BitVec.cpopNatRec_add, ih, List.range_succ, List.countP_append]
    cases hbit : x.getLsbD n <;> simp [hbit]

/-- The population count of a word counts its set bits. -/
theorem toNat_cpop_eq_countP (x : BitVec w) :
    x.cpop.toNat = (List.range w).countP (x.getLsbD ·) := by
  rw [BitVec.toNat_cpop, cpopNatRec_zero_eq_countP]

/-- A predicate holds at one index below `n` exactly when it holds there and nowhere else. -/
theorem countP_range_eq_one_iff {n : Nat} {p : Nat → Bool} :
    (List.range n).countP p = 1 ↔ ∃ i < n, ∀ j < n, p j = decide (j = i) := by
  constructor
  · intro h
    rw [List.countP_eq_length_filter, List.length_eq_one_iff] at h
    obtain ⟨i, hi⟩ := h
    have hmem : ∀ j, j ∈ (List.range n).filter p ↔ j = i := by
      rw [hi]
      simp
    have hin := (hmem i).mpr rfl
    rw [List.mem_filter, List.mem_range] at hin
    refine ⟨i, hin.1, fun j hj => ?_⟩
    have hj' := hmem j
    rw [List.mem_filter, List.mem_range] at hj'
    cases hp : p j <;> simp_all
  · rintro ⟨i, hi, hp⟩
    rw [List.countP_eq_length_filter, List.filter_congr fun j hj => hp j (List.mem_range.mp hj),
      List.filter_eq, List.count_range, if_pos hi]
    rfl

/-- A word whose only set bit is `i` has `i` trailing zeros. -/
theorem toNat_ctz_of_forall_getLsbD {x : BitVec w} {i : Nat} (hi : i < w)
    (h : ∀ j < w, x.getLsbD j = decide (j = i)) : x.ctz.toNat = i := by
  have hne : x ≠ 0#w := by
    intro hx
    have := h i hi
    rw [hx, BitVec.getLsbD_zero] at this
    simp at this
  have hbit := BitVec.getLsbD_true_ctz_of_ne_zero hne
  rw [h _ (BitVec.lt_of_getLsbD hbit)] at hbit
  simpa using hbit

/-- `1 <<< t` is the set `{t}`. -/
theorem getLsbD_one_shiftLeft (t j : Nat) :
    ((1#w) <<< t).getLsbD j = (decide (j < w) && decide (j = t)) := by
  rw [BitVec.getLsbD_shiftLeft, BitVec.getLsbD_one]
  by_cases hjt : j = t
  · subst hjt
    by_cases hj : j < w <;> simp [hj]
    omega
  · by_cases hlt : j < t
    · simp [hlt, hjt]
    · have : j - t ≠ 0 := by omega
      simp [hjt, this]

/-- `(1 <<< n) - 1` is the set `{0, …, n - 1}` for `n` below the width. -/
theorem getLsbD_one_shiftLeft_sub_one {n : Nat} (hn : n < w) (j : Nat) :
    ((1#w <<< n) - 1#w).getLsbD j = decide (j < n) := by
  have hpos : 1 ≤ 2 ^ n := Nat.one_le_two_pow
  have hlt : 2 ^ n < 2 ^ w := Nat.pow_lt_pow_right (by decide) hn
  have hone : (1#w).toNat = 1 := by
    rw [BitVec.toNat_ofNat, Nat.mod_eq_of_lt (by omega)]
  have hshift : (1#w <<< n).toNat = 2 ^ n := by
    rw [BitVec.toNat_shiftLeft, hone, Nat.one_shiftLeft, Nat.mod_eq_of_lt hlt]
  have hsub : ((1#w <<< n) - 1#w).toNat = 2 ^ n - 1 := by
    rw [BitVec.toNat_sub, hshift, hone,
      show 2 ^ w - 1 + 2 ^ n = 2 ^ n - 1 + 2 ^ w by omega, Nat.add_mod_right,
      Nat.mod_eq_of_lt (by omega)]
  rw [← BitVec.testBit_toNat, hsub, Nat.testBit_two_pow_sub_one]

theorem toNat_pos_of_ne_zero {x : BitVec w} (hx : x ≠ 0#w) : 0 < x.toNat := by
  rw [Nat.pos_iff_ne_zero]
  intro h
  exact hx (BitVec.eq_of_toNat_eq (by rw [h, BitVec.toNat_ofNat, Nat.zero_mod]))

/-- One less than a nonzero word, as a number. -/
theorem toNat_sub_one_of_ne_zero {x : BitVec w} (hx : x ≠ 0#w) :
    (x - 1#w).toNat = x.toNat - 1 := by
  have hpos := toNat_pos_of_ne_zero hx
  -- a nonzero word has a bit, so `1` is a word of its width
  have hw : w ≠ 0 := Nat.one_lt_two_pow_iff.mp (Nat.lt_of_lt_of_le (by omega) x.isLt)
  have hone : (1#w).toNat = 1 := by
    rw [BitVec.toNat_ofNat, Nat.mod_eq_of_lt (Nat.one_lt_two_pow hw)]
  rw [BitVec.toNat_sub_of_le (by rw [BitVec.le_def, hone]; omega), hone]

/-- Clearing the lowest set bit: `x & (x - 1)` keeps every set bit of `x` but the one at
`ctz x`. -/
theorem getLsbD_and_sub_one {x : BitVec w} (hx : x ≠ 0#w) (j : Nat) :
    (x &&& (x - 1#w)).getLsbD j = (x.getLsbD j && decide (j ≠ x.ctz.toNat)) := by
  have hc : x.getLsbD x.ctz.toNat = true := BitVec.getLsbD_true_ctz_of_ne_zero hx
  -- below and at `ctz x` the word is `2 ^ ctz x`
  have hlow : x.toNat % 2 ^ (x.ctz.toNat + 1) = 2 ^ x.ctz.toNat := by
    apply Nat.eq_of_testBit_eq
    intro i
    rw [Nat.testBit_mod_two_pow, Nat.testBit_two_pow, BitVec.testBit_toNat]
    by_cases hi : i < x.ctz.toNat
    · rw [BitVec.getLsbD_false_of_lt_ctz hi]
      simp only [Bool.and_false]
      exact (decide_eq_false (by omega)).symm
    · by_cases hic : i = x.ctz.toNat
      · subst hic
        simp [hc]
      · simp only [show ¬i < x.ctz.toNat + 1 by omega, decide_false, Bool.false_and]
        exact (decide_eq_false (by omega)).symm
  have hpow : 2 ^ x.ctz.toNat < 2 ^ (x.ctz.toNat + 1) := Nat.pow_lt_pow_right (by decide) (by omega)
  -- so `x` is `2 ^ (c + 1) * q + 2 ^ c` and `x - 1` is `2 ^ (c + 1) * q + (2 ^ c - 1)`
  have hsplit := Nat.div_add_mod x.toNat (2 ^ (x.ctz.toNat + 1))
  rw [hlow] at hsplit
  generalize x.toNat / 2 ^ (x.ctz.toNat + 1) = q at hsplit
  have hsub : (x - 1#w).toNat = 2 ^ (x.ctz.toNat + 1) * q + (2 ^ x.ctz.toNat - 1) := by
    rw [toNat_sub_one_of_ne_zero hx, ← hsplit]
    have := Nat.one_le_two_pow (n := x.ctz.toNat)
    omega
  have hxj : x.getLsbD j =
      if j < x.ctz.toNat + 1 then decide (x.ctz.toNat = j) else q.testBit (j - (x.ctz.toNat + 1)) := by
    rw [← BitVec.testBit_toNat, ← hsplit, Nat.testBit_two_pow_mul_add _ hpow, Nat.testBit_two_pow]
  have hsj : (x - 1#w).getLsbD j =
      if j < x.ctz.toNat + 1 then decide (j < x.ctz.toNat) else q.testBit (j - (x.ctz.toNat + 1)) := by
    rw [← BitVec.testBit_toNat, hsub, Nat.testBit_two_pow_mul_add _ (by omega),
      Nat.testBit_two_pow_sub_one]
  rw [BitVec.getLsbD_and, hxj, hsj]
  by_cases hj : j < x.ctz.toNat + 1
  · -- at and below the lowest set bit nothing is left
    rw [if_pos hj, if_pos hj]
    by_cases hjc : j = x.ctz.toNat
    · subst hjc
      simp
    · simp [hjc, Ne.symm hjc]
  · rw [if_neg hj, if_neg hj]
    simp [show j ≠ x.ctz.toNat by omega]

theorem toNat_and_sub_one_lt {x : BitVec w} (hx : x ≠ 0#w) :
    (x &&& (x - 1#w)).toNat < x.toNat := by
  have hle := Nat.and_le_right (n := x.toNat) (m := (x - 1#w).toNat)
  have hpos := toNat_pos_of_ne_zero hx
  rw [BitVec.toNat_and]
  rw [toNat_sub_one_of_ne_zero hx] at hle ⊢
  omega

/-- The set bits of a word, lowest first: the lowest set bit, then those of the word with it
cleared, until none is left. -/
def setBitIndices (x : BitVec w) : List Nat :=
  if x = 0#w then []
  else x.ctz.toNat :: setBitIndices (x &&& (x - 1#w))
termination_by x.toNat
decreasing_by exact toNat_and_sub_one_lt (by assumption)

theorem mem_setBitIndices (x : BitVec w) (i : Nat) : i ∈ setBitIndices x ↔ x.getLsbD i = true := by
  induction x using setBitIndices.induct with
  | case1 =>
    rw [setBitIndices, if_pos rfl, BitVec.getLsbD_zero]
    simp
  | case2 x hx ih =>
    rw [setBitIndices, if_neg hx, List.mem_cons, ih, getLsbD_and_sub_one hx]
    by_cases hi : i = x.ctz.toNat
    · subst hi
      simp [BitVec.getLsbD_true_ctz_of_ne_zero hx]
    · simp [hi]

/-- The loop lists the set bits in increasing order: each bit it takes is the lowest left. -/
theorem pairwise_setBitIndices (x : BitVec w) : (setBitIndices x).Pairwise (· < ·) := by
  induction x using setBitIndices.induct with
  | case1 =>
    rw [setBitIndices, if_pos rfl]
    exact List.Pairwise.nil
  | case2 x hx ih =>
    rw [setBitIndices, if_neg hx, List.pairwise_cons]
    refine ⟨fun i hi => ?_, ih⟩
    rw [mem_setBitIndices, getLsbD_and_sub_one hx, Bool.and_eq_true, decide_eq_true_eq] at hi
    -- a set bit is not below the lowest one, and it is not the lowest one
    have hge : ¬i < x.ctz.toNat := fun hlt => by
      rw [BitVec.getLsbD_false_of_lt_ctz hlt] at hi
      exact Bool.false_ne_true hi.1
    omega

/-- `!0 << n`: the bits from `n` up. -/
theorem getLsbD_allOnes_shiftLeft (n j : Nat) :
    (BitVec.allOnes w <<< n).getLsbD j = (decide (j < w) && decide (n ≤ j)) := by
  rw [BitVec.getLsbD_shiftLeft, BitVec.getLsbD_allOnes]
  by_cases hj : j < w <;> by_cases hn : j < n <;> simp [hj, hn]
  omega

/-- `!0 >> (w - n)`: the bits below `n`, for `n` up to the width. -/
theorem getLsbD_allOnes_ushiftRight {n : Nat} (hn : n ≤ w) (j : Nat) :
    (BitVec.allOnes w >>> (w - n)).getLsbD j = decide (j < n) := by
  rw [BitVec.getLsbD_ushiftRight, BitVec.getLsbD_allOnes]
  exact decide_eq_decide.mpr (by omega)

/-- A word meets the set `{t}` exactly when its bit `t` is set. -/
theorem and_one_shiftLeft_ne_zero_iff {x : BitVec w} {t : Nat} (ht : t < w) :
    x &&& (1#w <<< t) ≠ 0#w ↔ x.getLsbD t = true := by
  rw [Ne, BitVec.eq_of_getLsbD_eq_iff]
  simp only [BitVec.getLsbD_and, getLsbD_one_shiftLeft, BitVec.getLsbD_zero, not_forall]
  constructor
  · rintro ⟨i, hi, h⟩
    by_cases hit : i = t
    · subst hit
      cases hx : x.getLsbD i <;> simp_all
    · simp [hit] at h
  · intro h
    exact ⟨t, ht, by simp [h, ht]⟩

end BitSet
