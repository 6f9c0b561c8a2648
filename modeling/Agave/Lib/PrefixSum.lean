import Mathlib

/-!
# Running sums and the first one past a value

`prefixSums l` lists the running sums of `l`, as a scan that adds each entry to an accumulator
and yields it. The `k`-th of them is the sum of the first `k + 1` entries (`getElem_prefixSums`).
The first running sum past `v` is at the one position `k` whose prefix sum is at most `v` and
whose prefix sum with its own entry is past it (`findIdx?_prefixSums_eq_some_iff`). A value below
the total has such a position (`exists_prefix_of_lt_sum`).
-/

namespace PrefixSum

open Finset

/-- The running sums of `l`: `iter().scan(0, |acc, &w| { *acc += w; Some(*acc) })`. -/
def prefixSums (l : List Nat) : List Nat := (l.scanl (· + ·) 0).tail

variable {l : List Nat}

theorem sum_take_eq_sum_range (l : List Nat) :
    ∀ n, (l.take n).sum = ∑ i ∈ range n, l.getD i 0
  | 0 => by simp
  | n + 1 => by
    rw [List.take_add_one, List.sum_append, sum_take_eq_sum_range l n, sum_range_succ,
      List.getD_eq_getElem?_getD]
    cases l[n]? <;> simp

theorem sum_eq_sum_range {n : Nat} (hn : l.length ≤ n) : l.sum = ∑ i ∈ range n, l.getD i 0 := by
  rw [← sum_take_eq_sum_range, List.take_of_length_le hn]

@[simp] theorem length_prefixSums : (prefixSums l).length = l.length := by
  simp [prefixSums]

theorem getElem_prefixSums {i : Nat} (hi : i < (prefixSums l).length) :
    (prefixSums l)[i] = ∑ j ∈ range (i + 1), l.getD j 0 := by
  simp only [prefixSums, List.getElem_tail, List.getElem_scanl]
  rw [← sum_take_eq_sum_range, List.sum_eq_foldl]

/-- The first running sum past `v` is at the position whose prefix sum is at most `v` and whose
prefix sum with its own entry is past it. -/
theorem findIdx?_prefixSums_eq_some_iff {v k : Nat} :
    (prefixSums l).findIdx? (fun acc => decide (v < acc)) = some k ↔
      k < l.length ∧ ∑ i ∈ range k, l.getD i 0 ≤ v ∧ v < ∑ i ∈ range (k + 1), l.getD i 0 := by
  rw [List.findIdx?_eq_some_iff_getElem]
  constructor
  · rintro ⟨hk, hpast, hbefore⟩
    rw [getElem_prefixSums, decide_eq_true_eq] at hpast
    refine ⟨by simpa using hk, ?_, hpast⟩
    cases k with
    | zero => simp
    | succ j =>
      have hj := hbefore j (Nat.lt_succ_self j)
      rw [getElem_prefixSums, decide_eq_true_eq] at hj
      omega
  · rintro ⟨hk, hprefix, hpast⟩
    refine ⟨by simpa using hk, ?_, fun j hj => ?_⟩
    · rw [getElem_prefixSums, decide_eq_true_eq]
      exact hpast
    · -- an earlier running sum is at most the prefix before `k`
      rw [getElem_prefixSums, decide_eq_true_eq]
      have hmono : ∑ i ∈ range (j + 1), l.getD i 0 ≤ ∑ i ∈ range k, l.getD i 0 :=
        sum_le_sum_of_subset (range_mono (Nat.succ_le_of_lt hj))
      omega

/-- A value below the sum of the first `n` terms falls in the block of one of them. -/
theorem exists_prefix_of_lt_sum {f : Nat → Nat} {v : Nat} :
    ∀ {n}, v < ∑ i ∈ range n, f i →
      ∃ k < n, ∑ i ∈ range k, f i ≤ v ∧ v < ∑ i ∈ range (k + 1), f i
  | 0, h => by simp at h
  | n + 1, h => by
    by_cases hn : v < ∑ i ∈ range n, f i
    · obtain ⟨k, hk, hprefix, hpast⟩ := exists_prefix_of_lt_sum hn
      exact ⟨k, Nat.lt_succ_of_lt hk, hprefix, hpast⟩
    · exact ⟨n, Nat.lt_succ_self n, Nat.le_of_not_lt hn, h⟩

end PrefixSum
