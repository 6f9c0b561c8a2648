import Mathlib.Data.List.Basic

/-!
# Cutting a list into chunks

A list cut into pieces of `n` elements, the last one shorter when `n` does not divide the length,
as `slice::chunks` does. The pieces join back to the list (`flatten_chunks`); none is empty and
none is longer than `n` (`length_le_of_mem_chunks`); a list of `k` times `n` elements gives `k`
pieces of exactly `n` (`chunks_of_length_eq_mul`); and a list gives `⌈len / n⌉` pieces
(`length_chunks`).
-/

namespace Chunks

variable {α : Type}

/-- The list cut into pieces of `n`; nothing for `n = 0`, where `slice::chunks` panics. -/
def chunks (n : Nat) (l : List α) : List (List α) :=
  if _h : 0 < n ∧ l ≠ [] then l.take n :: chunks n (l.drop n) else []
termination_by l.length
decreasing_by
  have hpos := List.length_pos_iff.mpr _h.2
  rw [List.length_drop]
  omega

@[simp] theorem chunks_nil (n : Nat) : chunks n ([] : List α) = [] := by
  rw [chunks, dif_neg (by simp)]

theorem chunks_of_ne_nil {n : Nat} {l : List α} (hn : 0 < n) (hl : l ≠ []) :
    chunks n l = l.take n :: chunks n (l.drop n) := by
  rw [chunks, dif_pos ⟨hn, hl⟩]

/-- The pieces join back to the list. -/
theorem flatten_chunks {n : Nat} (hn : 0 < n) (l : List α) : (chunks n l).flatten = l := by
  induction l using chunks.induct n with
  | case1 l h ih => rw [chunks_of_ne_nil hn h.2, List.flatten_cons, ih, List.take_append_drop]
  | case2 l h =>
    have hl : l = [] := by
      by_contra hl
      exact h ⟨hn, hl⟩
    subst hl
    rw [chunks_nil, List.flatten_nil]

/-- Every piece has between one and `n` elements. -/
theorem length_le_of_mem_chunks {n : Nat} {l c : List α} (hc : c ∈ chunks n l) :
    0 < c.length ∧ c.length ≤ n := by
  induction l using chunks.induct n with
  | case1 l h ih =>
    rw [chunks_of_ne_nil h.1 h.2, List.mem_cons] at hc
    rcases hc with rfl | hc
    · have hpos := List.length_pos_iff.mpr h.2
      rw [List.length_take]
      omega
    · exact ih hc
  | case2 l h =>
    rw [chunks, dif_neg h] at hc
    cases hc

/-- A list of `k` times `n` elements gives `k` pieces of exactly `n`. -/
theorem chunks_of_length_eq_mul {n : Nat} (hn : 0 < n) :
    ∀ (k : Nat) (l : List α), l.length = k * n →
      (chunks n l).length = k ∧ ∀ c ∈ chunks n l, c.length = n
  | 0, l, hl => by
    rw [Nat.zero_mul, List.length_eq_zero_iff] at hl
    subst hl
    simp
  | k + 1, l, hl => by
    have hne : l ≠ [] := List.ne_nil_of_length_pos (by rw [hl, Nat.succ_mul]; omega)
    have hrest : (l.drop n).length = k * n := by
      rw [List.length_drop, hl, Nat.succ_mul]
      omega
    obtain ⟨hlen, hpieces⟩ := chunks_of_length_eq_mul hn k (l.drop n) hrest
    rw [chunks_of_ne_nil hn hne, List.length_cons, hlen]
    refine ⟨rfl, fun c hc => ?_⟩
    rcases List.mem_cons.mp hc with rfl | hc
    · rw [List.length_take, hl, Nat.succ_mul]
      omega
    · exact hpieces c hc

/-- A list gives `⌈len / n⌉` pieces. -/
theorem length_chunks {n : Nat} (hn : 0 < n) (l : List α) :
    (chunks n l).length = (l.length + n - 1) / n := by
  induction l using chunks.induct n with
  | case1 l h ih =>
    have hpos := List.length_pos_iff.mpr h.2
    rw [chunks_of_ne_nil hn h.2, List.length_cons, ih, List.length_drop]
    -- one piece more than the rest, which is `n` shorter
    by_cases hle : n ≤ l.length
    · have hsplit : l.length + n - 1 = (l.length - n + n - 1) + 1 * n := by omega
      rw [hsplit, Nat.add_mul_div_right _ _ hn]
    · have hrest : l.length - n + n - 1 < n := by omega
      have hone : n ≤ l.length + n - 1 := by omega
      rw [Nat.div_eq_of_lt hrest]
      have h1 : (l.length + n - 1) / n = 1 := by
        apply Nat.div_eq_of_lt_le
        · rw [Nat.one_mul]
          exact hone
        · omega
      rw [h1]
  | case2 l h =>
    have hl : l = [] := by
      by_contra hl
      exact h ⟨hn, hl⟩
    subst hl
    simp only [chunks_nil, List.length_nil, Nat.zero_add]
    exact (Nat.div_eq_of_lt (by omega)).symm

end Chunks
