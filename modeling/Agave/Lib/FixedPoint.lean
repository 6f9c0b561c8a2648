import Mathlib.Order.Monotone.Basic
import Mathlib.Order.Interval.Set.Basic

/-!
# A fixed point of a monotone map on a range of naturals

A search that tries `a, a + 1, …, b` for an `x` with `f x = x` finds one when `f` is monotone there,
does not go below `a` at `a` and does not go above `b` at `b` (`exists_fixed_point`): climbing from
`a`, each `x` that misses has `x < f x`, and monotonicity carries that to `x + 1 ≤ f (x + 1)`.
It is the discrete form of the intermediate value theorem for `f x - x`.
-/

namespace FixedPoint

/-- The climb over a range of width `n`, moving its lower end up past each miss. -/
theorem exists_fixed_point_of_width {f : ℕ → ℕ} : ∀ (n a : ℕ), MonotoneOn f (Set.Icc a (a + n)) →
    a ≤ f a → f (a + n) ≤ a + n → ∃ x ∈ Set.Icc a (a + n), f x = x
  | 0, a, _, ha, hb => ⟨a, ⟨le_rfl, le_rfl⟩, Nat.le_antisymm hb ha⟩
  | n + 1, a, hf, ha, hb => by
    by_cases hfa : f a = a
    · exact ⟨a, ⟨le_rfl, by omega⟩, hfa⟩
    · have hstep : f a ≤ f (a + 1) := hf ⟨le_rfl, by omega⟩ ⟨by omega, by omega⟩ (by omega)
      have hend : a + 1 + n = a + (n + 1) := by omega
      have hsub : Set.Icc (a + 1) (a + 1 + n) ⊆ Set.Icc a (a + (n + 1)) := fun x hx =>
        ⟨by have := hx.1; omega, by have := hx.2; omega⟩
      obtain ⟨x, hx, hfx⟩ := exists_fixed_point_of_width n (a + 1)
        (fun x hx y hy hxy => hf (hsub hx) (hsub hy) hxy) (by omega) (by rw [hend]; exact hb)
      exact ⟨x, hsub hx, hfx⟩

theorem exists_fixed_point {f : ℕ → ℕ} {a b : ℕ} (hab : a ≤ b) (hf : MonotoneOn f (Set.Icc a b))
    (ha : a ≤ f a) (hb : f b ≤ b) : ∃ x ∈ Set.Icc a b, f x = x := by
  obtain ⟨n, rfl⟩ := Nat.exists_eq_add_of_le hab
  exact exists_fixed_point_of_width n a hf ha hb

end FixedPoint
