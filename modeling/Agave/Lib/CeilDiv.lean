import Mathlib.Algebra.Order.Floor.Semiring
import Mathlib.Algebra.Order.Field.Basic
import Mathlib.Data.Rat.Floor

/-!
# Rounding a quotient up

Integer code rounds `n / d` up as `(n + d - 1) / d`. That is the least `c` with `n ≤ c * d`, so
it lies within one `d` above `n` and is `⌈n / d⌉` over the rationals
(`add_pred_div_eq_ceil`). A weighted mean of two values rounded up this way stays between the
two values (`weighted_add_pred_div_mem`).
-/

namespace CeilDiv

variable {n d k c : ℕ}

theorem le_add_pred_div_mul (n : ℕ) (hd : 0 < d) : n ≤ (n + d - 1) / d * d := by
  have h := Nat.lt_mul_div_succ (n + d - 1) hd
  rw [Nat.mul_add, Nat.mul_one, Nat.mul_comm] at h
  omega

theorem add_pred_div_mul_lt (n : ℕ) (hd : 0 < d) : (n + d - 1) / d * d < n + d := by
  have h := Nat.div_mul_le_self (n + d - 1) d
  omega

/-- Rounding up never goes past a multiple of `d` that covers `n`. -/
theorem add_pred_div_le (hd : 0 < d) (h : n ≤ k * d) : (n + d - 1) / d ≤ k := by
  have hlt : n + d - 1 < (k + 1) * d := by rw [Nat.add_mul]; omega
  have := (Nat.div_lt_iff_lt_mul hd).mpr hlt
  omega

/-- Rounding up never falls below a multiple of `d` that `n` covers. -/
theorem le_add_pred_div (hd : 0 < d) (h : k * d ≤ n) : k ≤ (n + d - 1) / d :=
  (Nat.le_div_iff_mul_le hd).mpr (by omega)

/-- A larger divisor rounds up to no more. -/
theorem add_pred_div_le_of_le {d₁ d₂ : ℕ} (hd₁ : 0 < d₁) (hd : d₁ ≤ d₂) (n : ℕ) :
    (n + d₂ - 1) / d₂ ≤ (n + d₁ - 1) / d₁ :=
  add_pred_div_le (Nat.lt_of_lt_of_le hd₁ hd)
    (Nat.le_trans (le_add_pred_div_mul n hd₁) (Nat.mul_le_mul_left _ hd))

/-- The two bounds pin the rounded-up quotient down. -/
theorem ceil_div_eq_of_bounds (hd : 0 < d) (hlo : n ≤ c * d) (hhi : c * d < n + d) :
    ⌈(n : ℚ) / d⌉₊ = c := by
  have hd' : (0 : ℚ) < d := by exact_mod_cast hd
  apply le_antisymm
  · rw [Nat.ceil_le, div_le_iff₀ hd']
    exact_mod_cast hlo
  · rcases Nat.eq_zero_or_pos c with rfl | hc
    · exact Nat.zero_le _
    -- `c - 1` falls short of `n / d`, so the ceiling is at least `c`
    have hpred : (c - 1) * d < n := by
      have hdc : d ≤ c * d := Nat.le_mul_of_pos_left d hc
      rw [Nat.sub_mul, Nat.one_mul]
      omega
    have hlt : c - 1 < ⌈(n : ℚ) / d⌉₊ := by
      rw [Nat.lt_ceil, lt_div_iff₀ hd']
      exact_mod_cast hpred
    omega

theorem add_pred_div_eq_ceil (n : ℕ) (hd : 0 < d) : (n + d - 1) / d = ⌈(n : ℚ) / d⌉₊ :=
  (ceil_div_eq_of_bounds hd (le_add_pred_div_mul n hd) (add_pred_div_mul_lt n hd)).symm

/-- The mean of `x` and `y` weighted by `a` and `b`, rounded up, lies between `x` and `y`. -/
theorem weighted_add_pred_div_mem {x y a b : ℕ} (h : 0 < a + b) :
    min x y ≤ (x * a + y * b + (a + b) - 1) / (a + b) ∧
      (x * a + y * b + (a + b) - 1) / (a + b) ≤ max x y := by
  have hmin : min x y * (a + b) ≤ x * a + y * b := by
    rw [Nat.mul_add]
    exact Nat.add_le_add (Nat.mul_le_mul_right a (min_le_left x y))
      (Nat.mul_le_mul_right b (min_le_right x y))
  have hmax : x * a + y * b ≤ max x y * (a + b) := by
    rw [Nat.mul_add]
    exact Nat.add_le_add (Nat.mul_le_mul_right a (le_max_left x y))
      (Nat.mul_le_mul_right b (le_max_right x y))
  exact ⟨le_add_pred_div h hmin, add_pred_div_le h hmax⟩

end CeilDiv
