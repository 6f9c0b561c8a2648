import Mathlib.Order.MinMax
import Mathlib.Algebra.Order.Group.Int
import Mathlib.Tactic.Ring

/-!
# `Duration` and the `i64` arithmetic beside it

A `std::time::Duration` is whole seconds, a `u64`, and the nanoseconds below a second. Its
arithmetic is that of its length in nanoseconds (`toNanos`), cut off where the seconds would
leave `u64`: `saturating_mul` by a `u32` is the product capped at `Duration::MAX`
(`toNanos_saturatingMul`), dividing by a `u32` is the floor of the quotient (`toNanos_div`),
`saturating_sub` is truncated subtraction (`toNanos_saturatingSub`), and the derived order on
`(secs, nanos)` is the order of the lengths (`lt_iff_toNanos_lt`).

An `i64` is an integer in `[I64.MIN, I64.MAX]`: a saturating add or subtract clamps into that
range, and the casts `u64 as i64` and `i64 as u64` wrap modulo `2 ^ 64`. Each is the plain
operation on the range where nothing is clamped or wrapped.
-/

def NANOS_PER_SEC : Nat := 1000000000

/-- `Duration`: the seconds fit a `u64` and the nanoseconds stay below a second. -/
structure Duration where
  secs : Nat
  nanos : Nat
  secs_le : secs ≤ 2 ^ 64 - 1
  nanos_lt : nanos < NANOS_PER_SEC

namespace Duration

/-- The length in nanoseconds. -/
def toNanos (d : Duration) : Nat := d.secs * NANOS_PER_SEC + d.nanos

/-- `Duration::ZERO`. -/
def ZERO : Duration := ⟨0, 0, by decide, by decide⟩

/-- `Duration::MAX`. -/
def MAX : Duration := ⟨2 ^ 64 - 1, NANOS_PER_SEC - 1, le_rfl, by decide⟩

/-- `Duration::from_secs` of a `u64`. -/
def fromSecs (secs : Nat) (h : secs ≤ 2 ^ 64 - 1) : Duration := ⟨secs, 0, h, by decide⟩

/-- `as_secs`: the whole seconds. -/
def asSecs (d : Duration) : Nat := d.secs

/-- The derived order: seconds first, then nanoseconds. -/
instance : LT Duration := ⟨fun a b => a.secs < b.secs ∨ (a.secs = b.secs ∧ a.nanos < b.nanos)⟩

instance (a b : Duration) : Decidable (a < b) := inferInstanceAs (Decidable (_ ∨ _))

/-- `checked_mul` by a `u32`: the nanoseconds' product carries into the seconds, and the product
fails where the seconds leave `u64`. -/
def checkedMul (d : Duration) (rhs : Nat) : Option Duration :=
  let totalNanos := d.nanos * rhs
  let extraSecs := totalNanos / NANOS_PER_SEC
  let nanos := totalNanos % NANOS_PER_SEC
  if h : d.secs * rhs + extraSecs ≤ 2 ^ 64 - 1 then
    some ⟨d.secs * rhs + extraSecs, nanos, h, Nat.mod_lt _ (by decide)⟩
  else none

/-- `saturating_mul`. -/
def saturatingMul (d : Duration) (rhs : Nat) : Duration := (d.checkedMul rhs).getD MAX

/-- The nanoseconds of a quotient: the seconds left over, as nanoseconds, are divided with the
nanoseconds. -/
theorem div_add_div_mod (n s r : Nat) (hr : 0 < r) :
    n / r + (s % r * NANOS_PER_SEC + n % r) / r = (n + s % r * NANOS_PER_SEC) / r := by
  conv_rhs => rw [← Nat.div_add_mod n r]
  rw [show r * (n / r) + n % r + s % r * NANOS_PER_SEC =
      r * (n / r) + (s % r * NANOS_PER_SEC + n % r) by omega, Nat.mul_add_div hr]

theorem div_nanos_lt (d : Duration) {r : Nat} (hr : 0 < r) :
    d.nanos / r + (d.secs % r * NANOS_PER_SEC + d.nanos % r) / r < NANOS_PER_SEC := by
  rw [div_add_div_mod _ _ _ hr, Nat.div_lt_iff_lt_mul hr]
  -- what is left of the seconds is at most `r - 1` of them
  have hmod : d.secs % r + 1 ≤ r := Nat.mod_lt _ hr
  have hleft : (d.secs % r + 1) * NANOS_PER_SEC ≤ r * NANOS_PER_SEC := Nat.mul_le_mul_right _ hmod
  have hnanos := d.nanos_lt
  rw [Nat.add_mul, Nat.one_mul] at hleft
  rw [Nat.mul_comm NANOS_PER_SEC r]
  omega

/-- Division by a nonzero `u32`, as `checked_div` computes it. -/
def div (d : Duration) (rhs : Nat) (hrhs : 0 < rhs) : Duration where
  secs := d.secs / rhs
  nanos := d.nanos / rhs + (d.secs % rhs * NANOS_PER_SEC + d.nanos % rhs) / rhs
  secs_le := le_trans (Nat.div_le_self _ _) d.secs_le
  nanos_lt := d.div_nanos_lt hrhs

/-- `checked_sub`: the seconds' difference, borrowing one of them when the nanoseconds fall
short; it fails where the difference would be negative. -/
def checkedSub (a b : Duration) : Option Duration :=
  if hs : b.secs ≤ a.secs then
    if hn : b.nanos ≤ a.nanos then
      some ⟨a.secs - b.secs, a.nanos - b.nanos, le_trans (Nat.sub_le _ _) a.secs_le,
        lt_of_le_of_lt (Nat.sub_le _ _) a.nanos_lt⟩
    else if h1 : 1 ≤ a.secs - b.secs then
      some ⟨a.secs - b.secs - 1, a.nanos + NANOS_PER_SEC - b.nanos,
        le_trans (Nat.sub_le _ _) (le_trans (Nat.sub_le _ _) a.secs_le),
        by have := b.nanos_lt; omega⟩
    else none
  else none

/-- `saturating_sub`. -/
def saturatingSub (a b : Duration) : Duration := (a.checkedSub b).getD ZERO

/-! ### Lengths -/

theorem toNanos_fromSecs (secs : Nat) (h : secs ≤ 2 ^ 64 - 1) :
    (fromSecs secs h).toNanos = secs * NANOS_PER_SEC := by
  simp [fromSecs, toNanos]

theorem asSecs_eq (d : Duration) : d.asSecs = d.toNanos / NANOS_PER_SEC := by
  have hn := d.nanos_lt
  simp only [asSecs, toNanos, NANOS_PER_SEC] at hn ⊢
  omega

theorem lt_iff_toNanos_lt {a b : Duration} : a < b ↔ a.toNanos < b.toNanos := by
  have ha := a.nanos_lt
  have hb := b.nanos_lt
  show a.secs < b.secs ∨ (a.secs = b.secs ∧ a.nanos < b.nanos) ↔ _
  simp only [toNanos, NANOS_PER_SEC] at ha hb ⊢
  omega

/-- `saturating_mul` multiplies the length, up to `Duration::MAX`. -/
theorem toNanos_saturatingMul (d : Duration) (rhs : Nat) :
    (d.saturatingMul rhs).toNanos = min (d.toNanos * rhs) MAX.toNanos := by
  unfold saturatingMul checkedMul
  -- the product in nanoseconds is the seconds' product plus the carried nanoseconds
  have hsplit : d.toNanos * rhs = d.secs * rhs * NANOS_PER_SEC + d.nanos * rhs := by
    unfold toNanos
    ring
  dsimp only
  split_ifs with h
  · show (d.secs * rhs + d.nanos * rhs / NANOS_PER_SEC) * NANOS_PER_SEC +
        d.nanos * rhs % NANOS_PER_SEC = min (d.toNanos * rhs) MAX.toNanos
    rw [hsplit]
    simp only [MAX, toNanos, NANOS_PER_SEC] at h ⊢
    generalize d.secs * rhs = m at h ⊢
    generalize d.nanos * rhs = k at h ⊢
    omega
  · show MAX.toNanos = min (d.toNanos * rhs) MAX.toNanos
    rw [hsplit]
    simp only [MAX, toNanos, NANOS_PER_SEC] at h ⊢
    generalize d.secs * rhs = m at h ⊢
    generalize d.nanos * rhs = k at h ⊢
    omega

/-- Division by a `u32` is the floor of the length's quotient. -/
theorem toNanos_div (d : Duration) {rhs : Nat} (hrhs : 0 < rhs) :
    (d.div rhs hrhs).toNanos = d.toNanos / rhs := by
  simp only [toNanos, div]
  rw [div_add_div_mod _ _ _ hrhs]
  conv_rhs => rw [← Nat.div_add_mod d.secs rhs]
  rw [show (rhs * (d.secs / rhs) + d.secs % rhs) * NANOS_PER_SEC + d.nanos =
      rhs * (d.secs / rhs * NANOS_PER_SEC) + (d.nanos + d.secs % rhs * NANOS_PER_SEC) by ring,
    Nat.mul_add_div hrhs]

/-- `saturating_sub` is truncated subtraction of lengths. -/
theorem toNanos_saturatingSub (a b : Duration) :
    (a.saturatingSub b).toNanos = a.toNanos - b.toNanos := by
  have ha := a.nanos_lt
  have hb := b.nanos_lt
  unfold saturatingSub checkedSub
  split_ifs with hs hn h1 <;> simp only [Option.getD_some, Option.getD_none, toNanos, ZERO,
    NANOS_PER_SEC] at ha hb ⊢
  all_goals omega

/-- One length exceeds another by more than a third. -/
theorem lt_and_lt_saturatingSub_iff {a b c : Duration} :
    (a < b ∧ c < b.saturatingSub a) ↔ a.toNanos + c.toNanos < b.toNanos := by
  rw [lt_iff_toNanos_lt, lt_iff_toNanos_lt, toNanos_saturatingSub]
  omega

end Duration

/-! ## `i64` -/

namespace I64

def MIN : Int := -2 ^ 63

def MAX : Int := 2 ^ 63 - 1

/-- `saturating_add`. -/
def saturatingAdd (a b : Int) : Int := max MIN (min MAX (a + b))

/-- `saturating_sub`. -/
def saturatingSub (a b : Int) : Int := max MIN (min MAX (a - b))

/-- `n as i64` for a `u64`: two's complement, so from `2 ^ 63` on it wraps below zero. -/
def ofU64 (n : Nat) : Int := if n < 2 ^ 63 then n else n - 2 ^ 64

/-- `x as u64` for an `i64`: modulo `2 ^ 64`. -/
def toU64 (x : Int) : Nat := (x % 2 ^ 64).toNat

theorem saturatingAdd_of_le {a b : Int} (hlo : MIN ≤ a + b) (hhi : a + b ≤ MAX) :
    saturatingAdd a b = a + b := by
  rw [saturatingAdd, min_eq_right hhi, max_eq_right hlo]

theorem saturatingSub_of_le {a b : Int} (hlo : MIN ≤ a - b) (hhi : a - b ≤ MAX) :
    saturatingSub a b = a - b := by
  rw [saturatingSub, min_eq_right hhi, max_eq_right hlo]

theorem ofU64_of_lt {n : Nat} (h : n < 2 ^ 63) : ofU64 n = n := by
  rw [ofU64, if_pos h]

theorem toU64_of_nonneg {x : Int} (h0 : 0 ≤ x) (h : x ≤ MAX) : (toU64 x : Int) = x := by
  have hlt : x < 2 ^ 64 := by
    unfold MAX at h
    omega
  rw [toU64, Int.emod_eq_of_lt h0 hlt, Int.toNat_of_nonneg h0]

/-- An `i64` cast to `u64` and back is itself. -/
theorem ofU64_toU64 {x : Int} (hlo : MIN ≤ x) (hhi : x ≤ MAX) : ofU64 (toU64 x) = x := by
  unfold ofU64 toU64
  unfold MIN MAX at *
  split_ifs <;> omega

theorem toU64_lt (x : Int) : toU64 x < 2 ^ 64 := by
  have hlt : x % 2 ^ 64 < 2 ^ 64 := Int.emod_lt_of_pos x (by decide)
  unfold toU64
  omega

theorem toU64_le (x : Int) : toU64 x ≤ 2 ^ 64 - 1 := by
  have hlt : x % 2 ^ 64 < 2 ^ 64 := Int.emod_lt_of_pos x (by decide)
  unfold toU64
  omega

end I64
