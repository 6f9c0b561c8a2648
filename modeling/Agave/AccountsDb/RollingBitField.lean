import Agave.Sdk.Basic

/-!
# Accounts DB: `RollingBitField`

`accounts-db/src/rolling_bit_field.rs`. A set of slots kept as a window `[min, max_exclusive)` of
at most `max_width` keys, one bit per key at address `key % max_width`, with the keys that fell
below `min` kept apart in `excess`. `count` is the number of keys in both.

The bit vector is a function of the address, and the `IntSet` a list without repeats, read in the
list's order where the source iterates it; nothing below depends on that order. A panic
(`assert!`, a `u64` overflow, an underflow of `count`) is `none`.

`insert` has three regimes: the bits hold nothing (so the window restarts at the key), the key
lies below `min` (it goes to `excess`), or the key lies past the window, where a loop moves the
window's least key to `excess` until the key fits. `purge` moves `min` up to the next key after
the one removed, or, when the bits are empty, up to `max_exclusive`.

The structure is built for keys that keep increasing. With keys in any order it loses track of
`excess` (`rolling_bit_field_diverges_from_set`): once the bits are emptied while `excess` still
holds keys, the next `insert` restarts the window at the new key and forgets that `excess` may
hold keys above it, contrary to what `purge` documents. And `get_prior` never tests slot `0`.
-/

namespace Agave.AccountsDb

/-- `RollingBitField`. -/
structure RollingBitField where
  maxWidth : Nat
  min : Nat
  maxExclusive : Nat
  bits : Nat → Bool
  count : Nat
  excess : List Nat

namespace RollingBitField

/-- `new`, whose `assert!`s want a positive power of two. -/
def new (maxWidth : Nat) : Option RollingBitField :=
  if 0 < maxWidth ∧ (List.range 64).any fun k => maxWidth == 2 ^ k then
    some ⟨maxWidth, 0, 0, fun _ => false, 0, []⟩
  else none

/-- `get_address`. -/
def getAddress (r : RollingBitField) (key : Nat) : Nat := key % r.maxWidth

/-- `len`. -/
def len (r : RollingBitField) : Nat := r.count

/-- `is_empty`. -/
def isEmpty (r : RollingBitField) : Bool := r.len == 0

/-- `all_items_in_excess`. -/
def allItemsInExcess (r : RollingBitField) : Bool := r.excess.length == r.count

/-- `contains_assume_in_range`: the bit at the key's address, which may alias another key. -/
def containsAssumeInRange (r : RollingBitField) (key : Nat) : Bool := r.bits (r.getAddress key)

/-- `contains`. -/
def contains (r : RollingBitField) (key : Nat) : Bool :=
  if key < r.maxExclusive then
    if r.min ≤ key then r.containsAssumeInRange key else decide (key ∈ r.excess)
  else false

/-- `min()`, the least key. -/
def min? (r : RollingBitField) : Option Nat :=
  if r.isEmpty then none
  else if r.excess.isEmpty then some r.min
  else
    let excessMin := r.excess.min?
    if r.allItemsInExcess then excessMin
    else some (Nat.min r.min (excessMin.getD U64_MAX))

/-- The `for` loop of `purge`: the first key of the `n` keys from `start` whose bit is set. -/
def findSetKey (r : RollingBitField) : Nat → Nat → Option Nat
  | _, 0 => none
  | start, n + 1 =>
    if r.containsAssumeInRange start then some start else r.findSetKey (start + 1) n

/-- `purge`: after `key` left the bits, `min` moves to the next key of the window if `key` was
the least, and to `max_exclusive` if the bits are now empty. -/
def purge (r : RollingBitField) (key : Nat) : RollingBitField :=
  if 0 < r.count ∧ r.allItemsInExcess = false then
    if key = r.min then
      match r.findSetKey (r.min + 1) (r.maxExclusive - (r.min + 1)) with
      | some next => { r with min := next }
      | none => r
    else r
  else { r with min := r.maxExclusive }

/-- The body of the `loop` of `insert`: the window's least key moves from the bits to `excess`,
and `purge` moves `min` on. -/
def evictMin (r : RollingBitField) : RollingBitField :=
  ({ r with
    excess := r.min :: r.excess
    bits := Function.update r.bits (r.getAddress r.min) false }).purge r.min

theorem findSetKey_bounds {r : RollingBitField} {start n k : Nat}
    (h : r.findSetKey start n = some k) : start ≤ k ∧ k < start + n := by
  induction n generalizing start with
  | zero => simp [findSetKey] at h
  | succ n ih =>
    simp only [findSetKey] at h
    split_ifs at h with hset
    · cases h
      omega
    · have := ih h
      omega

/-- `purge` moves `min` and nothing else. -/
theorem purge_eq (r : RollingBitField) (key : Nat) :
    r.purge key = { r with min := (r.purge key).min } := by
  unfold purge
  split_ifs
  · split <;> rfl
  · rfl
  · rfl

/-- Purging the least key leaves `min` where it was, moves it up inside the window, or, when
the bits are empty, moves it to `max_exclusive`. -/
theorem purge_min (r : RollingBitField) :
    (r.purge r.min).min = r.min ∨
      (r.min < (r.purge r.min).min ∧ (r.purge r.min).min < r.maxExclusive) ∨
      ¬ (0 < r.count ∧ r.allItemsInExcess = false) := by
  by_cases h : 0 < r.count ∧ r.allItemsInExcess = false
  · rw [purge, if_pos h, if_pos rfl]
    rcases hnext : r.findSetKey (r.min + 1) (r.maxExclusive - (r.min + 1)) with _ | next
    · exact Or.inl rfl
    · have := findSetKey_bounds hnext
      exact Or.inr (Or.inl ⟨by simp only; omega, by simp only; omega⟩)
  · exact Or.inr (Or.inr h)

@[simp] theorem evictMin_maxExclusive (r : RollingBitField) :
    r.evictMin.maxExclusive = r.maxExclusive := by
  rw [evictMin, purge_eq]

@[simp] theorem evictMin_excess (r : RollingBitField) : r.evictMin.excess = r.min :: r.excess := by
  rw [evictMin, purge_eq]

@[simp] theorem evictMin_count (r : RollingBitField) : r.evictMin.count = r.count := by
  rw [evictMin, purge_eq]

/-- Where some key is still in the bits after an eviction, `min` has either stayed, or moved up
into the window. -/
theorem evictMin_min {r : RollingBitField} (hcount : r.count ≠ 0)
    (hbits : r.evictMin.allItemsInExcess = false) :
    r.evictMin.min = r.min ∨ (r.min < r.evictMin.min ∧ r.evictMin.min < r.maxExclusive) := by
  rcases purge_min { r with
      excess := r.min :: r.excess
      bits := Function.update r.bits (r.getAddress r.min) false } with h | h | h
  · exact Or.inl h
  · exact Or.inr h
  · -- the bits were emptied, which `hbits` excludes
    have hall : r.evictMin.allItemsInExcess = ((r.min :: r.excess).length == r.count) := by
      simp only [allItemsInExcess, evictMin_excess, evictMin_count]
    simp only [allItemsInExcess] at h
    rw [hall] at hbits
    simp only [beq_eq_false_iff_ne] at hbits h
    omega

/-- The `loop` of `insert` for a key past the window, with `new_max` the key's successor: while
the window up to `new_max` is wider than `max_width`, the least key of the bits moves to
`excess`. Returns the field and whether the bits were emptied; `none` is `assert!(inserted)`.
`count` is not zero: the bits held a key when the loop began, and the loop does not change it. -/
def makeRoom (newMax : Nat) (r : RollingBitField) (hcount : r.count ≠ 0) :
    Option (RollingBitField × Bool) :=
  if newMax - r.min ≤ r.maxWidth then some (r, false)
  else if r.min ∈ r.excess then none
  else if hempty : r.evictMin.allItemsInExcess then some (r.evictMin, true)
  else makeRoom newMax r.evictMin (by rw [evictMin_count]; exact hcount)
termination_by r.maxExclusive - r.min + if r.min ∈ r.excess then 0 else 1
decreasing_by
  -- `min` either stays, and is now in `excess`, or moves up inside the window
  rcases evictMin_min hcount (Bool.eq_false_iff.mpr hempty) with hmin | ⟨hlt, hlt'⟩
  · simp only [evictMin_maxExclusive, evictMin_excess, hmin, List.mem_cons_self, if_true]
    simp only [if_neg ‹r.min ∉ r.excess›]
    omega
  · simp only [evictMin_maxExclusive, evictMin_excess, if_neg ‹r.min ∉ r.excess›]
    split_ifs <;> omega

/-- The `if update_bits` block of `insert`: the key's bit is set and the window stretched to it,
or restarted at it when the bits were empty. `none` is the overflow of `key + 1` or of
`min + max_width`, or the failed `assert!` that the window fits. -/
def setBit (r : RollingBitField) (key : Nat) (bitsEmpty : Bool) : Option RollingBitField :=
  if r.bits (r.getAddress key) then some r
  else if U64_MAX < key + 1 then none
  else
    let r' := { r with bits := Function.update r.bits (r.getAddress key) true, count := r.count + 1 }
    if bitsEmpty then some { r' with min := key, maxExclusive := key + 1 }
    else
      let min := Nat.min r.min key
      let maxExclusive := Nat.max r.maxExclusive (key + 1)
      if U64_MAX < min + r.maxWidth then none
      else if maxExclusive ≤ min + r.maxWidth then some { r' with min, maxExclusive }
      else none

/-- `insert`. -/
def insert (r : RollingBitField) (key : Nat) : Option RollingBitField :=
  if hbits : r.count = 0 ∨ r.allItemsInExcess = true then r.setBit key true
  else if key < r.min then
    if key ∈ r.excess then some r
    else some { r with excess := key :: r.excess, count := r.count + 1 }
  else if key < r.maxExclusive then r.setBit key false
  else if U64_MAX < key + 1 then none
  else
    match r.makeRoom (key + 1) (fun h => hbits (Or.inl h)) with
    | none => none
    | some (r', bitsEmpty) => r'.setBit key bitsEmpty

/-- `remove`, with whether the key was in the set; `none` is the underflow of `count`. -/
def remove (r : RollingBitField) (key : Nat) : Option (Bool × RollingBitField) :=
  if r.min ≤ key then
    if key < r.maxExclusive then
      if r.bits (r.getAddress key) then
        if r.count = 0 then none
        else
          some (true, ({ r with
            count := r.count - 1
            bits := Function.update r.bits (r.getAddress key) false }).purge key)
      else some (false, r)
    else some (false, r)
  else if key ∈ r.excess then
    if r.count = 0 then none
    else some (true, { r with excess := r.excess.erase key, count := r.count - 1 })
  else some (false, r)

/-- The keys of the window, in order. -/
def windowKeys (r : RollingBitField) : List Nat := List.range' r.min (r.maxExclusive - r.min)

/-- `get_all_less_than`. -/
def getAllLessThan (r : RollingBitField) (maxSlotExclusive : Nat) : List Nat :=
  r.excess.filter (· < maxSlotExclusive) ++
    (r.windowKeys.takeWhile (· < maxSlotExclusive)).filter r.containsAssumeInRange

/-- `get_all`. -/
def getAll (r : RollingBitField) : List Nat :=
  r.excess ++ r.windowKeys.filter r.containsAssumeInRange

/-- The `loop` of `get_prior`, from `slot` down: it stops once the next slot is `0` or below
`min`, before testing it. -/
def getPriorLoop (r : RollingBitField) (min : Nat) : Nat → Option Nat
  | 0 => if r.contains 0 then some 0 else none
  | slot + 1 =>
    if r.contains (slot + 1) then some (slot + 1)
    else if slot = 0 ∨ slot < min then none
    else r.getPriorLoop min slot

/-- `get_prior`. -/
def getPrior (r : RollingBitField) (maxSlotExclusive : Nat) : Option Nat :=
  r.min?.bind fun min => r.getPriorLoop min (maxSlotExclusive - 1)

/-! ### Against a set -/

/-- An operation on the set. -/
inductive Op where
  | insert (key : Nat)
  | remove (key : Nat)

/-- One operation on the field. -/
def apply (r : RollingBitField) : Op → Option RollingBitField
  | .insert key => r.insert key
  | .remove key => (r.remove key).map Prod.snd

/-- Operations one after another, stopping at a panic. -/
def run (r : RollingBitField) (ops : List Op) : Option RollingBitField :=
  ops.foldlM apply r

/-- The same operations on a set. -/
def Op.applySet (s : Finset Nat) : Op → Finset Nat
  | .insert key => Insert.insert key s
  | .remove key => s.erase key

/-- The set the operations build from the empty one. -/
def runSet (ops : List Op) : Finset Nat := ops.foldl Op.applySet ∅

/-- The field is no set once keys come out of order, and `get_prior` misses slot `0`. After
`insert 10, insert 5, remove 10, insert 3` the set is `{3, 5}`, but `contains 5` is false and
`remove 5` answers that `5` was absent: removing `10` emptied the bits with `5` in `excess`,
and inserting `3` restarted the window at `[3, 4)`. After `insert 0`, `get_prior 2` finds
nothing although `0 < 2` is in the set. -/
theorem rolling_bit_field_diverges_from_set :
    5 ∈ runSet [.insert 10, .insert 5, .remove 10, .insert 3] ∧
    ((new 16).bind fun r => r.run [.insert 10, .insert 5, .remove 10, .insert 3]).map
      (·.contains 5) = some false ∧
    Option.map Prod.fst (((new 16).bind fun r =>
      r.run [.insert 10, .insert 5, .remove 10, .insert 3]).bind (·.remove 5)) = some false ∧
    0 ∈ runSet [.insert 0] ∧
    ((new 16).bind fun r => r.run [.insert 0]).map (·.getPrior 2) = some none := by
  decide

end RollingBitField

end Agave.AccountsDb
