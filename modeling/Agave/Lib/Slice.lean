import Mathlib.Data.List.TakeDrop

/-!
# Slice searches and rotations of the Rust core library

The slice operations that the programs modelled here call, as `core::slice` computes them in the
Rust releases these programs are built with (up to 1.81). A slice is a list.

`binary_search_by` halves the range `[left, right)` that is left to search, probing its middle.
A comparison of `Less` says that the place sought lies after the probe, `Greater` that it lies
before it, and `Equal` ends the search at the probe. When the comparison only goes up along the
slice (`Less`, then `Equal`, then `Greater`), the returned index, found or not, splits the slice
into the elements not above the place sought and those not below it (`binarySearchBy_spec`).
`partition_point` is that search with a comparison that is never `Equal`; for a predicate that
holds on a prefix of the slice it returns the length of that prefix (`partitionPoint_eq`).

`rotate_right(1)` and `rotate_left(1)` move one element from one end to the other. Both panic
(here `none`) on an empty slice, where Rust's `assert!(k <= self.len())` fails. Applied to
`s[i..]` after the element at one end was overwritten, they insert into or erase from `s`
(`rotateRightFrom_set_last`, `rotateLeftFrom_set`).
-/

namespace Slice

variable {α : Type*}

/-! ### Binary search -/

/-- The loop of `binary_search_by`, on `s[left..right]`. -/
def binarySearchByLoop (s : List α) (f : α → Ordering) (left right : Nat)
    (hright : right ≤ s.length) : Except Nat Nat :=
  if hlt : left < right then
    -- `mid = left + size / 2` with `size = right - left`; it is below `right`, so in bounds
    have hmid : left + (right - left) / 2 < s.length := by omega
    match f (s.get ⟨left + (right - left) / 2, hmid⟩) with
    | .lt => binarySearchByLoop s f (left + (right - left) / 2 + 1) right hright
    | .eq => .ok (left + (right - left) / 2)
    | .gt => binarySearchByLoop s f left (left + (right - left) / 2) (by omega)
  else .error left
termination_by right - left

/-- `binary_search_by`: `Ok` of an index where `f` is `Equal`, or `Err` of the index where an
element would be inserted. -/
def binarySearchBy (s : List α) (f : α → Ordering) : Except Nat Nat :=
  binarySearchByLoop s f 0 s.length (Nat.le_refl _)

/-- The index a search result carries, found or not (`Ok(i) | Err(i) => i`). -/
def resultIndex : Except Nat Nat → Nat
  | .ok i => i
  | .error i => i

/-- `partition_point`. -/
def partitionPoint (s : List α) (pred : α → Bool) : Nat :=
  resultIndex (binarySearchBy s fun x => if pred x then .lt else .gt)

/-- The comparison goes up along `s`: an element after one that is not `Less` is not `Less`,
and an element after a `Greater` one is `Greater`. -/
def Ascends (f : α → Ordering) (s : List α) : Prop :=
  s.Pairwise fun a b => (f b = .lt → f a = .lt) ∧ (f a = .gt → f b = .gt)

section Ascends

variable {f : α → Ordering} {s : List α}

theorem Ascends.less_of_lt (hs : Ascends f s) {i j : Nat} (hi : i < s.length)
    (hj : j < s.length) (hij : i < j) (h : f s[j] = .lt) : f s[i] = .lt :=
  (List.pairwise_iff_getElem.mp hs i j hi hj hij).1 h

theorem Ascends.greater_of_lt (hs : Ascends f s) {i j : Nat} (hi : i < s.length)
    (hj : j < s.length) (hij : i < j) (h : f s[i] = .gt) : f s[j] = .gt :=
  (List.pairwise_iff_getElem.mp hs i j hi hj hij).2 h

/-- The loop keeps everything before `left` at `Less` and everything from `right` on at
`Greater`; so where it stops, by `Equal` or by an empty range, it splits the slice. -/
theorem binarySearchByLoop_spec (hs : Ascends f s) (left right : Nat) (hright : right ≤ s.length)
    (hle : left ≤ right)
    (hbelow : ∀ i (hi : i < s.length), i < left → f s[i] = .lt)
    (habove : ∀ i (hi : i < s.length), right ≤ i → f s[i] = .gt) :
    resultIndex (binarySearchByLoop s f left right hright) ≤ s.length ∧
      (∀ i (hi : i < s.length),
        i < resultIndex (binarySearchByLoop s f left right hright) → f s[i] ≠ .gt) ∧
      (∀ i (hi : i < s.length),
        resultIndex (binarySearchByLoop s f left right hright) ≤ i → f s[i] ≠ .lt) := by
  induction left, right, hright using binarySearchByLoop.induct (f := f) with
  | case1 left right hright hlt hmid hcmp ih =>
    -- `Less` at the middle: everything up to it is `Less`
    rw [binarySearchByLoop, dif_pos hlt]
    simp only [hcmp]
    rw [List.get_eq_getElem] at hcmp
    refine ih (by omega) (fun i hi hil => ?_) habove
    rcases Nat.lt_succ_iff_lt_or_eq.mp hil with hil | rfl
    · exact hs.less_of_lt hi hmid hil hcmp
    · exact hcmp
  | case2 left right hright hlt hmid hcmp =>
    -- `Equal` at the middle: nothing before it is `Greater` and nothing after it `Less`
    rw [binarySearchByLoop, dif_pos hlt]
    simp only [hcmp, resultIndex]
    rw [List.get_eq_getElem] at hcmp
    refine ⟨Nat.le_of_lt hmid, fun i hi him hgt => ?_, fun i hi hmi hlt0 => ?_⟩
    · have := hs.greater_of_lt hi hmid him hgt
      simp [hcmp] at this
    · rcases Nat.lt_or_eq_of_le hmi with hmi | rfl
      · have := hs.less_of_lt hmid hi hmi hlt0
        simp [hcmp] at this
      · simp [hcmp] at hlt0
  | case3 left right hright hlt hmid hcmp ih =>
    -- `Greater` at the middle: everything from it on is `Greater`
    rw [binarySearchByLoop, dif_pos hlt]
    simp only [hcmp]
    rw [List.get_eq_getElem] at hcmp
    refine ih (by omega) hbelow (fun i hi hmi => ?_)
    rcases Nat.lt_or_eq_of_le hmi with hmi | rfl
    · exact hs.greater_of_lt hmid hi hmi hcmp
    · exact hcmp
  | case4 left right hright hge =>
    rw [binarySearchByLoop, dif_neg hge]
    simp only [resultIndex]
    refine ⟨by omega, fun i hi hil => by simp [hbelow i hi hil], fun i hi hli => ?_⟩
    simp [habove i hi (by omega)]

/-- A probe that compares `Equal` ends the search there. -/
theorem binarySearchByLoop_eq_ok_of_eq {left right : Nat}
    (hright : right ≤ s.length) (hlt : left < right)
    (heq : ∀ hmid : left + (right - left) / 2 < s.length,
      f (s.get ⟨left + (right - left) / 2, hmid⟩) = .eq) :
    binarySearchByLoop s f left right hright = .ok (left + (right - left) / 2) := by
  rw [binarySearchByLoop, dif_pos hlt]
  simp only [heq]

/-- Wherever `binary_search_by` stops, nothing before is `Greater` and nothing from there on is
`Less`: the element sought can be put there and the slice still ascends. -/
theorem binarySearchBy_spec (hs : Ascends f s) :
    resultIndex (binarySearchBy s f) ≤ s.length ∧
      (∀ i (hi : i < s.length), i < resultIndex (binarySearchBy s f) → f s[i] ≠ .gt) ∧
      (∀ i (hi : i < s.length), resultIndex (binarySearchBy s f) ≤ i → f s[i] ≠ .lt) :=
  binarySearchByLoop_spec hs 0 s.length (Nat.le_refl _) (Nat.zero_le _)
    (fun _ _ h => absurd h (Nat.not_lt_zero _)) (fun i hi h => absurd hi (by omega))

end Ascends

/-- On a slice where the predicate holds on a prefix, `partition_point` is the length of that
prefix. -/
theorem partitionPoint_spec {s : List α} {pred : α → Bool}
    (hs : s.Pairwise fun a b => pred b = true → pred a = true) :
    partitionPoint s pred ≤ s.length ∧
      (∀ i (hi : i < s.length), i < partitionPoint s pred → pred s[i] = true) ∧
      (∀ i (hi : i < s.length), partitionPoint s pred ≤ i → pred s[i] = false) := by
  have hasc : Ascends (fun x => if pred x then .lt else .gt) s := by
    refine hs.imp fun {a b} hab => ⟨fun hb => ?_, fun ha => ?_⟩
    · have : pred b = true := by by_contra h; simp [h] at hb
      simp [hab this]
    · have : pred a = false := by by_contra h; simp [h] at ha
      have : pred b = false := by by_contra h; simp_all
      simp [this]
  obtain ⟨hle, hbefore, hafter⟩ := binarySearchBy_spec hasc
  refine ⟨hle, fun i hi hlt => ?_, fun i hi hge => ?_⟩
  · have := hbefore i hi hlt
    by_contra h
    simp_all
  · have := hafter i hi hge
    by_contra h
    simp_all

/-- On a slice whose predicate holds exactly on its first `r` elements, `partition_point` is
`r`. -/
theorem partitionPoint_eq {s : List α} {pred : α → Bool} {r : Nat} (hr : r ≤ s.length)
    (hbefore : ∀ i (hi : i < s.length), i < r → pred s[i] = true)
    (hafter : ∀ i (hi : i < s.length), r ≤ i → pred s[i] = false) :
    partitionPoint s pred = r := by
  have hs : s.Pairwise fun a b => pred b = true → pred a = true := by
    refine List.pairwise_iff_getElem.mpr fun i j hi hj hij hpj => hbefore i hi ?_
    by_contra hir
    simp [hafter j hj (by omega)] at hpj
  obtain ⟨hle, hlt, hge⟩ := partitionPoint_spec hs
  apply Nat.le_antisymm
  · -- the element at `r`, if any, fails the predicate, so the search cannot pass it
    by_contra hgt
    have := hlt r (by omega) (by omega)
    simp [hafter r (by omega) (Nat.le_refl _)] at this
  · by_contra hlt'
    have := hge (partitionPoint s pred) (by omega) (Nat.le_refl _)
    simp [hbefore (partitionPoint s pred) (by omega) (by omega)] at this

/-- `take_while(p).position(q)` finds the first element where `q` holds, when `p` holds up to
it. -/
theorem findIdx?_takeWhile_eq_some {p q : α → Bool} :
    ∀ {l : List α} {t : Nat} (ht : t < l.length),
      (∀ m (hm : m < l.length), m ≤ t → p l[m] = true) → q l[t] = true →
      (∀ m (hm : m < l.length), m < t → q l[m] = false) →
      (l.takeWhile p).findIdx? q = some t
  | [], _, ht, _, _, _ => absurd ht (Nat.not_lt_zero _)
  | a :: l, t, ht, hp, hq, hq' => by
    have hpa : p a = true := hp 0 (by simp) (Nat.zero_le _)
    rw [List.takeWhile_cons_of_pos hpa, List.findIdx?_cons]
    cases t with
    | zero => simp_all
    | succ t =>
      have hqa : q a = false := hq' 0 (by simp) (Nat.succ_pos _)
      have ih := findIdx?_takeWhile_eq_some (p := p) (q := q) (l := l) (t := t) (by simpa using ht)
        (fun m hm hmt => hp (m + 1) (by simpa using hm) (by omega)) (by simpa using hq)
        (fun m hm hmt => hq' (m + 1) (by simpa using hm) (by omega))
      simp [hqa, ih]

/-! ### Rotations -/

/-- `rotate_right(1)`: the last element moves to the front. -/
def rotateRight1 : List α → Option (List α)
  | [] => none
  | a :: s => some ((a :: s).getLast (List.cons_ne_nil a s) :: (a :: s).dropLast)

/-- `rotate_left(1)`: the first element moves to the back. -/
def rotateLeft1 : List α → Option (List α)
  | [] => none
  | a :: s => some (s ++ [a])

/-- `s[i..].rotate_right(1)`. A start past the end panics in the slicing, here as the rotation
of an empty slice. -/
def rotateRightFrom (s : List α) (i : Nat) : Option (List α) :=
  (rotateRight1 (s.drop i)).map (s.take i ++ ·)

/-- `s[i..].rotate_left(1)`. -/
def rotateLeftFrom (s : List α) (i : Nat) : Option (List α) :=
  (rotateLeft1 (s.drop i)).map (s.take i ++ ·)

theorem rotateRight1_of_ne_nil {l : List α} (h : l ≠ []) :
    rotateRight1 l = some (l.getLast h :: l.dropLast) := by
  cases l with
  | nil => exact absurd rfl h
  | cons a s => rfl

@[simp] theorem rotateRightFrom_eq_none_iff {s : List α} {i : Nat} :
    rotateRightFrom s i = none ↔ s.length ≤ i := by
  unfold rotateRightFrom
  cases h : s.drop i with
  | nil => simpa [rotateRight1] using h
  | cons a t =>
    have : i < s.length := by
      have := congrArg List.length h
      simp at this
      omega
    simp [rotateRight1, this]

theorem dropLast_set_last (s : List α) (x : α) : (s.set (s.length - 1) x).dropLast = s.dropLast := by
  rw [List.dropLast_eq_take, List.dropLast_eq_take, List.length_set, List.take_set,
    List.set_eq_of_length_le (by simp)]

/-- Overwriting the last element and rotating `s[i..]` right inserts the new element at `i` and
drops the old last one. -/
theorem rotateRightFrom_set_last {s : List α} {i : Nat} (x : α) (hi : i < s.length) :
    rotateRightFrom (s.set (s.length - 1) x) i = some (s.take i ++ x :: s.dropLast.drop i) := by
  have hne : (s.set (s.length - 1) x).drop i ≠ [] := by simp; omega
  have hlast : ((s.set (s.length - 1) x).drop i).getLast hne = x := by
    have hidx : i + (s.length - i - 1) = s.length - 1 := by omega
    rw [List.getLast_eq_getElem]
    simp [hidx]
  have htake : (s.set (s.length - 1) x).take i = s.take i := by
    rw [List.take_set, List.set_eq_of_length_le (by simp; omega)]
  unfold rotateRightFrom
  rw [rotateRight1_of_ne_nil hne, hlast, htake, List.dropLast_drop_eq_drop_dropLast,
    dropLast_set_last]
  rfl

/-- Overwriting the element at `i` and rotating `s[i..]` left erases it and puts the new element
at the end. -/
theorem rotateLeftFrom_set {s : List α} {i : Nat} (x : α) (hi : i < s.length) :
    rotateLeftFrom (s.set i x) i = some (s.eraseIdx i ++ [x]) := by
  have hdrop : (s.set i x).drop i = x :: s.drop (i + 1) := by
    rw [List.set_eq_take_append_cons_drop, if_pos hi,
      List.drop_append_of_le_length (by simp; omega)]
    simp
  have htake : (s.set i x).take i = s.take i := by
    rw [List.take_set, List.set_eq_of_length_le (List.length_take_le _ _)]
  unfold rotateLeftFrom
  rw [hdrop, htake, List.eraseIdx_eq_take_drop_succ]
  simp [rotateLeft1]

theorem length_of_rotateRightFrom {s t : List α} {i : Nat} (h : rotateRightFrom s i = some t) :
    t.length = s.length := by
  unfold rotateRightFrom at h
  cases hd : s.drop i with
  | nil => simp [hd, rotateRight1] at h
  | cons a r =>
    simp only [hd, rotateRight1, Option.map_some, Option.some.injEq] at h
    have hlen := congrArg List.length hd
    simp only [List.length_drop, List.length_cons] at hlen
    rw [← h]
    simp
    omega

theorem length_of_rotateLeftFrom {s t : List α} {i : Nat} (h : rotateLeftFrom s i = some t) :
    t.length = s.length := by
  unfold rotateLeftFrom at h
  cases hd : s.drop i with
  | nil => simp [hd, rotateLeft1] at h
  | cons a r =>
    simp only [hd, rotateLeft1, Option.map_some, Option.some.injEq] at h
    have hlen := congrArg List.length hd
    simp only [List.length_drop, List.length_cons] at hlen
    rw [← h]
    simp
    omega

/-! ### Prefixes after an insertion or an erasure

The pool keeps its live elements in a prefix of the slice. After an insertion at `i` within a
prefix of length `n`, the prefix one longer is the old one with the element put in, and what
follows it is what followed the old prefix, short of the last element; after an erasure the
prefix one shorter is the old one with the element taken out. -/

theorem take_insert_dropLast {s : List α} {i n : Nat} (x : α) (hin : i ≤ n) (hn : n < s.length) :
    (s.take i ++ x :: s.dropLast.drop i).take (n + 1) = (s.take n).take i ++ x :: (s.take n).drop i := by
  have hd : s.dropLast.take n = s.take n := by
    rw [List.dropLast_eq_take, List.take_take]
    congr 1
    omega
  rw [List.take_append, List.take_of_length_le (by simp; omega), List.length_take,
    Nat.min_eq_left (by omega), show n + 1 - i = (n - i) + 1 by omega, List.take_succ_cons,
    ← List.drop_take, hd, List.take_take, Nat.min_eq_left hin]

theorem drop_insert_dropLast {s : List α} {i n : Nat} (x : α) (hin : i ≤ n) (hn : n < s.length) :
    (s.take i ++ x :: s.dropLast.drop i).drop (n + 1) = s.dropLast.drop n := by
  rw [List.drop_append, List.drop_of_length_le (by simp; omega), List.nil_append, List.length_take,
    Nat.min_eq_left (by omega), show n + 1 - i = (n - i) + 1 by omega, List.drop_succ_cons,
    List.drop_drop]
  congr 1
  omega

theorem take_eraseIdx_append {s : List α} {i n : Nat} (x : α) (hin : i < n) (hn : n ≤ s.length) :
    (s.eraseIdx i ++ [x]).take (n - 1) = (s.take n).eraseIdx i := by
  rw [List.eraseIdx_eq_take_drop_succ, List.eraseIdx_eq_take_drop_succ, List.append_assoc,
    List.take_append, List.take_take, List.drop_take, List.take_append]
  simp only [List.length_take, List.length_drop]
  -- nothing of the appended element is within the shorter prefix
  rw [show n - 1 - min i s.length - (s.length - (i + 1)) = 0 by omega, List.take_zero,
    List.append_nil, Nat.min_eq_right (show i ≤ n - 1 by omega), List.take_take,
    Nat.min_eq_left (Nat.le_of_lt hin), Nat.min_eq_left (show i ≤ s.length by omega)]
  congr 2
  omega

theorem drop_eraseIdx_append {s : List α} {i n : Nat} (x : α) (hin : i < n) (hn : n ≤ s.length) :
    (s.eraseIdx i ++ [x]).drop (n - 1) = s.drop n ++ [x] := by
  rw [List.eraseIdx_eq_take_drop_succ, List.append_assoc, List.drop_append,
    List.drop_of_length_le (by simp; omega), List.nil_append, List.length_take,
    Nat.min_eq_left (by omega), List.drop_append, List.drop_drop]
  simp only [List.length_drop]
  rw [show n - 1 - i - (s.length - (i + 1)) = 0 by omega, List.drop_zero]
  congr 2
  omega

end Slice
