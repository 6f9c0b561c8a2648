import Mathlib.Data.List.Nodup

/-!
# Insertion-ordered maps and sets as lists

An `IndexMap` read as the list of its entries in position order, and an `IndexSet` as the list of
its elements. What sets them apart from a hash map is that an entry has a position, and that
`swap_remove` keeps the positions dense by moving the last entry into the freed one
(`swapRemoveAt`, `getElem?_swapRemoveAt`). Up to order it is `eraseIdx` (`perm_swapRemoveAt`),
which is how membership and distinctness carry over.
-/

namespace IndexMap

variable {α β γ : Type}

/-- `swap_remove_index`: the last entry takes the position, and the last place goes. -/
def swapRemoveAt (l : List γ) (i : Nat) : List γ :=
  match l.getLast? with
  | some last => (l.set i last).dropLast
  | none => []

theorem length_swapRemoveAt (l : List γ) (i : Nat) :
    (swapRemoveAt l i).length = l.length - 1 := by
  unfold swapRemoveAt
  cases h : l.getLast? with
  | none => simp [List.getLast?_eq_none_iff.mp h]
  | some last => simp

/-- After `swap_remove` at `i`, the places below the last keep their entries, but for `i`, which
holds the former last entry. -/
theorem getElem?_swapRemoveAt {l : List γ} {i : Nat} (hi : i < l.length) (j : Nat) :
    (swapRemoveAt l i)[j]? =
      if j + 1 < l.length then (if j = i then l[l.length - 1]? else l[j]?) else none := by
  have hlast : l.getLast? = some l[l.length - 1] := by
    rw [List.getLast?_eq_getElem?, List.getElem?_eq_getElem (by omega)]
  unfold swapRemoveAt
  rw [hlast, List.getElem?_dropLast, List.length_set, List.getElem?_set,
    List.getElem?_eq_getElem (l := l) (i := l.length - 1) (by omega)]
  by_cases hj : j + 1 < l.length
  · rw [if_pos (by omega), if_pos hj]
    by_cases hji : j = i
    · subst hji
      simp [hi]
    · rw [if_neg (Ne.symm hji), if_neg hji]
  · rw [if_neg (by omega), if_neg hj]

/-- Up to order, `swap_remove` at a position is `eraseIdx`. -/
theorem perm_swapRemoveAt {l : List γ} {i : Nat} (hi : i < l.length) :
    (swapRemoveAt l i).Perm (l.eraseIdx i) := by
  rcases List.eq_nil_or_concat l with rfl | ⟨init, last, rfl⟩
  · simp at hi
  · rw [List.concat_eq_append] at hi ⊢
    unfold swapRemoveAt
    rw [List.getLast?_concat]
    dsimp only
    by_cases hinit : i < init.length
    · -- the last entry moves into the middle
      rw [List.set_append_left _ _ hinit, List.dropLast_concat,
        List.eraseIdx_append_of_lt_length hinit, List.set_eq_take_append_cons_drop,
        if_pos hinit, List.eraseIdx_eq_take_drop_succ]
      exact List.perm_middle.trans (List.perm_append_singleton _ _).symm
    · -- the last entry itself goes
      have hi' : i = init.length := by simp at hi; omega
      subst hi'
      rw [List.set_append_right _ _ (Nat.le_refl _), List.eraseIdx_append_of_length_le
        (Nat.le_refl _)]
      simp

/-- `get_full`: the position and the value of the key's entry. -/
def getFull? [DecidableEq α] (key : α) : List (α × β) → Option (Nat × β)
  | [] => none
  | (k, v) :: rest =>
    if k = key then some (0, v) else (getFull? key rest).map fun (i, v) => (i + 1, v)

section GetFull

variable [DecidableEq α]

theorem getElem?_of_getFull? {key : α} {table : List (α × β)} {i : Nat} {v : β}
    (h : getFull? key table = some (i, v)) : table[i]? = some (key, v) := by
  induction table generalizing i with
  | nil => cases h
  | cons entry rest ih =>
    obtain ⟨k, v'⟩ := entry
    unfold getFull? at h
    split at h
    · rename_i hk
      cases h
      simp [hk]
    · obtain ⟨⟨i', v''⟩, hrest, hi⟩ := Option.map_eq_some_iff.mp h
      cases hi
      exact ih hrest

theorem getFull?_eq_none {key : α} {table : List (α × β)} :
    getFull? key table = none ↔ key ∉ table.map Prod.fst := by
  induction table with
  | nil => simp [getFull?]
  | cons entry rest ih =>
    obtain ⟨k, v⟩ := entry
    unfold getFull?
    split
    · rename_i hk
      simp [hk]
    · rename_i hk
      simp [ih, Ne.symm hk]

/-- With distinct keys, the key of a position finds the position. -/
theorem getFull?_of_getElem? {key : α} {table : List (α × β)} {i : Nat} {v : β}
    (hkeys : (table.map Prod.fst).Nodup) (h : table[i]? = some (key, v)) :
    getFull? key table = some (i, v) := by
  induction table generalizing i with
  | nil => simp at h
  | cons entry rest ih =>
    obtain ⟨k, v'⟩ := entry
    rw [List.map_cons, List.nodup_cons] at hkeys
    unfold getFull?
    cases i with
    | zero =>
      simp only [List.getElem?_cons_zero, Option.some.injEq, Prod.mk.injEq] at h
      obtain ⟨rfl, rfl⟩ := h
      simp
    | succ i =>
      rw [List.getElem?_cons_succ] at h
      -- the key sits further on, so not at the head
      have hmem : key ∈ rest.map Prod.fst :=
        List.mem_map.mpr ⟨(key, v), List.mem_of_getElem? h, rfl⟩
      have hk : k ≠ key := fun hk => hkeys.1 (hk ▸ hmem)
      rw [if_neg hk, ih hkeys.2 h]
      rfl

/-- With distinct keys, the value `getFull?` finds is the key's entry. -/
theorem map_snd_getFull?_eq_some {key : α} {v : β} {table : List (α × β)}
    (hkeys : (table.map Prod.fst).Nodup) :
    (getFull? key table).map Prod.snd = some v ↔ (key, v) ∈ table := by
  constructor
  · intro h
    obtain ⟨⟨i, v'⟩, hfull, rfl⟩ := Option.map_eq_some_iff.mp h
    exact List.mem_of_getElem? (getElem?_of_getFull? hfull)
  · intro h
    obtain ⟨i, hi⟩ := List.mem_iff_getElem?.mp h
    rw [getFull?_of_getElem? hkeys hi]
    rfl

/-- With distinct keys, a key has one position. -/
theorem eq_of_getElem?_key {key : α} {v v' : β} {table : List (α × β)}
    (hkeys : (table.map Prod.fst).Nodup) {i j : Nat} (hi : table[i]? = some (key, v))
    (hj : table[j]? = some (key, v')) : i = j := by
  have h := getFull?_of_getElem? hkeys hi
  rw [getFull?_of_getElem? hkeys hj, Option.some.injEq, Prod.mk.injEq] at h
  exact h.1.symm

/-- Setting a key's entry changes its value, and no other key's. -/
theorem mem_set_iff {key k : α} {v v' w : β} {table : List (α × β)}
    (hkeys : (table.map Prod.fst).Nodup) {i : Nat} (hi : table[i]? = some (key, v)) :
    (k, w) ∈ table.set i (key, v') ↔ k = key ∧ w = v' ∨ k ≠ key ∧ (k, w) ∈ table := by
  have hlt : i < table.length := (List.getElem?_eq_some_iff.mp hi).1
  simp only [List.mem_iff_getElem?, List.getElem?_set]
  constructor
  · rintro ⟨j, hj⟩
    split at hj
    · rw [Option.some.injEq, Prod.mk.injEq] at hj
      exact Or.inl ⟨hj.1.symm, hj.2.symm⟩
    · rename_i hij
      refine Or.inr ⟨?_, j, hj⟩
      rintro rfl
      exact hij (eq_of_getElem?_key hkeys hi hj)
  · rintro (⟨rfl, rfl⟩ | ⟨hk, j, hj⟩)
    · exact ⟨i, by rw [if_pos rfl, if_pos hlt]⟩
    · refine ⟨j, ?_⟩
      -- position `i` holds `key`, so `j` is another
      have hji : i ≠ j := by
        rintro rfl
        rw [hi, Option.some.injEq, Prod.mk.injEq] at hj
        exact hk hj.1.symm
      rw [if_neg hji]
      exact hj

/-- `swap_remove` of a key's position takes that key's entry out, and no other. -/
theorem mem_swapRemoveAt_iff {key k : α} {v w : β} {table : List (α × β)}
    (hkeys : (table.map Prod.fst).Nodup) {i : Nat} (hi : table[i]? = some (key, v)) :
    (k, w) ∈ swapRemoveAt table i ↔ k ≠ key ∧ (k, w) ∈ table := by
  have hlt : i < table.length := (List.getElem?_eq_some_iff.mp hi).1
  rw [(perm_swapRemoveAt hlt).mem_iff, List.mem_eraseIdx_iff_getElem?]
  constructor
  · rintro ⟨j, hji, hj⟩
    refine ⟨?_, List.mem_of_getElem? hj⟩
    rintro rfl
    exact hji (eq_of_getElem?_key hkeys hj hi)
  · rintro ⟨hk, hmem⟩
    obtain ⟨j, hj⟩ := List.mem_iff_getElem?.mp hmem
    refine ⟨j, ?_, hj⟩
    rintro rfl
    rw [hi, Option.some.injEq, Prod.mk.injEq] at hj
    exact hk hj.1.symm

end GetFull

end IndexMap

namespace IndexSet

variable {γ : Type} [DecidableEq γ]

/-- `insert`: a new element goes last. -/
def insert (x : γ) (s : List γ) : List γ := if x ∈ s then s else s ++ [x]

/-- `swap_remove`: the element's place goes to the last element. -/
def swapRemove (x : γ) (s : List γ) : List γ :=
  if x ∈ s then IndexMap.swapRemoveAt s (s.idxOf x) else s

@[simp] theorem mem_insert {x y : γ} {s : List γ} : y ∈ insert x s ↔ y = x ∨ y ∈ s := by
  unfold insert
  split
  · rename_i hx
    constructor
    · exact Or.inr
    · rintro (rfl | h)
      · exact hx
      · exact h
  · simp [or_comm]

theorem nodup_insert {x : γ} {s : List γ} (hs : s.Nodup) : (insert x s).Nodup := by
  unfold insert
  split
  · exact hs
  · rename_i hx
    exact List.nodup_append.mpr ⟨hs, List.nodup_singleton x,
      fun a ha b hb => by rw [List.mem_singleton] at hb; rintro rfl; exact hx (hb ▸ ha)⟩

theorem perm_swapRemove (x : γ) (s : List γ) : (swapRemove x s).Perm (s.erase x) := by
  unfold swapRemove
  split
  · rename_i hx
    rw [List.erase_eq_eraseIdx_of_idxOf rfl]
    exact IndexMap.perm_swapRemoveAt (List.idxOf_lt_length_of_mem hx)
  · rename_i hx
    rw [List.erase_of_not_mem hx]

theorem mem_swapRemove {x y : γ} {s : List γ} (hs : s.Nodup) :
    y ∈ swapRemove x s ↔ y ∈ s ∧ y ≠ x := by
  rw [(perm_swapRemove x s).mem_iff, hs.mem_erase_iff, and_comm]

theorem nodup_swapRemove {x : γ} {s : List γ} (hs : s.Nodup) : (swapRemove x s).Nodup :=
  (perm_swapRemove x s).nodup_iff.mpr (hs.erase x)

end IndexSet
