import Mathlib

/-!
# Finite maps as association lists

A hash map that a program iterates, or tests for emptiness, read as the list of its entries.
`get?` is `get`, `alter` is `entry(key).or_insert(default)` followed by a change of the value in
place (a new key goes last), and `erase` is `remove`. The order of the entries stands for the
map's iteration order, which the reading leaves free; the keys stay distinct
(`nodup_keys_alter`, `nodup_keys_erase`).
-/

namespace AssocList

variable {α β : Type} [DecidableEq α]

/-- `get`: the value of the first entry with the key. -/
def get? (key : α) : List (α × β) → Option β
  | [] => none
  | (k, v) :: rest => if k = key then some v else get? key rest

/-- `entry(key).or_insert(default)`, then `f` on the value. -/
def alter (key : α) (default : β) (f : β → β) : List (α × β) → List (α × β)
  | [] => [(key, f default)]
  | (k, v) :: rest => if k = key then (k, f v) :: rest else (k, v) :: alter key default f rest

/-- `remove`. -/
def erase (key : α) (entries : List (α × β)) : List (α × β) := entries.filter (·.1 ≠ key)

@[simp] theorem get?_nil (key : α) : get? key ([] : List (α × β)) = none := rfl

theorem get?_cons (key k : α) (v : β) (rest : List (α × β)) :
    get? key ((k, v) :: rest) = if k = key then some v else get? key rest := rfl

@[simp] theorem get?_alter_self (key : α) (default : β) (f : β → β) (entries : List (α × β)) :
    get? key (alter key default f entries) = some (f ((get? key entries).getD default)) := by
  induction entries with
  | nil => simp [alter, get?]
  | cons entry rest ih =>
    obtain ⟨k, v⟩ := entry
    by_cases h : k = key
    · simp [alter, get?, h]
    · simp [alter, get?, h, ih]

@[simp] theorem get?_alter_ne {key key' : α} (h : key' ≠ key) (default : β) (f : β → β)
    (entries : List (α × β)) :
    get? key' (alter key default f entries) = get? key' entries := by
  induction entries with
  | nil => simp [alter, get?, Ne.symm h]
  | cons entry rest ih =>
    obtain ⟨k, v⟩ := entry
    by_cases hk : k = key
    · subst hk
      simp [alter, get?, Ne.symm h]
    · simp only [alter, hk, if_false, get?]
      split <;> simp [ih]

@[simp] theorem get?_erase_self (key : α) (entries : List (α × β)) :
    get? key (erase key entries) = none := by
  induction entries with
  | nil => rfl
  | cons entry rest ih =>
    obtain ⟨k, v⟩ := entry
    by_cases h : k = key
    · simpa [erase, h] using ih
    · simpa [erase, get?, h] using ih

@[simp] theorem get?_erase_ne {key key' : α} (h : key' ≠ key) (entries : List (α × β)) :
    get? key' (erase key entries) = get? key' entries := by
  induction entries with
  | nil => rfl
  | cons entry rest ih =>
    obtain ⟨k, v⟩ := entry
    by_cases hk : k = key
    · subst hk
      have : get? key' (erase k rest) = get? key' rest := ih
      simp [erase, get?, Ne.symm h] at this ⊢
      exact this
    · have : get? key' (erase key rest) = get? key' rest := ih
      simp only [erase, List.filter_cons, hk, ne_eq, not_false_eq_true, decide_true,
        if_true, get?] at this ⊢
      rw [this]

theorem mem_of_get? {key : α} {v : β} {entries : List (α × β)}
    (h : get? key entries = some v) : (key, v) ∈ entries := by
  induction entries with
  | nil => cases h
  | cons entry rest ih =>
    obtain ⟨k, v'⟩ := entry
    rw [get?_cons] at h
    split at h
    · rename_i hk
      cases h
      subst hk
      exact List.mem_cons_self
    · exact List.mem_cons_of_mem _ (ih h)

theorem get?_isSome_of_mem {key : α} {v : β} {entries : List (α × β)}
    (h : (key, v) ∈ entries) : (get? key entries).isSome := by
  induction entries with
  | nil => cases h
  | cons entry rest ih =>
    obtain ⟨k, v'⟩ := entry
    rw [get?_cons]
    split
    · rfl
    · rename_i hk
      rcases List.mem_cons.mp h with h | h
      · cases h
        exact absurd rfl hk
      · exact ih h

theorem get?_of_mem {key : α} {v : β} {entries : List (α × β)}
    (hkeys : (entries.map Prod.fst).Nodup) (h : (key, v) ∈ entries) :
    get? key entries = some v := by
  induction entries with
  | nil => cases h
  | cons entry rest ih =>
    obtain ⟨k, v'⟩ := entry
    rw [List.map_cons, List.nodup_cons] at hkeys
    rw [get?_cons]
    rcases List.mem_cons.mp h with h | h
    · cases h
      simp
    · -- a later entry with the key would repeat the first one's
      have hmem : key ∈ rest.map Prod.fst := List.mem_map_of_mem (f := Prod.fst) h
      have hk : k ≠ key := by
        rintro rfl
        exact hkeys.1 hmem
      rw [if_neg hk]
      exact ih hkeys.2 h

/-- An entry of an altered map is the changed one, or one that was there. -/
theorem mem_alter {key k : α} {default v : β} {f : β → β} {entries : List (α × β)}
    (h : (k, v) ∈ alter key default f entries) :
    (k = key ∧ v = f ((get? key entries).getD default)) ∨ (k, v) ∈ entries := by
  induction entries with
  | nil =>
    simp only [alter, List.mem_singleton, Prod.mk.injEq] at h
    exact Or.inl ⟨h.1, by simp [h.2]⟩
  | cons entry rest ih =>
    obtain ⟨k', v'⟩ := entry
    unfold alter at h
    split at h
    · rename_i hk
      rcases List.mem_cons.mp h with h | h
      · cases h
        exact Or.inl ⟨hk, by simp [get?, hk]⟩
      · exact Or.inr (List.mem_cons_of_mem _ h)
    · rename_i hk
      rcases List.mem_cons.mp h with h | h
      · exact Or.inr (h ▸ List.mem_cons_self)
      · rcases ih h with ⟨rfl, rfl⟩ | h
        · exact Or.inl ⟨rfl, by simp [get?, hk]⟩
        · exact Or.inr (List.mem_cons_of_mem _ h)

theorem mem_erase {key k : α} {v : β} {entries : List (α × β)}
    (h : (k, v) ∈ erase key entries) : (k, v) ∈ entries ∧ k ≠ key := by
  simpa [erase] using h

theorem keys_alter (key : α) (default : β) (f : β → β) (entries : List (α × β)) :
    (alter key default f entries).map Prod.fst =
      if key ∈ entries.map Prod.fst then entries.map Prod.fst
      else entries.map Prod.fst ++ [key] := by
  induction entries with
  | nil => simp [alter]
  | cons entry rest ih =>
    obtain ⟨k, v⟩ := entry
    by_cases hk : k = key
    · simp [alter, hk]
    · simp only [alter, hk, if_false, List.map_cons, ih, List.mem_cons, Ne.symm hk, false_or]
      split <;> simp

theorem nodup_keys_alter {key : α} {default : β} {f : β → β} {entries : List (α × β)}
    (h : (entries.map Prod.fst).Nodup) : ((alter key default f entries).map Prod.fst).Nodup := by
  rw [keys_alter]
  split
  · exact h
  · rename_i hkey
    exact List.nodup_append.mpr ⟨h, List.nodup_singleton key,
      fun a ha b hb => by rw [List.mem_singleton] at hb; rintro rfl; exact hkey (hb ▸ ha)⟩

omit [DecidableEq α] in
theorem nodup_keys_filter {entries : List (α × β)} (p : α × β → Bool)
    (h : (entries.map Prod.fst).Nodup) : ((entries.filter p).map Prod.fst).Nodup :=
  (List.Sublist.map Prod.fst List.filter_sublist).nodup h

theorem nodup_keys_erase {key : α} {entries : List (α × β)} (h : (entries.map Prod.fst).Nodup) :
    ((erase key entries).map Prod.fst).Nodup :=
  nodup_keys_filter _ h

/-- `insert`: the key's value replaced, or a new entry last. -/
def insert (key : α) (v : β) (entries : List (α × β)) : List (α × β) :=
  alter key v (fun _ => v) entries

@[simp] theorem get?_insert_self (key : α) (v : β) (entries : List (α × β)) :
    get? key (insert key v entries) = some v := by
  simp [insert]

@[simp] theorem get?_insert_ne {key key' : α} (h : key' ≠ key) (v : β) (entries : List (α × β)) :
    get? key' (insert key v entries) = get? key' entries :=
  get?_alter_ne h v _ entries

theorem nodup_keys_insert {key : α} {v : β} {entries : List (α × β)}
    (h : (entries.map Prod.fst).Nodup) : ((insert key v entries).map Prod.fst).Nodup :=
  nodup_keys_alter h

theorem length_alter_le (key : α) (default : β) (f : β → β) (entries : List (α × β)) :
    (alter key default f entries).length ≤ entries.length + 1 := by
  rw [← List.length_map (f := Prod.fst), keys_alter]
  split <;> simp

/-- `get_mut(key)` and a change of the value in place; nothing when the key is absent. -/
def modify (key : α) (f : β → β) (entries : List (α × β)) : List (α × β) :=
  entries.map fun e => if e.1 = key then (e.1, f e.2) else e

@[simp] theorem get?_modify_self (key : α) (f : β → β) (entries : List (α × β)) :
    get? key (modify key f entries) = (get? key entries).map f := by
  induction entries with
  | nil => rfl
  | cons entry rest ih =>
    obtain ⟨k, v⟩ := entry
    by_cases hk : k = key
    · simp [modify, get?, hk]
    · simpa [modify, get?, hk] using ih

@[simp] theorem get?_modify_ne {key key' : α} (h : key' ≠ key) (f : β → β)
    (entries : List (α × β)) : get? key' (modify key f entries) = get? key' entries := by
  induction entries with
  | nil => rfl
  | cons entry rest ih =>
    obtain ⟨k, v⟩ := entry
    by_cases hk : k = key
    · subst hk
      simpa [modify, get?, Ne.symm h] using ih
    · simp only [modify, List.map_cons, hk, if_false, get?] at ih ⊢
      rw [ih]

@[simp] theorem keys_modify (key : α) (f : β → β) (entries : List (α × β)) :
    (modify key f entries).map Prod.fst = entries.map Prod.fst := by
  induction entries with
  | nil => rfl
  | cons entry rest ih =>
    obtain ⟨k, v⟩ := entry
    by_cases hk : k = key <;> simpa [modify, hk] using ih

@[simp] theorem length_modify (key : α) (f : β → β) (entries : List (α × β)) :
    (modify key f entries).length = entries.length := by
  simp [modify]

/-- `retain`, read through `get`: on a map with distinct keys a key keeps its value exactly when
the entry passes. -/
theorem get?_filter_eq_some {key : α} {v : β} {entries : List (α × β)}
    (hkeys : (entries.map Prod.fst).Nodup) (p : α × β → Bool) :
    get? key (entries.filter p) = some v ↔ get? key entries = some v ∧ p (key, v) = true := by
  constructor
  · intro h
    have hmem := List.mem_filter.mp (mem_of_get? h)
    exact ⟨get?_of_mem hkeys hmem.1, hmem.2⟩
  · rintro ⟨h, hp⟩
    exact get?_of_mem (nodup_keys_filter p hkeys) (List.mem_filter.mpr ⟨mem_of_get? h, hp⟩)

/-- A map is empty exactly when no key has a value. -/
theorem isEmpty_iff {entries : List (α × β)} :
    entries.isEmpty = true ↔ ∀ key, get? key entries = none := by
  cases entries with
  | nil => simp
  | cons entry rest =>
    obtain ⟨k, v⟩ := entry
    simp only [List.isEmpty_cons, Bool.false_eq_true, false_iff, not_forall]
    exact ⟨k, by simp [get?]⟩

/-! ### Sums of a weight over the entries -/

section Sum

variable {M : Type} [AddCommMonoid M]

/-- `insert` swaps the key's entry in a sum over the entries: the old value's weight out (none
for a new key), the new value's in. -/
theorem sum_insert (w : α → β → M) (key : α) (v : β) (entries : List (α × β)) :
    ((insert key v entries).map fun e => w e.1 e.2).sum + ((get? key entries).map (w key)).getD 0 =
      (entries.map fun e => w e.1 e.2).sum + w key v := by
  induction entries with
  | nil => simp [insert, alter]
  | cons entry rest ih =>
    obtain ⟨k, v'⟩ := entry
    by_cases h : k = key
    · subst h
      simp [insert, alter, get?]
      abel
    · simp only [insert, alter, if_neg h, get?, List.map_cons, List.sum_cons] at ih ⊢
      rw [add_assoc, ih, add_assoc]

/-- Two weights that agree off one key: on a map with distinct keys their sums differ by that
key's entry. -/
theorem sum_congr_of_ne (w w' : α → β → M) (key : α) {entries : List (α × β)}
    (hkeys : (entries.map Prod.fst).Nodup) (h : ∀ k v, k ≠ key → w' k v = w k v) :
    (entries.map fun e => w' e.1 e.2).sum + ((get? key entries).map (w key)).getD 0 =
      (entries.map fun e => w e.1 e.2).sum + ((get? key entries).map (w' key)).getD 0 := by
  induction entries with
  | nil => simp
  | cons entry rest ih =>
    obtain ⟨k, v⟩ := entry
    rw [List.map_cons, List.nodup_cons] at hkeys
    by_cases hk : k = key
    · subst hk
      -- the rest has no entry of the key, so both weights agree on it
      have hrest : (rest.map fun e => w' e.1 e.2) = rest.map fun e => w e.1 e.2 :=
        List.map_congr_left fun e he =>
          h e.1 e.2 fun heq => hkeys.1 (List.mem_map.mpr ⟨e, he, heq⟩)
      simp [get?, hrest]
      abel
    · simp only [get?, if_neg hk, List.map_cons, List.sum_cons, h k v hk]
      rw [add_assoc, ih hkeys.2, add_assoc]

end Sum

end AssocList
