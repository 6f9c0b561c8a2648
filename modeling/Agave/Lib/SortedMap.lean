import Mathlib

/-!
# Ordered maps as sorted association lists

A `BTreeMap` read as the list of its entries in key order. `insert` replaces the value of a key
that is there and puts a new key in its place, `erase` is `remove`, and `rangeFrom` is
`range((Bound::Included(key), Bound::Unbounded))`, which iterates in key order. The keys stay
strictly increasing (`sorted_insert`, `sorted_erase`), so a key has one entry (`eq_of_key_eq`).

`floor?` is `range(..=key).next_back()`, the entry of the greatest key at or below a key, and
`lower?` the same below it. `floor?_eq_some_iff` says what the floor is in terms of the entries;
`floor?_insert` and `floor?_rangeFrom` say how inserting a key and dropping the keys below one
move it.
-/

namespace SortedMap

variable {α β : Type} [LinearOrder α]

/-- The keys are strictly increasing. -/
def Sorted (m : List (α × β)) : Prop := m.Pairwise fun a b => a.1 < b.1

/-- `insert`: the value of the key replaced, or the key put in order. -/
def insert (key : α) (value : β) : List (α × β) → List (α × β)
  | [] => [(key, value)]
  | (k, v) :: rest =>
    if key < k then (key, value) :: (k, v) :: rest
    else if key = k then (key, value) :: rest
    else (k, v) :: insert key value rest

/-- `remove`. -/
def erase (key : α) (m : List (α × β)) : List (α × β) := m.filter (·.1 ≠ key)

/-- `range(key..)`: the entries from the key on, in key order. -/
def rangeFrom (key : α) (m : List (α × β)) : List (α × β) := m.filter (key ≤ ·.1)

theorem mem_insert_of_mem {key : α} {value : β} {m : List (α × β)} {p : α × β}
    (h : p ∈ insert key value m) : p = (key, value) ∨ p ∈ m := by
  induction m with
  | nil => simpa [insert] using h
  | cons entry rest ih =>
    obtain ⟨k, v⟩ := entry
    unfold insert at h
    split at h
    · exact List.mem_cons.mp h
    · split at h
      · rcases List.mem_cons.mp h with h | h
        · exact Or.inl h
        · exact Or.inr (List.mem_cons_of_mem _ h)
      · rcases List.mem_cons.mp h with h | h
        · exact Or.inr (h ▸ List.mem_cons_self)
        · exact (ih h).imp id (List.mem_cons_of_mem _)

theorem sorted_insert {key : α} {value : β} {m : List (α × β)} (hm : Sorted m) :
    Sorted (insert key value m) := by
  induction m with
  | nil => simp [insert, Sorted]
  | cons entry rest ih =>
    obtain ⟨k, v⟩ := entry
    unfold Sorted at hm
    rw [List.pairwise_cons] at hm
    unfold insert
    split
    · rename_i hlt
      refine List.pairwise_cons.mpr ⟨fun p hp => ?_, List.pairwise_cons.mpr hm⟩
      rcases List.mem_cons.mp hp with rfl | hp
      · exact hlt
      · exact lt_trans hlt (hm.1 p hp)
    · split
      · rename_i heq
        subst heq
        exact List.pairwise_cons.mpr ⟨hm.1, hm.2⟩
      · rename_i hnlt hne
        -- the key goes after `k`, among entries all above `k`
        have hgt : k < key := lt_of_le_of_ne (not_lt.mp hnlt) (Ne.symm hne)
        refine List.pairwise_cons.mpr ⟨fun p hp => ?_, ih hm.2⟩
        rcases mem_insert_of_mem hp with rfl | hp
        · exact hgt
        · exact hm.1 p hp

/-- The entries of a sorted map after `insert`: the new one, and the old ones of other keys. -/
theorem mem_insert {key : α} {value : β} {m : List (α × β)} (hm : Sorted m) {p : α × β} :
    p ∈ insert key value m ↔ p = (key, value) ∨ (p ∈ m ∧ p.1 ≠ key) := by
  induction m with
  | nil => simp [insert]
  | cons entry rest ih =>
    obtain ⟨k, v⟩ := entry
    unfold Sorted at hm
    rw [List.pairwise_cons] at hm
    have hrest : ∀ q ∈ rest, k < q.1 := fun q hq => hm.1 q hq
    unfold insert
    split
    · rename_i hlt
      -- every old entry has a key at least `k`, above the new key
      have hne : ∀ q ∈ (k, v) :: rest, q.1 ≠ key := by
        intro q hq
        rcases List.mem_cons.mp hq with rfl | hq
        · exact ne_of_gt hlt
        · exact ne_of_gt (lt_trans hlt (hrest q hq))
      constructor
      · intro h
        rcases List.mem_cons.mp h with h | h
        · exact Or.inl h
        · exact Or.inr ⟨h, hne p h⟩
      · rintro (h | ⟨h, -⟩)
        · exact h ▸ List.mem_cons_self
        · exact List.mem_cons_of_mem _ h
    · split
      · rename_i heq
        subst heq
        constructor
        · intro h
          rcases List.mem_cons.mp h with h | h
          · exact Or.inl h
          · exact Or.inr ⟨List.mem_cons_of_mem _ h, ne_of_gt (hrest p h)⟩
        · rintro (h | ⟨h, hne⟩)
          · exact h ▸ List.mem_cons_self
          · rcases List.mem_cons.mp h with h | h
            · exact absurd (h ▸ rfl) hne
            · exact List.mem_cons_of_mem _ h
      · rename_i hnlt hne
        rw [List.mem_cons, ih hm.2, List.mem_cons]
        constructor
        · rintro (h | h | ⟨h, hk⟩)
          · exact Or.inr ⟨Or.inl h, h ▸ Ne.symm hne⟩
          · exact Or.inl h
          · exact Or.inr ⟨Or.inr h, hk⟩
        · rintro (h | ⟨h | h, hk⟩)
          · exact Or.inr (Or.inl h)
          · exact Or.inl h
          · exact Or.inr (Or.inr ⟨h, hk⟩)

theorem mem_erase {key : α} {m : List (α × β)} {p : α × β} :
    p ∈ erase key m ↔ p ∈ m ∧ p.1 ≠ key := by
  simp [erase]

theorem sorted_erase {key : α} {m : List (α × β)} (hm : Sorted m) : Sorted (erase key m) :=
  hm.sublist List.filter_sublist

theorem mem_rangeFrom {key : α} {m : List (α × β)} {p : α × β} :
    p ∈ rangeFrom key m ↔ p ∈ m ∧ key ≤ p.1 := by
  simp [rangeFrom]

theorem sorted_rangeFrom {key : α} {m : List (α × β)} (hm : Sorted m) :
    Sorted (rangeFrom key m) :=
  hm.sublist List.filter_sublist

/-! ## Lookups -/

/-- `get`. -/
def get? (key : α) (m : List (α × β)) : Option β := (m.find? (·.1 = key)).map (·.2)

/-- `contains_key`. -/
def contains (key : α) (m : List (α × β)) : Bool := m.any (·.1 = key)

/-- `range(..=key).next_back()`: the entry of the greatest key at or below `key`. -/
def floor? (key : α) (m : List (α × β)) : Option (α × β) := (m.filter (·.1 ≤ key)).getLast?

/-- `range(..key).next_back()`: the entry of the greatest key below `key`. -/
def lower? (key : α) (m : List (α × β)) : Option (α × β) := (m.filter (·.1 < key)).getLast?

theorem eq_of_key_eq {m : List (α × β)} (hm : Sorted m) {p p' : α × β} (hp : p ∈ m)
    (hp' : p' ∈ m) (hkey : p.1 = p'.1) : p = p' := by
  induction m with
  | nil => simp at hp
  | cons a rest ih =>
    unfold Sorted at hm
    rw [List.pairwise_cons] at hm
    rcases List.mem_cons.mp hp with rfl | hrest <;> rcases List.mem_cons.mp hp' with rfl | hrest'
    · rfl
    · exact absurd hkey (ne_of_lt (hm.1 p' hrest'))
    · exact absurd hkey (ne_of_gt (hm.1 p hrest))
    · exact ih hm.2 hrest hrest'

/-- The last entry of a sorted map's entries with some property of the key is the one of the
greatest such key. -/
theorem getLast?_filter_eq_some_iff {m : List (α × β)} (hm : Sorted m) (q : α → Bool)
    {p : α × β} :
    (m.filter fun p => q p.1).getLast? = some p ↔
      p ∈ m ∧ q p.1 = true ∧ ∀ p' ∈ m, q p'.1 = true → p'.1 ≤ p.1 := by
  have hsorted : Sorted (m.filter fun p => q p.1) := hm.sublist List.filter_sublist
  -- the last entry of a sorted list has its greatest key
  have hmax : ∀ {l : List (α × β)} {last : α × β}, Sorted l → l.getLast? = some last →
      ∀ p' ∈ l, p'.1 ≤ last.1 := by
    intro l last hl hlast p' hp'
    obtain ⟨init, rfl⟩ := List.getLast?_eq_some_iff.mp hlast
    unfold Sorted at hl
    rw [List.pairwise_append] at hl
    rcases List.mem_append.mp hp' with hinit | hsingle
    · exact le_of_lt (hl.2.2 p' hinit last (List.mem_singleton_self _))
    · rw [List.mem_singleton.mp hsingle]
  constructor
  · intro hlast
    have hmem := List.mem_filter.mp (List.mem_of_getLast? hlast)
    exact ⟨hmem.1, hmem.2, fun p' hp' hq => hmax hsorted hlast p' (List.mem_filter.mpr ⟨hp', hq⟩)⟩
  · rintro ⟨hp, hq, hle⟩
    have hpf : p ∈ m.filter (fun p => q p.1) := List.mem_filter.mpr ⟨hp, hq⟩
    cases hlast : (m.filter fun p => q p.1).getLast? with
    | none =>
      rw [List.getLast?_eq_none_iff] at hlast
      rw [hlast] at hpf
      simp at hpf
    | some last =>
      have hlastmem := List.mem_filter.mp (List.mem_of_getLast? hlast)
      have hkey : p.1 = last.1 :=
        le_antisymm (hmax hsorted hlast p hpf) (hle last hlastmem.1 hlastmem.2)
      rw [eq_of_key_eq hm hp hlastmem.1 hkey]

theorem floor?_eq_some_iff {m : List (α × β)} (hm : Sorted m) {key : α} {p : α × β} :
    floor? key m = some p ↔ p ∈ m ∧ p.1 ≤ key ∧ ∀ p' ∈ m, p'.1 ≤ key → p'.1 ≤ p.1 := by
  simpa [floor?] using getLast?_filter_eq_some_iff hm (fun k => decide (k ≤ key))

/-- A key that is there is its own floor. -/
theorem floor?_of_mem {m : List (α × β)} (hm : Sorted m) {key : α} {value : β}
    (h : (key, value) ∈ m) : floor? key m = some (key, value) :=
  (floor?_eq_some_iff hm).mpr ⟨h, le_rfl, fun _ _ hle => hle⟩

theorem floor?_eq_none_iff {m : List (α × β)} {key : α} :
    floor? key m = none ↔ ∀ p ∈ m, ¬p.1 ≤ key := by
  simp [floor?]

/-- Below a key that is not there, the greatest key below it is the greatest at or below it. -/
theorem lower?_eq_floor? {m : List (α × β)} {key : α} (h : ∀ p ∈ m, p.1 ≠ key) :
    lower? key m = floor? key m := by
  unfold lower? floor?
  congr 1
  refine List.filter_congr fun p hp => ?_
  simp only [decide_eq_decide]
  exact ⟨le_of_lt, fun hle => lt_of_le_of_ne hle (h p hp)⟩

theorem floor?_eq_getLast? {m : List (α × β)} {key : α} (h : ∀ p ∈ m, p.1 ≤ key) :
    floor? key m = m.getLast? := by
  unfold floor?
  rw [List.filter_eq_self.mpr (by simpa using h)]

/-- A floor at `key` is still the floor at any key between it and `key`. -/
theorem floor?_eq_of_le {m : List (α × β)} (hm : Sorted m) {key key' : α} {p : α × β}
    (h : floor? key m = some p) (hp : p.1 ≤ key') (hle : key' ≤ key) : floor? key' m = some p := by
  obtain ⟨hpm, -, hmax⟩ := (floor?_eq_some_iff hm).mp h
  exact (floor?_eq_some_iff hm).mpr
    ⟨hpm, hp, fun p' hp' hle' => hmax p' hp' (le_trans hle' hle)⟩

theorem get?_eq_some_iff {m : List (α × β)} (hm : Sorted m) {key : α} {value : β} :
    get? key m = some value ↔ (key, value) ∈ m := by
  unfold get?
  constructor
  · intro h
    obtain ⟨p, hfind, rfl⟩ := Option.map_eq_some_iff.mp h
    have hkey : p.1 = key := by simpa using List.find?_some hfind
    rw [← hkey]
    exact List.mem_of_find?_eq_some hfind
  · intro h
    cases hfind : m.find? (·.1 = key) with
    | none =>
      have hne := List.find?_eq_none.mp hfind (key, value) h
      simp at hne
    | some p =>
      have hkey : p.1 = key := by simpa using List.find?_some hfind
      rw [eq_of_key_eq hm (List.mem_of_find?_eq_some hfind) h hkey]
      rfl

theorem get?_eq_none_iff {m : List (α × β)} {key : α} :
    get? key m = none ↔ ∀ p ∈ m, p.1 ≠ key := by
  simp [get?, List.find?_eq_none]

theorem contains_eq_true_iff {m : List (α × β)} {key : α} :
    contains key m = true ↔ ∃ p ∈ m, p.1 = key := by
  simp [contains]

/-- After `insert`, the floor at a key is the inserted entry if its key is at or below and at
least the old floor's, and the old floor otherwise. -/
theorem floor?_insert {m : List (α × β)} (hm : Sorted m) (key : α) (value : β) (at_ : α) :
    floor? at_ (insert key value m) =
      if key ≤ at_ ∧ ∀ f ∈ floor? at_ m, f.1 ≤ key then some (key, value) else floor? at_ m := by
  have hins : Sorted (insert key value m) := sorted_insert hm
  split_ifs with hcond
  · rw [floor?_eq_some_iff hins]
    refine ⟨(mem_insert hm).mpr (.inl rfl), hcond.1, fun p' hp' hle => ?_⟩
    rcases (mem_insert hm).mp hp' with rfl | ⟨hp'm, -⟩
    · exact le_rfl
    · cases hf : floor? at_ m with
      | none => exact absurd hle ((floor?_eq_none_iff.mp hf) p' hp'm)
      | some f => exact (((floor?_eq_some_iff hm).mp hf).2.2 p' hp'm hle).trans (hcond.2 f hf)
  · apply Option.ext
    intro p
    rw [floor?_eq_some_iff hins, floor?_eq_some_iff hm]
    constructor
    · rintro ⟨hp, hpe, hmax⟩
      rcases (mem_insert hm).mp hp with rfl | ⟨hpm, -⟩
      · -- the inserted entry would be the floor only below every old floor
        refine absurd ⟨hpe, fun f hf => ?_⟩ hcond
        obtain ⟨hfm, hfe, -⟩ := (floor?_eq_some_iff hm).mp hf
        by_cases hfk : f.1 = key
        · exact le_of_eq hfk
        · exact hmax f ((mem_insert hm).mpr (.inr ⟨hfm, hfk⟩)) hfe
      · refine ⟨hpm, hpe, fun p' hp' hle => ?_⟩
        by_cases hp'k : p'.1 = key
        · rw [hp'k]
          exact hmax (key, value) ((mem_insert hm).mpr (.inl rfl)) (hp'k ▸ hle)
        · exact hmax p' ((mem_insert hm).mpr (.inr ⟨hp', hp'k⟩)) hle
    · rintro ⟨hpm, hpe, hmax⟩
      have hfloor : floor? at_ m = some p := (floor?_eq_some_iff hm).mpr ⟨hpm, hpe, hmax⟩
      by_cases hke : key ≤ at_
      · -- the old floor is above the inserted key
        have hgt : key < p.1 := by
          by_contra hle
          exact hcond ⟨hke, fun f hf => by
            rw [hfloor, Option.mem_def, Option.some.injEq] at hf
            rw [← hf]
            exact not_lt.mp hle⟩
        refine ⟨(mem_insert hm).mpr (.inr ⟨hpm, ne_of_gt hgt⟩), hpe, fun p' hp' hle => ?_⟩
        rcases (mem_insert hm).mp hp' with rfl | ⟨hp'm, -⟩
        · exact le_of_lt hgt
        · exact hmax p' hp'm hle
      · refine ⟨(mem_insert hm).mpr (.inr ⟨hpm, fun h => hke (h ▸ hpe)⟩), hpe,
          fun p' hp' hle => ?_⟩
        rcases (mem_insert hm).mp hp' with rfl | ⟨hp'm, -⟩
        · exact absurd hle hke
        · exact hmax p' hp'm hle

/-- Dropping the keys below one that is there leaves the floor at or above it. -/
theorem floor?_rangeFrom {m : List (α × β)} (hm : Sorted m) {key at_ : α}
    (hkey : ∃ p ∈ m, p.1 = key) (hle : key ≤ at_) : floor? at_ (rangeFrom key m) = floor? at_ m := by
  obtain ⟨k, hkm, hk⟩ := hkey
  apply Option.ext
  intro p
  rw [floor?_eq_some_iff (sorted_rangeFrom hm), floor?_eq_some_iff hm]
  constructor
  · rintro ⟨hp, hpe, hmax⟩
    have hp' := mem_rangeFrom.mp hp
    refine ⟨hp'.1, hpe, fun p' hp'm hle' => ?_⟩
    by_cases hkp' : key ≤ p'.1
    · exact hmax p' (mem_rangeFrom.mpr ⟨hp'm, hkp'⟩) hle'
    · exact le_trans (le_of_lt (not_le.mp hkp')) hp'.2
  · rintro ⟨hpm, hpe, hmax⟩
    -- the key's own entry is at or below `at_`, so the floor is at or above the key
    have hkp : key ≤ p.1 := hk ▸ hmax k hkm (hk ▸ hle)
    exact ⟨mem_rangeFrom.mpr ⟨hpm, hkp⟩, hpe, fun p' hp' hle' => hmax p' (mem_rangeFrom.mp hp').1 hle'⟩

/-- `get` after `insert`. -/
theorem get?_insert {m : List (α × β)} (hm : Sorted m) (key : α) (value : β) (key' : α) :
    get? key' (insert key value m) = if key' = key then some value else get? key' m := by
  split
  · rename_i h
    subst h
    exact (get?_eq_some_iff (sorted_insert hm)).mpr ((mem_insert hm).mpr (.inl rfl))
  · rename_i hne
    cases hget : get? key' m with
    | none =>
      refine get?_eq_none_iff.mpr fun p hp => ?_
      rcases (mem_insert hm).mp hp with rfl | ⟨hp, -⟩
      · exact Ne.symm hne
      · exact get?_eq_none_iff.mp hget p hp
    | some v =>
      have hmem := (get?_eq_some_iff hm).mp hget
      exact (get?_eq_some_iff (sorted_insert hm)).mpr ((mem_insert hm).mpr (.inr ⟨hmem, hne⟩))

/-- `contains_key` after `insert`. -/
theorem contains_insert {m : List (α × β)} (hm : Sorted m) (key : α) (value : β) (key' : α) :
    contains key' (insert key value m) = true ↔ key' = key ∨ contains key' m = true := by
  simp only [contains_eq_true_iff, mem_insert hm]
  constructor
  · rintro ⟨p, rfl | ⟨hp, -⟩, rfl⟩
    · exact .inl rfl
    · exact .inr ⟨p, hp, rfl⟩
  · rintro (rfl | ⟨p, hp, rfl⟩)
    · exact ⟨_, .inl rfl, rfl⟩
    · by_cases hpk : p.1 = key
      · exact ⟨(key, value), .inl rfl, hpk.symm⟩
      · exact ⟨p, .inr ⟨hp, hpk⟩, rfl⟩

/-! ## Sums over the entries -/

/-- Inserting a new key adds its entry to any sum over the entries. -/
theorem sum_map_insert_of_not_mem {m : List (α × β)} (hm : Sorted m) {key : α}
    (habsent : ∀ p ∈ m, p.1 ≠ key) (value : β) (g : α × β → ℕ) :
    ((insert key value m).map g).sum = (m.map g).sum + g (key, value) := by
  induction m with
  | nil => simp [insert]
  | cons entry rest ih =>
    obtain ⟨k, v⟩ := entry
    unfold Sorted at hm
    rw [List.pairwise_cons] at hm
    have hne : k ≠ key := habsent (k, v) List.mem_cons_self
    unfold insert
    split_ifs with hlt heq
    · simp only [List.map_cons, List.sum_cons]
      omega
    · exact absurd heq.symm hne
    · have hrest := ih hm.2 fun p hp => habsent p (List.mem_cons_of_mem _ hp)
      simp only [List.map_cons, List.sum_cons, hrest]
      omega

/-- Replacing a key's value swaps its entry in any sum over the entries. -/
theorem sum_map_insert_of_mem {m : List (α × β)} (hm : Sorted m) {key : α} {old : β}
    (hold : (key, old) ∈ m) (value : β) (g : α × β → ℕ) :
    ((insert key value m).map g).sum + g (key, old) = (m.map g).sum + g (key, value) := by
  induction m with
  | nil => simp at hold
  | cons entry rest ih =>
    obtain ⟨k, v⟩ := entry
    unfold Sorted at hm
    rw [List.pairwise_cons] at hm
    unfold insert
    split_ifs with hlt heq
    · -- a key below the first one is in no entry
      exfalso
      rcases List.mem_cons.mp hold with h | h
      · exact absurd (congrArg Prod.fst h) (ne_of_lt hlt)
      · exact absurd (hm.1 _ h) (not_lt.mpr (le_of_lt hlt))
    · have hfirst : (key, old) = (k, v) :=
        eq_of_key_eq ((List.pairwise_cons).mpr hm) hold List.mem_cons_self heq
      simp only [List.map_cons, List.sum_cons, hfirst]
      omega
    · have hrest : (key, old) ∈ rest := by
        rcases List.mem_cons.mp hold with h | h
        · exact absurd (congrArg Prod.fst h) heq
        · exact h
      have := ih hm.2 hrest
      simp only [List.map_cons, List.sum_cons]
      omega

/-- A map with an entry has an entry of greatest key. -/
theorem exists_max_key {m : List (α × β)} (hne : m ≠ []) : ∃ p ∈ m, ∀ q ∈ m, q.1 ≤ p.1 := by
  induction m with
  | nil => exact absurd rfl hne
  | cons a rest ih =>
    by_cases hrest : rest = []
    · subst hrest
      exact ⟨a, List.mem_cons_self, fun q hq => by rw [List.mem_singleton.mp hq]⟩
    · obtain ⟨p, hp, hmax⟩ := ih hrest
      by_cases hap : a.1 ≤ p.1
      · refine ⟨p, List.mem_cons_of_mem _ hp, fun q hq => ?_⟩
        rcases List.mem_cons.mp hq with rfl | hq
        · exact hap
        · exact hmax q hq
      · refine ⟨a, List.mem_cons_self, fun q hq => ?_⟩
        rcases List.mem_cons.mp hq with rfl | hq
        · exact le_rfl
        · exact le_trans (hmax q hq) (le_of_lt (not_le.mp hap))

/-- After `insert`, every key that was there and the inserted one have an entry. -/
theorem exists_key_insert {m : List (α × β)} (hm : Sorted m) {key x : α} (value : β)
    (h : (∃ p ∈ m, p.1 = x) ∨ x = key) : ∃ p ∈ insert key value m, p.1 = x := by
  rcases h with ⟨p, hp, rfl⟩ | rfl
  · by_cases hpk : p.1 = key
    · exact ⟨(key, value), (mem_insert hm).mpr (.inl rfl), hpk.symm⟩
    · exact ⟨p, (mem_insert hm).mpr (.inr ⟨hp, hpk⟩), rfl⟩
  · exact ⟨(x, value), (mem_insert hm).mpr (.inl rfl), rfl⟩

end SortedMap
