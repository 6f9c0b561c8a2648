import Agave.Gossip.Crds

/-!
# Secondary indexes of the table

What it means for an index of `Crds` to be exact, and how each change of the table moves it. An
index of positions (`nodes`, a record) is exact for a property of values when it holds the
positions whose values have it, each once (`PositionsExact`); an ordinal index (`votes`,
`entries`, ...) when it maps the ordinal of each such value to the value's position, in ordinal
order (`OrdinalsExact`).

The table changes in three ways: a value goes last (a vacant insert), a value takes a position's
place (an overriding insert), and `swap_remove` takes a position out and moves the last value into
it. For each, the update the code makes to an index keeps it exact. The update of `remove` is
`patchPositions`/`patchOrdinals`: the removed value's position goes, and the moved value's old
position `size` is traded for the freed one.
-/

namespace Agave.Gossip

namespace Crds

variable (P : CrdsValue → Prop) [DecidablePred P]

/-- The positions of the table whose values satisfy `P`, each once. -/
structure PositionsExact (table : List (CrdsValueLabel × VersionedCrdsValue))
    (positions : List Nat) : Prop where
  nodup : positions.Nodup
  mem : ∀ i, i ∈ positions ↔ ∃ e, table[i]? = some e ∧ P e.2.value

/-- For each position of the table whose value satisfies `P`, the value's ordinal with the
position, in ordinal order. -/
structure OrdinalsExact (table : List (CrdsValueLabel × VersionedCrdsValue))
    (index : List (Nat × Nat)) : Prop where
  sorted : SortedMap.Sorted index
  mem : ∀ ordinal i, (ordinal, i) ∈ index ↔
    ∃ e, table[i]? = some e ∧ P e.2.value ∧ e.2.ordinal = ordinal

/-- The first half of `remove`'s update of the positions of the values satisfying `P`: the removed
value's position `i` goes. -/
def dropPositions (i : Nat) (removed : CrdsValueLabel × VersionedCrdsValue)
    (positions : List Nat) : List Nat :=
  if P removed.2.value then IndexSet.swapRemove i positions else positions

/-- The second half: the value that `swap_remove` moved from `size` to `i` trades its position. -/
def movePositions (size i : Nat) (moved : CrdsValueLabel × VersionedCrdsValue)
    (positions : List Nat) : List Nat :=
  if P moved.2.value then IndexSet.insert i (IndexSet.swapRemove size positions) else positions

/-- What `remove` does to the positions of the values satisfying `P`. -/
def patchPositions (table : List (CrdsValueLabel × VersionedCrdsValue)) (i : Nat)
    (removed : CrdsValueLabel × VersionedCrdsValue) (positions : List Nat) : List Nat :=
  let positions := dropPositions P i removed positions
  if i + 1 < table.length then
    match table[table.length - 1]? with
    | some moved => movePositions P (table.length - 1) i moved positions
    | none => positions
  else positions

/-- The first half of `remove`'s update of the ordinal index of the values satisfying `P`. -/
def dropOrdinals (removed : CrdsValueLabel × VersionedCrdsValue) (index : List (Nat × Nat)) :
    List (Nat × Nat) :=
  if P removed.2.value then SortedMap.erase removed.2.ordinal index else index

/-- The second half: the moved value's ordinal now maps to `i`. -/
def moveOrdinals (i : Nat) (moved : CrdsValueLabel × VersionedCrdsValue)
    (index : List (Nat × Nat)) : List (Nat × Nat) :=
  if P moved.2.value then SortedMap.insert moved.2.ordinal i index else index

/-- What `remove` does to the ordinal index of the values satisfying `P`. -/
def patchOrdinals (table : List (CrdsValueLabel × VersionedCrdsValue)) (i : Nat)
    (removed : CrdsValueLabel × VersionedCrdsValue) (index : List (Nat × Nat)) :
    List (Nat × Nat) :=
  let index := dropOrdinals P removed index
  if i + 1 < table.length then
    match table[table.length - 1]? with
    | some moved => moveOrdinals P i moved index
    | none => index
  else index

variable {P}

section Table

variable {table : List (CrdsValueLabel × VersionedCrdsValue)}

/-! The two cases of `remove`'s update: a value moves from the last position, or the removed value
was the last. -/

theorem patchPositions_of_lt {i : Nat} {moved : CrdsValueLabel × VersionedCrdsValue}
    (hlast : i + 1 < table.length) (hmoved : table[table.length - 1]? = some moved)
    (removed : CrdsValueLabel × VersionedCrdsValue) (positions : List Nat) :
    patchPositions P table i removed positions =
      movePositions P (table.length - 1) i moved (dropPositions P i removed positions) := by
  unfold patchPositions
  rw [if_pos hlast, hmoved]

theorem patchPositions_of_le {i : Nat} (hlast : table.length ≤ i + 1)
    (removed : CrdsValueLabel × VersionedCrdsValue) (positions : List Nat) :
    patchPositions P table i removed positions = dropPositions P i removed positions := by
  unfold patchPositions
  rw [if_neg (by omega)]

theorem patchOrdinals_of_lt {i : Nat} {moved : CrdsValueLabel × VersionedCrdsValue}
    (hlast : i + 1 < table.length) (hmoved : table[table.length - 1]? = some moved)
    (removed : CrdsValueLabel × VersionedCrdsValue) (index : List (Nat × Nat)) :
    patchOrdinals P table i removed index = moveOrdinals P i moved (dropOrdinals P removed index) := by
  unfold patchOrdinals
  rw [if_pos hlast, hmoved]

theorem patchOrdinals_of_le {i : Nat} (hlast : table.length ≤ i + 1)
    (removed : CrdsValueLabel × VersionedCrdsValue) (index : List (Nat × Nat)) :
    patchOrdinals P table i removed index = dropOrdinals P removed index := by
  unfold patchOrdinals
  rw [if_neg (by omega)]

theorem getElem?_append_singleton (e : CrdsValueLabel × VersionedCrdsValue) (j : Nat) :
    (table ++ [e])[j]? =
      if j < table.length then table[j]? else if j = table.length then some e else none := by
  split
  · rename_i hj
    exact List.getElem?_append_left hj
  · rename_i hj
    rw [List.getElem?_append_right (by omega)]
    split
    · rename_i hj'
      subst hj'
      simp
    · rename_i hj'
      exact List.getElem?_eq_none (by simp; omega)

theorem lt_length_of_getElem? {i : Nat} {e : CrdsValueLabel × VersionedCrdsValue}
    (h : table[i]? = some e) : i < table.length :=
  (List.getElem?_eq_some_iff.mp h).1

theorem getElem?_swapRemoveAt_eq_some {i j : Nat} (hi : i < table.length)
    {x : CrdsValueLabel × VersionedCrdsValue} :
    (IndexMap.swapRemoveAt table i)[j]? = some x ↔
      j + 1 < table.length ∧ (j = i ∧ table[table.length - 1]? = some x ∨
        j ≠ i ∧ table[j]? = some x) := by
  rw [IndexMap.getElem?_swapRemoveAt hi]
  by_cases hj : j + 1 < table.length
  · rw [if_pos hj]
    by_cases hji : j = i
    · subst hji
      simp [hj]
    · simp [hj, hji]
  · simp [hj]

omit [DecidablePred P] in
theorem PositionsExact.lt_length {positions : List Nat} (h : PositionsExact P table positions)
    {i : Nat} (hi : i ∈ positions) : i < table.length := by
  obtain ⟨e, he, -⟩ := (h.mem i).mp hi
  exact lt_length_of_getElem? he

/-- A vacant insert: the new value's position goes in when it has the property. -/
theorem PositionsExact.append {positions : List Nat} (h : PositionsExact P table positions)
    (e : CrdsValueLabel × VersionedCrdsValue) :
    PositionsExact P (table ++ [e])
      (if P e.2.value then IndexSet.insert table.length positions else positions) := by
  constructor
  · split
    · exact IndexSet.nodup_insert h.nodup
    · exact h.nodup
  · intro j
    rw [getElem?_append_singleton]
    by_cases hj : j < table.length
    · -- an old position, not the new one
      rw [if_pos hj, ← h.mem j]
      split
      · rw [IndexSet.mem_insert]
        exact ⟨fun h' => h'.resolve_left (by omega), Or.inr⟩
      · rfl
    · rw [if_neg hj]
      have hnot : j ∉ positions := fun hmem => hj (h.lt_length hmem)
      by_cases hjn : j = table.length
      · subst hjn
        simp only [if_true]
        split
        · rename_i hP
          simp [hP]
        · rename_i hP
          simp [hP, hnot]
      · rw [if_neg hjn]
        split
        · simp [IndexSet.mem_insert, hjn, hnot]
        · simp [hnot]

omit [DecidablePred P] in
/-- An overriding insert: a value of the same standing takes the place, and the positions stay. -/
theorem PositionsExact.set {positions : List Nat} (h : PositionsExact P table positions)
    {i : Nat} {e e' : CrdsValueLabel × VersionedCrdsValue} (hi : table[i]? = some e)
    (hP : P e'.2.value ↔ P e.2.value) : PositionsExact P (table.set i e') positions := by
  refine ⟨h.nodup, fun j => ?_⟩
  rw [h.mem j, List.getElem?_set]
  by_cases hij : i = j
  · subst hij
    rw [if_pos rfl, if_pos (lt_length_of_getElem? hi), hi]
    simp [hP]
  · rw [if_neg hij]

/-- No two positions of the table hold values of one ordinal. -/
def OrdinalsDistinct (table : List (CrdsValueLabel × VersionedCrdsValue)) : Prop :=
  ∀ (i j : Nat) (e e' : CrdsValueLabel × VersionedCrdsValue), table[i]? = some e →
    table[j]? = some e' → e.2.ordinal = e'.2.ordinal → i = j

/-- A vacant insert with an ordinal no stored value has keeps the ordinals distinct. -/
theorem OrdinalsDistinct.append (h : OrdinalsDistinct table)
    {e : CrdsValueLabel × VersionedCrdsValue} (hfresh : ∀ x ∈ table, x.2.ordinal ≠ e.2.ordinal) :
    OrdinalsDistinct (table ++ [e]) := by
  intro i j x x' hi hj heq
  rw [getElem?_append_singleton] at hi hj
  -- the new value's ordinal is no old one's
  split at hi <;> split at hj
  · exact h i j x x' hi hj heq
  · split at hj
    · cases hj
      exact absurd heq (hfresh x (List.mem_of_getElem? hi))
    · cases hj
  · split at hi
    · cases hi
      exact absurd heq.symm (hfresh x' (List.mem_of_getElem? hj))
    · cases hi
  · split at hi <;> split at hj
    · omega
    · cases hj
    · cases hi
    · cases hi

/-- A value taking position `i` keeps the ordinals distinct when no other position has its
ordinal. -/
theorem OrdinalsDistinct.set (h : OrdinalsDistinct table) {i : Nat}
    {e' : CrdsValueLabel × VersionedCrdsValue}
    (hother : ∀ j x, table[j]? = some x → j ≠ i → x.2.ordinal ≠ e'.2.ordinal) :
    OrdinalsDistinct (table.set i e') := by
  intro j j' x x' hj hj' heq
  rw [List.getElem?_set] at hj hj'
  split at hj <;> split at hj'
  · rename_i h₁ h₂
    exact h₁.symm.trans h₂
  · rename_i h₁ h₂
    split at hj
    · cases hj
      exact absurd heq.symm (hother j' x' hj' (fun h' => h₂ h'.symm))
    · cases hj
  · rename_i h₁ h₂
    split at hj'
    · cases hj'
      exact absurd heq (hother j x hj (fun h' => h₁ h'.symm))
    · cases hj'
  · exact h j j' x x' hj hj' heq

/-- `swap_remove` keeps the ordinals distinct: the positions left hold values of distinct
positions before. -/
theorem OrdinalsDistinct.swapRemoveAt (h : OrdinalsDistinct table) {i : Nat}
    (hi : i < table.length) : OrdinalsDistinct (IndexMap.swapRemoveAt table i) := by
  intro j j' x x' hj hj' heq
  rw [getElem?_swapRemoveAt_eq_some hi] at hj hj'
  obtain ⟨hjlt, ⟨rfl, hx⟩ | ⟨hji, hx⟩⟩ := hj <;> obtain ⟨hjlt', ⟨rfl, hx'⟩ | ⟨hji', hx'⟩⟩ := hj'
  · rfl
  · have := h _ _ x x' hx hx' heq
    omega
  · have := h _ _ x x' hx hx' heq
    omega
  · exact h j j' x x' hx hx' heq

/-- The labels after a value takes a position under the same label. -/
theorem map_fst_set {i : Nat} {e e' : CrdsValueLabel × VersionedCrdsValue}
    (hi : table[i]? = some e) (hlabel : e'.1 = e.1) :
    (table.set i e').map Prod.fst = table.map Prod.fst := by
  apply List.ext_getElem?
  intro j
  rw [List.getElem?_map, List.getElem?_map, List.getElem?_set]
  split
  · rename_i hij
    subst hij
    rw [if_pos (lt_length_of_getElem? hi), hi]
    simp [hlabel]
  · rfl

/-- `swap_remove` keeps the labels distinct. -/
theorem nodup_map_fst_swapRemoveAt (h : (table.map Prod.fst).Nodup) {i : Nat}
    (hi : i < table.length) : ((IndexMap.swapRemoveAt table i).map Prod.fst).Nodup :=
  ((IndexMap.perm_swapRemoveAt hi).map Prod.fst).nodup_iff.mpr
    ((List.eraseIdx_sublist _ _).map Prod.fst |>.nodup h)

theorem mem_of_mem_swapRemoveAt {i : Nat} {x : CrdsValueLabel × VersionedCrdsValue}
    (hi : i < table.length) (hx : x ∈ IndexMap.swapRemoveAt table i) : x ∈ table :=
  ((IndexMap.perm_swapRemoveAt hi).mem_iff.mp hx) |> (List.eraseIdx_sublist _ _).subset

omit [DecidablePred P] in
/-- A value that keeps the value and ordinal of the one at its position keeps an ordinal index
exact. -/
theorem OrdinalsExact.set_same {index : List (Nat × Nat)} (h : OrdinalsExact P table index)
    {i : Nat} {e e' : CrdsValueLabel × VersionedCrdsValue} (hi : table[i]? = some e)
    (hvalue : e'.2.value = e.2.value) (hordinal : e'.2.ordinal = e.2.ordinal) :
    OrdinalsExact P (table.set i e') index := by
  refine ⟨h.sorted, fun ordinal j => ?_⟩
  rw [h.mem ordinal j, List.getElem?_set]
  by_cases hij : i = j
  · subst hij
    rw [if_pos rfl, if_pos (lt_length_of_getElem? hi), hi]
    simp [hvalue, hordinal]
  · rw [if_neg hij]

omit [DecidablePred P] in
theorem OrdinalsExact.lt_length {index : List (Nat × Nat)} (h : OrdinalsExact P table index)
    {ordinal i : Nat} (hi : (ordinal, i) ∈ index) : i < table.length := by
  obtain ⟨e, he, -⟩ := (h.mem ordinal i).mp hi
  exact lt_length_of_getElem? he

/-- A vacant insert: the new value's ordinal, above every other, maps to the new last position. -/
theorem OrdinalsExact.append {index : List (Nat × Nat)} (h : OrdinalsExact P table index)
    (e : CrdsValueLabel × VersionedCrdsValue) (hfresh : ∀ e' ∈ table, e'.2.ordinal ≠ e.2.ordinal) :
    OrdinalsExact P (table ++ [e])
      (if P e.2.value then SortedMap.insert e.2.ordinal table.length index else index) := by
  constructor
  · split
    · exact SortedMap.sorted_insert h.sorted
    · exact h.sorted
  · intro ordinal j
    rw [getElem?_append_singleton]
    by_cases hj : j < table.length
    · -- an old position: its ordinal is not the new one
      rw [if_pos hj, ← h.mem ordinal j]
      split
      · rw [SortedMap.mem_insert h.sorted]
        constructor
        · rintro (heq | ⟨hmem, -⟩)
          · cases heq
            omega
          · exact hmem
        · intro hmem
          refine Or.inr ⟨hmem, ?_⟩
          obtain ⟨e', he', -, rfl⟩ := (h.mem ordinal j).mp hmem
          exact hfresh e' (List.mem_of_getElem? he')
      · rfl
    · rw [if_neg hj]
      have hnot : ∀ k, (k, j) ∉ index := fun k hmem => hj (h.lt_length hmem)
      by_cases hjn : j = table.length
      · subst hjn
        simp only [if_true]
        split
        · rename_i hP
          rw [SortedMap.mem_insert h.sorted]
          simp [hnot, hP, eq_comm]
        · rename_i hP
          simp [hP, hnot]
      · rw [if_neg hjn]
        split
        · rw [SortedMap.mem_insert h.sorted]
          simp [hjn, hnot]
        · simp [hnot]

/-- An overriding insert: the old value's ordinal gives way to the new one's, at the same
position. -/
theorem OrdinalsExact.set {index : List (Nat × Nat)} (h : OrdinalsExact P table index)
    (hdistinct : OrdinalsDistinct table) {i : Nat} {e e' : CrdsValueLabel × VersionedCrdsValue}
    (hi : table[i]? = some e) (hP : P e'.2.value ↔ P e.2.value)
    (hfresh : ∀ x ∈ table, x.2.ordinal ≠ e'.2.ordinal) :
    OrdinalsExact P (table.set i e')
      (if P e'.2.value then SortedMap.insert e'.2.ordinal i (SortedMap.erase e.2.ordinal index)
        else index) := by
  have hlt : i < table.length := lt_length_of_getElem? hi
  constructor
  · split
    · exact SortedMap.sorted_insert (SortedMap.sorted_erase h.sorted)
    · exact h.sorted
  · intro ordinal j
    rw [List.getElem?_set]
    by_cases hij : i = j
    · -- the overridden position
      subst hij
      rw [if_pos rfl, if_pos hlt]
      split
      · rename_i hP'
        rw [SortedMap.mem_insert (SortedMap.sorted_erase h.sorted), SortedMap.mem_erase]
        constructor
        · rintro (heq | ⟨⟨hmem, hne⟩, -⟩)
          · cases heq
            exact ⟨e', rfl, hP', rfl⟩
          · obtain ⟨x, hx, -, rfl⟩ := (h.mem ordinal i).mp hmem
            rw [hi, Option.some.injEq] at hx
            exact absurd (hx ▸ rfl) hne
        · rintro ⟨x, hx, -, rfl⟩
          cases hx
          exact Or.inl rfl
      · rename_i hP'
        constructor
        · intro hmem
          obtain ⟨x, hx, hPx, -⟩ := (h.mem ordinal i).mp hmem
          rw [hi, Option.some.injEq] at hx
          subst hx
          exact absurd (hP.mpr hPx) hP'
        · rintro ⟨x, hx, hPx, -⟩
          cases hx
          exact absurd hPx hP'
    · -- another position keeps its value, whose ordinal is neither of the two
      rw [if_neg hij, ← h.mem ordinal j]
      split
      · rw [SortedMap.mem_insert (SortedMap.sorted_erase h.sorted), SortedMap.mem_erase]
        constructor
        · rintro (heq | ⟨⟨hmem, -⟩, -⟩)
          · cases heq
            exact absurd rfl hij
          · exact hmem
        · intro hmem
          obtain ⟨x, hx, -, rfl⟩ := (h.mem ordinal j).mp hmem
          refine Or.inr ⟨⟨hmem, fun heq => hij (hdistinct i j e x hi hx heq.symm)⟩,
            hfresh x (List.mem_of_getElem? hx)⟩
      · rfl

/-! ### `swap_remove` -/

theorem mem_dropPositions {positions : List Nat} (h : PositionsExact P table positions) {i : Nat}
    {removed : CrdsValueLabel × VersionedCrdsValue} (hi : table[i]? = some removed) {j : Nat} :
    j ∈ dropPositions P i removed positions ↔ j ∈ positions ∧ j ≠ i := by
  unfold dropPositions
  split
  · exact IndexSet.mem_swapRemove h.nodup
  · rename_i hP
    -- the removed value does not have the property, so its position is not there
    refine ⟨fun hj => ⟨hj, ?_⟩, fun hj => hj.1⟩
    rintro rfl
    obtain ⟨x, hx, hPx⟩ := (h.mem j).mp hj
    rw [hi, Option.some.injEq] at hx
    exact hP (hx ▸ hPx)

theorem nodup_dropPositions {positions : List Nat} (h : PositionsExact P table positions) (i : Nat)
    (removed : CrdsValueLabel × VersionedCrdsValue) :
    (dropPositions P i removed positions).Nodup := by
  unfold dropPositions
  split
  · exact IndexSet.nodup_swapRemove h.nodup
  · exact h.nodup

theorem mem_movePositions {positions : List Nat} (hnodup : positions.Nodup) {size i j : Nat}
    {moved : CrdsValueLabel × VersionedCrdsValue} :
    j ∈ movePositions P size i moved positions ↔
      (P moved.2.value ∧ j = i) ∨ (j ∈ positions ∧ (P moved.2.value → j ≠ size)) := by
  unfold movePositions
  split
  · rename_i hP
    rw [IndexSet.mem_insert, IndexSet.mem_swapRemove hnodup]
    simp [hP]
  · rename_i hP
    simp [hP]

theorem nodup_movePositions {positions : List Nat} (hnodup : positions.Nodup) (size i : Nat)
    (moved : CrdsValueLabel × VersionedCrdsValue) :
    (movePositions P size i moved positions).Nodup := by
  unfold movePositions
  split
  · exact IndexSet.nodup_insert (IndexSet.nodup_swapRemove hnodup)
  · exact hnodup

/-- `remove` keeps an index of positions exact: the removed position goes, and the moved value
trades the last position for the freed one. -/
theorem PositionsExact.swapRemoveAt {positions : List Nat} (h : PositionsExact P table positions)
    {i : Nat} {removed : CrdsValueLabel × VersionedCrdsValue} (hi : table[i]? = some removed) :
    PositionsExact P (IndexMap.swapRemoveAt table i) (patchPositions P table i removed positions) := by
  have hlt : i < table.length := lt_length_of_getElem? hi
  have hdrop := nodup_dropPositions h i removed (P := P)
  by_cases hlast : i + 1 < table.length
  · -- a value moves from the last position to `i`
    obtain ⟨moved, hmoved⟩ : ∃ moved, table[table.length - 1]? = some moved :=
      ⟨_, List.getElem?_eq_getElem (by omega)⟩
    rw [patchPositions_of_lt hlast hmoved]
    refine ⟨nodup_movePositions hdrop _ _ _, fun j => ?_⟩
    rw [mem_movePositions hdrop, mem_dropPositions h hi]
    simp only [getElem?_swapRemoveAt_eq_some hlt]
    by_cases hji : j = i
    · subst hji
      simp [hlast, hmoved]
    · by_cases hj : j + 1 < table.length
      · rw [h.mem j]
        constructor
        · rintro (⟨-, rfl⟩ | ⟨⟨⟨x, hx, hPx⟩, -⟩, -⟩)
          · exact absurd rfl hji
          · exact ⟨x, ⟨hj, Or.inr ⟨hji, hx⟩⟩, hPx⟩
        · rintro ⟨x, ⟨-, ⟨rfl, -⟩ | ⟨-, hx⟩⟩, hPx⟩
          · exact absurd rfl hji
          · exact Or.inr ⟨⟨⟨x, hx, hPx⟩, hji⟩, fun _ => by omega⟩
      · -- the last position: it left, and the moved value had it
        have hgone : ¬((P moved.2.value ∧ j = i) ∨
            ((j ∈ positions ∧ j ≠ i) ∧ (P moved.2.value → j ≠ table.length - 1))) := by
          rintro (⟨-, hj'⟩ | ⟨⟨hmem, -⟩, himp⟩)
          · exact hji hj'
          · have hjlt := h.lt_length hmem
            have hjeq : j = table.length - 1 := by omega
            obtain ⟨x, hx, hPx⟩ := (h.mem j).mp hmem
            rw [hjeq, hmoved, Option.some.injEq] at hx
            exact himp (hx ▸ hPx) hjeq
        simp only [hj, false_and, exists_false, iff_false]
        exact hgone
  · -- the removed value was the last one
    rw [patchPositions_of_le (by omega)]
    refine ⟨hdrop, fun j => ?_⟩
    rw [mem_dropPositions h hi]
    simp only [getElem?_swapRemoveAt_eq_some hlt]
    by_cases hj : j + 1 < table.length
    · have hji : j ≠ i := by omega
      rw [h.mem j]
      constructor
      · rintro ⟨⟨x, hx, hPx⟩, -⟩
        exact ⟨x, ⟨hj, Or.inr ⟨hji, hx⟩⟩, hPx⟩
      · rintro ⟨x, ⟨-, ⟨rfl, -⟩ | ⟨-, hx⟩⟩, hPx⟩
        · exact absurd rfl hji
        · exact ⟨⟨x, hx, hPx⟩, hji⟩
    · simp only [hj, false_and, exists_false, iff_false, not_and]
      intro hmem
      have hjlt := h.lt_length hmem
      omega

theorem mem_dropOrdinals {index : List (Nat × Nat)} (h : OrdinalsExact P table index)
    (hdistinct : OrdinalsDistinct table) {i : Nat} {removed : CrdsValueLabel × VersionedCrdsValue}
    (hi : table[i]? = some removed) {ordinal j : Nat} :
    (ordinal, j) ∈ dropOrdinals P removed index ↔ (ordinal, j) ∈ index ∧ j ≠ i := by
  unfold dropOrdinals
  split
  · rw [SortedMap.mem_erase]
    -- the removed ordinal is the one of position `i`
    refine and_congr_right fun hmem => ?_
    obtain ⟨x, hx, -, rfl⟩ := (h.mem ordinal j).mp hmem
    constructor
    · rintro hne rfl
      rw [hi, Option.some.injEq] at hx
      exact hne (hx ▸ rfl)
    · intro hji heq
      exact hji (hdistinct j i x removed hx hi heq)
  · rename_i hP
    refine ⟨fun hj => ⟨hj, ?_⟩, fun hj => hj.1⟩
    rintro rfl
    obtain ⟨x, hx, hPx, -⟩ := (h.mem ordinal j).mp hj
    rw [hi, Option.some.injEq] at hx
    exact hP (hx ▸ hPx)

theorem sorted_dropOrdinals {index : List (Nat × Nat)} (hsorted : SortedMap.Sorted index)
    (removed : CrdsValueLabel × VersionedCrdsValue) :
    SortedMap.Sorted (dropOrdinals P removed index) := by
  unfold dropOrdinals
  split
  · exact SortedMap.sorted_erase hsorted
  · exact hsorted

theorem mem_moveOrdinals {index : List (Nat × Nat)} (hsorted : SortedMap.Sorted index)
    {i ordinal j : Nat} {moved : CrdsValueLabel × VersionedCrdsValue} :
    (ordinal, j) ∈ moveOrdinals P i moved index ↔
      (P moved.2.value ∧ ordinal = moved.2.ordinal ∧ j = i) ∨
        ((ordinal, j) ∈ index ∧ (P moved.2.value → ordinal ≠ moved.2.ordinal)) := by
  unfold moveOrdinals
  split
  · rename_i hP
    rw [SortedMap.mem_insert hsorted]
    simp [hP]
  · rename_i hP
    simp [hP]

theorem sorted_moveOrdinals {index : List (Nat × Nat)} (hsorted : SortedMap.Sorted index) (i : Nat)
    (moved : CrdsValueLabel × VersionedCrdsValue) :
    SortedMap.Sorted (moveOrdinals P i moved index) := by
  unfold moveOrdinals
  split
  · exact SortedMap.sorted_insert hsorted
  · exact hsorted

/-- `remove` keeps an ordinal index exact: the removed value's ordinal goes, and the moved value's
ordinal now maps to the freed position. -/
theorem OrdinalsExact.swapRemoveAt {index : List (Nat × Nat)} (h : OrdinalsExact P table index)
    (hdistinct : OrdinalsDistinct table) {i : Nat} {removed : CrdsValueLabel × VersionedCrdsValue}
    (hi : table[i]? = some removed) :
    OrdinalsExact P (IndexMap.swapRemoveAt table i) (patchOrdinals P table i removed index) := by
  have hlt : i < table.length := lt_length_of_getElem? hi
  have hdrop := sorted_dropOrdinals h.sorted removed (P := P)
  by_cases hlast : i + 1 < table.length
  · obtain ⟨moved, hmoved⟩ : ∃ moved, table[table.length - 1]? = some moved :=
      ⟨_, List.getElem?_eq_getElem (by omega)⟩
    rw [patchOrdinals_of_lt hlast hmoved]
    refine ⟨sorted_moveOrdinals hdrop _ _, fun ordinal j => ?_⟩
    rw [mem_moveOrdinals hdrop, mem_dropOrdinals h hdistinct hi]
    simp only [getElem?_swapRemoveAt_eq_some hlt]
    by_cases hji : j = i
    · subst hji
      simp only [hlast, true_and, and_true, ne_eq, not_true_eq_false, and_false, false_and,
        or_false]
      constructor
      · rintro ⟨hP, rfl⟩
        exact ⟨moved, hmoved, hP, rfl⟩
      · rintro ⟨x, hx, hPx, rfl⟩
        rw [hmoved, Option.some.injEq] at hx
        subst hx
        exact ⟨hPx, rfl⟩
    · by_cases hj : j + 1 < table.length
      · rw [h.mem ordinal j]
        constructor
        · rintro (⟨-, -, rfl⟩ | ⟨⟨⟨x, hx, hPx, rfl⟩, -⟩, -⟩)
          · exact absurd rfl hji
          · exact ⟨x, ⟨hj, Or.inr ⟨hji, hx⟩⟩, hPx, rfl⟩
        · rintro ⟨x, ⟨-, ⟨rfl, -⟩ | ⟨-, hx⟩⟩, hPx, rfl⟩
          · exact absurd rfl hji
          · -- the moved value's ordinal is another position's
            refine Or.inr ⟨⟨⟨x, hx, hPx, rfl⟩, hji⟩, fun _ heq => ?_⟩
            have := hdistinct j (table.length - 1) x moved hx hmoved heq
            omega
      · -- the last position held the moved value
        have hgone : ¬((P moved.2.value ∧ ordinal = moved.2.ordinal ∧ j = i) ∨
            (((ordinal, j) ∈ index ∧ j ≠ i) ∧
              (P moved.2.value → ordinal ≠ moved.2.ordinal))) := by
          rintro (⟨-, -, hj'⟩ | ⟨⟨hmem, -⟩, himp⟩)
          · exact hji hj'
          · obtain ⟨x, hx, hPx, rfl⟩ := (h.mem ordinal j).mp hmem
            have hjlt := lt_length_of_getElem? hx
            have hjeq : j = table.length - 1 := by omega
            rw [hjeq, hmoved, Option.some.injEq] at hx
            subst hx
            exact himp hPx rfl
        simp only [hj, false_and, exists_false, iff_false]
        exact hgone
  · rw [patchOrdinals_of_le (by omega)]
    refine ⟨hdrop, fun ordinal j => ?_⟩
    rw [mem_dropOrdinals h hdistinct hi]
    simp only [getElem?_swapRemoveAt_eq_some hlt]
    by_cases hj : j + 1 < table.length
    · have hji : j ≠ i := by omega
      rw [h.mem ordinal j]
      constructor
      · rintro ⟨⟨x, hx, hPx, rfl⟩, -⟩
        exact ⟨x, ⟨hj, Or.inr ⟨hji, hx⟩⟩, hPx, rfl⟩
      · rintro ⟨x, ⟨-, ⟨rfl, -⟩ | ⟨-, hx⟩⟩, hPx, rfl⟩
        · exact absurd rfl hji
        · exact ⟨⟨x, hx, hPx, rfl⟩, hji⟩
    · simp only [hj, false_and, exists_false, iff_false, not_and]
      intro hmem
      have hjlt := h.lt_length hmem
      omega

end Table

end Crds

end Agave.Gossip
