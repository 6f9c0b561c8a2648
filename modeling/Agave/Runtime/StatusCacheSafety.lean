import Agave.Runtime.StatusCache

/-!
# The status cache over any sequence of operations

The cache's two indexes agree: every key slice that a slot's delta records for a blockhash has
its entry at that slot in the blockhash's key map (`Consistent.recorded`). That is what
`clear_slot_entries` relies on, and with it, and a slot's delta naming each key slice of a
blockhash once, `clear_slot_entries` never panics. A slot's delta names a key slice twice when
the same key (or two keys with the same cached slice) is inserted twice at one slot for one
blockhash; `clear_slot_entries` then removes the slice's entries at the first occurrence and
panics at the second. The operations of a run are therefore the ones that record no
(slot, blockhash, key slice) twice (`Op.Valid`).

An entry of the key map stays until its slot is cleared or its blockhash is purged, and
`get_status` finds it on every fork that has its slot as an ancestor or root; what `get_status`
returns was recorded by an operation of the run, under the key's cached slice.
-/

namespace Agave.Runtime

variable {T : Type}

namespace StatusCache

/-! ## What the cache records -/

/-- The results the blockhash index holds for a key slice of a blockhash, oldest first. -/
def forksOf (cache : Hash → Option (Nat × Nat × KeyMap T)) (blockhash : Hash)
    (keySlice : KeySlice) : ForkStatus T :=
  match cache blockhash with
  | some (_, _, keyMap) => (AssocList.get? keySlice keyMap).getD []
  | none => []

/-- The highest slot and the key index the blockhash index holds for a blockhash. -/
def metaOf (cache : Hash → Option (Nat × Nat × KeyMap T)) (blockhash : Hash) :
    Option (Nat × Nat) :=
  (cache blockhash).map fun entry => (entry.1, entry.2.1)

/-- The delta of `slot` records the key slice for the blockhash with the result. -/
def Recorded (s : StatusCache T) (slot : Nat) (blockhash : Hash) (keySlice : KeySlice)
    (res : T) : Prop :=
  ∃ statuses, s.slotDeltas slot = some statuses ∧
    ∃ keyIndex keyList, (blockhash, keyIndex, keyList) ∈ statuses ∧ (keySlice, res) ∈ keyList

theorem forksOf_update_self (cache : Hash → Option (Nat × Nat × KeyMap T)) (blockhash : Hash)
    (entry : Option (Nat × Nat × KeyMap T)) (keySlice : KeySlice) :
    forksOf (Function.update cache blockhash entry) blockhash keySlice =
      match entry with
      | some (_, _, keyMap) => (AssocList.get? keySlice keyMap).getD []
      | none => [] := by
  simp [forksOf]

theorem forksOf_update_ne {cache : Hash → Option (Nat × Nat × KeyMap T)} {blockhash other : Hash}
    (h : other ≠ blockhash) (entry : Option (Nat × Nat × KeyMap T)) (keySlice : KeySlice) :
    forksOf (Function.update cache blockhash entry) other keySlice =
      forksOf cache other keySlice := by
  simp [forksOf, Function.update_of_ne h]

/-! ## Recording a key slice -/

section InsertWithSlice

variable (s : StatusCache T) (blockhash : Hash) (slot keyIndex : Nat) (keySlice : KeySlice)
  (res : T)

/-- `insert_with_slice` adds the result last to the key slice's forks, and nothing else. -/
theorem forksOf_insertWithSlice (other : Hash) (otherSlice : KeySlice) :
    forksOf (s.insertWithSlice blockhash slot keyIndex keySlice res).cache other otherSlice =
      if other = blockhash ∧ otherSlice = keySlice then
        forksOf s.cache blockhash keySlice ++ [(slot, res)]
      else forksOf s.cache other otherSlice := by
  by_cases hbh : other = blockhash
  · subst hbh
    simp only [insertWithSlice, forksOf_update_self, true_and]
    by_cases hslice : otherSlice = keySlice
    · subst hslice
      cases h : s.cache other <;> simp [forksOf, h]
    · rw [if_neg hslice, AssocList.get?_alter_ne hslice]
      cases h : s.cache other <;> simp [forksOf, h]
  · simp [insertWithSlice, forksOf_update_ne hbh, hbh]

/-- `insert_with_slice` raises the blockhash's highest slot to the slot, and keeps its key index
once it has one. -/
theorem metaOf_insertWithSlice (other : Hash) :
    metaOf (s.insertWithSlice blockhash slot keyIndex keySlice res).cache other =
      if other = blockhash then
        some (match metaOf s.cache blockhash with
          | some (maxSlot, index) => (max slot maxSlot, index)
          | none => (slot, keyIndex))
      else metaOf s.cache other := by
  by_cases hbh : other = blockhash
  · subst hbh
    cases h : s.cache other <;> simp [insertWithSlice, metaOf, h]
  · simp [insertWithSlice, metaOf, hbh]

/-- What the slot deltas record after `insert_with_slice`: the new record, and the old ones. -/
theorem recorded_insertWithSlice {slot' : Nat} {blockhash' : Hash} {keySlice' : KeySlice}
    {res' : T}
    (h : (s.insertWithSlice blockhash slot keyIndex keySlice res).Recorded slot' blockhash'
      keySlice' res') :
    (slot' = slot ∧ blockhash' = blockhash ∧ keySlice' = keySlice ∧ res' = res) ∨
      s.Recorded slot' blockhash' keySlice' res' := by
  obtain ⟨statuses, hstatuses, keyIndex', keyList, hmem, hslice⟩ := h
  by_cases hslot : slot' = slot
  · subst hslot
    simp only [insertWithSlice, Function.update_self, Option.some.injEq] at hstatuses
    subst hstatuses
    rcases AssocList.mem_alter hmem with ⟨rfl, hentry⟩ | hold
    · -- the blockhash's entry of the slot's delta, with the new slice last
      rw [Prod.mk.injEq] at hentry
      rw [hentry.2, List.mem_append, List.mem_singleton] at hslice
      rcases hslice with hslice | hslice
      · right
        cases hdelta : s.slotDeltas slot' with
        | none => simp [hdelta] at hslice
        | some statuses =>
          rw [hdelta, Option.getD_some] at hslice
          cases hget : AssocList.get? blockhash' statuses with
          | none => simp [hget] at hslice
          | some hashEntry =>
            rw [hget, Option.getD_some] at hslice
            exact ⟨statuses, hdelta, hashEntry.1, hashEntry.2, AssocList.mem_of_get? hget, hslice⟩
      · cases hslice
        exact Or.inl ⟨rfl, rfl, rfl, rfl⟩
    · right
      cases hdelta : s.slotDeltas slot' with
      | none => simp [hdelta] at hold
      | some statuses =>
        rw [hdelta, Option.getD_some] at hold
        exact ⟨statuses, hdelta, keyIndex', keyList, hold, hslice⟩
  · right
    simp only [insertWithSlice, Function.update_of_ne hslot] at hstatuses
    exact ⟨statuses, hstatuses, keyIndex', keyList, hmem, hslice⟩

end InsertWithSlice

/-- Raising one blockhash's highest slot, as `insert` and `insert_with_slice` do, keeps every key
index and lowers no highest slot. -/
theorem metaOf_raised {cache cache' : Hash → Option (Nat × Nat × KeyMap T)} {blockhash : Hash}
    {slot keyIndex : Nat}
    (hraise : ∀ other, metaOf cache' other =
      if other = blockhash then
        some (match metaOf cache blockhash with
          | some (maxSlot, index) => (max slot maxSlot, index)
          | none => (slot, keyIndex))
      else metaOf cache other)
    {other : Hash} {maxSlot index : Nat} (hmeta : metaOf cache other = some (maxSlot, index)) :
    ∃ maxSlot', metaOf cache' other = some (maxSlot', index) ∧ maxSlot ≤ maxSlot' := by
  rw [hraise]
  split
  · rename_i h
    subst h
    rw [hmeta]
    exact ⟨_, rfl, Nat.le_max_right _ _⟩
  · exact ⟨maxSlot, hmeta, Nat.le_refl _⟩

theorem mem_forksOf_insertWithSlice {s : StatusCache T} {blockhash : Hash} {keySlice : KeySlice}
    {e : Nat × T} (he : e ∈ forksOf s.cache blockhash keySlice) (txHash : Hash)
    (slot keyIndex : Nat) (keySlice' : KeySlice) (res : T) :
    e ∈ forksOf (s.insertWithSlice txHash slot keyIndex keySlice' res).cache blockhash keySlice := by
  rw [forksOf_insertWithSlice]
  split
  · rename_i h
    obtain ⟨rfl, rfl⟩ := h
    exact List.mem_append_left _ he
  · exact he

/-! ## The invariant -/

/-- No result is recorded yet at the slot for the key slice of the blockhash. -/
def Fresh (s : StatusCache T) (slot : Nat) (blockhash : Hash) (keySlice : KeySlice) : Prop :=
  ∀ res, ¬ s.Recorded slot blockhash keySlice res

/-- What holds of the cache along a run: each record of a slot's delta is in the blockhash index
at that slot and below the blockhash's highest slot, and a slot's delta names each blockhash
once, with a nonempty list of key slices named once each. -/
structure Consistent (s : StatusCache T) : Prop where
  recorded : ∀ slot blockhash keySlice res, s.Recorded slot blockhash keySlice res →
    (slot, res) ∈ forksOf s.cache blockhash keySlice ∧
      ∃ maxSlot index, metaOf s.cache blockhash = some (maxSlot, index) ∧ slot ≤ maxSlot
  blockhashes : ∀ slot statuses, s.slotDeltas slot = some statuses →
    (statuses.map Prod.fst).Nodup
  keySlices : ∀ slot statuses, s.slotDeltas slot = some statuses → ∀ entry ∈ statuses,
    entry.2.2 ≠ [] ∧ (entry.2.2.map Prod.fst).Nodup

@[simp] theorem default_cache (blockhash : Hash) :
    (default : StatusCache T).cache blockhash = none := rfl

theorem consistent_default : Consistent (default : StatusCache T) := by
  refine ⟨?_, ?_, ?_⟩
  · rintro _ _ _ _ ⟨_, h, -⟩
    simp at h
  · intro _ _ h
    simp at h
  · intro _ _ h
    simp at h

/-- A fresh key slice is not among those the slot's delta names for the blockhash. -/
theorem Fresh.not_mem {s : StatusCache T} {slot : Nat} {blockhash : Hash} {keySlice : KeySlice}
    (hfresh : s.Fresh slot blockhash keySlice) {statuses : Status T}
    (hstatuses : s.slotDeltas slot = some statuses) {hashEntry : Nat × List (KeySlice × T)}
    (hget : AssocList.get? blockhash statuses = some hashEntry) :
    keySlice ∉ hashEntry.2.map Prod.fst := by
  intro hmem
  obtain ⟨⟨_, res⟩, hpair, rfl⟩ := List.mem_map.mp hmem
  exact hfresh res ⟨statuses, hstatuses, hashEntry.1, hashEntry.2,
    AssocList.mem_of_get? hget, hpair⟩

theorem Consistent.insertWithSlice {s : StatusCache T} (hinv : s.Consistent) {blockhash : Hash}
    {slot keyIndex : Nat} {keySlice : KeySlice} (hfresh : s.Fresh slot blockhash keySlice)
    (res : T) : (s.insertWithSlice blockhash slot keyIndex keySlice res).Consistent := by
  refine ⟨fun slot' blockhash' keySlice' res' hrec => ?_, fun slot' statuses h => ?_,
    fun slot' statuses h => ?_⟩
  · rcases recorded_insertWithSlice s blockhash slot keyIndex keySlice res hrec with
      ⟨rfl, rfl, rfl, rfl⟩ | hold
    · -- the new record
      rw [forksOf_insertWithSlice, metaOf_insertWithSlice]
      refine ⟨by simp, ?_⟩
      simp only [if_true]
      cases metaOf s.cache blockhash' with
      | none => exact ⟨_, _, rfl, le_refl _⟩
      | some m => exact ⟨_, _, rfl, Nat.le_max_left _ _⟩
    · -- an old record, whose entry only gained
      obtain ⟨hmem, maxSlot, index, hmeta, hle⟩ := hinv.recorded _ _ _ _ hold
      obtain ⟨maxSlot', hmeta', hraised⟩ :=
        metaOf_raised (metaOf_insertWithSlice s blockhash slot keyIndex keySlice res) hmeta
      exact ⟨mem_forksOf_insertWithSlice hmem _ _ _ _ _, maxSlot', index, hmeta',
        Nat.le_trans hle hraised⟩
  · by_cases hslot : slot' = slot
    · subst hslot
      simp only [StatusCache.insertWithSlice, Function.update_self, Option.some.injEq] at h
      subst h
      apply AssocList.nodup_keys_alter
      cases hdelta : s.slotDeltas slot' with
      | none => exact List.nodup_nil
      | some statuses => exact hinv.blockhashes _ _ hdelta
    · simp only [StatusCache.insertWithSlice, Function.update_of_ne hslot] at h
      exact hinv.blockhashes _ _ h
  · by_cases hslot : slot' = slot
    · subst hslot
      simp only [StatusCache.insertWithSlice, Function.update_self, Option.some.injEq] at h
      subst h
      intro entry hentry
      obtain ⟨bh, keyIndex', keyList⟩ := entry
      rcases AssocList.mem_alter hentry with ⟨rfl, hvalue⟩ | hold
      · -- the blockhash's entry, with the fresh slice last
        rw [Prod.mk.injEq] at hvalue
        refine ⟨by simp [hvalue.2], ?_⟩
        rw [hvalue.2, List.map_append, List.map_singleton]
        cases hdelta : s.slotDeltas slot' with
        | none => simp
        | some statuses =>
          simp only [Option.getD_some]
          cases hget : AssocList.get? bh statuses with
          | none => simp
          | some hashEntry =>
            simp only [Option.getD_some]
            refine List.nodup_append.mpr ⟨?_, List.nodup_singleton _, ?_⟩
            · exact (hinv.keySlices _ _ hdelta _ (AssocList.mem_of_get? hget)).2
            · intro a ha b hb
              rw [List.mem_singleton] at hb
              subst hb
              rintro rfl
              exact hfresh.not_mem hdelta hget ha
      · cases hdelta : s.slotDeltas slot' with
        | none => simp [hdelta] at hold
        | some statuses =>
          rw [hdelta, Option.getD_some] at hold
          exact hinv.keySlices _ _ hdelta _ hold
    · simp only [StatusCache.insertWithSlice, Function.update_of_ne hslot] at h
      exact hinv.keySlices _ _ h

/-! ## Clearing a slot -/

/-- `keyMap'` keeps every entry of `keyMap` off `slot`, and adds none. -/
structure KeyMapShrinks (slot : Nat) (keyMap keyMap' : KeyMap T) : Prop where
  keep : ∀ keySlice e, e ∈ (AssocList.get? keySlice keyMap).getD [] → e.1 ≠ slot →
    e ∈ (AssocList.get? keySlice keyMap').getD []
  sub : ∀ keySlice e, e ∈ (AssocList.get? keySlice keyMap').getD [] →
    e ∈ (AssocList.get? keySlice keyMap).getD []

theorem KeyMapShrinks.refl (slot : Nat) (keyMap : KeyMap T) : KeyMapShrinks slot keyMap keyMap :=
  ⟨fun _ _ h _ => h, fun _ _ h => h⟩

theorem KeyMapShrinks.trans {slot : Nat} {a b c : KeyMap T} (hab : KeyMapShrinks slot a b)
    (hbc : KeyMapShrinks slot b c) : KeyMapShrinks slot a c :=
  ⟨fun k e he hs => hbc.keep k e (hab.keep k e he hs) hs,
    fun k e he => hab.sub k e (hbc.sub k e he)⟩

theorem mem_filter_slot {slot : Nat} {e : Nat × T} {forks : ForkStatus T} :
    e ∈ forks.filter (fun (updatedSlot, _) => updatedSlot != slot) ↔ e ∈ forks ∧ e.1 ≠ slot := by
  obtain ⟨u, r⟩ := e
  simp

theorem get?_clearForks_ne {slot : Nat} {keyMap : KeyMap T} {keySlice other : KeySlice}
    (h : other ≠ keySlice) (forks : ForkStatus T) :
    AssocList.get? other (clearForks slot keyMap keySlice forks) =
      AssocList.get? other keyMap := by
  unfold clearForks
  dsimp only
  split <;> simp [h]

theorem getD_clearForks_self (slot : Nat) (keyMap : KeyMap T) (keySlice : KeySlice)
    (forks : ForkStatus T) :
    (AssocList.get? keySlice (clearForks slot keyMap keySlice forks)).getD [] =
      forks.filter fun (updatedSlot, _) => updatedSlot != slot := by
  unfold clearForks
  dsimp only
  split
  · rename_i hempty
    rw [AssocList.get?_erase_self, Option.getD_none]
    exact (List.isEmpty_iff.mp hempty).symm
  · simp

/-- One key slice of the inner loop. -/
theorem keyMapShrinks_clearForks {slot : Nat} {keyMap : KeyMap T} {keySlice : KeySlice}
    {forks : ForkStatus T} (hget : AssocList.get? keySlice keyMap = some forks) :
    KeyMapShrinks slot keyMap (clearForks slot keyMap keySlice forks) := by
  constructor
  · intro k e he hslot
    by_cases hk : k = keySlice
    · subst hk
      rw [getD_clearForks_self, mem_filter_slot]
      rw [hget, Option.getD_some] at he
      exact ⟨he, hslot⟩
    · rwa [get?_clearForks_ne hk]
  · intro k e he
    by_cases hk : k = keySlice
    · subst hk
      rw [getD_clearForks_self, mem_filter_slot] at he
      rw [hget, Option.getD_some]
      exact he.1
    · rwa [get?_clearForks_ne hk] at he

/-- The inner loop does not panic when the key slices are distinct and each has its entry, and
it takes off entries at the slot only. -/
theorem clearKeyList_spec (slot : Nat) : ∀ (keyList : List (KeySlice × T)) (keyMap : KeyMap T),
    (keyList.map Prod.fst).Nodup → (∀ p ∈ keyList, (AssocList.get? p.1 keyMap).isSome) →
    ∃ keyMap', clearKeyList slot keyMap keyList = some keyMap' ∧ KeyMapShrinks slot keyMap keyMap'
  | [], keyMap, _, _ => ⟨keyMap, rfl, KeyMapShrinks.refl slot keyMap⟩
  | (keySlice, res) :: keyList, keyMap, hnodup, hpresent => by
    obtain ⟨forks, hforks⟩ :=
      Option.isSome_iff_exists.mp (hpresent (keySlice, res) List.mem_cons_self)
    rw [List.map_cons, List.nodup_cons] at hnodup
    -- the later key slices are untouched by this one
    have hrest : ∀ p ∈ keyList,
        (AssocList.get? p.1 (clearForks slot keyMap keySlice forks)).isSome := by
      intro p hp
      have hne : p.1 ≠ keySlice := by
        intro h
        apply hnodup.1
        rw [← h]
        exact List.mem_map.mpr ⟨p, hp, rfl⟩
      rw [get?_clearForks_ne hne]
      exact hpresent p (List.mem_cons_of_mem _ hp)
    obtain ⟨keyMap', hkeyMap', hshrinks⟩ := clearKeyList_spec slot keyList _ hnodup.2 hrest
    refine ⟨keyMap', ?_, (keyMapShrinks_clearForks hforks).trans hshrinks⟩
    simp only [clearKeyList, hforks]
    exact hkeyMap'

/-- `cache'` keeps every entry of `cache` off `slot`, adds none, and changes no blockhash's highest
slot or key index. -/
structure CacheShrinks (slot : Nat) (cache cache' : Hash → Option (Nat × Nat × KeyMap T)) :
    Prop where
  keep : ∀ blockhash keySlice e, e ∈ forksOf cache blockhash keySlice → e.1 ≠ slot →
    e ∈ forksOf cache' blockhash keySlice
  sub : ∀ blockhash keySlice e, e ∈ forksOf cache' blockhash keySlice →
    e ∈ forksOf cache blockhash keySlice
  sameMeta : ∀ blockhash m, metaOf cache' blockhash = some m → metaOf cache blockhash = some m

theorem CacheShrinks.refl (slot : Nat) (cache : Hash → Option (Nat × Nat × KeyMap T)) :
    CacheShrinks slot cache cache :=
  ⟨fun _ _ _ h _ => h, fun _ _ _ h => h, fun _ _ h => h⟩

theorem CacheShrinks.trans {slot : Nat} {a b c : Hash → Option (Nat × Nat × KeyMap T)}
    (hab : CacheShrinks slot a b) (hbc : CacheShrinks slot b c) : CacheShrinks slot a c :=
  ⟨fun bh k e he hs => hbc.keep bh k e (hab.keep bh k e he hs) hs,
    fun bh k e he => hab.sub bh k e (hbc.sub bh k e he),
    fun bh m h => hab.sameMeta bh m (hbc.sameMeta bh m h)⟩

theorem metaOf_of_mem_forksOf {cache : Hash → Option (Nat × Nat × KeyMap T)} {blockhash : Hash}
    {keySlice : KeySlice} {e : Nat × T} (he : e ∈ forksOf cache blockhash keySlice) :
    ∃ m, metaOf cache blockhash = some m := by
  unfold forksOf at he
  unfold metaOf
  split at he
  · rename_i entry hentry
    exact ⟨_, by rw [hentry]; rfl⟩
  · cases he

/-- An entry off the slot stays, and with it its blockhash's highest slot and key index. -/
theorem CacheShrinks.keep_meta {slot : Nat} {cache cache' : Hash → Option (Nat × Nat × KeyMap T)}
    (hshrinks : CacheShrinks slot cache cache') {blockhash : Hash} {keySlice : KeySlice}
    {e : Nat × T} (hmem : e ∈ forksOf cache blockhash keySlice) (hslot : e.1 ≠ slot)
    {m : Nat × Nat} (hmeta : metaOf cache blockhash = some m) :
    e ∈ forksOf cache' blockhash keySlice ∧ metaOf cache' blockhash = some m := by
  have hmem' := hshrinks.keep _ _ _ hmem hslot
  obtain ⟨m', hm'⟩ := metaOf_of_mem_forksOf hmem'
  have hsame := hshrinks.sameMeta _ _ hm'
  rw [hmeta, Option.some.injEq] at hsame
  exact ⟨hmem', hsame ▸ hm'⟩

/-- One blockhash of the outer loop: its key map cleared, and the blockhash gone with an empty
one. -/
theorem cacheShrinks_update {slot : Nat} {cache : Hash → Option (Nat × Nat × KeyMap T)}
    {blockhash : Hash} {maxSlot keyIndex : Nat} {keyMap keyMap' : KeyMap T}
    (hcache : cache blockhash = some (maxSlot, keyIndex, keyMap))
    (hshrinks : KeyMapShrinks slot keyMap keyMap') :
    CacheShrinks slot cache (Function.update cache blockhash
      (if keyMap'.isEmpty then none else some (maxSlot, keyIndex, keyMap'))) := by
  -- the blockhash's forks are those of the cleared key map, also when it goes
  have hforks : ∀ keySlice, forksOf (Function.update cache blockhash
      (if keyMap'.isEmpty then none else some (maxSlot, keyIndex, keyMap'))) blockhash keySlice =
      (AssocList.get? keySlice keyMap').getD [] := by
    intro keySlice
    rw [forksOf_update_self]
    split
    · rename_i hentry
      split at hentry
      · cases hentry
      · cases hentry
        rfl
    · rename_i hentry
      split at hentry
      · rename_i hempty
        rw [AssocList.isEmpty_iff.mp hempty keySlice]
        rfl
      · cases hentry
  have hold : ∀ keySlice, forksOf cache blockhash keySlice =
      (AssocList.get? keySlice keyMap).getD [] := by
    intro keySlice
    simp [forksOf, hcache]
  constructor
  · intro bh k e he hslot
    by_cases hbh : bh = blockhash
    · subst hbh
      rw [hforks]
      rw [hold] at he
      exact hshrinks.keep k e he hslot
    · rwa [forksOf_update_ne hbh]
  · intro bh k e he
    by_cases hbh : bh = blockhash
    · subst hbh
      rw [hforks] at he
      rw [hold]
      exact hshrinks.sub k e he
    · rwa [forksOf_update_ne hbh] at he
  · intro bh m hm
    by_cases hbh : bh = blockhash
    · subst hbh
      simp only [metaOf, Function.update_self] at hm
      split at hm
      · cases hm
      · simp only [Option.map_some, Option.some.injEq] at hm
        simp [metaOf, hcache, hm]
    · simpa [metaOf, Function.update_of_ne hbh] using hm

/-- The outer loop does not panic when the blockhashes are distinct and each of their key slices
has its entry at the slot, and it takes off entries at the slot only. -/
theorem clearBlockhashes_spec (slot : Nat) : ∀ (statuses : Status T)
    (cache : Hash → Option (Nat × Nat × KeyMap T)), (statuses.map Prod.fst).Nodup →
    (∀ entry ∈ statuses, entry.2.2 ≠ [] ∧ (entry.2.2.map Prod.fst).Nodup ∧
      ∀ p ∈ entry.2.2, (slot, p.2) ∈ forksOf cache entry.1 p.1) →
    ∃ cache', clearBlockhashes slot cache statuses = some cache' ∧
      CacheShrinks slot cache cache'
  | [], cache, _, _ => ⟨cache, rfl, CacheShrinks.refl slot cache⟩
  | (blockhash, keyIndex, keyList) :: statuses, cache, hnodup, hentries => by
    obtain ⟨hnonempty, hslices, hpresent⟩ := hentries _ List.mem_cons_self
    rw [List.map_cons, List.nodup_cons] at hnodup
    -- the blockhash is in the index, since a key slice of it is
    obtain ⟨⟨keySlice, res⟩, hfirst⟩ := List.exists_mem_of_ne_nil _ hnonempty
    have hfirstForks := hpresent _ hfirst
    unfold forksOf at hfirstForks
    split at hfirstForks
    · rename_i maxSlot index keyMap hcache
      have hkeys : ∀ p ∈ keyList, (AssocList.get? p.1 keyMap).isSome := by
        intro p hp
        have := hpresent p hp
        simp only [forksOf, hcache] at this
        cases hget : AssocList.get? p.1 keyMap with
        | none => simp [hget] at this
        | some forks => rfl
      obtain ⟨keyMap', hkeyMap', hkeyShrinks⟩ := clearKeyList_spec slot keyList keyMap hslices hkeys
      have hstep := cacheShrinks_update hcache hkeyShrinks
      -- the later blockhashes are untouched by this one
      have hrest : ∀ entry ∈ statuses, entry.2.2 ≠ [] ∧ (entry.2.2.map Prod.fst).Nodup ∧
          ∀ p ∈ entry.2.2, (slot, p.2) ∈ forksOf (Function.update cache blockhash
            (if keyMap'.isEmpty then none else some (maxSlot, index, keyMap'))) entry.1 p.1 := by
        intro entry hentry
        have hne : entry.1 ≠ blockhash := by
          intro h
          apply hnodup.1
          rw [← h]
          exact List.mem_map.mpr ⟨entry, hentry, rfl⟩
        obtain ⟨h₁, h₂, h₃⟩ := hentries entry (List.mem_cons_of_mem _ hentry)
        refine ⟨h₁, h₂, fun p hp => ?_⟩
        rw [forksOf_update_ne hne]
        exact h₃ p hp
      obtain ⟨cache', hcache', hshrinks⟩ := clearBlockhashes_spec slot statuses _ hnodup.2 hrest
      refine ⟨cache', ?_, hstep.trans hshrinks⟩
      simp only [clearBlockhashes, hcache, hkeyMap', Option.bind_some]
      exact hcache'
    · cases hfirstForks

/-- `clear_slot_entries` does not panic on a consistent cache: it drops the slot's delta and
takes off the index the entries at the slot only. -/
theorem clearSlotEntries_spec {s : StatusCache T} (hinv : s.Consistent) (slot : Nat) :
    ∃ s', s.clearSlotEntries slot = some s' ∧ s'.roots = s.roots ∧
      s'.slotDeltas = Function.update s.slotDeltas slot none ∧ CacheShrinks slot s.cache s'.cache := by
  cases hdelta : s.slotDeltas slot with
  | none =>
    exact ⟨{ s with slotDeltas := Function.update s.slotDeltas slot none },
      by simp only [clearSlotEntries, hdelta], rfl, rfl, CacheShrinks.refl _ _⟩
  | some statuses =>
    have hentries : ∀ entry ∈ statuses, entry.2.2 ≠ [] ∧ (entry.2.2.map Prod.fst).Nodup ∧
        ∀ p ∈ entry.2.2, (slot, p.2) ∈ forksOf s.cache entry.1 p.1 := by
      intro entry hentry
      obtain ⟨h₁, h₂⟩ := hinv.keySlices slot statuses hdelta entry hentry
      refine ⟨h₁, h₂, fun p hp => ?_⟩
      exact (hinv.recorded slot entry.1 p.1 p.2
        ⟨statuses, hdelta, entry.2.1, entry.2.2, hentry, hp⟩).1
    obtain ⟨cache', hcache', hshrinks⟩ :=
      clearBlockhashes_spec slot statuses s.cache (hinv.blockhashes slot statuses hdelta) hentries
    exact ⟨{ s with cache := cache', slotDeltas := Function.update s.slotDeltas slot none },
      by simp only [clearSlotEntries, hdelta, hcache', Option.map_some], rfl, rfl, hshrinks⟩

theorem Consistent.clearSlotEntries {s s' : StatusCache T} (hinv : s.Consistent) {slot : Nat}
    (hs' : s.clearSlotEntries slot = some s') : s'.Consistent := by
  obtain ⟨s'', hs'', -, hdeltas, hshrinks⟩ := clearSlotEntries_spec hinv slot
  rw [hs'] at hs''
  cases hs''
  -- what is left of the deltas was recorded before, off the slot
  have hold : ∀ slot' statuses, s'.slotDeltas slot' = some statuses →
      slot' ≠ slot ∧ s.slotDeltas slot' = some statuses := by
    intro slot' statuses h
    rw [hdeltas] at h
    by_cases hslot : slot' = slot
    · subst hslot
      simp at h
    · rw [Function.update_of_ne hslot] at h
      exact ⟨hslot, h⟩
  refine ⟨fun slot' blockhash keySlice res hrec => ?_, fun slot' statuses h => ?_,
    fun slot' statuses h => ?_⟩
  · obtain ⟨statuses, hstatuses, rest⟩ := hrec
    obtain ⟨hslot, hstatuses⟩ := hold slot' statuses hstatuses
    obtain ⟨hmem, maxSlot, index, hmeta, hle⟩ := hinv.recorded _ _ _ _ ⟨statuses, hstatuses, rest⟩
    obtain ⟨hmem', hmeta'⟩ := hshrinks.keep_meta hmem hslot hmeta
    exact ⟨hmem', maxSlot, index, hmeta', hle⟩
  · exact hinv.blockhashes _ _ (hold slot' statuses h).2
  · exact hinv.keySlices _ _ (hold slot' statuses h).2

/-! ## Roots -/

/-- The root that `purge_roots` removes, if any: the smallest, past `MAX_CACHE_ENTRIES` roots. -/
def purgedRoot (s : StatusCache T) : Option Nat :=
  if MAX_CACHE_ENTRIES < s.roots.length then s.roots.min? else none

section Purge

variable {s : StatusCache T}

theorem purgeRoots_of_purgedRoot_eq_none (h : s.purgedRoot = none) : s.purgeRoots = s := by
  unfold purgeRoots
  unfold purgedRoot at h
  split
  · rename_i hlen
    rw [if_pos hlen] at h
    rw [h]
  · rfl

theorem cache_purgeRoots {min : Nat} (h : s.purgedRoot = some min) (blockhash : Hash) :
    s.purgeRoots.cache blockhash =
      (s.cache blockhash).filter fun (fork, _, _) => min < fork := by
  unfold purgedRoot at h
  split at h
  · rename_i hlen
    simp [purgeRoots, hlen, h]
  · cases h

theorem slotDeltas_purgeRoots {min : Nat} (h : s.purgedRoot = some min) (slot : Nat) :
    s.purgeRoots.slotDeltas slot = if min < slot then s.slotDeltas slot else none := by
  unfold purgedRoot at h
  split at h
  · rename_i hlen
    simp [purgeRoots, hlen, h]
  · cases h

/-- A blockhash seen after the purged root outlives the purge. -/
theorem cache_purgeRoots_of_lt {min : Nat} (h : s.purgedRoot = some min) {blockhash : Hash}
    {maxSlot index : Nat} (hmeta : metaOf s.cache blockhash = some (maxSlot, index))
    (hlt : min < maxSlot) : s.purgeRoots.cache blockhash = s.cache blockhash := by
  rw [cache_purgeRoots h]
  cases hcache : s.cache blockhash with
  | none => simp [metaOf, hcache] at hmeta
  | some entry =>
    simp only [metaOf, hcache, Option.map_some, Option.some.injEq, Prod.mk.injEq] at hmeta
    simp [hmeta.1, hlt]

/-- A purge only removes blockhashes. -/
theorem cache_purgeRoots_eq_some {blockhash : Hash} {entry : Nat × Nat × KeyMap T}
    (h : s.purgeRoots.cache blockhash = some entry) : s.cache blockhash = some entry := by
  cases hp : s.purgedRoot with
  | none => rwa [purgeRoots_of_purgedRoot_eq_none hp] at h
  | some min =>
    rw [cache_purgeRoots hp] at h
    exact Option.eq_some_of_filter_eq_some h

theorem recorded_purgeRoots {slot : Nat} {blockhash : Hash} {keySlice : KeySlice} {res : T}
    (h : s.purgeRoots.Recorded slot blockhash keySlice res) :
    s.Recorded slot blockhash keySlice res ∧ ∀ min, s.purgedRoot = some min → min < slot := by
  obtain ⟨statuses, hstatuses, rest⟩ := h
  cases hp : s.purgedRoot with
  | none =>
    rw [purgeRoots_of_purgedRoot_eq_none hp] at hstatuses
    exact ⟨⟨statuses, hstatuses, rest⟩, fun _ h => by cases h⟩
  | some min =>
    rw [slotDeltas_purgeRoots hp] at hstatuses
    split at hstatuses
    · rename_i hlt
      exact ⟨⟨statuses, hstatuses, rest⟩, fun _ h => by cases h; exact hlt⟩
    · cases hstatuses

theorem Consistent.purgeRoots (hinv : s.Consistent) : s.purgeRoots.Consistent := by
  refine ⟨fun slot blockhash keySlice res hrec => ?_, fun slot statuses h => ?_,
    fun slot statuses h => ?_⟩
  · obtain ⟨hrec, hlt⟩ := recorded_purgeRoots hrec
    obtain ⟨hmem, maxSlot, index, hmeta, hle⟩ := hinv.recorded _ _ _ _ hrec
    -- the blockhash was seen at the slot, after the purged root
    have hcache : s.purgeRoots.cache blockhash = s.cache blockhash := by
      cases hp : s.purgedRoot with
      | none => rw [purgeRoots_of_purgedRoot_eq_none hp]
      | some min => exact cache_purgeRoots_of_lt hp hmeta (Nat.lt_of_lt_of_le (hlt min hp) hle)
    refine ⟨?_, maxSlot, index, ?_, hle⟩
    · simpa [forksOf, hcache] using hmem
    · simpa [metaOf, hcache] using hmeta
  · cases hp : s.purgedRoot with
    | none =>
      rw [purgeRoots_of_purgedRoot_eq_none hp] at h
      exact hinv.blockhashes _ _ h
    | some min =>
      rw [slotDeltas_purgeRoots hp] at h
      split at h
      · exact hinv.blockhashes _ _ h
      · cases h
  · cases hp : s.purgedRoot with
    | none =>
      rw [purgeRoots_of_purgedRoot_eq_none hp] at h
      exact hinv.keySlices _ _ h
    | some min =>
      rw [slotDeltas_purgeRoots hp] at h
      split at h
      · exact hinv.keySlices _ _ h
      · cases h

theorem Consistent.setRoots (hinv : s.Consistent) (roots : List Nat) :
    ({ s with roots } : StatusCache T).Consistent :=
  ⟨hinv.recorded, hinv.blockhashes, hinv.keySlices⟩

theorem Consistent.addRoot (hinv : s.Consistent) (fork : Nat) : (s.addRoot fork).Consistent :=
  (hinv.setRoots _).purgeRoots

end Purge

/-! ## `insert` -/

/-- The key index `insert` slices the key at: the blockhash's, or the random draw for a new
blockhash, within the key. -/
def insertKeyIndex (s : StatusCache T) (blockhash : Hash) (key : List UInt8)
    (randomKeyIndex : Nat) : Nat :=
  min (((s.cache blockhash).map (·.2.1)).getD randomKeyIndex) (maxKeyIndex key)

/-- The cached slice of a key at an index. -/
def cachedSlice (key : List UInt8) (index : Nat) : KeySlice :=
  (key.drop index).take CACHED_KEY_SIZE

theorem keySliceAt_of_le {key : List UInt8} {index : Nat} (hkey : CACHED_KEY_SIZE ≤ key.length)
    (hindex : index ≤ maxKeyIndex key) : keySliceAt key index = some (cachedSlice key index) := by
  unfold keySliceAt maxKeyIndex at *
  unfold CACHED_KEY_SIZE at *
  rw [if_pos (by omega)]
  rfl

/-- `insert`'s first step: the blockhash's entry, made if new, with its highest slot raised. -/
def touch (s : StatusCache T) (blockhash : Hash) (slot randomKeyIndex : Nat) : StatusCache T :=
  let entry := (s.cache blockhash).getD (slot, randomKeyIndex, [])
  { s with
    cache := Function.update s.cache blockhash (some (max slot entry.1, entry.2.1, entry.2.2)) }

theorem insert_eq (s : StatusCache T) (blockhash : Hash) (key : List UInt8) (slot : Nat) (res : T)
    (randomKeyIndex : Nat) (hkey : CACHED_KEY_SIZE ≤ key.length) :
    s.insert blockhash key slot res randomKeyIndex =
      some ((s.touch blockhash slot randomKeyIndex).insertWithSlice blockhash slot
        (s.insertKeyIndex blockhash key randomKeyIndex)
        (cachedSlice key (s.insertKeyIndex blockhash key randomKeyIndex)) res) := by
  have hindex : ((s.cache blockhash).getD (slot, randomKeyIndex, [])).2.1 =
      ((s.cache blockhash).map (·.2.1)).getD randomKeyIndex := by
    cases s.cache blockhash <;> rfl
  have hkeyIndex : min ((s.cache blockhash).getD (slot, randomKeyIndex, [])).2.1 (maxKeyIndex key) =
      s.insertKeyIndex blockhash key randomKeyIndex := by
    rw [insertKeyIndex, hindex]
  have hle : s.insertKeyIndex blockhash key randomKeyIndex ≤ maxKeyIndex key := Nat.min_le_right _ _
  unfold insert
  simp only [hkeyIndex]
  rw [keySliceAt_of_le hkey hle]
  rfl

theorem forksOf_touch (s : StatusCache T) (blockhash : Hash) (slot randomKeyIndex : Nat)
    (other : Hash) (keySlice : KeySlice) :
    forksOf (s.touch blockhash slot randomKeyIndex).cache other keySlice =
      forksOf s.cache other keySlice := by
  by_cases h : other = blockhash
  · subst h
    cases hc : s.cache other <;> simp [touch, forksOf, hc]
  · simp [touch, forksOf_update_ne h]

theorem metaOf_touch (s : StatusCache T) (blockhash : Hash) (slot randomKeyIndex : Nat)
    (other : Hash) :
    metaOf (s.touch blockhash slot randomKeyIndex).cache other =
      if other = blockhash then
        some (match metaOf s.cache blockhash with
          | some (maxSlot, index) => (max slot maxSlot, index)
          | none => (slot, randomKeyIndex))
      else metaOf s.cache other := by
  by_cases h : other = blockhash
  · subst h
    cases hc : s.cache other <;> simp [touch, metaOf, hc]
  · simp [touch, metaOf, h]

theorem Consistent.touch {s : StatusCache T} (hinv : s.Consistent) (blockhash : Hash)
    (slot randomKeyIndex : Nat) : (s.touch blockhash slot randomKeyIndex).Consistent := by
  refine ⟨fun slot' bh keySlice res hrec => ?_, hinv.blockhashes, hinv.keySlices⟩
  obtain ⟨hmem, maxSlot, index, hmeta, hle⟩ := hinv.recorded _ _ _ _ hrec
  obtain ⟨maxSlot', hmeta', hraised⟩ := metaOf_raised (metaOf_touch s blockhash slot randomKeyIndex) hmeta
  exact ⟨by rwa [forksOf_touch], maxSlot', index, hmeta', Nat.le_trans hle hraised⟩

theorem Consistent.insert {s : StatusCache T} (hinv : s.Consistent) {blockhash : Hash}
    {key : List UInt8} {slot : Nat} {randomKeyIndex : Nat} (hkey : CACHED_KEY_SIZE ≤ key.length)
    (hfresh : s.Fresh slot blockhash
      (cachedSlice key (s.insertKeyIndex blockhash key randomKeyIndex))) (res : T) :
    ∃ s', s.insert blockhash key slot res randomKeyIndex = some s' ∧ s'.Consistent :=
  ⟨_, insert_eq s blockhash key slot res randomKeyIndex hkey,
    (hinv.touch blockhash slot randomKeyIndex).insertWithSlice hfresh res⟩

/-! ## `append` -/

/-- One step of `append`'s replay: a key slice recorded, or a slot rooted. -/
inductive ReplayStep (T : Type) where
  | record (txHash : Hash) (slot keyIndex : Nat) (keySlice : KeySlice) (res : T)
  | root (slot : Nat)

/-- What a replay step does. -/
def ReplayStep.apply (s : StatusCache T) : ReplayStep T → StatusCache T
  | .record txHash slot keyIndex keySlice res => s.insertWithSlice txHash slot keyIndex keySlice res
  | .root slot => s.addRoot slot

/-- The slot, blockhash and key slice a replay step records. -/
def ReplayStep.key? : ReplayStep T → Option (Nat × Hash × KeySlice)
  | .record txHash slot _ keySlice _ => some (slot, txHash, keySlice)
  | .root _ => none

/-- The steps of `append`, in order. -/
def replaySteps : List (Nat × Bool × Status T) → List (ReplayStep T)
  | [] => []
  | (slot, isRoot, statuses) :: slotDeltas =>
    (statuses.flatMap fun (txHash, keyIndex, keyList) =>
        keyList.map fun (keySlice, res) => ReplayStep.record txHash slot keyIndex keySlice res) ++
      (if isRoot then [ReplayStep.root slot] else []) ++ replaySteps slotDeltas

theorem append_eq_foldl (s : StatusCache T) (slotDeltas : List (Nat × Bool × Status T)) :
    s.append slotDeltas = (replaySteps slotDeltas).foldl ReplayStep.apply s := by
  induction slotDeltas generalizing s with
  | nil => rfl
  | cons slotDelta slotDeltas ih =>
    obtain ⟨slot, isRoot, statuses⟩ := slotDelta
    simp only [append, replaySteps, List.foldl_append, List.foldl_flatMap, List.foldl_map]
    rw [ih]
    cases isRoot <;> rfl

/-- Keys none of which is recorded yet, none of them twice. -/
def FreshKeys (s : StatusCache T) (keys : List (Nat × Hash × KeySlice)) : Prop :=
  keys.Nodup ∧ ∀ key ∈ keys, s.Fresh key.1 key.2.1 key.2.2

theorem Fresh.insertWithSlice {s : StatusCache T} {slot : Nat} {blockhash : Hash}
    {keySlice : KeySlice} (hfresh : s.Fresh slot blockhash keySlice) {txHash : Hash}
    {slot' keyIndex : Nat} {keySlice' : KeySlice}
    (hne : (slot, blockhash, keySlice) ≠ (slot', txHash, keySlice')) (res : T) :
    (s.insertWithSlice txHash slot' keyIndex keySlice' res).Fresh slot blockhash keySlice := by
  intro res' hrec
  rcases recorded_insertWithSlice s txHash slot' keyIndex keySlice' res hrec with
    ⟨rfl, rfl, rfl, -⟩ | hold
  · exact hne rfl
  · exact hfresh res' hold

theorem Fresh.addRoot {s : StatusCache T} {slot : Nat} {blockhash : Hash} {keySlice : KeySlice}
    (hfresh : s.Fresh slot blockhash keySlice) (fork : Nat) :
    (s.addRoot fork).Fresh slot blockhash keySlice :=
  fun res hrec => hfresh res (recorded_purgeRoots hrec).1

/-- The replay keeps the invariant while it records fresh keys. -/
theorem Consistent.replay : ∀ (steps : List (ReplayStep T)) (s : StatusCache T), s.Consistent →
    FreshKeys s (steps.filterMap ReplayStep.key?) → (steps.foldl ReplayStep.apply s).Consistent
  | [], _, hinv, _ => hinv
  | .record txHash slot keyIndex keySlice res :: steps, s, hinv, ⟨hnodup, hall⟩ => by
    simp only [List.filterMap_cons, ReplayStep.key?, List.nodup_cons, List.mem_cons,
      forall_eq_or_imp] at hnodup hall
    refine Consistent.replay steps _ (hinv.insertWithSlice hall.1 res) ⟨hnodup.2, ?_⟩
    intro key hkey
    exact (hall.2 key hkey).insertWithSlice (fun h => hnodup.1 (h ▸ hkey)) res
  | .root slot :: steps, s, hinv, ⟨hnodup, hall⟩ => by
    simp only [List.filterMap_cons, ReplayStep.key?] at hnodup hall
    exact Consistent.replay steps _ (hinv.addRoot slot)
      ⟨hnodup, fun key hkey => (hall key hkey).addRoot slot⟩

theorem Consistent.append {s : StatusCache T} (hinv : s.Consistent)
    {slotDeltas : List (Nat × Bool × Status T)}
    (hfresh : FreshKeys s ((replaySteps slotDeltas).filterMap ReplayStep.key?)) :
    (s.append slotDeltas).Consistent := by
  rw [append_eq_foldl]
  exact Consistent.replay _ s hinv hfresh

end StatusCache

/-! ## Runs -/

/-- An operation on the status cache. -/
inductive Op (T : Type) where
  /-- `insert(transaction_blockhash, key, slot, res)`, with the key index a new blockhash draws. -/
  | insert (transactionBlockhash : Hash) (key : List UInt8) (slot : Nat) (res : T)
      (randomKeyIndex : Nat)
  | addRoot (fork : Nat)
  | clearSlotEntries (slot : Nat)
  | append (slotDeltas : List (Nat × Bool × Status T))

open StatusCache

/-- What an operation does; `none` is a panic. -/
def Op.run : Op T → StatusCache T → Option (StatusCache T)
  | .insert transactionBlockhash key slot res randomKeyIndex, s =>
    s.insert transactionBlockhash key slot res randomKeyIndex
  | .addRoot fork, s => some (s.addRoot fork)
  | .clearSlotEntries slot, s => s.clearSlotEntries slot
  | .append slotDeltas, s => some (s.append slotDeltas)

/-- The operations of a run: keys of at least `CACHED_KEY_SIZE` bytes, and no (slot, blockhash,
key slice) recorded twice. -/
def Op.Valid (s : StatusCache T) : Op T → Prop
  | .insert transactionBlockhash key slot _ randomKeyIndex =>
    CACHED_KEY_SIZE ≤ key.length ∧ s.Fresh slot transactionBlockhash
      (cachedSlice key (s.insertKeyIndex transactionBlockhash key randomKeyIndex))
  | .append slotDeltas => FreshKeys s ((replaySteps slotDeltas).filterMap ReplayStep.key?)
  | .addRoot _ => True
  | .clearSlotEntries _ => True

/-- A replay step's record: blockhash, key slice, slot and result. -/
def ReplayStep.written? : ReplayStep T → Option (Hash × KeySlice × Nat × T)
  | .record txHash slot _ keySlice res => some (txHash, keySlice, slot, res)
  | .root _ => none

/-- What an operation records: blockhash, key slice, slot and result. -/
def Op.written (s : StatusCache T) : Op T → List (Hash × KeySlice × Nat × T)
  | .insert transactionBlockhash key slot res randomKeyIndex =>
    [(transactionBlockhash,
      cachedSlice key (s.insertKeyIndex transactionBlockhash key randomKeyIndex), slot, res)]
  | .append slotDeltas => (replaySteps slotDeltas).filterMap ReplayStep.written?
  | .addRoot _ => []
  | .clearSlotEntries _ => []

/-- The states, with everything recorded on the way, that runs of valid operations lead to from
`StatusCache::default()`. -/
inductive Reachable : StatusCache T × List (Hash × KeySlice × Nat × T) → Prop
  | default : Reachable (default, [])
  | op {s s' : StatusCache T} {log : List (Hash × KeySlice × Nat × T)} (op : Op T) :
      Reachable (s, log) → op.Valid s → op.run s = some s' → Reachable (s', log ++ op.written s)

theorem Op.consistent {s s' : StatusCache T} (hinv : s.Consistent) {op : Op T}
    (hvalid : op.Valid s) (hrun : op.run s = some s') : s'.Consistent := by
  cases op with
  | insert blockhash key slot res randomKeyIndex =>
    obtain ⟨s'', hs'', hinv'⟩ := hinv.insert hvalid.1 hvalid.2 res
    rw [Op.run, hs''] at hrun
    cases hrun
    exact hinv'
  | addRoot fork =>
    cases hrun
    exact hinv.addRoot fork
  | clearSlotEntries slot => exact hinv.clearSlotEntries hrun
  | append slotDeltas =>
    cases hrun
    exact hinv.append hvalid

theorem Reachable.consistent {x : StatusCache T × List (Hash × KeySlice × Nat × T)}
    (hx : Reachable x) : x.1.Consistent := by
  induction hx with
  | default => exact consistent_default
  | op op _ hvalid hrun ih => exact Op.consistent ih hvalid hrun

/-! ## What `get_status` returns was recorded -/

namespace StatusCache

/-- `get_status` on a blockhash in the index: the first of the forks of the key's cached slice, at
the blockhash's key index, on an ancestor or a root. -/
theorem getStatus_of_cache (s : StatusCache T) {key : List UInt8}
    (hkey : CACHED_KEY_SIZE ≤ key.length) {blockhash : Hash} {maxSlot index : Nat}
    {keyMap : KeyMap T} (hcache : s.cache blockhash = some (maxSlot, index, keyMap))
    (ancestors : Nat → Bool) :
    s.getStatus key blockhash ancestors =
      some ((forksOf s.cache blockhash (cachedSlice key (min index (maxKeyIndex key)))).find?
        fun e => ancestors e.1 || s.roots.contains e.1) := by
  simp only [getStatus, hcache, keySliceAt_of_le hkey (Nat.min_le_right _ _), Option.map_some,
    forksOf]
  cases AssocList.get? (cachedSlice key (min index (maxKeyIndex key))) keyMap <;> rfl

/-- A result `get_status` returns is one of the blockhash's forks of the key's cached slice, on an
ancestor or a root. -/
theorem getStatus_eq_some_some {s : StatusCache T} {key : List UInt8} {blockhash : Hash}
    {ancestors : Nat → Bool} {e : Nat × T}
    (h : s.getStatus key blockhash ancestors = some (some e)) :
    (ancestors e.1 || s.roots.contains e.1) = true ∧ ∃ maxSlot index,
      metaOf s.cache blockhash = some (maxSlot, index) ∧
      e ∈ forksOf s.cache blockhash (cachedSlice key (min index (maxKeyIndex key))) := by
  unfold getStatus at h
  split at h
  · cases h
  · rename_i maxSlot index keyMap hcache
    unfold keySliceAt at h
    split at h
    · simp only [Option.map_some, Option.some.injEq] at h
      split at h
      · rename_i forks hforks
        have hfound := List.find?_some h
        refine ⟨hfound, maxSlot, index, by simp [metaOf, hcache], ?_⟩
        simp only [forksOf, hcache, cachedSlice, hforks, Option.getD_some]
        exact List.mem_of_find?_eq_some h
      · cases h
    · cases h

end StatusCache

/-- Every result the blockhash index holds is in the log, under its blockhash and key slice. -/
def Logged (s : StatusCache T) (log : List (Hash × KeySlice × Nat × T)) : Prop :=
  ∀ blockhash keySlice e, e ∈ forksOf s.cache blockhash keySlice →
    (blockhash, keySlice, e.1, e.2) ∈ log

section Logged

variable {s : StatusCache T} {log : List (Hash × KeySlice × Nat × T)}

theorem Logged.mono (hlog : Logged s log) (extra : List (Hash × KeySlice × Nat × T)) :
    Logged s (log ++ extra) :=
  fun blockhash keySlice e he => List.mem_append_left _ (hlog blockhash keySlice e he)

theorem Logged.insertWithSlice (hlog : Logged s log) (blockhash : Hash) (slot keyIndex : Nat)
    (keySlice : KeySlice) (res : T) :
    Logged (s.insertWithSlice blockhash slot keyIndex keySlice res)
      (log ++ [(blockhash, keySlice, slot, res)]) := by
  intro other otherSlice e he
  rw [forksOf_insertWithSlice] at he
  split at he
  · rename_i h
    obtain ⟨rfl, rfl⟩ := h
    rcases List.mem_append.mp he with he | he
    · exact List.mem_append_left _ (hlog _ _ e he)
    · rw [List.mem_singleton] at he
      subst he
      exact List.mem_append_right _ List.mem_cons_self
  · exact List.mem_append_left _ (hlog _ _ e he)

/-- A purge only removes blockhashes, so it drops results and adds none. -/
theorem Logged.purgeRoots (hlog : Logged s log) : Logged s.purgeRoots log := by
  intro blockhash keySlice e he
  apply hlog
  unfold forksOf at he ⊢
  split at he
  · rename_i entry hentry
    rw [cache_purgeRoots_eq_some hentry]
    exact he
  · cases he

theorem Logged.addRoot (hlog : Logged s log) (fork : Nat) : Logged (s.addRoot fork) log :=
  Logged.purgeRoots (s := { s with roots := s.roots.insert fork }) hlog

theorem Logged.replay : ∀ (steps : List (ReplayStep T)) (s : StatusCache T)
    (log : List (Hash × KeySlice × Nat × T)), Logged s log →
    Logged (steps.foldl ReplayStep.apply s) (log ++ steps.filterMap ReplayStep.written?)
  | [], s, log, hlog => by simpa using hlog
  | .record txHash slot keyIndex keySlice res :: steps, s, log, hlog => by
    have := Logged.replay steps _ _ (hlog.insertWithSlice txHash slot keyIndex keySlice res)
    simpa [ReplayStep.written?, ReplayStep.apply] using this
  | .root slot :: steps, s, log, hlog => by
    simpa [List.filterMap_cons, ReplayStep.written?, ReplayStep.apply] using
      Logged.replay steps _ _ (hlog.addRoot slot)

end Logged

/-- One valid operation writes to the index only what it logs. -/
theorem Op.logged {s s' : StatusCache T} {log : List (Hash × KeySlice × Nat × T)}
    (hinv : s.Consistent) (hlog : Logged s log) {op : Op T} (hvalid : op.Valid s)
    (hrun : op.run s = some s') : Logged s' (log ++ op.written s) := by
  cases op with
  | insert blockhash key slot res randomKeyIndex =>
    rw [Op.run, insert_eq s blockhash key slot res randomKeyIndex hvalid.1] at hrun
    cases hrun
    intro other keySlice e he
    -- `touch` changes no forks
    have hlog' : Logged (s.touch blockhash slot randomKeyIndex) log :=
      fun other keySlice e he => hlog other keySlice e (by rwa [forksOf_touch] at he)
    exact hlog'.insertWithSlice _ _ _ _ _ other keySlice e he
  | addRoot fork =>
    cases hrun
    simpa [Op.written] using hlog.addRoot fork
  | clearSlotEntries slot =>
    obtain ⟨s'', hs'', -, -, hshrinks⟩ := clearSlotEntries_spec hinv slot
    rw [Op.run, hs''] at hrun
    cases hrun
    rw [Op.written, List.append_nil]
    exact fun blockhash keySlice e he => hlog blockhash keySlice e (hshrinks.sub _ _ _ he)
  | append slotDeltas =>
    cases hrun
    rw [append_eq_foldl]
    exact Logged.replay _ s log hlog

theorem Reachable.logged {x : StatusCache T × List (Hash × KeySlice × Nat × T)}
    (hx : Reachable x) : Logged x.1 x.2 := by
  induction hx with
  | default => intro blockhash keySlice e he; simp [forksOf] at he
  | op op hx hvalid hrun ih => exact Op.logged hx.consistent ih hvalid hrun

/-! ## What stays findable -/

namespace StatusCache

/-- The index holds the result `e` for the key slice of the blockhash, whose key index is `index`
and whose highest slot is at least `e`'s. -/
def Holds (s : StatusCache T) (blockhash : Hash) (keySlice : KeySlice) (index : Nat)
    (e : Nat × T) : Prop :=
  ∃ maxSlot, metaOf s.cache blockhash = some (maxSlot, index) ∧ e.1 ≤ maxSlot ∧
    e ∈ forksOf s.cache blockhash keySlice

section Holds

variable {s : StatusCache T} {blockhash : Hash} {keySlice : KeySlice} {index : Nat} {e : Nat × T}

theorem Holds.of_cache_eq (h : s.Holds blockhash keySlice index e) {s' : StatusCache T}
    (hcache : s'.cache blockhash = s.cache blockhash) : s'.Holds blockhash keySlice index e := by
  unfold Holds metaOf forksOf at *
  rw [hcache]
  exact h

theorem Holds.insertWithSlice (h : s.Holds blockhash keySlice index e) (txHash : Hash)
    (slot keyIndex : Nat) (keySlice' : KeySlice) (res : T) :
    (s.insertWithSlice txHash slot keyIndex keySlice' res).Holds blockhash keySlice index e := by
  obtain ⟨maxSlot, hmeta, hle, hmem⟩ := h
  obtain ⟨maxSlot', hmeta', hraised⟩ :=
    metaOf_raised (metaOf_insertWithSlice s txHash slot keyIndex keySlice' res) hmeta
  exact ⟨maxSlot', hmeta', Nat.le_trans hle hraised,
    mem_forksOf_insertWithSlice hmem txHash slot keyIndex keySlice' res⟩

theorem Holds.touch (h : s.Holds blockhash keySlice index e) (txHash : Hash)
    (slot randomKeyIndex : Nat) : (s.touch txHash slot randomKeyIndex).Holds blockhash keySlice index e := by
  obtain ⟨maxSlot, hmeta, hle, hmem⟩ := h
  obtain ⟨maxSlot', hmeta', hraised⟩ := metaOf_raised (metaOf_touch s txHash slot randomKeyIndex) hmeta
  exact ⟨maxSlot', hmeta', Nat.le_trans hle hraised, by rwa [forksOf_touch]⟩

/-- A purge of a root below the result's slot keeps the blockhash, whose highest slot is above. -/
theorem Holds.purgeRoots (h : s.Holds blockhash keySlice index e)
    (hlt : ∀ root ∈ s.purgedRoot.toList, root < e.1) :
    s.purgeRoots.Holds blockhash keySlice index e := by
  cases hp : s.purgedRoot with
  | none => rwa [purgeRoots_of_purgedRoot_eq_none hp]
  | some root =>
    obtain ⟨maxSlot, hmeta, hle, hmem⟩ := h
    have hroot : root < e.1 := hlt root (by simp [hp])
    exact Holds.of_cache_eq ⟨maxSlot, hmeta, hle, hmem⟩
      (cache_purgeRoots_of_lt hp hmeta (Nat.lt_of_lt_of_le hroot hle))

theorem Holds.clearSlotEntries (hinv : s.Consistent) (h : s.Holds blockhash keySlice index e)
    {slot : Nat} (hslot : slot ≠ e.1) {s' : StatusCache T} (hs' : s.clearSlotEntries slot = some s') :
    s'.Holds blockhash keySlice index e := by
  obtain ⟨s'', hs'', -, -, hshrinks⟩ := clearSlotEntries_spec hinv slot
  rw [hs'] at hs''
  cases hs''
  obtain ⟨maxSlot, hmeta, hle, hmem⟩ := h
  -- the entry is off the cleared slot, so it stays, and the blockhash with it
  obtain ⟨hmem', hmeta'⟩ := hshrinks.keep_meta hmem (Ne.symm hslot) hmeta
  exact ⟨maxSlot, hmeta', hle, hmem'⟩

end Holds

/-- The roots a replay step's purge removes. -/
def ReplayStep.purged (s : StatusCache T) : ReplayStep T → List Nat
  | .record .. => []
  | .root slot => ({ s with roots := s.roots.insert slot } : StatusCache T).purgedRoot.toList

/-- The roots the purges of a replay remove. -/
def replayPurged : List (ReplayStep T) → StatusCache T → List Nat
  | [], _ => []
  | step :: steps, s => step.purged s ++ replayPurged steps (step.apply s)

theorem Holds.replay {blockhash : Hash} {keySlice : KeySlice} {index : Nat} {e : Nat × T} :
    ∀ (steps : List (ReplayStep T)) (s : StatusCache T), s.Holds blockhash keySlice index e →
    (∀ root ∈ replayPurged steps s, root < e.1) →
    (steps.foldl ReplayStep.apply s).Holds blockhash keySlice index e
  | [], _, h, _ => h
  | .record txHash slot keyIndex keySlice' res :: steps, s, h, hlt => by
    refine Holds.replay steps _ (h.insertWithSlice txHash slot keyIndex keySlice' res) ?_
    intro root hroot
    exact hlt root (List.mem_append_right _ hroot)
  | .root slot :: steps, s, h, hlt => by
    refine Holds.replay steps _ (Holds.purgeRoots (s := { s with roots := s.roots.insert slot })
      h fun root hroot => hlt root (List.mem_append_left _ hroot)) ?_
    intro root hroot
    exact hlt root (List.mem_append_right _ hroot)

end StatusCache

/-- The roots the operation's purges remove. -/
def Op.purged (s : StatusCache T) : Op T → List Nat
  | .addRoot fork => ({ s with roots := s.roots.insert fork } : StatusCache T).purgedRoot.toList
  | .append slotDeltas => replayPurged (replaySteps slotDeltas) s
  | .insert .. => []
  | .clearSlotEntries _ => []

/-- The slot the operation clears. -/
def Op.cleared : Op T → Option Nat
  | .clearSlotEntries slot => some slot
  | _ => none

/-- A run of operations from `s` to `s'`, each meeting `P` at the state it starts from. -/
inductive Run (P : StatusCache T → Op T → Prop) :
    StatusCache T → List (Op T) → StatusCache T → Prop
  | nil (s : StatusCache T) : Run P s [] s
  | cons {s s' s'' : StatusCache T} {op : Op T} {ops : List (Op T)} :
      P s op → op.run s = some s' → Run P s' ops s'' → Run P s (op :: ops) s''

/-- An operation after a record at `slot`: valid, not clearing the slot, and purging only roots
below it. -/
def Op.Spares (slot : Nat) (s : StatusCache T) (op : Op T) : Prop :=
  op.Valid s ∧ op.cleared ≠ some slot ∧ ∀ root ∈ op.purged s, root < slot

theorem Op.holds {s s' : StatusCache T} {blockhash : Hash} {keySlice : KeySlice} {index : Nat}
    {e : Nat × T} (hinv : s.Consistent) (h : s.Holds blockhash keySlice index e) {op : Op T}
    (hspares : op.Spares e.1 s) (hrun : op.run s = some s') :
    s'.Holds blockhash keySlice index e := by
  obtain ⟨hvalid, hcleared, hpurged⟩ := hspares
  cases op with
  | insert txHash key slot res randomKeyIndex =>
    rw [Op.run, insert_eq s txHash key slot res randomKeyIndex hvalid.1] at hrun
    cases hrun
    exact (h.touch txHash slot randomKeyIndex).insertWithSlice _ _ _ _ _
  | addRoot fork =>
    cases hrun
    exact Holds.purgeRoots (s := { s with roots := s.roots.insert fork }) h hpurged
  | clearSlotEntries slot =>
    have hslot : slot ≠ e.1 := fun hslot => hcleared (by rw [hslot]; rfl)
    exact h.clearSlotEntries hinv hslot hrun
  | append slotDeltas =>
    cases hrun
    rw [append_eq_foldl]
    exact Holds.replay _ s h hpurged

/-- Over a run that spares the result's slot the index keeps holding the result. -/
theorem Run.holds {blockhash : Hash} {keySlice : KeySlice} {index : Nat} {e : Nat × T}
    {s s' : StatusCache T} {ops : List (Op T)} (hrun : Run (Op.Spares e.1) s ops s')
    (hinv : s.Consistent) (h : s.Holds blockhash keySlice index e) :
    s'.Holds blockhash keySlice index e := by
  induction hrun with
  | nil => exact h
  | cons hspares hstep _ ih =>
    exact ih (Op.consistent hinv hspares.1 hstep) (Op.holds hinv h hspares hstep)

namespace StatusCache

theorem metaOf_touch_self (s : StatusCache T) (blockhash : Hash) (slot randomKeyIndex : Nat) :
    metaOf (s.touch blockhash slot randomKeyIndex).cache blockhash =
      some (max slot (((s.cache blockhash).map (·.1)).getD slot),
        ((s.cache blockhash).map (·.2.1)).getD randomKeyIndex) := by
  cases hc : s.cache blockhash <;> simp [touch, metaOf, hc]

/-- After `insert` the index holds the result for the key's cached slice, at the blockhash's key
index. -/
theorem holds_insert {s s' : StatusCache T} {blockhash : Hash} {key : List UInt8} {slot : Nat}
    {res : T} {randomKeyIndex : Nat} (hkey : CACHED_KEY_SIZE ≤ key.length)
    (hs' : s.insert blockhash key slot res randomKeyIndex = some s') :
    ∃ index, s'.Holds blockhash (cachedSlice key (min index (maxKeyIndex key))) index (slot, res) := by
  rw [insert_eq s blockhash key slot res randomKeyIndex hkey] at hs'
  cases hs'
  refine ⟨((s.cache blockhash).map (·.2.1)).getD randomKeyIndex,
    max slot (max slot (((s.cache blockhash).map (·.1)).getD slot)), ?_, ?_, ?_⟩
  · rw [metaOf_insertWithSlice, if_pos rfl, metaOf_touch_self]
  · exact Nat.le_max_left _ _
  · rw [forksOf_insertWithSlice, if_pos ⟨rfl, rfl⟩]
    exact List.mem_append_right _ List.mem_cons_self

/-- A result the index holds under the key's cached slice is found on every fork that has its slot
as an ancestor or a root. -/
theorem Holds.getStatus {s : StatusCache T} {blockhash : Hash} {key : List UInt8} {index : Nat}
    {e : Nat × T} (h : s.Holds blockhash (cachedSlice key (min index (maxKeyIndex key))) index e)
    (hkey : CACHED_KEY_SIZE ≤ key.length) {ancestors : Nat → Bool}
    (hfork : (ancestors e.1 || s.roots.contains e.1) = true) :
    ∃ e', s.getStatus key blockhash ancestors = some (some e') := by
  obtain ⟨maxSlot, hmeta, -, hmem⟩ := h
  cases hc : s.cache blockhash with
  | none => simp [metaOf, hc] at hmeta
  | some entry =>
    obtain ⟨maxSlot', index', keyMap⟩ := entry
    simp only [metaOf, hc, Option.map_some, Option.some.injEq, Prod.mk.injEq] at hmeta
    obtain ⟨-, rfl⟩ := hmeta
    rw [getStatus_of_cache s hkey hc]
    have hfound : ((forksOf s.cache blockhash (cachedSlice key (min index' (maxKeyIndex key)))).find?
        fun e => ancestors e.1 || s.roots.contains e.1).isSome :=
      List.find?_isSome.mpr ⟨e, hmem, hfork⟩
    obtain ⟨e', he'⟩ := Option.isSome_iff_exists.mp hfound
    exact ⟨e', by rw [he']⟩

end StatusCache

/-! ## Runs -/

/-- Over every run of valid operations from `StatusCache::default()`: a record of a slot's delta
has its entry in the blockhash index, so `clear_slot_entries` never panics; what `get_status`
returns is on an ancestor or a root and was recorded for the blockhash under the key's cached
slice; and a result `insert` records stays found on every fork with its slot as an ancestor or a
root, over every later run of valid operations that does not clear its slot and purges only roots
below it. -/
theorem statusCache_run_sound {s : StatusCache T} {log : List (Hash × KeySlice × Nat × T)}
    (hx : Reachable (s, log)) :
    (∀ slot blockhash keySlice res, s.Recorded slot blockhash keySlice res →
      (slot, res) ∈ forksOf s.cache blockhash keySlice) ∧
    (∀ slot, ∃ s', s.clearSlotEntries slot = some s') ∧
    (∀ key blockhash ancestors slot res,
      s.getStatus key blockhash ancestors = some (some (slot, res)) →
      (ancestors slot || s.roots.contains slot) = true ∧ ∃ maxSlot index,
        metaOf s.cache blockhash = some (maxSlot, index) ∧
        (blockhash, cachedSlice key (min index (maxKeyIndex key)), slot, res) ∈ log) ∧
    ∀ blockhash key slot res randomKeyIndex s₁ ops s₂,
      (Op.insert blockhash key slot res randomKeyIndex).Valid s →
      s.insert blockhash key slot res randomKeyIndex = some s₁ →
      Run (Op.Spares slot) s₁ ops s₂ →
      ∀ ancestors, (ancestors slot || s₂.roots.contains slot) = true →
        ∃ e, s₂.getStatus key blockhash ancestors = some (some e) := by
  have hinv : s.Consistent := hx.consistent
  have hlog : Logged s log := hx.logged
  refine ⟨fun slot blockhash keySlice res hrec => (hinv.recorded _ _ _ _ hrec).1,
    fun slot => ?_, ?_, ?_⟩
  · obtain ⟨s', hs', -⟩ := clearSlotEntries_spec hinv slot
    exact ⟨s', hs'⟩
  · -- soundness: the result is in the index, and the index holds only what was logged
    intro key blockhash ancestors slot res hstatus
    obtain ⟨hfork, maxSlot, index, hmeta, hmem⟩ := getStatus_eq_some_some hstatus
    exact ⟨hfork, maxSlot, index, hmeta, hlog _ _ _ hmem⟩
  · -- liveness: the index holds the result from the insert to the end of the run
    intro blockhash key slot res randomKeyIndex s₁ ops s₂ hvalid hs₁ hrun ancestors hfork
    have hinv₁ : s₁.Consistent := Op.consistent hinv hvalid hs₁
    obtain ⟨index, hholds⟩ := holds_insert hvalid.1 hs₁
    exact (Run.holds hrun hinv₁ hholds).getStatus hvalid.1 hfork

/-- A key recorded at slot 1, then slot 1 rooted: after the insert every slot can be cleared, and
after the root the result is found on every fork. -/
theorem statusCache_run_sound_insert_root :
    (∀ slot, ∃ s', (((default : StatusCache Unit).insert default (List.replicate 20 0) 1 () 0).getD
      default).clearSlotEntries slot = some s') ∧
    ∃ e, ((((default : StatusCache Unit).insert default (List.replicate 20 0) 1 () 0).getD
      default).addRoot 1).getStatus (List.replicate 20 0) default (fun _ => false) = some (some e) := by
  have hvalid : (Op.insert default (List.replicate 20 0) 1 () 0 : Op Unit).Valid default :=
    ⟨by decide, fun _ ⟨_, h, _⟩ => by cases h⟩
  have hs₁ : (default : StatusCache Unit).insert default (List.replicate 20 0) 1 () 0 =
      some (((default : StatusCache Unit).insert default (List.replicate 20 0) 1 () 0).getD
        default) := rfl
  have hreach := Reachable.op _ Reachable.default hvalid hs₁
  -- `add_root(1)` purges nothing and clears no slot, so it spares the record at slot 1
  have hspares : Run (Op.Spares 1)
      (((default : StatusCache Unit).insert default (List.replicate 20 0) 1 () 0).getD default)
      [.addRoot 1]
      ((((default : StatusCache Unit).insert default (List.replicate 20 0) 1 () 0).getD
        default).addRoot 1) :=
    .cons ⟨trivial, nofun, by decide +kernel⟩ rfl (.nil _)
  exact ⟨(statusCache_run_sound hreach).2.1,
    (statusCache_run_sound Reachable.default).2.2.2 _ _ _ _ _ _ _ _ hvalid hs₁ hspares _
      (by decide +kernel)⟩

/-- Two runs outside the valid ones. A key inserted twice at one slot for one blockhash: the
slot's delta names its slice twice, and `clear_slot_entries` panics at the second ("Map for key
must exist if key exists in self.slot_deltas"). And a blockhash whose highest slot is reset:
inserted at 100, cleared with slot 100 (which drops it), inserted again at 5; the roots 1 to 305
then purge the roots 0 to 5 and the blockhash with them, so the result at 5 is not found, although
no root at or above 100 was purged. -/
theorem statusCache_duplicate_insert_panics_and_reset_blockhash_evicted :
    (∃ s₁ s₂ : StatusCache Unit,
      (default : StatusCache Unit).insert default (List.replicate 20 0) 1 () 0 = some s₁ ∧
      s₁.insert default (List.replicate 20 0) 1 () 0 = some s₂ ∧ s₂.clearSlotEntries 1 = none) ∧
    ((((default : StatusCache Unit).insert default (List.replicate 20 0) 100 () 0).bind
      (·.clearSlotEntries 100)).bind fun s => s.insert default (List.replicate 20 0) 5 () 0).map
      (fun s => ((List.range' 1 305).foldl StatusCache.addRoot s).getStatus
        (List.replicate 20 0) default fun slot => slot == 5) = some (some none) :=
  ⟨⟨_, _, rfl, rfl, rfl⟩, by decide +kernel⟩


end Agave.Runtime
