import Agave.Gossip.CrdsIndex

/-!
# The table's indexes over any run of inserts and removes

What holds of `Crds` after every call of a run from `Crds::default()` (`Inv`): the labels of the
table are distinct and each is its value's; the ordinals are distinct and below the cursor; and
every secondary index is exact (`nodes`, the four ordinal indexes, the records), with no empty
record and a shred version only for a node with a record. Each call keeps it: the three branches
of `insert` and `remove`, whose `swap_remove` moves the last value, each in terms of the index
updates of `CrdsIndex`.

Over a run (`run`, a list of calls `Op`) the invariant also means that no call panics, that the
readers read exactly the table (`ReadsExact`), and, with the calls themselves, that each stored value
was inserted for its label and that every later call for the label lost to it (`History`):
`crds_run_indexes_exact`.
-/

namespace Agave.Gossip

namespace Crds

/-- The four ordinal indexes of the table. -/
inductive OrdinalIndex where
  | votes
  | epochSlots
  | duplicateShreds
  | entries
  deriving DecidableEq, Repr

/-- The values an ordinal index is of. -/
def OrdinalIndex.admits : OrdinalIndex → CrdsValue → Prop
  | .votes, value => value.data.kind = .vote
  | .epochSlots, value => value.data.kind = .epochSlots
  | .duplicateShreds, value => value.data.kind = .duplicateShred
  | .entries, _ => True

instance : (x : OrdinalIndex) → DecidablePred x.admits
  | .votes => fun value => inferInstanceAs (Decidable (value.data.kind = .vote))
  | .epochSlots => fun value => inferInstanceAs (Decidable (value.data.kind = .epochSlots))
  | .duplicateShreds => fun value => inferInstanceAs (Decidable (value.data.kind = .duplicateShred))
  | .entries => fun _ => inferInstanceAs (Decidable True)

/-- The ordinal index of the table it names. -/
def ordinalIndex (s : Crds) : OrdinalIndex → List (Nat × Nat)
  | .votes => s.votes
  | .epochSlots => s.epochSlots
  | .duplicateShreds => s.duplicateShreds
  | .entries => s.entries

/-- A value is a contact-info. -/
def IsContactInfo (value : CrdsValue) : Prop := value.data.kind = .contactInfo

instance : DecidablePred IsContactInfo := fun value =>
  inferInstanceAs (Decidable (value.data.kind = .contactInfo))

/-- A value comes from the node. -/
def Originates (pubkey : Pubkey) (value : CrdsValue) : Prop := value.pubkey = pubkey

instance (pubkey : Pubkey) : DecidablePred (Originates pubkey) := fun value =>
  inferInstanceAs (Decidable (value.pubkey = pubkey))

/-! ## What each branch of `insert` does -/

section Spec

variable (s : Crds) (label : CrdsValueLabel) (pubkey : Pubkey)

/-- A vacant insert, field by field. -/
theorem insertVacant_eq (value : VersionedCrdsValue) :
    s.insertVacant label pubkey value =
      { table := s.table ++ [(label, value)]
        cursor := Cursor.consume s.cursor value.ordinal
        nodes := if IsContactInfo value.value then IndexSet.insert s.table.length s.nodes
          else s.nodes
        votes := if OrdinalIndex.votes.admits value.value then
            SortedMap.insert value.ordinal s.table.length s.votes else s.votes
        epochSlots := if OrdinalIndex.epochSlots.admits value.value then
            SortedMap.insert value.ordinal s.table.length s.epochSlots else s.epochSlots
        duplicateShreds := if OrdinalIndex.duplicateShreds.admits value.value then
            SortedMap.insert value.ordinal s.table.length s.duplicateShreds else s.duplicateShreds
        records := Function.update s.records pubkey
          (some (IndexSet.insert s.table.length ((s.records pubkey).getD [])))
        entries := SortedMap.insert value.ordinal s.table.length s.entries
        shredVersions := match value.value.data with
          | .contactInfo node => Function.update s.shredVersions pubkey (some node.shredVersion)
          | _ => s.shredVersions } := by
  obtain ⟨ordinal, ⟨signature, data⟩, localTimestamp, valueHash, numPushRecv⟩ := value
  cases data <;> rfl

/-- An overriding insert at `entryIndex`, field by field. -/
theorem insertOverride_eq (entryIndex : Nat) (entry value : VersionedCrdsValue) :
    s.insertOverride entryIndex label pubkey entry value =
      { table := s.table.set entryIndex (label, value)
        cursor := Cursor.consume s.cursor value.ordinal
        nodes := s.nodes
        votes := if OrdinalIndex.votes.admits value.value then
            SortedMap.insert value.ordinal entryIndex (SortedMap.erase entry.ordinal s.votes)
          else s.votes
        epochSlots := if OrdinalIndex.epochSlots.admits value.value then
            SortedMap.insert value.ordinal entryIndex (SortedMap.erase entry.ordinal s.epochSlots)
          else s.epochSlots
        duplicateShreds := if OrdinalIndex.duplicateShreds.admits value.value then
            SortedMap.insert value.ordinal entryIndex
              (SortedMap.erase entry.ordinal s.duplicateShreds)
          else s.duplicateShreds
        records := s.records
        entries := SortedMap.insert value.ordinal entryIndex (SortedMap.erase entry.ordinal s.entries)
        shredVersions := match value.value.data with
          | .contactInfo node => Function.update s.shredVersions pubkey (some node.shredVersion)
          | _ => s.shredVersions } := by
  obtain ⟨ordinal, ⟨signature, data⟩, localTimestamp, valueHash, numPushRecv⟩ := value
  cases data <;> rfl

/-- A failed insert leaves the state, or counts a duplicate push on the stored value. -/
theorem insertFailed_fst (entryIndex : Nat) (entry value : VersionedCrdsValue)
    (route : GossipRoute) :
    (s.insertFailed entryIndex label entry value route).1 = s ∨
      ∃ numPushRecv, (s.insertFailed entryIndex label entry value route).1 =
        { s with table := s.table.set entryIndex (label, { entry with numPushRecv }) } := by
  unfold insertFailed
  split
  · exact Or.inl rfl
  · split
    · exact Or.inr ⟨_, rfl⟩
    · exact Or.inl rfl

end Spec

/-- A shred version is written only for the value's node. -/
theorem shredVersions_of_ne {pubkey other : Pubkey} {value : VersionedCrdsValue}
    (hne : other ≠ pubkey) (shredVersions : Pubkey → Option Nat) :
    (match value.value.data with
      | .contactInfo node => Function.update shredVersions pubkey (some node.shredVersion)
      | _ => shredVersions) other = shredVersions other := by
  obtain ⟨ordinal, ⟨signature, data⟩, localTimestamp, valueHash, numPushRecv⟩ := value
  cases data <;> simp [Function.update_of_ne hne]

theorem insert_ne_nil (x : Nat) (positions : List Nat) : IndexSet.insert x positions ≠ [] :=
  List.ne_nil_of_mem (IndexSet.mem_insert.mpr (Or.inl rfl))

/-! ## The invariant -/

/-- What holds of the table after every call of a run. -/
structure Inv (s : Crds) : Prop where
  labels : (s.table.map Prod.fst).Nodup
  label : ∀ e ∈ s.table, e.2.value.label = e.1
  ordinal_lt : ∀ e ∈ s.table, e.2.ordinal < s.cursor
  ordinals : OrdinalsDistinct s.table
  nodes : PositionsExact IsContactInfo s.table s.nodes
  indexes : ∀ x : OrdinalIndex, OrdinalsExact x.admits s.table (s.ordinalIndex x)
  records : ∀ pubkey, PositionsExact (Originates pubkey) s.table ((s.records pubkey).getD [])
  records_ne_nil : ∀ pubkey, s.records pubkey ≠ some []
  shredVersions : ∀ pubkey, s.records pubkey = none → s.shredVersions pubkey = none

@[simp] theorem default_table : (default : Crds).table = [] := rfl

@[simp] theorem default_nodes : (default : Crds).nodes = [] := rfl

@[simp] theorem default_records (pubkey : Pubkey) : (default : Crds).records pubkey = none := rfl

@[simp] theorem default_ordinalIndex (x : OrdinalIndex) : (default : Crds).ordinalIndex x = [] := by
  cases x <;> rfl

theorem inv_default : (default : Crds).Inv := by
  refine ⟨List.nodup_nil, ?_, ?_, ?_, ⟨List.nodup_nil, ?_⟩, ?_, ?_, ?_, ?_⟩
  · intro e he; cases he
  · intro e he; cases he
  · intro i j e e' he; simp at he
  · intro i; simp
  · intro x
    refine ⟨?_, ?_⟩
    · rw [default_ordinalIndex]
      exact List.Pairwise.nil
    · intro ordinal i
      simp
  · intro pubkey
    exact ⟨List.nodup_nil, fun i => by simp⟩
  · intro pubkey h; cases h
  · intro pubkey _; rfl

section Steps

variable {s : Crds}

/-- A fresh ordinal, the cursor, is above every stored one. -/
theorem Inv.fresh (hinv : s.Inv) : ∀ e ∈ s.table, e.2.ordinal ≠ s.cursor :=
  fun e he => Nat.ne_of_lt (hinv.ordinal_lt e he)

theorem lt_consume (cursor ordinal : Nat) : ordinal < Cursor.consume cursor ordinal := by
  unfold Cursor.consume
  omega

theorem le_consume (cursor ordinal : Nat) : cursor ≤ Cursor.consume cursor ordinal := by
  unfold Cursor.consume
  omega

/-- A vacant insert of a value with its label, its node and the cursor's ordinal keeps the
invariant. -/
theorem Inv.insertVacant (hinv : s.Inv) {label : CrdsValueLabel} {pubkey : Pubkey}
    {value : VersionedCrdsValue} (hnone : IndexMap.getFull? label s.table = none)
    (hlabel : value.value.label = label) (hpubkey : value.value.pubkey = pubkey)
    (hordinal : value.ordinal = s.cursor) : (s.insertVacant label pubkey value).Inv := by
  have hfresh : ∀ e ∈ s.table, e.2.ordinal ≠ (label, value).2.ordinal := by
    rw [hordinal]
    exact hinv.fresh
  rw [insertVacant_eq]
  refine ⟨?_, ?_, ?_, ?_, ?_, fun x => ?_, fun pk => ?_, fun pk => ?_, fun pk hpk => ?_⟩
  · -- the label is new
    rw [List.map_append, List.map_singleton]
    exact List.nodup_append.mpr ⟨hinv.labels, List.nodup_singleton _,
      fun a ha b hb => by
        rw [List.mem_singleton] at hb
        subst hb
        rintro rfl
        exact (IndexMap.getFull?_eq_none.mp hnone) ha⟩
  · intro e he
    rcases List.mem_append.mp he with he | he
    · exact hinv.label e he
    · rw [List.mem_singleton] at he
      subst he
      exact hlabel
  · intro e he
    rcases List.mem_append.mp he with he | he
    · exact Nat.lt_of_lt_of_le (hinv.ordinal_lt e he) (le_consume _ _)
    · rw [List.mem_singleton] at he
      subst he
      exact lt_consume _ _
  · exact hinv.ordinals.append hfresh
  · exact hinv.nodes.append (label, value)
  · have := (hinv.indexes x).append (label, value) hfresh
    cases x <;> simpa [ordinalIndex, OrdinalIndex.admits] using this
  · -- the value's node gains the new position
    have := (hinv.records pk).append (label, value)
    by_cases hpk : pk = pubkey
    · subst hpk
      simpa [Originates, hpubkey] using this
    · have hne : ¬ Originates pk value.value := fun h => hpk (h.symm.trans hpubkey)
      simpa [Function.update_of_ne hpk, hne] using this
  · by_cases hpk : pk = pubkey
    · subst hpk
      simpa using insert_ne_nil _ _
    · simpa [Function.update_of_ne hpk] using hinv.records_ne_nil pk
  · have hne : pk ≠ pubkey := by
      rintro rfl
      simp at hpk
    simp only [Function.update_of_ne hne] at hpk
    dsimp only
    rw [shredVersions_of_ne hne]
    exact hinv.shredVersions pk hpk

/-- The stored value of a label: its position holds it, under the label its value has. -/
theorem Inv.getElem?_of_getFull? (hinv : s.Inv) {label : CrdsValueLabel} {i : Nat}
    {entry : VersionedCrdsValue} (hget : IndexMap.getFull? label s.table = some (i, entry)) :
    s.table[i]? = some (label, entry) ∧ entry.value.label = label := by
  have hi := IndexMap.getElem?_of_getFull? hget
  exact ⟨hi, hinv.label _ (List.mem_of_getElem? hi)⟩

/-- Two values of one label are of one kind and one node. -/
theorem kind_pubkey_of_label {value value' : CrdsValue} (h : value.label = value'.label) :
    value.data.kind = value'.data.kind ∧ value.pubkey = value'.pubkey := by
  rw [← kind_label, ← kind_label value', ← pubkey_label, ← pubkey_label value', h]
  exact ⟨rfl, rfl⟩

theorem admits_iff_of_kind {value value' : CrdsValue} (h : value.data.kind = value'.data.kind)
    (x : OrdinalIndex) : x.admits value ↔ x.admits value' := by
  cases x <;> simp [OrdinalIndex.admits, h]

/-- An overriding insert of a value of the stored value's label, with the cursor's ordinal, keeps
the invariant. -/
theorem Inv.insertOverride (hinv : s.Inv) {label : CrdsValueLabel} {pubkey : Pubkey} {i : Nat}
    {entry value : VersionedCrdsValue} (hget : IndexMap.getFull? label s.table = some (i, entry))
    (hlabel : value.value.label = label) (hpubkey : value.value.pubkey = pubkey)
    (hordinal : value.ordinal = s.cursor) : (s.insertOverride i label pubkey entry value).Inv := by
  obtain ⟨hi, hentry⟩ := hinv.getElem?_of_getFull? hget
  obtain ⟨hkind, hnode⟩ := kind_pubkey_of_label (hlabel.trans hentry.symm)
  have hfresh : ∀ x ∈ s.table, x.2.ordinal ≠ (label, value).2.ordinal := by
    rw [show (label, value).2.ordinal = s.cursor from hordinal]
    exact hinv.fresh
  have hmem : ∀ e ∈ s.table.set i (label, value), e = (label, value) ∨ e ∈ s.table :=
    fun e he => (List.mem_or_eq_of_mem_set he).symm
  rw [insertOverride_eq]
  refine ⟨?_, ?_, ?_, ?_, ?_, fun x => ?_, fun pk => ?_, hinv.records_ne_nil, fun pk hpk => ?_⟩
  · rw [map_fst_set hi (show ((label, value) : CrdsValueLabel × VersionedCrdsValue).1 = label
      from rfl)]
    exact hinv.labels
  · intro e he
    rcases hmem e he with rfl | he
    · exact hlabel
    · exact hinv.label e he
  · intro e he
    rcases hmem e he with rfl | he
    · exact lt_consume _ _
    · exact Nat.lt_of_lt_of_le (hinv.ordinal_lt e he) (le_consume _ _)
  · exact hinv.ordinals.set fun j x hx _ => hfresh x (List.mem_of_getElem? hx)
  · exact hinv.nodes.set hi (by simp [IsContactInfo, hkind])
  · have := (hinv.indexes x).set hinv.ordinals hi (admits_iff_of_kind hkind x) hfresh
    cases x <;> simpa [ordinalIndex, OrdinalIndex.admits] using this
  · exact (hinv.records pk).set hi (by simp [Originates, hnode])
  · -- the node of the value has a record, the one of position `i`
    have hne : pk ≠ pubkey := by
      rintro rfl
      have hpos : i ∈ (s.records pk).getD [] :=
        ((hinv.records pk).mem i).mpr ⟨_, hi, by simp [Originates, ← hnode, hpubkey]⟩
      rw [hpk] at hpos
      cases hpos
    dsimp only
    rw [shredVersions_of_ne hne]
    exact hinv.shredVersions pk hpk

/-- A failed insert keeps the invariant: at most the stored value's push count changes. -/
theorem Inv.insertFailed (hinv : s.Inv) {label : CrdsValueLabel} {i : Nat}
    {entry value : VersionedCrdsValue} (hget : IndexMap.getFull? label s.table = some (i, entry))
    (route : GossipRoute) : (s.insertFailed i label entry value route).1.Inv := by
  rcases insertFailed_fst s label i entry value route with h | ⟨numPushRecv, h⟩
  · rw [h]
    exact hinv
  · rw [h]
    obtain ⟨hi, hentry⟩ := hinv.getElem?_of_getFull? hget
    have hmem : ∀ e ∈ s.table.set i (label, { entry with numPushRecv }),
        e = (label, { entry with numPushRecv }) ∨ e ∈ s.table :=
      fun e he => (List.mem_or_eq_of_mem_set he).symm
    refine ⟨?_, ?_, ?_, ?_, hinv.nodes.set hi Iff.rfl, fun x => ?_,
      fun pk => (hinv.records pk).set hi Iff.rfl, hinv.records_ne_nil, hinv.shredVersions⟩
    · rw [map_fst_set hi (show ((label, { entry with numPushRecv }) :
          CrdsValueLabel × VersionedCrdsValue).1 = label from rfl)]
      exact hinv.labels
    · intro e he
      rcases hmem e he with rfl | he
      · exact hentry
      · exact hinv.label e he
    · intro e he
      rcases hmem e he with rfl | he
      · exact hinv.ordinal_lt (label, entry) (List.mem_of_getElem? hi)
      · exact hinv.ordinal_lt e he
    · refine hinv.ordinals.set fun j x hx hji heq => hji ?_
      exact hinv.ordinals j i x _ hx hi heq
    · exact (hinv.indexes x).set_same hi rfl rfl

end Steps

/-! ## `insert` -/

section Insert

variable (hashValue : CrdsValue → Hash) {s : Crds}

/-- What `insert` can do: a vacant insert, an overriding one, or a failed one. -/
theorem insert_cases {value : CrdsValue} {now : Nat} {route : GossipRoute} {s' : Crds}
    {result : Except CrdsError Unit}
    (h : s.insert hashValue value now route = some (s', result)) :
    (IndexMap.getFull? value.label s.table = none ∧
      s' = s.insertVacant value.label value.pubkey (versioned hashValue value s.cursor now route)) ∨
    (∃ i entry, IndexMap.getFull? value.label s.table = some (i, entry) ∧
      overrides hashValue value entry = some true ∧
      s' = s.insertOverride i value.label value.pubkey entry
        (versioned hashValue value s.cursor now route)) ∨
    (∃ i entry, IndexMap.getFull? value.label s.table = some (i, entry) ∧
      overrides hashValue value entry = some false ∧
      (s', result) = s.insertFailed i value.label entry
        (versioned hashValue value s.cursor now route) route) := by
  dsimp only [insert] at h
  split at h
  · rename_i hnone
    cases h
    exact Or.inl ⟨hnone, rfl⟩
  · rename_i i entry hget
    obtain ⟨b, hb, hres⟩ := Option.map_eq_some_iff.mp h
    cases b with
    | true =>
      cases hres
      exact Or.inr (Or.inl ⟨i, entry, hget, hb, rfl⟩)
    | false => exact Or.inr (Or.inr ⟨i, entry, hget, hb, hres.symm⟩)

/-- The stored value of a label has that label, so `overrides` gives a verdict. -/
theorem overrides_isSome {value : CrdsValue} {entry : VersionedCrdsValue}
    (h : value.label = entry.value.label) : (overrides hashValue value entry).isSome := by
  unfold overrides
  rw [if_neg (not_not.mpr h)]
  dsimp only
  -- a special verdict, or the wallclocks and then the hashes
  split
  · rfl
  · split
    · rfl
    · split <;> rfl

/-- `insert` does not panic on a table that keeps the invariant. -/
theorem Inv.insert_isSome (hinv : s.Inv) (value : CrdsValue) (now : Nat) (route : GossipRoute) :
    (s.insert hashValue value now route).isSome := by
  dsimp only [insert]
  split
  · rfl
  · rename_i i entry hget
    rw [Option.isSome_map]
    exact overrides_isSome hashValue ((hinv.getElem?_of_getFull? hget).2.symm)

theorem Inv.insert (hinv : s.Inv) {value : CrdsValue} {now : Nat} {route : GossipRoute}
    {s' : Crds} {result : Except CrdsError Unit}
    (h : s.insert hashValue value now route = some (s', result)) : s'.Inv := by
  rcases insert_cases hashValue h with ⟨hnone, rfl⟩ | ⟨i, entry, hget, -, rfl⟩ |
    ⟨i, entry, hget, -, hfailed⟩
  · exact hinv.insertVacant hnone rfl rfl rfl
  · exact hinv.insertOverride hget rfl rfl rfl
  · have hs' : s' = (s.insertFailed i value.label entry
        (versioned hashValue value s.cursor now route) route).1 := congrArg Prod.fst hfailed
    rw [hs']
    exact hinv.insertFailed hget route

end Insert

/-! ## `remove` -/

/-- `remove`'s first half, field by field: the removed value's indexes lose it. -/
theorem removeIndexes_eq (s : Crds) (i : Nat) (value : VersionedCrdsValue) :
    s.removeIndexes i value =
      { s with
        nodes := if IsContactInfo value.value then IndexSet.swapRemove i s.nodes else s.nodes
        votes := if OrdinalIndex.votes.admits value.value then
            SortedMap.erase value.ordinal s.votes else s.votes
        epochSlots := if OrdinalIndex.epochSlots.admits value.value then
            SortedMap.erase value.ordinal s.epochSlots else s.epochSlots
        duplicateShreds := if OrdinalIndex.duplicateShreds.admits value.value then
            SortedMap.erase value.ordinal s.duplicateShreds else s.duplicateShreds
        entries := SortedMap.erase value.ordinal s.entries } := by
  obtain ⟨ordinal, ⟨signature, data⟩, localTimestamp, valueHash, numPushRecv⟩ := value
  cases data <;> rfl

/-- What the first half of `remove` leaves as it was. -/
theorem removeIndexes_same (s : Crds) (i : Nat) (value : VersionedCrdsValue) :
    (s.removeIndexes i value).table = s.table ∧ (s.removeIndexes i value).cursor = s.cursor ∧
      (s.removeIndexes i value).records = s.records ∧
      (s.removeIndexes i value).shredVersions = s.shredVersions := by
  rw [removeIndexes_eq]
  exact ⟨rfl, rfl, rfl, rfl⟩

theorem nodes_removeIndexes (s : Crds) (i : Nat) (label : CrdsValueLabel)
    (value : VersionedCrdsValue) :
    (s.removeIndexes i value).nodes = dropPositions IsContactInfo i (label, value) s.nodes := by
  rw [removeIndexes_eq]
  rfl

theorem ordinalIndex_removeIndexes (s : Crds) (i : Nat) (label : CrdsValueLabel)
    (value : VersionedCrdsValue) (x : OrdinalIndex) :
    (s.removeIndexes i value).ordinalIndex x = dropOrdinals x.admits (label, value) (s.ordinalIndex x) := by
  rw [removeIndexes_eq]
  cases x <;> simp [ordinalIndex, dropOrdinals, OrdinalIndex.admits]

/-- The value moved to `i` is re-indexed there, field by field. -/
theorem moveIndexes_eq (s : Crds) (size i : Nat) (value : VersionedCrdsValue) {records : List Nat}
    (hrec : s.records value.value.pubkey = some records) :
    s.moveIndexes size i value =
      some { s with
        nodes := if IsContactInfo value.value then IndexSet.insert i (IndexSet.swapRemove size s.nodes)
          else s.nodes
        votes := if OrdinalIndex.votes.admits value.value then
            SortedMap.insert value.ordinal i s.votes else s.votes
        epochSlots := if OrdinalIndex.epochSlots.admits value.value then
            SortedMap.insert value.ordinal i s.epochSlots else s.epochSlots
        duplicateShreds := if OrdinalIndex.duplicateShreds.admits value.value then
            SortedMap.insert value.ordinal i s.duplicateShreds else s.duplicateShreds
        entries := SortedMap.insert value.ordinal i s.entries
        records := Function.update s.records value.value.pubkey
          (some (IndexSet.insert i (IndexSet.swapRemove size records))) } := by
  obtain ⟨ordinal, ⟨signature, data⟩, localTimestamp, valueHash, numPushRecv⟩ := value
  cases data <;> simp_all [moveIndexes, IsContactInfo, OrdinalIndex.admits, CrdsData.kind]

/-- The second half of `remove` in the terms of `CrdsIndex`: the moved value trades its position in
the indexes it is in, and in its node's record. -/
theorem moveIndexes_spec (s : Crds) (size i : Nat) (moved : CrdsValueLabel × VersionedCrdsValue)
    {records : List Nat} (hrec : s.records moved.2.value.pubkey = some records) :
    ∃ s', s.moveIndexes size i moved.2 = some s' ∧ s'.table = s.table ∧ s'.cursor = s.cursor ∧
      s'.nodes = movePositions IsContactInfo size i moved s.nodes ∧
      (∀ x, s'.ordinalIndex x = moveOrdinals x.admits i moved (s.ordinalIndex x)) ∧
      (∀ pk, (s'.records pk).getD [] =
        movePositions (Originates pk) size i moved ((s.records pk).getD [])) ∧
      (∀ pk, s'.records pk ≠ some [] ∨ s.records pk = some []) ∧
      (∀ pk, s'.records pk = none → s.records pk = none) ∧ s'.shredVersions = s.shredVersions := by
  rw [moveIndexes_eq s size i moved.2 hrec]
  refine ⟨_, rfl, rfl, rfl, rfl, fun x => ?_, fun pk => ?_, fun pk => ?_, fun pk h => ?_, rfl⟩
  · cases x <;> simp [ordinalIndex, moveOrdinals, OrdinalIndex.admits]
  · by_cases hpk : pk = moved.2.value.pubkey
    · subst hpk
      simp [movePositions, Originates, hrec]
    · simp [movePositions, Originates, Function.update_of_ne hpk, Ne.symm hpk]
  · by_cases hpk : pk = moved.2.value.pubkey
    · subst hpk
      left
      simpa using insert_ne_nil i (IndexSet.swapRemove size records)
    · dsimp only
      rw [Function.update_of_ne hpk]
      exact em' _
  · by_cases hpk : pk = moved.2.value.pubkey
    · subst hpk
      simp at h
    · simpa [Function.update_of_ne hpk] using h

/-- `remove`'s middle part: the removed value's record loses the position, and goes with its shred
version when it is left empty. -/
def dropRecord (s : Crds) (pubkey : Pubkey) (index : Nat) : Option Crds :=
  match s.records pubkey with
  | none => none
  | some records =>
    let records := IndexSet.swapRemove index records
    some (if records.isEmpty then
        { s with
          records := Function.update s.records pubkey none
          shredVersions := Function.update s.shredVersions pubkey none }
      else { s with records := Function.update s.records pubkey (some records) })

/-- `remove`'s last part: the value `swap_remove` moved into the freed position is re-indexed. -/
def moveLast (s : Crds) (index : Nat) : Option Crds :=
  if index < s.table.length then
    match s.table[index]? with
    | none => none
    | some (_, value) => s.moveIndexes s.table.length index value
  else some s

/-- `remove` of a stored label, in its three parts. -/
theorem remove_eq (s : Crds) {key : CrdsValueLabel} {i : Nat} {removed : VersionedCrdsValue}
    (hget : IndexMap.getFull? key s.table = some (i, removed)) (now : Nat) :
    s.remove key now =
      (dropRecord { s.removeIndexes i removed with table := IndexMap.swapRemoveAt s.table i }
        removed.value.pubkey i).bind (moveLast · i) := by
  unfold remove dropRecord
  rw [hget]
  dsimp only
  cases (s.removeIndexes i removed).records removed.value.pubkey <;> rfl

theorem dropRecord_spec {s : Crds} {pubkey : Pubkey} {records : List Nat}
    (hrec : s.records pubkey = some records) (index : Nat) :
    ∃ s', s.dropRecord pubkey index = some s' ∧ s'.table = s.table ∧ s'.cursor = s.cursor ∧
      s'.nodes = s.nodes ∧ (∀ x, s'.ordinalIndex x = s.ordinalIndex x) ∧
      (∀ pk, (s'.records pk).getD [] =
        if pk = pubkey then IndexSet.swapRemove index records else (s.records pk).getD []) ∧
      (∀ pk, s'.records pk = some [] → s.records pk = some []) ∧
      (∀ pk, s'.records pk = none →
        s'.shredVersions pk = none ∨ s.records pk = none ∧ s'.shredVersions pk = s.shredVersions pk) := by
  unfold dropRecord
  rw [hrec]
  dsimp only
  split
  · rename_i hempty
    refine ⟨_, rfl, rfl, rfl, rfl, fun x => by cases x <;> rfl, fun pk => ?_, fun pk h => ?_,
      fun pk h => ?_⟩
    · by_cases hpk : pk = pubkey
      · subst hpk
        simp [List.isEmpty_iff.mp hempty]
      · simp [hpk]
    · by_cases hpk : pk = pubkey
      · subst hpk
        simp at h
      · simpa [Function.update_of_ne hpk] using h
    · by_cases hpk : pk = pubkey
      · subst hpk
        simp
      · simp_all
  · rename_i hempty
    refine ⟨_, rfl, rfl, rfl, rfl, fun x => by cases x <;> rfl, fun pk => ?_, fun pk h => ?_,
      fun pk h => ?_⟩
    · by_cases hpk : pk = pubkey
      · subst hpk
        simp
      · simp [hpk]
    · by_cases hpk : pk = pubkey
      · subst hpk
        simp only [Function.update_self, Option.some.injEq] at h
        simp [h] at hempty
      · simpa [Function.update_of_ne hpk] using h
    · by_cases hpk : pk = pubkey
      · subst hpk
        simp at h
      · simp_all

theorem moveLast_of_le {s : Crds} {index : Nat} (h : s.table.length ≤ index) :
    s.moveLast index = some s := by
  unfold moveLast
  rw [if_neg (by omega)]

theorem moveLast_of_getElem? {s : Crds} {index : Nat} {label : CrdsValueLabel}
    {moved : VersionedCrdsValue} (hmoved : s.table[index]? = some (label, moved)) :
    s.moveLast index = s.moveIndexes s.table.length index moved := by
  unfold moveLast
  rw [if_pos (lt_length_of_getElem? hmoved), hmoved]

/-- A record read with a position in it is a record of the table. -/
theorem eq_some_getD_of_mem {o : Option (List Nat)} {x : Nat} (h : x ∈ o.getD []) :
    o = some (o.getD []) := by
  cases o with
  | none => cases h
  | some l => rfl

section Remove

variable {s : Crds}

/-- `remove` of a stored label, index by index, in the terms of `CrdsIndex`; it does not fail. -/
theorem Inv.remove_spec (hinv : s.Inv) {key : CrdsValueLabel} {i : Nat}
    {removed : VersionedCrdsValue} (hget : IndexMap.getFull? key s.table = some (i, removed))
    (now : Nat) :
    ∃ s', s.remove key now = some s' ∧ s'.table = IndexMap.swapRemoveAt s.table i ∧
      s'.cursor = s.cursor ∧
      s'.nodes = patchPositions IsContactInfo s.table i (key, removed) s.nodes ∧
      (∀ x, s'.ordinalIndex x =
        patchOrdinals x.admits s.table i (key, removed) (s.ordinalIndex x)) ∧
      (∀ pk, (s'.records pk).getD [] =
        patchPositions (Originates pk) s.table i (key, removed) ((s.records pk).getD [])) ∧
      (∀ pk, s'.records pk ≠ some []) ∧
      (∀ pk, s'.records pk = none → s'.shredVersions pk = none) := by
  obtain ⟨hi, -⟩ := hinv.getElem?_of_getFull? hget
  have hlt := lt_length_of_getElem? hi
  obtain ⟨-, hcursor1, hrecords1, hshred1⟩ := removeIndexes_same s i removed
  -- the removed value's record holds its position, so the middle part finds it
  have hpos : i ∈ (s.records removed.value.pubkey).getD [] :=
    ((hinv.records _).mem i).mpr ⟨_, hi, rfl⟩
  have hrec : ({ s.removeIndexes i removed with table := IndexMap.swapRemoveAt s.table i } :
      Crds).records removed.value.pubkey = some ((s.records removed.value.pubkey).getD []) := by
    show (s.removeIndexes i removed).records _ = _
    rw [hrecords1]
    exact eq_some_getD_of_mem hpos
  obtain ⟨s2, hs2, htable2, hcursor2, hnodes2, hindex2, hrecords2, hne2, hshred2⟩ :=
    dropRecord_spec hrec i
  rw [remove_eq s hget, hs2, Option.bind_some]
  -- the state between the two parts, against `s`
  have hsize : s2.table.length = s.table.length - 1 := by
    rw [htable2]
    exact IndexMap.length_swapRemoveAt _ _
  have hnodes : s2.nodes = dropPositions IsContactInfo i (key, removed) s.nodes := by
    rw [hnodes2]
    exact nodes_removeIndexes s i key removed
  have hindex : ∀ x, s2.ordinalIndex x =
      dropOrdinals x.admits (key, removed) (s.ordinalIndex x) := by
    intro x
    rw [hindex2 x, ← ordinalIndex_removeIndexes s i key removed x]
    cases x <;> rfl
  have hrecords : ∀ pk, (s2.records pk).getD [] =
      dropPositions (Originates pk) i (key, removed) ((s.records pk).getD []) := by
    intro pk
    rw [hrecords2 pk]
    by_cases hpk : pk = removed.value.pubkey
    · subst hpk
      simp [dropPositions, Originates]
    · simp [dropPositions, Originates, hpk, Ne.symm hpk, hrecords1]
  have hne : ∀ pk, s2.records pk ≠ some [] := by
    intro pk h
    apply hinv.records_ne_nil pk
    simpa [hrecords1] using hne2 pk h
  have hshred : ∀ pk, s2.records pk = none → s2.shredVersions pk = none := by
    intro pk h
    rcases hshred2 pk h with h' | ⟨hnone, h'⟩
    · exact h'
    · rw [h']
      show (s.removeIndexes i removed).shredVersions pk = none
      rw [hshred1]
      apply hinv.shredVersions pk
      simpa [hrecords1] using hnone
  by_cases hlast : i + 1 < s.table.length
  · -- the last value moves into position `i`
    obtain ⟨moved, hmoved⟩ : ∃ moved, s.table[s.table.length - 1]? = some moved :=
      ⟨_, List.getElem?_eq_getElem (by omega)⟩
    have hat : s2.table[i]? = some (moved.1, moved.2) := by
      rw [htable2]
      show (IndexMap.swapRemoveAt s.table i)[i]? = _
      rw [IndexMap.getElem?_swapRemoveAt hlt, if_pos hlast, if_pos rfl, hmoved]
    -- its record keeps its old position, which is not `i`
    have hmpos : s.table.length - 1 ∈ (s2.records moved.2.value.pubkey).getD [] := by
      rw [hrecords moved.2.value.pubkey, mem_dropPositions (hinv.records _) hi]
      exact ⟨((hinv.records _).mem _).mpr ⟨_, hmoved, rfl⟩, by omega⟩
    obtain ⟨s3, hs3, htable3, hcursor3, hnodes3, hindex3, hrecords3, hne3, hnone3, hshred3⟩ :=
      moveIndexes_spec s2 s2.table.length i moved (eq_some_getD_of_mem hmpos)
    rw [moveLast_of_getElem? hat, hs3]
    refine ⟨s3, rfl, htable3.trans htable2, ?_, ?_, fun x => ?_, fun pk => ?_, fun pk => ?_,
      fun pk h => ?_⟩
    · rw [hcursor3, hcursor2]
      exact hcursor1
    · rw [hnodes3, hsize, hnodes, patchPositions_of_lt hlast hmoved]
    · rw [hindex3 x, hindex x, patchOrdinals_of_lt hlast hmoved]
    · rw [hrecords3 pk, hsize, hrecords pk, patchPositions_of_lt hlast hmoved]
    · rcases hne3 pk with h | h
      · exact h
      · exact absurd h (hne pk)
    · rw [hshred3]
      exact hshred pk (hnone3 pk h)
  · -- the removed value was the last one
    rw [moveLast_of_le (by omega)]
    refine ⟨s2, rfl, htable2, ?_, ?_, fun x => ?_, fun pk => ?_, hne, hshred⟩
    · rw [hcursor2]
      exact hcursor1
    · rw [hnodes, patchPositions_of_le (by omega)]
    · rw [hindex x, patchOrdinals_of_le (by omega)]
    · rw [hrecords pk, patchPositions_of_le (by omega)]

/-- `remove` keeps the invariant, of a stored label or not. -/
theorem Inv.remove (hinv : s.Inv) {key : CrdsValueLabel} {now : Nat} {s' : Crds}
    (h : s.remove key now = some s') : s'.Inv := by
  cases hget : IndexMap.getFull? key s.table with
  | none =>
    unfold Crds.remove at h
    rw [hget, Option.some.injEq] at h
    rw [← h]
    exact hinv
  | some found =>
    obtain ⟨i, removed⟩ := found
    obtain ⟨hi, -⟩ := hinv.getElem?_of_getFull? hget
    have hlt := lt_length_of_getElem? hi
    obtain ⟨s'', hs'', htable, hcursor, hnodes, hindex, hrecords, hne, hshred⟩ :=
      hinv.remove_spec hget now
    rw [h, Option.some.injEq] at hs''
    subst hs''
    have hmem : ∀ e ∈ s'.table, e ∈ s.table := by
      intro e he
      rw [htable] at he
      exact mem_of_mem_swapRemoveAt hlt he
    refine ⟨?_, fun e he => hinv.label e (hmem e he), fun e he => ?_, ?_, ?_, fun x => ?_,
      fun pk => ?_, hne, hshred⟩
    · rw [htable]
      exact nodup_map_fst_swapRemoveAt hinv.labels hlt
    · rw [hcursor]
      exact hinv.ordinal_lt e (hmem e he)
    · rw [htable]
      exact hinv.ordinals.swapRemoveAt hlt
    · rw [htable, hnodes]
      exact hinv.nodes.swapRemoveAt hi
    · rw [htable, hindex x]
      exact (hinv.indexes x).swapRemoveAt hinv.ordinals hi
    · rw [htable, hrecords pk]
      exact (hinv.records pk).swapRemoveAt hi

/-- `remove` does not panic on a table that keeps the invariant. -/
theorem Inv.remove_isSome (hinv : s.Inv) (key : CrdsValueLabel) (now : Nat) :
    (s.remove key now).isSome := by
  cases hget : IndexMap.getFull? key s.table with
  | none =>
    unfold Crds.remove
    rw [hget]
    rfl
  | some found =>
    obtain ⟨s', hs', -⟩ := hinv.remove_spec
      (show IndexMap.getFull? key s.table = some (found.1, found.2) from hget) now
    rw [hs']
    rfl

end Remove

/-! ## Reading the table -/

/-- The reader of an ordinal index. -/
def OrdinalIndex.read (s : Crds) : OrdinalIndex → Nat → Option (List VersionedCrdsValue × Nat)
  | .votes => s.getVotes
  | .epochSlots => s.getEpochSlots
  | .duplicateShreds => s.getDuplicateShreds
  | .entries => s.getEntries

theorem OrdinalIndex.read_eq (s : Crds) (x : OrdinalIndex) (cursor : Nat) :
    x.read s cursor = s.readIndex (SortedMap.rangeFrom cursor (s.ordinalIndex x)) cursor := by
  cases x <;> rfl

/-- Where every position of the index holds a value, `readIndex` reads them all, in the index's
order, and moves the cursor past each ordinal. -/
theorem readIndex_eq (s : Crds) {index : List (Nat × Nat)}
    (h : ∀ p ∈ index, (s.valueAt p.2).isSome) (cursor : Nat) :
    s.readIndex index cursor =
      some (index.filterMap (s.valueAt ·.2),
        index.foldl (fun c p => Cursor.consume c p.1) cursor) := by
  induction index generalizing cursor with
  | nil => rfl
  | cons p rest ih =>
    obtain ⟨v, hv⟩ := Option.isSome_iff_exists.mp (h p List.mem_cons_self)
    rw [readIndex, hv, Option.bind_some, ih (fun q hq => h q (List.mem_cons_of_mem p hq))]
    simp [hv]

theorem le_foldl_consume (index : List (Nat × Nat)) (cursor : Nat) :
    cursor ≤ index.foldl (fun c p => Cursor.consume c p.1) cursor := by
  induction index generalizing cursor with
  | nil => exact Nat.le_refl cursor
  | cons p rest ih => exact (le_consume cursor p.1).trans (ih _)

theorem lt_foldl_consume {index : List (Nat × Nat)} {p : Nat × Nat} (hp : p ∈ index)
    (cursor : Nat) : p.1 < index.foldl (fun c p => Cursor.consume c p.1) cursor := by
  induction index generalizing cursor with
  | nil => cases hp
  | cons q rest ih =>
    rcases List.mem_cons.mp hp with rfl | hp
    · exact Nat.lt_of_lt_of_le (lt_consume cursor p.1) (le_foldl_consume rest _)
    · exact ih hp _

/-- A list of positions that all hold values reads as those values. -/
theorem mapM_valueAt (s : Crds) {positions : List Nat} (h : ∀ i ∈ positions, i < s.table.length) :
    ∃ values, positions.mapM s.valueAt = some values ∧
      ∀ v, v ∈ values ↔ ∃ i ∈ positions, s.valueAt i = some v := by
  induction positions with
  | nil => exact ⟨[], rfl, by simp⟩
  | cons i rest ih =>
    obtain ⟨values, hvalues, hmem⟩ := ih fun j hj => h j (List.mem_cons_of_mem i hj)
    have hi : i < s.table.length := h i List.mem_cons_self
    have hv : s.valueAt i = some s.table[i].2 := by
      simp [valueAt, List.getElem?_eq_getElem hi]
    refine ⟨s.table[i].2 :: values, by simp [List.mapM_cons, hv, hvalues], fun v => ?_⟩
    rw [List.mem_cons, hmem]
    constructor
    · rintro (rfl | ⟨j, hj, hjv⟩)
      · exact ⟨i, List.mem_cons_self, hv⟩
      · exact ⟨j, List.mem_cons_of_mem i hj, hjv⟩
    · rintro ⟨j, hj, hjv⟩
      rcases List.mem_cons.mp hj with rfl | hj
      · rw [hv, Option.some.injEq] at hjv
        exact Or.inl hjv.symm
      · exact Or.inr ⟨j, hj, hjv⟩

/-- An exact index of positions reads as the stored values with the property. -/
theorem PositionsExact.mapM_valueAt {s : Crds} {P : CrdsValue → Prop} {positions : List Nat}
    (h : PositionsExact P s.table positions) :
    ∃ values, positions.mapM s.valueAt = some values ∧
      ∀ v, v ∈ values ↔ v ∈ s.table.map Prod.snd ∧ P v.value := by
  obtain ⟨values, hvalues, hmem⟩ := s.mapM_valueAt fun i hi => h.lt_length hi
  refine ⟨values, hvalues, fun v => ?_⟩
  rw [hmem]
  constructor
  · rintro ⟨i, hi, hv⟩
    obtain ⟨e, he, hP⟩ := (h.mem i).mp hi
    simp only [valueAt, he, Option.map_some, Option.some.injEq] at hv
    subst hv
    exact ⟨List.mem_map.mpr ⟨e, List.mem_of_getElem? he, rfl⟩, hP⟩
  · rintro ⟨hv, hP⟩
    obtain ⟨e, he, rfl⟩ := List.mem_map.mp hv
    obtain ⟨i, hi⟩ := List.mem_iff_getElem?.mp he
    exact ⟨i, (h.mem i).mpr ⟨e, hi, hP⟩, by simp [valueAt, hi]⟩

/-- What the readers return on a table that keeps the invariant. -/
structure ReadsExact (s : Crds) : Prop where
  /-- An ordinal index read from a cursor: the stored values of its kind with an ordinal from the
  cursor on, in increasing ordinal order, and the cursor past each of them. -/
  ordinals : ∀ (x : OrdinalIndex) (cursor : Nat), ∃ values next,
    x.read s cursor = some (values, next) ∧ values.Pairwise (·.ordinal < ·.ordinal) ∧
    (∀ v, v ∈ values ↔ v ∈ s.table.map Prod.snd ∧ x.admits v.value ∧ cursor ≤ v.ordinal) ∧
    cursor ≤ next ∧ ∀ v ∈ values, v.ordinal < next
  /-- `get_nodes`: the stored contact-infos. -/
  nodes : ∃ values, s.getNodes = some values ∧
    ∀ v, v ∈ values ↔ v ∈ s.table.map Prod.snd ∧ IsContactInfo v.value
  /-- `get_nodes_contact_info` does not panic. -/
  contactInfos : s.getNodesContactInfo.isSome
  /-- `get_records`: the stored values of the node. -/
  records : ∀ pubkey, ∃ values, s.getRecords pubkey = some values ∧
    ∀ v, v ∈ values ↔ v ∈ s.table.map Prod.snd ∧ v.value.pubkey = pubkey

section Read

variable {s : Crds}

/-- An ordinal index read from a cursor on. -/
theorem Inv.read (hinv : s.Inv) (x : OrdinalIndex) (cursor : Nat) :
    ∃ values next, x.read s cursor = some (values, next) ∧
      values.Pairwise (·.ordinal < ·.ordinal) ∧
      (∀ v, v ∈ values ↔ v ∈ s.table.map Prod.snd ∧ x.admits v.value ∧ cursor ≤ v.ordinal) ∧
      cursor ≤ next ∧ ∀ v ∈ values, v.ordinal < next := by
  have hexact := hinv.indexes x
  -- each entry of the range is a position holding a value of its ordinal
  have hentry : ∀ p ∈ SortedMap.rangeFrom cursor (s.ordinalIndex x), ∃ e, s.table[p.2]? = some e ∧
      x.admits e.2.value ∧ e.2.ordinal = p.1 ∧ cursor ≤ p.1 := by
    intro p hp
    obtain ⟨hmem, hle⟩ := SortedMap.mem_rangeFrom.mp hp
    obtain ⟨e, he, hadmits, hordinal⟩ := (hexact.mem p.1 p.2).mp hmem
    exact ⟨e, he, hadmits, hordinal, hle⟩
  have hsome : ∀ p ∈ SortedMap.rangeFrom cursor (s.ordinalIndex x), (s.valueAt p.2).isSome := by
    intro p hp
    obtain ⟨e, he, -⟩ := hentry p hp
    simp [valueAt, he]
  refine ⟨_, _, by rw [OrdinalIndex.read_eq, readIndex_eq s hsome], ?_, fun v => ?_,
    le_foldl_consume _ _, fun v hv => ?_⟩
  · -- the values come in the index's order, which is the ordinals' order
    have hordinals : ((SortedMap.rangeFrom cursor (s.ordinalIndex x)).filterMap (s.valueAt ·.2)).map
        (·.ordinal) = (SortedMap.rangeFrom cursor (s.ordinalIndex x)).map Prod.fst := by
      rw [List.map_filterMap, ← List.filterMap_eq_map]
      apply List.filterMap_congr
      intro p hp
      obtain ⟨e, he, -, hordinal, -⟩ := hentry p hp
      simp [valueAt, he, hordinal]
    have hrange : SortedMap.Sorted (SortedMap.rangeFrom cursor (s.ordinalIndex x)) :=
      SortedMap.sorted_rangeFrom hexact.sorted
    have hsorted := List.pairwise_map.mpr hrange
    rw [← hordinals] at hsorted
    exact List.pairwise_map.mp hsorted
  · rw [List.mem_filterMap]
    constructor
    · rintro ⟨p, hp, hv⟩
      obtain ⟨e, he, hadmits, hordinal, hle⟩ := hentry p hp
      simp only [valueAt, he, Option.map_some, Option.some.injEq] at hv
      subst hv
      exact ⟨List.mem_map.mpr ⟨e, List.mem_of_getElem? he, rfl⟩, hadmits, hordinal ▸ hle⟩
    · rintro ⟨hmem, hadmits, hle⟩
      obtain ⟨e, he, rfl⟩ := List.mem_map.mp hmem
      obtain ⟨i, hi⟩ := List.mem_iff_getElem?.mp he
      refine ⟨(e.2.ordinal, i), SortedMap.mem_rangeFrom.mpr
        ⟨(hexact.mem _ _).mpr ⟨e, hi, hadmits, rfl⟩, hle⟩, ?_⟩
      simp [valueAt, hi]
  · obtain ⟨p, hp, hv⟩ := List.mem_filterMap.mp hv
    obtain ⟨e, he, -, hordinal, -⟩ := hentry p hp
    simp only [valueAt, he, Option.map_some, Option.some.injEq] at hv
    rw [← hv, hordinal]
    exact lt_foldl_consume hp cursor

/-- The readers on a table that keeps the invariant. -/
theorem Inv.readsExact (hinv : s.Inv) : ReadsExact s := by
  obtain ⟨nodes, hnodes, hmem⟩ := hinv.nodes.mapM_valueAt
  refine ⟨hinv.read, ⟨nodes, hnodes, hmem⟩, ?_, fun pubkey => (hinv.records pubkey).mapM_valueAt⟩
  -- every node read is a contact-info, so the second pass finds one in each
  have hcontact : ∀ v ∈ nodes, IsContactInfo v.value := fun v hv => ((hmem v).mp hv).2
  unfold getNodesContactInfo getNodes
  rw [hnodes, Option.bind_some]
  clear hnodes hmem
  induction nodes with
  | nil => rfl
  | cons v rest ih =>
    obtain ⟨infos, hinfos⟩ := Option.isSome_iff_exists.mp
      (ih fun w hw => hcontact w (List.mem_cons_of_mem v hw))
    have hv := hcontact v List.mem_cons_self
    obtain ⟨ordinal, ⟨signature, data⟩, localTimestamp, valueHash, numPushRecv⟩ := v
    cases data <;> simp_all [IsContactInfo, CrdsData.kind, List.mapM_cons]

/-- With distinct labels, `get` reads a label's entry of the table. -/
theorem Inv.get_eq_some_iff (hinv : s.Inv) {label : CrdsValueLabel} {w : VersionedCrdsValue} :
    s.get label = some w ↔ (label, w) ∈ s.table :=
  IndexMap.map_snd_getFull?_eq_some hinv.labels

theorem Inv.label_of_get (hinv : s.Inv) {label : CrdsValueLabel} {w : VersionedCrdsValue}
    (h : s.get label = some w) : w.value.label = label :=
  hinv.label _ (hinv.get_eq_some_iff.mp h)

end Read

/-! ## Runs of calls -/

/-- A call on the table. -/
inductive Op where
  | insert (value : CrdsValue) (now : Nat) (route : GossipRoute)
  | remove (label : CrdsValueLabel) (now : Nat)
  deriving DecidableEq, Repr

section Run

variable (hashValue : CrdsValue → Hash)

/-- One call; `none` is a panic. -/
def Op.apply : Op → Crds → Option Crds
  | .insert value now route, s => (s.insert hashValue value now route).map Prod.fst
  | .remove label now, s => s.remove label now

/-- The calls one after another, from `Crds::default()`. -/
def run (ops : List Op) : Option Crds := ops.foldlM (fun s op => op.apply hashValue s) default

theorem run_append_singleton (ops : List Op) (op : Op) :
    run hashValue (ops ++ [op]) = (run hashValue ops).bind (op.apply hashValue) := by
  unfold run
  rw [List.foldlM_append]
  cases List.foldlM (fun s op => op.apply hashValue s) default ops with
  | none => rfl
  | some s => simp

/-- A call that leaves a label's stored value `w` in place: a remove of another label, or an insert
that is of another label or that `w` overrides. -/
def Op.Keeps (label : CrdsValueLabel) (w : VersionedCrdsValue) : Op → Prop
  | .insert value _ _ => value.label = label → overrides hashValue value w = some false
  | .remove key _ => key ≠ label

/-- `w` was inserted by a call of the run, and every later call kept it. -/
def Stands (ops : List Op) (label : CrdsValueLabel) (w : VersionedCrdsValue) : Prop :=
  ∃ pre now route post, ops = pre ++ Op.insert w.value now route :: post ∧
    ∀ op ∈ post, op.Keeps hashValue label w

/-- Every stored value is of its label, and stands since it was inserted. -/
def History (ops : List Op) (s : Crds) : Prop :=
  ∀ label w, s.get label = some w → w.value.label = label ∧ Stands hashValue ops label w

variable {hashValue}

theorem Stands.snoc {ops : List Op} {label : CrdsValueLabel} {w : VersionedCrdsValue} {op : Op}
    (h : Stands hashValue ops label w) (hop : op.Keeps hashValue label w) :
    Stands hashValue (ops ++ [op]) label w := by
  obtain ⟨pre, now, route, post, rfl, hpost⟩ := h
  refine ⟨pre, now, route, post ++ [op], by simp, fun op' hop' => ?_⟩
  rcases List.mem_append.mp hop' with hop' | hop'
  · exact hpost op' hop'
  · rw [List.mem_singleton.mp hop']
    exact hop

theorem stands_insert (ops : List Op) (label : CrdsValueLabel) (w : VersionedCrdsValue)
    (now : Nat) (route : GossipRoute) :
    Stands hashValue (ops ++ [.insert w.value now route]) label w :=
  ⟨ops, now, route, [], rfl, fun _ h => absurd h List.not_mem_nil⟩

/-- `overrides` does not read the push count, so a counted duplicate push keeps what stands. -/
theorem Stands.numPushRecv {ops : List Op} {label : CrdsValueLabel} {w : VersionedCrdsValue}
    (h : Stands hashValue ops label w) (numPushRecv : Option Nat) :
    Stands hashValue ops label { w with numPushRecv } := by
  obtain ⟨pre, now, route, post, hops, hpost⟩ := h
  exact ⟨pre, now, route, post, hops, fun op hop => by cases op <;> exact hpost _ hop⟩

variable {s : Crds} {ops : List Op}

/-- An insert keeps the history: the inserted value stands, a failed insert is one the stored
value overrides, and the other labels keep theirs. -/
theorem Inv.history_insert (hinv : s.Inv) (hhist : History hashValue ops s) {value : CrdsValue}
    {now : Nat} {route : GossipRoute} {s' : Crds} {result : Except CrdsError Unit}
    (h : s.insert hashValue value now route = some (s', result)) :
    History hashValue (ops ++ [.insert value now route]) s' := by
  have hinv' := hinv.insert hashValue h
  intro label w hw
  refine ⟨hinv'.label_of_get hw, ?_⟩
  rw [hinv'.get_eq_some_iff] at hw
  -- a value of another label was stored before, and the call is not for it
  have hother : label ≠ value.label → (label, w) ∈ s.table →
      Stands hashValue (ops ++ [.insert value now route]) label w := fun hne hmem =>
    (hhist label w (hinv.get_eq_some_iff.mpr hmem)).2.snoc fun hlabel => absurd hlabel.symm hne
  rcases insert_cases hashValue h with ⟨hnone, rfl⟩ | ⟨i, entry, hget, -, rfl⟩ |
    ⟨i, entry, hget, hfalse, hfailed⟩
  · rw [insertVacant_eq] at hw
    rcases List.mem_append.mp hw with hw | hw
    · apply hother _ hw
      rintro rfl
      exact IndexMap.getFull?_eq_none.mp hnone (List.mem_map.mpr ⟨_, hw, rfl⟩)
    · rw [List.mem_singleton, Prod.mk.injEq] at hw
      obtain ⟨rfl, rfl⟩ := hw
      exact stands_insert ops _ (versioned hashValue value s.cursor now route) now route
  · obtain ⟨hi, -⟩ := hinv.getElem?_of_getFull? hget
    rw [insertOverride_eq] at hw
    rcases (IndexMap.mem_set_iff hinv.labels hi).mp hw with ⟨rfl, rfl⟩ | ⟨hne, hw⟩
    · exact stands_insert ops _ (versioned hashValue value s.cursor now route) now route
    · exact hother hne hw
  · -- the stored value stands, with at most its push count changed
    obtain ⟨hi, -⟩ := hinv.getElem?_of_getFull? hget
    have hentry : s.get value.label = some entry := by
      simp [get, hget]
    have hkeeps : (Op.insert value now route).Keeps hashValue value.label entry := fun _ => hfalse
    have hs' : s' = (s.insertFailed i value.label entry
        (versioned hashValue value s.cursor now route) route).1 := by
      rw [← hfailed]
    rcases insertFailed_fst s value.label i entry _ route with heq | ⟨numPushRecv, heq⟩
    · rw [hs', heq] at hw
      by_cases hlabel : label = value.label
      · subst hlabel
        have hw' : entry = w := by
          rw [← hinv.get_eq_some_iff, hentry, Option.some.injEq] at hw
          exact hw
        rw [← hw']
        exact (hhist _ entry hentry).2.snoc hkeeps
      · exact hother hlabel hw
    · rw [hs', heq] at hw
      rcases (IndexMap.mem_set_iff hinv.labels hi).mp hw with ⟨rfl, rfl⟩ | ⟨hne, hw⟩
      · exact ((hhist _ entry hentry).2.snoc hkeeps).numPushRecv numPushRecv
      · exact hother hne hw

/-- A remove keeps the history: the values that stay were there, and the call is not for them. -/
theorem Inv.history_remove (hinv : s.Inv) (hhist : History hashValue ops s) {key : CrdsValueLabel}
    {now : Nat} {s' : Crds} (h : s.remove key now = some s') :
    History hashValue (ops ++ [.remove key now]) s' := by
  have hinv' := hinv.remove h
  intro label w hw
  refine ⟨hinv'.label_of_get hw, ?_⟩
  have hkept : s.get label = some w ∧ key ≠ label := by
    cases hget : IndexMap.getFull? key s.table with
    | none =>
      unfold Crds.remove at h
      rw [hget, Option.some.injEq] at h
      subst h
      refine ⟨hw, ?_⟩
      rintro rfl
      simp [get, hget] at hw
    | some found =>
      obtain ⟨i, removed⟩ := found
      obtain ⟨hi, -⟩ := hinv.getElem?_of_getFull? hget
      obtain ⟨s'', hs'', htable, -⟩ := hinv.remove_spec hget now
      rw [h, Option.some.injEq] at hs''
      subst hs''
      rw [hinv'.get_eq_some_iff, htable, IndexMap.mem_swapRemoveAt_iff hinv.labels hi] at hw
      exact ⟨hinv.get_eq_some_iff.mpr hw.2, Ne.symm hw.1⟩
  exact (hhist label w hkept.1).2.snoc hkept.2

/-- One call on a table that keeps the invariant does not panic, and keeps the invariant and the
history. -/
theorem Inv.apply (hinv : s.Inv) (hhist : History hashValue ops s) (op : Op) :
    ∃ s', op.apply hashValue s = some s' ∧ s'.Inv ∧ History hashValue (ops ++ [op]) s' := by
  cases op with
  | insert value now route =>
    obtain ⟨⟨s', result⟩, h⟩ := Option.isSome_iff_exists.mp (hinv.insert_isSome hashValue value now route)
    exact ⟨s', by simp [Op.apply, h], hinv.insert hashValue h, hinv.history_insert hhist h⟩
  | remove key now =>
    obtain ⟨s', h⟩ := Option.isSome_iff_exists.mp (hinv.remove_isSome key now)
    exact ⟨s', h, hinv.remove h, hinv.history_remove hhist h⟩

variable (hashValue)

/-- Every run of calls from `Crds::default()` goes through without a panic, and after it the
indexes are exact and the ordinals distinct and below the cursor (`Inv`), every stored value stands
since its insert (`History`), and the readers read the table (`ReadsExact`). -/
theorem crds_run_indexes_exact (ops : List Op) :
    ∃ s, run hashValue ops = some s ∧ s.Inv ∧ History hashValue ops s ∧ ReadsExact s := by
  -- by induction on the run from its end, the way `run` folds the calls
  have hrun : ∃ s, run hashValue ops = some s ∧ s.Inv ∧ History hashValue ops s := by
    induction ops using List.reverseRecOn with
    | nil =>
      refine ⟨default, rfl, inv_default, fun label w h => ?_⟩
      simp [get, IndexMap.getFull?] at h
    | append_singleton ops op ih =>
      obtain ⟨s, hs, hinv, hhist⟩ := ih
      obtain ⟨s', hs', hinv', hhist'⟩ := hinv.apply hhist op
      exact ⟨s', by rw [run_append_singleton, hs, Option.bind_some, hs'], hinv', hhist'⟩
  obtain ⟨s, hs, hinv, hhist⟩ := hrun
  exact ⟨s, hs, hinv, hhist, hinv.readsExact⟩

end Run

end Crds

end Agave.Gossip
