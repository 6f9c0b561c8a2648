import Agave.AddressLookupTable.State

/-!
# The lookup table program

`programs/address-lookup-table/src/processor.rs`, over the bytes of the table account. Freezing,
extending and deactivating a table all check its authority and that it is still active, then
rewrite the metadata in place; an extension then appends the new addresses' bytes, and the first
extension in a new slot records the slot and how many addresses the table had before it.

Not modelled, because they move lamports or check accounts and never touch the bytes: the
owner check, the derivation of the table's address and the creation's transfer, allocation and
assignment (creation starts from the zeroed `LOOKUP_TABLE_META_SIZE` bytes), and the rent top-up
after an extension. Closing a table is outside the runs considered.

`run` executes instructions one after another, each of which succeeds. From a created table, over
extensions at non-decreasing slots, `Tracks` holds throughout (`Tracks.processInstruction`,
`tracks_run`): the bytes hold the metadata and every address appended so far, at most
`LOOKUP_TABLE_MAX_ADDRESSES` of them; the last extended slot is that of the last extension, and
its start index counts the addresses appended in earlier slots. What a lookup sees at a slot is
read off it (`Tracks.getActiveAddressesLen`).
-/

namespace Agave.AddressLookupTableProgram

open ByteCodec

/-- The processor's `checked_add`: `usize` addition failing with `ArithmeticOverflow`. -/
def checkedAdd (a b : Nat) : Except InstructionError Nat :=
  if a + b ≤ USIZE_MAX then .ok (a + b) else .error .arithmeticOverflow

/-- `BorrowedAccount::set_state`: `bincode::serialize_into` the data, which fails when the data
are too short. -/
def setState (data : List UInt8) (state : ProgramState) : Except InstructionError (List UInt8) :=
  let bytes := serializeProgramState state
  if bytes.length ≤ data.length then .ok (bytes ++ data.drop bytes.length)
  else .error .accountDataTooSmall

/-- `create_lookup_table` from the allocation on: the zeroed metadata bytes get the metadata of a
new table under the authority. -/
def createLookupTable (authorityKey : Pubkey) : Except InstructionError (List UInt8) :=
  setState (List.replicate LOOKUP_TABLE_META_SIZE 0) (.lookupTable (.new authorityKey))

/-- The checks `freeze_lookup_table`, `extend_lookup_table` and `deactivate_lookup_table` all
begin with: the authority signs, the table deserializes, it is not frozen, the signer is its
authority, and it is not deactivated. -/
def authorizedTable (data : List UInt8) (authorityKey : Pubkey) (authorityIsSigner : Bool) :
    Except InstructionError AddressLookupTable :=
  if !authorityIsSigner then .error .missingRequiredSignature
  else do
    let table ← deserialize data
    if table.tableMeta.authority.isNone then .error .immutable
    else if table.tableMeta.authority ≠ some authorityKey then .error .incorrectAuthority
    else if table.tableMeta.deactivationSlot ≠ U64_MAX then .error .invalidArgument
    else .ok table

/-- `freeze_lookup_table`. -/
def freezeLookupTable (data : List UInt8) (authorityKey : Pubkey) (authorityIsSigner : Bool) :
    Except InstructionError (List UInt8) := do
  let table ← authorizedTable data authorityKey authorityIsSigner
  if table.addresses.isEmpty then .error .invalidInstructionData
  else overwriteMetaData data { table.tableMeta with authority := none }

/-- The metadata of `extend_lookup_table`: the first extension in a new slot records the slot and
the number of addresses before it (`u8::try_from`, which fails past 255). -/
def extendedMeta (table : AddressLookupTable) (clockSlot : Nat) :
    Except InstructionError LookupTableMeta :=
  if clockSlot ≠ table.tableMeta.lastExtendedSlot then
    if table.addresses.length < 256 then
      .ok { table.tableMeta with
        lastExtendedSlot := clockSlot, lastExtendedSlotStartIndex := table.addresses.length }
    else .error .invalidAccountData
  else .ok table.tableMeta

/-- `extend_lookup_table`. -/
def extendLookupTable (data : List UInt8) (authorityKey : Pubkey) (authorityIsSigner : Bool)
    (clockSlot : Nat) (newAddresses : List Pubkey) : Except InstructionError (List UInt8) := do
  let table ← authorizedTable data authorityKey authorityIsSigner
  if table.addresses.length ≥ LOOKUP_TABLE_MAX_ADDRESSES then .error .invalidArgument
  else if newAddresses.isEmpty then .error .invalidInstructionData
  else
    let newTableAddressesLen :=
      saturatingAdd USIZE_MAX table.addresses.length newAddresses.length
    if newTableAddressesLen > LOOKUP_TABLE_MAX_ADDRESSES then .error .invalidInstructionData
    else do
      let tableMeta ← extendedMeta table clockSlot
      -- `new_table_addresses_len.saturating_mul(PUBKEY_BYTES)`
      let _newTableDataLen ←
        checkedAdd LOOKUP_TABLE_META_SIZE (min (newTableAddressesLen * PUBKEY_BYTES) USIZE_MAX)
      let data ← overwriteMetaData data tableMeta
      pure (data ++ newAddresses.flatMap Pubkey.toBytes)

/-- `deactivate_lookup_table`. -/
def deactivateLookupTable (data : List UInt8) (authorityKey : Pubkey) (authorityIsSigner : Bool)
    (clockSlot : Nat) : Except InstructionError (List UInt8) := do
  let table ← authorizedTable data authorityKey authorityIsSigner
  overwriteMetaData data { table.tableMeta with deactivationSlot := clockSlot }

/-- The instructions a table goes through between its creation and its closing. -/
inductive ProgramInstruction where
  | freezeLookupTable
  | extendLookupTable (newAddresses : List Pubkey)
  | deactivateLookupTable
  deriving DecidableEq, Repr

/-- One instruction with what it reads from its context: the authority account and its
signature, and the clock's slot. -/
structure Invocation where
  instruction : ProgramInstruction
  authorityKey : Pubkey
  authorityIsSigner : Bool
  clockSlot : Nat
  deriving DecidableEq, Repr

/-- The dispatch of `process_instruction`. -/
def processInstruction (data : List UInt8) (invocation : Invocation) :
    Except InstructionError (List UInt8) :=
  match invocation.instruction with
  | .freezeLookupTable =>
    freezeLookupTable data invocation.authorityKey invocation.authorityIsSigner
  | .extendLookupTable newAddresses =>
    extendLookupTable data invocation.authorityKey invocation.authorityIsSigner
      invocation.clockSlot newAddresses
  | .deactivateLookupTable =>
    deactivateLookupTable data invocation.authorityKey invocation.authorityIsSigner
      invocation.clockSlot

/-- Instructions executed one after another, each of which succeeds. -/
def run (data : List UInt8) (invocations : List Invocation) :
    Except InstructionError (List UInt8) :=
  invocations.foldlM processInstruction data

/-! ## The extensions of a run -/

/-- The slot and the addresses of an invocation that extends the table. -/
def Invocation.extension (invocation : Invocation) : Option (Nat × List Pubkey) :=
  match invocation.instruction with
  | .extendLookupTable newAddresses => some (invocation.clockSlot, newAddresses)
  | _ => none

/-- The extensions of a run, in order. -/
def extensions (invocations : List Invocation) : List (Nat × List Pubkey) :=
  invocations.filterMap Invocation.extension

/-- Every address appended, in order. -/
def appendedAddresses (exts : List (Nat × List Pubkey)) : List Pubkey := exts.flatMap (·.2)

/-- The addresses appended in slots before `slot`. -/
def appendedBefore (exts : List (Nat × List Pubkey)) (slot : Nat) : List Pubkey :=
  appendedAddresses (exts.filter (·.1 < slot))

/-- The slot of the last extension, `0` before any (`LookupTableMeta::default`). -/
def lastExtensionSlot (exts : List (Nat × List Pubkey)) : Nat :=
  (exts.getLast?.map (·.1)).getD 0

/-- The bytes of the table account after extensions `exts`, and what its metadata records of
them. -/
structure Tracks (data : List UInt8) (tableMeta : LookupTableMeta)
    (exts : List (Nat × List Pubkey)) : Prop where
  layout : Layout data tableMeta (appendedAddresses exts)
  lastExtendedSlot_eq : tableMeta.lastExtendedSlot = lastExtensionSlot exts
  startIndex_eq :
    tableMeta.lastExtendedSlotStartIndex = (appendedBefore exts tableMeta.lastExtendedSlot).length
  length_le : (appendedAddresses exts).length ≤ LOOKUP_TABLE_MAX_ADDRESSES

/-! ## One instruction -/

section Step

variable {data data' : List UInt8} {tableMeta : LookupTableMeta} {addresses : List Pubkey}
  {authorityKey : Pubkey} {authorityIsSigner : Bool}

/-- Past the authority checks the table is the one the bytes hold. -/
theorem authorizedTable_of_layout (hlayout : Layout data tableMeta addresses)
    {table : AddressLookupTable}
    (h : authorizedTable data authorityKey authorityIsSigner = .ok table) :
    table = ⟨tableMeta, addresses⟩ := by
  unfold authorizedTable at h
  split at h
  · cases h
  obtain ⟨read, hread, h⟩ := except_bind_eq_ok h
  rw [hlayout.deserialize] at hread
  cases hread
  -- each failed check is an error, so the checks all passed
  split at h
  · cases h
  split at h
  · cases h
  split at h
  · cases h
  exact (Except.ok.inj h).symm

/-- Rewriting the metadata of a tracked table with what it records of the extensions unchanged
keeps it tracked. -/
theorem Tracks.overwriteMetaData {exts : List (Nat × List Pubkey)}
    (ht : Tracks data tableMeta exts) {tableMeta' : LookupTableMeta} (hrange : tableMeta'.InRange)
    (hlast : tableMeta'.lastExtendedSlot = tableMeta.lastExtendedSlot)
    (hstart : tableMeta'.lastExtendedSlotStartIndex = tableMeta.lastExtendedSlotStartIndex)
    (h : overwriteMetaData data tableMeta' = .ok data') : Tracks data' tableMeta' exts := by
  obtain ⟨written, hwritten, hlayout⟩ := ht.layout.overwriteMetaData hrange
  rw [hwritten] at h
  cases h
  refine ⟨hlayout, hlast.trans ht.lastExtendedSlot_eq, ?_, ht.length_le⟩
  rw [hstart, hlast]
  exact ht.startIndex_eq

theorem Tracks.freezeLookupTable {exts : List (Nat × List Pubkey)}
    (ht : Tracks data tableMeta exts)
    (h : freezeLookupTable data authorityKey authorityIsSigner = .ok data') :
    Tracks data' { tableMeta with authority := none } exts := by
  obtain ⟨table, htable, h⟩ := except_bind_eq_ok h
  obtain rfl := authorizedTable_of_layout ht.layout htable
  split at h
  · cases h
  have hrange := ht.layout.inRange
  exact ht.overwriteMetaData ⟨hrange.1, hrange.2, hrange.3, hrange.4⟩ rfl rfl h

theorem Tracks.deactivateLookupTable {exts : List (Nat × List Pubkey)} {clockSlot : Nat}
    (ht : Tracks data tableMeta exts) (hclock : clockSlot ≤ U64_MAX)
    (h : deactivateLookupTable data authorityKey authorityIsSigner clockSlot = .ok data') :
    Tracks data' { tableMeta with deactivationSlot := clockSlot } exts := by
  obtain ⟨table, htable, h⟩ := except_bind_eq_ok h
  obtain rfl := authorizedTable_of_layout ht.layout htable
  have hrange := ht.layout.inRange
  exact ht.overwriteMetaData ⟨hclock, hrange.2, hrange.3, hrange.4⟩ rfl rfl h

/-- The metadata an extension writes: a new slot and the count before it, or the old metadata
when the table was already extended in this slot. -/
theorem extendedMeta_eq_ok {table : AddressLookupTable} {clockSlot : Nat}
    {tableMeta' : LookupTableMeta} (h : extendedMeta table clockSlot = .ok tableMeta') :
    (clockSlot ≠ table.tableMeta.lastExtendedSlot ∧ table.addresses.length < 256 ∧
        tableMeta' = { table.tableMeta with
          lastExtendedSlot := clockSlot, lastExtendedSlotStartIndex := table.addresses.length }) ∨
      (clockSlot = table.tableMeta.lastExtendedSlot ∧ tableMeta' = table.tableMeta) := by
  unfold extendedMeta at h
  split at h
  · split at h
    · exact .inl ⟨‹_›, ‹_›, (Except.ok.inj h).symm⟩
    · cases h
  · exact .inr ⟨not_not.mp ‹_›, (Except.ok.inj h).symm⟩

end Step

/-! ## What the extensions record -/

section Extensions

variable {exts : List (Nat × List Pubkey)}

@[simp] theorem appendedAddresses_append (exts' : List (Nat × List Pubkey)) :
    appendedAddresses (exts ++ exts') = appendedAddresses exts ++ appendedAddresses exts' := by
  simp [appendedAddresses]

@[simp] theorem lastExtensionSlot_append_singleton (ext : Nat × List Pubkey) :
    lastExtensionSlot (exts ++ [ext]) = ext.1 := by
  simp [lastExtensionSlot]

/-- An extension at or after `slot` adds nothing visible before it. -/
theorem appendedBefore_append_singleton_of_le (ext : Nat × List Pubkey) {slot : Nat}
    (h : slot ≤ ext.1) : appendedBefore (exts ++ [ext]) slot = appendedBefore exts slot := by
  simp [appendedBefore, List.filter_append, Nat.not_lt.mpr h]

theorem appendedBefore_of_forall_lt {slot : Nat} (h : ∀ ext ∈ exts, ext.1 < slot) :
    appendedBefore exts slot = appendedAddresses exts := by
  unfold appendedBefore
  rw [List.filter_eq_self.mpr (by simpa using h)]

/-- In slot order, every extension is at or before the last one. -/
theorem le_lastExtensionSlot (hsorted : (exts.map Prod.fst).Pairwise (· ≤ ·)) :
    ∀ ext ∈ exts, ext.1 ≤ lastExtensionSlot exts := by
  induction exts using List.reverseRecOn with
  | nil => simp
  | append_singleton init last _ =>
    intro ext hext
    rw [List.map_append, List.pairwise_append] at hsorted
    rw [lastExtensionSlot_append_singleton]
    rcases List.mem_append.mp hext with hinit | hlast
    · exact hsorted.2.2 _ (List.mem_map_of_mem hinit) _ (by simp)
    · rw [List.mem_singleton.mp hlast]

theorem lastExtensionSlot_le {slot : Nat} (h : ∀ ext ∈ exts, ext.1 ≤ slot) :
    lastExtensionSlot exts ≤ slot := by
  unfold lastExtensionSlot
  cases hlast : exts.getLast? with
  | none => simp
  | some ext => exact h ext (List.mem_of_getLast? hlast)

/-- In slot order, what was appended before a slot comes first. -/
theorem appendedAddresses_eq_append (hsorted : (exts.map Prod.fst).Pairwise (· ≤ ·))
    (slot : Nat) : ∃ rest, appendedAddresses exts = appendedBefore exts slot ++ rest := by
  induction exts with
  | nil => exact ⟨[], rfl⟩
  | cons ext exts ih =>
    rw [List.map_cons, List.pairwise_cons] at hsorted
    by_cases hlt : ext.1 < slot
    · obtain ⟨rest, hrest⟩ := ih hsorted.2
      refine ⟨rest, ?_⟩
      simp only [appendedBefore, appendedAddresses, List.filter_cons, hlt, decide_true,
        if_true, List.flatMap_cons, List.append_assoc] at hrest ⊢
      rw [hrest]
    · -- every later extension is at `ext.1` or after, so none is before `slot`
      have hnone : exts.filter (·.1 < slot) = [] := by
        refine List.filter_eq_nil_iff.mpr fun later hlater => ?_
        have := hsorted.1 later.1 (List.mem_map_of_mem hlater)
        simp only [decide_eq_true_eq]
        omega
      refine ⟨appendedAddresses (ext :: exts), ?_⟩
      simp [appendedBefore, hlt, hnone, appendedAddresses]

theorem extensions_cons (invocation : Invocation) (invocations : List Invocation) :
    extensions (invocation :: invocations) =
      invocation.extension.toList ++ extensions invocations := by
  cases hext : invocation.extension <;> simp [extensions, hext]

end Extensions

/-! ## Runs -/

section Run

variable {data data' : List UInt8} {tableMeta : LookupTableMeta} {exts : List (Nat × List Pubkey)}

/-- An extension appends its addresses, and records its slot if it is a new one, with the count
of the addresses appended in the slots before. -/
theorem Tracks.extendLookupTable {authorityKey : Pubkey} {authorityIsSigner : Bool}
    {clockSlot : Nat} {newAddresses : List Pubkey} (ht : Tracks data tableMeta exts)
    (hsorted : ((exts ++ [(clockSlot, newAddresses)]).map Prod.fst).Pairwise (· ≤ ·))
    (hclock : clockSlot ≤ U64_MAX)
    (h : extendLookupTable data authorityKey authorityIsSigner clockSlot newAddresses =
      .ok data') :
    ∃ tableMeta', Tracks data' tableMeta' (exts ++ [(clockSlot, newAddresses)]) := by
  obtain ⟨table, htable, h⟩ := except_bind_eq_ok h
  obtain rfl := authorizedTable_of_layout ht.layout htable
  split at h
  · cases h
  split at h
  · cases h
  dsimp only at h
  split at h
  · cases h
  rename_i hcap
  obtain ⟨tableMeta', hmeta, h⟩ := except_bind_eq_ok h
  obtain ⟨_, -, h⟩ := except_bind_eq_ok h
  obtain ⟨written, hwritten, h⟩ := except_bind_eq_ok h
  cases Except.ok.inj h
  have hlen : (appendedAddresses exts).length + newAddresses.length ≤
      LOOKUP_TABLE_MAX_ADDRESSES := by
    simp only [saturatingAdd, USIZE_MAX, LOOKUP_TABLE_MAX_ADDRESSES] at hcap ⊢
    omega
  rw [List.map_append, List.pairwise_append] at hsorted
  have hbefore : ∀ ext ∈ exts, ext.1 ≤ clockSlot := fun ext hext =>
    hsorted.2.2 _ (List.mem_map_of_mem hext) _ (by simp)
  have hrange := ht.layout.inRange
  -- the bytes: the metadata rewritten, then the new addresses behind the old ones
  have hlayout : ∀ tableMeta'' : LookupTableMeta, tableMeta''.InRange →
      AddressLookupTableProgram.overwriteMetaData data tableMeta'' = .ok written →
      Layout (written ++ newAddresses.flatMap Pubkey.toBytes) tableMeta''
        (appendedAddresses (exts ++ [(clockSlot, newAddresses)])) := by
    intro tableMeta'' hrange'' hwritten''
    obtain ⟨w, hw, hl⟩ := ht.layout.overwriteMetaData hrange''
    rw [hw] at hwritten''
    cases hwritten''
    simpa [appendedAddresses] using hl.append newAddresses
  have hlength : (appendedAddresses (exts ++ [(clockSlot, newAddresses)])).length ≤
      LOOKUP_TABLE_MAX_ADDRESSES := by
    simp only [appendedAddresses_append, List.length_append]
    simpa [appendedAddresses] using hlen
  rcases extendedMeta_eq_ok hmeta with ⟨hnew, hcount, hmeta'⟩ | ⟨hsame, rfl⟩
  · -- a new slot: every earlier extension was in an earlier slot
    have hlast : lastExtensionSlot exts < clockSlot := by
      have hle := lastExtensionSlot_le hbefore
      have heq := ht.lastExtendedSlot_eq
      dsimp only at hnew
      omega
    have hearlier : ∀ ext ∈ exts, ext.1 < clockSlot := fun ext hext =>
      Nat.lt_of_le_of_lt (le_lastExtensionSlot hsorted.1 ext hext) hlast
    subst hmeta'
    refine ⟨_, hlayout _ (by exact ⟨hrange.1, hclock, hcount, hrange.4⟩) hwritten, by simp, ?_,
      hlength⟩
    show (appendedAddresses exts).length =
      (appendedBefore (exts ++ [(clockSlot, newAddresses)]) clockSlot).length
    rw [appendedBefore_append_singleton_of_le _ (le_refl _),
      appendedBefore_of_forall_lt hearlier]
  · -- the same slot: the metadata stays as it was
    refine ⟨_, hlayout _ hrange hwritten, by simp [hsame], ?_, hlength⟩
    rw [appendedBefore_append_singleton_of_le _ (le_of_eq hsame.symm)]
    exact ht.startIndex_eq

theorem Tracks.processInstruction (ht : Tracks data tableMeta exts) {invocation : Invocation}
    (hsorted : ((exts ++ invocation.extension.toList).map Prod.fst).Pairwise (· ≤ ·))
    (hclock : invocation.clockSlot ≤ U64_MAX)
    (h : AddressLookupTableProgram.processInstruction data invocation = .ok data') :
    ∃ tableMeta', Tracks data' tableMeta' (exts ++ invocation.extension.toList) := by
  obtain ⟨instruction, authorityKey, authorityIsSigner, clockSlot⟩ := invocation
  cases instruction with
  | freezeLookupTable =>
    exact ⟨_, by simpa [Invocation.extension] using ht.freezeLookupTable h⟩
  | extendLookupTable newAddresses =>
    exact ht.extendLookupTable (by simpa [Invocation.extension] using hsorted) hclock h
  | deactivateLookupTable =>
    exact ⟨_, by simpa [Invocation.extension] using ht.deactivateLookupTable hclock h⟩

/-- Over a run with extensions in slot order, the table stays tracked. -/
theorem tracks_run (invocations : List Invocation) (ht : Tracks data tableMeta exts)
    (h : run data invocations = .ok data')
    (hsorted : ((exts ++ extensions invocations).map Prod.fst).Pairwise (· ≤ ·))
    (hclock : ∀ invocation ∈ invocations, invocation.clockSlot ≤ U64_MAX) :
    ∃ tableMeta', Tracks data' tableMeta' (exts ++ extensions invocations) := by
  -- the run is a left fold, so the history of extensions grows at the end
  induction invocations generalizing data tableMeta exts with
  | nil =>
    cases h
    exact ⟨tableMeta, by simpa [extensions] using ht⟩
  | cons invocation invocations ih =>
    rw [run, List.foldlM_cons] at h
    obtain ⟨mid, hmid, hrest⟩ := except_bind_eq_ok h
    rw [extensions_cons, ← List.append_assoc] at hsorted ⊢
    have hstep := hsorted.sublist ((List.sublist_append_left _ _).map Prod.fst)
    obtain ⟨tableMeta', ht'⟩ := ht.processInstruction hstep
      (hclock invocation List.mem_cons_self) hmid
    exact ih ht' hrest hsorted fun inv hinv => hclock inv (List.mem_cons_of_mem _ hinv)

theorem tracks_createLookupTable {authorityKey : Pubkey}
    (h : createLookupTable authorityKey = .ok data) :
    Tracks data (.new authorityKey) [] := by
  have hlen : (serializeProgramState (.lookupTable (.new authorityKey))).length =
      LOOKUP_TABLE_META_SIZE := by
    simp [serializeProgramState, LookupTableMeta.new, LookupTableMeta.default,
      serializeAuthority, LOOKUP_TABLE_META_SIZE]
  unfold createLookupTable setState at h
  rw [if_pos (by simp [hlen])] at h
  cases h
  refine ⟨⟨⟨le_refl _, Nat.zero_le _, show 0 < 256 by decide, show 0 < 2 ^ 16 by decide⟩, ?_⟩,
    rfl, rfl, by decide⟩
  simp [metaBytes, hlen, appendedAddresses]

/-- What a lookup sees at a slot no earlier than every extension: the addresses appended in
the slots before it. -/
theorem Tracks.getActiveAddressesLen (ht : Tracks data tableMeta exts)
    (hsorted : (exts.map Prod.fst).Pairwise (· ≤ ·)) {currentSlot : Nat}
    {slotHashes : List (Nat × Hash)} (hslot : ∀ ext ∈ exts, ext.1 ≤ currentSlot)
    (hactive : tableMeta.isActive currentSlot slotHashes = true) :
    (⟨tableMeta, appendedAddresses exts⟩ : AddressLookupTable).getActiveAddressesLen
      currentSlot slotHashes = .ok (appendedBefore exts currentSlot).length := by
  rw [AddressLookupTable.getActiveAddressesLen_of_isActive hactive]
  have hlast := ht.lastExtendedSlot_eq
  congr 1
  split
  · -- extended before the current slot: everything appended is visible
    rename_i hafter
    have hearlier : ∀ ext ∈ exts, ext.1 < currentSlot := fun ext hext => by
      have := le_lastExtensionSlot hsorted ext hext
      dsimp only at hafter
      omega
    rw [appendedBefore_of_forall_lt hearlier]
  · -- otherwise the current slot is the last extended one
    rename_i hnotafter
    have hle := lastExtensionSlot_le hslot
    have hcurrent : tableMeta.lastExtendedSlot = currentSlot := by
      dsimp only at hnotafter
      omega
    rw [ht.startIndex_eq, hcurrent]

end Run

/-- A table created and then taken through instructions that all succeed, extended at slots that
never decrease: its bytes deserialize to every appended address in order, at most
`LOOKUP_TABLE_MAX_ADDRESSES` of them, and at any slot no earlier than the last extension where
the table is active, a lookup sees exactly the addresses appended in earlier slots, failing on
any index past them. -/
theorem lookup_table_extensions_visible (authorityKey : Pubkey) (invocations : List Invocation)
    (data₀ data : List UInt8) (hcreate : createLookupTable authorityKey = .ok data₀)
    (hrun : run data₀ invocations = .ok data)
    (hsorted : ((extensions invocations).map Prod.fst).Pairwise (· ≤ ·))
    (hclock : ∀ invocation ∈ invocations, invocation.clockSlot ≤ U64_MAX) :
    ∃ table, deserialize data = .ok table ∧
      table.addresses = appendedAddresses (extensions invocations) ∧
      table.addresses.length ≤ LOOKUP_TABLE_MAX_ADDRESSES ∧
      ∀ currentSlot slotHashes, (∀ ext ∈ extensions invocations, ext.1 ≤ currentSlot) →
        table.tableMeta.isActive currentSlot slotHashes = true →
        table.getActiveAddressesLen currentSlot slotHashes =
            .ok (appendedBefore (extensions invocations) currentSlot).length ∧
        ∀ indexes, table.lookup currentSlot indexes slotHashes =
          some (if ∀ idx ∈ indexes,
              idx < (appendedBefore (extensions invocations) currentSlot).length then
            .ok (indexes.map fun idx =>
              (appendedBefore (extensions invocations) currentSlot).getD idx default)
          else .error .invalidLookupIndex) := by
  obtain ⟨tableMeta, ht⟩ := tracks_run invocations (tracks_createLookupTable hcreate) hrun
    (by simpa using hsorted) hclock
  rw [List.nil_append] at ht
  refine ⟨_, ht.layout.deserialize, rfl, ht.length_le, fun currentSlot slotHashes hslot hactive => ?_⟩
  have hlen := ht.getActiveAddressesLen hsorted hslot hactive
  -- the visible addresses are a prefix of the table
  obtain ⟨rest, hrest⟩ := appendedAddresses_eq_append hsorted currentSlot
  have hle : (appendedBefore (extensions invocations) currentSlot).length ≤
      (appendedAddresses (extensions invocations)).length := by
    rw [hrest, List.length_append]
    omega
  have htake : (appendedAddresses (extensions invocations)).take
      (appendedBefore (extensions invocations) currentSlot).length =
      appendedBefore (extensions invocations) currentSlot := by
    rw [hrest]
    exact List.take_left' rfl
  refine ⟨hlen, fun indexes => ?_⟩
  rw [AddressLookupTable.lookup_of_getActiveAddressesLen hlen hle, htake]

/-- Two extensions in slot 5 and one in slot 7, then a deactivation in slot 8. -/
def twoSlotRun : List Invocation :=
  [⟨.extendLookupTable [⟨1⟩, ⟨2⟩], ⟨9⟩, true, 5⟩, ⟨.extendLookupTable [⟨3⟩], ⟨9⟩, true, 5⟩,
    ⟨.extendLookupTable [⟨4⟩], ⟨9⟩, true, 7⟩, ⟨.deactivateLookupTable, ⟨9⟩, true, 8⟩]

theorem lookup_table_extensions_visible_two_slots :
    let data := metaBytes ⟨8, 7, 3, some ⟨9⟩, 0⟩ ++ [⟨1⟩, ⟨2⟩, ⟨3⟩, ⟨4⟩].flatMap Pubkey.toBytes
    createLookupTable ⟨9⟩ = .ok (metaBytes (.new ⟨9⟩)) ∧
      run (metaBytes (.new ⟨9⟩)) twoSlotRun = .ok data ∧
      ∃ table, deserialize data = .ok table ∧
        table.addresses = appendedAddresses (extensions twoSlotRun) ∧
        table.addresses.length ≤ LOOKUP_TABLE_MAX_ADDRESSES ∧
        ∀ currentSlot slotHashes, (∀ ext ∈ extensions twoSlotRun, ext.1 ≤ currentSlot) →
          table.tableMeta.isActive currentSlot slotHashes = true →
          table.getActiveAddressesLen currentSlot slotHashes =
              .ok (appendedBefore (extensions twoSlotRun) currentSlot).length ∧
          ∀ indexes, table.lookup currentSlot indexes slotHashes =
            some (if ∀ idx ∈ indexes,
                idx < (appendedBefore (extensions twoSlotRun) currentSlot).length then
              .ok (indexes.map fun idx =>
                (appendedBefore (extensions twoSlotRun) currentSlot).getD idx default)
            else .error .invalidLookupIndex) :=
  have hcreate : createLookupTable ⟨9⟩ = .ok (metaBytes (.new ⟨9⟩)) := by decide +kernel
  have hrun : run (metaBytes (.new ⟨9⟩)) twoSlotRun =
      .ok (metaBytes ⟨8, 7, 3, some ⟨9⟩, 0⟩ ++ [⟨1⟩, ⟨2⟩, ⟨3⟩, ⟨4⟩].flatMap Pubkey.toBytes) := by
    decide +kernel
  ⟨hcreate, hrun, lookup_table_extensions_visible ⟨9⟩ twoSlotRun _ _ hcreate hrun (by decide)
    (by decide)⟩

end Agave.AddressLookupTableProgram
