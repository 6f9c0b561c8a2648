import Agave.Lib.AssocList
import Agave.Lib.Traverse
import Agave.Sdk.Transaction
import Agave.Sdk.WriteLocks

/-!
# Compiling a v0 message

`v0::Message::try_compile` (`sdk/program/src/message/versions/v0/mod.rs`) compiles instructions
for a payer against a list of address lookup tables. `CompiledKeys::compile` merges the marks of
every key the instructions name; each table in turn drains from the map the keys it holds that
are neither signers nor invoked, the writable ones first (`try_extract_table_lookup`); the keys
left are the static keys, grouped by their marks (`try_into_message_components`); and the
instructions are compiled against the static keys followed by every drained writable and then
every drained read-only key (`AccountKeys::try_compile_instructions`).

`try_compile_faithful` says what a compiled message is. Its keys, with the addresses its lookups
select from the tables they were drained from, are distinct, start with the payer and are
exactly the keys the instructions name; every compiled instruction decodes through them to the
instruction it came from; a key sits among the signers, and in a writable part of the layout,
exactly when the payer or a meta makes it a signer, or writable; no program and no signer is
loaded from a table; and the message passes `sanitize` unless the payer is invoked.

As in the legacy model, the `BTreeMap` of `compile` is the list of its entries in key order, so
the keys of each kind come out in the source's order.
-/

namespace Agave

/-- `AddressLookupTableAccount`: a lookup table's address and the addresses it holds. -/
structure Sdk.AddressLookupTableAccount where
  key : Pubkey
  addresses : List Pubkey
  deriving DecidableEq, Repr

namespace CompiledKeys

/-- One turn of the loop of `try_drain_keys_found_in_lookup_table`: a search key that the table
holds is drained, with the index of its first occurrence, which must fit a `u8`. -/
def drainKey (lookupTableAddresses : List Pubkey) (drained : List UInt8 × List Pubkey)
    (searchKey : Pubkey) : Except CompileError (List UInt8 × List Pubkey) :=
  match lookupTableAddresses.findIdx? (· == searchKey) with
  | some keyIndex =>
    if keyIndex ≤ 255 then .ok (drained.1 ++ [keyIndex.toUInt8], drained.2 ++ [searchKey])
    else .error .addressTableLookupIndexOverflow
  | none => .ok drained

/-- `key_meta_map.remove_entry(key)`. -/
def removeEntry (map : List (Pubkey × CompiledKeyMeta)) (key : Pubkey) :
    List (Pubkey × CompiledKeyMeta) :=
  map.filter fun entry => entry.1 != key

/-- `try_drain_keys_found_in_lookup_table`: the keys whose marks pass the filter and that the
table holds, with their indexes in the table, are taken out of the map. -/
def tryDrainKeysFoundInLookupTable (c : CompiledKeys) (lookupTableAddresses : List Pubkey)
    (keyMetaFilter : CompiledKeyMeta → Bool) :
    Except CompileError (CompiledKeys × List UInt8 × List Pubkey) := do
  let (lookupTableIndexes, drainedKeys) ←
    (keysWith keyMetaFilter c.keyMetaMap).foldlM (drainKey lookupTableAddresses) ([], [])
  pure (⟨c.payer, drainedKeys.foldl removeEntry c.keyMetaMap⟩, lookupTableIndexes, drainedKeys)

/-- `try_extract_table_lookup`: the writable keys the table holds, then the read-only ones, and
no lookup when it holds neither. -/
def tryExtractTableLookup (c : CompiledKeys)
    (lookupTableAccount : Sdk.AddressLookupTableAccount) :
    Except CompileError
      (CompiledKeys × Option (Sdk.MessageAddressTableLookup × Sdk.LoadedAddresses)) := do
  let (c, writableIndexes, drainedWritableKeys) ←
    c.tryDrainKeysFoundInLookupTable lookupTableAccount.addresses
      fun keyMeta => !keyMeta.isSigner && !keyMeta.isInvoked && keyMeta.isWritable
  let (c, readonlyIndexes, drainedReadonlyKeys) ←
    c.tryDrainKeysFoundInLookupTable lookupTableAccount.addresses
      fun keyMeta => !keyMeta.isSigner && !keyMeta.isInvoked && !keyMeta.isWritable
  if writableIndexes.isEmpty && readonlyIndexes.isEmpty then pure (c, none)
  else pure (c, some (⟨lookupTableAccount.key, writableIndexes, readonlyIndexes⟩,
    ⟨drainedWritableKeys, drainedReadonlyKeys⟩))

end CompiledKeys

namespace Sdk

namespace AccountKeys

/-- One turn of the first loop of `try_compile_instructions`: the key's index, which must fit a
`u8`, is inserted in the map, over any earlier index of the same key. -/
def insertIndex (accountIndexMap : Pubkey → Option UInt8) (entry : Pubkey × Nat) :
    Except CompileError (Pubkey → Option UInt8) := do
  let index ← CompiledKeys.tryIntoU8 entry.2
  pure fun key => if key = entry.1 then some index else accountIndexMap key

/-- The `get_account_index` closure of `try_compile_instructions`. -/
def getAccountIndex (accountIndexMap : Pubkey → Option UInt8) (key : Pubkey) :
    Except CompileError UInt8 :=
  match accountIndexMap key with
  | some index => .ok index
  | none => .error (.unknownInstructionKey key)

/-- The compilation of one instruction in `try_compile_instructions`: its accounts, then its
program id. -/
def compileInstruction (accountIndexMap : Pubkey → Option UInt8) (ix : Instruction) :
    Except CompileError CompiledInstruction := do
  let accounts ← ix.accounts.mapM fun accountMeta =>
    getAccountIndex accountIndexMap accountMeta.pubkey
  let programIdIndex ← getAccountIndex accountIndexMap ix.programId
  pure ⟨programIdIndex, accounts, ix.data⟩

/-- `AccountKeys::try_compile_instructions`. -/
def tryCompileInstructions (accountKeys : List Pubkey) (instructions : List Instruction) :
    Except CompileError (List CompiledInstruction) := do
  let accountIndexMap ← accountKeys.zipIdx.foldlM insertIndex fun _ => none
  instructions.mapM (compileInstruction accountIndexMap)

end AccountKeys

/-- `LoadedAddresses::from_iter`: the writable addresses of every lookup, then the read-only
ones. -/
def LoadedAddresses.fromIter (loadedAddressesList : List LoadedAddresses) : LoadedAddresses :=
  ⟨(loadedAddressesList.map (·.writable)).flatten, (loadedAddressesList.map (·.readonly)).flatten⟩

/-- One turn of the loop of `try_compile` over the tables: a lookup that drains some key is kept,
with the addresses it drained. -/
def extractTableLookup
    (state : CompiledKeys × List (MessageAddressTableLookup × LoadedAddresses))
    (lookupTableAccount : AddressLookupTableAccount) :
    Except CompileError (CompiledKeys × List (MessageAddressTableLookup × LoadedAddresses)) := do
  let (compiledKeys, extracted) := state
  let (compiledKeys, found) ← compiledKeys.tryExtractTableLookup lookupTableAccount
  pure (compiledKeys, extracted ++ found.toList)

/-- `v0::Message::try_compile`; the recent blockhash is left out, as in `V0.Message`. -/
def V0.Message.tryCompile (payer : Pubkey) (instructions : List Instruction)
    (addressLookupTableAccounts : List AddressLookupTableAccount) :
    Except CompileError V0.Message := do
  let compiledKeys := CompiledKeys.compile instructions (some payer)
  let (compiledKeys, extracted) ←
    addressLookupTableAccounts.foldlM extractTableLookup (compiledKeys, [])
  let (header, staticKeys) ← compiledKeys.tryIntoMessageComponents
  let dynamicKeys := LoadedAddresses.fromIter (extracted.map (·.2))
  let instructions ← AccountKeys.tryCompileInstructions
    (AccountKeys.new staticKeys (some dynamicKeys)) instructions
  pure ⟨header, staticKeys, instructions, extracted.map (·.1)⟩

end Sdk

/-! ## The specification -/

/-- Some instruction marks `k` writable in one of its account metas. -/
def IsWritableKey (instructions : List Instruction) (k : Pubkey) : Prop :=
  ∃ ix ∈ instructions, ∃ accountMeta ∈ ix.accounts,
    accountMeta.pubkey = k ∧ accountMeta.isWritable = true

/-- Some instruction invokes `k`. -/
def IsProgramId (instructions : List Instruction) (k : Pubkey) : Prop :=
  ∃ ix ∈ instructions, ix.programId = k

/-- Some instruction names `k`, as its program or in one of its account metas. -/
def IsNamedKey (instructions : List Instruction) (k : Pubkey) : Prop :=
  ∃ ix ∈ instructions, ix.programId = k ∨ ∃ accountMeta ∈ ix.accounts, accountMeta.pubkey = k

/-- A compiled instruction decodes through the keys to an instruction: to its program id, its
accounts' keys in order, and its data. -/
def Decodes (accountKeys : List Pubkey) (ci : CompiledInstruction) (ix : Instruction) : Prop :=
  accountKeys[ci.programIdIndex.toNat]? = some ix.programId ∧
    ci.accounts.map (fun i => accountKeys[i.toNat]?) =
      ix.accounts.map (fun accountMeta => some accountMeta.pubkey) ∧
    ci.data = ix.data

/-! ## The map of `compile`

Every update of `compile` or-s a fixed set of marks into the entry of a key: `compile` is a fold
of such marks over the keys the instructions name, the payer last. -/

namespace CompiledKeyMeta

/-- Two sets of marks or-ed together, as `|=` does. -/
def merge (a b : CompiledKeyMeta) : CompiledKeyMeta :=
  ⟨a.isSigner || b.isSigner, a.isWritable || b.isWritable, a.isInvoked || b.isInvoked⟩

@[simp] theorem isSigner_merge (a b : CompiledKeyMeta) :
    (a.merge b).isSigner = (a.isSigner || b.isSigner) := rfl

@[simp] theorem isWritable_merge (a b : CompiledKeyMeta) :
    (a.merge b).isWritable = (a.isWritable || b.isWritable) := rfl

@[simp] theorem isInvoked_merge (a b : CompiledKeyMeta) :
    (a.merge b).isInvoked = (a.isInvoked || b.isInvoked) := rfl

end CompiledKeyMeta

namespace CompiledKeys

/-- One mark of `compile`: the marks or-ed into the entry of the key. -/
def markKey (map : List (Pubkey × CompiledKeyMeta)) (keyMark : Pubkey × CompiledKeyMeta) :
    List (Pubkey × CompiledKeyMeta) :=
  entryModify keyMark.1 (·.merge keyMark.2) map

/-- The marks an instruction gives: its program id invoked, then each account meta's. -/
def instructionMarks (ix : Instruction) : List (Pubkey × CompiledKeyMeta) :=
  (ix.programId, ⟨false, false, true⟩) :: ix.accounts.map fun accountMeta =>
    (accountMeta.pubkey, ⟨accountMeta.isSigner, accountMeta.isWritable, false⟩)

/-- The marks of `compile`: those of each instruction, then the payer a writable signer. -/
def compileMarks (instructions : List Instruction) (payer : Option Pubkey) :
    List (Pubkey × CompiledKeyMeta) :=
  instructions.flatMap instructionMarks ++
    payer.toList.map fun payer => (payer, ⟨true, true, false⟩)

theorem markAccount_eq (map : List (Pubkey × CompiledKeyMeta)) (accountMeta : AccountMeta) :
    markAccount map accountMeta =
      markKey map (accountMeta.pubkey, ⟨accountMeta.isSigner, accountMeta.isWritable, false⟩) := by
  unfold markAccount markKey
  congr
  funext keyMeta
  simp only [CompiledKeyMeta.merge, Bool.or_false]

theorem markInstruction_eq (map : List (Pubkey × CompiledKeyMeta)) (ix : Instruction) :
    markInstruction map ix = (instructionMarks ix).foldl markKey map := by
  have hinvoked : (fun keyMeta : CompiledKeyMeta => { keyMeta with isInvoked := true }) =
      (·.merge ⟨false, false, true⟩) := by
    funext keyMeta
    simp only [CompiledKeyMeta.merge, Bool.or_false, Bool.or_true]
  have haccounts : markAccount = fun map (accountMeta : AccountMeta) =>
      markKey map (accountMeta.pubkey, ⟨accountMeta.isSigner, accountMeta.isWritable, false⟩) := by
    funext map accountMeta
    exact markAccount_eq map accountMeta
  unfold markInstruction instructionMarks
  rw [List.foldl_cons, List.foldl_map, hinvoked, haccounts]
  rfl

/-- `compile` folds its marks into the empty map. -/
theorem keyMetaMap_compile (instructions : List Instruction) (payer : Option Pubkey) :
    (compile instructions payer).keyMetaMap =
      (compileMarks instructions payer).foldl markKey [] := by
  have hpayer : (fun keyMeta : CompiledKeyMeta =>
      { keyMeta with isSigner := true, isWritable := true }) = (·.merge ⟨true, true, false⟩) := by
    funext keyMeta
    simp only [CompiledKeyMeta.merge, Bool.or_false, Bool.or_true]
  have hinstructions : ∀ map, instructions.foldl markInstruction map =
      (instructions.flatMap instructionMarks).foldl markKey map := by
    induction instructions with
    | nil => intro map; rfl
    | cons ix rest ih =>
      intro map
      rw [List.foldl_cons, List.flatMap_cons, List.foldl_append, markInstruction_eq, ih]
  unfold compile compileMarks
  rw [List.foldl_append, ← hinstructions]
  cases payer with
  | none => rfl
  | some payer =>
    show entryModify payer _ _ = markKey _ _
    rw [hpayer]
    rfl

section Marks

variable {k : Pubkey}

theorem Sorted.foldl_markKey : ∀ (keyMarks : List (Pubkey × CompiledKeyMeta))
    {map : List (Pubkey × CompiledKeyMeta)}, Sorted map → Sorted (keyMarks.foldl markKey map)
  | [], _, h => h
  | _ :: rest, _, h => Sorted.foldl_markKey rest (h.entryModify _ _)

/-- A key has an entry after the marks when it had one or some mark is its. -/
theorem mem_keys_foldl_markKey : ∀ (keyMarks : List (Pubkey × CompiledKeyMeta))
    (map : List (Pubkey × CompiledKeyMeta)),
      k ∈ (keyMarks.foldl markKey map).map Prod.fst ↔
        k ∈ map.map Prod.fst ∨ ∃ keyMeta, (k, keyMeta) ∈ keyMarks
  | [], map => by simp
  | (key, keyMeta) :: rest, map => by
    rw [List.foldl_cons, mem_keys_foldl_markKey rest, markKey, mem_keys_entryModify]
    simp only [List.mem_cons, Prod.mk.injEq, exists_or, exists_and_left, exists_eq, and_true,
      or_assoc]

/-- A mark that or-s into a flag: the flag of an entry after the marks is set exactly when it was
set before or some mark of the key sets it. -/
theorem flag_of_get?_foldl_markKey (flag : CompiledKeyMeta → Bool)
    (hmerge : ∀ a b, flag (a.merge b) = (flag a || flag b)) (hdefault : flag default = false) :
    ∀ (keyMarks : List (Pubkey × CompiledKeyMeta)) (map : List (Pubkey × CompiledKeyMeta)),
      Sorted map → ∀ keyMeta : CompiledKeyMeta,
      AssocList.get? k (keyMarks.foldl markKey map) = some keyMeta →
      (flag keyMeta = true ↔ (∃ old, AssocList.get? k map = some old ∧ flag old = true) ∨
        ∃ mark, (k, mark) ∈ keyMarks ∧ flag mark = true)
  | [], map, _, keyMeta, h => by
    rw [List.foldl_nil] at h
    simp [h]
  | (key, mark) :: rest, map, hs, keyMeta, h => by
    rw [List.foldl_cons] at h
    rw [flag_of_get?_foldl_markKey flag hmerge hdefault rest _ (hs.entryModify _ _) keyMeta h,
      get?_entryModify _ _ _ _ hs]
    simp only [List.mem_cons, Prod.mk.injEq]
    by_cases hk : k = key
    · subst hk
      -- the mark of the key joins what the entry had
      have hjoin : flag (((AssocList.get? k map).getD default).merge mark) = true ↔
          (∃ old, AssocList.get? k map = some old ∧ flag old = true) ∨ flag mark = true := by
        rw [hmerge, Bool.or_eq_true]
        cases AssocList.get? k map <;> simp [hdefault]
      simp only [if_true, Option.some.injEq, exists_eq_left', hjoin, true_and, or_and_right,
        exists_or, exists_eq_left, or_assoc]
    · simp only [hk, if_false, false_and, false_or]

end Marks

section Compiled

variable {instructions : List Instruction} {payer k : Pubkey}

/-- What the marks of `compile` give a key: an instruction invokes it, or one of its metas marks
it, or it is the payer. -/
theorem exists_compileMarks_iff (P : CompiledKeyMeta → Prop) :
    (∃ mark, (k, mark) ∈ compileMarks instructions (some payer) ∧ P mark) ↔
      (∃ ix ∈ instructions, (ix.programId = k ∧ P ⟨false, false, true⟩) ∨
        ∃ accountMeta ∈ ix.accounts, accountMeta.pubkey = k ∧
          P ⟨accountMeta.isSigner, accountMeta.isWritable, false⟩) ∨
      (payer = k ∧ P ⟨true, true, false⟩) := by
  simp only [compileMarks, instructionMarks, Option.toList_some, List.map_cons, List.map_nil,
    List.mem_append, List.mem_flatMap, List.mem_cons, List.mem_map, List.not_mem_nil, or_false,
    Prod.mk.injEq]
  constructor
  · rintro ⟨mark, (⟨ix, hix, ⟨rfl, rfl⟩ | ⟨accountMeta, haccount, rfl, rfl⟩⟩ | ⟨rfl, rfl⟩), hP⟩
    · exact Or.inl ⟨ix, hix, Or.inl ⟨rfl, hP⟩⟩
    · exact Or.inl ⟨ix, hix, Or.inr ⟨accountMeta, haccount, rfl, hP⟩⟩
    · exact Or.inr ⟨rfl, hP⟩
  · rintro (⟨ix, hix, ⟨rfl, hP⟩ | ⟨accountMeta, haccount, rfl, hP⟩⟩ | ⟨rfl, hP⟩)
    · exact ⟨_, Or.inl ⟨ix, hix, Or.inl ⟨rfl, rfl⟩⟩, hP⟩
    · exact ⟨_, Or.inl ⟨ix, hix, Or.inr ⟨accountMeta, haccount, rfl, rfl⟩⟩, hP⟩
    · exact ⟨_, Or.inr ⟨rfl, rfl⟩, hP⟩

theorem nodup_keys_compile :
    ((compile instructions (some payer)).keyMetaMap.map Prod.fst).Nodup := by
  rw [keyMetaMap_compile]
  exact (Sorted.foldl_markKey _ sorted_nil).nodup

/-- The map of `compile` has an entry for the payer and for every key an instruction names. -/
theorem mem_keys_compile :
    k ∈ (compile instructions (some payer)).keyMetaMap.map Prod.fst ↔
      k = payer ∨ IsNamedKey instructions k := by
  rw [keyMetaMap_compile, mem_keys_foldl_markKey]
  have h := @exists_compileMarks_iff instructions payer k fun _ => True
  simp only [and_true] at h
  rw [h]
  simp only [List.map_nil, List.not_mem_nil, false_or, IsNamedKey]
  exact or_comm.trans (or_congr_left eq_comm)

/-- The marks of an entry of `compile`: a signer, and writable, exactly when the payer or a meta
makes it so, and invoked exactly when an instruction invokes it. -/
theorem flags_of_mem_compile {keyMeta : CompiledKeyMeta}
    (h : (k, keyMeta) ∈ (compile instructions (some payer)).keyMetaMap) :
    (keyMeta.isSigner = true ↔ k = payer ∨ IsSignerKey instructions k) ∧
      (keyMeta.isWritable = true ↔ k = payer ∨ IsWritableKey instructions k) ∧
      (keyMeta.isInvoked = true ↔ IsProgramId instructions k) := by
  have hget := AssocList.get?_of_mem nodup_keys_compile h
  rw [keyMetaMap_compile] at hget
  refine ⟨?_, ?_, ?_⟩
  · rw [flag_of_get?_foldl_markKey _ CompiledKeyMeta.isSigner_merge rfl _ _ sorted_nil _ hget,
      exists_compileMarks_iff fun mark => mark.isSigner = true]
    simp only [AssocList.get?_nil, reduceCtorEq, false_and, exists_false, false_or,
      Bool.false_eq_true, and_false, and_true, IsSignerKey]
    exact or_comm.trans (or_congr_left eq_comm)
  · rw [flag_of_get?_foldl_markKey _ CompiledKeyMeta.isWritable_merge rfl _ _ sorted_nil _ hget,
      exists_compileMarks_iff fun mark => mark.isWritable = true]
    simp only [AssocList.get?_nil, reduceCtorEq, false_and, exists_false, false_or,
      Bool.false_eq_true, and_false, and_true, IsWritableKey]
    exact or_comm.trans (or_congr_left eq_comm)
  · rw [flag_of_get?_foldl_markKey _ CompiledKeyMeta.isInvoked_merge rfl _ _ sorted_nil _ hget,
      exists_compileMarks_iff fun mark => mark.isInvoked = true]
    simp only [AssocList.get?_nil, reduceCtorEq, false_and, exists_false, false_or,
      Bool.false_eq_true, and_false, and_true, or_false, IsProgramId]

end Compiled

/-! ## Draining the keys a table holds -/

section Drain

variable {lookupTableAddresses : List Pubkey}

theorem keysWith_eq (p : CompiledKeyMeta → Bool) (map : List (Pubkey × CompiledKeyMeta)) :
    keysWith p map = (map.filter fun entry => p entry.2).map Prod.fst := by
  induction map with
  | nil => rfl
  | cons entry rest ih =>
    obtain ⟨k, keyMeta⟩ := entry
    unfold keysWith at ih ⊢
    rw [List.filterMap_cons, List.filter_cons]
    cases hp : p keyMeta <;> simp [hp, ih]

theorem mem_keysWith_iff {p : CompiledKeyMeta → Bool} {map : List (Pubkey × CompiledKeyMeta)}
    {k : Pubkey} : k ∈ keysWith p map ↔ ∃ keyMeta, (k, keyMeta) ∈ map ∧ p keyMeta = true := by
  rw [keysWith_eq]
  simp

/-- Removing the drained keys one by one filters them out. -/
theorem foldl_removeEntry : ∀ (drained : List Pubkey) (map : List (Pubkey × CompiledKeyMeta)),
    drained.foldl removeEntry map = map.filter fun entry => entry.1 ∉ drained
  | [], map => by simp
  | key :: rest, map => by
    rw [List.foldl_cons, foldl_removeEntry rest, removeEntry, List.filter_filter]
    congr 1
    funext entry
    by_cases hkey : entry.1 = key <;> by_cases hrest : entry.1 ∈ rest <;> simp [hkey, hrest]

/-- The search loop drains, in order, the search keys the table holds, each with the index where
the table holds it. -/
theorem foldlM_drainKey : ∀ (searchKeys : List Pubkey) (drained result : List UInt8 × List Pubkey),
    List.Forall₂ (fun i k => lookupTableAddresses[i.toNat]? = some k) drained.1 drained.2 →
    searchKeys.foldlM (drainKey lookupTableAddresses) drained = .ok result →
    List.Forall₂ (fun i k => lookupTableAddresses[i.toNat]? = some k) result.1 result.2 ∧
      result.2 = drained.2 ++ searchKeys.filter (· ∈ lookupTableAddresses)
  | [], drained, result, hdrained, h => by
    cases h
    exact ⟨hdrained, by simp⟩
  | searchKey :: rest, drained, result, hdrained, h => by
    rw [List.foldlM_cons] at h
    obtain ⟨next, hstep, hrest⟩ := except_bind_eq_ok h
    unfold drainKey at hstep
    split at hstep
    · rename_i keyIndex hfound
      split at hstep
      · -- the table holds the key first at `keyIndex`, which fits a `u8`
        rename_i hfits
        cases hstep
        obtain ⟨hlt, hat, -⟩ := List.findIdx?_eq_some_iff_getElem.mp hfound
        have hkey : lookupTableAddresses[keyIndex.toUInt8.toNat]? = some searchKey := by
          rw [Nat.toUInt8_eq, UInt8.toNat_ofNat_of_lt' (by unfold UInt8.size; omega),
            List.getElem?_eq_getElem hlt, eq_of_beq hat]
        have hmem : searchKey ∈ lookupTableAddresses := List.mem_of_getElem? hkey
        obtain ⟨hpairs, hkeys⟩ := foldlM_drainKey rest _ result
          (List.rel_append hdrained (.cons hkey .nil)) hrest
        refine ⟨hpairs, ?_⟩
        rw [hkeys]
        simp only [List.filter_cons, hmem, decide_true, if_true, List.append_assoc,
          List.singleton_append]
      · cases hstep
    · -- the table does not hold the key
      rename_i hnone
      cases hstep
      have hnmem : searchKey ∉ lookupTableAddresses := by
        intro hmem
        have := List.findIdx?_eq_none_iff.mp hnone searchKey hmem
        simp at this
      obtain ⟨hpairs, hkeys⟩ := foldlM_drainKey rest drained result hdrained hrest
      exact ⟨hpairs, by rw [hkeys, List.filter_cons_of_neg (by simpa using hnmem)]⟩

/-- `try_drain_keys_found_in_lookup_table` drains the keys whose marks pass and that the table
holds, with the indexes where it holds them. -/
theorem tryDrainKeysFoundInLookupTable_eq_ok {c c' : CompiledKeys}
    {keyMetaFilter : CompiledKeyMeta → Bool} {indexes : List UInt8} {drained : List Pubkey}
    (h : c.tryDrainKeysFoundInLookupTable lookupTableAddresses keyMetaFilter =
      .ok (c', indexes, drained)) :
    List.Forall₂ (fun i k => lookupTableAddresses[i.toNat]? = some k) indexes drained ∧
      drained = (keysWith keyMetaFilter c.keyMetaMap).filter (· ∈ lookupTableAddresses) ∧
      c' = ⟨c.payer, c.keyMetaMap.filter fun entry => entry.1 ∉ drained⟩ := by
  unfold tryDrainKeysFoundInLookupTable at h
  obtain ⟨⟨indexes', drained'⟩, hfold, h⟩ := except_bind_eq_ok h
  cases h
  obtain ⟨hpairs, hkeys⟩ := foldlM_drainKey _ _ _ .nil hfold
  exact ⟨hpairs, by simpa using hkeys, by rw [foldl_removeEntry]⟩

/-- Draining splits the keys of a map with distinct keys into the keys left and the keys
drained. -/
theorem keys_perm_drain {map : List (Pubkey × CompiledKeyMeta)}
    (hnodup : (map.map Prod.fst).Nodup) (keyMetaFilter : CompiledKeyMeta → Bool) :
    (map.map Prod.fst).Perm ((map.filter fun entry =>
        entry.1 ∉ (keysWith keyMetaFilter map).filter (· ∈ lookupTableAddresses)).map Prod.fst ++
      (keysWith keyMetaFilter map).filter (· ∈ lookupTableAddresses)) := by
  let drains : Pubkey × CompiledKeyMeta → Bool := fun entry =>
    keyMetaFilter entry.2 && decide (entry.1 ∈ lookupTableAddresses)
  have hdrained : (keysWith keyMetaFilter map).filter (· ∈ lookupTableAddresses) =
      (map.filter drains).map Prod.fst := by
    rw [keysWith_eq, List.filter_map, List.filter_filter]
    congr 2
    funext entry
    exact Bool.and_comm _ _
  -- on distinct keys, an entry's key is drained exactly when the entry is
  have hleft : (map.filter fun entry => entry.1 ∉ (map.filter drains).map Prod.fst) =
      map.filter fun entry => !drains entry := by
    apply List.filter_congr
    intro entry hentry
    cases hd : drains entry
    · simp only [Bool.not_false, decide_eq_true_eq, List.mem_map, List.mem_filter, not_exists,
        not_and]
      rintro other ⟨hother, hdrains⟩ hkey
      rw [List.inj_on_of_nodup_map hnodup hother hentry hkey, hd] at hdrains
      cases hdrains
    · simp only [Bool.not_true, decide_eq_false_iff_not, not_not]
      exact List.mem_map_of_mem (List.mem_filter.mpr ⟨hentry, hd⟩)
  rw [hdrained, hleft, ← List.map_append]
  exact ((List.perm_append_comm.trans (List.filter_append_perm drains map)).map Prod.fst).symm

end Drain

/-! ## The static keys -/

section Static

variable {c : CompiledKeys} {header : Sdk.MessageHeader} {staticKeys : List Pubkey}

theorem keysWith_cons (p : CompiledKeyMeta → Bool) (k : Pubkey) (keyMeta : CompiledKeyMeta)
    (rest : List (Pubkey × CompiledKeyMeta)) :
    keysWith p ((k, keyMeta) :: rest) =
      if p keyMeta then k :: keysWith p rest else keysWith p rest := by
  unfold keysWith
  rw [List.filterMap_cons]
  cases hp : p keyMeta <;> simp [hp]

/-- The four kinds of `try_into_message_components` split the keys of a map. -/
theorem keys_perm_keysWith : ∀ map : List (Pubkey × CompiledKeyMeta),
    (map.map Prod.fst).Perm (keysWith (fun m => m.isSigner && m.isWritable) map ++
      keysWith (fun m => m.isSigner && !m.isWritable) map ++
      keysWith (fun m => !m.isSigner && m.isWritable) map ++
      keysWith (fun m => !m.isSigner && !m.isWritable) map)
  | [] => List.Perm.refl _
  | (k, keyMeta) :: rest => by
    have ih := List.perm_iff_count.mp (keys_perm_keysWith rest)
    rw [List.perm_iff_count]
    intro a
    have hrest := ih a
    simp only [List.count_append] at hrest
    -- the entry goes to the one kind its marks choose
    rcases keyMeta with ⟨_ | _, _ | _, _⟩ <;>
      simp [keysWith_cons, List.count_cons] <;> omega

/-- `try_into_message_components` lists the payer and the writable signers, the read-only
signers, the writable and then the read-only non-signers of the map less the payer, and its
header counts them. -/
theorem tryIntoMessageComponents_eq_ok (h : c.tryIntoMessageComponents = .ok (header, staticKeys)) :
    staticKeys = c.payer.toList ++
        keysWith (fun m => m.isSigner && m.isWritable) c.keyMetaMapWithoutPayer ++
        keysWith (fun m => m.isSigner && !m.isWritable) c.keyMetaMapWithoutPayer ++
        keysWith (fun m => !m.isSigner && m.isWritable) c.keyMetaMapWithoutPayer ++
        keysWith (fun m => !m.isSigner && !m.isWritable) c.keyMetaMapWithoutPayer ∧
      header.numRequiredSignatures.toNat = (c.payer.toList ++
        keysWith (fun m => m.isSigner && m.isWritable) c.keyMetaMapWithoutPayer).length +
        (keysWith (fun m => m.isSigner && !m.isWritable) c.keyMetaMapWithoutPayer).length ∧
      header.numReadonlySignedAccounts.toNat =
        (keysWith (fun m => m.isSigner && !m.isWritable) c.keyMetaMapWithoutPayer).length ∧
      header.numReadonlyUnsignedAccounts.toNat =
        (keysWith (fun m => !m.isSigner && !m.isWritable) c.keyMetaMapWithoutPayer).length := by
  unfold tryIntoMessageComponents at h
  obtain ⟨numRequiredSignatures, hsigners, h⟩ := except_bind_eq_ok h
  obtain ⟨numReadonlySigned, hreadonlySigned, h⟩ := except_bind_eq_ok h
  obtain ⟨numReadonlyUnsigned, hreadonlyUnsigned, h⟩ := except_bind_eq_ok h
  cases h
  -- the sum of the signers fits a `u8`, so it did not saturate
  have hlen := tryIntoU8_eq_ok hsigners
  have hbound := numRequiredSignatures.toNat_lt
  unfold saturatingAdd USIZE_MAX at hlen
  exact ⟨rfl, by dsimp only; omega, tryIntoU8_eq_ok hreadonlySigned,
    tryIntoU8_eq_ok hreadonlyUnsigned⟩

/-- The static keys are the keys of the map, when the payer has its entry there. -/
theorem staticKeys_perm {payer : Pubkey} (hpayer : c.payer = some payer)
    (hnodup : (c.keyMetaMap.map Prod.fst).Nodup) (hmem : payer ∈ c.keyMetaMap.map Prod.fst)
    (h : c.tryIntoMessageComponents = .ok (header, staticKeys)) :
    staticKeys.Perm (c.keyMetaMap.map Prod.fst) := by
  obtain ⟨hkeys, -⟩ := tryIntoMessageComponents_eq_ok h
  have hpart := List.perm_iff_count.mp (keys_perm_keysWith c.keyMetaMapWithoutPayer)
  have hwithout : c.keyMetaMapWithoutPayer.map Prod.fst =
      (c.keyMetaMap.map Prod.fst).filter (· != payer) := by
    rw [keyMetaMapWithoutPayer, hpayer, List.filter_map]
    rfl
  rw [hkeys, hpayer, List.perm_iff_count]
  intro a
  have ha := hpart a
  rw [hwithout] at ha
  simp only [Option.toList_some, List.count_append] at ha ⊢
  by_cases hpa : payer = a
  · -- the payer's one entry is the head of the static keys
    subst hpa
    have hone := List.count_eq_one_of_mem hnodup hmem
    have hzero : List.count payer ((c.keyMetaMap.map Prod.fst).filter (· != payer)) = 0 :=
      List.count_eq_zero.mpr (by simp)
    rw [List.count_singleton_self]
    omega
  · rw [List.count_filter (by simpa using Ne.symm hpa)] at ha
    rw [List.count_singleton, beq_false_of_ne hpa]
    simp only [Bool.false_eq_true, if_false]
    omega

end Static

end CompiledKeys

namespace Sdk

/-! ## Compiling the instructions -/

namespace AccountKeys

theorem getAccountIndex_eq_ok {accountIndexMap : Pubkey → Option UInt8} {key : Pubkey}
    {index : UInt8} (h : getAccountIndex accountIndexMap key = .ok index) :
    accountIndexMap key = some index := by
  unfold getAccountIndex at h
  split at h
  · rename_i hsome
    cases h
    exact hsome
  · cases h

/-- The index map of `try_compile_instructions`: every index fits a `u8`, and the index of a key
is one of its positions. -/
theorem foldlM_insertIndex {entries : List (Pubkey × Nat)} {accountIndexMap : Pubkey → Option UInt8}
    (h : entries.foldlM insertIndex (fun _ => none) = .ok accountIndexMap) :
    (∀ entry ∈ entries, entry.2 ≤ 255) ∧
      ∀ key index, accountIndexMap key = some index → (key, index.toNat) ∈ entries := by
  have hstep : ∀ (done : List (Pubkey × Nat)) (entry : Pubkey × Nat)
      (map map' : Pubkey → Option UInt8),
      ((∀ e ∈ done, e.2 ≤ 255) ∧ ∀ key index, map key = some index → (key, index.toNat) ∈ done) →
      insertIndex map entry = .ok map' →
      (∀ e ∈ done ++ [entry], e.2 ≤ 255) ∧
        ∀ key index, map' key = some index → (key, index.toNat) ∈ done ++ [entry] := by
    rintro done entry map map' ⟨hfits, hmap⟩ hinsert
    unfold insertIndex at hinsert
    obtain ⟨index, hindex, hinsert⟩ := except_bind_eq_ok hinsert
    cases hinsert
    have hnat := CompiledKeys.tryIntoU8_eq_ok hindex
    refine ⟨fun e he => ?_, fun key i hi => ?_⟩
    · rcases List.mem_append.mp he with he | he
      · exact hfits e he
      · rw [List.mem_singleton] at he
        subst he
        have := index.toNat_lt
        omega
    · dsimp only at hi
      by_cases hkey : key = entry.1
      · rw [if_pos hkey, Option.some.injEq] at hi
        subst hi
        rw [hkey, hnat]
        exact List.mem_append_right _ (List.mem_singleton_self _)
      · rw [if_neg hkey] at hi
        exact List.mem_append_left _ (hmap key i hi)
  exact Traverse.foldlM_inv insertIndex _ hstep entries [] _ _ ⟨nofun, fun _ _ h => by cases h⟩ h

/-- A compiled instruction decodes to its instruction when every index the map gives is the
position of its key. -/
theorem compileInstruction_decodes {accountKeys : List Pubkey}
    {accountIndexMap : Pubkey → Option UInt8}
    (hmap : ∀ key index, accountIndexMap key = some index → accountKeys[index.toNat]? = some key)
    {ix : Instruction} {ci : CompiledInstruction}
    (h : compileInstruction accountIndexMap ix = .ok ci) : Decodes accountKeys ci ix := by
  unfold compileInstruction at h
  obtain ⟨accounts, haccounts, h⟩ := except_bind_eq_ok h
  obtain ⟨programIdIndex, hprogramId, h⟩ := except_bind_eq_ok h
  cases h
  refine ⟨hmap _ _ (getAccountIndex_eq_ok hprogramId), ?_, rfl⟩
  exact Traverse.map_eq_map_of_forall₂ ((Traverse.forall₂_of_mapM_eq_ok _ _ _ haccounts).imp
    fun _ _ hi => hmap _ _ (getAccountIndex_eq_ok hi))

/-- `try_compile_instructions` succeeds only on at most 256 keys, and each compiled instruction
decodes to its instruction. -/
theorem tryCompileInstructions_eq_ok {accountKeys : List Pubkey} {instructions : List Instruction}
    {compiled : List CompiledInstruction}
    (h : tryCompileInstructions accountKeys instructions = .ok compiled) :
    accountKeys.length ≤ 256 ∧ List.Forall₂ (Decodes accountKeys) compiled instructions := by
  unfold tryCompileInstructions at h
  obtain ⟨accountIndexMap, hmap, hcompile⟩ := except_bind_eq_ok h
  obtain ⟨hfits, hindex⟩ := foldlM_insertIndex hmap
  have hdecode : ∀ key index, accountIndexMap key = some index →
      accountKeys[index.toNat]? = some key :=
    fun key index h => List.mem_zipIdx_iff_getElem?.mp (hindex key index h)
  refine ⟨?_, ?_⟩
  · -- a key at position 256 would need an index past `u8`
    by_contra hlong
    have hget : accountKeys[256]? = some accountKeys[256] := List.getElem?_eq_getElem (by omega)
    have := hfits (accountKeys[256], 256) (List.mem_zipIdx_iff_getElem?.mpr hget)
    simp at this
  · exact List.Forall₂.flip (R := fun ci ix => Decodes accountKeys ci ix)
      ((Traverse.forall₂_of_mapM_eq_ok _ _ _ hcompile).imp
        fun _ _ hix => compileInstruction_decodes hdecode hix)

end AccountKeys

/-! ## Extracting the lookups -/

/-- A lookup selects from a table the addresses it loads: it names the table, loads some key, and
the loaded writable and read-only addresses are the table's at its indexes. -/
structure Selects (table : AddressLookupTableAccount) (lookup : MessageAddressTableLookup)
    (loaded : LoadedAddresses) : Prop where
  accountKey : lookup.accountKey = table.key
  writable : List.Forall₂ (fun i k => table.addresses[i.toNat]? = some k)
    lookup.writableIndexes loaded.writable
  readonly : List.Forall₂ (fun i k => table.addresses[i.toNat]? = some k)
    lookup.readonlyIndexes loaded.readonly
  pos : 0 < lookup.writableIndexes.length + lookup.readonlyIndexes.length

/-- The addresses a lookup selects from a table: the table's addresses at its writable and at its
read-only indexes; none when an index is past the table's end. -/
def selectLookup (lookup : MessageAddressTableLookup) (table : AddressLookupTableAccount) :
    Option LoadedAddresses := do
  let writable ← lookup.writableIndexes.mapM fun i => table.addresses[i.toNat]?
  let readonly ← lookup.readonlyIndexes.mapM fun i => table.addresses[i.toNat]?
  pure ⟨writable, readonly⟩

/-- The addresses lookups select, the `i`-th from the `i`-th table: the writable ones of all the
lookups, then the read-only ones. -/
def selectAddresses (lookups : List MessageAddressTableLookup)
    (tables : List AddressLookupTableAccount) : Option LoadedAddresses :=
  ((lookups.zip tables).mapM fun pair => selectLookup pair.1 pair.2).map LoadedAddresses.fromIter

theorem selectLookup_of_selects {table : AddressLookupTableAccount}
    {lookup : MessageAddressTableLookup} {loaded : LoadedAddresses}
    (h : Selects table lookup loaded) : selectLookup lookup table = some loaded := by
  unfold selectLookup
  rw [(Traverse.mapM_eq_some_iff _ _ _).mpr h.writable,
    (Traverse.mapM_eq_some_iff _ _ _).mpr h.readonly]
  rfl

/-- Lookups that select what they loaded from tables, in order, select all the loaded addresses
together. -/
theorem selectAddresses_of_forall₂
    {extracted : List (MessageAddressTableLookup × LoadedAddresses)}
    {used : List AddressLookupTableAccount}
    (h : List.Forall₂ (fun entry table => Selects table entry.1 entry.2) extracted used) :
    selectAddresses (extracted.map (·.1)) used =
      some (LoadedAddresses.fromIter (extracted.map (·.2))) := by
  have hmapM : ((extracted.map (·.1)).zip used).mapM (fun pair => selectLookup pair.1 pair.2) =
      some (extracted.map (·.2)) := by
    induction h with
    | nil => rfl
    | cons hsel _ ih =>
      rw [List.map_cons, List.map_cons, List.zip_cons_cons, List.mapM_cons,
        selectLookup_of_selects hsel, ih]
      rfl
  unfold selectAddresses
  rw [hmapM]
  rfl

/-- `try_extract_table_lookup` takes out of the map the keys it files as writable and as read-only,
which were in the map with those marks, and the lookup it returns selects them from the table. -/
theorem tryExtractTableLookup_eq_ok {c c' : CompiledKeys} {table : AddressLookupTableAccount}
    {found : Option (MessageAddressTableLookup × LoadedAddresses)}
    (hnodup : (c.keyMetaMap.map Prod.fst).Nodup)
    (h : c.tryExtractTableLookup table = .ok (c', found)) :
    c'.payer = c.payer ∧ c'.keyMetaMap.Sublist c.keyMetaMap ∧
      (c.keyMetaMap.map Prod.fst).Perm (c'.keyMetaMap.map Prod.fst ++
        (found.toList.map (·.2.writable)).flatten ++ (found.toList.map (·.2.readonly)).flatten) ∧
      (∀ k ∈ (found.toList.map (·.2.writable)).flatten, ∃ keyMeta, (k, keyMeta) ∈ c.keyMetaMap ∧
        (!keyMeta.isSigner && !keyMeta.isInvoked && keyMeta.isWritable) = true) ∧
      (∀ k ∈ (found.toList.map (·.2.readonly)).flatten, ∃ keyMeta, (k, keyMeta) ∈ c.keyMetaMap ∧
        (!keyMeta.isSigner && !keyMeta.isInvoked && !keyMeta.isWritable) = true) ∧
      ∀ entry ∈ found, Selects table entry.1 entry.2 := by
  unfold CompiledKeys.tryExtractTableLookup at h
  obtain ⟨⟨c₁, writableIndexes, drainedWritable⟩, hdrain₁, h⟩ := except_bind_eq_ok h
  obtain ⟨⟨c₂, readonlyIndexes, drainedReadonly⟩, hdrain₂, h⟩ := except_bind_eq_ok h
  obtain ⟨hwritable, hdw, rfl⟩ := CompiledKeys.tryDrainKeysFoundInLookupTable_eq_ok hdrain₁
  obtain ⟨hreadonly, hdr, rfl⟩ := CompiledKeys.tryDrainKeysFoundInLookupTable_eq_ok hdrain₂
  have hnodup₁ := AssocList.nodup_keys_filter
    (fun entry => decide (entry.1 ∉ drainedWritable)) hnodup
  have hperm₁ := @CompiledKeys.keys_perm_drain table.addresses _ hnodup
    fun keyMeta => !keyMeta.isSigner && !keyMeta.isInvoked && keyMeta.isWritable
  have hperm₂ := @CompiledKeys.keys_perm_drain table.addresses _ hnodup₁
    fun keyMeta => !keyMeta.isSigner && !keyMeta.isInvoked && !keyMeta.isWritable
  rw [← hdw] at hperm₁
  rw [← hdr] at hperm₂
  -- the drained keys had their marks in the map
  have hmarks : ∀ {drained : List Pubkey} {p : CompiledKeyMeta → Bool}
      {map : List (Pubkey × CompiledKeyMeta)},
      drained = (CompiledKeys.keysWith p map).filter (· ∈ table.addresses) →
      ∀ k ∈ drained, ∃ keyMeta, (k, keyMeta) ∈ map ∧ p keyMeta = true := by
    rintro drained p map rfl k hk
    exact CompiledKeys.mem_keysWith_iff.mp (List.mem_filter.mp hk).1
  have hsub : ((c.keyMetaMap.filter fun entry => entry.1 ∉ drainedWritable).filter
      fun entry => entry.1 ∉ drainedReadonly).Sublist c.keyMetaMap :=
    List.filter_sublist.trans List.filter_sublist
  have hperm : (c.keyMetaMap.map Prod.fst).Perm
      ((((c.keyMetaMap.filter fun entry => entry.1 ∉ drainedWritable).filter
        fun entry => entry.1 ∉ drainedReadonly).map Prod.fst) ++ drainedWritable ++
          drainedReadonly) := by
    rw [List.perm_iff_count]
    intro a
    have h₁ := List.perm_iff_count.mp hperm₁ a
    have h₂ := List.perm_iff_count.mp hperm₂ a
    simp only [List.count_append] at h₁ h₂ ⊢
    omega
  dsimp only at h
  split at h
  · -- nothing found: both drains were empty
    rename_i hempty
    cases h
    simp only [Bool.and_eq_true, List.isEmpty_iff] at hempty
    obtain ⟨hw, hr⟩ := hempty
    subst hw hr
    rw [List.forall₂_nil_left_iff] at hwritable hreadonly
    subst hwritable hreadonly
    refine ⟨rfl, hsub, ?_, nofun, nofun, nofun⟩
    simpa only [Option.toList_none, List.map_nil, List.flatten_nil, List.append_nil] using hperm
  · -- a lookup: it selects what the two drains took
    rename_i hfound
    cases h
    simp only [Option.toList_some, List.map_cons, List.map_nil, List.flatten_cons,
      List.flatten_nil, List.append_nil]
    refine ⟨trivial, hsub, hperm, fun k hk => ?_, fun k hk => ?_, ?_⟩
    · exact hmarks hdw k hk
    · obtain ⟨keyMeta, hmem, hp⟩ := hmarks hdr k hk
      exact ⟨keyMeta, (List.mem_filter.mp hmem).1, hp⟩
    · intro entry hentry
      rw [Option.mem_def, Option.some.injEq] at hentry
      subst hentry
      refine ⟨rfl, hwritable, hreadonly, ?_⟩
      have hne : ¬(writableIndexes = [] ∧ readonlyIndexes = []) := by
        simpa [List.isEmpty_iff] using hfound
      rcases Nat.eq_zero_or_pos (writableIndexes.length + readonlyIndexes.length) with hzero | hpos
      · exact absurd ⟨List.eq_nil_of_length_eq_zero (by omega),
          List.eq_nil_of_length_eq_zero (by omega)⟩ hne
      · exact hpos

/-- What the tables folded so far leave of the map `compiled` of `compile`: a part of it whose keys,
with the drained writable and then read-only keys, are its keys; a drained key was neither a
signer nor invoked, and writable as its lookup files it; and the kept lookups select what they
drained from tables taken in order from those folded. -/
structure Drained (compiled : List (Pubkey × CompiledKeyMeta)) (payer : Option Pubkey)
    (tables : List AddressLookupTableAccount) (c : CompiledKeys)
    (extracted : List (MessageAddressTableLookup × LoadedAddresses)) : Prop where
  payer_eq : c.payer = payer
  sublist : c.keyMetaMap.Sublist compiled
  perm : (compiled.map Prod.fst).Perm (c.keyMetaMap.map Prod.fst ++
    (extracted.map (·.2.writable)).flatten ++ (extracted.map (·.2.readonly)).flatten)
  writable : ∀ k ∈ (extracted.map (·.2.writable)).flatten, ∃ keyMeta, (k, keyMeta) ∈ compiled ∧
    (!keyMeta.isSigner && !keyMeta.isInvoked && keyMeta.isWritable) = true
  readonly : ∀ k ∈ (extracted.map (·.2.readonly)).flatten, ∃ keyMeta, (k, keyMeta) ∈ compiled ∧
    (!keyMeta.isSigner && !keyMeta.isInvoked && !keyMeta.isWritable) = true
  used : ∃ used, used.Sublist tables ∧
    List.Forall₂ (fun entry table => Selects table entry.1 entry.2) extracted used

namespace Drained

variable {compiled : List (Pubkey × CompiledKeyMeta)} {payer : Option Pubkey}

theorem init (compiled : List (Pubkey × CompiledKeyMeta)) (payer : Option Pubkey) :
    Drained compiled payer [] ⟨payer, compiled⟩ [] :=
  ⟨rfl, List.Sublist.refl _, by simp, nofun, nofun, ⟨[], List.Sublist.refl _, .nil⟩⟩

/-- One table more: what it drains moves from the map to its lookup. -/
theorem extractTableLookup {done : List AddressLookupTableAccount} {c c' : CompiledKeys}
    {extracted extracted' : List (MessageAddressTableLookup × LoadedAddresses)}
    {table : AddressLookupTableAccount} (hnodup : (compiled.map Prod.fst).Nodup)
    (hinv : Drained compiled payer done c extracted)
    (h : Sdk.extractTableLookup (c, extracted) table = .ok (c', extracted')) :
    Drained compiled payer (done ++ [table]) c' extracted' := by
  unfold Sdk.extractTableLookup at h
  obtain ⟨⟨c₁, found⟩, hextract, h⟩ := except_bind_eq_ok h
  cases h
  have hnodupc : (c.keyMetaMap.map Prod.fst).Nodup := (hinv.sublist.map Prod.fst).nodup hnodup
  obtain ⟨hpayer, hsub, hperm, hw, hr, hsel⟩ := tryExtractTableLookup_eq_ok hnodupc hextract
  obtain ⟨used, hused, hforall⟩ := hinv.used
  refine ⟨hpayer.trans hinv.payer_eq, hsub.trans hinv.sublist, ?_, ?_, ?_, ?_⟩
  · rw [List.perm_iff_count]
    intro a
    have h₁ := List.perm_iff_count.mp hinv.perm a
    have h₂ := List.perm_iff_count.mp hperm a
    simp only [List.map_append, List.flatten_append, List.count_append] at h₁ h₂ ⊢
    omega
  · intro k hk
    rw [List.map_append, List.flatten_append] at hk
    rcases List.mem_append.mp hk with hk | hk
    · exact hinv.writable k hk
    · obtain ⟨keyMeta, hmem, hp⟩ := hw k hk
      exact ⟨keyMeta, hinv.sublist.subset hmem, hp⟩
  · intro k hk
    rw [List.map_append, List.flatten_append] at hk
    rcases List.mem_append.mp hk with hk | hk
    · exact hinv.readonly k hk
    · obtain ⟨keyMeta, hmem, hp⟩ := hr k hk
      exact ⟨keyMeta, hinv.sublist.subset hmem, hp⟩
  · cases found with
    | none =>
      refine ⟨used, hused.trans (List.sublist_append_left _ _), ?_⟩
      simpa only [Option.toList_none, List.append_nil] using hforall
    | some entry =>
      exact ⟨used ++ [table], hused.append (List.Sublist.refl _),
        List.rel_append hforall (.cons (hsel entry rfl) .nil)⟩

/-- The loop of `try_compile` over all the tables. -/
theorem foldlM_extractTableLookup {tables : List AddressLookupTableAccount} {c : CompiledKeys}
    {extracted : List (MessageAddressTableLookup × LoadedAddresses)}
    (hnodup : (compiled.map Prod.fst).Nodup)
    (h : tables.foldlM Sdk.extractTableLookup (⟨payer, compiled⟩, []) = .ok (c, extracted)) :
    Drained compiled payer tables c extracted :=
  Traverse.foldlM_inv Sdk.extractTableLookup
    (fun done state => Drained compiled payer done state.1 state.2)
    (fun _ _ _ _ hinv hstep => hinv.extractTableLookup hnodup hstep) tables [] _ _
    (init compiled payer) h

end Drained

/-! ## The layout of the keys

The keys of a compiled message are six runs: the payer and the writable signers, the read-only
signers, the writable and the read-only unsigned static keys, the loaded writable and the loaded
read-only keys. A position's run decides what the header says of its key. -/

section Layout

variable {α : Type} {S₁ S₂ S₃ S₄ W R : List α} {j : Nat} {k : α}

theorem mem_of_getElem?_middle {A B C : List α} (h : (A ++ B ++ C)[j]? = some k)
    (hlo : A.length ≤ j) (hhi : j < A.length + B.length) : k ∈ B := by
  rw [List.getElem?_append_left (by rw [List.length_append]; omega),
    List.getElem?_append_right hlo] at h
  exact List.mem_of_getElem? h

/-- The signers are the first two runs, the writable keys the first, third and fifth, and a
program sits among the static keys, when each run's keys have the flags of the run. -/
theorem layout_classify {Signer Writable Program : α → Prop}
    (h₁ : ∀ k ∈ S₁, Signer k ∧ Writable k) (h₂ : ∀ k ∈ S₂, Signer k ∧ ¬Writable k)
    (h₃ : ∀ k ∈ S₃, ¬Signer k ∧ Writable k) (h₄ : ∀ k ∈ S₄, ¬Signer k ∧ ¬Writable k)
    (hW : ∀ k ∈ W, ¬Signer k ∧ Writable k ∧ ¬Program k)
    (hR : ∀ k ∈ R, ¬Signer k ∧ ¬Writable k ∧ ¬Program k)
    (h : (S₁ ++ S₂ ++ S₃ ++ S₄ ++ W ++ R)[j]? = some k) :
    (j < S₁.length + S₂.length ↔ Signer k) ∧
      (j < S₁.length ∨
          (S₁.length + S₂.length ≤ j ∧ j < S₁.length + S₂.length + S₃.length) ∨
          (S₁.length + S₂.length + S₃.length + S₄.length ≤ j ∧
            j < S₁.length + S₂.length + S₃.length + S₄.length + W.length) ↔ Writable k) ∧
      (Program k → j < S₁.length + S₂.length + S₃.length + S₄.length) := by
  obtain ⟨hj, -⟩ := List.getElem?_eq_some_iff.mp h
  simp only [List.length_append] at hj
  -- `k` lies in the run of its position
  have hrun : ∀ A B C : List α, A ++ B ++ C = S₁ ++ S₂ ++ S₃ ++ S₄ ++ W ++ R →
      A.length ≤ j → j < A.length + B.length → k ∈ B :=
    fun A B C hsplit hlo hhi => mem_of_getElem?_middle (hsplit ▸ h) hlo hhi
  rcases Nat.lt_or_ge j S₁.length with hj₁ | hj₁
  · obtain ⟨hs, hw⟩ := h₁ k (hrun [] S₁ (S₂ ++ S₃ ++ S₄ ++ W ++ R)
      (by simp only [List.nil_append, List.append_assoc]) (Nat.zero_le _)
      (by rw [List.length_nil]; omega))
    exact ⟨iff_of_true (by omega) hs, iff_of_true (by omega) hw, fun _ => by omega⟩
  rcases Nat.lt_or_ge j (S₁.length + S₂.length) with hj₂ | hj₂
  · obtain ⟨hs, hw⟩ := h₂ k (hrun S₁ S₂ (S₃ ++ S₄ ++ W ++ R)
      (by simp only [List.append_assoc]) hj₁ hj₂)
    exact ⟨iff_of_true hj₂ hs, iff_of_false (by omega) hw, fun _ => by omega⟩
  rcases Nat.lt_or_ge j (S₁.length + S₂.length + S₃.length) with hj₃ | hj₃
  · obtain ⟨hs, hw⟩ := h₃ k (hrun (S₁ ++ S₂) S₃ (S₄ ++ W ++ R)
      (by simp only [List.append_assoc]) (by simp only [List.length_append]; omega)
      (by simp only [List.length_append]; omega))
    exact ⟨iff_of_false (by omega) hs, iff_of_true (by omega) hw, fun _ => by omega⟩
  rcases Nat.lt_or_ge j (S₁.length + S₂.length + S₃.length + S₄.length) with hj₄ | hj₄
  · obtain ⟨hs, hw⟩ := h₄ k (hrun (S₁ ++ S₂ ++ S₃) S₄ (W ++ R)
      (by simp only [List.append_assoc]) (by simp only [List.length_append]; omega)
      (by simp only [List.length_append]; omega))
    exact ⟨iff_of_false (by omega) hs, iff_of_false (by omega) hw, fun _ => by omega⟩
  rcases Nat.lt_or_ge j (S₁.length + S₂.length + S₃.length + S₄.length + W.length) with hj₅ | hj₅
  · obtain ⟨hs, hw, hp⟩ := hW k (hrun (S₁ ++ S₂ ++ S₃ ++ S₄) W R rfl
      (by simp only [List.length_append]; omega) (by simp only [List.length_append]; omega))
    exact ⟨iff_of_false (by omega) hs, iff_of_true (by omega) hw, fun h => absurd h hp⟩
  · obtain ⟨hs, hw, hp⟩ := hR k (hrun (S₁ ++ S₂ ++ S₃ ++ S₄ ++ W) R []
      (List.append_nil _) (by simp only [List.length_append]; omega)
      (by simp only [List.length_append]; omega))
    exact ⟨iff_of_false (by omega) hs, iff_of_false (by omega) hw, fun h => absurd h hp⟩

end Layout

/-! ## The compiled message -/

theorem LoadedAddresses.writable_fromIter_map {β : Type} (f : β → LoadedAddresses) (l : List β) :
    (LoadedAddresses.fromIter (l.map f)).writable = (l.map fun x => (f x).writable).flatten := by
  simp only [LoadedAddresses.fromIter, List.map_map]
  rfl

theorem LoadedAddresses.readonly_fromIter_map {β : Type} (f : β → LoadedAddresses) (l : List β) :
    (LoadedAddresses.fromIter (l.map f)).readonly = (l.map fun x => (f x).readonly).flatten := by
  simp only [LoadedAddresses.fromIter, List.map_map]
  rfl

/-- `try_compile` succeeds through each of its steps, and returns what they built. -/
theorem V0.Message.tryCompile_eq_ok {payer : Pubkey} {instructions : List Instruction}
    {tables : List AddressLookupTableAccount} {m : V0.Message}
    (h : V0.Message.tryCompile payer instructions tables = .ok m) :
    ∃ c extracted header staticKeys compiled,
      tables.foldlM extractTableLookup (CompiledKeys.compile instructions (some payer), []) =
        .ok (c, extracted) ∧
      c.tryIntoMessageComponents = .ok (header, staticKeys) ∧
      AccountKeys.tryCompileInstructions
        (AccountKeys.new staticKeys (some (LoadedAddresses.fromIter (extracted.map (·.2)))))
        instructions = .ok compiled ∧
      m = ⟨header, staticKeys, compiled, extracted.map (·.1)⟩ := by
  unfold tryCompile at h
  obtain ⟨⟨c, extracted⟩, hfold, h⟩ := except_bind_eq_ok h
  dsimp only at h
  obtain ⟨⟨header, staticKeys⟩, hcomponents, h⟩ := except_bind_eq_ok h
  dsimp only at h
  obtain ⟨compiled, hcompile, h⟩ := except_bind_eq_ok h
  cases h
  exact ⟨c, extracted, header, staticKeys, compiled, hfold, hcomponents, hcompile, rfl⟩

/-- The lookups of the compiled message load as many keys as they select. -/
theorem numDynamicAccountKeys_eq {header : MessageHeader} {staticKeys : List Pubkey}
    {compiled : List CompiledInstruction}
    {extracted : List (MessageAddressTableLookup × LoadedAddresses)}
    {used : List AddressLookupTableAccount}
    (h : List.Forall₂ (fun entry table => Selects table entry.1 entry.2) extracted used) :
    (V0.Message.mk header staticKeys compiled (extracted.map (·.1))).numDynamicAccountKeys =
      (extracted.map (·.2.writable)).flatten.length +
        (extracted.map (·.2.readonly)).flatten.length := by
  unfold V0.Message.numDynamicAccountKeys
  dsimp only
  induction h with
  | nil => rfl
  | cons hsel _ ih =>
    simp only [List.map_cons, List.sum_cons, List.flatten_cons, List.length_append] at ih ⊢
    rw [ih, hsel.writable.length_eq, hsel.readonly.length_eq]
    omega

/-- An entry of `compile` that is neither a signer nor invoked: its key is no signer and no
program, and writable as the entry says. -/
theorem flags_of_unsigned_uninvoked {instructions : List Instruction} {payer k : Pubkey}
    {keyMeta : CompiledKeyMeta}
    (hmem : (k, keyMeta) ∈ (CompiledKeys.compile instructions (some payer)).keyMetaMap)
    (hsigner : keyMeta.isSigner = false) (hinvoked : keyMeta.isInvoked = false) :
    ¬(k = payer ∨ IsSignerKey instructions k) ∧
      (keyMeta.isWritable = true ↔ k = payer ∨ IsWritableKey instructions k) ∧
      ¬IsProgramId instructions k := by
  obtain ⟨hs, hw, hi⟩ := CompiledKeys.flags_of_mem_compile hmem
  rw [← hs, ← hi, hsigner, hinvoked]
  exact ⟨Bool.false_ne_true, hw, Bool.false_ne_true⟩

namespace Drained

section Compiled

variable {payer k : Pubkey} {instructions : List Instruction}
  {tables : List AddressLookupTableAccount} {c : CompiledKeys}
  {extracted : List (MessageAddressTableLookup × LoadedAddresses)}
  {header : MessageHeader} {staticKeys : List Pubkey}
  (hD : Drained (CompiledKeys.compile instructions (some payer)).keyMetaMap (some payer) tables c
    extracted)
include hD

/-- A key loaded as writable is writable, no signer and no program. -/
theorem flags_of_mem_writable (hk : k ∈ (extracted.map (·.2.writable)).flatten) :
    ¬(k = payer ∨ IsSignerKey instructions k) ∧ (k = payer ∨ IsWritableKey instructions k) ∧
      ¬IsProgramId instructions k := by
  obtain ⟨keyMeta, hmem, hp⟩ := hD.writable k hk
  simp only [Bool.and_eq_true, Bool.not_eq_true'] at hp
  obtain ⟨⟨hsigner, hinvoked⟩, hwritable⟩ := hp
  obtain ⟨hs, hw, hi⟩ := flags_of_unsigned_uninvoked hmem hsigner hinvoked
  exact ⟨hs, hw.mp hwritable, hi⟩

/-- A key loaded as read-only is not writable, no signer and no program. -/
theorem flags_of_mem_readonly (hk : k ∈ (extracted.map (·.2.readonly)).flatten) :
    ¬(k = payer ∨ IsSignerKey instructions k) ∧ ¬(k = payer ∨ IsWritableKey instructions k) ∧
      ¬IsProgramId instructions k := by
  obtain ⟨keyMeta, hmem, hp⟩ := hD.readonly k hk
  simp only [Bool.and_eq_true, Bool.not_eq_true'] at hp
  obtain ⟨⟨hsigner, hinvoked⟩, hwritable⟩ := hp
  obtain ⟨hs, hw, hi⟩ := flags_of_unsigned_uninvoked hmem hsigner hinvoked
  rw [← hw, hwritable]
  exact ⟨hs, Bool.false_ne_true, hi⟩

/-- A static key of a run that `try_into_message_components` chose by its marks has the flags the
run asks for. -/
theorem flags_of_mem_run (p : Bool → Bool → Bool) (Q : Prop → Prop → Prop)
    (hQ : ∀ s w, p s w = true → Q (s = true) (w = true))
    (hk : k ∈ CompiledKeys.keysWith (fun keyMeta => p keyMeta.isSigner keyMeta.isWritable)
      c.keyMetaMapWithoutPayer) :
    Q (k = payer ∨ IsSignerKey instructions k) (k = payer ∨ IsWritableKey instructions k) := by
  obtain ⟨keyMeta, hmem, hp⟩ := CompiledKeys.mem_keysWith_iff.mp hk
  -- the map less the payer is a part of the map
  have hmem' : (k, keyMeta) ∈ c.keyMetaMap := by
    unfold CompiledKeys.keyMetaMapWithoutPayer at hmem
    split at hmem
    · exact (List.mem_filter.mp hmem).1
    · exact hmem
  obtain ⟨hs, hw, -⟩ := CompiledKeys.flags_of_mem_compile (hD.sublist.subset hmem')
  rw [← hs, ← hw]
  exact hQ _ _ hp

/-- The payer keeps its entry: no table drains a signer. -/
theorem payer_mem : payer ∈ c.keyMetaMap.map Prod.fst := by
  have hmem : payer ∈ (CompiledKeys.compile instructions (some payer)).keyMetaMap.map Prod.fst :=
    CompiledKeys.mem_keys_compile.mpr (Or.inl rfl)
  rcases List.mem_append.mp (hD.perm.mem_iff.mp hmem) with h | h
  · rcases List.mem_append.mp h with h | h
    · exact h
    · exact absurd (Or.inl rfl) (hD.flags_of_mem_writable h).1
  · exact absurd (Or.inl rfl) (hD.flags_of_mem_readonly h).1

variable (hcomponents : c.tryIntoMessageComponents = .ok (header, staticKeys))
include hcomponents

/-- The keys of the compiled message are those of `compile`, in another order. -/
theorem keys_perm :
    (AccountKeys.new staticKeys (some (LoadedAddresses.fromIter (extracted.map (·.2))))).Perm
      ((CompiledKeys.compile instructions (some payer)).keyMetaMap.map Prod.fst) := by
  have hnodup : (c.keyMetaMap.map Prod.fst).Nodup :=
    (hD.sublist.map Prod.fst).nodup CompiledKeys.nodup_keys_compile
  have hstatic := CompiledKeys.staticKeys_perm hD.payer_eq hnodup hD.payer_mem hcomponents
  simp only [AccountKeys.new, LoadedAddresses.writable_fromIter_map,
    LoadedAddresses.readonly_fromIter_map]
  exact ((hstatic.append_right _).append_right _).trans hD.perm.symm

/-- The payer is the first key. -/
theorem getElem?_zero :
    (AccountKeys.new staticKeys (some (LoadedAddresses.fromIter (extracted.map (·.2)))))[0]? =
      some payer := by
  obtain ⟨hstatic, -⟩ := CompiledKeys.tryIntoMessageComponents_eq_ok hcomponents
  rw [hD.payer_eq, Option.toList_some] at hstatic
  simp only [AccountKeys.new, hstatic, List.cons_append, List.getElem?_cons_zero]

/-- Where a key sits says what the instructions make it: a signer exactly among the first
`num_required_signatures` keys, writable exactly in the writable part of the layout; and a program
or a signer is a static key. -/
theorem layout {j : Nat}
    (h : (AccountKeys.new staticKeys
      (some (LoadedAddresses.fromIter (extracted.map (·.2)))))[j]? = some k) :
    (j < header.numRequiredSignatures.toNat ↔ k = payer ∨ IsSignerKey instructions k) ∧
      (WritableRegion header staticKeys.length
          (LoadedAddresses.fromIter (extracted.map (·.2))).writable.length j ↔
        k = payer ∨ IsWritableKey instructions k) ∧
      (IsProgramId instructions k ∨ IsSignerKey instructions k → j < staticKeys.length) := by
  obtain ⟨hstatic, hnumReq, hros, hrou⟩ :=
    CompiledKeys.tryIntoMessageComponents_eq_ok hcomponents
  rw [hD.payer_eq, Option.toList_some] at hstatic hnumReq
  simp only [AccountKeys.new, LoadedAddresses.writable_fromIter_map,
    LoadedAddresses.readonly_fromIter_map, hstatic] at h
  -- the six runs and the flags of their keys
  have h₁ : ∀ k ∈ [payer] ++ CompiledKeys.keysWith (fun m => m.isSigner && m.isWritable)
      c.keyMetaMapWithoutPayer,
      (k = payer ∨ IsSignerKey instructions k) ∧ (k = payer ∨ IsWritableKey instructions k) := by
    intro k hk
    rcases List.mem_append.mp hk with hk | hk
    · rw [List.mem_singleton] at hk
      exact ⟨Or.inl hk, Or.inl hk⟩
    · exact hD.flags_of_mem_run (fun s w => s && w) (· ∧ ·) (by decide) hk
  obtain ⟨hsigner, hwritable, hprogram⟩ := layout_classify h₁
    (fun _ hk => hD.flags_of_mem_run (fun s w => s && !w) (fun S W => S ∧ ¬W) (by decide) hk)
    (fun _ hk => hD.flags_of_mem_run (fun s w => !s && w) (fun S W => ¬S ∧ W) (by decide) hk)
    (fun _ hk => hD.flags_of_mem_run (fun s w => !s && !w) (fun S W => ¬S ∧ ¬W) (by decide) hk)
    (fun _ hk => hD.flags_of_mem_writable hk) (fun _ hk => hD.flags_of_mem_readonly hk) h
  have hlen := congrArg List.length hstatic
  simp only [List.length_append] at hlen hnumReq hsigner hwritable hprogram
  refine ⟨by rw [hnumReq]; exact hsigner, ?_, fun hk => ?_⟩
  · rw [← hwritable, WritableRegion, hnumReq, hros, hrou, hlen,
      LoadedAddresses.writable_fromIter_map]
    constructor <;> intro h <;> omega
  · rcases hk with hk | hk
    · have := hprogram hk
      omega
    · have := hsigner.mpr (Or.inr hk)
      omega

/-- The compiled message passes `sanitize` when no instruction invokes the payer: the header
counts the payer among the writable signers, every lookup loads a key, every index decodes, and
only the payer sits at index 0. -/
theorem sanitized {used : List AddressLookupTableAccount} {compiled : List CompiledInstruction}
    (hselects : List.Forall₂ (fun entry table => Selects table entry.1 entry.2) extracted used)
    (hcompile : AccountKeys.tryCompileInstructions
      (AccountKeys.new staticKeys (some (LoadedAddresses.fromIter (extracted.map (·.2)))))
      instructions = .ok compiled)
    (hpayer : ∀ ix ∈ instructions, ix.programId ≠ payer) :
    (V0.Message.mk header staticKeys compiled (extracted.map (·.1))).Sanitized := by
  obtain ⟨hstatic, hnumReq, hros, hrou⟩ :=
    CompiledKeys.tryIntoMessageComponents_eq_ok hcomponents
  rw [hD.payer_eq, Option.toList_some] at hstatic hnumReq
  have hlen := congrArg List.length hstatic
  simp only [List.length_append, List.length_singleton] at hlen hnumReq
  obtain ⟨hlength, hdecodes⟩ := AccountKeys.tryCompileInstructions_eq_ok hcompile
  have hkeys : (AccountKeys.new staticKeys
      (some (LoadedAddresses.fromIter (extracted.map (·.2))))).length =
      staticKeys.length + (extracted.map (·.2.writable)).flatten.length +
        (extracted.map (·.2.readonly)).flatten.length := by
    simp only [AccountKeys.new, LoadedAddresses.writable_fromIter_map,
      LoadedAddresses.readonly_fromIter_map, List.length_append]
  have hdynamic := @numDynamicAccountKeys_eq header staticKeys compiled _ _ hselects
  refine ⟨?_, ?_, ?_, ?_, ?_, ?_, ?_⟩
  · -- the signers and the read-only unsigned keys are static keys
    dsimp only
    omega
  · -- the payer is a writable signer
    dsimp only
    omega
  · intro lookup hlookup
    obtain ⟨entry, hentry, rfl⟩ := List.mem_map.mp hlookup
    obtain ⟨table, -, hsel⟩ := Traverse.exists_mem_of_forall₂ hselects hentry
    exact hsel.pos
  · -- the keys fit `u8` indexes
    dsimp only
    omega
  · -- a program is a static key
    intro ci hci
    obtain ⟨ix, hix, hdecode⟩ := Traverse.exists_mem_of_forall₂ hdecodes hci
    exact (hD.layout hcomponents hdecode.1).2.2 (Or.inl ⟨ix, hix, rfl⟩)
  · -- only the payer sits at index 0
    intro ci hci hzero
    obtain ⟨ix, hix, hdecode⟩ := Traverse.exists_mem_of_forall₂ hdecodes hci
    have hfirst := hdecode.1
    rw [hzero, UInt8.toNat_zero, hD.getElem?_zero hcomponents, Option.some.injEq] at hfirst
    exact hpayer ix hix hfirst.symm
  · -- every account index decodes to a key
    intro ci hci ai hai
    obtain ⟨ix, -, hdecode⟩ := Traverse.exists_mem_of_forall₂ hdecodes hci
    have hmem : (AccountKeys.new staticKeys
        (some (LoadedAddresses.fromIter (extracted.map (·.2)))))[ai.toNat]? ∈
        ix.accounts.map fun accountMeta => some accountMeta.pubkey := by
      rw [← hdecode.2.1]
      exact List.mem_map_of_mem hai
    obtain ⟨accountMeta, -, hsome⟩ := List.mem_map.mp hmem
    obtain ⟨hlt, -⟩ := List.getElem?_eq_some_iff.mp hsome.symm
    dsimp only
    omega

end Compiled

end Drained

/-- A message that `try_compile` returns is faithful to its instructions. Its keys, followed by
what its lookups select from tables taken in order from those given, are distinct, start with
the payer, and are exactly the payer and the keys the instructions name. Each compiled
instruction decodes through them to its instruction. A key's place makes it a signer, and
writable, exactly when the payer or a meta makes it so, and a program or a signer is never
loaded from a table. The message passes `sanitize` unless an instruction invokes the payer. -/
theorem try_compile_faithful (payer : Pubkey) (instructions : List Instruction)
    (addressLookupTableAccounts : List AddressLookupTableAccount) (m : V0.Message)
    (h : V0.Message.tryCompile payer instructions addressLookupTableAccounts = .ok m) :
    ∃ used loaded, used.Sublist addressLookupTableAccounts ∧
      used.map (·.key) = m.addressTableLookups.map (·.accountKey) ∧
      selectAddresses m.addressTableLookups used = some loaded ∧
      (AccountKeys.new m.accountKeys (some loaded)).Nodup ∧
      (AccountKeys.new m.accountKeys (some loaded))[0]? = some payer ∧
      (∀ k, k ∈ AccountKeys.new m.accountKeys (some loaded) ↔
        k = payer ∨ IsNamedKey instructions k) ∧
      List.Forall₂ (Decodes (AccountKeys.new m.accountKeys (some loaded))) m.instructions
        instructions ∧
      (∀ j k, (AccountKeys.new m.accountKeys (some loaded))[j]? = some k →
        (j < m.header.numRequiredSignatures.toNat ↔ k = payer ∨ IsSignerKey instructions k) ∧
        (WritableRegion m.header m.accountKeys.length loaded.writable.length j ↔
          k = payer ∨ IsWritableKey instructions k) ∧
        (IsProgramId instructions k ∨ IsSignerKey instructions k → j < m.accountKeys.length)) ∧
      ((∀ ix ∈ instructions, ix.programId ≠ payer) → m.sanitize = .ok ()) := by
  obtain ⟨c, extracted, header, staticKeys, compiled, hfold, hcomponents, hcompile, rfl⟩ :=
    V0.Message.tryCompile_eq_ok h
  have hD : Drained (CompiledKeys.compile instructions (some payer)).keyMetaMap (some payer)
      addressLookupTableAccounts c extracted :=
    Drained.foldlM_extractTableLookup CompiledKeys.nodup_keys_compile hfold
  obtain ⟨used, hused, hselects⟩ := hD.used
  have hkeys := hD.keys_perm hcomponents
  refine ⟨used, _, hused, ?_, selectAddresses_of_forall₂ hselects,
    hkeys.nodup_iff.mpr CompiledKeys.nodup_keys_compile, hD.getElem?_zero hcomponents,
    fun k => hkeys.mem_iff.trans CompiledKeys.mem_keys_compile,
    (AccountKeys.tryCompileInstructions_eq_ok hcompile).2,
    fun j k hk => hD.layout hcomponents hk, fun hpayer => ?_⟩
  · -- each lookup names the table it selects from
    rw [List.map_map]
    exact Traverse.map_eq_map_of_forall₂ (hselects.imp fun _ _ hsel => hsel.accountKey.symm)
  · exact (V0.Message.sanitize_eq_ok_iff _).mpr (hD.sanitized hcomponents hselects hcompile hpayer)

/-- A program invoked with one writable account that a table holds: the account is loaded from
the table. -/
theorem try_compile_faithful_one_lookup :
    ∃ used loaded, used.Sublist [⟨⟨9⟩, [⟨2⟩]⟩] ∧
      used.map (·.key) = [(⟨⟨9⟩, [0], []⟩ : MessageAddressTableLookup)].map (·.accountKey) ∧
      selectAddresses [⟨⟨9⟩, [0], []⟩] used = some loaded ∧
      (AccountKeys.new [⟨1⟩, ⟨5⟩] (some loaded)).Nodup ∧
      (AccountKeys.new [⟨1⟩, ⟨5⟩] (some loaded))[0]? = some ⟨1⟩ ∧
      (∀ k, k ∈ AccountKeys.new [⟨1⟩, ⟨5⟩] (some loaded) ↔
        k = ⟨1⟩ ∨ IsNamedKey [⟨⟨5⟩, [⟨⟨2⟩, false, true⟩], []⟩] k) ∧
      List.Forall₂ (Decodes (AccountKeys.new [⟨1⟩, ⟨5⟩] (some loaded))) [⟨1, [2], []⟩]
        [⟨⟨5⟩, [⟨⟨2⟩, false, true⟩], []⟩] ∧
      (∀ j k, (AccountKeys.new [⟨1⟩, ⟨5⟩] (some loaded))[j]? = some k →
        (j < (1 : UInt8).toNat ↔ k = ⟨1⟩ ∨ IsSignerKey [⟨⟨5⟩, [⟨⟨2⟩, false, true⟩], []⟩] k) ∧
        (WritableRegion ⟨1, 0, 1⟩ 2 loaded.writable.length j ↔
          k = ⟨1⟩ ∨ IsWritableKey [⟨⟨5⟩, [⟨⟨2⟩, false, true⟩], []⟩] k) ∧
        (IsProgramId [⟨⟨5⟩, [⟨⟨2⟩, false, true⟩], []⟩] k ∨
          IsSignerKey [⟨⟨5⟩, [⟨⟨2⟩, false, true⟩], []⟩] k → j < 2)) ∧
      ((∀ ix ∈ [(⟨⟨5⟩, [⟨⟨2⟩, false, true⟩], []⟩ : Instruction)], ix.programId ≠ ⟨1⟩) →
        V0.Message.sanitize ⟨⟨1, 0, 1⟩, [⟨1⟩, ⟨5⟩], [⟨1, [2], []⟩], [⟨⟨9⟩, [0], []⟩]⟩ = .ok ()) :=
  try_compile_faithful ⟨1⟩ [⟨⟨5⟩, [⟨⟨2⟩, false, true⟩], []⟩] [⟨⟨9⟩, [⟨2⟩]⟩]
    ⟨⟨1, 0, 1⟩, [⟨1⟩, ⟨5⟩], [⟨1, [2], []⟩], [⟨⟨9⟩, [0], []⟩]⟩ rfl

end Sdk

end Agave
