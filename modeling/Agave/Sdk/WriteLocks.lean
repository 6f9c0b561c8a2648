import Agave.Sdk.VersionedMessage

/-!
# Write locks of a message, computed three ways

Which keys of a transaction are locked for writing is computed by three pieces of code: the
runtime's `SanitizedMessage` caches it when a legacy message is wrapped (`LegacyMessage::new`,
in `u8` arithmetic) or a v0 message gets its loaded addresses (`LoadedMessage::new`, in saturating
arithmetic); and the scheduler's `ResolvedTransactionView` caches it from the frame of the
serialized transaction (`cache_is_writable`, in wrapping arithmetic, demoting invoked programs in
a second pass and looking for the upgradeable loader only when it has one to demote).

All three lock key `i` exactly when it lies in a writable part of the layout (a writable signer, a
writable unsigned static key or a key loaded as writable), it is not reserved, and it is not
invoked as a program unless the upgradeable loader is among the keys (`Writable`). Each is proved
to compute `Writable` once the header is sanitized, and `write_locks_agree` puts them together;
the count of requested write locks agrees as well.

The view is read through the accessors of its frame (`TransactionView.ofMessage`): that the frame
parsed from the serialized message returns the message's fields is the parser's concern, not this
module's.
-/

namespace Agave.Sdk

/-- `bpf_loader_upgradeable::id()`, `BPFLoaderUpgradeab1e11111111111111111111111`. -/
def bpfLoaderUpgradeableId : Pubkey :=
  ⟨0x02a8f6914e88a1b0e210153ef763ae2b00c2b93d16c124d2c0537a1004800000#256⟩

/-- `is_key_called_as_program`, the same in `legacy::Message` and in `LoadedMessage`: an index
that fits a `u8` and that some instruction invokes. -/
def isKeyCalledAsProgram (instructions : List CompiledInstruction) (keyIndex : Nat) : Bool :=
  if keyIndex < 256 then instructions.any fun ix => ix.programIdIndex.toNat == keyIndex else false

/-- `is_upgradeable_loader_present`. -/
def isUpgradeableLoaderPresent (accountKeys : List Pubkey) : Bool :=
  accountKeys.any (· == bpfLoaderUpgradeableId)

/-- `demote_program_id`. -/
def demoteProgramId (instructions : List CompiledInstruction) (accountKeys : List Pubkey)
    (i : Nat) : Bool :=
  isKeyCalledAsProgram instructions i && !isUpgradeableLoaderPresent accountKeys

/-! ## The specification -/

/-- The writable part of the layout: the writable signers, the writable unsigned static keys and
the keys loaded as writable. -/
def WritableRegion (header : MessageHeader) (numStaticAccountKeys numWritableLoaded : Nat)
    (i : Nat) : Prop :=
  i < header.numRequiredSignatures.toNat - header.numReadonlySignedAccounts.toNat ∨
    (header.numRequiredSignatures.toNat ≤ i ∧
      i < numStaticAccountKeys - header.numReadonlyUnsignedAccounts.toNat) ∨
    (numStaticAccountKeys ≤ i ∧ i < numStaticAccountKeys + numWritableLoaded)

/-- Key `i` is locked for writing: it lies in the writable part of the layout, it is not reserved,
and if some instruction invokes it, the upgradeable loader is among the keys. -/
def Writable (header : MessageHeader) (staticAccountKeys : List Pubkey)
    (loadedAddresses : Option LoadedAddresses) (instructions : List CompiledInstruction)
    (reservedAccountKeys : List Pubkey) (i : Nat) : Prop :=
  ∃ key, (AccountKeys.new staticAccountKeys loadedAddresses)[i]? = some key ∧
    WritableRegion header staticAccountKeys.length
      ((loadedAddresses.map (·.writable.length)).getD 0) i ∧
    key ∉ reservedAccountKeys ∧
    ((∃ ix ∈ instructions, ix.programIdIndex.toNat = i) →
      bpfLoaderUpgradeableId ∈ AccountKeys.new staticAccountKeys loadedAddresses)

/-- The addresses resolved for a message's lookups: none for a legacy message, which has no
lookups. -/
def VersionedMessage.resolvedAddresses (message : VersionedMessage)
    (loadedAddresses : LoadedAddresses) : Option LoadedAddresses :=
  match message with
  | .legacy _ => none
  | .v0 _ => some loadedAddresses

/-! ## `LegacyMessage` -/

namespace Legacy

/-- `legacy::Message::is_writable_index`, in `u8` arithmetic: a sanitized message has fewer
read-only signers than signers, so the subtraction does not wrap. -/
def Message.isWritableIndex (m : Message) (i : Nat) : Bool :=
  decide (i < (m.header.numRequiredSignatures - m.header.numReadonlySignedAccounts).toNat) ||
    (decide (i ≥ m.header.numRequiredSignatures.toNat) &&
      decide (i < m.accountKeys.length - m.header.numReadonlyUnsignedAccounts.toNat))

end Legacy

/-- `LegacyMessage`: a legacy message with its write-lock cache. -/
structure LegacyMessage where
  message : Legacy.Message
  isWritableAccountCache : List Bool

/-- `LegacyMessage::new`. -/
def LegacyMessage.new (message : Legacy.Message) (reservedAccountKeys : List Pubkey) :
    LegacyMessage :=
  ⟨message, message.accountKeys.zipIdx.map fun (key, i) =>
    message.isWritableIndex i && !reservedAccountKeys.contains key &&
      !demoteProgramId message.instructions message.accountKeys i⟩

/-- `LegacyMessage::is_writable`: the cache, and no lock past its end. -/
def LegacyMessage.isWritable (m : LegacyMessage) (index : Nat) : Bool :=
  m.isWritableAccountCache.getD index false

/-! ## `LoadedMessage` -/

namespace V0

/-- `LoadedMessage::is_writable_index`, in saturating arithmetic. -/
def Message.isWritableIndex (m : Message) (loadedAddresses : LoadedAddresses) (keyIndex : Nat) :
    Bool :=
  let numAccountKeys := m.accountKeys.length
  let numSignedAccounts := m.header.numRequiredSignatures.toNat
  if keyIndex ≥ numAccountKeys then
    keyIndex - numAccountKeys < loadedAddresses.writable.length
  else if keyIndex ≥ numSignedAccounts then
    let numUnsignedAccounts := numAccountKeys - numSignedAccounts
    let numWritableUnsignedAccounts :=
      numUnsignedAccounts - m.header.numReadonlyUnsignedAccounts.toNat
    keyIndex - numSignedAccounts < numWritableUnsignedAccounts
  else
    keyIndex < numSignedAccounts - m.header.numReadonlySignedAccounts.toNat

/-- `LoadedMessage::is_writable_internal`. -/
def Message.isWritableInternal (m : Message) (loadedAddresses : LoadedAddresses)
    (reservedAccountKeys : List Pubkey) (keyIndex : Nat) : Bool :=
  let accountKeys := AccountKeys.new m.accountKeys (some loadedAddresses)
  if m.isWritableIndex loadedAddresses keyIndex then
    match accountKeys[keyIndex]? with
    | some key =>
      !(reservedAccountKeys.contains key || demoteProgramId m.instructions accountKeys keyIndex)
    | none => false
  else false

/-- `LoadedMessage`: a v0 message, its loaded addresses and its write-lock cache. -/
structure LoadedMessage where
  message : Message
  loadedAddresses : LoadedAddresses
  isWritableAccountCache : List Bool

/-- `LoadedMessage::new`, with `set_is_writable_account_cache`. -/
def LoadedMessage.new (message : Message) (loadedAddresses : LoadedAddresses)
    (reservedAccountKeys : List Pubkey) : LoadedMessage :=
  ⟨message, loadedAddresses,
    (AccountKeys.new message.accountKeys (some loadedAddresses)).zipIdx.map fun (_, i) =>
      message.isWritableInternal loadedAddresses reservedAccountKeys i⟩

/-- `LoadedMessage::is_writable`. -/
def LoadedMessage.isWritable (m : LoadedMessage) (keyIndex : Nat) : Bool :=
  m.isWritableAccountCache.getD keyIndex false

end V0

/-! ## `SanitizedMessage` -/

/-- `SanitizedMessage`. -/
inductive SanitizedMessage where
  | legacy (message : LegacyMessage)
  | v0 (message : V0.LoadedMessage)

namespace SanitizedMessage

/-- `SanitizedMessage::try_new` of a sanitized message, the address loader answering the v0
lookups with `loadedAddresses`. -/
def tryNew (message : VersionedMessage) (loadedAddresses : LoadedAddresses)
    (reservedAccountKeys : List Pubkey) : SanitizedMessage :=
  match message with
  | .legacy message => legacy (LegacyMessage.new message reservedAccountKeys)
  | .v0 message => v0 (V0.LoadedMessage.new message loadedAddresses reservedAccountKeys)

def isWritable : SanitizedMessage → Nat → Bool
  | legacy m => m.isWritable
  | v0 m => m.isWritable

def header : SanitizedMessage → MessageHeader
  | legacy m => m.message.header
  | v0 m => m.message.header

/-- `SanitizedMessage::account_keys`. -/
def accountKeys : SanitizedMessage → List Pubkey
  | legacy m => AccountKeys.new m.message.accountKeys none
  | v0 m => AccountKeys.new m.message.accountKeys (some m.loadedAddresses)

/-- `SanitizedMessage::num_readonly_accounts`; the sums of a few hundred never saturate. -/
def numReadonlyAccounts (m : SanitizedMessage) : Nat :=
  let loadedReadonlyAddresses := match m with
    | legacy _ => 0
    | v0 m => m.loadedAddresses.readonly.length
  loadedReadonlyAddresses + m.header.numReadonlySignedAccounts.toNat +
    m.header.numReadonlyUnsignedAccounts.toNat

/-- `SanitizedMessage::num_write_locks`, in saturating arithmetic. -/
def numWriteLocks (m : SanitizedMessage) : Nat :=
  m.accountKeys.length - m.numReadonlyAccounts

end SanitizedMessage

/-! ## `ResolvedTransactionView` -/

/-- What a `TransactionView` reads from the frame of a serialized transaction. -/
structure TransactionView where
  numRequiredSignatures : UInt8
  numReadonlySignedStaticAccounts : UInt8
  numReadonlyUnsignedStaticAccounts : UInt8
  numStaticAccountKeys : UInt8
  staticAccountKeys : List Pubkey
  instructions : List CompiledInstruction
  totalWritableLookupAccounts : UInt16
  totalReadonlyLookupAccounts : UInt16

namespace TransactionView

/-- `num_writable_unsigned_static_accounts`, in wrapping `u8` arithmetic. -/
def numWritableUnsignedStaticAccounts (view : TransactionView) : UInt8 :=
  (view.numStaticAccountKeys - view.numRequiredSignatures) - view.numReadonlyUnsignedStaticAccounts

/-- `num_writable_signed_static_accounts`, in wrapping `u8` arithmetic. -/
def numWritableSignedStaticAccounts (view : TransactionView) : UInt8 :=
  view.numRequiredSignatures - view.numReadonlySignedStaticAccounts

/-- `MAX_STATIC_ACCOUNTS_PER_PACKET`: 38 keys of 32 bytes fill a packet. -/
def MAX_STATIC_ACCOUNTS_PER_PACKET : Nat := 38

/-- The view of a serialized message as its frame reads it: no frame without a static key or with
more than a packet holds, or with more lookup keys of a kind than a `u16` counts. -/
def ofMessage (message : VersionedMessage) : Option TransactionView :=
  let lookups := message.addressTableLookups
  let numStaticAccountKeys : Nat := message.staticAccountKeys.length
  let totalWritableLookupAccounts : Nat := (lookups.map (·.writableIndexes.length)).sum
  let totalReadonlyLookupAccounts : Nat := (lookups.map (·.readonlyIndexes.length)).sum
  if numStaticAccountKeys = 0 ∨ numStaticAccountKeys > MAX_STATIC_ACCOUNTS_PER_PACKET ∨
      totalWritableLookupAccounts ≥ 2 ^ 16 ∨ totalReadonlyLookupAccounts ≥ 2 ^ 16 then none
  else some ⟨message.header.numRequiredSignatures, message.header.numReadonlySignedAccounts,
    message.header.numReadonlyUnsignedAccounts, numStaticAccountKeys.toUInt8,
    message.staticAccountKeys, message.instructions, totalWritableLookupAccounts.toUInt16,
    totalReadonlyLookupAccounts.toUInt16⟩

end TransactionView

/-- `TransactionViewError::AddressLookupMismatch`. -/
inductive TransactionViewError where
  | addressLookupMismatch
  deriving DecidableEq, Repr

/-- `ResolvedTransactionView`: a view, its resolved addresses and its write-lock cache. -/
structure ResolvedTransactionView where
  view : TransactionView
  resolvedAddresses : Option LoadedAddresses
  writableCache : List Bool

namespace ResolvedTransactionView

/-- One turn of the demotion loop of `cache_is_writable`: a program id still writable is demoted
unless the upgradeable loader is among the keys, which is looked for the first time it is needed
(`get_or_insert_with`). -/
def demoteStep (accountKeys : List Pubkey) (state : List Bool × Option Bool)
    (ix : CompiledInstruction) : List Bool × Option Bool :=
  let (isWritableCache, isUpgradableLoaderPresent) := state
  let programIdIndex := ix.programIdIndex.toNat
  if isWritableCache.getD programIdIndex false then
    let present := isUpgradableLoaderPresent.getD (isUpgradeableLoaderPresent accountKeys)
    if !present then (isWritableCache.set programIdIndex false, some present)
    else (isWritableCache, some present)
  else (isWritableCache, isUpgradableLoaderPresent)

/-- `cache_is_writable`: the writes the layout requests of keys that are not reserved, then the
invoked programs demoted. -/
def cacheIsWritable (view : TransactionView) (resolvedAddresses : Option LoadedAddresses)
    (reservedAccountKeys : List Pubkey) : List Bool :=
  let accountKeys := AccountKeys.new view.staticAccountKeys resolvedAddresses
  let numStaticAccountKeys := view.numStaticAccountKeys.toNat
  let numWritableLookupAccounts := view.totalWritableLookupAccounts.toNat
  let numSignedAccounts := view.numRequiredSignatures.toNat
  let numWritableUnsignedStaticAccounts := view.numWritableUnsignedStaticAccounts.toNat
  let numWritableSignedStaticAccounts := view.numWritableSignedStaticAccounts.toNat
  let isWritableCache := accountKeys.zipIdx.map fun (key, index) =>
    let isRequestedWrite :=
      if index ≥ numStaticAccountKeys then
        index - numStaticAccountKeys < numWritableLookupAccounts
      else if index ≥ numSignedAccounts then
        index - numSignedAccounts < numWritableUnsignedStaticAccounts
      else index < numWritableSignedStaticAccounts
    -- a reserved key cannot be writable
    decide isRequestedWrite && !reservedAccountKeys.contains key
  (view.instructions.foldl (demoteStep accountKeys) (isWritableCache, none)).1

/-- `ResolvedTransactionView::try_new`: the resolved addresses must match the lookups in
number. -/
def tryNew (view : TransactionView) (resolvedAddresses : Option LoadedAddresses)
    (reservedAccountKeys : List Pubkey) : Except TransactionViewError ResolvedTransactionView :=
  let mismatch : Bool := match resolvedAddresses with
    | some loadedAddresses =>
      loadedAddresses.writable.length != view.totalWritableLookupAccounts.toNat ||
        loadedAddresses.readonly.length != view.totalReadonlyLookupAccounts.toNat
    | none => view.totalWritableLookupAccounts != 0 || view.totalReadonlyLookupAccounts != 0
  if mismatch then .error .addressLookupMismatch
  else .ok ⟨view, resolvedAddresses, cacheIsWritable view resolvedAddresses reservedAccountKeys⟩

/-- `is_writable`. -/
def isWritable (resolved : ResolvedTransactionView) (index : Nat) : Bool :=
  resolved.writableCache.getD index false

/-- `account_keys`. -/
def accountKeys (resolved : ResolvedTransactionView) : List Pubkey :=
  AccountKeys.new resolved.view.staticAccountKeys resolved.resolvedAddresses

/-- `num_readonly_accounts`; the `usize` sums of a `u16` and two `u8` never wrap. -/
def numReadonlyAccounts (resolved : ResolvedTransactionView) : Nat :=
  resolved.view.totalReadonlyLookupAccounts.toNat +
    resolved.view.numReadonlySignedStaticAccounts.toNat +
    resolved.view.numReadonlyUnsignedStaticAccounts.toNat

/-- `num_write_locks`, a wrapping `usize` subtraction. -/
def numWriteLocks (resolved : ResolvedTransactionView) : Nat :=
  (BitVec.ofNat 64 resolved.accountKeys.length - BitVec.ofNat 64 resolved.numReadonlyAccounts).toNat

end ResolvedTransactionView

/-! ## The three caches against the specification -/

theorem getD_map_zipIdx {α : Type} (l : List α) (f : α × Nat → Bool) (i : Nat) :
    (l.zipIdx.map f).getD i false = (l[i]?.map fun a => f (a, i)).getD false := by
  rw [List.getD_eq_getElem?_getD, List.getElem?_map, List.getElem?_zipIdx, Option.map_map,
    Nat.zero_add]
  rfl

/-- An index is called as a program exactly when an instruction invokes it: a `u8` program id
index never reaches 256. -/
theorem isKeyCalledAsProgram_iff (instructions : List CompiledInstruction) (i : Nat) :
    isKeyCalledAsProgram instructions i = true ↔
      ∃ ix ∈ instructions, ix.programIdIndex.toNat = i := by
  unfold isKeyCalledAsProgram
  by_cases hi : i < 256
  · rw [if_pos hi, List.any_eq_true]
    simp only [beq_iff_eq]
  · rw [if_neg hi]
    refine ⟨nofun, fun ⟨ix, _, hix⟩ => absurd hix ?_⟩
    have := ix.programIdIndex.toNat_lt
    omega

theorem isUpgradeableLoaderPresent_iff (accountKeys : List Pubkey) :
    isUpgradeableLoaderPresent accountKeys = true ↔ bpfLoaderUpgradeableId ∈ accountKeys := by
  unfold isUpgradeableLoaderPresent
  rw [List.any_eq_true]
  simp only [beq_iff_eq, exists_eq_right]

/-- A key keeps its write lock against demotion when, if invoked, the loader is among the keys. -/
theorem demoteProgramId_eq_false_iff (instructions : List CompiledInstruction)
    (accountKeys : List Pubkey) (i : Nat) :
    demoteProgramId instructions accountKeys i = false ↔
      ((∃ ix ∈ instructions, ix.programIdIndex.toNat = i) →
        bpfLoaderUpgradeableId ∈ accountKeys) := by
  rw [← isKeyCalledAsProgram_iff, ← isUpgradeableLoaderPresent_iff]
  unfold demoteProgramId
  cases isKeyCalledAsProgram instructions i <;> cases isUpgradeableLoaderPresent accountKeys <;>
    decide

section Header

variable {header : MessageHeader} {numStaticAccountKeys : Nat}

/-- The `u8` subtraction of the legacy code does not wrap on a sanitized header. -/
theorem toNat_numWritableSigned (hsigned :
    header.numReadonlySignedAccounts.toNat < header.numRequiredSignatures.toNat) :
    (header.numRequiredSignatures - header.numReadonlySignedAccounts).toNat =
      header.numRequiredSignatures.toNat - header.numReadonlySignedAccounts.toNat :=
  UInt8.toNat_sub_of_le _ _ (UInt8.le_iff_toNat_le.mpr (Nat.le_of_lt hsigned))

end Header

namespace Legacy

/-- The legacy index test is the writable part of the layout, with nothing loaded. -/
theorem Message.isWritableIndex_iff {m : Message}
    (hheader : m.header.numRequiredSignatures.toNat + m.header.numReadonlyUnsignedAccounts.toNat ≤
      m.accountKeys.length)
    (hsigned : m.header.numReadonlySignedAccounts.toNat < m.header.numRequiredSignatures.toNat)
    (i : Nat) :
    m.isWritableIndex i = true ↔ WritableRegion m.header m.accountKeys.length 0 i := by
  unfold Message.isWritableIndex WritableRegion
  rw [toNat_numWritableSigned hsigned]
  simp only [Bool.or_eq_true, Bool.and_eq_true, decide_eq_true_eq, Nat.add_zero]
  omega

end Legacy

/-- `LegacyMessage::new` locks exactly the writable keys. -/
theorem LegacyMessage.isWritable_new_iff {m : Legacy.Message} (hsanitized : m.Sanitized)
    (reservedAccountKeys : List Pubkey) (i : Nat) :
    (LegacyMessage.new m reservedAccountKeys).isWritable i = true ↔
      Writable m.header m.accountKeys none m.instructions reservedAccountKeys i := by
  unfold LegacyMessage.isWritable LegacyMessage.new Writable
  rw [getD_map_zipIdx]
  simp only [AccountKeys.new, Option.map_none, Option.getD_none]
  cases hkey : m.accountKeys[i]? with
  | none =>
    constructor
    · intro h
      cases h
    · rintro ⟨_, h, _⟩
      cases h
  | some key =>
    simp only [Option.map_some, Option.getD_some, Bool.and_eq_true, Option.some.injEq,
      exists_eq_left', Bool.not_eq_true']
    rw [Bool.eq_false_iff, ne_eq, List.contains_iff_mem, demoteProgramId_eq_false_iff,
      Legacy.Message.isWritableIndex_iff hsanitized.header_le hsanitized.readonlySigned_lt,
      and_assoc]

namespace V0

/-- The v0 index test is the writable part of the layout. -/
theorem Message.isWritableIndex_iff {m : Message}
    (hheader : m.header.numRequiredSignatures.toNat + m.header.numReadonlyUnsignedAccounts.toNat ≤
      m.accountKeys.length)
    (loadedAddresses : LoadedAddresses) (i : Nat) :
    m.isWritableIndex loadedAddresses i = true ↔
      WritableRegion m.header m.accountKeys.length loadedAddresses.writable.length i := by
  unfold Message.isWritableIndex WritableRegion
  dsimp only
  -- the three parts of the layout: loaded, unsigned static, signed
  split_ifs with hloaded hunsigned <;> simp only [decide_eq_true_eq] <;> omega

/-- `LoadedMessage::new` locks exactly the writable keys. -/
theorem LoadedMessage.isWritable_new_iff {m : Message} (hsanitized : m.Sanitized)
    (loadedAddresses : LoadedAddresses) (reservedAccountKeys : List Pubkey) (i : Nat) :
    (LoadedMessage.new m loadedAddresses reservedAccountKeys).isWritable i = true ↔
      Writable m.header m.accountKeys (some loadedAddresses) m.instructions
        reservedAccountKeys i := by
  unfold LoadedMessage.isWritable LoadedMessage.new Writable
  rw [getD_map_zipIdx]
  cases hkey : (AccountKeys.new m.accountKeys (some loadedAddresses))[i]? with
  | none =>
    constructor
    · intro h
      cases h
    · rintro ⟨_, h, _⟩
      cases h
  | some key =>
    simp only [Option.map_some, Option.getD_some, Option.some.injEq, exists_eq_left']
    unfold Message.isWritableInternal
    dsimp only
    rw [hkey, ← Message.isWritableIndex_iff hsanitized.header_le]
    by_cases hindex : m.isWritableIndex loadedAddresses i = true
    · rw [if_pos hindex, Bool.not_eq_true', Bool.or_eq_false_iff, Bool.eq_false_iff, ne_eq,
        List.contains_iff_mem, demoteProgramId_eq_false_iff]
      exact ⟨fun h => ⟨hindex, h⟩, fun h => h.2⟩
    · rw [if_neg hindex]
      exact ⟨nofun, fun h => absurd h.1 hindex⟩

end V0

namespace ResolvedTransactionView

/-- One turn of the demotion loop takes the write lock of the invoked program unless the loader is
among the keys; the flag it keeps, once looked up, is the loader's presence. -/
theorem demoteStep_spec (accountKeys : List Pubkey) (cache : List Bool) (present : Option Bool)
    (hpresent : ∀ b ∈ present, b = isUpgradeableLoaderPresent accountKeys)
    (ix : CompiledInstruction) :
    (∀ i, (demoteStep accountKeys (cache, present) ix).1.getD i false =
      (cache.getD i false && !(decide (ix.programIdIndex.toNat = i) &&
        !isUpgradeableLoaderPresent accountKeys))) ∧
      ∀ b ∈ (demoteStep accountKeys (cache, present) ix).2,
        b = isUpgradeableLoaderPresent accountKeys := by
  have hlookup : present.getD (isUpgradeableLoaderPresent accountKeys) =
      isUpgradeableLoaderPresent accountKeys := by
    cases present with
    | none => rfl
    | some b => exact hpresent b rfl
  unfold demoteStep
  dsimp only
  by_cases hwritable : cache.getD ix.programIdIndex.toNat false = true
  · rw [if_pos hwritable, hlookup]
    cases hloader : isUpgradeableLoaderPresent accountKeys
    · -- no loader: the program loses its lock
      refine ⟨fun i => ?_, fun b hb => (Option.some.inj hb).symm⟩
      simp only [Bool.not_false, if_true, Bool.and_true]
      rw [List.getD_eq_getElem?_getD, List.getElem?_set]
      by_cases hi : ix.programIdIndex.toNat = i
      · subst hi
        simp only [if_true, decide_true, Bool.not_true, Bool.and_false]
        split <;> rfl
      · simp only [hi, if_false, decide_false, Bool.not_false, Bool.and_true,
          List.getD_eq_getElem?_getD]
    · refine ⟨fun i => ?_, fun b hb => (Option.some.inj hb).symm⟩
      simp only [Bool.not_true, Bool.false_eq_true, if_false, Bool.and_false, Bool.not_false,
        Bool.and_true]
  · rw [if_neg hwritable]
    refine ⟨fun i => ?_, hpresent⟩
    by_cases hi : ix.programIdIndex.toNat = i
    · -- the invoked program had no lock to lose
      subst hi
      rw [Bool.eq_false_iff.mpr hwritable, Bool.false_and]
    · simp only [hi, decide_false, Bool.false_and, Bool.not_false, Bool.and_true]

/-- The demotion loop takes the write lock of every invoked program unless the loader is among the
keys. -/
theorem foldl_demoteStep_getD (accountKeys : List Pubkey) :
    ∀ (instructions : List CompiledInstruction) (cache : List Bool) (present : Option Bool),
      (∀ b ∈ present, b = isUpgradeableLoaderPresent accountKeys) → ∀ i,
      (instructions.foldl (demoteStep accountKeys) (cache, present)).1.getD i false =
        (cache.getD i false && !((instructions.any fun ix => ix.programIdIndex.toNat == i) &&
          !isUpgradeableLoaderPresent accountKeys))
  | [], cache, _, _, i => by
    simp only [List.foldl_nil, List.any_nil, Bool.false_and, Bool.not_false, Bool.and_true]
  | ix :: rest, cache, present, hpresent, i => by
    obtain ⟨hcache, hpresent'⟩ := demoteStep_spec accountKeys cache present hpresent ix
    rw [List.foldl_cons, ← Prod.mk.eta (p := demoteStep accountKeys (cache, present) ix),
      foldl_demoteStep_getD accountKeys rest _ _ hpresent' i, hcache i, List.any_cons]
    by_cases hi : ix.programIdIndex.toNat = i
    · simp only [hi, decide_true, beq_self_eq_true, Bool.true_or, Bool.true_and]
      generalize (rest.any fun ix => ix.programIdIndex.toNat == i) = later
      cases cache.getD i false <;> cases isUpgradeableLoaderPresent accountKeys <;>
        cases later <;> rfl
    · simp only [hi, decide_false, Bool.false_and, Bool.not_false, Bool.and_true,
        beq_eq_false_iff_ne.mpr hi, Bool.false_or]

/-- Invoked programs: the `u8` program id indices never reach the bound of
`is_key_called_as_program`. -/
theorem isKeyCalledAsProgram_eq_any (instructions : List CompiledInstruction) (i : Nat) :
    isKeyCalledAsProgram instructions i =
      instructions.any fun ix => ix.programIdIndex.toNat == i := by
  rw [Bool.eq_iff_iff, isKeyCalledAsProgram_iff, List.any_eq_true]
  simp only [beq_iff_eq]

section View

variable {view : TransactionView}

/-- The wrapping `u8` count of writable unsigned static keys does not wrap on a sanitized
header. -/
theorem toNat_numWritableUnsignedStaticAccounts (hunsigned :
    view.numRequiredSignatures.toNat + view.numReadonlyUnsignedStaticAccounts.toNat ≤
      view.numStaticAccountKeys.toNat) :
    view.numWritableUnsignedStaticAccounts.toNat = view.numStaticAccountKeys.toNat -
      view.numRequiredSignatures.toNat - view.numReadonlyUnsignedStaticAccounts.toNat := by
  have hsigned : view.numRequiredSignatures ≤ view.numStaticAccountKeys :=
    UInt8.le_iff_toNat_le.mpr (by omega)
  have hunsigned' : view.numReadonlyUnsignedStaticAccounts ≤
      view.numStaticAccountKeys - view.numRequiredSignatures := by
    rw [UInt8.le_iff_toNat_le, UInt8.toNat_sub_of_le _ _ hsigned]
    omega
  unfold TransactionView.numWritableUnsignedStaticAccounts
  rw [UInt8.toNat_sub_of_le _ _ hunsigned', UInt8.toNat_sub_of_le _ _ hsigned]

/-- The wrapping `u8` count of writable signers does not wrap on a sanitized header. -/
theorem toNat_numWritableSignedStaticAccounts (hsigned :
    view.numReadonlySignedStaticAccounts.toNat < view.numRequiredSignatures.toNat) :
    view.numWritableSignedStaticAccounts.toNat =
      view.numRequiredSignatures.toNat - view.numReadonlySignedStaticAccounts.toNat :=
  UInt8.toNat_sub_of_le _ _ (UInt8.le_iff_toNat_le.mpr (Nat.le_of_lt hsigned))

/-- `cache_is_writable` locks exactly the writable keys, once the view's counts are those of a
sanitized header and its lookups count the resolved writable addresses. -/
theorem cacheIsWritable_iff
    (hsigned : view.numReadonlySignedStaticAccounts.toNat < view.numRequiredSignatures.toNat)
    (hunsigned : view.numRequiredSignatures.toNat + view.numReadonlyUnsignedStaticAccounts.toNat ≤
      view.numStaticAccountKeys.toNat)
    (hstatic : view.staticAccountKeys.length = view.numStaticAccountKeys.toNat)
    (resolvedAddresses : Option LoadedAddresses)
    (hwritable : (resolvedAddresses.map (·.writable.length)).getD 0 =
      view.totalWritableLookupAccounts.toNat)
    (reservedAccountKeys : List Pubkey) (i : Nat) :
    (cacheIsWritable view resolvedAddresses reservedAccountKeys).getD i false = true ↔
      Writable ⟨view.numRequiredSignatures, view.numReadonlySignedStaticAccounts,
          view.numReadonlyUnsignedStaticAccounts⟩ view.staticAccountKeys resolvedAddresses
        view.instructions reservedAccountKeys i := by
  unfold cacheIsWritable Writable
  dsimp only
  rw [foldl_demoteStep_getD _ _ _ _ (fun b h => absurd h (Option.not_mem_none b)), getD_map_zipIdx,
    ← isKeyCalledAsProgram_eq_any, ← demoteProgramId.eq_1]
  cases hkey : (AccountKeys.new view.staticAccountKeys resolvedAddresses)[i]? with
  | none =>
    constructor
    · intro h
      cases h
    · rintro ⟨_, h, _⟩
      cases h
  | some key =>
    simp only [Option.map_some, Option.getD_some, Option.some.injEq, exists_eq_left',
      Bool.and_eq_true, decide_eq_true_eq, Bool.not_eq_true']
    rw [demoteProgramId_eq_false_iff, Bool.eq_false_iff, ne_eq, List.contains_iff_mem,
      toNat_numWritableUnsignedStaticAccounts hunsigned,
      toNat_numWritableSignedStaticAccounts hsigned, hstatic, hwritable]
    -- the three parts of the layout, as the view tells them apart
    have hregion : (if i ≥ view.numStaticAccountKeys.toNat then
          i - view.numStaticAccountKeys.toNat < view.totalWritableLookupAccounts.toNat
        else if i ≥ view.numRequiredSignatures.toNat then
          i - view.numRequiredSignatures.toNat < view.numStaticAccountKeys.toNat -
            view.numRequiredSignatures.toNat - view.numReadonlyUnsignedStaticAccounts.toNat
        else i < view.numRequiredSignatures.toNat - view.numReadonlySignedStaticAccounts.toNat) ↔
        WritableRegion ⟨view.numRequiredSignatures, view.numReadonlySignedStaticAccounts,
          view.numReadonlyUnsignedStaticAccounts⟩ view.numStaticAccountKeys.toNat
          view.totalWritableLookupAccounts.toNat i := by
      unfold WritableRegion
      dsimp only
      split_ifs <;> omega
    rw [hregion, and_assoc]

/-- `try_new` succeeds once the resolved addresses match the lookups in number. -/
theorem tryNew_eq_ok (view : TransactionView) (resolvedAddresses : Option LoadedAddresses)
    (hwritable : (resolvedAddresses.map (·.writable.length)).getD 0 =
      view.totalWritableLookupAccounts.toNat)
    (hreadonly : (resolvedAddresses.map (·.readonly.length)).getD 0 =
      view.totalReadonlyLookupAccounts.toNat)
    (reservedAccountKeys : List Pubkey) :
    tryNew view resolvedAddresses reservedAccountKeys =
      .ok ⟨view, resolvedAddresses,
        cacheIsWritable view resolvedAddresses reservedAccountKeys⟩ := by
  unfold tryNew
  dsimp only
  cases resolvedAddresses with
  | none =>
    have hw : view.totalWritableLookupAccounts = 0 := UInt16.toNat_inj.mp hwritable.symm
    have hr : view.totalReadonlyLookupAccounts = 0 := UInt16.toNat_inj.mp hreadonly.symm
    rw [hw, hr]
    rfl
  | some loadedAddresses =>
    rw [Option.map_some, Option.getD_some] at hwritable hreadonly
    simp only [hwritable, hreadonly, bne_self_eq_false, Bool.or_false, Bool.false_eq_true,
      if_false]

/-- `num_write_locks` does not wrap while the read-only keys are among the keys. -/
theorem numWriteLocks_eq {resolved : ResolvedTransactionView}
    (hreadonly : resolved.numReadonlyAccounts ≤ resolved.accountKeys.length)
    (hlen : resolved.accountKeys.length < 2 ^ 64) :
    resolved.numWriteLocks = resolved.accountKeys.length - resolved.numReadonlyAccounts := by
  have hro : resolved.numReadonlyAccounts < 2 ^ 64 := Nat.lt_of_le_of_lt hreadonly hlen
  have hle : BitVec.ofNat 64 resolved.numReadonlyAccounts ≤
      BitVec.ofNat 64 resolved.accountKeys.length := by
    rw [BitVec.le_def, BitVec.toNat_ofNat, BitVec.toNat_ofNat, Nat.mod_eq_of_lt hlen,
      Nat.mod_eq_of_lt hro]
    exact hreadonly
  unfold numWriteLocks
  rw [BitVec.toNat_sub_of_le hle, BitVec.toNat_ofNat, BitVec.toNat_ofNat, Nat.mod_eq_of_lt hlen,
    Nat.mod_eq_of_lt hro]

end View

end ResolvedTransactionView

/-! ## The view of a message -/

/-- What the view of a message reads from its frame: the header's counts, the static keys, the
instructions, and how many keys the lookups load of each kind. -/
structure TransactionView.Reads (view : TransactionView) (message : VersionedMessage) : Prop where
  numRequiredSignatures : view.numRequiredSignatures = message.header.numRequiredSignatures
  numReadonlySigned :
    view.numReadonlySignedStaticAccounts = message.header.numReadonlySignedAccounts
  numReadonlyUnsigned :
    view.numReadonlyUnsignedStaticAccounts = message.header.numReadonlyUnsignedAccounts
  numStaticAccountKeys : view.numStaticAccountKeys.toNat = message.staticAccountKeys.length
  staticAccountKeys : view.staticAccountKeys = message.staticAccountKeys
  instructions : view.instructions = message.instructions
  totalWritable : view.totalWritableLookupAccounts.toNat =
    (message.addressTableLookups.map (·.writableIndexes.length)).sum
  totalReadonly : view.totalReadonlyLookupAccounts.toNat =
    (message.addressTableLookups.map (·.readonlyIndexes.length)).sum
  static_le : message.staticAccountKeys.length ≤ TransactionView.MAX_STATIC_ACCOUNTS_PER_PACKET

theorem TransactionView.Reads.header {view : TransactionView} {message : VersionedMessage}
    (h : view.Reads message) :
    (⟨view.numRequiredSignatures, view.numReadonlySignedStaticAccounts,
      view.numReadonlyUnsignedStaticAccounts⟩ : MessageHeader) = message.header := by
  rw [h.numRequiredSignatures, h.numReadonlySigned, h.numReadonlyUnsigned]

/-- A view of a message reads the message's fields: the key counts fit their integers. -/
theorem TransactionView.reads_of_ofMessage {message : VersionedMessage} {view : TransactionView}
    (h : TransactionView.ofMessage message = some view) : view.Reads message := by
  unfold TransactionView.ofMessage at h
  dsimp only at h
  split_ifs at h with hbad
  obtain ⟨hpos, hmax, hw, hr⟩ : message.staticAccountKeys.length ≠ 0 ∧
      message.staticAccountKeys.length ≤ TransactionView.MAX_STATIC_ACCOUNTS_PER_PACKET ∧
      (message.addressTableLookups.map (·.writableIndexes.length)).sum < 2 ^ 16 ∧
      (message.addressTableLookups.map (·.readonlyIndexes.length)).sum < 2 ^ 16 := by
    simp only [not_or, not_lt, not_le] at hbad
    exact hbad
  have hsmall : TransactionView.MAX_STATIC_ACCOUNTS_PER_PACKET < UInt8.size := by decide
  cases h
  refine ⟨rfl, rfl, rfl, ?_, rfl, rfl, ?_, ?_, hmax⟩
  · rw [Nat.toUInt8_eq, UInt8.toNat_ofNat_of_lt' (Nat.lt_of_le_of_lt hmax hsmall)]
  · rw [Nat.toUInt16_eq, UInt16.toNat_ofNat_of_lt' hw]
  · rw [Nat.toUInt16_eq, UInt16.toNat_ofNat_of_lt' hr]

namespace VersionedMessage

/-- A sanitized message has room among its static keys for the signers and the read-only unsigned
keys, and fewer read-only signers than signers. -/
theorem header_le_of_sanitize {message : VersionedMessage} (h : message.sanitize = .ok ()) :
    message.header.numRequiredSignatures.toNat + message.header.numReadonlyUnsignedAccounts.toNat ≤
        message.staticAccountKeys.length ∧
      message.header.numReadonlySignedAccounts.toNat <
        message.header.numRequiredSignatures.toNat := by
  cases message with
  | legacy m =>
    have hm := (Legacy.Message.sanitize_eq_ok_iff m).mp h
    exact ⟨hm.header_le, hm.readonlySigned_lt⟩
  | v0 m =>
    have hm := (V0.Message.sanitize_eq_ok_iff m).mp h
    exact ⟨hm.header_le, hm.readonlySigned_lt⟩

/-- A count over the resolved addresses is the count over the lookups, when the loaded addresses
match them: a legacy message resolves none and has no lookups. -/
theorem getD_map_resolvedAddresses {message : VersionedMessage} {loadedAddresses : LoadedAddresses}
    (f : LoadedAddresses → Nat) (g : MessageAddressTableLookup → Nat)
    (h : f loadedAddresses = (message.addressTableLookups.map g).sum) :
    ((message.resolvedAddresses loadedAddresses).map f).getD 0 =
      (message.addressTableLookups.map g).sum := by
  cases message with
  | legacy m => rfl
  | v0 m => exact h

end VersionedMessage

namespace SanitizedMessage

/-- `SanitizedMessage::is_writable` locks exactly the writable keys of a sanitized message. -/
theorem isWritable_tryNew_iff {message : VersionedMessage} (hsanitized : message.sanitize = .ok ())
    (loadedAddresses : LoadedAddresses) (reservedAccountKeys : List Pubkey) (i : Nat) :
    (tryNew message loadedAddresses reservedAccountKeys).isWritable i = true ↔
      Writable message.header message.staticAccountKeys
        (message.resolvedAddresses loadedAddresses) message.instructions reservedAccountKeys i := by
  cases message with
  | legacy m =>
    exact LegacyMessage.isWritable_new_iff ((Legacy.Message.sanitize_eq_ok_iff m).mp hsanitized)
      reservedAccountKeys i
  | v0 m =>
    exact V0.LoadedMessage.isWritable_new_iff ((V0.Message.sanitize_eq_ok_iff m).mp hsanitized)
      loadedAddresses reservedAccountKeys i

/-- `num_write_locks` of a wrapped message: its keys less its read-only keys. -/
theorem numWriteLocks_tryNew (message : VersionedMessage) (loadedAddresses : LoadedAddresses)
    (reservedAccountKeys : List Pubkey) :
    (tryNew message loadedAddresses reservedAccountKeys).numWriteLocks =
      (AccountKeys.new message.staticAccountKeys
          (message.resolvedAddresses loadedAddresses)).length -
        (((message.resolvedAddresses loadedAddresses).map (·.readonly.length)).getD 0 +
          message.header.numReadonlySignedAccounts.toNat +
          message.header.numReadonlyUnsignedAccounts.toNat) := by
  cases message <;> rfl

end SanitizedMessage

/-! ## The three computations agree -/

/-- The view of a sanitized message and the message wrapped by the runtime lock the same keys, each
exactly the keys of `Writable`, and count the same write locks. -/
theorem write_locks_agree (message : VersionedMessage) (loadedAddresses : LoadedAddresses)
    (reservedAccountKeys : List Pubkey) (view : TransactionView)
    (hsanitized : message.sanitize = .ok ())
    (hview : TransactionView.ofMessage message = some view)
    (hwritable : loadedAddresses.writable.length =
      (message.addressTableLookups.map (·.writableIndexes.length)).sum)
    (hreadonly : loadedAddresses.readonly.length =
      (message.addressTableLookups.map (·.readonlyIndexes.length)).sum) :
    ∃ resolved, ResolvedTransactionView.tryNew view (message.resolvedAddresses loadedAddresses)
        reservedAccountKeys = .ok resolved ∧
      (∀ i, resolved.isWritable i =
        (SanitizedMessage.tryNew message loadedAddresses reservedAccountKeys).isWritable i) ∧
      (∀ i, (SanitizedMessage.tryNew message loadedAddresses reservedAccountKeys).isWritable i =
          true ↔
        Writable message.header message.staticAccountKeys
          (message.resolvedAddresses loadedAddresses) message.instructions reservedAccountKeys i) ∧
      resolved.numWriteLocks =
        (SanitizedMessage.tryNew message loadedAddresses reservedAccountKeys).numWriteLocks := by
  obtain ⟨hheader, hsigned⟩ := VersionedMessage.header_le_of_sanitize hsanitized
  have hreads := TransactionView.reads_of_ofMessage hview
  -- the lookups' counts, as the resolved addresses and as the view see them
  have hW := VersionedMessage.getD_map_resolvedAddresses (fun loaded => loaded.writable.length)
    (fun lookup => lookup.writableIndexes.length) hwritable
  have hR := VersionedMessage.getD_map_resolvedAddresses (fun loaded => loaded.readonly.length)
    (fun lookup => lookup.readonlyIndexes.length) hreadonly
  have hviewW := hW.trans hreads.totalWritable.symm
  have hviewR := hR.trans hreads.totalReadonly.symm
  -- the view's counts are those of the sanitized header
  have hviewSigned : view.numReadonlySignedStaticAccounts.toNat <
      view.numRequiredSignatures.toNat := by
    rw [hreads.numRequiredSignatures, hreads.numReadonlySigned]
    exact hsigned
  have hviewUnsigned : view.numRequiredSignatures.toNat +
      view.numReadonlyUnsignedStaticAccounts.toNat ≤ view.numStaticAccountKeys.toNat := by
    rw [hreads.numRequiredSignatures, hreads.numReadonlyUnsigned, hreads.numStaticAccountKeys]
    exact hheader
  have hstatic : view.staticAccountKeys.length = view.numStaticAccountKeys.toNat := by
    rw [hreads.staticAccountKeys, hreads.numStaticAccountKeys]
  refine ⟨_, ResolvedTransactionView.tryNew_eq_ok view _ hviewW hviewR reservedAccountKeys,
    fun i => ?_, SanitizedMessage.isWritable_tryNew_iff hsanitized loadedAddresses
      reservedAccountKeys, ?_⟩
  · -- both caches are `Writable`
    rw [Bool.eq_iff_iff, SanitizedMessage.isWritable_tryNew_iff hsanitized,
      ← hreads.header, ← hreads.staticAccountKeys, ← hreads.instructions]
    exact ResolvedTransactionView.cacheIsWritable_iff hviewSigned hviewUnsigned hstatic _ hviewW
      reservedAccountKeys i
  · -- both counts are the keys less the read-only keys, which do not outnumber them
    have hlen := length_accountKeys_new message.staticAccountKeys
      (message.resolvedAddresses loadedAddresses)
    have hboth : ((message.resolvedAddresses loadedAddresses).map
        fun loaded => loaded.writable.length + loaded.readonly.length).getD 0 =
        view.totalWritableLookupAccounts.toNat + view.totalReadonlyLookupAccounts.toNat := by
      rw [← hviewW, ← hviewR]
      cases message.resolvedAddresses loadedAddresses <;> rfl
    have hmax : message.staticAccountKeys.length ≤ 38 := hreads.static_le
    have hW16 := view.totalWritableLookupAccounts.toNat_lt
    have hR16 := view.totalReadonlyLookupAccounts.toNat_lt
    rw [SanitizedMessage.numWriteLocks_tryNew, ResolvedTransactionView.numWriteLocks_eq]
    · simp only [ResolvedTransactionView.accountKeys, ResolvedTransactionView.numReadonlyAccounts,
        hreads.staticAccountKeys, hviewR, hreads.numReadonlySigned, hreads.numReadonlyUnsigned]
    · simp only [ResolvedTransactionView.accountKeys, ResolvedTransactionView.numReadonlyAccounts,
        hreads.staticAccountKeys, hreads.numReadonlySigned, hreads.numReadonlyUnsigned, hlen, hboth]
      omega
    · simp only [ResolvedTransactionView.accountKeys, hreads.staticAccountKeys, hlen, hboth]
      omega

/-- A v0 message with one lookup table loading a writable and a read-only key: its program is a
read-only unsigned key. -/
theorem write_locks_agree_one_lookup :
    ∃ resolved, ResolvedTransactionView.tryNew
        ⟨1, 0, 1, 2, [⟨1⟩, ⟨2⟩], [⟨1, [0, 2], []⟩], 1, 1⟩
        (VersionedMessage.resolvedAddresses
          (.v0 ⟨⟨1, 0, 1⟩, [⟨1⟩, ⟨2⟩], [⟨1, [0, 2], []⟩], [⟨⟨9⟩, [0], [1]⟩]⟩)
          ⟨[⟨3⟩], [⟨4⟩]⟩) [] = .ok resolved ∧
      (∀ i, resolved.isWritable i = (SanitizedMessage.tryNew
        (.v0 ⟨⟨1, 0, 1⟩, [⟨1⟩, ⟨2⟩], [⟨1, [0, 2], []⟩], [⟨⟨9⟩, [0], [1]⟩]⟩)
        ⟨[⟨3⟩], [⟨4⟩]⟩ []).isWritable i) ∧
      (∀ i, (SanitizedMessage.tryNew
          (.v0 ⟨⟨1, 0, 1⟩, [⟨1⟩, ⟨2⟩], [⟨1, [0, 2], []⟩], [⟨⟨9⟩, [0], [1]⟩]⟩)
          ⟨[⟨3⟩], [⟨4⟩]⟩ []).isWritable i = true ↔
        Writable ⟨1, 0, 1⟩ [⟨1⟩, ⟨2⟩] (some ⟨[⟨3⟩], [⟨4⟩]⟩) [⟨1, [0, 2], []⟩] [] i) ∧
      resolved.numWriteLocks = (SanitizedMessage.tryNew
        (.v0 ⟨⟨1, 0, 1⟩, [⟨1⟩, ⟨2⟩], [⟨1, [0, 2], []⟩], [⟨⟨9⟩, [0], [1]⟩]⟩)
        ⟨[⟨3⟩], [⟨4⟩]⟩ []).numWriteLocks :=
  write_locks_agree (.v0 ⟨⟨1, 0, 1⟩, [⟨1⟩, ⟨2⟩], [⟨1, [0, 2], []⟩], [⟨⟨9⟩, [0], [1]⟩]⟩)
    ⟨[⟨3⟩], [⟨4⟩]⟩ [] ⟨1, 0, 1, 2, [⟨1⟩, ⟨2⟩], [⟨1, [0, 2], []⟩], 1, 1⟩ rfl rfl rfl rfl

end Agave.Sdk
