import Agave.Sdk.Message

/-!
# Legacy and v0 messages

The two message formats of `sdk/program/src/message`: `legacy::Message`, which lists every key
it uses, and `v0::Message`, which also loads keys from address lookup tables. Both describe their
static keys with one `MessageHeader`: the first `num_required_signatures` keys sign, and the last
`num_readonly_signed_accounts` of the signers and the last `num_readonly_unsigned_accounts` of the
other static keys are read-only. `AccountKeys` lists the static keys, then the keys loaded as
writable, then those loaded as readonly.

`sanitize` checks that the header fits the keys and that every index of an instruction is in
range. Each format's check is characterised as a record of conditions
(`Legacy.Message.sanitize_eq_ok_iff`, `V0.Message.sanitize_eq_ok_iff`); the loops of the checks
are taken apart by `forM_eq_ok_iff`.
-/

namespace Agave.Sdk

/-- `MessageHeader`. -/
structure MessageHeader where
  numRequiredSignatures : UInt8
  numReadonlySignedAccounts : UInt8
  numReadonlyUnsignedAccounts : UInt8
  deriving DecidableEq, Repr

/-- `SanitizeError`, the two kinds the message checks return. -/
inductive SanitizeError where
  | indexOutOfBounds
  | invalidValue
  deriving DecidableEq, Repr

/-- `MessageAddressTableLookup`: a lookup table and the indexes of its entries loaded as writable
and as readonly. -/
structure MessageAddressTableLookup where
  accountKey : Pubkey
  writableIndexes : List UInt8
  readonlyIndexes : List UInt8
  deriving DecidableEq, Repr

/-- `v0::LoadedAddresses`: the keys loaded for the lookups, writable then readonly. -/
structure LoadedAddresses where
  writable : List Pubkey
  readonly : List Pubkey
  deriving DecidableEq, Repr

/-- `AccountKeys::new(static_keys, dynamic_keys)`, in the order its iterator and `get` see the
keys. -/
def AccountKeys.new (staticKeys : List Pubkey) (dynamicKeys : Option LoadedAddresses) :
    List Pubkey :=
  match dynamicKeys with
  | none => staticKeys
  | some loaded => staticKeys ++ loaded.writable ++ loaded.readonly

theorem length_accountKeys_new (staticKeys : List Pubkey) (dynamicKeys : Option LoadedAddresses) :
    (AccountKeys.new staticKeys dynamicKeys).length = staticKeys.length +
      ((dynamicKeys.map fun loaded => loaded.writable.length + loaded.readonly.length).getD 0) := by
  cases dynamicKeys with
  | none => rfl
  | some loaded =>
    simp only [AccountKeys.new, List.length_append, Option.map_some, Option.getD_some,
      Nat.add_assoc]

/-- A `for` loop of checks in `Except` passes when every turn does. -/
theorem forM_eq_ok_iff {α ε : Type} (l : List α) (f : α → Except ε Unit) :
    l.forM f = .ok () ↔ ∀ a ∈ l, f a = .ok () := by
  induction l with
  | nil => exact ⟨fun _ _ h => (nomatch h), fun _ => rfl⟩
  | cons a rest ih =>
    show (f a >>= fun _ => rest.forM f) = .ok () ↔ _
    rw [List.forall_mem_cons, ← ih]
    cases f a with
    | error e => exact ⟨nofun, fun h => nomatch h.1⟩
    | ok u => exact ⟨fun h => ⟨rfl, h⟩, fun h => h.2⟩

namespace Legacy

/-- `legacy::Message`; the recent blockhash, which no modelled function reads, is left out. -/
structure Message where
  header : MessageHeader
  accountKeys : List Pubkey
  instructions : List CompiledInstruction
  deriving DecidableEq, Repr

/-- The check of one instruction in `legacy::Message::sanitize`. -/
def sanitizeInstruction (numAccountKeys : Nat) (ci : CompiledInstruction) :
    Except SanitizeError Unit := do
  if ci.programIdIndex.toNat ≥ numAccountKeys then throw .indexOutOfBounds
  -- a program cannot be a payer
  if ci.programIdIndex = 0 then throw .indexOutOfBounds
  ci.accounts.forM fun ai => if ai.toNat ≥ numAccountKeys then throw .indexOutOfBounds else pure ()

/-- `legacy::Message::sanitize`; the keys, the blockhash and the instructions themselves always
sanitize. -/
def Message.sanitize (m : Message) : Except SanitizeError Unit := do
  -- signing area and read-only non-signing area should not overlap
  if m.header.numRequiredSignatures.toNat + m.header.numReadonlyUnsignedAccounts.toNat >
      m.accountKeys.length then
    throw .indexOutOfBounds
  -- there should be at least 1 RW fee-payer account
  if m.header.numReadonlySignedAccounts ≥ m.header.numRequiredSignatures then
    throw .indexOutOfBounds
  m.instructions.forM (sanitizeInstruction m.accountKeys.length)

/-- What `legacy::Message::sanitize` checks. -/
structure Message.Sanitized (m : Message) : Prop where
  header_le : m.header.numRequiredSignatures.toNat + m.header.numReadonlyUnsignedAccounts.toNat ≤
    m.accountKeys.length
  readonlySigned_lt :
    m.header.numReadonlySignedAccounts.toNat < m.header.numRequiredSignatures.toNat
  programIdIndex_lt : ∀ ci ∈ m.instructions, ci.programIdIndex.toNat < m.accountKeys.length
  programIdIndex_ne : ∀ ci ∈ m.instructions, ci.programIdIndex ≠ 0
  accounts_lt : ∀ ci ∈ m.instructions, ∀ ai ∈ ci.accounts, ai.toNat < m.accountKeys.length

theorem sanitizeInstruction_eq_ok_iff (numAccountKeys : Nat) (ci : CompiledInstruction) :
    sanitizeInstruction numAccountKeys ci = .ok () ↔ ci.programIdIndex.toNat < numAccountKeys ∧
      ci.programIdIndex ≠ 0 ∧ ∀ ai ∈ ci.accounts, ai.toNat < numAccountKeys := by
  unfold sanitizeInstruction
  dsimp only
  by_cases hlt : ci.programIdIndex.toNat ≥ numAccountKeys
  · rw [if_pos hlt]
    exact ⟨nofun, fun h => absurd h.1 (by omega)⟩
  rw [if_neg hlt]
  by_cases hzero : ci.programIdIndex = 0
  · rw [if_pos hzero]
    exact ⟨nofun, fun h => absurd hzero h.2.1⟩
  rw [if_neg hzero, forM_eq_ok_iff]
  constructor
  · intro h
    refine ⟨by omega, hzero, fun ai hai => ?_⟩
    have hai_ok := h ai hai
    by_cases hge : ai.toNat ≥ numAccountKeys
    · rw [if_pos hge] at hai_ok
      cases hai_ok
    · omega
  · intro h ai hai
    rw [if_neg (by have := h.2.2 ai hai; omega)]
    rfl

theorem Message.sanitize_eq_ok_iff (m : Message) : m.sanitize = .ok () ↔ m.Sanitized := by
  unfold Message.sanitize
  dsimp only
  by_cases hle : m.header.numRequiredSignatures.toNat + m.header.numReadonlyUnsignedAccounts.toNat >
      m.accountKeys.length
  · rw [if_pos hle]
    exact ⟨nofun, fun h => absurd h.header_le (by omega)⟩
  rw [if_neg hle]
  by_cases hsigned : m.header.numReadonlySignedAccounts ≥ m.header.numRequiredSignatures
  · rw [if_pos hsigned]
    exact ⟨nofun, fun h => absurd h.readonlySigned_lt
      (Nat.not_lt.mpr (UInt8.le_iff_toNat_le.mp hsigned))⟩
  rw [if_neg hsigned, forM_eq_ok_iff]
  have hsigned_lt := UInt8.lt_iff_toNat_lt.mp (UInt8.not_le.mp hsigned)
  simp only [sanitizeInstruction_eq_ok_iff]
  constructor
  · intro h
    exact ⟨by omega, hsigned_lt, fun ci hci => (h ci hci).1, fun ci hci => (h ci hci).2.1,
      fun ci hci => (h ci hci).2.2⟩
  · intro h ci hci
    exact ⟨h.programIdIndex_lt ci hci, h.programIdIndex_ne ci hci, h.accounts_lt ci hci⟩

end Legacy

namespace V0

/-- `v0::Message`; the recent blockhash is left out. -/
structure Message where
  header : MessageHeader
  accountKeys : List Pubkey
  instructions : List CompiledInstruction
  addressTableLookups : List MessageAddressTableLookup
  deriving DecidableEq, Repr

/-- The number of keys the lookups load. -/
def Message.numDynamicAccountKeys (m : Message) : Nat :=
  (m.addressTableLookups.map fun lookup =>
    lookup.writableIndexes.length + lookup.readonlyIndexes.length).sum

/-- One turn of the count of the lookups' keys in `v0::Message::sanitize`: each lookup must load
some key. -/
def countLookupKeys (totalLookupKeys : Nat) (lookup : MessageAddressTableLookup) :
    Except SanitizeError Nat := do
  let numLookupIndexes := lookup.writableIndexes.length + lookup.readonlyIndexes.length
  if numLookupIndexes = 0 then throw .invalidValue
  pure (totalLookupKeys + numLookupIndexes)

/-- The check of one instruction in `v0::Message::sanitize`. -/
def sanitizeInstruction (maxProgramIdIx maxAccountIx : Nat) (ci : CompiledInstruction) :
    Except SanitizeError Unit := do
  if ci.programIdIndex.toNat > maxProgramIdIx then throw .indexOutOfBounds
  -- a program cannot be a payer
  if ci.programIdIndex = 0 then throw .indexOutOfBounds
  ci.accounts.forM fun ai => if ai.toNat > maxAccountIx then throw .indexOutOfBounds else pure ()

/-- `v0::Message::sanitize`. The sums saturate at `usize::MAX`, which at most 256 keys never
reach. -/
def Message.sanitize (m : Message) : Except SanitizeError Unit := do
  let numStaticAccountKeys := m.accountKeys.length
  if m.header.numRequiredSignatures.toNat + m.header.numReadonlyUnsignedAccounts.toNat >
      numStaticAccountKeys then
    throw .indexOutOfBounds
  -- there should be at least 1 RW fee-payer account
  if m.header.numReadonlySignedAccounts ≥ m.header.numRequiredSignatures then
    throw .invalidValue
  let numDynamicAccountKeys ← m.addressTableLookups.foldlM countLookupKeys 0
  if numStaticAccountKeys = 0 then throw .invalidValue
  -- account indices are encoded as `u8`
  let totalAccountKeys := numStaticAccountKeys + numDynamicAccountKeys
  if totalAccountKeys > 256 then throw .indexOutOfBounds
  m.instructions.forM (sanitizeInstruction (numStaticAccountKeys - 1) (totalAccountKeys - 1))

/-- What `v0::Message::sanitize` checks. -/
structure Message.Sanitized (m : Message) : Prop where
  header_le : m.header.numRequiredSignatures.toNat + m.header.numReadonlyUnsignedAccounts.toNat ≤
    m.accountKeys.length
  readonlySigned_lt :
    m.header.numReadonlySignedAccounts.toNat < m.header.numRequiredSignatures.toNat
  lookup_pos : ∀ lookup ∈ m.addressTableLookups,
    0 < lookup.writableIndexes.length + lookup.readonlyIndexes.length
  total_le : m.accountKeys.length + m.numDynamicAccountKeys ≤ 256
  programIdIndex_lt : ∀ ci ∈ m.instructions, ci.programIdIndex.toNat < m.accountKeys.length
  programIdIndex_ne : ∀ ci ∈ m.instructions, ci.programIdIndex ≠ 0
  accounts_lt : ∀ ci ∈ m.instructions, ∀ ai ∈ ci.accounts,
    ai.toNat < m.accountKeys.length + m.numDynamicAccountKeys

/-- The count of the lookups' keys succeeds when each lookup loads a key, with their sum. -/
theorem foldlM_countLookupKeys (lookups : List MessageAddressTableLookup) (total : Nat) :
    lookups.foldlM countLookupKeys total =
      if ∀ lookup ∈ lookups, 0 < lookup.writableIndexes.length + lookup.readonlyIndexes.length
      then .ok (total + (lookups.map fun lookup =>
        lookup.writableIndexes.length + lookup.readonlyIndexes.length).sum)
      else .error .invalidValue := by
  induction lookups generalizing total with
  | nil => simp; rfl
  | cons lookup rest ih =>
    rw [List.foldlM_cons]
    by_cases hzero : lookup.writableIndexes.length + lookup.readonlyIndexes.length = 0
    · rw [if_neg (fun h => by have := h lookup List.mem_cons_self; omega)]
      simp [countLookupKeys, hzero, throw, throwThe, MonadExceptOf.throw, bind, Except.bind]
    · simp only [countLookupKeys, hzero, if_false, pure, Except.pure, bind, Except.bind, ih,
        List.forall_mem_cons, List.map_cons, List.sum_cons, Nat.add_assoc]
      by_cases hrest : ∀ lookup ∈ rest, 0 < lookup.writableIndexes.length +
          lookup.readonlyIndexes.length
      · rw [if_pos hrest, if_pos ⟨by omega, hrest⟩]
      · rw [if_neg hrest, if_neg (fun h => hrest h.2)]

theorem sanitizeInstruction_eq_ok_iff (maxProgramIdIx maxAccountIx : Nat)
    (ci : CompiledInstruction) :
    sanitizeInstruction maxProgramIdIx maxAccountIx ci = .ok () ↔
      ci.programIdIndex.toNat ≤ maxProgramIdIx ∧ ci.programIdIndex ≠ 0 ∧
        ∀ ai ∈ ci.accounts, ai.toNat ≤ maxAccountIx := by
  unfold sanitizeInstruction
  dsimp only
  by_cases hgt : ci.programIdIndex.toNat > maxProgramIdIx
  · rw [if_pos hgt]
    exact ⟨nofun, fun h => absurd h.1 (by omega)⟩
  rw [if_neg hgt]
  by_cases hzero : ci.programIdIndex = 0
  · rw [if_pos hzero]
    exact ⟨nofun, fun h => absurd hzero h.2.1⟩
  rw [if_neg hzero, forM_eq_ok_iff]
  constructor
  · intro h
    refine ⟨by omega, hzero, fun ai hai => ?_⟩
    have hai_ok := h ai hai
    by_cases hgt' : ai.toNat > maxAccountIx
    · rw [if_pos hgt'] at hai_ok
      cases hai_ok
    · omega
  · intro h ai hai
    rw [if_neg (by have := h.2.2 ai hai; omega)]
    rfl

theorem Message.sanitize_eq_ok_iff (m : Message) : m.sanitize = .ok () ↔ m.Sanitized := by
  unfold Message.sanitize
  dsimp only
  by_cases hle : m.header.numRequiredSignatures.toNat + m.header.numReadonlyUnsignedAccounts.toNat >
      m.accountKeys.length
  · rw [if_pos hle]
    exact ⟨nofun, fun h => absurd h.header_le (by omega)⟩
  rw [if_neg hle]
  by_cases hsigned : m.header.numReadonlySignedAccounts ≥ m.header.numRequiredSignatures
  · rw [if_pos hsigned]
    exact ⟨nofun, fun h => absurd h.readonlySigned_lt
      (Nat.not_lt.mpr (UInt8.le_iff_toNat_le.mp hsigned))⟩
  rw [if_neg hsigned, foldlM_countLookupKeys]
  have hsigned_lt := UInt8.lt_iff_toNat_lt.mp (UInt8.not_le.mp hsigned)
  by_cases hlookups : ∀ lookup ∈ m.addressTableLookups,
      0 < lookup.writableIndexes.length + lookup.readonlyIndexes.length
  · rw [if_pos hlookups, Nat.zero_add]
    simp only [bind, Except.bind]
    -- the static keys are not empty: the fee payer is among them
    rw [if_neg (show m.accountKeys.length ≠ 0 by omega)]
    have hdynamic : (m.addressTableLookups.map fun lookup =>
        lookup.writableIndexes.length + lookup.readonlyIndexes.length).sum =
        m.numDynamicAccountKeys := rfl
    rw [hdynamic]
    by_cases htotal : m.accountKeys.length + m.numDynamicAccountKeys > 256
    · rw [if_pos htotal]
      exact ⟨nofun, fun h => absurd h.total_le (by omega)⟩
    rw [if_neg htotal, forM_eq_ok_iff]
    simp only [sanitizeInstruction_eq_ok_iff]
    constructor
    · intro h
      refine ⟨by omega, hsigned_lt, hlookups, by omega,
        fun ci hci => by have := (h ci hci).1; omega, fun ci hci => (h ci hci).2.1,
        fun ci hci ai hai => by have := (h ci hci).2.2 ai hai; omega⟩
    · intro h ci hci
      refine ⟨by have := h.programIdIndex_lt ci hci; omega, h.programIdIndex_ne ci hci,
        fun ai hai => by have := h.accounts_lt ci hci ai hai; omega⟩
  · rw [if_neg hlookups]
    exact ⟨nofun, fun h => absurd h.lookup_pos hlookups⟩

end V0

/-- `VersionedMessage`. -/
inductive VersionedMessage where
  | legacy (message : Legacy.Message)
  | v0 (message : V0.Message)
  deriving DecidableEq, Repr

namespace VersionedMessage

def header : VersionedMessage → MessageHeader
  | legacy m => m.header
  | v0 m => m.header

def staticAccountKeys : VersionedMessage → List Pubkey
  | legacy m => m.accountKeys
  | v0 m => m.accountKeys

def instructions : VersionedMessage → List CompiledInstruction
  | legacy m => m.instructions
  | v0 m => m.instructions

/-- `VersionedMessage::address_table_lookups`: none for a legacy message. -/
def addressTableLookups : VersionedMessage → List MessageAddressTableLookup
  | legacy _ => []
  | v0 m => m.addressTableLookups

/-- `VersionedMessage::sanitize`. -/
def sanitize : VersionedMessage → Except SanitizeError Unit
  | legacy m => m.sanitize
  | v0 m => m.sanitize

end VersionedMessage

end Agave.Sdk
