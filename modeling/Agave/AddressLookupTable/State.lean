import Agave.Sdk.Transaction
import Agave.Lib.ByteCodec

/-!
# Address lookup table accounts

`sdk/program/src/address_lookup_table/state.rs`. A table account holds its metadata in the first
`LOOKUP_TABLE_META_SIZE` bytes, as `bincode` writes `ProgramState::LookupTable(meta)` with the
unused bytes zero, and behind them its addresses, 32 bytes each. `overwrite_meta_data` rewrites
the first part in place; `deserialize` reads both back.

`Layout data tableMeta addresses` says that the bytes are laid out so; then `deserialize` returns
exactly that metadata and those addresses (`Layout.deserialize`), and rewriting the metadata
keeps the addresses (`Layout.overwriteMetaData`). The fields of the metadata are `u64`, `u8` and
`u16` in the source and `Nat` here, so `LookupTableMeta.InRange` carries their widths.

`SlotHashes::position` is a binary search over a list sorted by descending slot; for such a list
it is the index of the slot's entry, which is what `position` returns.
-/

namespace Agave.AddressLookupTableProgram

open ByteCodec

/-- `LOOKUP_TABLE_MAX_ADDRESSES`. -/
def LOOKUP_TABLE_MAX_ADDRESSES : Nat := 256

/-- `LOOKUP_TABLE_META_SIZE`. -/
def LOOKUP_TABLE_META_SIZE : Nat := 56

/-- `slot_hashes::MAX_ENTRIES`. -/
def MAX_ENTRIES : Nat := 512

/-- `PUBKEY_BYTES`. -/
def PUBKEY_BYTES : Nat := 32

/-- The `InstructionError`s the lookup table program raises. -/
inductive InstructionError where
  | invalidAccountData
  | genericError
  | uninitializedAccount
  | immutable
  | incorrectAuthority
  | invalidArgument
  | invalidInstructionData
  | missingRequiredSignature
  | arithmeticOverflow
  | accountDataTooSmall
  deriving DecidableEq, Repr

/-- `AddressLookupError`, the two variants a lookup raises. -/
inductive AddressLookupError where
  | lookupTableAccountNotFound
  | invalidLookupIndex
  deriving DecidableEq, Repr

/-- `LookupTableStatus`. -/
inductive LookupTableStatus where
  | activated
  | deactivating (remainingBlocks : Nat)
  | deactivated
  deriving DecidableEq, Repr

/-- `LookupTableMeta`. -/
structure LookupTableMeta where
  deactivationSlot : Nat
  lastExtendedSlot : Nat
  lastExtendedSlotStartIndex : Nat
  authority : Option Pubkey
  padding : Nat
  deriving DecidableEq, Repr

namespace LookupTableMeta

/-- `LookupTableMeta::default()`: active, never extended, frozen. -/
def default : LookupTableMeta := ⟨U64_MAX, 0, 0, none, 0⟩

/-- `LookupTableMeta::new`. -/
def new (authority : Pubkey) : LookupTableMeta := { LookupTableMeta.default with authority }

/-- Every field within the width the source gives it. -/
structure InRange (tableMeta : LookupTableMeta) : Prop where
  deactivationSlot_le : tableMeta.deactivationSlot ≤ U64_MAX
  lastExtendedSlot_le : tableMeta.lastExtendedSlot ≤ U64_MAX
  startIndex_lt : tableMeta.lastExtendedSlotStartIndex < 256
  padding_lt : tableMeta.padding < 2 ^ 16

/-- `SlotHashes::position`. -/
def position (slotHashes : List (Nat × Hash)) (slot : Nat) : Option Nat :=
  slotHashes.findIdx? (·.1 = slot)

/-- `LookupTableMeta::status`. -/
def status (tableMeta : LookupTableMeta) (currentSlot : Nat) (slotHashes : List (Nat × Hash)) :
    LookupTableStatus :=
  if tableMeta.deactivationSlot = U64_MAX then .activated
  else if tableMeta.deactivationSlot = currentSlot then
    .deactivating (saturatingAdd USIZE_MAX MAX_ENTRIES 1)
  else match position slotHashes tableMeta.deactivationSlot with
    -- the cool-down lasts as long as the deactivation slot is in `SlotHashes`
    | some slotHashPosition => .deactivating (MAX_ENTRIES - slotHashPosition)
    | none => .deactivated

/-- `LookupTableMeta::is_active`. -/
def isActive (tableMeta : LookupTableMeta) (currentSlot : Nat)
    (slotHashes : List (Nat × Hash)) : Bool :=
  match tableMeta.status currentSlot slotHashes with
  | .activated => true
  | .deactivating _ => true
  | .deactivated => false

end LookupTableMeta

/-- `ProgramState`. -/
inductive ProgramState where
  | uninitialized
  | lookupTable (tableMeta : LookupTableMeta)
  deriving DecidableEq, Repr

/-- `AddressLookupTable`: the metadata and the addresses behind it. -/
structure AddressLookupTable where
  tableMeta : LookupTableMeta
  addresses : List Pubkey
  deriving DecidableEq, Repr

/-! ## The bytes of a table account -/

/-- The 32 bytes of a key read back as the key, most significant first. -/
def Pubkey.ofBytes (bytes : List UInt8) : Pubkey := ⟨BitVec.ofNat 256 (beDecode bytes)⟩

/-- `bincode` of an `Option<Pubkey>`: a tag byte, then the key if there is one. -/
def serializeAuthority : Option Pubkey → List UInt8
  | none => [0]
  | some key => 1 :: key.toBytes

/-- `bincode` of a `ProgramState`: the variant as a `u32`, then the fields in order. -/
def serializeProgramState : ProgramState → List UInt8
  | .uninitialized => leEncode 4 0
  | .lookupTable tableMeta =>
    leEncode 4 1 ++ leEncode 8 tableMeta.deactivationSlot ++ leEncode 8 tableMeta.lastExtendedSlot ++
      leEncode 1 tableMeta.lastExtendedSlotStartIndex ++ serializeAuthority tableMeta.authority ++
      leEncode 2 tableMeta.padding

/-- `bincode` reading an `Option<Pubkey>`. -/
def readAuthority : List UInt8 → Option (Option Pubkey × List UInt8)
  | [] => none
  | tag :: rest =>
    if tag = 0 then some (none, rest)
    else if tag = 1 then
      if 32 ≤ rest.length then some (some (Pubkey.ofBytes (rest.take 32)), rest.drop 32) else none
    else none

/-- `bincode::deserialize::<ProgramState>`, which leaves trailing bytes unread. -/
def deserializeProgramState (bytes : List UInt8) : Option ProgramState := do
  let (tag, rest) ← readLe 4 bytes
  if tag = 0 then some .uninitialized
  else if tag = 1 then do
    let (deactivationSlot, rest) ← readLe 8 rest
    let (lastExtendedSlot, rest) ← readLe 8 rest
    let (lastExtendedSlotStartIndex, rest) ← readLe 1 rest
    let (authority, rest) ← readAuthority rest
    let (padding, _) ← readLe 2 rest
    some (.lookupTable
      ⟨deactivationSlot, lastExtendedSlot, lastExtendedSlotStartIndex, authority, padding⟩)
  else none

/-- `AddressLookupTable::overwrite_meta_data`: zero the metadata bytes and write the metadata
over them; `serialize_into` a slice too short for the encoding fails. -/
def overwriteMetaData (data : List UInt8) (tableMeta : LookupTableMeta) :
    Except InstructionError (List UInt8) :=
  if data.length < LOOKUP_TABLE_META_SIZE then .error .invalidAccountData
  else
    let bytes := serializeProgramState (.lookupTable tableMeta)
    if bytes.length ≤ LOOKUP_TABLE_META_SIZE then
      .ok (bytes ++ List.replicate (LOOKUP_TABLE_META_SIZE - bytes.length) 0 ++
        data.drop LOOKUP_TABLE_META_SIZE)
    else .error .genericError

/-- `AddressLookupTable::deserialize`: the metadata, then the bytes behind it cast to keys,
which fails unless they are a whole number of keys. -/
def deserialize (data : List UInt8) : Except InstructionError AddressLookupTable :=
  match deserializeProgramState data with
  | none => .error .invalidAccountData
  | some .uninitialized => .error .uninitializedAccount
  | some (.lookupTable tableMeta) =>
    if data.length < LOOKUP_TABLE_META_SIZE then .error .invalidAccountData
    else
      let raw := data.drop LOOKUP_TABLE_META_SIZE
      if raw.length % PUBKEY_BYTES ≠ 0 then .error .invalidAccountData
      else .ok ⟨tableMeta, decodeChunks PUBKEY_BYTES Pubkey.ofBytes (raw.length / PUBKEY_BYTES) raw⟩

/-! ## Reading back what was written -/

theorem Pubkey.toBytes_eq_beEncode (key : Pubkey) :
    key.toBytes = beEncode 32 key.toBitVec.toNat := rfl

@[simp] theorem Pubkey.length_toBytes (key : Pubkey) : key.toBytes.length = 32 := by
  simp [Pubkey.toBytes_eq_beEncode]

@[simp] theorem Pubkey.ofBytes_toBytes (key : Pubkey) : Pubkey.ofBytes key.toBytes = key := by
  have hlt : key.toBitVec.toNat < 2 ^ (8 * 32) := key.toBitVec.isLt
  rw [Pubkey.ofBytes, Pubkey.toBytes_eq_beEncode, beDecode_beEncode, Nat.mod_eq_of_lt hlt]
  simp

theorem readAuthority_serializeAuthority (authority : Option Pubkey) (rest : List UInt8) :
    readAuthority (serializeAuthority authority ++ rest) = some (authority, rest) := by
  cases authority with
  | none => simp [serializeAuthority, readAuthority]
  | some key =>
    have htake : (key.toBytes ++ rest).take 32 = key.toBytes :=
      List.take_left' (Pubkey.length_toBytes key)
    have hdrop : (key.toBytes ++ rest).drop 32 = rest :=
      List.drop_left' (Pubkey.length_toBytes key)
    simp [serializeAuthority, readAuthority, htake, hdrop]

theorem length_serializeAuthority_le (authority : Option Pubkey) :
    (serializeAuthority authority).length ≤ 33 := by
  cases authority <;> simp [serializeAuthority]

/-- The metadata encoding fits the bytes reserved for it. -/
theorem length_serializeProgramState_le (tableMeta : LookupTableMeta) :
    (serializeProgramState (.lookupTable tableMeta)).length ≤ LOOKUP_TABLE_META_SIZE := by
  have hauthority := length_serializeAuthority_le tableMeta.authority
  simp only [serializeProgramState, List.length_append, length_leEncode, LOOKUP_TABLE_META_SIZE]
  omega

/-- `bincode` reads back the metadata it wrote, whatever follows it. -/
theorem deserializeProgramState_lookupTable {tableMeta : LookupTableMeta}
    (hrange : tableMeta.InRange) (rest : List UInt8) :
    deserializeProgramState (serializeProgramState (.lookupTable tableMeta) ++ rest) =
      some (.lookupTable tableMeta) := by
  have hdeactivation : tableMeta.deactivationSlot < 2 ^ (8 * 8) := by
    have := hrange.deactivationSlot_le; simp only [U64_MAX] at this; omega
  have hextended : tableMeta.lastExtendedSlot < 2 ^ (8 * 8) := by
    have := hrange.lastExtendedSlot_le; simp only [U64_MAX] at this; omega
  simp [serializeProgramState, deserializeProgramState, readAuthority_serializeAuthority,
    readLe_leEncode_of_lt (show 1 < 2 ^ (8 * 4) by norm_num),
    readLe_leEncode_of_lt hdeactivation, readLe_leEncode_of_lt hextended,
    readLe_leEncode_of_lt (show tableMeta.lastExtendedSlotStartIndex < 2 ^ (8 * 1) from
      hrange.startIndex_lt),
    readLe_leEncode_of_lt (show tableMeta.padding < 2 ^ (8 * 2) from hrange.padding_lt)]

/-- The first `LOOKUP_TABLE_META_SIZE` bytes of a table account: the metadata's encoding and
zeros after it. -/
def metaBytes (tableMeta : LookupTableMeta) : List UInt8 :=
  serializeProgramState (.lookupTable tableMeta) ++
    List.replicate (LOOKUP_TABLE_META_SIZE - (serializeProgramState (.lookupTable tableMeta)).length) 0

@[simp] theorem length_metaBytes (tableMeta : LookupTableMeta) :
    (metaBytes tableMeta).length = LOOKUP_TABLE_META_SIZE := by
  have := length_serializeProgramState_le tableMeta
  simp only [metaBytes, List.length_append, List.length_replicate]
  omega

/-- A table account's bytes: the metadata in its reserved bytes, the addresses behind it. -/
structure Layout (data : List UInt8) (tableMeta : LookupTableMeta) (addresses : List Pubkey) :
    Prop where
  inRange : tableMeta.InRange
  data_eq : data = metaBytes tableMeta ++ addresses.flatMap Pubkey.toBytes

theorem length_flatMap_toBytes (addresses : List Pubkey) :
    (addresses.flatMap Pubkey.toBytes).length = PUBKEY_BYTES * addresses.length := by
  induction addresses with
  | nil => rfl
  | cons key addresses ih =>
    simp only [List.flatMap_cons, List.length_append, Pubkey.length_toBytes, ih,
      List.length_cons, PUBKEY_BYTES]
    ring

/-- `deserialize` reads back exactly the metadata and the addresses. -/
theorem Layout.deserialize {data : List UInt8} {tableMeta : LookupTableMeta}
    {addresses : List Pubkey} (h : Layout data tableMeta addresses) :
    deserialize data = .ok ⟨tableMeta, addresses⟩ := by
  have hlen := length_flatMap_toBytes addresses
  have hdrop : data.drop LOOKUP_TABLE_META_SIZE = addresses.flatMap Pubkey.toBytes := by
    rw [h.data_eq]; exact List.drop_left' (length_metaBytes tableMeta)
  have hstate : deserializeProgramState data = some (.lookupTable tableMeta) := by
    rw [h.data_eq, metaBytes, List.append_assoc]
    exact deserializeProgramState_lookupTable h.inRange _
  have hsize : LOOKUP_TABLE_META_SIZE ≤ data.length := by
    rw [h.data_eq, List.length_append, length_metaBytes]; omega
  have hchunks := @decodeChunks_flatMap Pubkey PUBKEY_BYTES Pubkey.toBytes Pubkey.ofBytes
    (fun key => Pubkey.length_toBytes key) Pubkey.ofBytes_toBytes addresses []
  rw [List.append_nil] at hchunks
  simp only [AddressLookupTableProgram.deserialize, hstate, hdrop, hlen,
    if_neg (Nat.not_lt.mpr hsize), Nat.mul_mod_right,
    Nat.mul_div_cancel_left _ (show 0 < PUBKEY_BYTES by decide), hchunks]
  rfl

/-- Rewriting the metadata keeps the addresses behind it. -/
theorem Layout.overwriteMetaData {data : List UInt8} {tableMeta : LookupTableMeta}
    {addresses : List Pubkey} (h : Layout data tableMeta addresses)
    {tableMeta' : LookupTableMeta} (hrange : tableMeta'.InRange) :
    ∃ data', overwriteMetaData data tableMeta' = .ok data' ∧ Layout data' tableMeta' addresses := by
  have hsize : LOOKUP_TABLE_META_SIZE ≤ data.length := by
    rw [h.data_eq, List.length_append, length_metaBytes]; omega
  have hdrop : data.drop LOOKUP_TABLE_META_SIZE = addresses.flatMap Pubkey.toBytes := by
    rw [h.data_eq]; exact List.drop_left' (length_metaBytes tableMeta)
  refine ⟨_, ?_, ⟨hrange, rfl⟩⟩
  simp only [AddressLookupTableProgram.overwriteMetaData, if_neg (Nat.not_lt.mpr hsize),
    if_pos (length_serializeProgramState_le tableMeta'), hdrop, metaBytes, List.append_assoc]

/-- Appending keys to the bytes appends them to the addresses. -/
theorem Layout.append {data : List UInt8} {tableMeta : LookupTableMeta}
    {addresses : List Pubkey} (h : Layout data tableMeta addresses) (newAddresses : List Pubkey) :
    Layout (data ++ newAddresses.flatMap Pubkey.toBytes) tableMeta (addresses ++ newAddresses) :=
  ⟨h.inRange, by rw [h.data_eq, List.flatMap_append, List.append_assoc]⟩

/-! ## Lookups -/

namespace AddressLookupTable

/-- `get_active_addresses_len`: addresses extended in the current slot are not yet visible. -/
def getActiveAddressesLen (table : AddressLookupTable) (currentSlot : Nat)
    (slotHashes : List (Nat × Hash)) : Except AddressLookupError Nat :=
  if !table.tableMeta.isActive currentSlot slotHashes then .error .lookupTableAccountNotFound
  else if currentSlot > table.tableMeta.lastExtendedSlot then .ok table.addresses.length
  else .ok table.tableMeta.lastExtendedSlotStartIndex

/-- `lookup`, through `lookup_iter`: the slice `addresses[0..active_addresses_len]` panics when
the length passes the end (`none`), and one index past the slice fails the whole lookup. -/
def lookup (table : AddressLookupTable) (currentSlot : Nat) (indexes : List Nat)
    (slotHashes : List (Nat × Hash)) : Option (Except AddressLookupError (List Pubkey)) :=
  match table.getActiveAddressesLen currentSlot slotHashes with
  | .error e => some (.error e)
  | .ok activeAddressesLen =>
    if activeAddressesLen ≤ table.addresses.length then
      let activeAddresses := table.addresses.take activeAddressesLen
      match indexes.mapM fun idx => activeAddresses[idx]? with
      | some found => some (.ok found)
      | none => some (.error .invalidLookupIndex)
    else none

/-- Indexes looked up in a list: all found when all are in range, and then in order. -/
theorem mapM_getElem?_eq {α : Type} [Inhabited α] (l : List α) (indexes : List Nat) :
    (indexes.mapM fun idx => l[idx]?) =
      if ∀ idx ∈ indexes, idx < l.length then some (indexes.map fun idx => l.getD idx default)
      else none := by
  induction indexes with
  | nil => simp
  | cons idx indexes ih =>
    by_cases hidx : idx < l.length
    · simp [List.mapM_cons, ih, hidx]
      split <;> simp
    · simp [List.mapM_cons, hidx]

theorem getActiveAddressesLen_of_isActive {table : AddressLookupTable} {currentSlot : Nat}
    {slotHashes : List (Nat × Hash)} (hactive : table.tableMeta.isActive currentSlot slotHashes) :
    table.getActiveAddressesLen currentSlot slotHashes =
      .ok (if currentSlot > table.tableMeta.lastExtendedSlot then table.addresses.length
        else table.tableMeta.lastExtendedSlotStartIndex) := by
  simp only [getActiveAddressesLen, hactive, Bool.not_true, Bool.false_eq_true, if_false]
  split <;> rfl

/-- A lookup with an active length inside the table: the indexes are read in the first
`activeAddressesLen` addresses, and any index past them fails the lookup. -/
theorem lookup_of_getActiveAddressesLen {table : AddressLookupTable} {currentSlot : Nat}
    {slotHashes : List (Nat × Hash)} {activeAddressesLen : Nat}
    (hlen : table.getActiveAddressesLen currentSlot slotHashes = .ok activeAddressesLen)
    (hle : activeAddressesLen ≤ table.addresses.length) (indexes : List Nat) :
    table.lookup currentSlot indexes slotHashes =
      some (if ∀ idx ∈ indexes, idx < activeAddressesLen then
          .ok (indexes.map fun idx => (table.addresses.take activeAddressesLen).getD idx default)
        else .error .invalidLookupIndex) := by
  have hactive : (table.addresses.take activeAddressesLen).length = activeAddressesLen := by
    simp [hle]
  simp only [lookup, hlen, if_pos hle, mapM_getElem?_eq, hactive]
  by_cases hall : ∀ idx ∈ indexes, idx < activeAddressesLen
  · rw [if_pos hall, if_pos hall]
  · rw [if_neg hall, if_neg hall]

end AddressLookupTable

end Agave.AddressLookupTableProgram
