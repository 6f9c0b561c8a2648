import Agave.Lib.ByteCodec
import Agave.Lib.Duration
import Agave.Sdk.ShortVec
import Agave.Vote.State

/-!
# The compact wire format of vote-state updates

`serde_compact_vote_state_update` and `serde_tower_sync` in `sdk/program/src/vote/state/mod.rs`.
A `VoteStateUpdate` or a `TowerSync` goes on the wire as a compact struct in `bincode`: the root
(`u64::MAX` for none), the lockouts in a `short_vec` as offsets from the slot before each (the
first from the root, or 0), each offset a `serde_varint` and each confirmation count a `u8`, then
the hash, the timestamp and, for a `TowerSync`, the block id. The two modules differ only in that
last field, so they share one writer and one reader of the compact struct's other fields
(`serializeCompact`, `deserializeCompact`) and of the lockouts (`lockoutOffsets`,
`lockoutsOfOffsets`).

Writing fails on a lockout below the slot before it, on a confirmation count past `u8`
(`lockoutOffsets_isOk_iff`), and on more lockouts than a `short_vec` length holds
(`serializeCompact`). Whatever it writes reads back (`deserializeCompact_serializeCompact`,
`lockoutsOfOffsets_of_lockoutOffsets`).
-/

namespace Agave

open ByteCodec

/-- The hash of 32 bytes, most significant first. -/
def Hash.ofBytes (bytes : List UInt8) : Hash := ⟨BitVec.ofNat 256 (beDecode bytes)⟩

theorem Hash.toBytes_eq_beEncode (h : Hash) : h.toBytes = beEncode 32 h.toBitVec.toNat := rfl

@[simp] theorem Hash.length_toBytes (h : Hash) : h.toBytes.length = 32 := by
  simp [Hash.toBytes_eq_beEncode]

@[simp] theorem Hash.ofBytes_toBytes (h : Hash) : Hash.ofBytes h.toBytes = h := by
  have hlt : h.toBitVec.toNat < 2 ^ (8 * 32) := h.toBitVec.isLt
  rw [Hash.ofBytes, Hash.toBytes_eq_beEncode, beDecode_beEncode, Nat.mod_eq_of_lt hlt]
  simp

namespace Vote

/-- `u16::MAX`, the most elements a `short_vec` holds. -/
def U16_MAX : Nat := 2 ^ 16 - 1

/-- `VoteStateUpdate`. -/
structure VoteStateUpdate where
  lockouts : List Lockout
  root : Option Slot
  hash : Hash
  timestamp : Option Int
  deriving DecidableEq

/-- `TowerSync`. -/
structure TowerSync where
  lockouts : List Lockout
  root : Option Slot
  hash : Hash
  timestamp : Option Int
  blockId : Hash
  deriving DecidableEq

/-- `LockoutOffset`: a lockout's slot as its distance from the slot before, and its confirmation
count as a `u8`. -/
structure LockoutOffset where
  offset : Nat
  confirmationCount : Nat
  deriving DecidableEq

/-- The fields that `CompactVoteStateUpdate` and `CompactTowerSync` share, in their order. -/
structure CompactLockouts where
  root : Nat
  lockoutOffsets : List LockoutOffset
  hash : Hash
  timestamp : Option Int
  deriving DecidableEq

/-- The `scan` of `serialize`: each lockout as its offset from the slot before, the first from
`slot`. -/
def lockoutOffsets (slot : Slot) : List Lockout → Except String (List LockoutOffset)
  | [] => .ok []
  | lockout :: rest =>
    if lockout.slot < slot then .error "Invalid vote lockout"
    else if lockout.confirmationCount > 255 then .error "Invalid confirmation count"
    else (lockoutOffsets lockout.slot rest).map
      (⟨lockout.slot - slot, lockout.confirmationCount⟩ :: ·)

/-- The `scan` of `deserialize`: each slot is the one before plus the offset, failing past `u64`;
`Lockout::new_with_confirmation_count`. -/
def lockoutsOfOffsets (slot : Slot) : List LockoutOffset → Option (List Lockout)
  | [] => some []
  | lockoutOffset :: rest =>
    let slot := slot + lockoutOffset.offset
    if slot > U64_MAX then none
    else (lockoutsOfOffsets slot rest).map (⟨slot, lockoutOffset.confirmationCount⟩ :: ·)

/-! ## The two scans -/

/-- One step of the writer's scan: the lockout is not below `slot`, its count fits a `u8`, and the
rest is scanned from the lockout's slot. -/
theorem lockoutOffsets_cons_eq_ok_iff {slot : Slot} {lockout : Lockout} {rest : List Lockout}
    {offsets : List LockoutOffset} :
    lockoutOffsets slot (lockout :: rest) = .ok offsets ↔
      slot ≤ lockout.slot ∧ lockout.confirmationCount ≤ 255 ∧ ∃ tail,
        lockoutOffsets lockout.slot rest = .ok tail ∧
        offsets = ⟨lockout.slot - slot, lockout.confirmationCount⟩ :: tail := by
  simp only [lockoutOffsets]
  by_cases hlt : lockout.slot < slot
  · simp [hlt]
  by_cases hcount : lockout.confirmationCount > 255
  · simp [hlt, hcount]
  rw [if_neg hlt, if_neg hcount]
  cases lockoutOffsets lockout.slot rest with
  | error err => simp [Except.map]
  | ok tail =>
    simp only [Except.map, Except.ok.injEq, exists_eq_left']
    constructor
    · rintro rfl
      exact ⟨Nat.le_of_not_lt hlt, Nat.le_of_not_lt hcount, rfl⟩
    · rintro ⟨-, -, rfl⟩
      rfl

/-- The writer's scan succeeds exactly on lockouts whose slots do not decrease from `slot` and
whose counts fit a `u8`. -/
theorem lockoutOffsets_isOk_iff (slot : Slot) (lockouts : List Lockout) :
    (∃ offsets, lockoutOffsets slot lockouts = .ok offsets) ↔
      (slot :: lockouts.map (·.slot)).Pairwise (· ≤ ·) ∧
        ∀ lockout ∈ lockouts, lockout.confirmationCount ≤ 255 := by
  induction lockouts generalizing slot with
  | nil => simp [lockoutOffsets]
  | cons lockout rest ih =>
    simp only [lockoutOffsets_cons_eq_ok_iff, List.map_cons, List.pairwise_cons_cons_iff_of_trans,
      List.forall_mem_cons]
    constructor
    · rintro ⟨-, hle, hcount, tail, htail, -⟩
      obtain ⟨hpairwise, hrest⟩ := (ih lockout.slot).mp ⟨tail, htail⟩
      exact ⟨⟨hle, hpairwise⟩, hcount, hrest⟩
    · rintro ⟨⟨hle, hpairwise⟩, hcount, hrest⟩
      obtain ⟨tail, htail⟩ := (ih lockout.slot).mpr ⟨hpairwise, hrest⟩
      exact ⟨_, hle, hcount, tail, htail, rfl⟩

theorem length_lockoutOffsets {slot : Slot} {lockouts : List Lockout}
    {offsets : List LockoutOffset} (h : lockoutOffsets slot lockouts = .ok offsets) :
    offsets.length = lockouts.length := by
  induction lockouts generalizing slot offsets with
  | nil =>
    cases h
    rfl
  | cons lockout rest ih =>
    obtain ⟨-, -, tail, htail, rfl⟩ := lockoutOffsets_cons_eq_ok_iff.mp h
    simp [ih htail]

/-- What the writer's scan puts out fits the wire: each offset a `u64` and each count a `u8`,
when every slot is a `u64`. -/
theorem lockoutOffsets_fit {slot : Slot} {lockouts : List Lockout} {offsets : List LockoutOffset}
    (h : lockoutOffsets slot lockouts = .ok offsets)
    (hslots : ∀ lockout ∈ lockouts, lockout.slot ≤ U64_MAX) :
    ∀ o ∈ offsets, o.offset < 2 ^ 64 ∧ o.confirmationCount < 256 := by
  induction lockouts generalizing slot offsets with
  | nil =>
    cases h
    simp
  | cons lockout rest ih =>
    obtain ⟨-, hcount, tail, htail, rfl⟩ := lockoutOffsets_cons_eq_ok_iff.mp h
    have hslot : lockout.slot < 2 ^ 64 :=
      Nat.lt_of_le_of_lt (hslots lockout List.mem_cons_self) (by decide)
    rintro o (_ | ⟨_, ho⟩)
    · exact ⟨Nat.lt_of_le_of_lt (Nat.sub_le _ _) hslot, Nat.lt_succ_of_le hcount⟩
    · exact ih htail (fun l hl => hslots l (List.mem_cons_of_mem _ hl)) o ho

/-- The reader's scan undoes the writer's, from the same first slot. -/
theorem lockoutsOfOffsets_of_lockoutOffsets {slot : Slot} {lockouts : List Lockout}
    {offsets : List LockoutOffset} (h : lockoutOffsets slot lockouts = .ok offsets)
    (hslots : ∀ lockout ∈ lockouts, lockout.slot ≤ U64_MAX) :
    lockoutsOfOffsets slot offsets = some lockouts := by
  induction lockouts generalizing slot offsets with
  | nil =>
    cases h
    rfl
  | cons lockout rest ih =>
    obtain ⟨hle, -, tail, htail, rfl⟩ := lockoutOffsets_cons_eq_ok_iff.mp h
    have hslot : slot + (lockout.slot - slot) = lockout.slot := Nat.add_sub_of_le hle
    have hfit : ¬ lockout.slot > U64_MAX := Nat.not_lt.mpr (hslots lockout List.mem_cons_self)
    simp only [lockoutsOfOffsets, hslot, if_neg hfit,
      ih htail (fun l hl => hslots l (List.mem_cons_of_mem _ hl))]
    rfl

/-! ## `bincode` of the compact struct -/

/-- `bincode` of an `Option<UnixTimestamp>`: a tag byte, then the `i64`'s eight bytes. -/
def serializeTimestamp : Option Int → List UInt8
  | none => [0]
  | some timestamp => 1 :: leEncode 8 (I64.toU64 timestamp)

def deserializeTimestamp : List UInt8 → Option (Option Int × List UInt8)
  | [] => none
  | tag :: rest =>
    if tag = 0 then some (none, rest)
    else if tag = 1 then (readLe 8 rest).map fun (value, rest) => (some (I64.ofU64 value), rest)
    else none

/-- `bincode` of a `LockoutOffset`: the `serde_varint` offset, then the count's byte. -/
def serializeLockoutOffset (lockoutOffset : LockoutOffset) : List UInt8 :=
  VarInt.serialize lockoutOffset.offset ++ [UInt8.ofNat lockoutOffset.confirmationCount]

def deserializeLockoutOffsets : Nat → List UInt8 → Option (List LockoutOffset × List UInt8)
  | 0, bytes => some ([], bytes)
  | count + 1, bytes => do
    let (offset, bytes) ← (VarInt.visitSeq 64 bytes).toOption
    match bytes with
    | [] => none
    | confirmationCount :: bytes => do
      let (rest, bytes) ← deserializeLockoutOffsets count bytes
      pure (⟨offset, confirmationCount.toNat⟩ :: rest, bytes)

/-- A `Hash`: 32 bytes. -/
def deserializeHash (bytes : List UInt8) : Option (Hash × List UInt8) :=
  if 32 ≤ bytes.length then some (Hash.ofBytes (bytes.take 32), bytes.drop 32) else none

/-- The shared fields: the root's eight bytes, the lockouts as a `short_vec`, the hash and the
timestamp. `short_vec::serialize` refuses more than `u16::MAX` elements. -/
def serializeCompact (compact : CompactLockouts) : Except String (List UInt8) :=
  if compact.lockoutOffsets.length > U16_MAX then .error "length larger than u16"
  else .ok (leEncode 8 compact.root ++
    ShortVec.ShortU16.serialize compact.lockoutOffsets.length ++
    compact.lockoutOffsets.flatMap serializeLockoutOffset ++ compact.hash.toBytes ++
    serializeTimestamp compact.timestamp)

def deserializeCompact (bytes : List UInt8) : Option (CompactLockouts × List UInt8) := do
  let (root, bytes) ← readLe 8 bytes
  let (len, bytes) ← (ShortVec.ShortU16.visitSeq bytes).toOption
  let (lockoutOffsets, bytes) ← deserializeLockoutOffsets len bytes
  let (hash, bytes) ← deserializeHash bytes
  let (timestamp, bytes) ← deserializeTimestamp bytes
  pure (⟨root, lockoutOffsets, hash, timestamp⟩, bytes)

/-- Every field of the compact struct within its Rust type: the root and each offset a `u64`, each
count a `u8`, the timestamp an `i64`. -/
structure CompactLockouts.Fits (compact : CompactLockouts) : Prop where
  root_lt : compact.root < 2 ^ 64
  offsets_lt : ∀ o ∈ compact.lockoutOffsets, o.offset < 2 ^ 64 ∧ o.confirmationCount < 256
  timestamp_mem : ∀ t ∈ compact.timestamp, I64.MIN ≤ t ∧ t ≤ I64.MAX

theorem deserializeTimestamp_serializeTimestamp {timestamp : Option Int}
    (hfit : ∀ t ∈ timestamp, I64.MIN ≤ t ∧ t ≤ I64.MAX) (rest : List UInt8) :
    deserializeTimestamp (serializeTimestamp timestamp ++ rest) = some (timestamp, rest) := by
  cases timestamp with
  | none => rfl
  | some t =>
    obtain ⟨hlo, hhi⟩ := hfit t rfl
    have hread : readLe 8 (leEncode 8 (I64.toU64 t) ++ rest) = some (I64.toU64 t, rest) :=
      readLe_leEncode_of_lt (I64.toU64_lt t) rest
    simp [serializeTimestamp, deserializeTimestamp, hread, I64.ofU64_toU64 hlo hhi]

/-- The offsets are read back one after the other, a `serde_varint` and a byte each. -/
theorem deserializeLockoutOffsets_flatMap {offsets : List LockoutOffset}
    (hfit : ∀ o ∈ offsets, o.offset < 2 ^ 64 ∧ o.confirmationCount < 256) (rest : List UInt8) :
    deserializeLockoutOffsets offsets.length (offsets.flatMap serializeLockoutOffset ++ rest) =
      some (offsets, rest) := by
  induction offsets with
  | nil => rfl
  | cons o tail ih =>
    obtain ⟨hoffset, hcount⟩ := hfit o List.mem_cons_self
    have hvisit : ∀ bytes, VarInt.visitSeq 64 (VarInt.serialize o.offset ++ bytes) =
        .ok (o.offset, bytes) :=
      fun bytes => (VarInt.visitSeq_eq_ok_iff (by decide)).mpr ⟨hoffset, rfl⟩
    have htail := ih (fun o' ho' => hfit o' (List.mem_cons_of_mem _ ho'))
    simp [serializeLockoutOffset, deserializeLockoutOffsets, hvisit, Except.toOption, htail,
      VarInt.toNat_ofNat_of_lt hcount]

@[simp] theorem deserializeHash_toBytes (hash : Hash) (rest : List UInt8) :
    deserializeHash (hash.toBytes ++ rest) = some (hash, rest) := by
  simp [deserializeHash]

/-- The writer fails only on a `short_vec` too long for its `u16` length. -/
theorem serializeCompact_isOk_iff (compact : CompactLockouts) :
    (∃ bytes, serializeCompact compact = .ok bytes) ↔ compact.lockoutOffsets.length ≤ U16_MAX := by
  unfold serializeCompact
  split_ifs with hlen
  · simp only [exists_false, false_iff]
    omega
  · simp only [Except.ok.injEq, exists_eq', true_iff]
    omega

/-- The compact struct reads back from what the writer puts out, whatever follows it. -/
theorem deserializeCompact_serializeCompact {compact : CompactLockouts} {bytes : List UInt8}
    (h : serializeCompact compact = .ok bytes) (hfit : compact.Fits) (rest : List UInt8) :
    deserializeCompact (bytes ++ rest) = some (compact, rest) := by
  unfold serializeCompact at h
  split_ifs at h with hlen
  cases h
  have hshort : ∀ bytes, ShortVec.ShortU16.visitSeq
      (ShortVec.ShortU16.serialize compact.lockoutOffsets.length ++ bytes) =
        .ok (compact.lockoutOffsets.length, bytes) := by
    intro bytes
    refine ShortVec.ShortU16.visitSeq_eq_ok_iff.mpr ⟨?_, by rw [ShortVec.ShortU16.serialize_eq]⟩
    unfold U16_MAX at hlen
    omega
  have hroot : compact.root < 2 ^ (8 * 8) := hfit.root_lt
  simp [deserializeCompact, readLe_leEncode_of_lt hroot, hshort, Except.toOption,
    deserializeLockoutOffsets_flatMap hfit.offsets_lt,
    deserializeTimestamp_serializeTimestamp hfit.timestamp_mem]

/-! ## The two modules

`serde_compact_vote_state_update` and `serde_tower_sync` are one body written twice; what they
share is `serializeCompactUpdate` and `rootAndLockouts`, and each module is that body applied to
its own type, the block id of a `TowerSync` written and read after the rest. -/

/-- What both `serialize`s write before the block id: the scan from the root (or 0), then the
compact struct with the root (or `u64::MAX`). -/
def serializeCompactUpdate (root : Option Slot) (lockouts : List Lockout) (hash : Hash)
    (timestamp : Option Int) : Except String (List UInt8) := do
  let offsets ← lockoutOffsets (root.getD 0) lockouts
  serializeCompact ⟨root.getD U64_MAX, offsets, hash, timestamp⟩

/-- What both `deserialize`s make of the compact struct: the root back from its sentinel, and the
lockouts scanned from it. -/
def rootAndLockouts (compact : CompactLockouts) : Option (Option Slot × List Lockout) := do
  let root := if compact.root ≠ U64_MAX then some compact.root else none
  let lockouts ← lockoutsOfOffsets (root.getD 0) compact.lockoutOffsets
  pure (root, lockouts)

/-- The fields of an update within their Rust types: the root and every slot a `Slot`, a `u64`, and
the timestamp a `UnixTimestamp`, an `i64`. -/
structure WireRange (root : Option Slot) (lockouts : List Lockout) (timestamp : Option Int) :
    Prop where
  root_le : ∀ r ∈ root, r ≤ U64_MAX
  slot_le : ∀ lockout ∈ lockouts, lockout.slot ≤ U64_MAX
  timestamp_mem : ∀ t ∈ timestamp, I64.MIN ≤ t ∧ t ≤ I64.MAX

/-- The shared writer fails exactly on lockouts out of order from the root, on a count past `u8`,
and on more lockouts than `u16::MAX`. -/
theorem serializeCompactUpdate_isOk_iff (root : Option Slot) (lockouts : List Lockout)
    (hash : Hash) (timestamp : Option Int) :
    (∃ bytes, serializeCompactUpdate root lockouts hash timestamp = .ok bytes) ↔
      (root.getD 0 :: lockouts.map (·.slot)).Pairwise (· ≤ ·) ∧
        (∀ lockout ∈ lockouts, lockout.confirmationCount ≤ 255) ∧ lockouts.length ≤ U16_MAX := by
  rw [← and_assoc, ← lockoutOffsets_isOk_iff]
  unfold serializeCompactUpdate
  cases hoffsets : lockoutOffsets (root.getD 0) lockouts with
  | error err => simp [bind, Except.bind]
  | ok offsets =>
    have hlen := length_lockoutOffsets hoffsets
    simp only [bind, Except.bind, serializeCompact_isOk_iff, hlen,
      Except.ok.injEq, exists_eq', true_and]

/-- The sentinel comes back as the root it stood for, and the lockouts as the scan wrote them. -/
theorem rootAndLockouts_of_lockoutOffsets {root : Option Slot} {lockouts : List Lockout}
    {offsets : List LockoutOffset} (hoffsets : lockoutOffsets (root.getD 0) lockouts = .ok offsets)
    (hroot : root ≠ some U64_MAX) (hslots : ∀ lockout ∈ lockouts, lockout.slot ≤ U64_MAX)
    (hash : Hash) (timestamp : Option Int) :
    rootAndLockouts ⟨root.getD U64_MAX, offsets, hash, timestamp⟩ = some (root, lockouts) := by
  have hsentinel : (if root.getD U64_MAX ≠ U64_MAX then some (root.getD U64_MAX) else none) =
      root := by
    cases root with
    | none => simp
    | some r => simpa using hroot
  simp [rootAndLockouts, hsentinel, lockoutsOfOffsets_of_lockoutOffsets hoffsets hslots]

/-- What the shared writer puts out reads back, whatever follows it, to a compact struct holding
the same root, lockouts, hash and timestamp. -/
theorem deserializeCompact_serializeCompactUpdate {root : Option Slot} {lockouts : List Lockout}
    {hash : Hash} {timestamp : Option Int} {bytes : List UInt8}
    (h : serializeCompactUpdate root lockouts hash timestamp = .ok bytes)
    (hroot : root ≠ some U64_MAX) (hrange : WireRange root lockouts timestamp)
    (rest : List UInt8) :
    ∃ compact, deserializeCompact (bytes ++ rest) = some (compact, rest) ∧
      rootAndLockouts compact = some (root, lockouts) ∧ compact.hash = hash ∧
        compact.timestamp = timestamp := by
  unfold serializeCompactUpdate at h
  cases hoffsets : lockoutOffsets (root.getD 0) lockouts with
  | error err => simp [hoffsets, bind, Except.bind] at h
  | ok offsets =>
    simp only [hoffsets, bind, Except.bind] at h
    -- the root is a `u64` either way: its own value, or the sentinel
    have hroot_lt : root.getD U64_MAX < 2 ^ 64 := by
      cases root with
      | none => decide
      | some r => exact Nat.lt_of_le_of_lt (hrange.root_le r rfl) (by decide)
    have hfit : CompactLockouts.Fits ⟨root.getD U64_MAX, offsets, hash, timestamp⟩ :=
      ⟨hroot_lt, lockoutOffsets_fit hoffsets hrange.slot_le, hrange.timestamp_mem⟩
    exact ⟨_, deserializeCompact_serializeCompact h hfit rest,
      rootAndLockouts_of_lockoutOffsets hoffsets hroot hrange.slot_le hash timestamp, rfl, rfl⟩

namespace SerdeCompactVoteStateUpdate

/-- `serde_compact_vote_state_update::serialize`. -/
def serialize (voteStateUpdate : VoteStateUpdate) : Except String (List UInt8) :=
  serializeCompactUpdate voteStateUpdate.root voteStateUpdate.lockouts voteStateUpdate.hash
    voteStateUpdate.timestamp

/-- `serde_compact_vote_state_update::deserialize`. -/
def deserialize (bytes : List UInt8) : Option VoteStateUpdate := do
  let (compact, _) ← deserializeCompact bytes
  let (root, lockouts) ← rootAndLockouts compact
  pure ⟨lockouts, root, compact.hash, compact.timestamp⟩

theorem deserialize_serialize {voteStateUpdate : VoteStateUpdate} {bytes : List UInt8}
    (h : serialize voteStateUpdate = .ok bytes) (hroot : voteStateUpdate.root ≠ some U64_MAX)
    (hrange : WireRange voteStateUpdate.root voteStateUpdate.lockouts voteStateUpdate.timestamp) :
    deserialize bytes = some voteStateUpdate := by
  obtain ⟨compact, hcompact, hlockouts, hhash, htimestamp⟩ :=
    deserializeCompact_serializeCompactUpdate h hroot hrange []
  rw [List.append_nil] at hcompact
  simp [deserialize, hcompact, hlockouts, hhash, htimestamp]

end SerdeCompactVoteStateUpdate

namespace SerdeTowerSync

/-- `serde_tower_sync::serialize`: the compact struct ends with the block id. -/
def serialize (towerSync : TowerSync) : Except String (List UInt8) := do
  let bytes ← serializeCompactUpdate towerSync.root towerSync.lockouts towerSync.hash
    towerSync.timestamp
  pure (bytes ++ towerSync.blockId.toBytes)

/-- `serde_tower_sync::deserialize`. -/
def deserialize (bytes : List UInt8) : Option TowerSync := do
  let (compact, bytes) ← deserializeCompact bytes
  let (blockId, _) ← deserializeHash bytes
  let (root, lockouts) ← rootAndLockouts compact
  pure ⟨lockouts, root, compact.hash, compact.timestamp, blockId⟩

/-- The block id never makes the writer fail. -/
theorem serialize_isOk_iff (towerSync : TowerSync) :
    (∃ bytes, serialize towerSync = .ok bytes) ↔
      ∃ bytes, serializeCompactUpdate towerSync.root towerSync.lockouts towerSync.hash
        towerSync.timestamp = .ok bytes := by
  unfold serialize
  cases serializeCompactUpdate towerSync.root towerSync.lockouts towerSync.hash
    towerSync.timestamp with
  | error err => simp [bind, Except.bind]
  | ok bytes => simp [bind, Except.bind, pure, Except.pure]

theorem deserialize_serialize {towerSync : TowerSync} {bytes : List UInt8}
    (h : serialize towerSync = .ok bytes) (hroot : towerSync.root ≠ some U64_MAX)
    (hrange : WireRange towerSync.root towerSync.lockouts towerSync.timestamp) :
    deserialize bytes = some towerSync := by
  unfold serialize at h
  cases hcompact : serializeCompactUpdate towerSync.root towerSync.lockouts towerSync.hash
    towerSync.timestamp with
  | error err => simp [hcompact, bind, Except.bind] at h
  | ok compactBytes =>
    simp only [hcompact, bind, Except.bind, pure, Except.pure, Except.ok.injEq] at h
    subst h
    -- the block id follows the compact struct and ends the bytes
    obtain ⟨compact, hdeserialize, hlockouts, hhash, htimestamp⟩ :=
      deserializeCompact_serializeCompactUpdate hcompact hroot hrange towerSync.blockId.toBytes
    have hblockId := deserializeHash_toBytes towerSync.blockId []
    rw [List.append_nil] at hblockId
    simp [deserialize, hdeserialize, hblockId, hlockouts, hhash, htimestamp]

end SerdeTowerSync

/-- Both wire formats: the writer succeeds exactly on lockouts whose slots do not decrease from
the root (or 0), whose counts fit a `u8` and which number at most `u16::MAX`; the reader gives
back what was written whenever the root is not the sentinel. -/
theorem compact_wire_format_round_trip (v : VoteStateUpdate) (t : TowerSync)
    (hv : v.root ≠ some U64_MAX) (hvrange : WireRange v.root v.lockouts v.timestamp)
    (ht : t.root ≠ some U64_MAX) (htrange : WireRange t.root t.lockouts t.timestamp) :
    ((∃ bytes, SerdeCompactVoteStateUpdate.serialize v = .ok bytes) ↔
        (v.root.getD 0 :: v.lockouts.map (·.slot)).Pairwise (· ≤ ·) ∧
          (∀ lockout ∈ v.lockouts, lockout.confirmationCount ≤ 255) ∧
          v.lockouts.length ≤ U16_MAX) ∧
      (∀ bytes, SerdeCompactVoteStateUpdate.serialize v = .ok bytes →
        SerdeCompactVoteStateUpdate.deserialize bytes = some v) ∧
      ((∃ bytes, SerdeTowerSync.serialize t = .ok bytes) ↔
        (t.root.getD 0 :: t.lockouts.map (·.slot)).Pairwise (· ≤ ·) ∧
          (∀ lockout ∈ t.lockouts, lockout.confirmationCount ≤ 255) ∧
          t.lockouts.length ≤ U16_MAX) ∧
      (∀ bytes, SerdeTowerSync.serialize t = .ok bytes →
        SerdeTowerSync.deserialize bytes = some t) := by
  refine ⟨serializeCompactUpdate_isOk_iff v.root v.lockouts v.hash v.timestamp, ?_, ?_, ?_⟩
  · intro bytes h
    exact SerdeCompactVoteStateUpdate.deserialize_serialize h hv hvrange
  · rw [SerdeTowerSync.serialize_isOk_iff]
    exact serializeCompactUpdate_isOk_iff t.root t.lockouts t.hash t.timestamp
  · intro bytes h
    exact SerdeTowerSync.deserialize_serialize h ht htrange

/-- A vote from root 3 on slots 5 and 7 with a timestamp before 1970, and the same as a tower
sync. -/
def rootedVote : VoteStateUpdate := ⟨[⟨5, 2⟩, ⟨7, 1⟩], some 3, ⟨7⟩, some (-4)⟩

def rootedTowerSync : TowerSync := ⟨[⟨5, 2⟩, ⟨7, 1⟩], some 3, ⟨7⟩, some (-4), ⟨9⟩⟩

theorem compact_wire_format_round_trip_rooted :
    ((∃ bytes, SerdeCompactVoteStateUpdate.serialize rootedVote = .ok bytes) ↔
        (rootedVote.root.getD 0 :: rootedVote.lockouts.map (·.slot)).Pairwise (· ≤ ·) ∧
          (∀ lockout ∈ rootedVote.lockouts, lockout.confirmationCount ≤ 255) ∧
          rootedVote.lockouts.length ≤ U16_MAX) ∧
      (∀ bytes, SerdeCompactVoteStateUpdate.serialize rootedVote = .ok bytes →
        SerdeCompactVoteStateUpdate.deserialize bytes = some rootedVote) ∧
      ((∃ bytes, SerdeTowerSync.serialize rootedTowerSync = .ok bytes) ↔
        (rootedTowerSync.root.getD 0 :: rootedTowerSync.lockouts.map (·.slot)).Pairwise (· ≤ ·) ∧
          (∀ lockout ∈ rootedTowerSync.lockouts, lockout.confirmationCount ≤ 255) ∧
          rootedTowerSync.lockouts.length ≤ U16_MAX) ∧
      (∀ bytes, SerdeTowerSync.serialize rootedTowerSync = .ok bytes →
        SerdeTowerSync.deserialize bytes = some rootedTowerSync) :=
  compact_wire_format_round_trip rootedVote rootedTowerSync (by decide)
    ⟨by decide, by decide, by decide⟩ (by decide) ⟨by decide, by decide, by decide⟩

/-- 65536 lockouts, all on slot 0 with one confirmation, and no root. -/
def longVote : VoteStateUpdate := ⟨List.replicate (U16_MAX + 1) ⟨0, 1⟩, none, default, none⟩

/-- More lockouts than `u16::MAX` do not go on the wire however well ordered: every slot is 0 and
every count 1, yet `short_vec` refuses the length. -/
theorem serialize_longVote_length_larger_than_u16 :
    longVote.root ≠ some U64_MAX ∧ WireRange longVote.root longVote.lockouts longVote.timestamp ∧
      (longVote.root.getD 0 :: longVote.lockouts.map (·.slot)).Pairwise (· ≤ ·) ∧
      (∀ lockout ∈ longVote.lockouts, lockout.confirmationCount ≤ 255) ∧
      SerdeCompactVoteStateUpdate.serialize longVote = .error "length larger than u16" := by
  have hpairwise : (longVote.root.getD 0 :: longVote.lockouts.map (·.slot)).Pairwise (· ≤ ·) := by
    simp [longVote, List.pairwise_replicate]
  have hcounts : ∀ lockout ∈ longVote.lockouts, lockout.confirmationCount ≤ 255 := by
    simp [longVote, List.mem_replicate]
  obtain ⟨offsets, hoffsets⟩ := (lockoutOffsets_isOk_iff _ _).mpr ⟨hpairwise, hcounts⟩
  have hlen : offsets.length = U16_MAX + 1 := by
    rw [length_lockoutOffsets hoffsets]
    simp [longVote]
  have hrange : WireRange longVote.root longVote.lockouts longVote.timestamp :=
    ⟨by simp [longVote], by simp [longVote, List.mem_replicate], by simp [longVote]⟩
  refine ⟨by simp [longVote], hrange, hpairwise, hcounts, ?_⟩
  -- step by step: a `simp` here makes the kernel unfold the 65536 lockouts
  unfold SerdeCompactVoteStateUpdate.serialize serializeCompactUpdate
  rw [hoffsets]
  show serializeCompact ⟨_, offsets, _, _⟩ = _
  unfold serializeCompact
  rw [if_pos (by rw [hlen]; exact Nat.lt_succ_self _)]

end Vote

end Agave
