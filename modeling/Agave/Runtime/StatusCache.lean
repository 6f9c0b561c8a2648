import Agave.Lib.AssocList
import Agave.Sdk.Basic

/-!
# The status cache

`runtime/src/status_cache.rs`. The bank remembers, per recent blockhash, the transactions
(message hashes and signatures) it has processed and their results, so that a transaction is
not processed twice on one fork. A key is remembered by a 20-byte slice of it, taken at an
offset chosen at random once per blockhash (`key_index`), with the slots it was processed at
(`ForkStatus`). Beside that index the cache keeps, per slot, what was recorded during the slot
(`slot_deltas`), from which snapshots are written and `clear_slot_entries` removes a slot's
records. Rooted slots are valid on every fork; past `MAX_CACHE_ENTRIES` roots, the oldest root
goes, and with it every blockhash last seen at or before it and every slot delta at or before it.

The blockhash index is a function of the blockhash; the maps that the code iterates or tests for
emptiness (a blockhash's key map, a slot's statuses) are association lists (`AssocList`), and
the roots a list of distinct slots. The random offset is an argument of `insert`. A panic, and
`array_ref!` or slicing past the end of a key, is `none`. `Ancestors` is its membership test.
-/

namespace Agave.Runtime

/-- `MAX_CACHE_ENTRIES`: `MAX_RECENT_BLOCKHASHES`,
`MAX_HASH_AGE_IN_SECONDS * DEFAULT_TICKS_PER_SECOND / DEFAULT_TICKS_PER_SLOT` = 120 · 160 / 64. -/
def MAX_CACHE_ENTRIES : Nat := 300

/-- `CACHED_KEY_SIZE`. -/
def CACHED_KEY_SIZE : Nat := 20

/-- `KeySlice`: `[u8; CACHED_KEY_SIZE]`. -/
abbrev KeySlice := List UInt8

/-- `ForkStatus<T>`: the slots a key was recorded at, with the results, oldest first. -/
abbrev ForkStatus (T : Type) := List (Nat × T)

/-- `KeyMap<T>`. -/
abbrev KeyMap (T : Type) := List (KeySlice × ForkStatus T)

/-- `Status<T>` (inside its `Arc<Mutex<_>>`): per blockhash, the key index and the key slices
recorded with their results. -/
abbrev Status (T : Type) := List (Hash × Nat × List (KeySlice × T))

/-- `StatusCache<T>`. -/
structure StatusCache (T : Type) where
  /-- `cache`: per blockhash, the highest slot it was seen at, the key index and the key map. -/
  cache : Hash → Option (Nat × Nat × KeyMap T)
  roots : List Nat
  /-- `slot_deltas`: all keys seen during a slot. -/
  slotDeltas : Nat → Option (Status T)

variable {T : Type}

/-- `StatusCache::default()`: nothing recorded, and 0 is always a root. -/
instance : Inhabited (StatusCache T) := ⟨⟨fun _ => none, [0], fun _ => none⟩⟩

namespace StatusCache

/-- `key.len().saturating_sub(CACHED_KEY_SIZE + 1)`. -/
def maxKeyIndex (key : List UInt8) : Nat := key.length - (CACHED_KEY_SIZE + 1)

/-- The `CACHED_KEY_SIZE` bytes of the key at `index`: `array_ref!` and `clone_from_slice`
panic past the end. -/
def keySliceAt (key : List UInt8) (index : Nat) : Option KeySlice :=
  if index + CACHED_KEY_SIZE ≤ key.length then some ((key.drop index).take CACHED_KEY_SIZE)
  else none

/-! ### `clear_slot_entries` -/

/-- One key slice in `clear_slot_entries`: its entries at the slot go (`retain`), and the slice
with them when none is left (`remove_entry`). -/
def clearForks (slot : Nat) (keyMap : KeyMap T) (keySlice : KeySlice) (forks : ForkStatus T) :
    KeyMap T :=
  let forks := forks.filter fun (updatedSlot, _) => updatedSlot != slot
  if forks.isEmpty then AssocList.erase keySlice keyMap
  else AssocList.alter keySlice [] (fun _ => forks) keyMap

/-- The inner loop of `clear_slot_entries`, over the key slices of a blockhash recorded at the
slot. -/
def clearKeyList (slot : Nat) (keyMap : KeyMap T) : List (KeySlice × T) → Option (KeyMap T)
  | [] => some keyMap
  | (keySlice, _) :: keyList =>
    match AssocList.get? keySlice keyMap with
    | none => none -- "Map for key must exist if key exists in self.slot_deltas"
    | some forks => clearKeyList slot (clearForks slot keyMap keySlice forks) keyList

/-- The outer loop of `clear_slot_entries`, over the blockhashes recorded at the slot; a
blockhash goes when its key map is empty. -/
def clearBlockhashes (slot : Nat) (cache : Hash → Option (Nat × Nat × KeyMap T)) :
    Status T → Option (Hash → Option (Nat × Nat × KeyMap T))
  | [] => some cache
  | (blockhash, _, keyList) :: statuses =>
    match cache blockhash with
    | none => none -- "Blockhash must exist if it exists in self.slot_deltas"
    | some (maxSlot, keyIndex, keyMap) =>
      (clearKeyList slot keyMap keyList).bind fun keyMap =>
        clearBlockhashes slot
          (Function.update cache blockhash
            (if keyMap.isEmpty then none else some (maxSlot, keyIndex, keyMap)))
          statuses

/-- `clear_slot_entries`. -/
def clearSlotEntries (s : StatusCache T) (slot : Nat) : Option (StatusCache T) :=
  let slotDeltas := Function.update s.slotDeltas slot none
  match s.slotDeltas slot with
  | none => some { s with slotDeltas }
  | some statuses =>
    (clearBlockhashes slot s.cache statuses).map fun cache => { s with cache, slotDeltas }

/-! ### `get_status` -/

/-- `get_status`: the first slot the key was recorded at for the blockhash that is an ancestor
or a root. -/
def getStatus (s : StatusCache T) (key : List UInt8) (transactionBlockhash : Hash)
    (ancestors : Nat → Bool) : Option (Option (Nat × T)) :=
  match s.cache transactionBlockhash with
  | none => some none
  | some (_, index, keyMap) =>
    (keySliceAt key (min index (maxKeyIndex key))).map fun keySlice =>
      match AssocList.get? keySlice keyMap with
      | some storedForks => storedForks.find? fun (f, _) => ancestors f || s.roots.contains f
      | none => none

/-! ### Roots -/

/-- `purge_roots`: past `MAX_CACHE_ENTRIES` roots the smallest goes, with the blockhashes last
seen at or before it and the slot deltas at or before it. -/
def purgeRoots (s : StatusCache T) : StatusCache T :=
  if MAX_CACHE_ENTRIES < s.roots.length then
    match s.roots.min? with
    | some min =>
      { roots := s.roots.erase min
        cache := fun blockhash => (s.cache blockhash).filter fun (fork, _, _) => min < fork
        slotDeltas := fun slot => if min < slot then s.slotDeltas slot else none }
    | none => s
  else s

/-- `add_root`. -/
def addRoot (s : StatusCache T) (fork : Nat) : StatusCache T :=
  purgeRoots { s with roots := s.roots.insert fork }

/-! ### Recording keys -/

/-- `insert_with_slice`: the key slice is recorded at the slot for the blockhash, in the key map
and in the slot's delta. -/
def insertWithSlice (s : StatusCache T) (transactionBlockhash : Hash) (slot keyIndex : Nat)
    (keySlice : KeySlice) (res : T) : StatusCache T :=
  let entry := (s.cache transactionBlockhash).getD (slot, keyIndex, [])
  let keyMap := AssocList.alter keySlice [] (· ++ [(slot, res)]) entry.2.2
  let statuses := AssocList.alter transactionBlockhash (keyIndex, [])
    (fun hashEntry => (hashEntry.1, hashEntry.2 ++ [(keySlice, res)]))
    ((s.slotDeltas slot).getD [])
  { s with
    cache := Function.update s.cache transactionBlockhash
      (some (max slot entry.1, entry.2.1, keyMap))
    slotDeltas := Function.update s.slotDeltas slot (some statuses) }

/-- `insert`. A blockhash seen for the first time gets the key index `randomKeyIndex`, drawn by
`thread_rng().gen_range(0..max_key_index + 1)`. -/
def insert (s : StatusCache T) (transactionBlockhash : Hash) (key : List UInt8) (slot : Nat)
    (res : T) (randomKeyIndex : Nat) : Option (StatusCache T) :=
  let entry := (s.cache transactionBlockhash).getD (slot, randomKeyIndex, [])
  let s := { s with
    cache := Function.update s.cache transactionBlockhash
      (some (max slot entry.1, entry.2.1, entry.2.2)) }
  let keyIndex := min entry.2.1 (maxKeyIndex key)
  (keySliceAt key keyIndex).map fun keySlice =>
    s.insertWithSlice transactionBlockhash slot keyIndex keySlice res

/-- `append`: the slot deltas replayed into the cache, with `add_root` for the rooted ones. -/
def append (s : StatusCache T) : List (Nat × Bool × Status T) → StatusCache T
  | [] => s
  | (slot, isRoot, statuses) :: slotDeltas =>
    let s := statuses.foldl (fun s (txHash, keyIndex, statuses) =>
      statuses.foldl (fun s (keySlice, res) =>
        s.insertWithSlice txHash slot keyIndex keySlice res) s) s
    let s := if isRoot then s.addRoot slot else s
    s.append slotDeltas

end StatusCache

end Agave.Runtime
