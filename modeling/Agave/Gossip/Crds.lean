import Agave.Gossip.CrdsValue
import Agave.Lib.IndexMap
import Agave.Lib.SortedMap

/-!
# The cluster replicated data store

`gossip/src/crds.rs`: the table of gossip values, one per label, and its secondary indexes. The
table is an `IndexMap`, a list of (label, value) entries by position; `nodes` and each record are
`IndexSet`s of positions; `votes`, `epoch_slots`, `duplicate_shreds` and `entries` are `BTreeMap`s
from a value's insert ordinal to its position, sorted lists here; `records` and `shred_versions`
are hash maps, functions of the pubkey. `remove` takes a value out with `swap_remove`, which moves
the table's last entry into the freed position, and patches every index for that entry too.

The hash of a value's serialization is the parameter `hashValue`. The shards, the purged-hash
queue and the statistics are left out: no function modelled here reads them. A panic (the label
assertion of `overrides`, a missing record in `remove`, `table.index` out of range) is `none`.
-/

namespace Agave.Gossip

/-- `Hash`'s order: its 32 bytes compared in turn, the order of the big-endian word. -/
instance : LT Hash := ⟨fun a b => a.toBitVec < b.toBitVec⟩

instance (a b : Hash) : Decidable (a < b) := inferInstanceAs (Decidable (a.toBitVec < b.toBitVec))

/-- `u8::MAX`. -/
def U8_MAX : Nat := 2 ^ 8 - 1

/-- `VersionedCrdsValue`. -/
structure VersionedCrdsValue where
  /-- The insert order. -/
  ordinal : Nat
  value : CrdsValue
  localTimestamp : Nat
  valueHash : Hash
  /-- `None` for a local message or pull request, `Some(0)` for a pull response, `Some(k)` for a
  push message with `k - 1` duplicates. -/
  numPushRecv : Option Nat
  deriving DecidableEq, Repr

/-- `GossipRoute`. -/
inductive GossipRoute where
  | localMessage
  | pullRequest
  | pullResponse
  | pushMessage (origin : Pubkey)
  deriving DecidableEq, Repr

/-- `CrdsError`. -/
inductive CrdsError where
  | duplicatePush (numDups : Nat)
  | insertFailed
  | unknownStakes
  deriving DecidableEq, Repr

/-- `Cursor::consume`: the cursor moved past the ordinal. -/
def Cursor.consume (cursor ordinal : Nat) : Nat := max cursor (ordinal + 1)

/-- `Crds`. -/
structure Crds where
  table : List (CrdsValueLabel × VersionedCrdsValue)
  /-- The next insert ordinal. -/
  cursor : Nat
  /-- Positions of the nodes' contact-infos. -/
  nodes : List Nat
  votes : List (Nat × Nat)
  epochSlots : List (Nat × Nat)
  duplicateShreds : List (Nat × Nat)
  /-- Positions of all the values of a node. -/
  records : Pubkey → Option (List Nat)
  entries : List (Nat × Nat)
  shredVersions : Pubkey → Option Nat

namespace Crds

/-- `Crds::default()`. -/
instance : Inhabited Crds := ⟨⟨[], 0, [], [], [], [], fun _ => none, [], fun _ => none⟩⟩

variable (hashValue : CrdsValue → Hash)

/-- `VersionedCrdsValue::new`. -/
def versioned (value : CrdsValue) (cursor localTimestamp : Nat) (route : GossipRoute) :
    VersionedCrdsValue :=
  { ordinal := cursor
    value
    localTimestamp
    valueHash := hashValue value
    numPushRecv := match route with
      | .localMessage => none
      | .pullRequest => none
      | .pullResponse => some 0
      | .pushMessage _ => some 1 }

/-- `overrides`: whether the value updates the stored one of its label. `none` is the
`assert_eq!` on the labels. -/
def overrides (value : CrdsValue) (other : VersionedCrdsValue) : Option Bool :=
  if value.label ≠ other.value.label then none
  else
    let special : Option Bool :=
      match value.data, other.value.data with
      | .nodeInstance node, _ => node.overrides other.value
      | .contactInfo info, .contactInfo otherInfo => info.overrides otherInfo
      | _, _ => none
    match special with
    | some out => some out
    | none =>
      if value.wallclock < other.value.wallclock then some false
      else if other.value.wallclock < value.wallclock then some true
      -- ties broken by the hash of the serialized value
      else some (decide (other.valueHash < hashValue value))

/-- `upserts`. -/
def upserts (s : Crds) (value : CrdsValue) : Option Bool :=
  match IndexMap.getFull? value.label s.table with
  | some (_, other) => overrides hashValue value other
  | none => some true

/-- `insert` at a vacant entry: the value goes last in the table, at `entry_index`. -/
def insertVacant (s : Crds) (label : CrdsValueLabel) (pubkey : Pubkey)
    (value : VersionedCrdsValue) : Crds :=
  let entryIndex := s.table.length
  let s := match value.value.data with
    | .contactInfo node =>
      { s with
        nodes := IndexSet.insert entryIndex s.nodes
        shredVersions := Function.update s.shredVersions pubkey (some node.shredVersion) }
    | .vote _ _ => { s with votes := SortedMap.insert value.ordinal entryIndex s.votes }
    | .epochSlots _ _ =>
      { s with epochSlots := SortedMap.insert value.ordinal entryIndex s.epochSlots }
    | .duplicateShred _ _ =>
      { s with duplicateShreds := SortedMap.insert value.ordinal entryIndex s.duplicateShreds }
    | _ => s
  { s with
    entries := SortedMap.insert value.ordinal entryIndex s.entries
    records := Function.update s.records pubkey
      (some (IndexSet.insert entryIndex ((s.records pubkey).getD [])))
    cursor := Cursor.consume s.cursor value.ordinal
    table := s.table ++ [(label, value)] }

/-- `insert` over an occupied entry whose value it overrides: the value takes the entry's place,
and the indexes trade the old ordinal for the new one. -/
def insertOverride (s : Crds) (entryIndex : Nat) (label : CrdsValueLabel) (pubkey : Pubkey)
    (entry value : VersionedCrdsValue) : Crds :=
  let s := match value.value.data with
    | .contactInfo node =>
      -- `nodes` stays: the entry was and stays a contact-info
      { s with shredVersions := Function.update s.shredVersions pubkey (some node.shredVersion) }
    | .vote _ _ =>
      { s with
        votes := SortedMap.insert value.ordinal entryIndex (SortedMap.erase entry.ordinal s.votes) }
    | .epochSlots _ _ =>
      { s with
        epochSlots :=
          SortedMap.insert value.ordinal entryIndex (SortedMap.erase entry.ordinal s.epochSlots) }
    | .duplicateShred _ _ =>
      { s with
        duplicateShreds := SortedMap.insert value.ordinal entryIndex
          (SortedMap.erase entry.ordinal s.duplicateShreds) }
    | _ => s
  { s with
    entries := SortedMap.insert value.ordinal entryIndex (SortedMap.erase entry.ordinal s.entries)
    cursor := Cursor.consume s.cursor value.ordinal
    table := s.table.set entryIndex (label, value) }

/-- `insert` over an occupied entry whose value it does not override: outdated when the hashes
differ, and otherwise a duplicate, which a push message counts on the stored value. -/
def insertFailed (s : Crds) (entryIndex : Nat) (label : CrdsValueLabel)
    (entry value : VersionedCrdsValue) (route : GossipRoute) : Crds × Except CrdsError Unit :=
  if entry.valueHash ≠ value.valueHash then (s, .error .insertFailed)
  else
    match route with
    | .pushMessage _ =>
      let numPushDups := entry.numPushRecv.getD 0
      ({ s with
          table := s.table.set entryIndex
            (label, { entry with numPushRecv := some (saturatingAdd U8_MAX numPushDups 1) }) },
        .error (.duplicatePush numPushDups))
    | _ => (s, .error .insertFailed)

/-- `insert`. -/
def insert (s : Crds) (value : CrdsValue) (now : Nat) (route : GossipRoute) :
    Option (Crds × Except CrdsError Unit) :=
  let label := value.label
  let pubkey := value.pubkey
  let value := versioned hashValue value s.cursor now route
  match IndexMap.getFull? label s.table with
  | none => some (s.insertVacant label pubkey value, .ok ())
  | some (entryIndex, entry) =>
    (overrides hashValue value.value entry).map fun
      | true => (s.insertOverride entryIndex label pubkey entry value, .ok ())
      | false => s.insertFailed entryIndex label entry value route

/-- `remove`, for the removed value at `index`: its indexes lose it. -/
def removeIndexes (s : Crds) (index : Nat) (value : VersionedCrdsValue) : Crds :=
  let s := match value.value.data with
    | .contactInfo _ => { s with nodes := IndexSet.swapRemove index s.nodes }
    | .vote _ _ => { s with votes := SortedMap.erase value.ordinal s.votes }
    | .epochSlots _ _ => { s with epochSlots := SortedMap.erase value.ordinal s.epochSlots }
    | .duplicateShred _ _ =>
      { s with duplicateShreds := SortedMap.erase value.ordinal s.duplicateShreds }
    | _ => s
  { s with entries := SortedMap.erase value.ordinal s.entries }

/-- `remove`, for the value that `swap_remove` moved from `size` to `index`. -/
def moveIndexes (s : Crds) (size index : Nat) (value : VersionedCrdsValue) : Option Crds :=
  let s := match value.value.data with
    | .contactInfo _ => { s with nodes := IndexSet.insert index (IndexSet.swapRemove size s.nodes) }
    | .vote _ _ => { s with votes := SortedMap.insert value.ordinal index s.votes }
    | .epochSlots _ _ => { s with epochSlots := SortedMap.insert value.ordinal index s.epochSlots }
    | .duplicateShred _ _ =>
      { s with duplicateShreds := SortedMap.insert value.ordinal index s.duplicateShreds }
    | _ => s
  let s := { s with entries := SortedMap.insert value.ordinal index s.entries }
  let pubkey := value.value.pubkey
  match s.records pubkey with
  | none => none -- `records.get_mut(&pubkey).unwrap()`
  | some records =>
    some { s with
      records := Function.update s.records pubkey
        (some (IndexSet.insert index (IndexSet.swapRemove size records))) }

/-- `remove`. -/
def remove (s : Crds) (key : CrdsValueLabel) (_now : Nat) : Option Crds :=
  match IndexMap.getFull? key s.table with
  | none => some s
  | some (index, value) =>
    let s := { s.removeIndexes index value with table := IndexMap.swapRemoveAt s.table index }
    let pubkey := value.value.pubkey
    match s.records pubkey with
    | none => none -- "this should not happen!"
    | some records =>
      let records := IndexSet.swapRemove index records
      let s := if records.isEmpty then
          { s with
            records := Function.update s.records pubkey none
            shredVersions := Function.update s.shredVersions pubkey none }
        else { s with records := Function.update s.records pubkey (some records) }
      let size := s.table.length
      if index < size then
        match s.table[index]? with
        | none => none
        | some (_, value) => s.moveIndexes size index value
      else some s

/-! ### Reading the table -/

/-- The value at a position: `table.index`, `none` out of range. -/
def valueAt (s : Crds) (index : Nat) : Option VersionedCrdsValue := (s.table[index]?).map (·.2)

/-- `get`, by label. -/
def get (s : Crds) (label : CrdsValueLabel) : Option VersionedCrdsValue :=
  (IndexMap.getFull? label s.table).map (·.2)

/-- `get_nodes`. -/
def getNodes (s : Crds) : Option (List VersionedCrdsValue) := s.nodes.mapM s.valueAt

/-- `get_nodes_contact_info`: `none` also for a node that is not a contact-info ("this should not
happen!"). -/
def getNodesContactInfo (s : Crds) : Option (List ContactInfo) :=
  s.getNodes.bind fun nodes => nodes.mapM fun v =>
    match v.value.data with
    | .contactInfo info => some info
    | _ => none

/-- An ordinal index read from a cursor on: the values at its positions, in ordinal order, with the
cursor consumed past each ordinal. -/
def readIndex (s : Crds) : List (Nat × Nat) → Nat → Option (List VersionedCrdsValue × Nat)
  | [], cursor => some ([], cursor)
  | (ordinal, index) :: rest, cursor =>
    (s.valueAt index).bind fun value =>
      (s.readIndex rest (Cursor.consume cursor ordinal)).map fun (values, cursor) =>
        (value :: values, cursor)

/-- `get_votes`. -/
def getVotes (s : Crds) (cursor : Nat) : Option (List VersionedCrdsValue × Nat) :=
  s.readIndex (SortedMap.rangeFrom cursor s.votes) cursor

/-- `get_epoch_slots`. -/
def getEpochSlots (s : Crds) (cursor : Nat) : Option (List VersionedCrdsValue × Nat) :=
  s.readIndex (SortedMap.rangeFrom cursor s.epochSlots) cursor

/-- `get_duplicate_shreds`. -/
def getDuplicateShreds (s : Crds) (cursor : Nat) : Option (List VersionedCrdsValue × Nat) :=
  s.readIndex (SortedMap.rangeFrom cursor s.duplicateShreds) cursor

/-- `get_entries`. -/
def getEntries (s : Crds) (cursor : Nat) : Option (List VersionedCrdsValue × Nat) :=
  s.readIndex (SortedMap.rangeFrom cursor s.entries) cursor

/-- `get_records`. -/
def getRecords (s : Crds) (pubkey : Pubkey) : Option (List VersionedCrdsValue) :=
  ((s.records pubkey).getD []).mapM s.valueAt

/-- `get_shred_version`. -/
def getShredVersion (s : Crds) (pubkey : Pubkey) : Option Nat := s.shredVersions pubkey

end Crds

end Agave.Gossip
