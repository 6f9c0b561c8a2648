import Agave.Sdk.Basic

/-!
# Gossip values and their labels

`gossip/src/crds_value.rs`, with `ContactInfo::overrides` of `contact_info.rs`. The table reads
of a payload its origin (`from`, or a contact-info's `pubkey`), its wallclock, the index of the
kinds a node gossips several of, the shred version of a contact-info, and what `overrides` compares
for node instances and contact-infos. The other fields of a payload, and the value's signature, are
kept as bytes: only the hash of the serialized value reads them.

A value's label is its kind, with that index, and its origin (`label`), so a label fixes the kind
of the value stored under it and the node it comes from (`kind_label`, `pubkey_label`).
-/

namespace Agave.Gossip

/-- A payload's origin (`from`) and wallclock, and its other fields as bytes. -/
structure Payload where
  origin : Pubkey
  wallclock : Nat
  body : List UInt8
  deriving DecidableEq, Repr

/-- `ContactInfo`. -/
structure ContactInfo where
  pubkey : Pubkey
  wallclock : Nat
  /-- When the node started (`outset`), in microseconds. -/
  outset : Nat
  shredVersion : Nat
  body : List UInt8
  deriving DecidableEq, Repr

/-- `NodeInstance`: a node's start time and a random token drawn at its start. -/
structure NodeInstance where
  origin : Pubkey
  wallclock : Nat
  timestamp : Nat
  token : Nat
  deriving DecidableEq, Repr

/-- `CrdsData`. -/
inductive CrdsData where
  | legacyContactInfo (info : Payload)
  | vote (index : Nat) (vote : Payload)
  | lowestSlot (index : Nat) (slots : Payload)
  | legacySnapshotHashes (hashes : Payload)
  | accountsHashes (hashes : Payload)
  | epochSlots (index : Nat) (slots : Payload)
  | legacyVersion (version : Payload)
  | version (version : Payload)
  | nodeInstance (node : NodeInstance)
  | duplicateShred (index : Nat) (shred : Payload)
  | snapshotHashes (hashes : Payload)
  | contactInfo (info : ContactInfo)
  | restartLastVotedForkSlots (slots : Payload)
  | restartHeaviestFork (fork : Payload)
  deriving DecidableEq, Repr

/-- `CrdsValue`. -/
structure CrdsValue where
  signature : List UInt8
  data : CrdsData
  deriving DecidableEq, Repr

/-- `CrdsValueLabel`. -/
inductive CrdsValueLabel where
  | legacyContactInfo (pubkey : Pubkey)
  | vote (index : Nat) (pubkey : Pubkey)
  | lowestSlot (pubkey : Pubkey)
  | legacySnapshotHashes (pubkey : Pubkey)
  | epochSlots (index : Nat) (pubkey : Pubkey)
  | accountsHashes (pubkey : Pubkey)
  | legacyVersion (pubkey : Pubkey)
  | version (pubkey : Pubkey)
  | nodeInstance (pubkey : Pubkey)
  | duplicateShred (index : Nat) (pubkey : Pubkey)
  | snapshotHashes (pubkey : Pubkey)
  | contactInfo (pubkey : Pubkey)
  | restartLastVotedForkSlots (pubkey : Pubkey)
  | restartHeaviestFork (pubkey : Pubkey)
  deriving DecidableEq, Repr

/-- `CrdsValueLabel::pubkey`. -/
def CrdsValueLabel.pubkey : CrdsValueLabel → Pubkey
  | .legacyContactInfo p => p
  | .vote _ p => p
  | .lowestSlot p => p
  | .legacySnapshotHashes p => p
  | .epochSlots _ p => p
  | .accountsHashes p => p
  | .legacyVersion p => p
  | .version p => p
  | .nodeInstance p => p
  | .duplicateShred _ p => p
  | .snapshotHashes p => p
  | .contactInfo pubkey => pubkey
  | .restartLastVotedForkSlots p => p
  | .restartHeaviestFork p => p

namespace CrdsValue

/-- `CrdsValue::wallclock`. -/
def wallclock (value : CrdsValue) : Nat :=
  match value.data with
  | .legacyContactInfo contactInfo => contactInfo.wallclock
  | .vote _ vote => vote.wallclock
  | .lowestSlot _ obj => obj.wallclock
  | .legacySnapshotHashes hash => hash.wallclock
  | .accountsHashes hash => hash.wallclock
  | .epochSlots _ p => p.wallclock
  | .legacyVersion version => version.wallclock
  | .version version => version.wallclock
  | .nodeInstance node => node.wallclock
  | .duplicateShred _ shred => shred.wallclock
  | .snapshotHashes hash => hash.wallclock
  | .contactInfo node => node.wallclock
  | .restartLastVotedForkSlots slots => slots.wallclock
  | .restartHeaviestFork fork => fork.wallclock

/-- `CrdsValue::pubkey`. -/
def pubkey (value : CrdsValue) : Pubkey :=
  match value.data with
  | .legacyContactInfo contactInfo => contactInfo.origin
  | .vote _ vote => vote.origin
  | .lowestSlot _ slots => slots.origin
  | .legacySnapshotHashes hash => hash.origin
  | .accountsHashes hash => hash.origin
  | .epochSlots _ p => p.origin
  | .legacyVersion version => version.origin
  | .version version => version.origin
  | .nodeInstance node => node.origin
  | .duplicateShred _ shred => shred.origin
  | .snapshotHashes hash => hash.origin
  | .contactInfo node => node.pubkey
  | .restartLastVotedForkSlots slots => slots.origin
  | .restartHeaviestFork fork => fork.origin

/-- `CrdsValue::label`. -/
def label (value : CrdsValue) : CrdsValueLabel :=
  match value.data with
  | .legacyContactInfo _ => .legacyContactInfo value.pubkey
  | .vote ix _ => .vote ix value.pubkey
  | .lowestSlot _ _ => .lowestSlot value.pubkey
  | .legacySnapshotHashes _ => .legacySnapshotHashes value.pubkey
  | .accountsHashes _ => .accountsHashes value.pubkey
  | .epochSlots ix _ => .epochSlots ix value.pubkey
  | .legacyVersion _ => .legacyVersion value.pubkey
  | .version _ => .version value.pubkey
  | .nodeInstance node => .nodeInstance node.origin
  | .duplicateShred ix shred => .duplicateShred ix shred.origin
  | .snapshotHashes _ => .snapshotHashes value.pubkey
  | .contactInfo node => .contactInfo node.pubkey
  | .restartLastVotedForkSlots _ => .restartLastVotedForkSlots value.pubkey
  | .restartHeaviestFork _ => .restartHeaviestFork value.pubkey

end CrdsValue

/-- `NodeInstance::overrides`: a node instance of the same origin with another token overrides
by its later start, ties broken by the token; otherwise there is no verdict. -/
def NodeInstance.overrides (self : NodeInstance) (other : CrdsValue) : Option Bool :=
  match other.data with
  | .nodeInstance other =>
    if self.token = other.token ∨ self.origin ≠ other.origin then none
    else if self.timestamp < other.timestamp then some false
    else if other.timestamp < self.timestamp then some true
    else some (decide (other.token < self.token))
  | _ => none

/-- `ContactInfo::overrides`: of one node, the contact-info of the later start overrides, then the
later wallclock; on a tie there is no verdict. -/
def ContactInfo.overrides (self other : ContactInfo) : Option Bool :=
  if self.pubkey ≠ other.pubkey then none
  else if self.outset < other.outset then some false
  else if other.outset < self.outset then some true
  else if self.wallclock < other.wallclock then some false
  else if other.wallclock < self.wallclock then some true
  else none

/-- The kinds of value the table keeps an index of. -/
inductive CrdsKind where
  | contactInfo
  | vote
  | epochSlots
  | duplicateShred
  | other
  deriving DecidableEq, Repr

/-- The kind of a payload, as `Crds::insert` and `Crds::remove` match on it. -/
def CrdsData.kind : CrdsData → CrdsKind
  | .contactInfo _ => .contactInfo
  | .vote _ _ => .vote
  | .epochSlots _ _ => .epochSlots
  | .duplicateShred _ _ => .duplicateShred
  | _ => .other

/-- The kind of the values a label is for. -/
def CrdsValueLabel.kind : CrdsValueLabel → CrdsKind
  | .contactInfo _ => .contactInfo
  | .vote _ _ => .vote
  | .epochSlots _ _ => .epochSlots
  | .duplicateShred _ _ => .duplicateShred
  | _ => .other

/-- A label fixes the kind of value: a contact-info stays one under its label. -/
@[simp] theorem kind_label (value : CrdsValue) : value.label.kind = value.data.kind := by
  unfold CrdsValue.label
  split <;> simp_all [CrdsValueLabel.kind, CrdsData.kind]

/-- A label fixes the origin: the record of a value is that of its label. -/
@[simp] theorem pubkey_label (value : CrdsValue) : value.label.pubkey = value.pubkey := by
  unfold CrdsValue.label CrdsValue.pubkey
  split <;> simp_all [CrdsValueLabel.pubkey]

end Agave.Gossip
