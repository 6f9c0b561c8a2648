import Agave.Sdk.Basic

/-!
# The Paladin lockup program: accounts and errors

`paladin-programs/lockup/program/src/state.rs` and `error.rs`. A lockup escrows tokens for an
authority until it is unlocked. A `LockupPool` records the largest lockups in a fixed array of
`LOCKUP_CAPACITY` entries sorted by amount, largest first: the first `entries_len` of them are
live, and the rest are meant to be zero.

An account's data is `bytemuck`-cast to these structs. Its first eight bytes are the
discriminator that the instructions test, kept here as `Discriminator`. The pool's array is a
list whose length is a field of `LockupPool`, so every array built by the model has the
capacity's length.
-/

namespace Agave.Lockup

/-- The 32 bytes of metadata a lockup carries, kept as one word like a `Pubkey`. -/
abbrev Metadata := BitVec 256

/-- The first eight bytes of an account the program owns, as the instructions tell them apart:
`ArrayDiscriminator::UNINITIALIZED` (all zero), the SPL discriminators of `LockupPool` and
`Lockup`, or anything else. -/
inductive Discriminator where
  | uninitialized
  | lockupPool
  | lockup
  | other
  deriving DecidableEq, Repr

/-- `LockupPoolEntry`. -/
structure LockupPoolEntry where
  lockup : Pubkey
  amount : Nat
  metadata : Metadata
  deriving DecidableEq, Repr

/-- `#[derive(Default)]`: every byte zero. -/
instance : Inhabited LockupPoolEntry := ⟨⟨default, 0, 0⟩⟩

/-- `LockupPool::LOCKUP_CAPACITY`. -/
def LockupPool.LOCKUP_CAPACITY : Nat := 1024

/-- `LockupPool`. -/
structure LockupPool where
  discriminator : Discriminator
  entries : List LockupPoolEntry
  entriesLen : Nat
  length_entries : entries.length = LockupPool.LOCKUP_CAPACITY

/-- `LockupPool::LEN`: the discriminator, the entries of 72 bytes each, and `entries_len`. -/
def LockupPool.LEN : Nat := 8 + LockupPool.LOCKUP_CAPACITY * 72 + 8

/-- The data of a freshly created pool account: every byte zero. -/
def LockupPool.zeroed : LockupPool :=
  ⟨.uninitialized, List.replicate LockupPool.LOCKUP_CAPACITY default, 0, List.length_replicate⟩

set_option linter.dupNamespace false in
/-- `Lockup`, without its discriminator, which `LockupAccount` carries. `lockup_end_timestamp`
is an `Option<NonZeroU64>`: `some` holds a positive timestamp. -/
structure Lockup where
  amount : Nat
  authority : Pubkey
  lockupStartTimestamp : Nat
  lockupEndTimestamp : Option Nat
  mint : Pubkey
  pool : Pubkey
  metadata : Metadata
  deriving DecidableEq, Repr

/-- The all-zero bytes of a `Lockup`. -/
instance : Inhabited Lockup := ⟨⟨0, default, 0, none, default, default, 0⟩⟩

set_option linter.dupNamespace false in
/-- `Lockup::LEN`: discriminator, amount, authority, the two timestamps, mint, pool and metadata. -/
def Lockup.LEN : Nat := 8 + 8 + 32 + 8 + 8 + 32 + 32 + 32

/-- `NonZeroU64::new`. -/
def nonZeroU64New (x : Nat) : Option Nat := if x = 0 then none else some x

/-- `x as u64` for an `i64`: the two's complement bits read unsigned. -/
def i64AsU64 (x : Int) : Nat := (x % 2 ^ 64).toNat

/-- `PaladinLockupError`. -/
inductive PaladinLockupError where
  | incorrectMint
  | incorrectEscrowAuthorityAddress
  | incorrectEscrowTokenAccount
  | lockupActive
  | lockupAlreadyUnlocked
  | amountTooLow
  | incorrectPool
  deriving DecidableEq, Repr

/-- The discriminant, `e as u32`. -/
def PaladinLockupError.code : PaladinLockupError → Nat
  | .incorrectMint => 0
  | .incorrectEscrowAuthorityAddress => 1
  | .incorrectEscrowTokenAccount => 2
  | .lockupActive => 3
  | .lockupAlreadyUnlocked => 4
  | .amountTooLow => 5
  | .incorrectPool => 6

/-- `ProgramError`, the variants the program returns. An error of another program it invokes
(the token transfer) can be any of them. -/
inductive ProgramError where
  | custom (code : Nat)
  | invalidAccountData
  | missingRequiredSignature
  | accountAlreadyInitialized
  | uninitializedAccount
  | incorrectAuthority
  | invalidAccountOwner
  | arithmeticOverflow
  deriving DecidableEq, Repr

/-- `impl From<PaladinLockupError> for ProgramError`: `ProgramError::Custom(e as u32)`. -/
def PaladinLockupError.toProgramError (e : PaladinLockupError) : ProgramError := .custom e.code

end Agave.Lockup
