import Agave.Lib.BitSet
import Agave.Sdk.Basic

/-!
# Thread-aware account locks

`core/src/banking_stage/transaction_scheduler/thread_aware_account_locks.rs`. The central
scheduler of the banking stage hands each transaction to one of at most 64 worker threads and
keeps, for every account, the locks of the transactions handed out and not yet finished: write
locks, all on one thread and counted, and read locks, counted per thread beside the set of the
threads holding any. A transaction may go to a thread that already holds conflicting locks, as a
thread runs its transactions in order. `try_lock_accounts` computes, account by account, the
threads the transaction could run on, intersects them with the threads the caller allows, lets the
caller's selector pick one and takes every lock there; `unlock_accounts` gives them back.

A `ThreadSet` is its `u64` word, and `count_ones` and `trailing_zeros` are core's `cpop` and
`ctz`. The lock counts are `u32`: an increment past `u32::MAX` and a decrement below zero are the
panics of a debug build (a release build wraps them). Every `assert!`, `panic!` and
`unreachable!()` is `none`. The map is a function of the key, over any type of key.
-/

namespace Agave.BankingStage

/-- `MAX_THREADS`: `u64::BITS`. -/
def MAX_THREADS : Nat := 64

/-- `ThreadSet`: a set of threads as the bits of a `u64`. -/
structure ThreadSet where
  bits : BitVec 64
  deriving DecidableEq, Repr

/-- `as_flag`: `0b1 << thread_id`. -/
def ThreadSet.asFlag (threadId : Nat) : BitVec 64 := 1#64 <<< threadId

/-- `ThreadSet::none`. -/
def ThreadSet.none : ThreadSet := ⟨0#64⟩

/-- `ThreadSet::any`: the first `num_threads` threads. -/
def ThreadSet.any (numThreads : Nat) : ThreadSet :=
  if numThreads = MAX_THREADS then ⟨BitVec.allOnes 64⟩
  else ⟨ThreadSet.asFlag numThreads - 1#64⟩

/-- `ThreadSet::only`. -/
def ThreadSet.only (threadId : Nat) : ThreadSet := ⟨ThreadSet.asFlag threadId⟩

namespace ThreadSet

/-- `num_threads`: `count_ones`. -/
def numThreads (s : ThreadSet) : Nat := s.bits.cpop.toNat

/-- `only_one_contained`: the thread, when there is exactly one; `trailing_zeros` finds it. -/
def onlyOneContained (s : ThreadSet) : Option Nat :=
  if s.numThreads = 1 then some s.bits.ctz.toNat else Option.none

/-- `is_empty`. -/
def isEmpty (s : ThreadSet) : Bool := s == ThreadSet.none

/-- `contains`. -/
def contains (s : ThreadSet) (threadId : Nat) : Bool := s.bits &&& asFlag threadId != 0#64

/-- `insert`. -/
def insert (s : ThreadSet) (threadId : Nat) : ThreadSet := ⟨s.bits ||| asFlag threadId⟩

/-- `remove`. -/
def remove (s : ThreadSet) (threadId : Nat) : ThreadSet := ⟨s.bits &&& ~~~(asFlag threadId)⟩

/-- `BitAnd`. -/
instance : AndOp ThreadSet := ⟨fun s t => ⟨s.bits &&& t.bits⟩⟩

end ThreadSet

/-- `AccountWriteLocks`. -/
structure AccountWriteLocks where
  threadId : Nat
  lockCount : Nat

/-- `AccountReadLocks`; `lock_counts`, an array indexed by thread, is a function of the thread. -/
structure AccountReadLocks where
  threadSet : ThreadSet
  lockCounts : Nat → Nat

/-- `AccountLocks`. -/
structure AccountLocks where
  writeLocks : Option AccountWriteLocks
  readLocks : Option AccountReadLocks

/-- `AccountLocks::default()`: no lock. -/
instance : Inhabited AccountLocks := ⟨⟨none, none⟩⟩

/-- `ThreadAwareAccountLocks`. An account has an entry only while it is locked. -/
structure ThreadAwareAccountLocks (α : Type) where
  numThreads : Nat
  locks : α → Option AccountLocks

namespace ThreadAwareAccountLocks

variable {α : Type} [DecidableEq α]

/-- `new`, which asserts `0 < num_threads <= MAX_THREADS`. -/
def new (numThreads : Nat) : Option (ThreadAwareAccountLocks α) :=
  if 0 < numThreads ∧ numThreads ≤ MAX_THREADS then some ⟨numThreads, fun _ => none⟩ else none

/-- The table with the entry of `account` replaced; `none` removes it. -/
def setEntry (s : ThreadAwareAccountLocks α) (account : α) (entry : Option AccountLocks) :
    ThreadAwareAccountLocks α :=
  { s with locks := Function.update s.locks account entry }

/-! ### Where a transaction can be scheduled -/

/-- `schedulable_threads::<WRITE>`. A writer can join a write lock, or a read lock that one
thread holds alone; a reader can join anything but a write lock on another thread. -/
def schedulableThreads (s : ThreadAwareAccountLocks α) (write : Bool) (account : α) :
    Option ThreadSet :=
  match s.locks account with
  | none => some (ThreadSet.any s.numThreads)
  | some ⟨none, some readLocks⟩ =>
    if write then
      some ((readLocks.threadSet.onlyOneContained.map ThreadSet.only).getD ThreadSet.none)
    else some (ThreadSet.any s.numThreads)
  | some ⟨some writeLocks, none⟩ => some (ThreadSet.only writeLocks.threadId)
  | some ⟨some writeLocks, some readLocks⟩ =>
    if readLocks.threadSet.onlyOneContained = some writeLocks.threadId then
      some readLocks.threadSet
    else none
  | some ⟨none, none⟩ => none

/-- One loop of `accounts_schedulable_threads`: the threads narrowed account by account, with
`None` as soon as none is left. -/
def narrowSchedulableThreads (s : ThreadAwareAccountLocks α) (write : Bool)
    (schedulableThreads : ThreadSet) : List α → Option (Option ThreadSet)
  | [] => some (some schedulableThreads)
  | account :: accounts =>
    match s.schedulableThreads write account with
    | none => none
    | some threads =>
      let schedulableThreads := schedulableThreads &&& threads
      if schedulableThreads.isEmpty then some none
      else s.narrowSchedulableThreads write schedulableThreads accounts

/-- `accounts_schedulable_threads`: the writable accounts from all threads, then the readable
ones from what is left. -/
def accountsSchedulableThreads (s : ThreadAwareAccountLocks α)
    (writeAccountLocks readAccountLocks : List α) : Option (Option ThreadSet) :=
  match s.narrowSchedulableThreads true (ThreadSet.any s.numThreads) writeAccountLocks with
  | some (some schedulableThreads) =>
    s.narrowSchedulableThreads false schedulableThreads readAccountLocks
  | result => result

/-! ### Taking and giving back locks -/

/-- `write_lock_account`: every outstanding lock must be on the thread. -/
def writeLockAccount (s : ThreadAwareAccountLocks α) (account : α) (threadId : Nat) :
    Option (ThreadAwareAccountLocks α) :=
  let ⟨writeLocks, readLocks⟩ := (s.locks account).getD default
  if readLocks.any fun locks => locks.threadSet.onlyOneContained != some threadId then none
  else
    match writeLocks with
    | some locks =>
      if locks.threadId ≠ threadId then none
      else if U32_MAX < locks.lockCount + 1 then none
      else
        some (s.setEntry account (some ⟨some ⟨locks.threadId, locks.lockCount + 1⟩, readLocks⟩))
    | none => some (s.setEntry account (some ⟨some ⟨threadId, 1⟩, readLocks⟩))

/-- `write_unlock_account`: the entry goes once no lock is left. -/
def writeUnlockAccount (s : ThreadAwareAccountLocks α) (account : α) (threadId : Nat) :
    Option (ThreadAwareAccountLocks α) :=
  match s.locks account with
  | none => none
  | some ⟨none, _⟩ => none
  | some ⟨some writeLocks, readLocks⟩ =>
    if writeLocks.threadId ≠ threadId then none
    else if writeLocks.lockCount = 0 then none
    else
      let lockCount := writeLocks.lockCount - 1
      if lockCount = 0 then
        if readLocks.isNone then some (s.setEntry account none)
        else some (s.setEntry account (some ⟨none, readLocks⟩))
      else some (s.setEntry account (some ⟨some ⟨writeLocks.threadId, lockCount⟩, readLocks⟩))

/-- `read_lock_account`: an outstanding write lock must be on the thread. Indexing
`lock_counts` and shifting `as_flag` panic past the last thread. -/
def readLockAccount (s : ThreadAwareAccountLocks α) (account : α) (threadId : Nat) :
    Option (ThreadAwareAccountLocks α) :=
  let ⟨writeLocks, readLocks⟩ := (s.locks account).getD default
  if writeLocks.any fun locks => locks.threadId != threadId then none
  else if MAX_THREADS ≤ threadId then none
  else
    match readLocks with
    | some locks =>
      if U32_MAX < locks.lockCounts threadId + 1 then none
      else
        some (s.setEntry account (some ⟨writeLocks, some ⟨locks.threadSet.insert threadId,
          Function.update locks.lockCounts threadId (locks.lockCounts threadId + 1)⟩⟩))
    | none =>
      some (s.setEntry account (some ⟨writeLocks, some ⟨ThreadSet.only threadId,
        Function.update (fun _ => 0) threadId 1⟩⟩))

/-- `read_unlock_account`: the thread leaves the set when its count reaches zero, the read locks
go when the set is empty, and the entry when no lock is left. -/
def readUnlockAccount (s : ThreadAwareAccountLocks α) (account : α) (threadId : Nat) :
    Option (ThreadAwareAccountLocks α) :=
  match s.locks account with
  | none => none
  | some ⟨_, none⟩ => none
  | some ⟨writeLocks, some readLocks⟩ =>
    if MAX_THREADS ≤ threadId then none
    else if !readLocks.threadSet.contains threadId then none
    else if readLocks.lockCounts threadId = 0 then none
    else
      let lockCount := readLocks.lockCounts threadId - 1
      let lockCounts := Function.update readLocks.lockCounts threadId lockCount
      if lockCount = 0 then
        let threadSet := readLocks.threadSet.remove threadId
        if threadSet.isEmpty then
          if writeLocks.isNone then some (s.setEntry account none)
          else some (s.setEntry account (some ⟨writeLocks, none⟩))
        else some (s.setEntry account (some ⟨writeLocks, some ⟨threadSet, lockCounts⟩⟩))
      else
        some (s.setEntry account (some ⟨writeLocks, some ⟨readLocks.threadSet, lockCounts⟩⟩))

/-- `lock_accounts`, which asserts `thread_id < num_threads`. -/
def lockAccounts (s : ThreadAwareAccountLocks α) (writeAccountLocks readAccountLocks : List α)
    (threadId : Nat) : Option (ThreadAwareAccountLocks α) :=
  if threadId < s.numThreads then
    (writeAccountLocks.foldlM (fun (s : ThreadAwareAccountLocks α) account =>
        s.writeLockAccount account threadId) s).bind fun s =>
      readAccountLocks.foldlM (fun (s : ThreadAwareAccountLocks α) account =>
        s.readLockAccount account threadId) s
  else none

/-- `try_lock_accounts`: the thread chosen, if the accounts can be scheduled on one the caller
allows, with the locks taken there. -/
def tryLockAccounts (s : ThreadAwareAccountLocks α) (writeAccountLocks readAccountLocks : List α)
    (allowedThreads : ThreadSet) (threadSelector : ThreadSet → Nat) :
    Option (Option Nat × ThreadAwareAccountLocks α) :=
  match s.accountsSchedulableThreads writeAccountLocks readAccountLocks with
  | none => none
  | some none => some (none, s)
  | some (some threads) =>
    let schedulableThreads := threads &&& allowedThreads
    if schedulableThreads.isEmpty then some (none, s)
    else
      let threadId := threadSelector schedulableThreads
      (s.lockAccounts writeAccountLocks readAccountLocks threadId).map fun s => (some threadId, s)

/-- `unlock_accounts`. -/
def unlockAccounts (s : ThreadAwareAccountLocks α) (writeAccountLocks readAccountLocks : List α)
    (threadId : Nat) : Option (ThreadAwareAccountLocks α) :=
  (writeAccountLocks.foldlM (fun (s : ThreadAwareAccountLocks α) account =>
      s.writeUnlockAccount account threadId) s).bind fun s =>
    readAccountLocks.foldlM (fun (s : ThreadAwareAccountLocks α) account =>
      s.readUnlockAccount account threadId) s

end ThreadAwareAccountLocks

end Agave.BankingStage
