import Mathlib.Data.List.Count
import Mathlib.Data.List.Nodup
import Mathlib.Logic.Relation

/-!
# Accounts DB: `AccountLocks`

`accounts-db/src/account_locks.rs`. The locks a bank holds on accounts for the transactions it is
executing: the set of write-locked keys, and for each read-locked key the number of read locks on
it. `try_lock_accounts` checks every key before it locks any, and `unlock_accounts` releases the
keys of one transaction.

The hash set is a predicate and the hash map a partial function. A read count is a `u64` bounded
by the number of held locks, so it is a `Nat` here. A `debug_assert!` that fails is `none`: a
release build goes on past it and a debug build panics, and over a run neither happens
(`account_locks_exact`).

Over a run the tables are exactly those of the multiset of key lists held (`ofHeld`): a key is
write-locked when a held list writes it, and read-locked with the number of held lists that read
it. Write locks exclude every other lock on their key.
-/

namespace Agave.AccountsDb

/-- The errors `try_lock_accounts` and `validate_account_locks` return. -/
inductive TransactionError where
  | accountInUse
  | tooManyAccountLocks
  | accountLoadedTwice
  deriving DecidableEq, Repr

/-- `AccountLocks`. -/
@[ext]
structure AccountLocks (α : Type) where
  writeLocks : α → Bool
  readonlyLocks : α → Option Nat

/-- `#[derive(Default)]`: both tables empty. -/
instance {α : Type} : Inhabited (AccountLocks α) := ⟨⟨fun _ => false, fun _ => none⟩⟩

/-- `additional_read_locks.map(|s| s.contains(key)).unwrap_or(false)`, for an optional hash set
of keys. -/
def containsIn {α : Type} [DecidableEq α] (set : Option (List α)) (key : α) : Bool :=
  (set.map fun s => decide (key ∈ s)).getD false

namespace AccountLocks

variable {α : Type} [DecidableEq α]

/-- `is_locked_readonly`. -/
def isLockedReadonly (l : AccountLocks α) (key : α) : Bool :=
  (l.readonlyLocks key).elim false fun count => decide (0 < count)

/-- `is_locked_write`. -/
def isLockedWrite (l : AccountLocks α) (key : α) : Bool := l.writeLocks key

/-- `can_read_lock`. -/
def canReadLock (l : AccountLocks α) (key : α) : Bool := !l.isLockedWrite key

/-- `can_write_lock`. -/
def canWriteLock (l : AccountLocks α) (key : α) : Bool :=
  !l.isLockedReadonly key && !l.isLockedWrite key

/-- `lock_readonly`: `*self.readonly_locks.entry(*key).or_default() += 1`. -/
def lockReadonly (l : AccountLocks α) (key : α) : AccountLocks α :=
  { l with
    readonlyLocks := Function.update l.readonlyLocks key (some ((l.readonlyLocks key).getD 0 + 1)) }

/-- `lock_write`. -/
def lockWrite (l : AccountLocks α) (key : α) : AccountLocks α :=
  { l with writeLocks := Function.update l.writeLocks key true }

/-- `unlock_readonly`: one read lock less, and the entry removed at zero. `none` is the
`debug_assert!` on a key with no entry, or the underflow of a zero count. -/
def unlockReadonly (l : AccountLocks α) (key : α) : Option (AccountLocks α) :=
  match l.readonlyLocks key with
  | some count =>
    if count = 0 then none
    else
      some { l with
        readonlyLocks :=
          Function.update l.readonlyLocks key (if count - 1 = 0 then none else some (count - 1)) }
  | none => none

/-- `unlock_write`; `none` is its `debug_assert!(removed)`. -/
def unlockWrite (l : AccountLocks α) (key : α) : Option (AccountLocks α) :=
  if l.writeLocks key then some { l with writeLocks := Function.update l.writeLocks key false }
  else none

/-- The check the first loop of `try_lock_accounts` makes on one key. -/
def canLock (l : AccountLocks α) (additionalReadLocks additionalWriteLocks : Option (List α))
    (keyWritable : α × Bool) : Bool :=
  if keyWritable.2 then
    l.canWriteLock keyWritable.1 && !containsIn additionalReadLocks keyWritable.1 &&
      !containsIn additionalWriteLocks keyWritable.1
  else l.canReadLock keyWritable.1 && !containsIn additionalWriteLocks keyWritable.1

/-- The body of the second loop of `try_lock_accounts`. -/
def lockKey (l : AccountLocks α) (keyWritable : α × Bool) : AccountLocks α :=
  if keyWritable.2 then l.lockWrite keyWritable.1 else l.lockReadonly keyWritable.1

/-- `try_lock_accounts`, with the tables it leaves: every key is checked against the tables as they
were, and only if all pass are they locked. -/
def tryLockAccounts (l : AccountLocks α) (keys : List (α × Bool))
    (additionalReadLocks additionalWriteLocks : Option (List α)) :
    Except TransactionError Unit × AccountLocks α :=
  if keys.all (l.canLock additionalReadLocks additionalWriteLocks) then
    (.ok (), keys.foldl lockKey l)
  else (.error .accountInUse, l)

/-- The body of the loop of `unlock_accounts`. -/
def unlockKey (l : AccountLocks α) (keyWritable : α × Bool) : Option (AccountLocks α) :=
  if keyWritable.2 then l.unlockWrite keyWritable.1 else l.unlockReadonly keyWritable.1

/-- `unlock_accounts`. -/
def unlockAccounts (l : AccountLocks α) : List (α × Bool) → Option (AccountLocks α)
  | [] => some l
  | keyWritable :: rest => (l.unlockKey keyWritable).bind fun l' => l'.unlockAccounts rest

/-! ### What the loops do to one key -/

theorem lockKey_writeLocks (l : AccountLocks α) (kw : α × Bool) (k : α) :
    (l.lockKey kw).writeLocks k = (l.writeLocks k || decide (kw = (k, true))) := by
  obtain ⟨key, w⟩ := kw
  by_cases hk : key = k
  · subst hk
    cases w <;> simp [lockKey, lockWrite, lockReadonly]
  · cases w <;> simp [lockKey, lockWrite, lockReadonly, Function.update_of_ne (Ne.symm hk), hk]

theorem lockKey_readonlyLocks (l : AccountLocks α) (kw : α × Bool) (k : α) :
    (l.lockKey kw).readonlyLocks k =
      if kw = (k, false) then some ((l.readonlyLocks k).getD 0 + 1) else l.readonlyLocks k := by
  obtain ⟨key, w⟩ := kw
  by_cases hk : key = k
  · subst hk
    cases w <;> simp [lockKey, lockWrite, lockReadonly]
  · cases w <;> simp [lockKey, lockWrite, lockReadonly, Function.update_of_ne (Ne.symm hk), hk]

/-- The second loop of `try_lock_accounts` write-locks the keys it writes. -/
theorem foldl_lockKey_writeLocks (keys : List (α × Bool)) (l : AccountLocks α) (k : α) :
    (keys.foldl lockKey l).writeLocks k = (l.writeLocks k || decide ((k, true) ∈ keys)) := by
  induction keys generalizing l with
  | nil => simp
  | cons kw keys ih =>
    rw [List.foldl_cons, ih, lockKey_writeLocks]
    simp [List.mem_cons, Bool.or_assoc, eq_comm]

/-- Over keys without repeats, the second loop of `try_lock_accounts` adds one read lock to each
key it reads. -/
theorem foldl_lockKey_readonlyLocks {keys : List (α × Bool)} (hkeys : (keys.map Prod.fst).Nodup)
    (l : AccountLocks α) (k : α) :
    (keys.foldl lockKey l).readonlyLocks k =
      if (k, false) ∈ keys then some ((l.readonlyLocks k).getD 0 + 1) else l.readonlyLocks k := by
  induction keys generalizing l with
  | nil => simp
  | cons kw keys ih =>
    rw [List.map_cons, List.nodup_cons] at hkeys
    rw [List.foldl_cons, ih hkeys.2, lockKey_readonlyLocks]
    by_cases hk : kw.1 = k
    · -- the key of `kw` occurs nowhere in the rest
      have hnot : (k, false) ∉ keys := fun h => hkeys.1 (hk ▸ List.mem_map_of_mem h)
      obtain ⟨key, w⟩ := kw
      simp only at hk
      subst hk
      cases w <;> simp [hnot]
    · have hne : kw ≠ (k, false) := fun h => hk (by rw [h])
      simp [hne, Ne.symm hne]

/-- Over keys without repeats whose locks are all there, `unlock_accounts` does not fail: it drops
the write lock of every key it writes and one read lock of every key it reads. -/
theorem unlockAccounts_spec {keys : List (α × Bool)} (hkeys : (keys.map Prod.fst).Nodup)
    (l : AccountLocks α) (hw : ∀ k, (k, true) ∈ keys → l.writeLocks k = true)
    (hr : ∀ k, (k, false) ∈ keys → ∃ c, 0 < c ∧ l.readonlyLocks k = some c) :
    ∃ l', l.unlockAccounts keys = some l' ∧
      (∀ k, l'.writeLocks k = (l.writeLocks k && !decide ((k, true) ∈ keys))) ∧
      (∀ k, l'.readonlyLocks k =
        if (k, false) ∈ keys then
          (l.readonlyLocks k).bind fun c => if c - 1 = 0 then none else some (c - 1)
        else l.readonlyLocks k) := by
  induction keys generalizing l with
  | nil => exact ⟨l, rfl, by simp, by simp⟩
  | cons kw keys ih =>
    obtain ⟨key, w⟩ := kw
    rw [List.map_cons, List.nodup_cons] at hkeys
    -- the first key is released, and the rest of the keys are other keys
    have hother : ∀ k b, (k, b) ∈ keys → k ≠ key := fun k b hk h =>
      hkeys.1 (List.mem_map.mpr ⟨(k, b), hk, h⟩)
    obtain ⟨l₁, h₁, hw₁, hr₁⟩ : ∃ l₁, l.unlockKey (key, w) = some l₁ ∧
        (∀ k, l₁.writeLocks k = if k = key ∧ w = true then false else l.writeLocks k) ∧
        (∀ k, l₁.readonlyLocks k = if k = key ∧ w = false then
          (l.readonlyLocks k).bind fun c => if c - 1 = 0 then none else some (c - 1)
          else l.readonlyLocks k) := by
      cases w with
      | true =>
        have hkey := hw key List.mem_cons_self
        refine ⟨{ l with writeLocks := Function.update l.writeLocks key false },
          by simp [unlockKey, unlockWrite, hkey], fun k => ?_, fun k => ?_⟩ <;>
          by_cases hk : k = key <;> simp [hk, Function.update_of_ne]
      | false =>
        obtain ⟨c, hc, hkey⟩ := hr key List.mem_cons_self
        refine ⟨{ l with
            readonlyLocks :=
              Function.update l.readonlyLocks key (if c - 1 = 0 then none else some (c - 1)) },
          by simp [unlockKey, unlockReadonly, hkey, Nat.pos_iff_ne_zero.mp hc],
          fun k => ?_, fun k => ?_⟩ <;> by_cases hk : k = key <;> simp [hk, hkey, Function.update_of_ne]
    obtain ⟨l', h', hw', hr'⟩ := ih hkeys.2 l₁
      (fun k hk => by rw [hw₁, if_neg fun h => hother k true hk h.1]; exact hw k (List.mem_cons_of_mem _ hk))
      (fun k hk => by rw [hr₁, if_neg fun h => hother k false hk h.1]; exact hr k (List.mem_cons_of_mem _ hk))
    refine ⟨l', by simp [unlockAccounts, h₁, h'], fun k => ?_, fun k => ?_⟩
    · rw [hw', hw₁]
      by_cases hk : k = key
      · subst hk
        have hnot : (k, true) ∉ keys := fun h => hother k true h rfl
        cases w <;> simp [hnot]
      · simp [hk]
    · rw [hr', hr₁]
      by_cases hk : k = key
      · subst hk
        have hnot : (k, false) ∉ keys := fun h => hother k false h rfl
        cases w <;> simp [hnot]
      · simp [hk]

end AccountLocks

/-- `has_duplicates`: both of its branches, the hash set for 32 keys or more and the pairwise
scan below, answer whether a key occurs twice. -/
def hasDuplicates {α : Type} [DecidableEq α] (accountKeys : List α) : Bool :=
  !decide accountKeys.Nodup

/-- `validate_account_locks`. -/
def validateAccountLocks {α : Type} [DecidableEq α] (accountKeys : List α)
    (txAccountLockLimit : Nat) : Except TransactionError Unit :=
  if accountKeys.length > txAccountLockLimit then .error .tooManyAccountLocks
  else if hasDuplicates accountKeys then .error .accountLoadedTwice
  else .ok ()

/-! ### The locks of the transactions holding them -/

section Held

variable {α : Type} [DecidableEq α]

/-- The number of held key lists that write `k`. -/
def writeCount (held : List (List (α × Bool))) (k : α) : Nat :=
  held.countP fun keys => decide ((k, true) ∈ keys)

/-- The number of held key lists that read `k`. -/
def readCount (held : List (List (α × Bool))) (k : α) : Nat :=
  held.countP fun keys => decide ((k, false) ∈ keys)

/-- The tables that the held key lists call for. -/
def ofHeld (held : List (List (α × Bool))) : AccountLocks α :=
  ⟨fun k => decide (0 < writeCount held k),
    fun k => if readCount held k = 0 then none else some (readCount held k)⟩

theorem writeCount_append (held : List (List (α × Bool))) (keys : List (α × Bool)) (k : α) :
    writeCount (held ++ [keys]) k = writeCount held k + if (k, true) ∈ keys then 1 else 0 := by
  by_cases hk : (k, true) ∈ keys <;> simp [writeCount, List.countP_append, hk]

theorem readCount_append (held : List (List (α × Bool))) (keys : List (α × Bool)) (k : α) :
    readCount (held ++ [keys]) k = readCount held k + if (k, false) ∈ keys then 1 else 0 := by
  by_cases hk : (k, false) ∈ keys <;> simp [readCount, List.countP_append, hk]

theorem writeCount_erase {held : List (List (α × Bool))} {keys : List (α × Bool)}
    (hheld : keys ∈ held) (k : α) :
    writeCount (held.erase keys) k = writeCount held k - if (k, true) ∈ keys then 1 else 0 := by
  simp [writeCount, List.countP_erase, hheld]

theorem readCount_erase {held : List (List (α × Bool))} {keys : List (α × Bool)}
    (hheld : keys ∈ held) (k : α) :
    readCount (held.erase keys) k = readCount held k - if (k, false) ∈ keys then 1 else 0 := by
  simp [readCount, List.countP_erase, hheld]

theorem pos_writeCount {held : List (List (α × Bool))} {keys : List (α × Bool)} {k : α}
    (hheld : keys ∈ held) (hk : (k, true) ∈ keys) : 0 < writeCount held k :=
  List.countP_pos_iff.mpr ⟨keys, hheld, decide_eq_true hk⟩

theorem pos_readCount {held : List (List (α × Bool))} {keys : List (α × Bool)} {k : α}
    (hheld : keys ∈ held) (hk : (k, false) ∈ keys) : 0 < readCount held k :=
  List.countP_pos_iff.mpr ⟨keys, hheld, decide_eq_true hk⟩

end Held

/-! ### Runs -/

/-- The tables and the key lists of the transactions holding locks, in the order they locked. -/
structure Sys (α : Type) where
  locks : AccountLocks α
  held : List (List (α × Bool))

variable {α : Type} [DecidableEq α]

/-- One call on the tables. -/
inductive Step : Sys α → Sys α → Prop
  /-- `try_lock_accounts` on keys without repeats, as `validate_account_locks` leaves them, with
  any additional lock sets; the keys are held when it succeeds. -/
  | tryLockAccounts {sys : Sys α} {keys : List (α × Bool)}
      {additionalReadLocks additionalWriteLocks : Option (List α)}
      (hkeys : (keys.map Prod.fst).Nodup) :
      Step sys
        ⟨(sys.locks.tryLockAccounts keys additionalReadLocks additionalWriteLocks).2,
          if (sys.locks.tryLockAccounts keys additionalReadLocks additionalWriteLocks).1.isOk
          then sys.held ++ [keys] else sys.held⟩
  /-- `unlock_accounts` of keys held. -/
  | unlockAccounts {sys : Sys α} {keys : List (α × Bool)} {locks : AccountLocks α}
      (hheld : keys ∈ sys.held) (h : sys.locks.unlockAccounts keys = some locks) :
      Step sys ⟨locks, sys.held.erase keys⟩

/-- The states a run from `AccountLocks::default()` reaches. -/
def Reachable (sys : Sys α) : Prop := Relation.ReflTransGen Step ⟨default, []⟩ sys

/-- The invariant: the tables are those of the held key lists, every held list has distinct keys,
and a write lock excludes every other lock on its key. -/
structure Inv (sys : Sys α) : Prop where
  tables : sys.locks = ofHeld sys.held
  keys : ∀ keys ∈ sys.held, (keys.map Prod.fst).Nodup
  exclusive : ∀ k, 0 < writeCount sys.held k →
    writeCount sys.held k = 1 ∧ readCount sys.held k = 0

namespace AccountLocks

theorem isLockedWrite_ofHeld (held : List (List (α × Bool))) (k : α) :
    (ofHeld held).isLockedWrite k = decide (0 < writeCount held k) := rfl

theorem isLockedReadonly_ofHeld (held : List (List (α × Bool))) (k : α) :
    (ofHeld held).isLockedReadonly k = decide (0 < readCount held k) := by
  by_cases h : readCount held k = 0 <;> simp [isLockedReadonly, ofHeld, h, Nat.pos_iff_ne_zero]

/-- What the check of `try_lock_accounts` tells of a key against the held key lists: a write finds
the key unlocked, and a read finds it not written. -/
theorem canLock_ofHeld {held : List (List (α × Bool))} {r w : Option (List α)} {k : α} {b : Bool}
    (h : (ofHeld held).canLock r w (k, b) = true) :
    writeCount held k = 0 ∧ (b = true → readCount held k = 0) := by
  cases b <;>
    simp [canLock, canWriteLock, canReadLock, isLockedWrite_ofHeld, isLockedReadonly_ofHeld] at h ⊢ <;>
    tauto

/-- A failed `try_lock_accounts` leaves the tables as they were. -/
theorem tryLockAccounts_error (l : AccountLocks α) (keys : List (α × Bool))
    (r w : Option (List α)) {e : TransactionError}
    (h : (l.tryLockAccounts keys r w).1 = .error e) : (l.tryLockAccounts keys r w).2 = l := by
  by_cases hall : keys.all (l.canLock r w) = true
  · rw [tryLockAccounts, if_pos hall] at h
    cases h
  · rw [tryLockAccounts, if_neg hall]

end AccountLocks

open AccountLocks

theorem Inv.init : Inv (⟨default, []⟩ : Sys α) where
  tables := by ext k <;> rfl
  keys := fun _ h => absurd h List.not_mem_nil
  exclusive := fun _ h => absurd h (Nat.lt_irrefl 0)

/-- A successful `try_lock_accounts` locks what the new key list calls for, and a failed one
changes nothing. -/
theorem Inv.tryLockAccounts {sys : Sys α} (hinv : Inv sys) {keys : List (α × Bool)}
    (hkeys : (keys.map Prod.fst).Nodup) (r w : Option (List α)) :
    Inv ⟨(sys.locks.tryLockAccounts keys r w).2,
      if (sys.locks.tryLockAccounts keys r w).1.isOk then sys.held ++ [keys] else sys.held⟩ := by
  by_cases hall : keys.all (sys.locks.canLock r w) = true
  · have hrun : sys.locks.tryLockAccounts keys r w = (.ok (), keys.foldl lockKey sys.locks) :=
      if_pos hall
    rw [hrun]
    change Inv ⟨keys.foldl lockKey sys.locks, sys.held ++ [keys]⟩
    have hcheck : ∀ k b, (k, b) ∈ keys →
        writeCount sys.held k = 0 ∧ (b = true → readCount sys.held k = 0) := by
      intro k b hk
      have hc := List.all_eq_true.mp hall (k, b) hk
      rw [hinv.tables] at hc
      exact canLock_ofHeld hc
    -- a key is not both written and read by one list
    have hone : ∀ k, (k, true) ∈ keys → (k, false) ∉ keys := fun k ht hf => by
      cases List.inj_on_of_nodup_map hkeys ht hf rfl
    refine ⟨?_, fun l hl => ?_, fun k hpos => ?_⟩
    · ext k
      · rw [foldl_lockKey_writeLocks, hinv.tables]
        by_cases hk : (k, true) ∈ keys <;> simp [ofHeld, writeCount_append, hk]
      · rw [foldl_lockKey_readonlyLocks hkeys, hinv.tables]
        simp only [ofHeld, readCount_append]
        by_cases hk : (k, false) ∈ keys
        · by_cases h0 : readCount sys.held k = 0 <;> simp [hk, h0]
        · simp [hk]
    · rcases List.mem_append.mp hl with hl | hl
      · exact hinv.keys l hl
      · rw [List.mem_singleton.mp hl]
        exact hkeys
    · rw [writeCount_append] at hpos ⊢
      rw [readCount_append]
      by_cases ht : (k, true) ∈ keys
      · -- a new write lock: the key was not locked at all
        obtain ⟨hw0, hr0⟩ := hcheck k true ht
        simp [ht, hone k ht, hw0, hr0 rfl]
      · simp only [ht, if_false, Nat.add_zero] at hpos ⊢
        obtain ⟨hw1, hr0⟩ := hinv.exclusive k hpos
        refine ⟨hw1, ?_⟩
        by_cases hf : (k, false) ∈ keys
        · have := (hcheck k false hf).1
          omega
        · simp [hf, hr0]
  · have hrun : sys.locks.tryLockAccounts keys r w = (.error .accountInUse, sys.locks) :=
      if_neg hall
    rw [hrun]
    exact hinv

/-- `unlock_accounts` of a held key list finds every lock it releases, and leaves the tables of the
other held lists. -/
theorem Inv.unlockAccounts {sys : Sys α} (hinv : Inv sys) {keys : List (α × Bool)}
    (hheld : keys ∈ sys.held) :
    ∃ locks, sys.locks.unlockAccounts keys = some locks ∧ Inv ⟨locks, sys.held.erase keys⟩ := by
  have hkeys := hinv.keys keys hheld
  obtain ⟨l', hrun, hw', hr'⟩ := unlockAccounts_spec hkeys sys.locks
    (fun k hk => by rw [hinv.tables]; simpa [ofHeld] using pos_writeCount hheld hk)
    (fun k hk => ⟨readCount sys.held k, pos_readCount hheld hk,
      by rw [hinv.tables]; simp [ofHeld, Nat.pos_iff_ne_zero.mp (pos_readCount hheld hk)]⟩)
  refine ⟨l', hrun, ⟨?_, fun l hl => hinv.keys l (List.mem_of_mem_erase hl), fun k hpos => ?_⟩⟩
  · ext k
    · rw [hw', hinv.tables]
      simp only [ofHeld, writeCount_erase hheld]
      by_cases hk : (k, true) ∈ keys
      · -- the only writer of the key lets go of it
        have hw1 := (hinv.exclusive k (pos_writeCount hheld hk)).1
        simp [hk, hw1]
      · simp [hk]
    · rw [hr', hinv.tables]
      simp only [ofHeld, readCount_erase hheld]
      by_cases hk : (k, false) ∈ keys
      · simp [hk, Nat.pos_iff_ne_zero.mp (pos_readCount hheld hk)]
      · simp [hk]
  · rw [writeCount_erase hheld] at hpos ⊢
    rw [readCount_erase hheld]
    have hpos' : 0 < writeCount sys.held k := by omega
    obtain ⟨hw1, hr0⟩ := hinv.exclusive k hpos'
    split_ifs at hpos ⊢ <;> omega

theorem Reachable.inv {sys : Sys α} (h : Reachable sys) : Inv sys := by
  induction h with
  | refl => exact Inv.init
  | tail _ hstep ih =>
    cases hstep with
    | tryLockAccounts hkeys => exact ih.tryLockAccounts hkeys _ _
    | unlockAccounts hheld h =>
      obtain ⟨locks, hrun, hinv⟩ := ih.unlockAccounts hheld
      rw [h, Option.some.injEq] at hrun
      rw [hrun]
      exact hinv

/-- Reader/writer exclusion and exact accounting over every run: a key is write-locked exactly when
a held key list writes it, the read-lock table holds for each key the positive number of held lists
that read it and nothing else, no key is both write- and read-locked, no two held lists write one
key, a failed `try_lock_accounts` leaves the tables as they were, and every held key list unlocks
without tripping a `debug_assert!`. -/
theorem account_locks_exact {sys : Sys α} (h : Reachable sys) :
    (∀ k, sys.locks.writeLocks k = true ↔ ∃ keys ∈ sys.held, (k, true) ∈ keys) ∧
    (∀ k c, sys.locks.readonlyLocks k = some c ↔ 0 < c ∧ c = readCount sys.held k) ∧
    (∀ k, ¬ (sys.locks.writeLocks k = true ∧ sys.locks.readonlyLocks k ≠ none)) ∧
    (∀ k, writeCount sys.held k ≤ 1) ∧
    (∀ keys r w e, (sys.locks.tryLockAccounts keys r w).1 = .error e →
      (sys.locks.tryLockAccounts keys r w).2 = sys.locks) ∧
    (∀ keys ∈ sys.held, ∃ locks, sys.locks.unlockAccounts keys = some locks) := by
  have hinv := h.inv
  have hwrite : ∀ k, sys.locks.writeLocks k = true ↔ 0 < writeCount sys.held k := by
    intro k
    rw [hinv.tables]
    simp [ofHeld]
  have hread : ∀ k c, sys.locks.readonlyLocks k = some c ↔ 0 < c ∧ c = readCount sys.held k := by
    intro k c
    rw [hinv.tables]
    by_cases h0 : readCount sys.held k = 0
    · simp only [ofHeld, h0, if_true, reduceCtorEq, false_iff, not_and]
      omega
    · simp only [ofHeld, h0, if_false, Option.some.injEq]
      omega
  refine ⟨fun k => ?_, hread, fun k ⟨hw, hr⟩ => ?_, fun k => ?_,
    fun keys r w e => sys.locks.tryLockAccounts_error keys r w, fun keys hk => ?_⟩
  · rw [hwrite, writeCount, List.countP_pos_iff]
    simp
  · -- a writer excludes every reader of its key
    obtain ⟨c, hc⟩ := Option.ne_none_iff_exists'.mp hr
    have hc0 := ((hread k c).mp hc).1
    have hr0 := (hinv.exclusive k ((hwrite k).mp hw)).2
    rw [((hread k c).mp hc).2, hr0] at hc0
    exact Nat.lt_irrefl 0 hc0
  · by_cases hw : writeCount sys.held k = 0
    · omega
    · have hw1 := (hinv.exclusive k (Nat.pos_of_ne_zero hw)).1
      omega
  · obtain ⟨locks, hrun, -⟩ := hinv.unlockAccounts hk
    exact ⟨locks, hrun⟩

theorem account_locks_exact_writer_reader :
    Reachable (⟨((default : AccountLocks Nat).tryLockAccounts [(0, true), (1, false)] none none).2,
      if ((default : AccountLocks Nat).tryLockAccounts [(0, true), (1, false)] none none).1.isOk
      then [] ++ [[(0, true), (1, false)]] else []⟩ : Sys Nat) ∧
    ((default : AccountLocks Nat).tryLockAccounts [(0, true), (1, false)] none none).2.writeLocks 0
      = true := by
  have h : Reachable (⟨((default : AccountLocks Nat).tryLockAccounts [(0, true), (1, false)]
      none none).2,
      if ((default : AccountLocks Nat).tryLockAccounts [(0, true), (1, false)] none none).1.isOk
      then [] ++ [[(0, true), (1, false)]] else []⟩ : Sys Nat) :=
    Relation.ReflTransGen.single (Step.tryLockAccounts (by decide))
  exact ⟨h, ((account_locks_exact h).1 0).mpr ⟨[(0, true), (1, false)], by decide, by decide⟩⟩

end Agave.AccountsDb
