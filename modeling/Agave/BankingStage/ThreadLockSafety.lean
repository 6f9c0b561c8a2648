import Agave.BankingStage.ThreadLockCounts

/-!
# The lock table over any run of the scheduler

The central scheduler calls `try_lock_accounts` for each transaction it hands to a worker and
`unlock_accounts` when the worker is done with it. A run is any sequence of such calls from
`ThreadAwareAccountLocks::new(n)`, with a selector that picks a member of the set it is given and
the unlock of a transaction handed out and not yet given back (`Call.Valid`).

Along every run the table records exactly the locks of the transactions handed out: the write
and read locks of an account on a thread are the number of times the account occurs among the
writable, resp. readable, accounts of those transactions on the thread (`heldWrites`,
`heldReads`), and the counts of each account are `Exclusive`. From that invariant no call of a run
panics while its locks fit in `u32` (`Call.Bounded`), a transaction is handed out exactly when
some allowed thread can take all its locks (`Lockable`), and a refused one leaves the table as it
was. The counts are multiplicities: an account named twice in one list is locked twice.
-/

namespace Agave.BankingStage

/-- A transaction handed out to a thread and not yet given back: the accounts it locks and the
thread. -/
structure HeldLocks (α : Type) where
  writeAccountLocks : List α
  readAccountLocks : List α
  threadId : Nat
  deriving DecidableEq

open ThreadAwareAccountLocks

variable {α : Type} [DecidableEq α]

/-! ## The locks of the transactions handed out -/

/-- The locks the held transactions take of `account` on thread `t`, in the account list that
`accountsOf` reads. -/
def heldCount (accountsOf : HeldLocks α → List α) (held : List (HeldLocks α)) (account : α)
    (t : Nat) : Nat :=
  (held.map fun locks => if t = locks.threadId then (accountsOf locks).count account else 0).sum

/-- The write locks the held transactions take. -/
def heldWrites (held : List (HeldLocks α)) : α → Nat → Nat :=
  heldCount HeldLocks.writeAccountLocks held

/-- The read locks the held transactions take. -/
def heldReads (held : List (HeldLocks α)) : α → Nat → Nat :=
  heldCount HeldLocks.readAccountLocks held

@[simp] theorem heldCount_nil (accountsOf : HeldLocks α → List α) (account : α) (t : Nat) :
    heldCount accountsOf [] account t = 0 := rfl

theorem heldCount_cons (accountsOf : HeldLocks α → List α) (locks : HeldLocks α)
    (held : List (HeldLocks α)) :
    heldCount accountsOf (locks :: held) =
      addCounts (heldCount accountsOf held) (accountsOf locks) locks.threadId := by
  funext account t
  simp [heldCount, addCounts, Nat.add_comm]

/-- A transaction given back takes its own locks off. -/
theorem heldCount_erase (accountsOf : HeldLocks α → List α) {locks : HeldLocks α}
    {held : List (HeldLocks α)} (hmem : locks ∈ held) :
    heldCount accountsOf held =
      addCounts (heldCount accountsOf (held.erase locks)) (accountsOf locks) locks.threadId := by
  rw [← heldCount_cons]
  funext account t
  exact ((List.perm_cons_erase hmem).map _).sum_eq

theorem heldCount_erase_le (accountsOf : HeldLocks α → List α) {locks : HeldLocks α}
    {held : List (HeldLocks α)} (hmem : locks ∈ held) (account : α) (t : Nat) :
    heldCount accountsOf (held.erase locks) account t ≤ heldCount accountsOf held account t := by
  rw [heldCount_erase accountsOf hmem]
  exact Nat.le_add_right _ _

theorem count_le_heldCount (accountsOf : HeldLocks α → List α) {locks : HeldLocks α}
    {held : List (HeldLocks α)} (hmem : locks ∈ held) (account : α) :
    (accountsOf locks).count account ≤ heldCount accountsOf held account locks.threadId := by
  rw [heldCount_erase accountsOf hmem]
  simp [addCounts]

/-! ## Calls and runs -/

/-- A call of the scheduler on the lock table. -/
inductive Call (α : Type) where
  /-- `try_lock_accounts(write_account_locks, read_account_locks, allowed_threads,
  thread_selector)`. -/
  | tryLock (writeAccountLocks readAccountLocks : List α) (allowedThreads : ThreadSet)
      (threadSelector : ThreadSet → Nat)
  /-- `unlock_accounts` of a transaction handed out before. -/
  | unlock (locks : HeldLocks α)

/-- What a call does to the table and to the transactions handed out; `none` is a panic. -/
def Call.run : Call α → ThreadAwareAccountLocks α × List (HeldLocks α) →
    Option (ThreadAwareAccountLocks α × List (HeldLocks α))
  | .tryLock writeAccountLocks readAccountLocks allowedThreads threadSelector, (s, held) =>
    (s.tryLockAccounts writeAccountLocks readAccountLocks allowedThreads threadSelector).map
      fun result => (result.2, match result.1 with
        | some threadId => ⟨writeAccountLocks, readAccountLocks, threadId⟩ :: held
        | none => held)
  | .unlock locks, (s, held) =>
    (s.unlockAccounts locks.writeAccountLocks locks.readAccountLocks locks.threadId).map
      fun s => (s, held.erase locks)

/-- The calls a run makes: a selector that picks a member of the set it is given, and the unlock
of a transaction handed out and not yet given back. -/
def Call.Valid (held : List (HeldLocks α)) : Call α → Prop
  | .tryLock _ _ _ threadSelector => SelectsMember threadSelector
  | .unlock locks => locks ∈ held

/-- The locks a call could take fit in `u32` on every thread. -/
def Call.Bounded (held : List (HeldLocks α)) : Call α → Prop
  | .tryLock writeAccountLocks readAccountLocks _ _ => ∀ account t,
    heldWrites held account t + writeAccountLocks.count account ≤ U32_MAX ∧
      heldReads held account t + readAccountLocks.count account ≤ U32_MAX
  | .unlock _ => True

/-- The states that runs of valid calls within `u32` lead to from
`ThreadAwareAccountLocks::new(n)`. -/
inductive Reachable (n : Nat) : ThreadAwareAccountLocks α × List (HeldLocks α) → Prop
  | new {s : ThreadAwareAccountLocks α} : ThreadAwareAccountLocks.new n = some s →
      Reachable n (s, [])
  | call {x y : ThreadAwareAccountLocks α × List (HeldLocks α)} (call : Call α) :
      Reachable n x → call.Valid x.2 → call.Bounded x.2 → call.run x = some y →
        Reachable n y

/-! ## The invariant -/

/-- What holds at every reachable state: the table stands for the locks of the transactions
handed out, and those are exclusive. -/
structure Inv (n : Nat) (x : ThreadAwareAccountLocks α × List (HeldLocks α)) : Prop where
  numThreads : x.1.numThreads = n
  le_max : n ≤ MAX_THREADS
  table : TableRep x.1 (heldWrites x.2) (heldReads x.2)
  exclusive : ∀ account, Exclusive n (heldWrites x.2 account) (heldReads x.2 account)

theorem Inv.new {n : Nat} {s : ThreadAwareAccountLocks α}
    (hs : ThreadAwareAccountLocks.new n = some s) : Inv n (s, []) := by
  unfold ThreadAwareAccountLocks.new at hs
  split at hs
  · rename_i hn
    cases hs
    refine ⟨rfl, hn.2, fun _ => ⟨fun _ => rfl, fun _ => rfl⟩, fun _ => ⟨?_, ?_⟩⟩
    · intro t ht
      simp [heldWrites] at ht
    · rintro t (ht | ht) <;> simp [heldWrites, heldReads] at ht
  · cases hs

/-- A transaction locked on a thread where it is lockable keeps every account exclusive. -/
theorem Exclusive.addCounts {n : Nat} {wc rc : α → Nat → Nat}
    {writeAccountLocks readAccountLocks : List α} {t : Nat}
    (hlockable : Lockable n wc rc writeAccountLocks readAccountLocks t) {account : α}
    (hex : Exclusive n (wc account) (rc account)) :
    Exclusive n (ThreadAwareAccountLocks.addCounts wc writeAccountLocks t account)
      (ThreadAwareAccountLocks.addCounts rc readAccountLocks t account) := by
  obtain ⟨ht, hwrite, hread⟩ := hlockable
  constructor
  · intro u hu u' hu'
    rw [addCounts_pos_iff] at hu
    rw [addCounts_pos_iff, addCounts_pos_iff] at hu'
    by_cases hw : account ∈ writeAccountLocks
    · -- every lock of a writable account is on `t`, the old ones and the new ones
      have hall := hwrite account hw
      have hu_t : u = t := by
        rcases hu with hu | ⟨rfl, -⟩
        · exact hall u (Or.inl hu)
        · rfl
      rcases hu' with (hu' | ⟨rfl, -⟩) | (hu' | ⟨rfl, -⟩)
      · exact (hall u' (Or.inl hu')).trans hu_t.symm
      · exact hu_t.symm
      · exact (hall u' (Or.inr hu')).trans hu_t.symm
      · exact hu_t.symm
    · -- no write lock is added; the old writer on `u` keeps the account to itself
      have hwu : 0 < wc account u := by
        rcases hu with hu | ⟨-, hmem⟩
        · exact hu
        · exact absurd hmem hw
      rcases hu' with (hu' | ⟨-, hmem⟩) | (hu' | ⟨rfl, hmem⟩)
      · exact hex.write u hwu u' (Or.inl hu')
      · exact absurd hmem hw
      · exact hex.write u hwu u' (Or.inr hu')
      · exact (hread account hmem u hwu).symm
  · intro u hu
    rw [addCounts_pos_iff, addCounts_pos_iff] at hu
    rcases hu with (hu | ⟨rfl, -⟩) | (hu | ⟨rfl, -⟩)
    · exact hex.below u (Or.inl hu)
    · exact ht
    · exact hex.below u (Or.inr hu)
    · exact ht

/-- Fewer locks are still exclusive. -/
theorem Exclusive.mono {n : Nat} {w r w' r' : Nat → Nat} (hex : Exclusive n w r)
    (hw : ∀ t, w' t ≤ w t) (hr : ∀ t, r' t ≤ r t) : Exclusive n w' r' := by
  have hpos : ∀ t, 0 < w' t ∨ 0 < r' t → 0 < w t ∨ 0 < r t := by
    rintro t (h | h)
    · exact Or.inl (Nat.lt_of_lt_of_le h (hw t))
    · exact Or.inr (Nat.lt_of_lt_of_le h (hr t))
  refine ⟨fun t ht t' ht' => ?_, fun t ht => hex.below t (hpos t ht)⟩
  exact hex.write t (Nat.lt_of_lt_of_le ht (hw t)) t' (hpos t' ht')

section Calls

variable {n : Nat} {s : ThreadAwareAccountLocks α} {held : List (HeldLocks α)}

/-- A `try_lock_accounts` of a run does not panic: it hands the transaction to an allowed thread
where it is lockable, or refuses it, leaving the table as it was, when there is none. -/
theorem Inv.tryLock (hinv : Inv n (s, held)) {writeAccountLocks readAccountLocks : List α}
    {allowedThreads : ThreadSet} {threadSelector : ThreadSet → Nat}
    (hselector : SelectsMember threadSelector)
    (hbounded : (Call.tryLock writeAccountLocks readAccountLocks allowedThreads
      threadSelector).Bounded held) :
    ∃ result, s.tryLockAccounts writeAccountLocks readAccountLocks allowedThreads threadSelector =
        some result ∧
      ((result.1 = none ∧ result.2 = s ∧ ∀ t, allowedThreads.bits.getLsbD t = true →
          ¬ Lockable n (heldWrites held) (heldReads held) writeAccountLocks readAccountLocks t) ∨
        ∃ t, result.1 = some t ∧ allowedThreads.bits.getLsbD t = true ∧
          Lockable n (heldWrites held) (heldReads held) writeAccountLocks readAccountLocks t ∧
          Inv n (result.2, ⟨writeAccountLocks, readAccountLocks, t⟩ :: held)) := by
  obtain ⟨hnum, hle, htable, hex⟩ := hinv
  subst hnum
  obtain ⟨result, hresult, hnone | ⟨t, ht, hallowed, hlockable, hnum', htable'⟩⟩ :=
    tryLockAccounts_spec allowedThreads htable hle hex hselector (fun a t => (hbounded a t).1)
      (fun a t => (hbounded a t).2)
  · exact ⟨result, hresult, Or.inl hnone⟩
  · refine ⟨result, hresult, Or.inr ⟨t, ht, hallowed, hlockable, hnum', hle, ?_, ?_⟩⟩
    · simpa only [heldWrites, heldReads, heldCount_cons] using htable'
    · intro account
      simpa only [heldWrites, heldReads, heldCount_cons] using
        Exclusive.addCounts hlockable (hex account)

/-- An `unlock_accounts` of a run does not panic, and takes the transaction's locks off. -/
theorem Inv.unlock (hinv : Inv n (s, held)) {locks : HeldLocks α} (hmem : locks ∈ held) :
    ∃ s', s.unlockAccounts locks.writeAccountLocks locks.readAccountLocks locks.threadId =
        some s' ∧ Inv n (s', held.erase locks) := by
  obtain ⟨hnum, hle, htable, hex⟩ := hinv
  obtain ⟨s', hs', hnum', htable'⟩ := unlockAccounts_spec htable
    (count_le_heldCount HeldLocks.writeAccountLocks hmem) (count_le_heldCount _ hmem)
  refine ⟨s', hs', hnum'.trans hnum, hle, ?_, fun account => ?_⟩
  · have hw := heldCount_erase HeldLocks.writeAccountLocks hmem
    have hr := heldCount_erase HeldLocks.readAccountLocks hmem
    simp only [heldWrites, heldReads] at htable' ⊢
    rw [hw, hr, subCounts_addCounts, subCounts_addCounts] at htable'
    exact htable'
  · exact (hex account).mono (heldCount_erase_le _ hmem account)
      (heldCount_erase_le _ hmem account)

/-- A valid call within `u32` from a state of the invariant does not panic, and keeps the
invariant. -/
theorem Inv.call (hinv : Inv n (s, held)) {call : Call α} (hvalid : call.Valid held)
    (hbounded : call.Bounded held) : ∃ y, call.run (s, held) = some y ∧ Inv n y := by
  cases call with
  | tryLock writeAccountLocks readAccountLocks allowedThreads threadSelector =>
    obtain ⟨result, hresult, ⟨hnone, hsame, -⟩ | ⟨t, ht, -, -, hinv'⟩⟩ :=
      hinv.tryLock hvalid hbounded
    · refine ⟨(s, held), ?_, hinv⟩
      obtain ⟨_, _⟩ := result
      simp only at hnone hsame
      subst hnone hsame
      simp [Call.run, hresult]
    · refine ⟨_, ?_, hinv'⟩
      obtain ⟨_, _⟩ := result
      simp only at ht
      subst ht
      simp [Call.run, hresult]
  | unlock locks =>
    obtain ⟨s', hs', hinv'⟩ := hinv.unlock hvalid
    exact ⟨_, by simp [Call.run, hs'], hinv'⟩

end Calls

theorem Reachable.inv {n : Nat} {x : ThreadAwareAccountLocks α × List (HeldLocks α)}
    (hx : Reachable n x) : Inv n x := by
  induction hx with
  | new hs => exact Inv.new hs
  | call call _ hvalid hbounded hrun ih =>
    obtain ⟨y, hy, hinv⟩ := Inv.call ih hvalid hbounded
    rw [hy] at hrun
    cases hrun
    exact hinv

/-! ## What the table records -/

namespace ThreadAwareAccountLocks

/-- The write locks the table records of `account` on thread `t`. -/
def writeLockCount (s : ThreadAwareAccountLocks α) (account : α) (t : Nat) : Nat :=
  match s.locks account with
  | some ⟨some writeLocks, _⟩ => if writeLocks.threadId = t then writeLocks.lockCount else 0
  | _ => 0

/-- The read locks the table records of `account` on thread `t`: its `lock_counts` entry. -/
def readLockCount (s : ThreadAwareAccountLocks α) (account : α) (t : Nat) : Nat :=
  match s.locks account with
  | some ⟨_, some readLocks⟩ => if t < MAX_THREADS then readLocks.lockCounts t else 0
  | _ => 0

variable {s : ThreadAwareAccountLocks α} {account : α} {w r : Nat → Nat}

omit [DecidableEq α] in
theorem writeLockCount_eq (hrep : EntryRep (s.locks account) w r) (t : Nat) :
    s.writeLockCount account t = w t := by
  unfold writeLockCount
  cases hlocks : s.locks account with
  | none =>
    rw [hlocks] at hrep
    exact (hrep.1 t).symm
  | some entry =>
    rw [hlocks] at hrep
    obtain ⟨writeLocks, readLocks⟩ := entry
    obtain ⟨hw, -, -⟩ := hrep
    cases writeLocks with
    | none => exact ((hw : ∀ t, w t = 0) t).symm
    | some writeLocks =>
      rw [hw.2 t]
      by_cases ht : t = writeLocks.threadId
      · simp [ht]
      · simp [ht, Ne.symm ht]

omit [DecidableEq α] in
theorem readLockCount_eq (hrep : EntryRep (s.locks account) w r) (t : Nat) :
    s.readLockCount account t = r t := by
  unfold readLockCount
  cases hlocks : s.locks account with
  | none =>
    rw [hlocks] at hrep
    exact (hrep.2 t).symm
  | some entry =>
    rw [hlocks] at hrep
    obtain ⟨writeLocks, readLocks⟩ := entry
    obtain ⟨-, hr, -⟩ := hrep
    cases readLocks with
    | none => exact ((hr : ∀ t, r t = 0) t).symm
    | some readLocks =>
      by_cases ht : t < MAX_THREADS
      · simp [ht, (hr.2.2 t ht).1]
      · simp [ht, hr.2.1 t (Nat.le_of_not_lt ht)]

end ThreadAwareAccountLocks

section Entries

variable {entry : AccountLocks} {w r : Nat → Nat}

/-- An entry has a lock. -/
theorem EntryRep.locked (hrep : EntryRep (some entry) w r) :
    entry.writeLocks.isSome ∨ entry.readLocks.isSome := by
  simpa using hrep.2.2

/-- A write lock is counted, held by one thread, below the thread count, and read locks beside
it are on that thread alone. -/
theorem EntryRep.writeLocks_sound {n : Nat} (hrep : EntryRep (some entry) w r)
    (hex : Exclusive n w r) (hn : n ≤ MAX_THREADS) {writeLocks : AccountWriteLocks}
    (hwrite : entry.writeLocks = some writeLocks) :
    1 ≤ writeLocks.lockCount ∧ writeLocks.threadId < n ∧
      ∀ readLocks, entry.readLocks = some readLocks →
        readLocks.threadSet = ThreadSet.only writeLocks.threadId := by
  obtain ⟨hw, hr, -⟩ := hrep
  rw [hwrite] at hw
  have hwu : 0 < w writeLocks.threadId := (writeLocksRep_holder hw _).mpr rfl
  have hu := hex.below _ (Or.inl hwu)
  refine ⟨hw.1, hu, fun readLocks hread => ?_⟩
  rw [hread] at hr
  -- the read locks are the writer's thread alone, so the set is that thread
  have hone := onlyOneContained_of_readLocksRep hr (Nat.lt_of_lt_of_le hu hn)
    fun t ht => hex.write _ hwu t (Or.inr ht)
  apply ThreadSet.ext_bits
  apply BitVec.eq_of_getLsbD_eq
  intro t _
  rw [Bool.eq_iff_iff, ThreadSet.getLsbD_iff_of_onlyOneContained hone,
    ThreadSet.getLsbD_only_iff (Nat.lt_of_lt_of_le hu hn)]

/-- The read thread set is the threads with a positive count. -/
theorem EntryRep.readLocks_threadSet (hrep : EntryRep (some entry) w r)
    {readLocks : AccountReadLocks} (hread : entry.readLocks = some readLocks) {t : Nat}
    (ht : t < MAX_THREADS) :
    readLocks.threadSet.contains t = decide (0 < readLocks.lockCounts t) := by
  obtain ⟨-, hr, -⟩ := hrep
  rw [hread] at hr
  rw [ThreadSet.contains_eq _ ht, (hr.2.2 t ht).2, (hr.2.2 t ht).1]

end Entries

/-! ## Runs -/

/-- The thread-aware locks over any run of valid calls within `u32`: every entry has a lock; a
write lock is counted and on one thread, with read locks on no other; the read thread set is the
threads with a positive count; every count is the number of times the held transactions on the
thread name the account. A `try_lock_accounts` hands a transaction to a thread exactly when an
allowed one can take all its locks, and leaves the table alone when it does not; neither it nor
the `unlock_accounts` of a held transaction panics. -/
theorem threadAwareAccountLocks_run_sound {n : Nat} {s : ThreadAwareAccountLocks α}
    {held : List (HeldLocks α)} (hx : Reachable n (s, held)) :
    (∀ account entry, s.locks account = some entry →
      (entry.writeLocks.isSome ∨ entry.readLocks.isSome) ∧
      (∀ writeLocks, entry.writeLocks = some writeLocks →
        1 ≤ writeLocks.lockCount ∧ writeLocks.threadId < n ∧
        ∀ readLocks, entry.readLocks = some readLocks →
          readLocks.threadSet = ThreadSet.only writeLocks.threadId) ∧
      ∀ readLocks, entry.readLocks = some readLocks → ∀ t < MAX_THREADS,
        readLocks.threadSet.contains t = decide (0 < readLocks.lockCounts t)) ∧
    (∀ account t, s.writeLockCount account t = heldWrites held account t ∧
      s.readLockCount account t = heldReads held account t) ∧
    (∀ writeAccountLocks readAccountLocks allowedThreads threadSelector,
      SelectsMember threadSelector →
      (Call.tryLock writeAccountLocks readAccountLocks allowedThreads threadSelector).Bounded
        held →
      ∃ result, s.tryLockAccounts writeAccountLocks readAccountLocks allowedThreads
          threadSelector = some result ∧
        (result.1 = none → result.2 = s) ∧
        ((∃ t, result.1 = some t) ↔ ∃ t, allowedThreads.bits.getLsbD t = true ∧
          Lockable n (heldWrites held) (heldReads held) writeAccountLocks readAccountLocks t) ∧
        ∀ t, result.1 = some t → allowedThreads.bits.getLsbD t = true ∧
          Lockable n (heldWrites held) (heldReads held) writeAccountLocks readAccountLocks t) ∧
    ∀ locks ∈ held, ∃ s', s.unlockAccounts locks.writeAccountLocks locks.readAccountLocks
      locks.threadId = some s' := by
  have hinv := hx.inv
  refine ⟨fun account entry hentry => ?_, fun account t => ?_, ?_, ?_⟩
  · -- (b): the entry's shape, from what it stands for
    have hrep := hinv.table account
    rw [hentry] at hrep
    exact ⟨hrep.locked, fun _ hwrite => hrep.writeLocks_sound (hinv.exclusive account)
      hinv.le_max hwrite, fun _ hread _ ht => hrep.readLocks_threadSet hread ht⟩
  · exact ⟨writeLockCount_eq (hinv.table account) t, readLockCount_eq (hinv.table account) t⟩
  · -- (a) and (c) for `try_lock_accounts`
    intro writeAccountLocks readAccountLocks allowedThreads threadSelector hselector hbounded
    obtain ⟨result, hresult, hcases⟩ := hinv.tryLock hselector hbounded
    refine ⟨result, hresult, ?_, ?_, ?_⟩
    · intro hnone
      rcases hcases with ⟨-, hsame, -⟩ | ⟨t, ht, -⟩
      · exact hsame
      · rw [hnone] at ht
        cases ht
    · constructor
      · rintro ⟨t, ht⟩
        rcases hcases with ⟨hnone, -⟩ | ⟨t', ht', hallowed, hlockable, -⟩
        · rw [hnone] at ht
          cases ht
        · exact ⟨t', hallowed, hlockable⟩
      · rintro ⟨t, hallowed, hlockable⟩
        rcases hcases with ⟨-, -, hrefused⟩ | ⟨t', ht', -⟩
        · exact absurd hlockable (hrefused t hallowed)
        · exact ⟨t', ht'⟩
    · intro t ht
      rcases hcases with ⟨hnone, -⟩ | ⟨t', ht', hallowed, hlockable, -⟩
      · rw [hnone] at ht
        cases ht
      · rw [ht'] at ht
        cases ht
        exact ⟨hallowed, hlockable⟩
  · -- (a) for `unlock_accounts`
    intro locks hmem
    obtain ⟨s', hs', -⟩ := hinv.unlock hmem
    exact ⟨s', hs'⟩

/-! ## Counts are multiplicities, and they overflow -/

/-- A selector that picks the lowest thread of the set. -/
def lowestThread (threads : ThreadSet) : Nat := threads.bits.ctz.toNat

theorem selectsMember_lowestThread : SelectsMember lowestThread := by
  intro threads hempty
  have hne : threads.bits ≠ 0#64 := by
    intro hzero
    have : threads = ThreadSet.none := ThreadSet.ext_bits hzero
    simp [ThreadSet.isEmpty, this] at hempty
  exact BitVec.getLsbD_true_ctz_of_ne_zero hne

theorem heldCount_replicate (accountsOf : HeldLocks α → List α) (k : Nat) (locks : HeldLocks α)
    (account : α) (t : Nat) :
    heldCount accountsOf (List.replicate k locks) account t =
      k * if t = locks.threadId then (accountsOf locks).count account else 0 := by
  simp [heldCount, List.map_replicate, List.sum_replicate]

theorem heldCount_replicate_le (accountsOf : HeldLocks α → List α) (k : Nat)
    (locks : HeldLocks α) (account : α) (t : Nat) :
    heldCount accountsOf (List.replicate k locks) account t ≤ k * (accountsOf locks).length := by
  rw [heldCount_replicate]
  apply Nat.mul_le_mul_left
  split
  · exact List.count_le_length
  · exact Nat.zero_le _

theorem getLsbD_any_one (t : Nat) : (ThreadSet.any 1).bits.getLsbD t = decide (t = 0) := by
  rw [ThreadSet.getLsbD_any (by decide)]
  simp

/-- On one thread, a transaction lockable there is handed to it. -/
theorem Inv.tryLock_one {s : ThreadAwareAccountLocks α} {held : List (HeldLocks α)}
    (hinv : Inv 1 (s, held)) {writeAccountLocks readAccountLocks : List α}
    (hbounded : (Call.tryLock writeAccountLocks readAccountLocks (ThreadSet.any 1)
      lowestThread).Bounded held)
    (hlockable : Lockable 1 (heldWrites held) (heldReads held) writeAccountLocks
      readAccountLocks 0) :
    ∃ s', s.tryLockAccounts writeAccountLocks readAccountLocks (ThreadSet.any 1) lowestThread =
        some (some 0, s') ∧ Inv 1 (s', ⟨writeAccountLocks, readAccountLocks, 0⟩ :: held) := by
  obtain ⟨⟨thread, s'⟩, hresult, ⟨-, -, hrefused⟩ | ⟨t, ht, hallowed, -, hinv'⟩⟩ :=
    hinv.tryLock selectsMember_lowestThread hbounded
  · exact absurd hlockable (hrefused 0 (by rw [getLsbD_any_one]; rfl))
  · have ht0 : t = 0 := by simpa [getLsbD_any_one] using hallowed
    simp only at ht
    subst ht ht0
    exact ⟨s', hresult, hinv'⟩

/-- The transaction that reads account `0`, as the run below hands it out. -/
def readerLocks : HeldLocks Nat := ⟨[], [0], 0⟩

/-- `try_lock_accounts` of the reader on the one thread. -/
def readerCall : Call Nat := .tryLock [] [0] (ThreadSet.any 1) lowestThread

theorem readerCall_bounded {k : Nat} (hk : k + 1 ≤ U32_MAX) :
    readerCall.Bounded (List.replicate k readerLocks) := by
  intro account t
  have hw : heldCount HeldLocks.writeAccountLocks (List.replicate k readerLocks) account t ≤
      k * 0 := heldCount_replicate_le _ k readerLocks account t
  have hr : heldCount HeldLocks.readAccountLocks (List.replicate k readerLocks) account t ≤
      k * 1 := heldCount_replicate_le _ k readerLocks account t
  have hc : List.count account [0] ≤ 1 := List.count_le_length
  constructor
  · simp only [heldWrites, List.count_nil]
    omega
  · simp only [heldReads]
    omega

/-- The reader is handed out `u32::MAX` times on the one thread. -/
theorem reachable_readers : ∀ k ≤ U32_MAX,
    ∃ s : ThreadAwareAccountLocks Nat, Reachable 1 (s, List.replicate k readerLocks)
  | 0, _ =>
    ⟨⟨1, fun _ => none⟩, Reachable.new (by simp [ThreadAwareAccountLocks.new, MAX_THREADS])⟩
  | k + 1, hk => by
    obtain ⟨s, hs⟩ := reachable_readers k (by omega)
    have hbounded := readerCall_bounded hk
    have hlockable : Lockable 1 (heldWrites (List.replicate k readerLocks))
        (heldReads (List.replicate k readerLocks)) [] [0] 0 := by
      refine ⟨by decide, by simp, fun account _ t ht => ?_⟩
      simp [heldWrites, heldCount_replicate, readerLocks] at ht
    obtain ⟨s', hs', -⟩ := hs.inv.tryLock_one hbounded hlockable
    refine ⟨s', Reachable.call readerCall hs selectsMember_lowestThread hbounded ?_⟩
    simp [readerCall, Call.run, hs', List.replicate_succ, readerLocks]

/-- Two readers of account `0` held on the one thread: the table counts both, and either can be
given back. -/
theorem threadAwareAccountLocks_run_sound_two_readers :
    ∃ s : ThreadAwareAccountLocks Nat, Reachable 1 (s, List.replicate 2 readerLocks) ∧
      s.readLockCount 0 0 = 2 ∧ s.writeLockCount 0 0 = 0 ∧
      ∃ s', s.unlockAccounts [] [0] 0 = some s' := by
  obtain ⟨s, hs⟩ := reachable_readers 2 (by decide)
  have hsound := threadAwareAccountLocks_run_sound hs
  refine ⟨s, hs, ?_, ?_, hsound.2.2.2 readerLocks (List.mem_replicate.mpr ⟨by decide, rfl⟩)⟩
  · rw [(hsound.2.1 0 0).2, heldReads, heldCount_replicate]
    rfl
  · rw [(hsound.2.1 0 0).1, heldWrites, heldCount_replicate]
    rfl

/-- With `u32::MAX` readers held, one more overflows the read count. -/
theorem tryLockAccounts_reader_overflow {s : ThreadAwareAccountLocks Nat}
    (hinv : Inv 1 (s, List.replicate U32_MAX readerLocks)) :
    s.tryLockAccounts [] [0] (ThreadSet.any 1) lowestThread = none := by
  obtain ⟨hnum, hle, htable, hex⟩ := hinv
  have hwrites : ∀ account t, heldWrites (List.replicate U32_MAX readerLocks) account t = 0 := by
    intro account t
    simp [heldWrites, heldCount_replicate, readerLocks]
  have hle' : s.numThreads ≤ MAX_THREADS := hnum ▸ hle
  have hex' : ∀ account, Exclusive s.numThreads (heldWrites (List.replicate U32_MAX readerLocks)
      account) (heldReads (List.replicate U32_MAX readerLocks) account) := hnum ▸ hex
  obtain ⟨result, hresult, hiff⟩ := s.accountsSchedulableThreads_spec hle' htable hex' [] [0]
  -- the reader can be scheduled on the one thread and nowhere else
  have hthreads : ∀ t, result.any (·.bits.getLsbD t) = true ↔ t = 0 := by
    intro t
    rw [hiff t, hnum]
    simp [Schedulable, ReadSchedulable, hwrites]
  unfold tryLockAccounts
  rw [hresult]
  cases result with
  | none => simpa using (hthreads 0).mpr rfl
  | some threads =>
    simp only [Option.any_some] at hthreads
    have hand : ∀ t, (threads &&& ThreadSet.any 1).bits.getLsbD t = decide (t = 0) := by
      intro t
      rw [ThreadSet.getLsbD_and, getLsbD_any_one]
      by_cases ht : t = 0
      · simp [ht, (hthreads 0).mpr rfl]
      · simp [ht]
    have hnonempty : (threads &&& ThreadSet.any 1).isEmpty = false := by
      cases hempty : (threads &&& ThreadSet.any 1).isEmpty
      · rfl
      · have := (ThreadSet.isEmpty_iff _).mp hempty 0 (by decide)
        rw [hand] at this
        cases this
    have hselect : lowestThread (threads &&& ThreadSet.any 1) = 0 :=
      BitSet.toNat_ctz_of_forall_getLsbD (by decide) fun t _ => hand t
    have hfull : heldReads (List.replicate U32_MAX readerLocks) 0 0 = U32_MAX := by
      simp [heldReads, heldCount_replicate, readerLocks]
    have hoverflow := readLockAccount_eq_none_of_overflow (htable 0)
      (fun t ht => by simp [hwrites] at ht) (by decide) hfull
    simp only [hnonempty, Bool.false_eq_true, if_false, hselect, lockAccounts]
    simp [hoverflow]

theorem threadAwareAccountLocks_counts_multiplicity_and_overflow :
    (∃ s s' : ThreadAwareAccountLocks Nat, ThreadAwareAccountLocks.new 1 = some s ∧
      s.tryLockAccounts [0, 0] [] (ThreadSet.any 1) lowestThread = some (some 0, s') ∧
      s'.writeLockCount 0 0 = 2) ∧
    ∃ x, Reachable 1 x ∧ readerCall.Valid x.2 ∧ readerCall.run x = none := by
  constructor
  · -- one transaction naming account `0` twice takes two write locks
    have hnew : ThreadAwareAccountLocks.new 1 =
        some (⟨1, fun _ => none⟩ : ThreadAwareAccountLocks Nat) := by
      simp [ThreadAwareAccountLocks.new, MAX_THREADS]
    have hbounded : (Call.tryLock [0, 0] [] (ThreadSet.any 1) lowestThread).Bounded
        ([] : List (HeldLocks Nat)) := by
      intro account t
      have hc : List.count account [0, 0] ≤ 2 := List.count_le_length
      refine ⟨?_, by simp [heldReads]⟩
      simp only [heldWrites, heldCount_nil, Nat.zero_add]
      exact hc.trans (by decide)
    have hlockable : Lockable 1 (heldWrites ([] : List (HeldLocks Nat))) (heldReads [])
        [0, 0] [] 0 := by
      refine ⟨by decide, fun account _ t ht => ?_, by simp⟩
      simp [heldWrites, heldReads] at ht
    obtain ⟨s', hs', hinv'⟩ := (Inv.new hnew).tryLock_one hbounded hlockable
    refine ⟨_, s', hnew, hs', ?_⟩
    rw [writeLockCount_eq (hinv'.table 0) 0]
    simp [heldWrites, heldCount]
  · -- after `u32::MAX` readers, the next one panics
    obtain ⟨s, hs⟩ := reachable_readers U32_MAX le_rfl
    refine ⟨_, hs, selectsMember_lowestThread, ?_⟩
    simp [readerCall, Call.run, tryLockAccounts_reader_overflow hs.inv]

end Agave.BankingStage
