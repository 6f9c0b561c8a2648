import Agave.BankingStage.ThreadAwareAccountLocks

/-!
# What the lock table stands for

An entry of the thread-aware lock table stands for two counts per thread: how many write locks and
how many read locks on the account the thread holds (`EntryRep`). Given the counts, the entry is
determined: no entry when both are zero, a write lock on the one thread with write locks, and read
locks whose thread set is the threads with a positive read count. Counts that can be held at once
are `Exclusive`: a thread with a write lock shares the account with no other thread.

Each operation is specified on that reading. `schedulable_threads` returns the threads a writer
(`WriteSchedulable`: every lock on the account is on the thread) or a reader
(`ReadSchedulable`: every write lock is) can join, below the thread count. Locking adds one to a
count and unlocking takes one off, without a panic as long as the lock is schedulable and the
count stays within `u32`; the folds of `lock_accounts` and `unlock_accounts` add and take off
the multiplicities of the accounts in their lists (`addCounts`, `subCounts`).
-/

namespace Agave.BankingStage

/-! ### Thread sets as sets -/

namespace ThreadSet

@[simp] theorem getLsbD_none (t : Nat) : ThreadSet.none.bits.getLsbD t = false :=
  BitVec.getLsbD_zero

@[simp] theorem getLsbD_only (u t : Nat) :
    (ThreadSet.only u).bits.getLsbD t = (decide (t < MAX_THREADS) && decide (t = u)) :=
  BitSet.getLsbD_one_shiftLeft u t

theorem getLsbD_any {n : Nat} (hn : n ≤ MAX_THREADS) (t : Nat) :
    (ThreadSet.any n).bits.getLsbD t = decide (t < n) := by
  unfold ThreadSet.any
  split
  · rename_i h
    rw [BitVec.getLsbD_allOnes, h]
    rfl
  · exact BitSet.getLsbD_one_shiftLeft_sub_one (by unfold MAX_THREADS at *; omega) t

@[simp] theorem getLsbD_and (s u : ThreadSet) (t : Nat) :
    (s &&& u).bits.getLsbD t = (s.bits.getLsbD t && u.bits.getLsbD t) :=
  BitVec.getLsbD_and

theorem getLsbD_insert (s : ThreadSet) {u : Nat} (hu : u < MAX_THREADS) (t : Nat) :
    (s.insert u).bits.getLsbD t = (decide (t = u) || s.bits.getLsbD t) := by
  unfold insert asFlag
  rw [BitVec.getLsbD_or, BitSet.getLsbD_one_shiftLeft]
  have hu' : u < 64 := hu
  by_cases h : t = u
  · subst h
    simp [hu']
  · simp [h]

theorem getLsbD_remove (s : ThreadSet) (u t : Nat) :
    (s.remove u).bits.getLsbD t = (s.bits.getLsbD t && !decide (t = u)) := by
  unfold remove asFlag
  rw [BitVec.getLsbD_and, BitVec.getLsbD_not, BitSet.getLsbD_one_shiftLeft]
  by_cases ht : t < 64
  · simp [ht]
  · simp [ht, BitVec.getLsbD_of_ge s.bits t (by omega)]

theorem ext_bits {s u : ThreadSet} (h : s.bits = u.bits) : s = u := by
  cases s
  cases u
  cases h
  rfl

theorem getLsbD_only_iff {u : Nat} (hu : u < MAX_THREADS) (t : Nat) :
    (ThreadSet.only u).bits.getLsbD t = true ↔ t = u := by
  rw [getLsbD_only]
  constructor
  · intro h
    simpa using (Bool.and_eq_true_iff.mp h).2
  · rintro rfl
    simp [hu]

theorem contains_eq (s : ThreadSet) {t : Nat} (ht : t < MAX_THREADS) :
    s.contains t = s.bits.getLsbD t := by
  have ht' : t < 64 := ht
  unfold contains asFlag
  by_cases hbit : s.bits.getLsbD t
  · have hne : s.bits &&& 1#64 <<< t ≠ 0#64 := by
      intro h
      have := congrArg (fun x => BitVec.getLsbD x t) h
      rw [BitVec.getLsbD_and, BitSet.getLsbD_one_shiftLeft, BitVec.getLsbD_zero, hbit] at this
      simp [ht'] at this
    simp [hne, hbit]
  · have heq : s.bits &&& 1#64 <<< t = 0#64 := by
      apply BitVec.eq_of_getLsbD_eq
      intro i _
      simp only [BitVec.getLsbD_and, BitSet.getLsbD_one_shiftLeft, BitVec.getLsbD_zero]
      by_cases hi : i = t
      · subst hi
        simp [hbit]
      · simp [hi]
    simp [heq, hbit]

theorem isEmpty_iff (s : ThreadSet) :
    s.isEmpty = true ↔ ∀ t < MAX_THREADS, s.bits.getLsbD t = false := by
  unfold isEmpty
  constructor
  · intro h t _
    have : s = ThreadSet.none := by simpa using h
    rw [this, getLsbD_none]
  · intro h
    have : s.bits = ThreadSet.none.bits :=
      BitVec.eq_of_getLsbD_eq fun t ht => by rw [h t ht, getLsbD_none]
    cases s
    simp_all

/-- `only_one_contained` finds the one member of a set that has exactly one. -/
theorem onlyOneContained_eq_some_iff (s : ThreadSet) (u : Nat) :
    s.onlyOneContained = some u ↔
      u < MAX_THREADS ∧ ∀ t < MAX_THREADS, s.bits.getLsbD t = decide (t = u) := by
  unfold onlyOneContained numThreads
  rw [BitSet.toNat_cpop_eq_countP]
  constructor
  · intro h
    split at h
    · rename_i hone
      obtain ⟨i, hi, hsingle⟩ := BitSet.countP_range_eq_one_iff.mp hone
      have hctz := BitSet.toNat_ctz_of_forall_getLsbD hi hsingle
      cases h
      rw [hctz]
      exact ⟨hi, hsingle⟩
    · cases h
  · rintro ⟨hu, hsingle⟩
    have hu' : u < 64 := hu
    have hsingle' : ∀ t < 64, s.bits.getLsbD t = decide (t = u) := hsingle
    rw [if_pos (BitSet.countP_range_eq_one_iff.mpr ⟨u, hu', hsingle'⟩),
      BitSet.toNat_ctz_of_forall_getLsbD hu' hsingle']

theorem getLsbD_iff_of_onlyOneContained {s : ThreadSet} {u : Nat}
    (h : s.onlyOneContained = some u) (t : Nat) : s.bits.getLsbD t = true ↔ t = u := by
  obtain ⟨hu, hbits⟩ := (onlyOneContained_eq_some_iff s u).mp h
  by_cases ht : t < MAX_THREADS
  · rw [hbits t ht, decide_eq_true_iff]
  · have ht' : 64 ≤ t := Nat.le_of_not_lt ht
    rw [BitVec.getLsbD_of_ge s.bits t ht']
    have : t ≠ u := fun htu => ht (htu ▸ hu)
    simp [this]

end ThreadSet

/-! ### What an entry stands for -/

/-- One lock more on thread `t`. -/
def incAt (f : Nat → Nat) (t : Nat) : Nat → Nat := Function.update f t (f t + 1)

/-- One lock fewer on thread `t`. -/
def decAt (f : Nat → Nat) (t : Nat) : Nat → Nat := Function.update f t (f t - 1)

@[simp] theorem incAt_apply (f : Nat → Nat) (t u : Nat) :
    incAt f t u = if u = t then f t + 1 else f u := by
  by_cases h : u = t
  · subst h
    simp [incAt]
  · simp [incAt, h]

@[simp] theorem decAt_apply (f : Nat → Nat) (t u : Nat) :
    decAt f t u = if u = t then f t - 1 else f u := by
  by_cases h : u = t
  · subst h
    simp [decAt]
  · simp [decAt, h]

/-- What the write locks of an entry stand for: `w t` write locks held on thread `t`. -/
def WriteLocksRep : Option AccountWriteLocks → (Nat → Nat) → Prop
  | none, w => ∀ t, w t = 0
  | some locks, w =>
    0 < locks.lockCount ∧ ∀ t, w t = if t = locks.threadId then locks.lockCount else 0

/-- What the read locks of an entry stand for: `r t` read locks held on thread `t`, counted in
`lock_counts`, and the thread set the threads with any. -/
def ReadLocksRep : Option AccountReadLocks → (Nat → Nat) → Prop
  | none, r => ∀ t, r t = 0
  | some locks, r =>
    (∃ t, 0 < r t) ∧ (∀ t, MAX_THREADS ≤ t → r t = 0) ∧
      ∀ t < MAX_THREADS, locks.lockCounts t = r t ∧
        locks.threadSet.bits.getLsbD t = decide (0 < r t)

/-- What an entry of the table stands for; an entry has some lock. -/
def EntryRep : Option AccountLocks → (Nat → Nat) → (Nat → Nat) → Prop
  | none, w, r => (∀ t, w t = 0) ∧ ∀ t, r t = 0
  | some locks, w, r =>
    WriteLocksRep locks.writeLocks w ∧ ReadLocksRep locks.readLocks r ∧
      (locks.writeLocks.isSome || locks.readLocks.isSome) = true

/-- Every lock on the account is on thread `t`: a writer can join there. -/
def WriteSchedulable (w r : Nat → Nat) (t : Nat) : Prop :=
  ∀ t', 0 < w t' ∨ 0 < r t' → t' = t

/-- Every write lock on the account is on thread `t`: a reader can join there. -/
def ReadSchedulable (w : Nat → Nat) (t : Nat) : Prop := ∀ t', 0 < w t' → t' = t

/-- A lock of kind `write` can be taken on thread `t`, one of the `n`. -/
def Schedulable (n : Nat) (write : Bool) (w r : Nat → Nat) (t : Nat) : Prop :=
  t < n ∧ if write then WriteSchedulable w r t else ReadSchedulable w t

/-- Counts of one account that can be held at once on `n` threads: a thread with a write lock
has the account to itself. -/
structure Exclusive (n : Nat) (w r : Nat → Nat) : Prop where
  write : ∀ t, 0 < w t → WriteSchedulable w r t
  below : ∀ t, 0 < w t ∨ 0 < r t → t < n

theorem WriteSchedulable.incAt {w r : Nat → Nat} {t : Nat} (h : WriteSchedulable w r t) :
    WriteSchedulable (BankingStage.incAt w t) r t := by
  intro t' ht'
  by_cases heq : t' = t
  · exact heq
  · simp only [BankingStage.incAt, Function.update_of_ne heq] at ht'
    exact h t' ht'

/-- Read locks held on one thread only are a thread set of one. -/
theorem onlyOneContained_of_readLocksRep {locks : AccountReadLocks} {r : Nat → Nat} {u : Nat}
    (hrep : ReadLocksRep (some locks) r) (hu : u < MAX_THREADS) (hall : ∀ t, 0 < r t → t = u) :
    locks.threadSet.onlyOneContained = some u := by
  obtain ⟨⟨t₀, ht₀⟩, -, hcounts⟩ := hrep
  have hru : 0 < r u := hall t₀ ht₀ ▸ ht₀
  refine (ThreadSet.onlyOneContained_eq_some_iff _ _).mpr ⟨hu, fun t ht => ?_⟩
  rw [(hcounts t ht).2]
  by_cases htu : t = u
  · subst htu
    simp [hru]
  · have : ¬ 0 < r t := fun hpos => htu (hall t hpos)
    simp [htu, this]

/-- Read locks whose thread set has one member are held on that thread alone. -/
theorem readLocksRep_holder {locks : AccountReadLocks} {r : Nat → Nat} {u : Nat}
    (hrep : ReadLocksRep (some locks) r) (hone : locks.threadSet.onlyOneContained = some u)
    (t : Nat) : 0 < r t ↔ t = u := by
  obtain ⟨-, hbeyond, hcounts⟩ := hrep
  rw [← ThreadSet.getLsbD_iff_of_onlyOneContained hone]
  by_cases ht : t < MAX_THREADS
  · rw [(hcounts t ht).2, decide_eq_true_iff]
  · have ht' : 64 ≤ t := Nat.le_of_not_lt ht
    rw [hbeyond t ht', BitVec.getLsbD_of_ge _ t ht']
    simp

/-- Write locks are held on their thread alone. -/
theorem writeLocksRep_holder {locks : AccountWriteLocks} {w : Nat → Nat}
    (hrep : WriteLocksRep (some locks) w) (t : Nat) : 0 < w t ↔ t = locks.threadId := by
  obtain ⟨hpos, hw⟩ := hrep
  rw [hw t]
  by_cases ht : t = locks.threadId <;> simp [ht, hpos]

theorem schedulable_iff_of_unlocked {n : Nat} {write : Bool} {w r : Nat → Nat}
    (hw : ∀ t, w t = 0) (hr : ∀ t, r t = 0) (t : Nat) :
    Schedulable n write w r t ↔ t < n := by
  cases write <;> simp [Schedulable, WriteSchedulable, ReadSchedulable, hw, hr]

/-- With every lock on a thread `u` that holds one of the kind that keeps the lock out, a lock
can be taken on `u` and nowhere else. -/
theorem schedulable_iff_of_holder {n : Nat} {write : Bool} {w r : Nat → Nat} {u : Nat}
    (hu : u < n) (hall : ∀ t', 0 < w t' ∨ 0 < r t' → t' = u)
    (hpos : if write then 0 < w u ∨ 0 < r u else 0 < w u) (t : Nat) :
    Schedulable n write w r t ↔ t = u := by
  cases write with
  | true =>
    simp only [Schedulable, WriteSchedulable, if_true] at hpos ⊢
    constructor
    · rintro ⟨-, hsched⟩
      exact (hsched u hpos).symm
    · rintro rfl
      exact ⟨hu, hall⟩
  | false =>
    simp only [Schedulable, ReadSchedulable, Bool.false_eq_true, if_false] at hpos ⊢
    constructor
    · rintro ⟨-, hsched⟩
      exact (hsched u hpos).symm
    · rintro rfl
      exact ⟨hu, fun t' ht' => hall t' (Or.inl ht')⟩

namespace ThreadAwareAccountLocks

variable {α : Type}

/-- `schedulable_threads` is the set of the threads where the lock can be taken. -/
theorem schedulableThreads_spec (s : ThreadAwareAccountLocks α) (write : Bool) (account : α)
    {w r : Nat → Nat} (hn : s.numThreads ≤ MAX_THREADS) (hrep : EntryRep (s.locks account) w r)
    (hex : Exclusive s.numThreads w r) :
    ∃ threads, s.schedulableThreads write account = some threads ∧
      ∀ t, threads.bits.getLsbD t = true ↔ Schedulable s.numThreads write w r t := by
  unfold schedulableThreads
  cases hlocks : s.locks account with
  | none =>
    rw [hlocks] at hrep
    refine ⟨_, rfl, fun t => ?_⟩
    rw [ThreadSet.getLsbD_any hn, decide_eq_true_iff, schedulable_iff_of_unlocked hrep.1 hrep.2]
  | some locks =>
    rw [hlocks] at hrep
    obtain ⟨writeLocks, readLocks⟩ := locks
    obtain ⟨hw, hr, hsome⟩ := hrep
    cases writeLocks with
    | none =>
      have hw0 : ∀ t, w t = 0 := hw
      cases readLocks with
      | none => simp at hsome
      | some readLocks =>
        cases write with
        | false =>
          -- a reader joins read locks anywhere
          refine ⟨_, rfl, fun t => ?_⟩
          rw [ThreadSet.getLsbD_any hn, decide_eq_true_iff]
          simp [Schedulable, ReadSchedulable, hw0]
        | true =>
          -- a writer joins read locks only where they are all held
          cases hone : readLocks.threadSet.onlyOneContained with
          | none =>
            refine ⟨_, rfl, fun t => ?_⟩
            simp only [hone, Option.map_none, Option.getD_none, ThreadSet.getLsbD_none,
              Bool.false_eq_true, false_iff]
            rintro ⟨ht, hsched⟩
            have ht' : t < MAX_THREADS := Nat.lt_of_lt_of_le ht hn
            have := onlyOneContained_of_readLocksRep hr ht' fun t' h => hsched t' (Or.inr h)
            rw [hone] at this
            cases this
          | some u =>
            have hu : u < MAX_THREADS := ((ThreadSet.onlyOneContained_eq_some_iff _ _).mp hone).1
            have hholder := readLocksRep_holder hr hone
            have hru : 0 < r u := (hholder u).mpr rfl
            refine ⟨_, rfl, fun t => ?_⟩
            rw [hone, Option.map_some, Option.getD_some, ThreadSet.getLsbD_only_iff hu]
            refine (schedulable_iff_of_holder (hex.below u (Or.inr hru)) ?_ (by simp [hru]) t).symm
            rintro t' (h | h)
            · simp [hw0] at h
            · exact (hholder t').mp h
    | some writeLocks =>
      have hholder := writeLocksRep_holder hw
      have hwu : 0 < w writeLocks.threadId := (hholder _).mpr rfl
      have hu : writeLocks.threadId < s.numThreads := hex.below _ (Or.inl hwu)
      have hall := hex.write _ hwu
      have hpos : if write then 0 < w writeLocks.threadId ∨ 0 < r writeLocks.threadId
          else 0 < w writeLocks.threadId := by
        cases write <;> simp [hwu]
      cases readLocks with
      | none =>
        refine ⟨_, rfl, fun t => ?_⟩
        rw [ThreadSet.getLsbD_only_iff (Nat.lt_of_lt_of_le hu hn)]
        exact (schedulable_iff_of_holder hu hall hpos t).symm
      | some readLocks =>
        -- the readers must be the writer's thread alone, which the locks held ensure
        have hone := onlyOneContained_of_readLocksRep hr (Nat.lt_of_lt_of_le hu hn)
          fun t' h => hall t' (Or.inr h)
        refine ⟨_, if_pos hone, fun t => ?_⟩
        rw [ThreadSet.getLsbD_iff_of_onlyOneContained hone]
        exact (schedulable_iff_of_holder hu hall hpos t).symm

section Narrowing

variable (s : ThreadAwareAccountLocks α) {wc rc : α → Nat → Nat}
  (hn : s.numThreads ≤ MAX_THREADS)
  (hrep : ∀ account, EntryRep (s.locks account) (wc account) (rc account))
  (hex : ∀ account, Exclusive s.numThreads (wc account) (rc account))
include hn hrep hex

/-- The loop of `accounts_schedulable_threads` keeps the threads where every account of the list
can be locked; `None` stands for none left. -/
theorem narrowSchedulableThreads_spec (write : Bool) (accounts : List α) (threads : ThreadSet) :
    ∃ result, s.narrowSchedulableThreads write threads accounts = some result ∧
      ∀ t, result.any (·.bits.getLsbD t) = true ↔
        threads.bits.getLsbD t = true ∧
          ∀ account ∈ accounts, Schedulable s.numThreads write (wc account) (rc account) t := by
  induction accounts generalizing threads with
  | nil => exact ⟨_, rfl, fun t => by simp⟩
  | cons account accounts ih =>
    obtain ⟨found, hfound, hmem⟩ :=
      s.schedulableThreads_spec write account hn (hrep account) (hex account)
    simp only [narrowSchedulableThreads, hfound]
    split
    · -- the loop stops: no thread is left
      rename_i hempty
      refine ⟨_, rfl, fun t => ?_⟩
      simp only [Option.any_none, Bool.false_eq_true, false_iff, not_and, List.forall_mem_cons]
      intro hthreads hsched _
      have ht : t < MAX_THREADS := BitVec.lt_of_getLsbD hthreads
      have hnone := (ThreadSet.isEmpty_iff _).mp hempty t ht
      rw [ThreadSet.getLsbD_and, hthreads, (hmem t).mpr hsched] at hnone
      cases hnone
    · obtain ⟨result, hresult, hiff⟩ := ih (threads &&& found)
      refine ⟨result, hresult, fun t => ?_⟩
      rw [hiff t, ThreadSet.getLsbD_and, Bool.and_eq_true, hmem t, List.forall_mem_cons, and_assoc]

/-- `accounts_schedulable_threads` is the set of the threads, below the thread count, where every
writable account can be write-locked and every readable one read-locked. -/
theorem accountsSchedulableThreads_spec (writeAccountLocks readAccountLocks : List α) :
    ∃ result, s.accountsSchedulableThreads writeAccountLocks readAccountLocks = some result ∧
      ∀ t, result.any (·.bits.getLsbD t) = true ↔
        t < s.numThreads ∧
          (∀ account ∈ writeAccountLocks,
            Schedulable s.numThreads true (wc account) (rc account) t) ∧
          ∀ account ∈ readAccountLocks,
            Schedulable s.numThreads false (wc account) (rc account) t := by
  obtain ⟨writable, hwritable, hiff⟩ :=
    s.narrowSchedulableThreads_spec hn hrep hex true writeAccountLocks (ThreadSet.any s.numThreads)
  unfold accountsSchedulableThreads
  rw [hwritable]
  cases writable with
  | none =>
    refine ⟨none, rfl, fun t => ?_⟩
    have := hiff t
    rw [ThreadSet.getLsbD_any hn, decide_eq_true_iff] at this
    simp only [Option.any_none, Bool.false_eq_true, false_iff] at this ⊢
    tauto
  | some writable =>
    obtain ⟨result, hresult, hiff'⟩ :=
      s.narrowSchedulableThreads_spec hn hrep hex false readAccountLocks writable
    refine ⟨result, hresult, fun t => ?_⟩
    have := hiff t
    rw [ThreadSet.getLsbD_any hn, decide_eq_true_iff, Option.any_some] at this
    rw [hiff' t, this, and_assoc]

end Narrowing

/-! ### One lock taken or given back -/

variable [DecidableEq α]

@[simp] theorem setEntry_locks (s : ThreadAwareAccountLocks α) (account : α)
    (entry : Option AccountLocks) :
    (s.setEntry account entry).locks = Function.update s.locks account entry := rfl

@[simp] theorem setEntry_numThreads (s : ThreadAwareAccountLocks α) (account : α)
    (entry : Option AccountLocks) : (s.setEntry account entry).numThreads = s.numThreads := rfl

/-- The write locks after one more on the thread that holds every lock. -/
theorem writeLocksRep_incAt {w : Nat → Nat} {r : Nat → Nat} {t : Nat}
    (hsched : WriteSchedulable w r t) :
    WriteLocksRep (some ⟨t, w t + 1⟩) (incAt w t) := by
  refine ⟨Nat.succ_pos _, fun u => ?_⟩
  rw [incAt_apply]
  by_cases hu : u = t
  · simp [hu]
  · have : ¬ 0 < w u := fun h => hu (hsched u (Or.inl h))
    simp only [hu, if_false]
    omega

/-- The read locks after one more on thread `t`. -/
theorem readLocksRep_incAt {locks : AccountReadLocks} {r : Nat → Nat} {t : Nat}
    (hrep : ReadLocksRep (some locks) r) (ht : t < MAX_THREADS) :
    ReadLocksRep (some ⟨locks.threadSet.insert t,
      Function.update locks.lockCounts t (locks.lockCounts t + 1)⟩) (incAt r t) := by
  obtain ⟨-, hbeyond, hcounts⟩ := hrep
  refine ⟨⟨t, by simp⟩, fun u hu => ?_, fun u hu => ⟨?_, ?_⟩⟩
  · have : u ≠ t := by omega
    simp [this, hbeyond u hu]
  · by_cases h : u = t
    · subst h
      simp [(hcounts u hu).1]
    · simp [h, (hcounts u hu).1]
  · rw [ThreadSet.getLsbD_insert _ ht, (hcounts u hu).2]
    by_cases h : u = t
    · subst h
      simp
    · simp [h]

/-- The read locks of a first reader on thread `t`. -/
theorem readLocksRep_only {r : Nat → Nat} {t : Nat} (hr : ∀ u, r u = 0) (ht : t < MAX_THREADS) :
    ReadLocksRep (some ⟨ThreadSet.only t, Function.update (fun _ => 0) t 1⟩) (incAt r t) := by
  refine ⟨⟨t, by simp⟩, fun u hu => ?_, fun u hu => ⟨?_, ?_⟩⟩
  · have : u ≠ t := by omega
    simp [this, hr u]
  · by_cases h : u = t
    · subst h
      simp [hr]
    · simp [h, hr u]
  · rw [ThreadSet.getLsbD_only]
    by_cases h : u = t
    · subst h
      simp [hu, hr]
    · simp [h, hr u]

/-- `write_lock_account` on a thread where the account can be write-locked, within `u32`, adds
one to the thread's write count. -/
theorem writeLockAccount_spec {s : ThreadAwareAccountLocks α} {account : α} {w r : Nat → Nat}
    {threadId : Nat} (hrep : EntryRep (s.locks account) w r)
    (hsched : WriteSchedulable w r threadId) (hthread : threadId < MAX_THREADS)
    (hbound : w threadId + 1 ≤ U32_MAX) :
    ∃ entry, s.writeLockAccount account threadId = some (s.setEntry account entry) ∧
      EntryRep entry (incAt w threadId) r := by
  unfold writeLockAccount
  cases hlocks : s.locks account with
  | none =>
    rw [hlocks] at hrep
    obtain ⟨hw, hr⟩ := hrep
    refine ⟨_, rfl, ?_, hr, rfl⟩
    simpa [hw] using writeLocksRep_incAt (w := w) (r := r) (t := threadId)
      fun u hu => by simp [hw, hr] at hu
  | some locks =>
    rw [hlocks] at hrep
    obtain ⟨writeLocks, readLocks⟩ := locks
    obtain ⟨hw, hr, -⟩ := hrep
    -- the read locks, if any, are all on the thread
    have hreaders : (readLocks.any fun locks =>
        locks.threadSet.onlyOneContained != some threadId) = false := by
      cases readLocks with
      | none => rfl
      | some readLocks =>
        have := onlyOneContained_of_readLocksRep hr hthread fun u h => hsched u (Or.inr h)
        simp [this]
    simp only [Option.getD_some, hreaders, Bool.false_eq_true, if_false]
    cases writeLocks with
    | none =>
      have hw0 : w threadId = 0 := (hw : ∀ t, w t = 0) threadId
      refine ⟨_, rfl, ?_, hr, rfl⟩
      simpa [hw0] using writeLocksRep_incAt hsched
    | some writeLocks =>
      -- the write locks are on the thread, and their count is its write count
      have hid : writeLocks.threadId = threadId :=
        hsched _ (Or.inl ((writeLocksRep_holder hw _).mpr rfl))
      have hcount : writeLocks.lockCount = w threadId := by
        rw [hw.2 threadId, if_pos hid.symm]
      have hok : ¬ U32_MAX < writeLocks.lockCount + 1 := by omega
      simp only [hid, ne_eq, not_true_eq_false, if_false, hok]
      refine ⟨_, rfl, ?_, hr, rfl⟩
      rw [hcount]
      exact writeLocksRep_incAt hsched

/-- The write locks, if any, are on a thread where the account can be read-locked. -/
theorem writeLocks_any_eq_false {writeLocks : Option AccountWriteLocks} {w : Nat → Nat}
    {threadId : Nat} (hw : WriteLocksRep writeLocks w) (hsched : ReadSchedulable w threadId) :
    (writeLocks.any fun locks => locks.threadId != threadId) = false := by
  cases writeLocks with
  | none => rfl
  | some writeLocks =>
    have := hsched _ ((writeLocksRep_holder hw _).mpr rfl)
    simp [this]

/-- `read_lock_account` on a thread where the account can be read-locked, within `u32`, adds
one to the thread's read count. -/
theorem readLockAccount_spec {s : ThreadAwareAccountLocks α} {account : α} {w r : Nat → Nat}
    {threadId : Nat} (hrep : EntryRep (s.locks account) w r)
    (hsched : ReadSchedulable w threadId) (hthread : threadId < MAX_THREADS)
    (hbound : r threadId + 1 ≤ U32_MAX) :
    ∃ entry, s.readLockAccount account threadId = some (s.setEntry account entry) ∧
      EntryRep entry w (incAt r threadId) := by
  unfold readLockAccount
  have hthread' : ¬ MAX_THREADS ≤ threadId := Nat.not_le_of_lt hthread
  cases hlocks : s.locks account with
  | none =>
    rw [hlocks] at hrep
    obtain ⟨hw, hr⟩ := hrep
    refine ⟨some ⟨none, some ⟨ThreadSet.only threadId,
        Function.update (fun _ => 0) threadId 1⟩⟩,
      ?_, hw, readLocksRep_only hr hthread, rfl⟩
    simp [default, hthread']
  | some locks =>
    rw [hlocks] at hrep
    obtain ⟨writeLocks, readLocks⟩ := locks
    obtain ⟨hw, hr, -⟩ := hrep
    simp only [Option.getD_some, writeLocks_any_eq_false hw hsched, Bool.false_eq_true, if_false,
      hthread']
    cases readLocks with
    | none =>
      exact ⟨_, rfl, hw, readLocksRep_only hr hthread, by simp⟩
    | some readLocks =>
      have hcount : readLocks.lockCounts threadId = r threadId := (hr.2.2 threadId hthread).1
      have hok : ¬ U32_MAX < readLocks.lockCounts threadId + 1 := by omega
      simp only [hok, if_false]
      exact ⟨_, rfl, hw, readLocksRep_incAt hr hthread, by simp⟩

/-- `read_lock_account` on a thread whose read count is already `u32::MAX` overflows. -/
theorem readLockAccount_eq_none_of_overflow {s : ThreadAwareAccountLocks α} {account : α}
    {w r : Nat → Nat} {threadId : Nat} (hrep : EntryRep (s.locks account) w r)
    (hsched : ReadSchedulable w threadId) (hthread : threadId < MAX_THREADS)
    (hfull : r threadId = U32_MAX) : s.readLockAccount account threadId = none := by
  unfold readLockAccount
  have hpos : 0 < r threadId := by
    rw [hfull]
    decide
  cases hlocks : s.locks account with
  | none =>
    rw [hlocks] at hrep
    simp [hrep.2 threadId] at hpos
  | some entry =>
    rw [hlocks] at hrep
    obtain ⟨writeLocks, readLocks⟩ := entry
    obtain ⟨hw, hr, -⟩ := hrep
    simp only [Option.getD_some, writeLocks_any_eq_false hw hsched, Bool.false_eq_true, if_false,
      Nat.not_le_of_lt hthread]
    cases readLocks with
    | none => simp [(hr : ∀ t, r t = 0) threadId] at hpos
    | some readLocks =>
      have hcount : readLocks.lockCounts threadId = U32_MAX :=
        (hr.2.2 threadId hthread).1.trans hfull
      simp [hcount]

/-- The counts of `lock_counts` after one read lock on thread `t` is given back. -/
theorem lockCounts_decAt {locks : AccountReadLocks} {r : Nat → Nat} {t : Nat}
    (hrep : ReadLocksRep (some locks) r) {u : Nat} (hu : u < MAX_THREADS) :
    Function.update locks.lockCounts t (r t - 1) u = decAt r t u := by
  rw [decAt_apply]
  by_cases h : u = t
  · subst h
    simp
  · simp [h, (hrep.2.2 u hu).1]

/-- The read locks after one of several on thread `t` is given back. -/
theorem readLocksRep_decAt {locks : AccountReadLocks} {r : Nat → Nat} {t : Nat}
    (hrep : ReadLocksRep (some locks) r) (hmore : ¬ r t - 1 = 0) :
    ReadLocksRep (some ⟨locks.threadSet, Function.update locks.lockCounts t (r t - 1)⟩)
      (decAt r t) := by
  have hpos : 0 < decAt r t t := by
    simp only [decAt_apply, if_true]
    omega
  refine ⟨⟨t, hpos⟩, fun u hu => ?_, fun u hu => ⟨lockCounts_decAt hrep hu, ?_⟩⟩
  · by_cases h : u = t
    · subst h
      simp [hrep.2.1 u hu]
    · simp [h, hrep.2.1 u hu]
  · show locks.threadSet.bits.getLsbD u = _
    rw [(hrep.2.2 u hu).2, decAt_apply]
    by_cases h : u = t
    · subst h
      simp only [if_true, decide_eq_decide]
      omega
    · simp [h]

/-- The read locks after the last one on thread `t` is given back, while other threads have
some. -/
theorem readLocksRep_remove {locks : AccountReadLocks} {r : Nat → Nat} {t : Nat}
    (hrep : ReadLocksRep (some locks) r) (hlast : r t - 1 = 0)
    (hnonempty : ¬ (locks.threadSet.remove t).isEmpty = true) :
    ReadLocksRep (some ⟨locks.threadSet.remove t, Function.update locks.lockCounts t (r t - 1)⟩)
      (decAt r t) := by
  have hbits : ∀ u < MAX_THREADS,
      (locks.threadSet.remove t).bits.getLsbD u = decide (0 < decAt r t u) := by
    intro u hu
    rw [ThreadSet.getLsbD_remove, (hrep.2.2 u hu).2, decAt_apply]
    by_cases h : u = t
    · subst h
      simp [hlast]
    · simp [h]
  refine ⟨?_, fun u hu => ?_, fun u hu => ⟨lockCounts_decAt hrep hu, hbits u hu⟩⟩
  · -- a thread still in the set still has a read lock
    obtain ⟨u, hu, hbit⟩ :
        ∃ u < MAX_THREADS, (locks.threadSet.remove t).bits.getLsbD u = true := by
      by_contra hnone
      apply hnonempty
      rw [ThreadSet.isEmpty_iff]
      intro u hu
      simpa using fun hbit => hnone ⟨u, hu, hbit⟩
    rw [hbits u hu, decide_eq_true_iff] at hbit
    exact ⟨u, hbit⟩
  · by_cases h : u = t
    · subst h
      simp [hrep.2.1 u hu]
    · simp [h, hrep.2.1 u hu]

/-- No read lock is left once the set without thread `t` is empty and `t` gave back its last. -/
theorem decAt_eq_zero_of_remove_isEmpty {locks : AccountReadLocks} {r : Nat → Nat} {t : Nat}
    (hrep : ReadLocksRep (some locks) r) (hlast : r t - 1 = 0)
    (hempty : (locks.threadSet.remove t).isEmpty = true) (u : Nat) : decAt r t u = 0 := by
  rw [decAt_apply]
  by_cases h : u = t
  · simp [h, hlast]
  · rw [if_neg h]
    by_cases hu : u < MAX_THREADS
    · have := (ThreadSet.isEmpty_iff _).mp hempty u hu
      rw [ThreadSet.getLsbD_remove, (hrep.2.2 u hu).2] at this
      simpa [h] using this
    · exact hrep.2.1 u (Nat.le_of_not_lt hu)

/-- `write_unlock_account` of a write lock the thread holds takes one off its write count. -/
theorem writeUnlockAccount_spec {s : ThreadAwareAccountLocks α} {account : α} {w r : Nat → Nat}
    {threadId : Nat} (hrep : EntryRep (s.locks account) w r) (hpos : 0 < w threadId) :
    ∃ entry, s.writeUnlockAccount account threadId = some (s.setEntry account entry) ∧
      EntryRep entry (decAt w threadId) r := by
  unfold writeUnlockAccount
  cases hlocks : s.locks account with
  | none =>
    rw [hlocks] at hrep
    exact absurd hpos (by simp [hrep.1 threadId])
  | some locks =>
    rw [hlocks] at hrep
    obtain ⟨writeLocks, readLocks⟩ := locks
    obtain ⟨hw, hr, -⟩ := hrep
    cases writeLocks with
    | none => exact absurd hpos (by simp [(hw : ∀ t, w t = 0) threadId])
    | some writeLocks =>
      have hid : writeLocks.threadId = threadId :=
        ((writeLocksRep_holder hw threadId).mp hpos).symm
      have hcount : writeLocks.lockCount = w threadId := by
        rw [hw.2 threadId, if_pos hid.symm]
      have hrest : ∀ u, u ≠ threadId → w u = 0 := fun u hu => by
        rw [hw.2 u, if_neg (hid ▸ hu)]
      simp only [hid, hcount, ne_eq, not_true_eq_false, if_false, Nat.pos_iff_ne_zero.mp hpos]
      split
      · -- the last write lock goes, with the entry when no read lock is left
        rename_i hlast
        have hzero : ∀ u, decAt w threadId u = 0 := fun u => by
          rw [decAt_apply]
          by_cases hu : u = threadId
          · simp [hu, hlast]
          · simp [hu, hrest u hu]
        cases readLocks with
        | none => exact ⟨none, rfl, hzero, hr⟩
        | some readLocks => exact ⟨_, rfl, hzero, hr, rfl⟩
      · rename_i hmore
        refine ⟨_, rfl, ⟨Nat.pos_of_ne_zero hmore, fun u => ?_⟩, hr, rfl⟩
        rw [decAt_apply]
        by_cases hu : u = threadId
        · simp [hu]
        · simp [hu, hrest u hu]

/-- `read_unlock_account` of a read lock the thread holds takes one off its read count. -/
theorem readUnlockAccount_spec {s : ThreadAwareAccountLocks α} {account : α} {w r : Nat → Nat}
    {threadId : Nat} (hrep : EntryRep (s.locks account) w r) (hpos : 0 < r threadId) :
    ∃ entry, s.readUnlockAccount account threadId = some (s.setEntry account entry) ∧
      EntryRep entry w (decAt r threadId) := by
  unfold readUnlockAccount
  cases hlocks : s.locks account with
  | none =>
    rw [hlocks] at hrep
    exact absurd hpos (by simp [hrep.2 threadId])
  | some locks =>
    rw [hlocks] at hrep
    obtain ⟨writeLocks, readLocks⟩ := locks
    obtain ⟨hw, hr, -⟩ := hrep
    cases readLocks with
    | none => exact absurd hpos (by simp [(hr : ∀ t, r t = 0) threadId])
    | some readLocks =>
      have hthread : threadId < MAX_THREADS := by
        by_contra h
        have := hr.2.1 threadId (Nat.le_of_not_lt h)
        omega
      have hbit : readLocks.threadSet.contains threadId = true := by
        rw [ThreadSet.contains_eq _ hthread, (hr.2.2 threadId hthread).2]
        simp [hpos]
      have hcount : readLocks.lockCounts threadId = r threadId := (hr.2.2 threadId hthread).1
      simp only [Nat.not_le_of_lt hthread, hbit, Bool.not_true, Bool.false_eq_true, if_false,
        hcount, Nat.pos_iff_ne_zero.mp hpos]
      split
      · rename_i hlast
        split
        · -- no read lock is left, and the entry goes when no write lock is
          rename_i hempty
          have hzero := decAt_eq_zero_of_remove_isEmpty hr hlast hempty
          cases writeLocks with
          | none => exact ⟨none, rfl, hw, hzero⟩
          | some writeLocks => exact ⟨_, rfl, hw, hzero, rfl⟩
        · rename_i hnonempty
          exact ⟨_, rfl, hw, readLocksRep_remove hr hlast hnonempty, by simp⟩
      · rename_i hmore
        exact ⟨_, rfl, hw, readLocksRep_decAt hr hmore, by simp⟩

/-! ### The whole table -/

/-- The table stands for the write and read counts `wc` and `rc` of every account. -/
def TableRep (s : ThreadAwareAccountLocks α) (wc rc : α → Nat → Nat) : Prop :=
  ∀ account, EntryRep (s.locks account) (wc account) (rc account)

theorem TableRep.setEntry {s : ThreadAwareAccountLocks α} {wc rc : α → Nat → Nat}
    (htable : TableRep s wc rc) (account : α) {entry : Option AccountLocks} {w r : Nat → Nat}
    (hentry : EntryRep entry w r) :
    TableRep (s.setEntry account entry) (Function.update wc account w)
      (Function.update rc account r) := by
  intro other
  by_cases h : other = account
  · subst h
    simpa using hentry
  · simpa [h] using htable other

/-- The counts with one lock more on thread `t` for each occurrence of an account in
`accounts`. -/
def addCounts (c : α → Nat → Nat) (accounts : List α) (t : Nat) : α → Nat → Nat :=
  fun account u => c account u + if u = t then accounts.count account else 0

/-- The counts with one lock fewer on thread `t` for each occurrence. -/
def subCounts (c : α → Nat → Nat) (accounts : List α) (t : Nat) : α → Nat → Nat :=
  fun account u => c account u - if u = t then accounts.count account else 0

@[simp] theorem addCounts_nil (c : α → Nat → Nat) (t : Nat) : addCounts c [] t = c := by
  funext account u
  simp [addCounts]

@[simp] theorem subCounts_nil (c : α → Nat → Nat) (t : Nat) : subCounts c [] t = c := by
  funext account u
  simp [subCounts]

@[simp] theorem subCounts_addCounts (c : α → Nat → Nat) (accounts : List α) (t : Nat) :
    subCounts (addCounts c accounts t) accounts t = c := by
  funext account u
  simp [subCounts, addCounts]

/-- An account has a positive count after the additions where it had one, or on the thread when
it is in the list. -/
theorem addCounts_pos_iff {c : α → Nat → Nat} {accounts : List α} {t : Nat} {account : α}
    {u : Nat} :
    0 < addCounts c accounts t account u ↔ 0 < c account u ∨ (u = t ∧ account ∈ accounts) := by
  by_cases hu : u = t
  · simp [addCounts, hu, List.count_pos_iff]
  · simp [addCounts, hu]

theorem addCounts_cons (c : α → Nat → Nat) (account : α) (accounts : List α) (t : Nat) :
    addCounts c (account :: accounts) t =
      addCounts (Function.update c account (incAt (c account) t)) accounts t := by
  funext other u
  by_cases h : other = account
  · subst h
    by_cases hu : u = t
    · simp [addCounts, hu]
      omega
    · simp [addCounts, hu]
  · simp [addCounts, h, Ne.symm h]

theorem subCounts_cons (c : α → Nat → Nat) (account : α) (accounts : List α) (t : Nat) :
    subCounts c (account :: accounts) t =
      subCounts (Function.update c account (decAt (c account) t)) accounts t := by
  funext other u
  by_cases h : other = account
  · subst h
    by_cases hu : u = t
    · simp [subCounts, hu]
      omega
    · simp [subCounts, hu]
  · simp [subCounts, h, Ne.symm h]

section Folds

variable {S : Type} (f : S → α → Option S) (R : S → (α → Nat → Nat) → Prop) (t : Nat)

/-- A fold of steps that each add one lock on thread `t` to their account, and that cannot fail
while a side condition `P` holds and the count stays within `u32`, adds the multiplicities of the
list. -/
theorem foldlM_addCounts (P : (α → Nat → Nat) → α → Prop)
    (hstep : ∀ s c account, R s c → P c account → c account t + 1 ≤ U32_MAX →
      ∃ s', f s account = some s' ∧ R s' (Function.update c account (incAt (c account) t)))
    (hP : ∀ c account other, P c other →
      P (Function.update c account (incAt (c account) t)) other) :
    ∀ (accounts : List α) (s : S) (c : α → Nat → Nat), R s c →
      (∀ account ∈ accounts, P c account) →
      (∀ account, c account t + accounts.count account ≤ U32_MAX) →
      ∃ s', accounts.foldlM f s = some s' ∧ R s' (addCounts c accounts t) := by
  intro accounts
  induction accounts with
  | nil => exact fun s c hR _ _ => ⟨s, rfl, by simpa using hR⟩
  | cons account accounts ih =>
    intro s c hR hPs hbound
    have hfirst : c account t + 1 ≤ U32_MAX := by
      have := hbound account
      rw [List.count_cons_self] at this
      omega
    obtain ⟨s₁, hs₁, hR₁⟩ := hstep s c account hR (hPs account List.mem_cons_self) hfirst
    -- the rest of the list from the counts with the first lock taken
    have hbound₁ : ∀ other, Function.update c account (incAt (c account) t) other t +
        accounts.count other ≤ U32_MAX := by
      intro other
      have := hbound other
      by_cases h : other = account
      · subst h
        simp only [Function.update_self, incAt_apply, if_true]
        rw [List.count_cons_self] at this
        omega
      · simp only [Function.update_of_ne h]
        rw [List.count_cons_of_ne (Ne.symm h)] at this
        exact this
    obtain ⟨s', hs', hR'⟩ := ih s₁ _ hR₁
      (fun other hother => hP c account other (hPs other (List.mem_cons_of_mem _ hother))) hbound₁
    refine ⟨s', ?_, ?_⟩
    · rw [List.foldlM_cons, hs₁]
      exact hs'
    · rw [addCounts_cons]
      exact hR'

/-- A fold of steps that each give back one lock on thread `t` of their account, and that cannot
fail while the account holds one there, takes off the multiplicities of the list. -/
theorem foldlM_subCounts
    (hstep : ∀ s c account, R s c → 0 < c account t →
      ∃ s', f s account = some s' ∧ R s' (Function.update c account (decAt (c account) t))) :
    ∀ (accounts : List α) (s : S) (c : α → Nat → Nat), R s c →
      (∀ account, accounts.count account ≤ c account t) →
      ∃ s', accounts.foldlM f s = some s' ∧ R s' (subCounts c accounts t) := by
  intro accounts
  induction accounts with
  | nil => exact fun s c hR _ => ⟨s, rfl, by simpa using hR⟩
  | cons account accounts ih =>
    intro s c hR hbound
    have hfirst : 0 < c account t := by
      have := hbound account
      rw [List.count_cons_self] at this
      omega
    obtain ⟨s₁, hs₁, hR₁⟩ := hstep s c account hR hfirst
    have hbound₁ : ∀ other,
        accounts.count other ≤ Function.update c account (decAt (c account) t) other t := by
      intro other
      have := hbound other
      by_cases h : other = account
      · subst h
        simp only [Function.update_self, decAt_apply, if_true]
        rw [List.count_cons_self] at this
        omega
      · simp only [Function.update_of_ne h]
        rw [List.count_cons_of_ne (Ne.symm h)] at this
        exact this
    obtain ⟨s', hs', hR'⟩ := ih s₁ _ hR₁ hbound₁
    refine ⟨s', ?_, ?_⟩
    · rw [List.foldlM_cons, hs₁]
      exact hs'
    · rw [subCounts_cons]
      exact hR'

end Folds

theorem readSchedulable_addCounts {wc : α → Nat → Nat} {account : α} {t : Nat}
    (h : ReadSchedulable (wc account) t) (accounts : List α) :
    ReadSchedulable (addCounts wc accounts t account) t := by
  intro u hu
  by_cases hut : u = t
  · exact hut
  · simp only [addCounts, hut, if_false, Nat.add_zero] at hu
    exact h u hu

/-- `lock_accounts` on a thread where every writable account can be write-locked and every
readable one read-locked, within `u32`, adds the multiplicities of the two lists on the thread. -/
theorem lockAccounts_spec {s : ThreadAwareAccountLocks α} {wc rc : α → Nat → Nat}
    {writeAccountLocks readAccountLocks : List α} {threadId : Nat} (htable : TableRep s wc rc)
    (hthread : threadId < s.numThreads) (hn : s.numThreads ≤ MAX_THREADS)
    (hwrite : ∀ account ∈ writeAccountLocks,
      WriteSchedulable (wc account) (rc account) threadId)
    (hread : ∀ account ∈ readAccountLocks, ReadSchedulable (wc account) threadId)
    (hwbound : ∀ account, wc account threadId + writeAccountLocks.count account ≤ U32_MAX)
    (hrbound : ∀ account, rc account threadId + readAccountLocks.count account ≤ U32_MAX) :
    ∃ s', s.lockAccounts writeAccountLocks readAccountLocks threadId = some s' ∧
      s'.numThreads = s.numThreads ∧
      TableRep s' (addCounts wc writeAccountLocks threadId)
        (addCounts rc readAccountLocks threadId) := by
  have hthread' : threadId < MAX_THREADS := Nat.lt_of_lt_of_le hthread hn
  -- the write locks, against the read counts as they are
  obtain ⟨s₁, hs₁, hnum₁, htable₁⟩ := foldlM_addCounts
    (fun (s : ThreadAwareAccountLocks α) account => s.writeLockAccount account threadId)
    (fun s' c => s'.numThreads = s.numThreads ∧ TableRep s' c rc) threadId
    (fun c account => WriteSchedulable (c account) (rc account) threadId)
    (fun s' c account ⟨hnum, hR⟩ hP hb => by
      obtain ⟨entry, hentry, hrep⟩ := writeLockAccount_spec (hR account) hP hthread' hb
      refine ⟨_, hentry, by simpa using hnum, ?_⟩
      simpa using hR.setEntry account hrep)
    (fun c account other h => by
      by_cases hother : other = account
      · subst hother
        simpa using h.incAt
      · simpa [Function.update_of_ne hother] using h)
    writeAccountLocks s wc ⟨rfl, htable⟩ hwrite hwbound
  -- then the read locks, against the write counts with the writes taken
  obtain ⟨s₂, hs₂, hnum₂, htable₂⟩ := foldlM_addCounts
    (fun (s : ThreadAwareAccountLocks α) account => s.readLockAccount account threadId)
    (fun s' c => s'.numThreads = s.numThreads ∧
      TableRep s' (addCounts wc writeAccountLocks threadId) c) threadId
    (fun _ account => ReadSchedulable (addCounts wc writeAccountLocks threadId account) threadId)
    (fun s' c account ⟨hnum, hR⟩ hP hb => by
      obtain ⟨entry, hentry, hrep⟩ := readLockAccount_spec (hR account) hP hthread' hb
      refine ⟨_, hentry, by simpa using hnum, ?_⟩
      simpa using hR.setEntry account hrep)
    (fun _ _ _ h => h)
    readAccountLocks s₁ rc ⟨hnum₁, htable₁⟩
    (fun account haccount => readSchedulable_addCounts (hread account haccount) writeAccountLocks)
    hrbound
  refine ⟨s₂, ?_, hnum₂, htable₂⟩
  unfold lockAccounts
  rw [if_pos hthread, hs₁, Option.bind_some, hs₂]

/-- `unlock_accounts` of locks the thread holds takes off the multiplicities of the two lists. -/
theorem unlockAccounts_spec {s : ThreadAwareAccountLocks α} {wc rc : α → Nat → Nat}
    {writeAccountLocks readAccountLocks : List α} {threadId : Nat} (htable : TableRep s wc rc)
    (hwrite : ∀ account, writeAccountLocks.count account ≤ wc account threadId)
    (hread : ∀ account, readAccountLocks.count account ≤ rc account threadId) :
    ∃ s', s.unlockAccounts writeAccountLocks readAccountLocks threadId = some s' ∧
      s'.numThreads = s.numThreads ∧
      TableRep s' (subCounts wc writeAccountLocks threadId)
        (subCounts rc readAccountLocks threadId) := by
  obtain ⟨s₁, hs₁, hnum₁, htable₁⟩ := foldlM_subCounts
    (fun (s : ThreadAwareAccountLocks α) account => s.writeUnlockAccount account threadId)
    (fun s' c => s'.numThreads = s.numThreads ∧ TableRep s' c rc) threadId
    (fun s' c account ⟨hnum, hR⟩ hpos => by
      obtain ⟨entry, hentry, hrep⟩ := writeUnlockAccount_spec (hR account) hpos
      refine ⟨_, hentry, by simpa using hnum, ?_⟩
      simpa using hR.setEntry account hrep)
    writeAccountLocks s wc ⟨rfl, htable⟩ hwrite
  obtain ⟨s₂, hs₂, hnum₂, htable₂⟩ := foldlM_subCounts
    (fun (s : ThreadAwareAccountLocks α) account => s.readUnlockAccount account threadId)
    (fun s' c => s'.numThreads = s.numThreads ∧
      TableRep s' (subCounts wc writeAccountLocks threadId) c) threadId
    (fun s' c account ⟨hnum, hR⟩ hpos => by
      obtain ⟨entry, hentry, hrep⟩ := readUnlockAccount_spec (hR account) hpos
      refine ⟨_, hentry, by simpa using hnum, ?_⟩
      simpa using hR.setEntry account hrep)
    readAccountLocks s₁ rc ⟨hnum₁, htable₁⟩ hread
  refine ⟨s₂, ?_, hnum₂, htable₂⟩
  unfold unlockAccounts
  rw [hs₁, Option.bind_some, hs₂]

/-- Every account of a transaction can be locked on thread `t`, one of the `n`: each writable
account has its locks all there, and each readable one its write locks. -/
def Lockable (n : Nat) (wc rc : α → Nat → Nat) (writeAccountLocks readAccountLocks : List α)
    (t : Nat) : Prop :=
  t < n ∧ (∀ account ∈ writeAccountLocks, WriteSchedulable (wc account) (rc account) t) ∧
    ∀ account ∈ readAccountLocks, ReadSchedulable (wc account) t

omit [DecidableEq α] in
theorem lockable_iff {n : Nat} {wc rc : α → Nat → Nat}
    {writeAccountLocks readAccountLocks : List α} {t : Nat} :
    (t < n ∧
      (∀ account ∈ writeAccountLocks, Schedulable n true (wc account) (rc account) t) ∧
      ∀ account ∈ readAccountLocks, Schedulable n false (wc account) (rc account) t) ↔
      Lockable n wc rc writeAccountLocks readAccountLocks t := by
  simp only [Schedulable, if_true, Bool.false_eq_true, if_false, Lockable]
  constructor
  · rintro ⟨ht, hw, hr⟩
    exact ⟨ht, fun a ha => (hw a ha).2, fun a ha => (hr a ha).2⟩
  · rintro ⟨ht, hw, hr⟩
    exact ⟨ht, fun a ha => ⟨ht, hw a ha⟩, fun a ha => ⟨ht, hr a ha⟩⟩

/-- A selector that picks a member of every nonempty thread set it is given. -/
def SelectsMember (threadSelector : ThreadSet → Nat) : Prop :=
  ∀ threads : ThreadSet, threads.isEmpty = false →
    threads.bits.getLsbD (threadSelector threads) = true

/-- `try_lock_accounts` locks the transaction on an allowed thread where it is lockable, or, when
there is none, leaves the table as it is. -/
theorem tryLockAccounts_spec {s : ThreadAwareAccountLocks α} {wc rc : α → Nat → Nat}
    {writeAccountLocks readAccountLocks : List α} (allowedThreads : ThreadSet)
    {threadSelector : ThreadSet → Nat} (htable : TableRep s wc rc)
    (hn : s.numThreads ≤ MAX_THREADS)
    (hex : ∀ account, Exclusive s.numThreads (wc account) (rc account))
    (hselector : SelectsMember threadSelector)
    (hwbound : ∀ account t, wc account t + writeAccountLocks.count account ≤ U32_MAX)
    (hrbound : ∀ account t, rc account t + readAccountLocks.count account ≤ U32_MAX) :
    ∃ result, s.tryLockAccounts writeAccountLocks readAccountLocks allowedThreads threadSelector =
        some result ∧
      ((result.1 = none ∧ result.2 = s ∧ ∀ t, allowedThreads.bits.getLsbD t = true →
          ¬ Lockable s.numThreads wc rc writeAccountLocks readAccountLocks t) ∨
        ∃ t, result.1 = some t ∧ allowedThreads.bits.getLsbD t = true ∧
          Lockable s.numThreads wc rc writeAccountLocks readAccountLocks t ∧
          result.2.numThreads = s.numThreads ∧
          TableRep result.2 (addCounts wc writeAccountLocks t)
            (addCounts rc readAccountLocks t)) := by
  obtain ⟨result, hresult, hiff⟩ := s.accountsSchedulableThreads_spec hn htable hex
    writeAccountLocks readAccountLocks
  have hlockable : ∀ t, result.any (·.bits.getLsbD t) = true ↔
      Lockable s.numThreads wc rc writeAccountLocks readAccountLocks t :=
    fun t => (hiff t).trans lockable_iff
  unfold tryLockAccounts
  rw [hresult]
  cases result with
  | none =>
    refine ⟨_, rfl, Or.inl ⟨rfl, rfl, fun t _ h => ?_⟩⟩
    simpa using (hlockable t).mpr h
  | some threads =>
    simp only [Option.any_some] at hlockable
    dsimp only
    split
    · -- no allowed thread is left
      rename_i hempty
      refine ⟨_, rfl, Or.inl ⟨rfl, rfl, fun t hallowed h => ?_⟩⟩
      have hbit := (hlockable t).mpr h
      have hnone := (ThreadSet.isEmpty_iff _).mp hempty t (BitVec.lt_of_getLsbD hbit)
      rw [ThreadSet.getLsbD_and, hbit, hallowed] at hnone
      cases hnone
    · rename_i hnonempty
      have hmem := hselector _ (by simpa using hnonempty)
      rw [ThreadSet.getLsbD_and, Bool.and_eq_true] at hmem
      have hl := (hlockable _).mp hmem.1
      obtain ⟨s', hs', hnum, htable'⟩ := lockAccounts_spec htable hl.1 hn hl.2.1 hl.2.2
        (hwbound · _) (hrbound · _)
      rw [hs']
      exact ⟨_, rfl, Or.inr ⟨_, rfl, hmem.2, hl, hnum, htable'⟩⟩

end ThreadAwareAccountLocks

end Agave.BankingStage
