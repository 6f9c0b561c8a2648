import Agave.Lockup.State
import Agave.Lib.Slice

/-!
# The lockup pool: eviction, insertion and removal

The parts of `process_lockup` (`processor.rs`, lines 131–161) and `process_unlock` (lines
251–267) that touch the pool, as functions of the pool alone.

`insertEntry` evicts the smallest lockup when the pool is full, then binary-searches the whole
array for the new amount, overwrites the last entry with the new one and rotates it into place.
`removeEntry` finds the first entry not above the amount by `partition_point`, looks for the
lockup among the entries of equal amount from there, and erases it by overwriting it with the
default entry and rotating that to the end.

The search runs over the whole array, zero tail included, so where an entry goes depends on the
tail. `Valid` is the representation the code relies on: the live prefix sorted by amount,
largest first, every live amount positive, and every entry of the tail zero. For a pool with
that representation and a positive amount, the search lands inside the live prefix
(`searchIndex_le_entriesLen`), and both operations keep the representation, with the live
entries changed by exactly the one inserted, evicted or removed (`Valid.insertEntry`,
`Valid.removeEntry`). A lockup with no live entry is not found by the removal, which then
panics unless every live entry is larger (`Valid.removeEntry_of_not_mem`).
-/

namespace Agave.Lockup
namespace LockupPool

open Slice

/-- The comparison of the search in `process_lockup`. `binary_search_by_key(&Reverse(amount),
|entry| Reverse(entry.amount))` compares `Reverse(entry.amount)` with `Reverse(amount)`, that is
`amount` with `entry.amount`. -/
def searchCmp (amount : Nat) (entry : LockupPoolEntry) : Ordering := compare amount entry.amount

/-- The index `process_lockup` inserts at: `Ok(index) | Err(index) => index`. -/
def searchIndex (pool : LockupPool) (amount : Nat) : Nat :=
  resultIndex (binarySearchBy pool.entries (searchCmp amount))

/-- The match on `(entries_len == entries.len(), amount > last_amount)`: the new `entries_len`,
the `AmountTooLow` error, or the panic of `entries_len.checked_add(1).unwrap()`. -/
def newEntriesLen (pool : LockupPool) (amount : Nat) : Option (Except ProgramError Nat) :=
  let lastIndex := min pool.entriesLen (LOCKUP_CAPACITY - 1)
  let lastAmount := (pool.entries.getD lastIndex default).amount
  match pool.entriesLen == pool.entries.length, decide (amount > lastAmount) with
  | true, true => some (.ok pool.entriesLen)
  | true, false => some (.error PaladinLockupError.amountTooLow.toProgramError)
  | false, _ => if pool.entriesLen + 1 ≤ USIZE_MAX then some (.ok (pool.entriesLen + 1)) else none

/-- Evict the smallest lock if necessary, then binary search and insert the entry. -/
def insertEntry (pool : LockupPool) (entry : LockupPoolEntry) :
    Option (Except ProgramError LockupPool) :=
  match newEntriesLen pool entry.amount with
  | none => none
  | some (.error e) => some (.error e)
  | some (.ok entriesLen) =>
    -- `*entries.last_mut().unwrap() = entry`: the array is never empty
    match h : rotateRightFrom (pool.entries.set (LOCKUP_CAPACITY - 1) entry)
        (pool.searchIndex entry.amount) with
    | none => none
    | some entries => some (.ok ⟨pool.discriminator, entries, entriesLen,
        by rw [length_of_rotateRightFrom h, List.length_set, pool.length_entries]⟩)

/-- Remove the entry of `lockup`, of the given amount, from the pool (if it exists). -/
def removeEntry (pool : LockupPool) (lockup : Pubkey) (amount : Nat) : Option LockupPool :=
  let partitionPoint := Slice.partitionPoint pool.entries fun e => decide (e.amount > amount)
  if partitionPoint ≠ pool.entriesLen then
    -- `.position(|entry| entry.lockup == lockup).unwrap()` among the entries of this amount
    match ((pool.entries.drop partitionPoint).takeWhile (·.amount == amount)).findIdx?
        (·.lockup == lockup) with
    | none => none
    | some offset =>
      let index := partitionPoint + offset
      match h : rotateLeftFrom (pool.entries.set index default) index with
      | none => none
      | some entries =>
        -- `entries_len.checked_sub(1).unwrap()`
        if pool.entriesLen = 0 then none
        else some ⟨pool.discriminator, entries, pool.entriesLen - 1,
          by rw [length_of_rotateLeftFrom h, List.length_set, pool.length_entries]⟩
  else some pool

/-- The live entries, `entries[..entries_len]`. -/
def live (pool : LockupPool) : List LockupPoolEntry := pool.entries.take pool.entriesLen

/-- The representation of a pool whose lockups are all positive. -/
structure Valid (pool : LockupPool) : Prop where
  entriesLen_le : pool.entriesLen ≤ LOCKUP_CAPACITY
  sorted : pool.live.Pairwise fun a b => b.amount ≤ a.amount
  amount_pos : ∀ e ∈ pool.live, 0 < e.amount
  tail_default : ∀ e ∈ pool.entries.drop pool.entriesLen, e = default

/-! ### The length after the eviction check -/

theorem newEntriesLen_of_lt {pool : LockupPool} (amount : Nat)
    (hlen : pool.entriesLen < LOCKUP_CAPACITY) :
    pool.newEntriesLen amount = some (.ok (pool.entriesLen + 1)) := by
  have hne : (pool.entriesLen == pool.entries.length) = false := by
    rw [pool.length_entries]
    simpa using Nat.ne_of_lt hlen
  have hmax : pool.entriesLen + 1 ≤ USIZE_MAX := by
    unfold USIZE_MAX
    unfold LOCKUP_CAPACITY at hlen
    omega
  unfold newEntriesLen
  simp only [hne, hmax, if_true]

/-- A full pool takes a lockup exactly when it is larger than the last entry. -/
theorem newEntriesLen_of_full {pool : LockupPool} (amount : Nat)
    (hlen : pool.entriesLen = LOCKUP_CAPACITY) :
    pool.newEntriesLen amount =
      if (pool.entries.getD (LOCKUP_CAPACITY - 1) default).amount < amount
      then some (.ok pool.entriesLen)
      else some (.error PaladinLockupError.amountTooLow.toProgramError) := by
  have heq : (pool.entriesLen == pool.entries.length) = true := by
    rw [pool.length_entries, hlen]
    exact beq_self_eq_true _
  have hlast : min pool.entriesLen (LOCKUP_CAPACITY - 1) = LOCKUP_CAPACITY - 1 := by
    rw [hlen]
    exact Nat.min_eq_right (Nat.sub_le _ _)
  unfold newEntriesLen
  simp only [heq, hlast]
  by_cases hgt : (pool.entries.getD (LOCKUP_CAPACITY - 1) default).amount < amount
  · rw [decide_eq_true hgt, if_pos hgt]
  · rw [decide_eq_false hgt, if_neg hgt]

/-! ### Insertion -/

/-- Wherever the search stops, the entry is put there and the old last entry dropped. This holds
for every pool, whatever its representation. -/
theorem insertEntry_eq_ok {pool : LockupPool} {entry : LockupPoolEntry} {n : Nat}
    (hn : pool.newEntriesLen entry.amount = some (.ok n))
    (hr : pool.searchIndex entry.amount < LOCKUP_CAPACITY) :
    ∃ pool', pool.insertEntry entry = some (.ok pool') ∧
      pool'.discriminator = pool.discriminator ∧ pool'.entriesLen = n ∧
      pool'.entries = pool.entries.take (pool.searchIndex entry.amount) ++
        entry :: pool.entries.dropLast.drop (pool.searchIndex entry.amount) := by
  have hlast : LOCKUP_CAPACITY - 1 = pool.entries.length - 1 := by rw [pool.length_entries]
  have hrot := rotateRightFrom_set_last entry (s := pool.entries)
    (i := pool.searchIndex entry.amount) (by rw [pool.length_entries]; exact hr)
  rw [← hlast] at hrot
  unfold insertEntry
  split
  · simp_all
  · simp_all
  · next entriesLen heq =>
    rw [hn] at heq
    cases heq
    split
    · simp_all
    · next entries h =>
      rw [hrot] at h
      cases h
      exact ⟨_, rfl, rfl, rfl, rfl⟩

/-- What a successful insertion did, for every pool: the length it chose, and the entry put in at
the search's index with the old last entry dropped. -/
theorem insertEntry_eq_some_ok {pool pool' : LockupPool} {entry : LockupPoolEntry}
    (h : pool.insertEntry entry = some (.ok pool')) :
    pool.newEntriesLen entry.amount = some (.ok pool'.entriesLen) ∧
      pool'.discriminator = pool.discriminator ∧
      pool.searchIndex entry.amount < LOCKUP_CAPACITY ∧
      pool'.entries = pool.entries.take (pool.searchIndex entry.amount) ++
        entry :: pool.entries.dropLast.drop (pool.searchIndex entry.amount) := by
  unfold insertEntry at h
  split at h
  · cases h
  · cases h
  · next entriesLen hn =>
    split at h
    · cases h
    · next entries hrot =>
      cases h
      -- the rotation succeeded, so the index was inside the array
      have hr : pool.searchIndex entry.amount < LOCKUP_CAPACITY := by
        have hne : rotateRightFrom (pool.entries.set (LOCKUP_CAPACITY - 1) entry)
            (pool.searchIndex entry.amount) ≠ none := by simp [hrot]
        rw [Ne, rotateRightFrom_eq_none_iff, List.length_set, pool.length_entries] at hne
        omega
      have hlast : LOCKUP_CAPACITY - 1 = pool.entries.length - 1 := by rw [pool.length_entries]
      rw [hlast, rotateRightFrom_set_last entry (by rw [pool.length_entries]; exact hr)] at hrot
      exact ⟨hn, rfl, hr, (Option.some.inj hrot).symm⟩

/-- The length the eviction check chose: one more when the pool was not full, the same when it
was full and the amount beat the last entry. -/
theorem newEntriesLen_eq_ok {pool : LockupPool} {amount n : Nat}
    (h : pool.newEntriesLen amount = some (.ok n)) :
    pool.entriesLen ≠ LOCKUP_CAPACITY ∧ n = pool.entriesLen + 1 ∨
      pool.entriesLen = LOCKUP_CAPACITY ∧ n = pool.entriesLen ∧
        (pool.entries.getD (LOCKUP_CAPACITY - 1) default).amount < amount := by
  by_cases hfull : pool.entriesLen = LOCKUP_CAPACITY
  · rw [newEntriesLen_of_full amount hfull] at h
    split at h
    · next hlt => exact Or.inr ⟨hfull, (Except.ok.inj (Option.some.inj h)).symm, hlt⟩
    · cases h
  · refine Or.inl ⟨hfull, ?_⟩
    have hne : (pool.entriesLen == pool.entries.length) = false := by
      rw [pool.length_entries]
      simpa using hfull
    unfold newEntriesLen at h
    simp only [hne] at h
    split at h
    · exact (Except.ok.inj (Option.some.inj h)).symm
    · cases h

/-! ### The representation -/

@[simp] theorem amount_default : (default : LockupPoolEntry).amount = 0 := rfl

section Valid

variable {pool : LockupPool}

/-- With a zero tail, the whole array is sorted, not only its live prefix. -/
theorem Valid.entries_sorted (hv : pool.Valid) :
    pool.entries.Pairwise fun a b => b.amount ≤ a.amount := by
  rw [← List.take_append_drop pool.entriesLen pool.entries]
  refine List.pairwise_append.mpr ⟨hv.sorted, ?_, ?_⟩
  · refine List.pairwise_of_forall_mem_list fun a ha b hb => ?_
    rw [hv.tail_default a ha, hv.tail_default b hb]
  · intro a _ b hb
    rw [hv.tail_default b hb, amount_default]
    exact Nat.zero_le _

theorem Valid.ascends_searchCmp (hv : pool.Valid) (amount : Nat) :
    Ascends (searchCmp amount) pool.entries := by
  refine hv.entries_sorted.imp fun {a b} hab => ⟨fun hb => ?_, fun ha => ?_⟩
  · unfold searchCmp at hb ⊢
    rw [Nat.compare_eq_lt] at hb ⊢
    omega
  · unfold searchCmp at ha ⊢
    rw [Nat.compare_eq_gt] at ha ⊢
    omega

/-- The search splits the array into the entries at least the amount and those at most it. -/
theorem Valid.searchIndex_spec (hv : pool.Valid) (amount : Nat) :
    pool.searchIndex amount ≤ pool.entries.length ∧
      (∀ x ∈ pool.entries.take (pool.searchIndex amount), amount ≤ x.amount) ∧
      (∀ y ∈ pool.entries.drop (pool.searchIndex amount), y.amount ≤ amount) := by
  obtain ⟨hle, hbefore, hafter⟩ := binarySearchBy_spec (hv.ascends_searchCmp amount)
  refine ⟨hle, fun x hx => ?_, fun y hy => ?_⟩
  · obtain ⟨j, hj, rfl⟩ := List.mem_take_iff_getElem.mp hx
    have := hbefore j (by omega) (by unfold searchIndex at hj; omega)
    unfold searchCmp at this
    rw [Ne, Nat.compare_eq_gt] at this
    omega
  · obtain ⟨j, hj, rfl⟩ := List.mem_drop_iff_getElem.mp hy
    have := hafter (pool.searchIndex amount + j) (by omega) (Nat.le_add_right _ _)
    unfold searchCmp at this
    rw [Ne, Nat.compare_eq_lt] at this
    omega

/-- A positive amount is put inside the live prefix (or just after it): the zero tail is below
it. -/
theorem Valid.searchIndex_le_entriesLen (hv : pool.Valid) {amount : Nat} (hpos : 0 < amount) :
    pool.searchIndex amount ≤ pool.entriesLen := by
  obtain ⟨hle, hbefore, -⟩ := hv.searchIndex_spec amount
  by_contra hgt
  have hlen : pool.entriesLen < pool.entries.length := by omega
  -- the first tail entry is zero, yet the search put it before the amount
  have hmem : pool.entries[pool.entriesLen] ∈ pool.entries.take (pool.searchIndex amount) :=
    List.mem_take_iff_getElem.mpr ⟨pool.entriesLen, by simp; omega, rfl⟩
  have hzero : pool.entries[pool.entriesLen] = default :=
    hv.tail_default _ (List.mem_drop_iff_getElem.mpr ⟨0, by simp; omega, by simp⟩)
  have := hbefore _ hmem
  rw [hzero, amount_default] at this
  omega

/-- The shape both cases of an insertion share: the first `m` entries are kept, the new entry
is put in among them at `r`, and what follows is zero. -/
theorem Valid.of_insert (hv : pool.Valid) {pool' : LockupPool} {entry : LockupPoolEntry}
    {r m : Nat} (hent : pool'.entries = pool.entries.take r ++ entry :: pool.entries.dropLast.drop r)
    (hlen : pool'.entriesLen = m + 1) (hm : m ≤ pool.entriesLen) (hmcap : m < LOCKUP_CAPACITY)
    (hr : r ≤ m) (hpos : 0 < entry.amount)
    (hge : ∀ x ∈ pool.entries.take r, entry.amount ≤ x.amount)
    (hle : ∀ y ∈ pool.entries.drop r, y.amount ≤ entry.amount)
    (htail : ∀ e ∈ pool.entries.dropLast.drop m, e = default) :
    pool'.Valid ∧ pool'.live.Perm (entry :: pool.entries.take m) := by
  have hmE : m < pool.entries.length := by rw [pool.length_entries]; exact hmcap
  have hA : (pool.entries.take m).take r = pool.entries.take r := by
    rw [List.take_take, Nat.min_eq_left hr]
  have hlive : pool'.live = pool.entries.take r ++ entry :: (pool.entries.take m).drop r := by
    unfold live
    rw [hent, hlen, take_insert_dropLast entry hr hmE, hA]
  -- both sides of the new entry come from the old live prefix
  have hkept : (pool.entries.take m).Sublist pool.live := List.take_sublist_take_left hm
  have hAsub : (pool.entries.take r).Sublist pool.live :=
    (hA ▸ List.take_sublist r _).trans hkept
  have hBsub : ((pool.entries.take m).drop r).Sublist pool.live := (List.drop_sublist _ _).trans hkept
  have hBle : ∀ y ∈ (pool.entries.take m).drop r, y.amount ≤ entry.amount := by
    intro y hy
    rw [List.drop_take] at hy
    exact hle y (List.mem_of_mem_take hy)
  refine ⟨⟨by omega, ?_, ?_, ?_⟩, ?_⟩
  · rw [hlive]
    refine List.pairwise_append.mpr ⟨hv.sorted.sublist hAsub,
      List.pairwise_cons.mpr ⟨hBle, hv.sorted.sublist hBsub⟩, fun a ha b hb => ?_⟩
    rcases List.mem_cons.mp hb with rfl | hb
    · exact hge a ha
    · exact (hBle b hb).trans (hge a ha)
  · rw [hlive]
    intro e he
    rcases List.mem_append.mp he with he | he
    · exact hv.amount_pos e (hAsub.subset he)
    · rcases List.mem_cons.mp he with rfl | he
      · exact hpos
      · exact hv.amount_pos e (hBsub.subset he)
  · rw [hent, hlen, drop_insert_dropLast entry hr hmE]
    exact htail
  · rw [hlive, ← hA]
    refine List.perm_middle.trans ?_
    rw [List.take_append_drop]

/-- The search puts an amount above the last entry before it. -/
theorem Valid.searchIndex_lt_of_lt (hv : pool.Valid) {amount : Nat}
    (hlast : (pool.entries.getD (LOCKUP_CAPACITY - 1) default).amount < amount) :
    pool.searchIndex amount < LOCKUP_CAPACITY := by
  obtain ⟨hle, hbefore, -⟩ := hv.searchIndex_spec amount
  have hcap : LOCKUP_CAPACITY - 1 < pool.entries.length := by
    rw [pool.length_entries]
    decide
  rw [List.getD_eq_getElem?_getD, List.getElem?_eq_getElem hcap, Option.getD_some] at hlast
  by_contra hge
  have hmem : pool.entries[LOCKUP_CAPACITY - 1] ∈ pool.entries.take (pool.searchIndex amount) :=
    List.mem_take_iff_getElem.mpr ⟨LOCKUP_CAPACITY - 1, by
      unfold LOCKUP_CAPACITY at hge hcap ⊢
      omega, rfl⟩
  have := hbefore _ hmem
  omega

/-- A lockup of positive amount into a pool with the representation keeps the representation.
The live entries gain the new one, and, when the pool was full, lose the last one. -/
theorem Valid.insertEntry (hv : pool.Valid) {pool' : LockupPool} {entry : LockupPoolEntry}
    (hpos : 0 < entry.amount) (h : pool.insertEntry entry = some (.ok pool')) :
    pool'.Valid ∧ pool'.live.Perm
      (entry :: if pool.entriesLen = LOCKUP_CAPACITY then pool.live.dropLast else pool.live) := by
  obtain ⟨hn, -, hr, hent⟩ := insertEntry_eq_some_ok h
  obtain ⟨hle, hge, hbelow⟩ := hv.searchIndex_spec entry.amount
  have hcap : pool.entries.length = LOCKUP_CAPACITY := pool.length_entries
  rcases newEntriesLen_eq_ok hn with ⟨hnf, hlen⟩ | ⟨hfull, hlen, -⟩
  · -- room left: the live prefix grows by one
    have htail : ∀ e ∈ pool.entries.dropLast.drop pool.entriesLen, e = default := by
      intro e he
      rw [← List.dropLast_drop_eq_drop_dropLast] at he
      exact hv.tail_default e ((List.dropLast_prefix _).sublist.subset he)
    obtain ⟨hv', hlive⟩ := hv.of_insert hent hlen (Nat.le_refl _)
      (Nat.lt_of_le_of_ne hv.entriesLen_le hnf) (hv.searchIndex_le_entriesLen hpos) hpos hge
      hbelow htail
    rw [if_neg hnf]
    exact ⟨hv', hlive⟩
  · -- full: the last entry makes way
    have hm : LOCKUP_CAPACITY - 1 < pool.entries.length := by rw [hcap]; decide
    have htail : ∀ e ∈ pool.entries.dropLast.drop (LOCKUP_CAPACITY - 1), e = default := by
      intro e he
      rw [List.drop_eq_nil_of_le (by simp [hcap])] at he
      cases he
    obtain ⟨hv', hlive⟩ := hv.of_insert hent (by rw [hlen, hfull]; decide) (by rw [hfull]; omega)
      (by decide) (by omega) hpos hge hbelow htail
    have hdrop : pool.live.dropLast = pool.entries.take (LOCKUP_CAPACITY - 1) := by
      unfold live
      rw [hfull, ← hcap, List.take_length, List.dropLast_eq_take]
    rw [if_pos hfull, hdrop]
    exact ⟨hv', hlive⟩

/-- A positive lockup goes into a pool with the representation unless the pool is full and the
amount is not above its last entry, the smallest. -/
theorem Valid.insertEntry_isOk (hv : pool.Valid) {entry : LockupPoolEntry}
    (hpos : 0 < entry.amount)
    (hroom : pool.entriesLen < LOCKUP_CAPACITY ∨
      (pool.entries.getD (LOCKUP_CAPACITY - 1) default).amount < entry.amount) :
    ∃ pool', pool.insertEntry entry = some (.ok pool') := by
  by_cases hfull : pool.entriesLen = LOCKUP_CAPACITY
  · have hlast := hroom.resolve_left (by omega)
    have hn := newEntriesLen_of_full entry.amount hfull
    rw [if_pos hlast] at hn
    obtain ⟨pool', h, -⟩ := insertEntry_eq_ok hn (hv.searchIndex_lt_of_lt hlast)
    exact ⟨pool', h⟩
  · have hlt : pool.entriesLen < LOCKUP_CAPACITY := Nat.lt_of_le_of_ne hv.entriesLen_le hfull
    obtain ⟨pool', h, -⟩ := insertEntry_eq_ok (newEntriesLen_of_lt entry.amount hlt)
      (Nat.lt_of_le_of_lt (hv.searchIndex_le_entriesLen hpos) hlt)
    exact ⟨pool', h⟩

/-- A full pool refuses an amount not above its last entry. -/
theorem insertEntry_of_full_of_le {pool : LockupPool} {entry : LockupPoolEntry}
    (hfull : pool.entriesLen = LOCKUP_CAPACITY)
    (hle : entry.amount ≤ (pool.entries.getD (LOCKUP_CAPACITY - 1) default).amount) :
    pool.insertEntry entry = some (.error PaladinLockupError.amountTooLow.toProgramError) := by
  have hn := newEntriesLen_of_full entry.amount hfull
  rw [if_neg (Nat.not_lt.mpr hle)] at hn
  unfold insertEntry
  rw [hn]

/-! ### Removal -/

/-- The entries above an amount come first in a pool with the representation: `partition_point`
counts them. -/
theorem Valid.partitionPoint_spec (hv : pool.Valid) {amount pp : Nat}
    (hpp : Slice.partitionPoint pool.entries (fun e => decide (e.amount > amount)) = pp) :
    pp ≤ pool.entries.length ∧
      (∀ i (hi : i < pool.entries.length), i < pp → amount < pool.entries[i].amount) ∧
      (∀ i (hi : i < pool.entries.length), pp ≤ i → pool.entries[i].amount ≤ amount) := by
  have hs : pool.entries.Pairwise fun a b =>
      decide (b.amount > amount) = true → decide (a.amount > amount) = true :=
    hv.entries_sorted.imp fun {a b} hab hb => by simp at hb ⊢; omega
  obtain ⟨hle, hbefore, hafter⟩ := Slice.partitionPoint_spec hs
  rw [hpp] at hle hbefore hafter
  refine ⟨hle, fun i hi hlt => ?_, fun i hi hge => ?_⟩
  · simpa using hbefore i hi hlt
  · simpa using hafter i hi hge

/-- Unlocking a lockup whose entry is live takes out exactly that entry, when no two live entries
share a lockup. -/
theorem Valid.removeEntry (hv : pool.Valid) {e : LockupPoolEntry} (he : e ∈ pool.live)
    (hnodup : (pool.live.map (·.lockup)).Nodup) :
    ∃ pool', pool.removeEntry e.lockup e.amount = some pool' ∧ pool'.Valid ∧
      pool'.live.Perm (pool.live.erase e) := by
  obtain ⟨j, hj, rfl⟩ := List.mem_take_iff_getElem.mp he
  have hjlen : j < pool.entriesLen := by simp at hj; omega
  have hjE : j < pool.entries.length := by simp at hj; omega
  obtain ⟨pp, hpp⟩ : ∃ pp, Slice.partitionPoint pool.entries
      (fun x => decide (x.amount > pool.entries[j].amount)) = pp := ⟨_, rfl⟩
  obtain ⟨hpple, hbefore, hafter⟩ := hv.partitionPoint_spec hpp
  -- the entry is not above its own amount, so it comes at or after the partition point
  have hppj : pp ≤ j := by
    by_contra hlt
    exact absurd (hbefore j hjE (by omega)) (Nat.lt_irrefl _)
  have hsorted := hv.entries_sorted
  -- from the partition point to the entry, every amount is the entry's
  have hfind : ((pool.entries.drop pp).takeWhile (·.amount == pool.entries[j].amount)).findIdx?
      (·.lockup == pool.entries[j].lockup) = some (j - pp) := by
    refine findIdx?_takeWhile_eq_some (by simp; omega) (fun m hm hmt => ?_) (by simp [hppj])
      (fun m hm hmt => ?_)
    · have hlo := hafter (pp + m) (by simp at hm; omega) (Nat.le_add_right _ _)
      have hhi : pool.entries[j].amount ≤ pool.entries[pp + m].amount := by
        rcases Nat.lt_or_eq_of_le (show pp + m ≤ j by omega) with hlt | heq
        · exact List.pairwise_iff_getElem.mp hsorted _ _ (by omega) hjE hlt
        · simp [heq]
      simp only [List.getElem_drop, beq_iff_eq]
      omega
    · -- an earlier live entry has another lockup
      have hi1 : pp + m < (pool.live.map (·.lockup)).length := by simp [live]; omega
      have hi2 : j < (pool.live.map (·.lockup)).length := by simp [live]; omega
      have hinj : (pool.live.map (·.lockup))[pp + m] ≠ (pool.live.map (·.lockup))[j] :=
        fun h => absurd (hnodup.getElem_inj_iff.mp h) (by omega)
      simp only [live, List.getElem_map, List.getElem_take] at hinj
      simpa [List.getElem_drop] using hinj
  have hrot := rotateLeftFrom_set (default : LockupPoolEntry) hjE
  have hlen0 : pool.entriesLen ≠ 0 := by omega
  have hcap : pool.entriesLen ≤ pool.entries.length := by
    rw [pool.length_entries]
    exact hv.entriesLen_le
  unfold LockupPool.removeEntry
  simp only [hpp]
  rw [if_pos (by omega), hfind]
  dsimp only
  -- the index found is the entry's own
  have hidx : pp + (j - pp) = j := by omega
  split
  · next h =>
    rw [hpp, hidx, hrot] at h
    cases h
  · next entries h =>
    rw [if_neg hlen0]
    rw [hpp, hidx, hrot] at h
    cases h
    refine ⟨_, rfl, ⟨Nat.le_trans (Nat.sub_le _ _) hv.entriesLen_le, ?_, ?_, ?_⟩, ?_⟩
    · show (List.take (pool.entriesLen - 1) _).Pairwise _
      rw [take_eraseIdx_append _ hjlen hcap]
      exact hv.sorted.eraseIdx j
    · show ∀ x ∈ List.take (pool.entriesLen - 1) _, _
      rw [take_eraseIdx_append _ hjlen hcap]
      exact fun x hx => hv.amount_pos x (List.mem_of_mem_eraseIdx hx)
    · show ∀ x ∈ List.drop (pool.entriesLen - 1) _, _
      rw [drop_eraseIdx_append _ hjlen hcap]
      intro x hx
      rcases List.mem_append.mp hx with hx | hx
      · exact hv.tail_default x hx
      · simpa using hx
    · show (List.take (pool.entriesLen - 1) _).Perm _
      rw [take_eraseIdx_append _ hjlen hcap]
      have := List.erase_getElem (l := pool.live) (i := j) (by unfold live; simp; omega)
      simp only [live, List.getElem_take] at this
      exact this.symm

/-- Unlocking a positive lockup with no live entry finds nothing among the entries of its
amount: it leaves the pool as it is when every live entry is above the amount, and panics
otherwise. -/
theorem Valid.removeEntry_of_not_mem (hv : pool.Valid) {lockup : Pubkey} {amount : Nat}
    (hpos : 0 < amount) (hnot : ∀ e ∈ pool.live, e.lockup ≠ lockup) :
    pool.removeEntry lockup amount =
      if Slice.partitionPoint pool.entries (fun e => decide (e.amount > amount)) ≠ pool.entriesLen
      then none else some pool := by
  -- an entry of this amount is live, since the tail is zero; so it has another lockup
  have hfind : ∀ pp, ((pool.entries.drop pp).takeWhile (·.amount == amount)).findIdx?
      (·.lockup == lockup) = none := by
    intro pp
    rw [List.findIdx?_eq_none_iff]
    intro x hx
    have hxa : x.amount = amount := by simpa using List.mem_takeWhile_imp hx
    have hxE : x ∈ pool.live ++ pool.entries.drop pool.entriesLen := by
      rw [live, List.take_append_drop]
      exact List.mem_of_mem_drop ((List.takeWhile_sublist _).subset hx)
    rcases List.mem_append.mp hxE with hx | hx
    · simpa using hnot x hx
    · rw [hv.tail_default x hx, amount_default] at hxa
      omega
  unfold LockupPool.removeEntry
  dsimp only
  split
  · rw [hfind]
  · rfl

/-! ### A full pool -/

/-- A full pool's live prefix is the whole array. -/
theorem live_of_full (hfull : pool.entriesLen = LOCKUP_CAPACITY) : pool.live = pool.entries := by
  unfold live
  rw [hfull, ← pool.length_entries, List.take_length]

/-- In a full pool the entry at the last index, the one the code compares with, is the last live
entry and the smallest. -/
theorem Valid.last_of_full (hv : pool.Valid) (hfull : pool.entriesLen = LOCKUP_CAPACITY) :
    pool.live = pool.live.dropLast ++ [pool.entries.getD (LOCKUP_CAPACITY - 1) default] ∧
    ∀ e ∈ pool.live, (pool.entries.getD (LOCKUP_CAPACITY - 1) default).amount ≤ e.amount := by
  have hcap := pool.length_entries
  have hne : pool.entries ≠ [] := by
    intro h
    rw [h] at hcap
    exact absurd hcap (by decide)
  have hlast : pool.entries.getD (LOCKUP_CAPACITY - 1) default = pool.entries.getLast hne := by
    rw [List.getLast_eq_getElem, List.getD_eq_getElem?_getD,
      List.getElem?_eq_getElem (by rw [hcap]; decide), Option.getD_some]
    simp only [hcap]
  have hsorted := hv.sorted
  rw [live_of_full hfull, ← List.dropLast_append_getLast hne, List.pairwise_append] at hsorted
  rw [live_of_full hfull, hlast]
  refine ⟨(List.dropLast_append_getLast hne).symm, fun e he => ?_⟩
  -- split the array at its last entry; sortedness puts that entry below every other one
  rw [← List.dropLast_append_getLast hne] at he
  rcases List.mem_append.mp he with he | he
  · exact hsorted.2.2 e he _ (List.mem_singleton_self _)
  · obtain rfl := List.mem_singleton.mp he
    exact Nat.le_refl _

theorem full_pool_lockup_evicts_minimum (hv : pool.Valid) {entry : LockupPoolEntry}
    (hfull : pool.entriesLen = LOCKUP_CAPACITY) (hpos : 0 < entry.amount) :
    pool.live = pool.live.dropLast ++ [pool.entries.getD (LOCKUP_CAPACITY - 1) default] ∧
    (∀ e ∈ pool.live, (pool.entries.getD (LOCKUP_CAPACITY - 1) default).amount ≤ e.amount) ∧
    ((∃ pool', pool.insertEntry entry = some (.ok pool')) ↔
      (pool.entries.getD (LOCKUP_CAPACITY - 1) default).amount < entry.amount) ∧
    ∀ pool', pool.insertEntry entry = some (.ok pool') →
      pool'.Valid ∧ pool'.entriesLen = LOCKUP_CAPACITY ∧
        pool'.live.Perm (entry :: pool.live.dropLast) := by
  obtain ⟨hsplit, hmin⟩ := hv.last_of_full hfull
  refine ⟨hsplit, hmin, ⟨fun ⟨pool', h⟩ => ?_, fun hlt => hv.insertEntry_isOk hpos (Or.inr hlt)⟩,
    fun pool' h => ?_⟩
  · -- an amount not above the smallest is refused
    by_contra hle
    rw [insertEntry_of_full_of_le hfull (Nat.le_of_not_lt hle)] at h
    cases h
  · obtain ⟨hv', hperm⟩ := hv.insertEntry hpos h
    rw [if_pos hfull] at hperm
    obtain ⟨hn, -⟩ := insertEntry_eq_some_ok h
    rcases newEntriesLen_eq_ok hn with ⟨hnf, -⟩ | ⟨-, hlen, -⟩
    · exact absurd hfull hnf
    · exact ⟨hv', hlen.trans hfull, hperm⟩

/-- A full pool of one-token entries. -/
def unitPool : LockupPool :=
  ⟨.lockupPool, List.replicate LOCKUP_CAPACITY ⟨default, 1, 0⟩, LOCKUP_CAPACITY,
    List.length_replicate⟩

theorem unitPool_valid : unitPool.Valid where
  entriesLen_le := Nat.le_refl _
  sorted := by
    have hrep : (List.replicate LOCKUP_CAPACITY (⟨default, 1, 0⟩ : LockupPoolEntry)).Pairwise
        fun a b => b.amount ≤ a.amount :=
      List.pairwise_replicate.mpr (Or.inr (Nat.le_refl _))
    exact hrep.sublist (List.take_sublist _ _)
  amount_pos e he := by
    rw [List.eq_of_mem_replicate (List.mem_of_mem_take he)]
    exact Nat.one_pos
  tail_default e he := by
    rw [List.drop_eq_nil_of_le
      (show unitPool.entries.length ≤ unitPool.entriesLen from Nat.le_of_eq unitPool.length_entries)]
      at he
    cases he

theorem unitPool_lockup_of_two :
    unitPool.live = unitPool.live.dropLast ++ [unitPool.entries.getD (LOCKUP_CAPACITY - 1) default] ∧
    (∀ e ∈ unitPool.live, (unitPool.entries.getD (LOCKUP_CAPACITY - 1) default).amount ≤ e.amount) ∧
    ((∃ pool', unitPool.insertEntry ⟨default, 2, 0⟩ = some (.ok pool')) ↔
      (unitPool.entries.getD (LOCKUP_CAPACITY - 1) default).amount < 2) ∧
    ∀ pool', unitPool.insertEntry ⟨default, 2, 0⟩ = some (.ok pool') →
      pool'.Valid ∧ pool'.entriesLen = LOCKUP_CAPACITY ∧
        pool'.live.Perm (⟨default, 2, 0⟩ :: unitPool.live.dropLast) :=
  full_pool_lockup_evicts_minimum unitPool_valid rfl Nat.zero_lt_two

end Valid

end LockupPool
end Agave.Lockup
