import Agave.Lockup.Invariant

/-!
# Two runs the pool does not survive

Both runs start from a pool account just created, all zero, with every other address a lockup
account created for the program, and begin with `InitializeLockupPool`.

* A lockup of amount zero into the empty pool ties with the zero tail. The search runs over the
  whole array, stops at its first probe, the middle, and the entry is written there: the live
  prefix is one zero entry, and the lockup's entry sits in the tail
  (`lockup_of_zero_amount_lands_in_tail`).
* A full pool of equal lockups evicts its last entry for a larger lockup, but the evicted
  lockup's account stays initialized and not unlocked. Its `Unlock` looks for it among the
  entries of its amount, does not find it, and panics in `unwrap()`, so its tokens can never be
  withdrawn (`unlock_of_evicted_lockup_panics`).
-/

namespace Agave.Lockup
namespace Eviction

open LockupPool Slice

/-- The address with the number `n`. -/
def addr (n : Nat) : Pubkey := ⟨BitVec.ofNat 256 n⟩

theorem addr_injective {a b : Nat} (ha : a < 2 ^ 256) (hb : b < 2 ^ 256) (h : addr a = addr b) :
    a = b := by
  have := congrArg (fun k : Pubkey => k.toBitVec.toNat) h
  simp only [addr, BitVec.toNat_ofNat] at this
  rwa [Nat.mod_eq_of_lt ha, Nat.mod_eq_of_lt hb] at this

/-- The program at `addr 1`, its escrow authority at `addr 2`, and every associated token
account at `addr 3`. -/
def runEnv : Env := ⟨addr 1, addr 2, fun _ _ _ => addr 3⟩

/-- A lockup account created for the program and not yet written. -/
def freshAccount : LockupAccount := ⟨addr 1, Lockup.LEN, .uninitialized, default⟩

/-- The pool at `addr 4`, just created, and fresh lockup accounts. -/
def runStart : World := World.created (addr 4) (addr 1) fun _ => freshAccount

/-- A lockup to `k` by the authority at `addr 5`, of the mint at `addr 6`. -/
def runAccounts (k : Pubkey) : LockupAccounts := ⟨addr 5, k, addr 2, addr 3, addr 6, addr 7⟩

/-- The clock at zero, and a transfer that succeeds. -/
def runCtx : Context := ⟨0, .ok ()⟩

/-- `runStart` after `InitializeLockupPool`. -/
def initialized : World :=
  { runStart with pool := { runStart.pool with data := { runStart.pool.data with
    discriminator := .lockupPool } } }

theorem initialize_runStart :
    processInitializeLockupPool runEnv runStart = some (.ok initialized) := by
  unfold processInitializeLockupPool
  rw [if_pos ⟨rfl, rfl⟩]
  rfl

theorem inv_initialized : Inv runEnv initialized :=
  (Inv.created fun _ h => by simp [freshAccount] at h).initializeLockupPool initialize_runStart

/-- A lockup to a fresh address, other than the pool's, passes its checks; it writes that
address alone. -/
theorem processLockup_fresh {w : World} (hassert : w.poolAsserts runEnv) {k : Pubkey}
    (hk : k ≠ w.pool.key) (hfresh : w.lockups k = freshAccount) {amount : Nat}
    {pool' : LockupPool} (hins : w.pool.data.insertEntry ⟨k, amount, 0⟩ = some (.ok pool')) :
    ∃ w', processLockup runEnv w (runAccounts k) 0 amount runCtx = some (.ok w') ∧
      w'.pool = { w.pool with data := pool' } ∧
      w'.lockups k = ⟨addr 1, Lockup.LEN, .lockup, newLockup w (runAccounts k) 0 amount 0⟩ ∧
      ∀ k', k' ≠ k → w'.lockups k' = w.lockups k' := by
  have hinfo : w.lockupInfo (runAccounts k).lockup = freshAccount := by
    rw [show (runAccounts k).lockup = k from rfl, World.lockupInfo_of_ne hk, hfresh]
  have hcheck : checkLockupAccounts runEnv w (runAccounts k) = .ok () := by
    apply checkLockupAccounts_eq_ok_iff.mpr
    rw [hinfo]
    exact ⟨rfl, rfl, rfl, rfl, rfl⟩
  refine ⟨_, processLockup_eq_ok_iff.mpr ⟨hassert, hcheck, rfl, pool', hins, rfl⟩, rfl, ?_, ?_⟩
  · show Function.update w.lockups k _ k = _
    rw [Function.update_self, hinfo]
    rfl
  · intro k' hk'
    exact Function.update_of_ne hk' _ _

/-! ### A lockup of amount zero -/

/-- The entries of the pool just created. -/
theorem entries_initialized :
    initialized.pool.data.entries = List.replicate LOCKUP_CAPACITY default := rfl

/-- In the zeroed array the first probe already compares equal to zero. -/
theorem searchIndex_initialized_zero : initialized.pool.data.searchIndex 0 = 512 := by
  have hlen : initialized.pool.data.entries.length = LOCKUP_CAPACITY :=
    initialized.pool.data.length_entries
  unfold searchIndex binarySearchBy
  rw [binarySearchByLoop_eq_ok_of_eq _ (by rw [hlen]; decide) fun hmid => ?_]
  · show 0 + (initialized.pool.data.entries.length - 0) / 2 = 512
    rw [hlen]
    rfl
  · have hmem : initialized.pool.data.entries.get ⟨_, hmid⟩ ∈
        List.replicate LOCKUP_CAPACITY (default : LockupPoolEntry) := List.get_mem _ _
    rw [List.eq_of_mem_replicate hmem]
    rfl

theorem lockup_of_zero_amount_lands_in_tail :
    ∃ w, Reachable runEnv runStart w ∧ w.pool.data.live = [default] ∧
      (w.lockups (addr 8)).discriminator = .lockup ∧
      (w.lockups (addr 8)).state.amount = 0 ∧
      (w.lockups (addr 8)).state.lockupEndTimestamp = none ∧
      (w.lockups (addr 8)).state.pool = w.pool.key ∧
      ⟨addr 8, 0, 0⟩ ∈ w.pool.data.entries.drop w.pool.data.entriesLen := by
  have hlen : initialized.pool.data.newEntriesLen 0 = some (.ok (0 + 1)) :=
    newEntriesLen_of_lt 0 (by decide)
  obtain ⟨pool', hins, -, hlen', hent⟩ := @insertEntry_eq_ok _ ⟨addr 8, 0, 0⟩ _ hlen
    (by rw [searchIndex_initialized_zero]; decide)
  rw [searchIndex_initialized_zero] at hent
  obtain ⟨w, hproc, hpool, hacc, -⟩ := processLockup_fresh (w := initialized) ⟨rfl, rfl⟩
    (k := addr 8) (fun h => absurd (addr_injective (by decide) (by decide) h) (by decide)) rfl
    hins
  have hstep₁ : Step runEnv runStart initialized :=
    ⟨runCtx, .initializeLockupPool, initialize_runStart⟩
  have hstep₂ : Step runEnv initialized w := ⟨runCtx, .lockup (runAccounts (addr 8)) 0 0, hproc⟩
  have hreach : Reachable runEnv runStart w := (Relation.ReflTransGen.single hstep₁).tail hstep₂
  -- the entry went to the middle of the zero array
  have hentries : w.pool.data.entries = List.replicate 512 default ++
      ⟨addr 8, 0, 0⟩ :: (List.replicate LOCKUP_CAPACITY default).dropLast.drop 512 := by
    rw [hpool]
    show pool'.entries = _
    rw [hent, entries_initialized, List.take_replicate]
    rfl
  have hlenw : w.pool.data.entriesLen = 1 := by rw [hpool]; exact hlen'
  have hprefix : 1 ≤ (List.replicate 512 (default : LockupPoolEntry)).length := by
    rw [List.length_replicate]
    decide
  refine ⟨w, hreach, ?_, ?_, ?_, ?_, ?_, ?_⟩
  · -- the live prefix is the first zero entry, not the lockup's
    unfold live
    rw [hlenw, hentries, List.take_append_of_le_length hprefix, List.take_replicate]
    rfl
  · rw [hacc]
  · rw [hacc]
    rfl
  · rw [hacc]
    rfl
  · rw [hacc, hpool]
    rfl
  · rw [hlenw, hentries, List.drop_append_of_le_length hprefix]
    exact List.mem_append_right _ List.mem_cons_self

/-! ### Eviction -/

/-- The facts of a run of `n` lockups of one token each, to `addr 8`, …, `addr (n + 7)`. -/
structure UnitRun (n : Nat) (w : World) : Prop where
  run : Relation.ReflTransGen (PositiveStep runEnv) runStart w
  inv : Inv runEnv w
  asserts : w.poolAsserts runEnv
  key : w.pool.key = addr 4
  entriesLen : w.pool.data.entriesLen = n
  amount_one : ∀ e ∈ w.pool.data.live, e.amount = 1
  fresh : ∀ i, n ≤ i → i ≤ LOCKUP_CAPACITY → w.lockups (addr (i + 8)) = freshAccount

theorem unitRun_zero : UnitRun 0 initialized where
  run := Relation.ReflTransGen.single ⟨runCtx, .initializeLockupPool, trivial, initialize_runStart⟩
  inv := inv_initialized
  asserts := ⟨rfl, rfl⟩
  key := rfl
  entriesLen := rfl
  amount_one := fun _ he => absurd he List.not_mem_nil
  fresh := fun _ _ _ => rfl

theorem addr_lockup_ne_pool {i : Nat} (hi : i ≤ LOCKUP_CAPACITY) : addr (i + 8) ≠ addr 4 := by
  intro h
  have := addr_injective (by unfold LOCKUP_CAPACITY at hi; omega) (by decide) h
  omega

/-- One more lockup of one token, while the pool has room. -/
theorem UnitRun.succ {n : Nat} {w : World} (h : UnitRun n w) (hn : n < LOCKUP_CAPACITY) :
    ∃ w', UnitRun (n + 1) w' := by
  have hk : addr (n + 8) ≠ w.pool.key := h.key ▸ addr_lockup_ne_pool (Nat.le_of_lt hn)
  have hroom : w.pool.data.entriesLen < LOCKUP_CAPACITY := h.entriesLen ▸ hn
  obtain ⟨pool', hins⟩ := h.inv.valid.insertEntry_isOk
    (show 0 < (⟨addr (n + 8), 1, 0⟩ : LockupPoolEntry).amount from Nat.one_pos) (Or.inl hroom)
  obtain ⟨w', hproc, hpool, -, hother⟩ :=
    processLockup_fresh h.asserts hk (h.fresh n (Nat.le_refl _) (Nat.le_of_lt hn)) hins
  have hinv' := h.inv.lockup Nat.one_pos hproc
  obtain ⟨hn', -, -, -⟩ := insertEntry_eq_some_ok hins
  rw [newEntriesLen_of_lt _ hroom] at hn'
  obtain ⟨-, hperm⟩ := h.inv.valid.insertEntry Nat.one_pos hins
  rw [if_neg (Nat.ne_of_lt hroom)] at hperm
  refine ⟨w', ⟨h.run.tail ⟨runCtx, .lockup (runAccounts (addr (n + 8))) 0 1, Nat.one_pos, hproc⟩,
    hinv', ?_, ?_, ?_, fun e he => ?_, fun i hi hicap => ?_⟩⟩
  · rw [World.poolAsserts, hpool]
    exact h.asserts
  · rw [hpool]
    exact h.key
  · rw [hpool]
    have := Option.some.inj hn'
    rw [h.entriesLen] at this
    exact (Except.ok.inj this).symm
  · rw [hpool] at he
    rcases List.mem_cons.mp (hperm.subset he) with rfl | he
    · rfl
    · exact h.amount_one e he
  · have hne : addr (i + 8) ≠ addr (n + 8) := by
      intro heq
      have := addr_injective (by unfold LOCKUP_CAPACITY at hicap; omega)
        (by unfold LOCKUP_CAPACITY at hn; omega) heq
      omega
    rw [hother _ hne]
    exact h.fresh i (by omega) hicap

theorem unitRun_exists : ∀ n, n ≤ LOCKUP_CAPACITY → ∃ w, UnitRun n w
  | 0, _ => ⟨_, unitRun_zero⟩
  | n + 1, hn => by
    obtain ⟨w, hw⟩ := unitRun_exists n (Nat.le_of_succ_le hn)
    exact hw.succ hn

/-- A pool filled by `LOCKUP_CAPACITY` lockups of one token each keeps the invariant. -/
theorem full_pool_keeps_invariant :
    ∃ w, Relation.ReflTransGen (PositiveStep runEnv) runStart w ∧
      w.pool.data.entriesLen = LOCKUP_CAPACITY ∧
      w.pool.data.Valid ∧ (w.pool.data.live.map (·.lockup)).Nodup ∧
      ∀ e ∈ w.pool.data.live, EntryMatches runEnv w e := by
  obtain ⟨w, hw⟩ := unitRun_exists LOCKUP_CAPACITY (Nat.le_refl _)
  exact ⟨w, hw.run, hw.entriesLen,
    positive_runs_keep_pool_invariant (fun _ h => by simp [freshAccount] at h) hw.run⟩

/-- A full pool all of whose entries are one token. -/
theorem UnitRun.full {w : World} (hw : UnitRun LOCKUP_CAPACITY w) :
    w.pool.data.live = w.pool.data.entries ∧ ∀ e ∈ w.pool.data.entries, e.amount = 1 := by
  have hlive : w.pool.data.live = w.pool.data.entries := by
    unfold live
    rw [hw.entriesLen, ← w.pool.data.length_entries, List.take_length]
  exact ⟨hlive, fun e he => hw.amount_one e (hlive ▸ he)⟩

theorem unlock_of_evicted_lockup_panics :
    ∃ w victim, Reachable runEnv runStart w ∧
      (w.lockups victim).discriminator = .lockup ∧
      (w.lockups victim).state.lockupEndTimestamp = none ∧
      (w.lockups victim).state.pool = w.pool.key ∧
      victim ∉ w.pool.data.live.map (·.lockup) ∧
      ∀ ctx, processUnlock runEnv w ⟨(w.lockups victim).state.authority, true, victim⟩ ctx =
        none := by
  obtain ⟨w, hw⟩ := unitRun_exists LOCKUP_CAPACITY (Nat.le_refl _)
  obtain ⟨hliveE, hone⟩ := hw.full
  have hlenE : w.pool.data.entries.length = LOCKUP_CAPACITY := w.pool.data.length_entries
  have hne : w.pool.data.entries ≠ [] := by
    intro h
    rw [h] at hlenE
    exact absurd hlenE (by decide)
  -- the last entry, the one a larger lockup evicts
  have hlastmem : w.pool.data.entries.getLast hne ∈ w.pool.data.live := by
    rw [hliveE]
    exact List.getLast_mem hne
  have hlastD : w.pool.data.entries.getD (LOCKUP_CAPACITY - 1) default =
      w.pool.data.entries.getLast hne := by
    rw [List.getLast_eq_getElem, List.getD_eq_getElem?_getD,
      List.getElem?_eq_getElem (by rw [hlenE]; decide), Option.getD_some]
    simp only [hlenE]
  have hm := hw.inv.live_matches _ hlastmem
  -- a lockup of two tokens to the next fresh address
  have hk : addr (LOCKUP_CAPACITY + 8) ≠ w.pool.key := by
    rw [hw.key]
    exact addr_lockup_ne_pool (Nat.le_refl _)
  obtain ⟨pool', hins⟩ := hw.inv.valid.insertEntry_isOk
    (show 0 < (⟨addr (LOCKUP_CAPACITY + 8), 2, 0⟩ : LockupPoolEntry).amount from Nat.zero_lt_two)
    (Or.inr (by rw [hlastD, hone _ (List.getLast_mem hne)]; decide))
  obtain ⟨w', hproc, hpool, -, hother⟩ :=
    processLockup_fresh hw.asserts hk (hw.fresh _ (Nat.le_refl _) (Nat.le_refl _)) hins
  have hinv' := hw.inv.lockup (by decide) hproc
  obtain ⟨hn', -, -, hent⟩ := insertEntry_eq_some_ok hins
  -- it goes first, and the old last entry is gone
  have hr0 : w.pool.data.searchIndex 2 = 0 := by
    obtain ⟨-, hbefore, -⟩ := hw.inv.valid.searchIndex_spec 2
    by_contra h0
    have h0len : 0 < w.pool.data.entries.length := by rw [hlenE]; decide
    have h2 := hbefore _ (List.mem_take_iff_getElem.mpr ⟨0, by simp; omega, rfl⟩)
    rw [hone _ (List.getElem_mem h0len)] at h2
    exact absurd h2 (by decide)
  have hent0 : pool'.entries = ⟨addr (LOCKUP_CAPACITY + 8), 2, 0⟩ :: w.pool.data.entries.dropLast := by
    rw [hent, hr0, List.take_zero, List.drop_zero, List.nil_append]
  have hlen' : pool'.entriesLen = LOCKUP_CAPACITY := by
    rw [newEntriesLen_of_full _ hw.entriesLen, if_pos (by rw [hlastD, hone _ (List.getLast_mem hne)]; decide)] at hn'
    rw [← hw.entriesLen]
    exact (Except.ok.inj (Option.some.inj hn')).symm
  have hlive' : pool'.live = pool'.entries := by
    unfold live
    rw [hlen', ← pool'.length_entries, List.take_length]
  -- the evicted lockup: still initialized and not unlocked, but in no live entry
  have hvK : (w.pool.data.entries.getLast hne).lockup ≠ addr (LOCKUP_CAPACITY + 8) := by
    intro heq
    have hd := hm.discriminator
    rw [heq, hw.fresh _ (Nat.le_refl _) (Nat.le_refl _)] at hd
    cases hd
  have hacc := hother _ hvK
  have hkey' : w'.pool.key = w.pool.key := by rw [hpool]
  have hnodup := hw.inv.nodup
  rw [hliveE, ← List.dropLast_append_getLast hne, List.map_append, List.nodup_append] at hnodup
  have hnot : ∀ e ∈ pool'.live, e.lockup ≠ (w.pool.data.entries.getLast hne).lockup := by
    intro e he
    rw [hlive', hent0] at he
    rcases List.mem_cons.mp he with rfl | he
    · exact Ne.symm hvK
    · exact hnodup.2.2 _ (List.mem_map.mpr ⟨e, he, rfl⟩) _ (List.mem_map.mpr ⟨_, List.mem_singleton_self _, rfl⟩)
  -- the partition point is 1: only the new entry is above one token
  have hpp : Slice.partitionPoint pool'.entries (fun e => decide (e.amount > 1)) = 1 := by
    refine partitionPoint_eq (by rw [pool'.length_entries]; decide) (fun i hi hi1 => ?_)
      (fun i hi hi1 => ?_)
    · have : i = 0 := by omega
      subst this
      simp [hent0]
    · obtain ⟨j, rfl⟩ : ∃ j, i = j + 1 := ⟨i - 1, by omega⟩
      have hj : j < w.pool.data.entries.dropLast.length := by
        have := hi
        rw [hent0, List.length_cons] at this
        omega
      rw [List.getElem_of_eq hent0, List.getElem_cons_succ]
      simp only [hone _ (List.mem_of_mem_dropLast (List.getElem_mem hj))]
      decide
  refine ⟨w', (w.pool.data.entries.getLast hne).lockup, ?_, ?_, ?_, ?_, ?_, fun ctx => ?_⟩
  · exact .of_positive (hw.run.tail ⟨runCtx, .lockup (runAccounts _) 0 2, Nat.zero_lt_two, hproc⟩)
  · rw [hacc]
    exact hm.discriminator
  · rw [hacc]
    exact hm.lockupEndTimestamp
  · rw [hacc, hkey']
    exact hm.pool
  · rw [hpool]
    intro hmem
    obtain ⟨e, he, heq⟩ := List.mem_map.mp hmem
    exact hnot e he heq
  · apply processUnlock_eq_none_iff.mpr
    refine Or.inr ⟨(w'.lockups (w.pool.data.entries.getLast hne).lockup).state, ?_, ?_⟩
    · have hne' : (w.pool.data.entries.getLast hne).lockup ≠ w'.pool.key := hkey' ▸ hm.ne_poolKey
      apply checkUnlockAccounts_eq_ok_iff.mpr
      rw [World.lockupInfo_of_ne hne', hacc, hkey']
      exact ⟨rfl, hm.owner, hm.dataLen, hm.discriminator, rfl, hm.lockupEndTimestamp,
        hm.pool.symm, rfl⟩
    · rw [hacc, hm.amount, hone _ (List.getLast_mem hne), hpool]
      show pool'.removeEntry _ 1 = none
      have hvalid : pool'.Valid := by
        have := hinv'.valid
        rw [hpool] at this
        exact this
      rw [hvalid.removeEntry_of_not_mem Nat.one_pos hnot, hpp, hlen', if_pos (by decide)]

end Eviction
end Agave.Lockup
