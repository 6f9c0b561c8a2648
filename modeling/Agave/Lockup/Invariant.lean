import Agave.Lockup.Processor

/-!
# The lockup program over runs of positive lockups

`Inv` is what the program maintains when every lockup it takes has a positive amount: the pool
has its representation (`LockupPool.Valid`), no two live entries name one lockup, each live
entry agrees with its lockup account (initialized, not unlocked, of this pool, with the entry's
amount and metadata), and every initialized lockup has a positive amount. A newly created pool
has it (`Inv.created`), every instruction keeps it (`Inv.initializeLockupPool`, `Inv.lockup`,
`Inv.unlock`, `Inv.withdraw`), and so it holds along every run (`Inv.reachable`).

A positive amount is needed: a lockup of amount zero ties with the zero tail, which the search
then does not tell apart from live entries.
-/

namespace Agave.Lockup

open LockupPool

/-- A live entry agrees with its lockup account. -/
structure EntryMatches (env : Env) (w : World) (e : LockupPoolEntry) : Prop where
  ne_poolKey : e.lockup ≠ w.pool.key
  owner : (w.lockups e.lockup).owner = env.programId
  dataLen : (w.lockups e.lockup).dataLen = Lockup.LEN
  discriminator : (w.lockups e.lockup).discriminator = .lockup
  amount : (w.lockups e.lockup).state.amount = e.amount
  metadata : (w.lockups e.lockup).state.metadata = e.metadata
  lockupEndTimestamp : (w.lockups e.lockup).state.lockupEndTimestamp = none
  pool : (w.lockups e.lockup).state.pool = w.pool.key

/-- An entry still agrees with its account when neither the account nor the pool's address
changed. -/
theorem EntryMatches.congr {env : Env} {w w' : World} {e : LockupPoolEntry}
    (h : EntryMatches env w e) (hacc : w'.lockups e.lockup = w.lockups e.lockup)
    (hkey : w'.pool.key = w.pool.key) : EntryMatches env w' e where
  ne_poolKey := hkey ▸ h.ne_poolKey
  owner := hacc ▸ h.owner
  dataLen := hacc ▸ h.dataLen
  discriminator := hacc ▸ h.discriminator
  amount := hacc ▸ h.amount
  metadata := hacc ▸ h.metadata
  lockupEndTimestamp := hacc ▸ h.lockupEndTimestamp
  pool := by rw [hacc, hkey]; exact h.pool

/-- The invariant of runs whose lockups are all positive. -/
structure Inv (env : Env) (w : World) : Prop where
  valid : w.pool.data.Valid
  nodup : (w.pool.data.live.map (·.lockup)).Nodup
  live_matches : ∀ e ∈ w.pool.data.live, EntryMatches env w e
  amount_pos : ∀ k, (w.lockups k).discriminator = .lockup → 0 < (w.lockups k).state.amount

/-- The accounts right after the pool account was created: its data all zero. -/
def World.created (poolKey poolOwner : Pubkey) (lockups : Pubkey → LockupAccount) : World :=
  ⟨⟨poolKey, poolOwner, LockupPool.LEN, LockupPool.zeroed⟩, lockups⟩

theorem LockupPool.valid_zeroed : LockupPool.zeroed.Valid where
  entriesLen_le := Nat.zero_le _
  sorted := List.Pairwise.nil
  amount_pos := fun _ he => absurd he List.not_mem_nil
  tail_default := fun _ he => List.eq_of_mem_replicate he

theorem Inv.created {env : Env} {poolKey poolOwner : Pubkey} {lockups : Pubkey → LockupAccount}
    (hpos : ∀ k, (lockups k).discriminator = .lockup → 0 < (lockups k).state.amount) :
    Inv env (World.created poolKey poolOwner lockups) where
  valid := LockupPool.valid_zeroed
  nodup := List.nodup_nil
  live_matches := fun _ he => absurd he List.not_mem_nil
  amount_pos := hpos

section Steps

variable {env : Env} {w w' : World}

/-- No live entry names an account that is not an initialized lockup. -/
theorem Inv.lockup_ne_of_discriminator (hinv : Inv env w) {k : Pubkey}
    (hk : (w.lockups k).discriminator ≠ .lockup) : ∀ e ∈ w.pool.data.live, e.lockup ≠ k := by
  intro e he heq
  have := (hinv.live_matches e he).discriminator
  rw [heq] at this
  exact hk this

/-- Two live entries name different lockups. -/
theorem Inv.lockup_ne_of_mem_erase (hinv : Inv env w) {e e' : LockupPoolEntry}
    (he : e ∈ w.pool.data.live) (he' : e' ∈ w.pool.data.live.erase e) : e'.lockup ≠ e.lockup := by
  have hnodup := ((List.perm_cons_erase he).map (·.lockup)).nodup_iff.mp hinv.nodup
  rw [List.map_cons, List.nodup_cons] at hnodup
  exact fun heq => hnodup.1 (List.mem_map.mpr ⟨e', he', heq⟩)

theorem Inv.initializeLockupPool (hinv : Inv env w) (h : processInitializeLockupPool env w = some (.ok w')) :
    Inv env w' := by
  unfold processInitializeLockupPool at h
  split at h
  · cases h
    -- only the discriminator changed, which the invariant does not read
    have hv := hinv.valid
    exact ⟨⟨hv.entriesLen_le, hv.sorted, hv.amount_pos, hv.tail_default⟩, hinv.nodup,
      fun e he => (hinv.live_matches e he).congr rfl rfl, hinv.amount_pos⟩
  · cases h

/-- A positive lockup writes a fresh account, and the pool's live entries become its entry and
the old ones, less the last when the pool was full. -/
theorem Inv.lockup (hinv : Inv env w) {accts : LockupAccounts} {metadata : Metadata}
    {amount : Nat} {ctx : Context} (hpos : 0 < amount)
    (h : processLockup env w accts metadata amount ctx = some (.ok w')) : Inv env w' := by
  obtain ⟨hassert, hcheck, -, pool', hins, rfl⟩ := processLockup_eq_ok_iff.mp h
  obtain ⟨howner, hlen, hdisc, -, -⟩ := checkLockupAccounts_eq_ok_iff.mp hcheck
  have hk := World.ne_poolKey_of_dataLen hassert hlen
  have hinfo := World.lockupInfo_of_ne hk
  rw [hinfo] at howner hlen hdisc
  have hfresh := hinv.lockup_ne_of_discriminator (k := accts.lockup) (by rw [hdisc]; decide)
  obtain ⟨hv', hperm⟩ := hinv.valid.insertEntry hpos hins
  -- the old entries kept are among the live ones
  have hkept : (if w.pool.data.entriesLen = LOCKUP_CAPACITY then w.pool.data.live.dropLast
      else w.pool.data.live).Sublist w.pool.data.live := by
    split
    · exact List.dropLast_sublist _
    · exact List.Sublist.refl _
  refine ⟨hv', ?_, fun e he => ?_, fun k hdk => ?_⟩
  · rw [(hperm.map _).nodup_iff, List.map_cons, List.nodup_cons]
    refine ⟨fun hmem => ?_, hinv.nodup.sublist (hkept.map _)⟩
    obtain ⟨e, he, heq⟩ := List.mem_map.mp hmem
    exact hfresh e (hkept.subset he) heq
  · rcases List.mem_cons.mp (hperm.subset he) with rfl | he
    · -- the new entry names the account just written
      refine ⟨hk, ?_, ?_, ?_, ?_, ?_, ?_, ?_⟩ <;>
        simp [Function.update_self, hinfo, howner, hlen, newLockup]
    · have hne := hfresh e (hkept.subset he)
      exact (hinv.live_matches e (hkept.subset he)).congr (Function.update_of_ne hne _ _) rfl
  · by_cases hkk : k = accts.lockup
    · subst hkk
      simp [Function.update_self, newLockup, hpos]
    · simp only [Function.update_of_ne hkk] at hdk ⊢
      exact hinv.amount_pos k hdk

/-- The live entries after an unlock: some of the old ones, none of them the unlocked lockup's. -/
theorem Inv.removeEntry_live (hinv : Inv env w) {k : Pubkey}
    (hdisc : (w.lockups k).discriminator = .lockup) {pool' : LockupPool}
    (hrem : w.pool.data.removeEntry k (w.lockups k).state.amount = some pool') :
    pool'.Valid ∧ ∃ kept, pool'.live.Perm kept ∧ kept.Sublist w.pool.data.live ∧
      ∀ e ∈ kept, e.lockup ≠ k := by
  by_cases hmem : ∃ e ∈ w.pool.data.live, e.lockup = k
  · -- the lockup is live: exactly its entry goes
    obtain ⟨e, he, rfl⟩ := hmem
    rw [(hinv.live_matches e he).amount] at hrem
    obtain ⟨pool'', hrem'', hv'', hperm''⟩ := hinv.valid.removeEntry he hinv.nodup
    rw [hrem''] at hrem
    cases hrem
    exact ⟨hv'', _, hperm'', List.erase_sublist,
      fun e' he' => hinv.lockup_ne_of_mem_erase he he'⟩
  · -- it is not: the pool is left as it was
    have hnot : ∀ e ∈ w.pool.data.live, e.lockup ≠ k := fun e he heq => hmem ⟨e, he, heq⟩
    rw [hinv.valid.removeEntry_of_not_mem (hinv.amount_pos k hdisc) hnot] at hrem
    split at hrem
    · cases hrem
    · cases hrem
      exact ⟨hinv.valid, _, List.Perm.refl _, List.Sublist.refl _, hnot⟩

theorem Inv.unlock (hinv : Inv env w) {accts : UnlockAccounts} {ctx : Context}
    (h : processUnlock env w accts ctx = some (.ok w')) : Inv env w' := by
  obtain ⟨hassert, state, hcheck, pool', hrem, rfl⟩ := processUnlock_eq_ok_iff.mp h
  obtain ⟨-, -, hlen, hdisc, -, -, -, rfl⟩ := checkUnlockAccounts_eq_ok_iff.mp hcheck
  have hk := World.ne_poolKey_of_dataLen hassert hlen
  have hinfo := World.lockupInfo_of_ne hk
  rw [hinfo] at hdisc hrem
  obtain ⟨hv', kept, hperm, hsub, hne⟩ := hinv.removeEntry_live hdisc hrem
  refine ⟨hv', ?_, fun e he => ?_, fun k' hdk => ?_⟩
  · rw [(hperm.map _).nodup_iff]
    exact hinv.nodup.sublist (hsub.map _)
  · have he' := hperm.subset he
    exact (hinv.live_matches e (hsub.subset he')).congr
      (Function.update_of_ne (hne e he') _ _) rfl
  · by_cases hkk : k' = accts.lockup
    · subst hkk
      simp only [Function.update_self, hinfo] at hdk ⊢
      exact hinv.amount_pos _ hdk
    · simp only [Function.update_of_ne hkk] at hdk ⊢
      exact hinv.amount_pos k' hdk

theorem Inv.withdraw (hinv : Inv env w) {accts : WithdrawAccounts} {ctx : Context}
    (h : processWithdraw env w accts ctx = some (.ok w')) : Inv env w' := by
  obtain ⟨hdisc, hend, rfl⟩ := processWithdraw_eq_ok h
  -- the pool account reads as a lockup never unlocked, so it is not the one withdrawn
  have hk : accts.lockup ≠ w.pool.key := by
    rintro heq
    unfold World.lockupInfo at hend
    rw [if_pos heq] at hend
    exact hend rfl
  rw [World.lockupInfo_of_ne hk] at hend
  -- live entries are not unlocked, so none is the one withdrawn
  have hne : ∀ e ∈ w.pool.data.live, e.lockup ≠ accts.lockup := by
    intro e he heq
    have := (hinv.live_matches e he).lockupEndTimestamp
    rw [heq] at this
    exact hend this
  refine ⟨hinv.valid, hinv.nodup, fun e he => ?_, fun k hdk => ?_⟩
  · exact (hinv.live_matches e he).congr (Function.update_of_ne (hne e he) _ _) rfl
  · by_cases hkk : k = accts.lockup
    · subst hkk
      simp [Function.update_self] at hdk
    · simp only [Function.update_of_ne hkk] at hdk ⊢
      exact hinv.amount_pos k hdk

/-- An instruction whose lockup, if it is one, has a positive amount. -/
def Instruction.Positive : Instruction → Prop
  | .lockup _ _ amount => 0 < amount
  | _ => True

/-- One successful instruction, a lockup of which is positive. -/
def PositiveStep (env : Env) (w w' : World) : Prop :=
  ∃ ctx ix, Instruction.Positive ix ∧ process env w ctx ix = some (.ok w')

theorem Inv.step (hinv : Inv env w) (h : PositiveStep env w w') : Inv env w' := by
  obtain ⟨ctx, ix, hpos, h⟩ := h
  cases ix with
  | initializeLockupPool => exact hinv.initializeLockupPool h
  | lockup accts metadata amount => exact hinv.lockup hpos h
  | unlock accts => exact hinv.unlock h
  | withdraw accts => exact hinv.withdraw h

theorem Inv.reachable {w₀ : World} (hinv : Inv env w₀)
    (hrun : Relation.ReflTransGen (PositiveStep env) w₀ w) : Inv env w := by
  induction hrun with
  | refl => exact hinv
  | tail _ hstep ih => exact ih.step hstep

/-- A run of positive steps is a run of the program. -/
theorem Reachable.of_positive {w₀ : World}
    (hrun : Relation.ReflTransGen (PositiveStep env) w₀ w) : Reachable env w₀ w := by
  induction hrun with
  | refl => exact .refl
  | tail _ hstep ih =>
    obtain ⟨ctx, ix, -, h⟩ := hstep
    exact ih.tail ⟨ctx, ix, h⟩

theorem positive_runs_keep_pool_invariant {poolKey poolOwner : Pubkey}
    {lockups : Pubkey → LockupAccount}
    (hpos : ∀ k, (lockups k).discriminator = .lockup → 0 < (lockups k).state.amount)
    (hrun : Relation.ReflTransGen (PositiveStep env) (World.created poolKey poolOwner lockups) w) :
    w.pool.data.Valid ∧ (w.pool.data.live.map (·.lockup)).Nodup ∧
      ∀ e ∈ w.pool.data.live, EntryMatches env w e := by
  have hinv := (Inv.created hpos).reachable hrun
  exact ⟨hinv.valid, hinv.nodup, hinv.live_matches⟩

end Steps

end Agave.Lockup
