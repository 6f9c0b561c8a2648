import Agave.Lockup.Pool

/-!
# The lockup program's instructions

`paladin-programs/lockup/program/src/processor.rs`. The state the program acts on is its pool
account and the lockup accounts it is handed. An instruction panics (`none`: a failed
`assert_eq!` or `unwrap`), returns an error, or succeeds with new account data. The runtime
undoes every write of a failed instruction, so the model returns new data only on success, and
a run of the program is a sequence of successful instructions (`Reachable`).

Whatever comes from outside the program is a parameter. `Env` holds the program's id and the
addresses it derives. Each instruction also gets a `Context`: the clock, and the result of the
token transfer it invokes. The checks an instruction makes before it writes are separate
functions (`checkLockupAccounts`, `checkUnlockAccounts`), returning errors in the source's order.
-/

namespace Agave.Lockup

/-- The addresses the program compares its accounts with. -/
structure Env where
  programId : Pubkey
  /-- `get_escrow_authority_address(program_id)`. -/
  escrowAuthority : Pubkey
  /-- `get_associated_token_address_with_program_id(wallet, mint, token_program)`. -/
  associatedTokenAddress : Pubkey → Pubkey → Pubkey → Pubkey

/-- A lockup account as the program reads it: its owner, its data length, the discriminator, and
the rest of its data as a `Lockup`. -/
structure LockupAccount where
  owner : Pubkey
  dataLen : Nat
  discriminator : Discriminator
  state : Lockup

/-- The pool account. -/
structure PoolAccount where
  key : Pubkey
  owner : Pubkey
  dataLen : Nat
  data : LockupPool

/-- The accounts the program acts on: one pool, and the lockup accounts by address. -/
structure World where
  pool : PoolAccount
  lockups : Pubkey → LockupAccount

/-- The account at `key` as an instruction's lockup account. The pool account, handed in that
place, has the pool's length; its other bytes are never read. -/
def World.lockupInfo (w : World) (key : Pubkey) : LockupAccount :=
  if key = w.pool.key then ⟨w.pool.owner, w.pool.dataLen, w.pool.data.discriminator, default⟩
  else w.lockups key

/-- What an instruction reads from outside the program. -/
structure Context where
  unixTimestamp : Int
  /-- The result of the token program's `TransferChecked` (and of reading the mint). -/
  transfer : Except ProgramError Unit

/-- The pool's `assert_eq!`s on its owner and length hold. -/
def World.poolAsserts (env : Env) (w : World) : Prop :=
  w.pool.owner = env.programId ∧ w.pool.dataLen = LockupPool.LEN

instance (env : Env) (w : World) : Decidable (w.poolAsserts env) := by
  unfold World.poolAsserts
  infer_instance

theorem World.lockupInfo_of_ne {w : World} {key : Pubkey} (h : key ≠ w.pool.key) :
    w.lockupInfo key = w.lockups key := by
  unfold World.lockupInfo
  rw [if_neg h]

/-- The pool account never passes for a lockup account: it has the pool's length. -/
theorem World.ne_poolKey_of_dataLen {env : Env} {w : World} {key : Pubkey}
    (hassert : w.poolAsserts env) (h : (w.lockupInfo key).dataLen = Lockup.LEN) :
    key ≠ w.pool.key := by
  rintro rfl
  unfold World.lockupInfo at h
  rw [if_pos rfl, hassert.2] at h
  have hne : LockupPool.LEN ≠ Lockup.LEN := by decide
  exact hne h

/-! ### `InitializeLockupPool` -/

/-- `process_initialize_lockup_pool`: only the discriminator is written. -/
def processInitializeLockupPool (env : Env) (w : World) : Option (Except ProgramError World) :=
  if w.poolAsserts env then
    some (.ok { w with pool := { w.pool with data := { w.pool.data with
      discriminator := .lockupPool } } })
  else none

/-! ### `Lockup` -/

/-- The accounts of `Lockup` by address, the pool's apart. The token owner and the token account
are read only by the transfer. -/
structure LockupAccounts where
  lockupAuthority : Pubkey
  lockup : Pubkey
  escrowAuthority : Pubkey
  escrowTokenAccount : Pubkey
  mint : Pubkey
  tokenProgram : Pubkey

/-- The checks of `process_lockup` on the lockup account and the escrow, in order. -/
def checkLockupAccounts (env : Env) (w : World) (accts : LockupAccounts) :
    Except ProgramError Unit :=
  let info := w.lockupInfo accts.lockup
  if info.owner ≠ env.programId then .error .invalidAccountOwner
  else if info.dataLen ≠ Lockup.LEN then .error .invalidAccountData
  else if info.discriminator ≠ .uninitialized then .error .accountAlreadyInitialized
  else if accts.escrowAuthority ≠ env.escrowAuthority then
    .error PaladinLockupError.incorrectEscrowAuthorityAddress.toProgramError
  else if accts.escrowTokenAccount ≠
      env.associatedTokenAddress accts.escrowAuthority accts.mint accts.tokenProgram then
    .error PaladinLockupError.incorrectEscrowTokenAccount.toProgramError
  else .ok ()

/-- The lockup `process_lockup` writes. -/
def newLockup (w : World) (accts : LockupAccounts) (metadata : Metadata) (amount : Nat)
    (unixTimestamp : Int) : Lockup :=
  { amount, authority := accts.lockupAuthority, lockupStartTimestamp := i64AsU64 unixTimestamp,
    lockupEndTimestamp := none, mint := accts.mint, pool := w.pool.key, metadata }

/-- `process_lockup`. -/
def processLockup (env : Env) (w : World) (accts : LockupAccounts) (metadata : Metadata)
    (amount : Nat) (ctx : Context) : Option (Except ProgramError World) :=
  if w.poolAsserts env then
    match checkLockupAccounts env w accts with
    | .error e => some (.error e)
    | .ok () =>
      match w.pool.data.insertEntry ⟨accts.lockup, amount, metadata⟩ with
      | none => none
      | some (.error e) => some (.error e)
      | some (.ok pool) =>
        match ctx.transfer with
        | .error e => some (.error e)
        | .ok () => some (.ok
            { pool := { w.pool with data := pool }
              lockups := Function.update w.lockups accts.lockup
                { w.lockupInfo accts.lockup with
                  discriminator := .lockup
                  state := newLockup w accts metadata amount ctx.unixTimestamp } })
  else none

/-! ### `Unlock` -/

/-- The accounts of `Unlock`, the pool's apart. -/
structure UnlockAccounts where
  lockupAuthority : Pubkey
  isSigner : Bool
  lockup : Pubkey

/-- The checks of `process_unlock` on the lockup, in order; on success, the lockup. The pool is
compared after the end timestamp is written, which an error undoes. -/
def checkUnlockAccounts (env : Env) (w : World) (accts : UnlockAccounts) :
    Except ProgramError Lockup :=
  let info := w.lockupInfo accts.lockup
  if !accts.isSigner then .error .missingRequiredSignature
  else if info.owner ≠ env.programId then .error .invalidAccountOwner
  else if ¬(info.dataLen = Lockup.LEN ∧ info.discriminator = .lockup) then
    .error .uninitializedAccount
  else if info.state.authority ≠ accts.lockupAuthority then .error .incorrectAuthority
  else if info.state.lockupEndTimestamp.isSome then
    .error PaladinLockupError.lockupAlreadyUnlocked.toProgramError
  else if w.pool.key ≠ info.state.pool then
    .error PaladinLockupError.incorrectPool.toProgramError
  else .ok info.state

/-- `process_unlock`. -/
def processUnlock (env : Env) (w : World) (accts : UnlockAccounts) (ctx : Context) :
    Option (Except ProgramError World) :=
  if w.poolAsserts env then
    match checkUnlockAccounts env w accts with
    | .error e => some (.error e)
    | .ok state =>
      match w.pool.data.removeEntry accts.lockup state.amount with
      | none => none
      | some pool => some (.ok
          { pool := { w.pool with data := pool }
            lockups := Function.update w.lockups accts.lockup
              { w.lockupInfo accts.lockup with
                state := { state with
                  lockupEndTimestamp := nonZeroU64New (i64AsU64 ctx.unixTimestamp) } } })
  else none

/-! ### What a successful `Lockup` or `Unlock` did -/

theorem checkLockupAccounts_eq_ok_iff {env : Env} {w : World} {accts : LockupAccounts} :
    checkLockupAccounts env w accts = .ok () ↔
      (w.lockupInfo accts.lockup).owner = env.programId ∧
      (w.lockupInfo accts.lockup).dataLen = Lockup.LEN ∧
      (w.lockupInfo accts.lockup).discriminator = .uninitialized ∧
      accts.escrowAuthority = env.escrowAuthority ∧
      accts.escrowTokenAccount =
        env.associatedTokenAddress accts.escrowAuthority accts.mint accts.tokenProgram := by
  unfold checkLockupAccounts
  dsimp only
  split_ifs <;> simp_all

theorem checkUnlockAccounts_eq_ok_iff {env : Env} {w : World} {accts : UnlockAccounts}
    {state : Lockup} :
    checkUnlockAccounts env w accts = .ok state ↔
      accts.isSigner = true ∧ (w.lockupInfo accts.lockup).owner = env.programId ∧
      (w.lockupInfo accts.lockup).dataLen = Lockup.LEN ∧
      (w.lockupInfo accts.lockup).discriminator = .lockup ∧
      (w.lockupInfo accts.lockup).state.authority = accts.lockupAuthority ∧
      (w.lockupInfo accts.lockup).state.lockupEndTimestamp = none ∧
      w.pool.key = (w.lockupInfo accts.lockup).state.pool ∧
      (w.lockupInfo accts.lockup).state = state := by
  unfold checkUnlockAccounts
  dsimp only
  split_ifs <;> simp_all [Option.isSome_iff_ne_none]

/-- A `Lockup` succeeds exactly when its checks and the transfer do and the pool takes the
entry; it then initializes the lockup account. -/
theorem processLockup_eq_ok_iff {env : Env} {w w' : World} {accts : LockupAccounts}
    {metadata : Metadata} {amount : Nat} {ctx : Context} :
    processLockup env w accts metadata amount ctx = some (.ok w') ↔
      w.poolAsserts env ∧ checkLockupAccounts env w accts = .ok () ∧ ctx.transfer = .ok () ∧
      ∃ pool, w.pool.data.insertEntry ⟨accts.lockup, amount, metadata⟩ = some (.ok pool) ∧
        w' = { pool := { w.pool with data := pool }
               lockups := Function.update w.lockups accts.lockup
                 { w.lockupInfo accts.lockup with
                   discriminator := .lockup
                   state := newLockup w accts metadata amount ctx.unixTimestamp } } := by
  constructor
  · intro h
    unfold processLockup at h
    split at h
    · next hassert =>
      split at h
      · cases h
      · next hcheck =>
        split at h
        · cases h
        · cases h
        · next pool hins =>
          split at h
          · cases h
          · next htr =>
            cases h
            exact ⟨hassert, hcheck, htr, pool, hins, rfl⟩
    · cases h
  · rintro ⟨hassert, hcheck, htr, pool, hins, rfl⟩
    unfold processLockup
    rw [if_pos hassert, hcheck]
    dsimp only
    rw [hins]
    dsimp only
    rw [htr]

/-- An `Unlock` succeeds exactly when its checks do and the pool's removal does not panic; it
then sets the end timestamp. -/
theorem processUnlock_eq_ok_iff {env : Env} {w w' : World} {accts : UnlockAccounts}
    {ctx : Context} :
    processUnlock env w accts ctx = some (.ok w') ↔
      w.poolAsserts env ∧ ∃ state, checkUnlockAccounts env w accts = .ok state ∧
        ∃ pool, w.pool.data.removeEntry accts.lockup state.amount = some pool ∧
          w' = { pool := { w.pool with data := pool }
                 lockups := Function.update w.lockups accts.lockup
                   { w.lockupInfo accts.lockup with
                     state := { state with
                       lockupEndTimestamp := nonZeroU64New (i64AsU64 ctx.unixTimestamp) } } } := by
  constructor
  · intro h
    unfold processUnlock at h
    split at h
    · next hassert =>
      split at h
      · cases h
      · next state hcheck =>
        split at h
        · cases h
        · next pool hrem =>
          cases h
          exact ⟨hassert, state, hcheck, pool, hrem, rfl⟩
    · cases h
  · rintro ⟨hassert, state, hcheck, pool, hrem, rfl⟩
    unfold processUnlock
    rw [if_pos hassert, hcheck]
    dsimp only
    rw [hrem]

/-- An `Unlock` panics exactly when the pool's asserts fail or, its checks passed, the pool's
removal panics. -/
theorem processUnlock_eq_none_iff {env : Env} {w : World} {accts : UnlockAccounts}
    {ctx : Context} :
    processUnlock env w accts ctx = none ↔
      ¬w.poolAsserts env ∨ ∃ state, checkUnlockAccounts env w accts = .ok state ∧
        w.pool.data.removeEntry accts.lockup state.amount = none := by
  constructor
  · intro h
    unfold processUnlock at h
    split at h
    · next hassert =>
      split at h
      · cases h
      · next state hcheck =>
        split at h
        · next hrem => exact Or.inr ⟨state, hcheck, hrem⟩
        · cases h
    · next hassert => exact Or.inl hassert
  · rintro (hassert | ⟨state, hcheck, hrem⟩)
    · unfold processUnlock
      rw [if_neg hassert]
    · unfold processUnlock
      split
      · rw [hcheck]
        dsimp only
        rw [hrem]
      · rfl

/-! ### `Withdraw` -/

/-- `LOCKUP_COOLDOWN_SECONDS`. -/
def LOCKUP_COOLDOWN_SECONDS : Nat := 30 * 60

/-- The accounts of `Withdraw` by address. The lamport and token destinations are read only by
the transfers. -/
structure WithdrawAccounts where
  lockupAuthority : Pubkey
  isSigner : Bool
  lockup : Pubkey
  escrowAuthority : Pubkey
  escrowTokenAccount : Pubkey
  mint : Pubkey
  tokenProgram : Pubkey

/-- `process_withdraw`. The lockup account is closed: emptied and given to the system program. -/
def processWithdraw (env : Env) (w : World) (accts : WithdrawAccounts) (ctx : Context) :
    Option (Except ProgramError World) :=
  let info := w.lockupInfo accts.lockup
  if !accts.isSigner then some (.error .missingRequiredSignature)
  else if info.owner ≠ env.programId then some (.error .invalidAccountOwner)
  else if ¬(info.dataLen = Lockup.LEN ∧ info.discriminator = .lockup) then
    some (.error .uninitializedAccount)
  else if accts.escrowAuthority ≠ env.escrowAuthority then
    some (.error PaladinLockupError.incorrectEscrowAuthorityAddress.toProgramError)
  else if accts.escrowTokenAccount ≠
      env.associatedTokenAddress accts.escrowAuthority accts.mint accts.tokenProgram then
    some (.error PaladinLockupError.incorrectEscrowTokenAccount.toProgramError)
  else if info.state.authority ≠ accts.lockupAuthority then some (.error .incorrectAuthority)
  else if info.state.mint ≠ accts.mint then
    some (.error PaladinLockupError.incorrectMint.toProgramError)
  else match info.state.lockupEndTimestamp with
    | none => some (.error PaladinLockupError.lockupActive.toProgramError)
    | some endTimestamp =>
      if saturatingAdd U64_MAX endTimestamp LOCKUP_COOLDOWN_SECONDS > i64AsU64 ctx.unixTimestamp
      then some (.error PaladinLockupError.lockupActive.toProgramError)
      else match ctx.transfer with
        | .error e => some (.error e)
        | .ok () => some (.ok { w with
            lockups := Function.update w.lockups accts.lockup ⟨default, 0, .uninitialized, default⟩ })

/-- A successful `Withdraw` closed an initialized lockup that had been unlocked. -/
theorem processWithdraw_eq_ok {env : Env} {w w' : World} {accts : WithdrawAccounts}
    {ctx : Context} (h : processWithdraw env w accts ctx = some (.ok w')) :
    (w.lockupInfo accts.lockup).discriminator = .lockup ∧
      (w.lockupInfo accts.lockup).state.lockupEndTimestamp ≠ none ∧
      w' = { w with lockups :=
        Function.update w.lockups accts.lockup ⟨default, 0, .uninitialized, default⟩ } := by
  unfold processWithdraw at h
  dsimp only at h
  -- every failed check returns an error
  split_ifs at h with h1 h2 h3 <;> try cases h
  split at h
  · cases h
  · next endTimestamp hend =>
    split_ifs at h
    · cases h
    · split at h
      · cases h
      · cases h
        exact ⟨h3.2, by rw [hend]; simp, rfl⟩

/-! ### Runs -/

/-- `PaladinLockupInstruction`, with the accounts it is given. -/
inductive Instruction where
  | initializeLockupPool
  | lockup (accts : LockupAccounts) (metadata : Metadata) (amount : Nat)
  | unlock (accts : UnlockAccounts)
  | withdraw (accts : WithdrawAccounts)

/-- `process`. -/
def process (env : Env) (w : World) (ctx : Context) : Instruction → Option (Except ProgramError World)
  | .initializeLockupPool => processInitializeLockupPool env w
  | .lockup accts metadata amount => processLockup env w accts metadata amount ctx
  | .unlock accts => processUnlock env w accts ctx
  | .withdraw accts => processWithdraw env w accts ctx

/-- One successful instruction. -/
def Step (env : Env) (w w' : World) : Prop :=
  ∃ ctx ix, process env w ctx ix = some (.ok w')

/-- The states a sequence of successful instructions leads to. -/
def Reachable (env : Env) (w₀ : World) : World → Prop := Relation.ReflTransGen (Step env) w₀

end Agave.Lockup
