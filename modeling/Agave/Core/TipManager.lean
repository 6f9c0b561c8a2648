import Agave.Sdk.Transaction
import Agave.Lib.Slice

/-!
# The tip programs' crank of `TipManager`

`core/src/tip_manager.rs`, with the account metas of the instructions it builds: the funnel's
`become_receiver::account_metas` (`paladin-programs/funnel/.../become_receiver/api.rs`) and the
Anchor accounts of the tip-payment and tip-distribution programs. A leader asks
`get_tip_programs_crank_bundle` for the transactions that create this epoch's tip-distribution
account and point the tip-payment program at it and at its block builder. With a funnel
configured, the change goes through the funnel's `BecomeReceiver`, which pays the funnel its take
of the rewards earned since the leader last paid (`compute_additional_lamports`) and records the
slot in a `LeaderState` account that `highest_paid` reads back at the next crank.

Two things go wrong with a funnel (`funnel_crank_panics_and_misses_leader_state`):
* `become_receiver::account_metas` marks `paladin_receiver_new` a signer, and the crank passes
  the epoch's tip-distribution PDA there, which no keypair owns; only the identity keypair signs,
  so `Transaction::new_signed_with_payer` panics with `NotEnoughSigners`
  (`getTipProgramsCrankBundle_eq_none_of_funnel`);
* the program keys the `LeaderState` on that new receiver, while `highest_paid` looks it up by
  the identity, so the slot the program records is not the one read back
  (`highestPaid_becomeReceiverLeaderState`).

An account's data is modelled by what the deserializers the crank calls read out of it. The
addresses the crank derives with `Pubkey::find_program_address`, a search over SHA-256 images, are
parameters (`ProgramAddresses`), and so are the bank's epoch schedule and rent, the leader
schedule and the blockstore's rewards. The `unwrap`s of `SanitizedTransaction::try_create` and
`try_from_legacy_transaction` are taken to succeed, and the bundle id, a hash of the signatures,
is left out. A panic is `none`.
-/

namespace Agave.Core

/-! ### Program ids and instruction data -/

/-- `system_program::ID`, the all-zero key. -/
def SYSTEM_PROGRAM_ID : Pubkey := default

/-- `funnel::ID`, `5rdqfu3FwVWEgY7R7pQSA52cocbWnAEvnoi4bej9EAT5`. -/
def FUNNEL_ID : Pubkey :=
  ⟨0x4825dc8bd4bd9dc92ee4adb61e3e85a045a155d1f8ff7302ba9b29db0877ae34#256⟩

/-- `JITO_TIP_PAYMENT_PROGRAM`, `T1pyyaTNZsKv2WcRAB8oVnk93mLJw2XzjtVYqCsaHqt`. -/
def JITO_TIP_PAYMENT_PROGRAM : Pubkey :=
  ⟨0x06aa09548b50476ad462f91f89a3015033264fc9abd5270020a9d142334742fb#256⟩

/-- `JITO_TIP_PAYMENT_CONFIG`, `HgzT81VF1xZ3FT9Eq1pHhea7Wcfq2bv4tWTP3VvJ8Y9D`. -/
def JITO_TIP_PAYMENT_CONFIG : Pubkey :=
  ⟨0xf7f99a0942fac788054943abbcf946b1f9b916cbe10aedcfa9967665371ca280#256⟩

/-- `JITO_TIP_ACCOUNT_0` to `JITO_TIP_ACCOUNT_7`, in order. -/
def JITO_TIP_ACCOUNTS : List Pubkey :=
  [⟨0x78521cb179cebb8589b556a2d5ec94d2498682fdf9bb2af5ad64e491cc4153da#256⟩,
   ⟨0xf187ec87d1f745cb3a03384a26a69eda0ca2d1aa0f41e42416377e91ff5b5d31#256⟩,
   ⟨0xb14e0de55e9fba86396ebfd548cff8c92011eac7b75baa9b2d9c6a86f5a17141#256⟩,
   ⟨0x88f1ffa3a2dfe617bdc4e3573251a322e3fcae81e5a457390e64751c00a465e2#256⟩,
   ⟨0xbc2b57065ef1dd665430be606ba6596c0295301badef8b5afc41014150f41274#256⟩,
   ⟨0x89077d55a5bb1330763eb767f55ec077b41a0d075f7de1d73fbaca3c63d55471#256⟩,
   ⟨0xbf971b59108b5b85a04fb093f1e21b4e3fd4c4c8f487dd09b95752769f0dd8c3#256⟩,
   ⟨0x2026101ec20328964a32abab136c5405b91f3ae38ee4f64cb6bde879b86838d2#256⟩]

/-- The Anchor discriminator of `initialize_tip_distribution_account`: the first eight bytes of
the SHA-256 of `global:initialize_tip_distribution_account`. -/
def INITIALIZE_TIP_DISTRIBUTION_ACCOUNT_DISCRIMINATOR : List UInt8 :=
  [120, 191, 25, 182, 111, 49, 179, 55]

/-- The Anchor discriminator of `change_block_builder`. -/
def CHANGE_BLOCK_BUILDER_DISCRIMINATOR : List UInt8 := [134, 80, 38, 137, 165, 21, 114, 123]

/-- The Anchor discriminator of `change_tip_receiver`. -/
def CHANGE_TIP_RECEIVER_DISCRIMINATOR : List UInt8 := [69, 99, 22, 71, 11, 231, 86, 143]

/-- `LeaderState::LEN`: one `u64`. -/
def LEADER_STATE_LEN : Nat := 8

/-! ### Accounts and the bank -/

/-- The tip-payment program's `Config`, as `Config::try_deserialize` reads it. -/
structure Config where
  tipReceiver : Pubkey
  blockBuilder : Pubkey
  blockBuilderCommissionPct : Nat
  deriving DecidableEq, Repr

/-- `FunnelConfig`. -/
structure FunnelConfig where
  stakersReceiver : Pubkey
  holdersReceiver : Pubkey
  deriving DecidableEq, Repr

/-- `Funnel`. -/
structure Funnel where
  receiver : Pubkey
  config : FunnelConfig
  deriving DecidableEq, Repr

/-- `LeaderState`. -/
structure LeaderState where
  lastSlot : Nat
  deriving DecidableEq, Repr

/-- An account's data, as what the deserializers the crank calls read out of it. -/
inductive AccountData where
  | config (config : Config)
  | funnel (funnel : Funnel)
  | leaderState (state : LeaderState)
  | other
  deriving DecidableEq, Repr

/-- The fields of an `AccountSharedData` the crank reads. -/
structure Account where
  lamports : Nat
  owner : Pubkey
  dataLen : Nat
  data : AccountData
  deriving DecidableEq, Repr

/-- `AccountSharedData::default()`. -/
instance : Inhabited Account := ⟨⟨0, default, 0, .other⟩⟩

/-- The part of a `Bank` the crank reads. -/
structure Bank where
  slot : Nat
  epoch : Nat
  lastBlockhash : Hash
  getAccount : Pubkey → Option Account
  /-- `epoch_schedule().get_first_slot_in_epoch`. -/
  firstSlotInEpoch : Nat → Nat
  /-- `get_epoch_and_slot_index`. -/
  epochAndSlotIndex : Nat → Nat × Nat
  /-- `rent_collector().rent.minimum_balance`. -/
  minimumBalance : Nat → Nat

/-- `Bank::get_balance`. -/
def Bank.getBalance (bank : Bank) (key : Pubkey) : Nat :=
  ((bank.getAccount key).map (·.lamports)).getD 0

/-- The two `Pubkey::find_program_address` derivations the crank makes. -/
structure ProgramAddresses where
  /-- `derive_tip_distribution_account_address(program_id, vote_account, epoch)`. -/
  tipDistributionAccount : Pubkey → Pubkey → Nat → Pubkey × UInt8
  /-- `funnel::find_leader_state(leader).0`. -/
  leaderState : Pubkey → Pubkey

/-! ### The tip manager -/

/-- `TipPaymentProgramInfo`, without the bumps. -/
structure TipPaymentProgramInfo where
  programId : Pubkey
  configPda : Pubkey
  tipPda0 : Pubkey
  tipPda1 : Pubkey
  tipPda2 : Pubkey
  tipPda3 : Pubkey
  tipPda4 : Pubkey
  tipPda5 : Pubkey
  tipPda6 : Pubkey
  tipPda7 : Pubkey

/-- The eight tip payment accounts, in order. -/
def TipPaymentProgramInfo.tipPdas (info : TipPaymentProgramInfo) : List Pubkey :=
  [info.tipPda0, info.tipPda1, info.tipPda2, info.tipPda3, info.tipPda4, info.tipPda5,
    info.tipPda6, info.tipPda7]

/-- `TipDistributionProgramInfo`, without the bump. -/
structure TipDistributionProgramInfo where
  programId : Pubkey
  configPda : Pubkey

/-- `TipDistributionAccountConfig`. -/
structure TipDistributionAccountConfig where
  merkleRootUploadAuthority : Pubkey
  voteAccount : Pubkey
  commissionBps : Nat

/-- `TipManager`. `rewards` is `ReadRewards::read_rewards`, `identity` is `cluster_info.id()`,
and `leaderSchedule` is `get_epoch_leader_schedule` read through `get_index()`: each key's leader
slot offsets in the epoch, ascending. -/
structure TipManager where
  rewards : Nat → Nat
  rewardsSplit : Option (Nat × Nat)
  identity : Pubkey
  leaderSchedule : Nat → Option (Pubkey → List Nat)
  funnel : Option Pubkey
  tipPaymentProgramInfo : TipPaymentProgramInfo
  tipDistributionProgramInfo : TipDistributionProgramInfo
  tipDistributionAccountConfig : TipDistributionAccountConfig

/-- `BlockBuilderFeeInfo`. -/
structure BlockBuilderFeeInfo where
  blockBuilder : Pubkey
  blockBuilderCommission : Nat

/-- The `TipError`s the crank raises. -/
inductive TipError where
  | accountMissing (key : Pubkey)
  | anchorError
  deriving DecidableEq, Repr

/-- `SanitizedBundle`, without its id. -/
structure SanitizedBundle where
  transactions : List Transaction

/-- `calculate_funnel_take`: a tenth of the rewards. -/
def calculateFunnelTake (reward : Nat) : Nat := reward / 10

/-! ### Instructions -/

/-- `system_instruction::transfer`: bincode's `u32` tag 2 of `SystemInstruction::Transfer`, then
the lamports. -/
def transfer (fromPubkey toPubkey : Pubkey) (lamports : Nat) : Instruction :=
  ⟨SYSTEM_PROGRAM_ID, [⟨fromPubkey, true, true⟩, ⟨toPubkey, false, true⟩],
    toLeBytes 4 2 ++ toLeBytes 8 lamports⟩

/-- `initialize_tip_distribution_account_ix`: the accounts of `InitializeTipDistributionAccount`
in their declaration order, the signer paying for the new account. -/
def initializeTipDistributionAccountIx (programId merkleRootUploadAuthority : Pubkey)
    (validatorCommissionBps : Nat) (bump : UInt8)
    (config tipDistributionAccount systemProgram signer validatorVoteAccount : Pubkey) :
    Instruction :=
  ⟨programId,
    [⟨config, false, false⟩, ⟨tipDistributionAccount, false, true⟩,
      ⟨validatorVoteAccount, false, false⟩, ⟨signer, true, true⟩, ⟨systemProgram, false, false⟩],
    INITIALIZE_TIP_DISTRIBUTION_ACCOUNT_DISCRIMINATOR ++ merkleRootUploadAuthority.toBytes ++
      toLeBytes 2 validatorCommissionBps ++ [bump]⟩

/-- `accounts::ChangeTipReceiver { .. }.to_account_metas(None)`: all writable, the last the
signer. -/
def changeTipReceiverAccountMetas (config oldTipReceiver newTipReceiver blockBuilder : Pubkey)
    (tipPaymentAccounts : List Pubkey) (signer : Pubkey) : List AccountMeta :=
  ([config, oldTipReceiver, newTipReceiver, blockBuilder] ++ tipPaymentAccounts).map
    (fun key => ⟨key, false, true⟩) ++ [⟨signer, true, true⟩]

/-- `accounts::ChangeBlockBuilder { .. }.to_account_metas(None)`: all writable, the last the
signer. -/
def changeBlockBuilderAccountMetas (config tipReceiver oldBlockBuilder newBlockBuilder : Pubkey)
    (tipPaymentAccounts : List Pubkey) (signer : Pubkey) : List AccountMeta :=
  ([config, tipReceiver, oldBlockBuilder, newBlockBuilder] ++ tipPaymentAccounts).map
    (fun key => ⟨key, false, true⟩) ++ [⟨signer, true, true⟩]

/-- `BecomeReceiverAccounts`. -/
structure BecomeReceiverAccounts where
  payer : Pubkey
  funnelConfig : Pubkey
  blockBuilderOld : Pubkey
  tipReceiverOld : Pubkey
  paladinReceiverOld : Pubkey
  paladinReceiverNew : Pubkey
  paladinReceiverNewState : Pubkey

/-- `become_receiver::account_metas`. The new receiver signs, beside the payer. -/
def becomeReceiverAccountMetas (accounts : BecomeReceiverAccounts) (config : FunnelConfig) :
    List AccountMeta :=
  [⟨SYSTEM_PROGRAM_ID, false, false⟩, ⟨accounts.funnelConfig, false, true⟩,
    ⟨config.stakersReceiver, false, true⟩, ⟨config.holdersReceiver, false, true⟩,
    ⟨accounts.paladinReceiverOld, false, true⟩, ⟨accounts.paladinReceiverNew, true, true⟩,
    ⟨accounts.paladinReceiverNewState, false, true⟩, ⟨JITO_TIP_PAYMENT_CONFIG, false, true⟩,
    ⟨accounts.tipReceiverOld, false, true⟩, ⟨accounts.funnelConfig, false, true⟩,
    ⟨accounts.blockBuilderOld, false, true⟩] ++
  JITO_TIP_ACCOUNTS.map (fun key => ⟨key, false, true⟩) ++
  [⟨accounts.payer, true, true⟩, ⟨JITO_TIP_PAYMENT_PROGRAM, false, false⟩]

/-- `become_receiver::ix`: the borsh encoding of `FunnelInstruction::BecomeReceiver`, variant 1,
with the new receiver and the prepaid lamports. -/
def becomeReceiverIx (accounts : BecomeReceiverAccounts) (config : FunnelConfig)
    (additionalLamports : Nat) : Instruction :=
  ⟨FUNNEL_ID, becomeReceiverAccountMetas accounts config,
    1 :: accounts.paladinReceiverNew.toBytes ++ toLeBytes 8 additionalLamports⟩

/-! ### The funnel's record of the leader -/

/-- `highest_paid`: the last slot the `LeaderState` at `find_leader_state(identity)` records. -/
def highestPaid (pda : ProgramAddresses) (bank : Bank) (identity : Pubkey) : Option Nat :=
  (bank.getAccount (pda.leaderState identity)).bind fun account =>
    match account.data with
    | .leaderState state => some state.lastSlot
    | _ => none

/-- The last step of the funnel's `become_receiver::process`: the account at
`find_leader_state(receiver_new)` is topped up to rent exemption and assigned to the funnel if it
is not the funnel's yet, and its `last_slot` set to the clock's slot. -/
def becomeReceiverLeaderState (pda : ProgramAddresses) (bank : Bank) (receiverNew : Pubkey) :
    Bank :=
  let key := pda.leaderState receiverNew
  let existing := (bank.getAccount key).getD default
  let lamports :=
    if existing.owner ≠ FUNNEL_ID then max existing.lamports (bank.minimumBalance LEADER_STATE_LEN)
    else existing.lamports
  let account : Account := ⟨lamports, FUNNEL_ID, LEADER_STATE_LEN, .leaderState ⟨bank.slot⟩⟩
  { bank with getAccount := Function.update bank.getAccount key (some account) }

namespace TipManager

/-! ### Reading the bank -/

/-- `get_tip_payment_config_account`. -/
def getTipPaymentConfigAccount (tm : TipManager) (bank : Bank) : Except TipError Config :=
  match bank.getAccount tm.tipPaymentProgramInfo.configPda with
  | none => .error (.accountMissing tm.tipPaymentProgramInfo.configPda)
  | some account =>
    match account.data with
    | .config config => .ok config
    | _ => .error .anchorError

/-- `get_funnel_account`. -/
def getFunnelAccount (bank : Bank) (funnel : Pubkey) : Except TipError Funnel :=
  match bank.getAccount funnel with
  | none => .error (.accountMissing funnel)
  | some account =>
    match account.data with
    | .funnel funnelAccount => .ok funnelAccount
    | _ => .error .anchorError

/-- `get_my_tip_distribution_pda`. -/
def getMyTipDistributionPda (tm : TipManager) (pda : ProgramAddresses) (epoch : Nat) : Pubkey :=
  (pda.tipDistributionAccount tm.tipDistributionProgramInfo.programId
    tm.tipDistributionAccountConfig.voteAccount epoch).1

/-- `should_init_tip_distribution_account`: this epoch's account is missing, or not the program's. -/
def shouldInitTipDistributionAccount (tm : TipManager) (pda : ProgramAddresses) (bank : Bank) :
    Bool :=
  match bank.getAccount (tm.getMyTipDistributionPda pda bank.epoch) with
  | none => true
  | some account => account.owner != tm.tipDistributionProgramInfo.programId

/-! ### The funnel's take -/

/-- The loop of `compute_additional_lamports` over the leader's slots: it stops at the current
slot, and `none` is its `return 0` at a slot past it. -/
def outstandingRewards (rewards : Nat → Nat) (currentSlot : Nat) : List Nat → Option Nat
  | [] => some 0
  | slot :: slots =>
    if slot = currentSlot then some 0
    else if slot > currentSlot then none
    else (outstandingRewards rewards currentSlot slots).map (rewards slot + ·)

/-- `compute_additional_lamports`: a tenth of the rewards of the leader's slots before the current
one, from the slot its `LeaderState` records through the previous and the current epoch, or over
the current epoch when there is none; at most what the identity holds above rent exemption. -/
def computeAdditionalLamports (tm : TipManager) (pda : ProgramAddresses) (bank : Bank) : Nat :=
  let identity := tm.identity
  let currentSlot := bank.slot
  let currentEpochStartSlot := bank.firstSlotInEpoch bank.epoch
  match bank.epoch with
  | 0 => 0
  | previousEpoch + 1 =>
    let previousEpochStartSlot := bank.firstSlotInEpoch previousEpoch
    match tm.leaderSchedule previousEpoch, tm.leaderSchedule bank.epoch with
    | some previousSchedule, some currentSchedule =>
      let both := [(previousEpochStartSlot, previousSchedule identity),
        (currentEpochStartSlot, currentSchedule identity)]
      let currentOnly := [(currentEpochStartSlot, currentSchedule identity)]
      let (minSlot, offsets) := match highestPaid pda bank identity with
        | some slot => (slot, both)
        | none => (0, currentOnly)
      let slots := (offsets.flatMap fun (startSlot, offsets) =>
        offsets.map (startSlot + ·)).filter (minSlot ≤ ·)
      match outstandingRewards tm.rewards currentSlot slots with
      | none => 0
      | some outstanding =>
        let owing := calculateFunnelTake outstanding
        let identityAccount := (bank.getAccount identity).getD default
        let minRentExemption := bank.minimumBalance identityAccount.dataLen
        min owing (identityAccount.lamports - minRentExemption)
    | _, _ => 0

/-- The backward walk of `compute_previous_leader_slot_lamports`: from `prev` over the offsets
before it, nearest first, for as long as each is one below the last. -/
def runStart (prev : Nat) : List Nat → Nat
  | [] => prev
  | offset :: offsets => if offset ≠ prev - 1 then prev else runStart offset offsets

/-- `compute_previous_leader_slot_lamports`: the rewards of the last run of consecutive leader
slots before the current one. The slice before `index` is not empty, so the default of
`last` is never read. -/
def computePreviousLeaderSlotLamports (tm : TipManager) (bank : Bank) : Nat :=
  let currentSlot := bank.slot
  let (currentEpoch, currentOffset) := bank.epochAndSlotIndex currentSlot
  let epochFirstSlot := bank.firstSlotInEpoch currentEpoch
  match tm.leaderSchedule currentEpoch with
  | none => 0
  | some schedule =>
    let currentLeaderSlots := schedule tm.identity
    let index := Slice.resultIndex
      (Slice.binarySearchBy currentLeaderSlots fun offset => compare offset currentOffset)
    if index = 0 then 0
    else
      let last := currentLeaderSlots[index - 1]?.getD 0
      let prev := runStart last (currentLeaderSlots.take (index - 1)).reverse
      ((List.range' prev (last + 1 - prev)).map fun offset =>
        let slot := epochFirstSlot + offset
        if slot > currentSlot then 0 else tm.rewards slot).sum

/-! ### The transactions -/

/-- `initialize_tip_distribution_account_tx`. -/
def initializeTipDistributionAccountTx (tm : TipManager) (pda : ProgramAddresses) (bank : Bank)
    (kp : Keypair) : Option Transaction :=
  let (tipDistributionAccount, bump) := pda.tipDistributionAccount
    tm.tipDistributionProgramInfo.programId tm.tipDistributionAccountConfig.voteAccount bank.epoch
  let ix := initializeTipDistributionAccountIx tm.tipDistributionProgramInfo.programId
    tm.tipDistributionAccountConfig.merkleRootUploadAuthority
    tm.tipDistributionAccountConfig.commissionBps bump tm.tipDistributionProgramInfo.configPda
    tipDistributionAccount SYSTEM_PROGRAM_ID kp.pubkey tm.tipDistributionAccountConfig.voteAccount
  Transaction.newSignedWithPayer [ix] (some kp.pubkey) [kp] bank.lastBlockhash

/-- `build_become_receiver_tx`: the funnel's `BecomeReceiver`, then the tip-payment program's
`ChangeBlockBuilder` with the funnel as the tip receiver, signed by the keypair alone. -/
def buildBecomeReceiverTx (tm : TipManager) (pda : ProgramAddresses)
    (oldTipReceiver newFunnelReceiver : Pubkey) (bank : Bank) (keypair : Keypair)
    (oldBlockBuilder blockBuilder : Pubkey) (blockBuilderCommission : Nat) (funnel : Funnel)
    (funnelKey : Pubkey) : Option Transaction :=
  let additionalLamports := tm.computeAdditionalLamports pda bank
  let becomeReceiver := becomeReceiverIx
    ⟨keypair.pubkey, funnelKey, oldBlockBuilder, oldTipReceiver, funnel.receiver,
      newFunnelReceiver, pda.leaderState newFunnelReceiver⟩
    funnel.config additionalLamports
  let changeBlockBuilderIx : Instruction :=
    ⟨tm.tipPaymentProgramInfo.programId,
      changeBlockBuilderAccountMetas tm.tipPaymentProgramInfo.configPda funnelKey oldBlockBuilder
        blockBuilder tm.tipPaymentProgramInfo.tipPdas keypair.pubkey,
      CHANGE_BLOCK_BUILDER_DISCRIMINATOR ++ toLeBytes 8 blockBuilderCommission⟩
  Transaction.newSignedWithPayer [becomeReceiver, changeBlockBuilderIx] (some keypair.pubkey)
    [keypair] bank.lastBlockhash

/-- `build_change_tip_receiver_and_block_builder_tx`: `ChangeTipReceiver`, `ChangeBlockBuilder`,
and, with a rewards split set, a transfer of that share of the previous leader run's rewards to
the first tip account when the identity can spare it. -/
def buildChangeTipReceiverAndBlockBuilderTx (tm : TipManager)
    (oldTipReceiver newTipReceiver : Pubkey) (bank : Bank) (keypair : Keypair)
    (oldBlockBuilder blockBuilder : Pubkey) (blockBuilderCommission : Nat) : Option Transaction :=
  let info := tm.tipPaymentProgramInfo
  let changeTipIx : Instruction :=
    ⟨info.programId,
      changeTipReceiverAccountMetas info.configPda oldTipReceiver newTipReceiver oldBlockBuilder
        info.tipPdas keypair.pubkey,
      CHANGE_TIP_RECEIVER_DISCRIMINATOR⟩
  let changeBlockBuilderIx : Instruction :=
    ⟨info.programId,
      changeBlockBuilderAccountMetas info.configPda newTipReceiver oldBlockBuilder blockBuilder
        info.tipPdas keypair.pubkey,
      CHANGE_BLOCK_BUILDER_DISCRIMINATOR ++ toLeBytes 8 blockBuilderCommission⟩
  let splitIxs := tm.rewardsSplit.toList.filterMap fun (minimumSol, splitBp) =>
    let splitBp := min splitBp 10000
    let availableBalance := bank.getBalance keypair.pubkey - minimumSol
    if availableBalance = 0 then none
    else
      let previousRewards := tm.computePreviousLeaderSlotLamports bank
      let lamports := min (min (previousRewards * splitBp) U64_MAX / 10000) availableBalance
      if lamports = 0 then none else some (transfer keypair.pubkey info.tipPda0 lamports)
  Transaction.newSignedWithPayer ([changeTipIx, changeBlockBuilderIx] ++ splitIxs)
    (some keypair.pubkey) [keypair] bank.lastBlockhash

/-- `change_tip_receiver_and_block_builder_tx`: through the funnel when one is configured. -/
def changeTipReceiverAndBlockBuilderTx (tm : TipManager) (pda : ProgramAddresses)
    (newTipReceiver : Pubkey) (bank : Bank) (keypair : Keypair) (blockBuilder : Pubkey)
    (blockBuilderCommission : Nat) : Option (Except TipError Transaction) :=
  match tm.getTipPaymentConfigAccount bank with
  | .error err => some (.error err)
  | .ok jitoConfig =>
    match tm.funnel with
    | some funnelKey =>
      match getFunnelAccount bank funnelKey with
      | .error err => some (.error err)
      | .ok funnel =>
        (tm.buildBecomeReceiverTx pda jitoConfig.tipReceiver newTipReceiver bank keypair
          jitoConfig.blockBuilder blockBuilder blockBuilderCommission funnel funnelKey).map .ok
    | none =>
      (tm.buildChangeTipReceiverAndBlockBuilderTx jitoConfig.tipReceiver newTipReceiver bank
        keypair jitoConfig.blockBuilder blockBuilder blockBuilderCommission).map .ok

/-- `requires_updating`, given the configured receiver of the funnel when there is one. -/
def requiresUpdating (tipPaymentConfig : Config) (myTipReceiver : Pubkey)
    (blockBuilderFeeInfo : BlockBuilderFeeInfo) : Option (Pubkey × Pubkey) → Bool
  | some (funnel, configuredFunnelReceiver) =>
    tipPaymentConfig.tipReceiver != funnel || configuredFunnelReceiver != myTipReceiver ||
      tipPaymentConfig.blockBuilder != blockBuilderFeeInfo.blockBuilder ||
      tipPaymentConfig.blockBuilderCommissionPct != blockBuilderFeeInfo.blockBuilderCommission
  | none =>
    tipPaymentConfig.tipReceiver != myTipReceiver ||
      tipPaymentConfig.blockBuilder != blockBuilderFeeInfo.blockBuilder ||
      tipPaymentConfig.blockBuilderCommissionPct != blockBuilderFeeInfo.blockBuilderCommission

/-- `get_tip_programs_crank_bundle`. The initialization transaction is built, and signed, before
anything can fail. -/
def getTipProgramsCrankBundle (tm : TipManager) (pda : ProgramAddresses) (bank : Bank)
    (keypair : Keypair) (blockBuilderFeeInfo : BlockBuilderFeeInfo) :
    Option (Except TipError (Option SanitizedBundle)) :=
  let maybeInitTipDistroAccountTx : Option (Option Transaction) :=
    if tm.shouldInitTipDistributionAccount pda bank then
      (tm.initializeTipDistributionAccountTx pda bank keypair).map some
    else some none
  maybeInitTipDistroAccountTx.bind fun maybeInitTipDistroAccountTx =>
  match tm.getTipPaymentConfigAccount bank with
  | .error err => some (.error err)
  | .ok tipPaymentConfig =>
    let myTipReceiver := tm.getMyTipDistributionPda pda bank.epoch
    let configuredFunnel : Except TipError (Option (Pubkey × Pubkey)) :=
      match tm.funnel with
      | some funnel => (getFunnelAccount bank funnel).map fun f => some (funnel, f.receiver)
      | none => .ok none
    match configuredFunnel with
    | .error err => some (.error err)
    | .ok configuredFunnel =>
      let maybeChangeTipReceiverTx : Option (Except TipError (Option Transaction)) :=
        if requiresUpdating tipPaymentConfig myTipReceiver blockBuilderFeeInfo configuredFunnel
        then
          (tm.changeTipReceiverAndBlockBuilderTx pda myTipReceiver bank keypair
            blockBuilderFeeInfo.blockBuilder blockBuilderFeeInfo.blockBuilderCommission).map
            (Except.map some)
        else some (.ok none)
      maybeChangeTipReceiverTx.map fun result => result.map fun maybeChangeTipReceiverTx =>
        let transactions := [maybeInitTipDistroAccountTx, maybeChangeTipReceiverTx].reduceOption
        if transactions.isEmpty then none else some ⟨transactions⟩

/-! ### The funnel crank panics -/

/-- `BecomeReceiver` asks for the new receiver's signature. -/
theorem isSignerKey_becomeReceiverIx (accounts : BecomeReceiverAccounts) (config : FunnelConfig)
    (additionalLamports : Nat) (rest : List Instruction) :
    IsSignerKey (becomeReceiverIx accounts config additionalLamports :: rest)
      accounts.paladinReceiverNew :=
  ⟨_, List.mem_cons_self, ⟨accounts.paladinReceiverNew, true, true⟩,
    by simp [becomeReceiverIx, becomeReceiverAccountMetas], rfl, rfl⟩

/-- Signed by the keypair alone, the funnel's transaction panics unless the new receiver is the
keypair's own key. -/
theorem buildBecomeReceiverTx_eq_none {tm : TipManager} {pda : ProgramAddresses}
    {oldTipReceiver newFunnelReceiver : Pubkey} {bank : Bank} {keypair : Keypair}
    {oldBlockBuilder blockBuilder : Pubkey} {blockBuilderCommission : Nat} {funnel : Funnel}
    {funnelKey : Pubkey} (hkey : newFunnelReceiver ≠ keypair.pubkey) :
    tm.buildBecomeReceiverTx pda oldTipReceiver newFunnelReceiver bank keypair oldBlockBuilder
      blockBuilder blockBuilderCommission funnel funnelKey = none := by
  unfold buildBecomeReceiverTx
  apply Transaction.newSignedWithPayer_eq_none_of_signer (Or.inl (isSignerKey_becomeReceiverIx _ _ _ _))
  intro keypair' hkeypair'
  rw [List.mem_singleton.mp hkeypair']
  exact Ne.symm hkey

/-- With a funnel whose account is there, changing the tip receiver to anything but the keypair's
own key panics. -/
theorem changeTipReceiverAndBlockBuilderTx_eq_none_of_funnel {tm : TipManager}
    {pda : ProgramAddresses} {newTipReceiver : Pubkey} {bank : Bank} {keypair : Keypair}
    {blockBuilder : Pubkey} {blockBuilderCommission : Nat} {funnelKey : Pubkey} {config : Config}
    {funnel : Funnel} (hfunnel : tm.funnel = some funnelKey)
    (hconfig : tm.getTipPaymentConfigAccount bank = .ok config)
    (hfunnelAccount : getFunnelAccount bank funnelKey = .ok funnel)
    (hkey : newTipReceiver ≠ keypair.pubkey) :
    tm.changeTipReceiverAndBlockBuilderTx pda newTipReceiver bank keypair blockBuilder
      blockBuilderCommission = none := by
  unfold changeTipReceiverAndBlockBuilderTx
  rw [hconfig, hfunnel]
  simp only [hfunnelAccount, buildBecomeReceiverTx_eq_none hkey, Option.map_none]

/-- With a funnel configured, every crank that finds the tip-payment config and the funnel
account and has something to update panics, the epoch's tip-distribution account being any key
but the keypair's. -/
theorem getTipProgramsCrankBundle_eq_none_of_funnel {tm : TipManager} {pda : ProgramAddresses}
    {bank : Bank} {keypair : Keypair} {blockBuilderFeeInfo : BlockBuilderFeeInfo}
    {funnelKey : Pubkey} {config : Config} {funnel : Funnel} (hfunnel : tm.funnel = some funnelKey)
    (hconfig : tm.getTipPaymentConfigAccount bank = .ok config)
    (hfunnelAccount : getFunnelAccount bank funnelKey = .ok funnel)
    (hupdate : requiresUpdating config (tm.getMyTipDistributionPda pda bank.epoch)
      blockBuilderFeeInfo (some (funnelKey, funnel.receiver)) = true)
    (hkey : tm.getMyTipDistributionPda pda bank.epoch ≠ keypair.pubkey) :
    tm.getTipProgramsCrankBundle pda bank keypair blockBuilderFeeInfo = none := by
  have hchange : tm.changeTipReceiverAndBlockBuilderTx pda (tm.getMyTipDistributionPda pda bank.epoch)
      bank keypair blockBuilderFeeInfo.blockBuilder blockBuilderFeeInfo.blockBuilderCommission =
      none :=
    changeTipReceiverAndBlockBuilderTx_eq_none_of_funnel hfunnel hconfig hfunnelAccount hkey
  unfold getTipProgramsCrankBundle
  simp only [hconfig, hfunnel, hfunnelAccount, Except.map, hupdate, if_true, hchange,
    Option.map_none, Option.bind_fun_none]

/-! ### The funnel's record of the leader is not read back -/

/-- The slot `BecomeReceiver` records sits under the new receiver. -/
theorem highestPaid_becomeReceiverLeaderState_self (pda : ProgramAddresses) (bank : Bank)
    (receiverNew : Pubkey) :
    highestPaid pda (becomeReceiverLeaderState pda bank receiverNew) receiverNew = some bank.slot := by
  simp [highestPaid, becomeReceiverLeaderState]

/-- A leader-state address is a program-derived one: for distinct keys it differs. Then the slot
recorded under a new receiver that is not the identity leaves what `highest_paid` reads for the
identity as it was. -/
theorem highestPaid_becomeReceiverLeaderState {pda : ProgramAddresses}
    (hinjective : Function.Injective pda.leaderState) (bank : Bank) {receiverNew identity : Pubkey}
    (hne : receiverNew ≠ identity) :
    highestPaid pda (becomeReceiverLeaderState pda bank receiverNew) identity =
      highestPaid pda bank identity := by
  have hkey : pda.leaderState identity ≠ pda.leaderState receiverNew :=
    fun h => hne (hinjective h).symm
  simp [highestPaid, becomeReceiverLeaderState, Function.update_of_ne hkey]

/-- Neither what `highest_paid` reads for the identity nor the identity's own account changes
when the slot is recorded under another key, so the next crank's take is computed as if nothing
had been paid. -/
theorem computeAdditionalLamports_becomeReceiverLeaderState {tm : TipManager}
    {pda : ProgramAddresses} (hinjective : Function.Injective pda.leaderState) (bank : Bank)
    {receiverNew : Pubkey} (hne : receiverNew ≠ tm.identity)
    (hidentity : pda.leaderState receiverNew ≠ tm.identity) :
    tm.computeAdditionalLamports pda (becomeReceiverLeaderState pda bank receiverNew) =
      tm.computeAdditionalLamports pda bank := by
  have hpaid := highestPaid_becomeReceiverLeaderState hinjective bank hne
  have haccount : (becomeReceiverLeaderState pda bank receiverNew).getAccount tm.identity =
      bank.getAccount tm.identity := by
    simp [becomeReceiverLeaderState, Function.update_of_ne (Ne.symm hidentity)]
  simp only [computeAdditionalLamports, hpaid, haccount]
  rfl

end TipManager

/-! ### A funnel crank -/

/-- Derived addresses for the crank below: epoch `e`'s tip-distribution account is key `100 + e`,
and a leader's state sits 1000 keys past the leader. -/
def shiftedAddresses : ProgramAddresses :=
  ⟨fun _ _ epoch => (⟨BitVec.ofNat 256 (100 + epoch)⟩, 255),
    fun leader => ⟨leader.toBitVec + 1000#256⟩⟩

/-- A validator `1` that leads at offset 5 of every epoch, earning 100 lamports a slot, with the
funnel `2`. -/
def funnelTipManager : TipManager where
  rewards := fun _ => 100
  rewardsSplit := none
  identity := ⟨1#256⟩
  leaderSchedule := fun _ => some fun key => if key = ⟨1#256⟩ then [5] else []
  funnel := some ⟨2#256⟩
  tipPaymentProgramInfo := ⟨⟨3#256⟩, ⟨4#256⟩, ⟨5#256⟩, ⟨6#256⟩, ⟨7#256⟩, ⟨8#256⟩, ⟨9#256⟩,
    ⟨10#256⟩, ⟨11#256⟩, ⟨12#256⟩⟩
  tipDistributionProgramInfo := ⟨⟨13#256⟩, ⟨14#256⟩⟩
  tipDistributionAccountConfig := ⟨⟨15#256⟩, ⟨16#256⟩, 0⟩

/-- Slot 110, in epoch 1 of 100-slot epochs. The tip-payment config still pays receiver `20`,
the funnel account exists, this epoch's tip-distribution account `101` is the program's, and the
identity holds 1000 lamports. -/
def funnelBank : Bank where
  slot := 110
  epoch := 1
  lastBlockhash := default
  getAccount := fun key =>
    if key = ⟨4#256⟩ then some ⟨0, ⟨3#256⟩, 0, .config ⟨⟨20#256⟩, ⟨21#256⟩, 0⟩⟩
    else if key = ⟨2#256⟩ then
      some ⟨0, FUNNEL_ID, 0, .funnel ⟨⟨20#256⟩, ⟨⟨22#256⟩, ⟨23#256⟩⟩⟩⟩
    else if key = ⟨101#256⟩ then some ⟨0, ⟨13#256⟩, 0, .other⟩
    else if key = ⟨1#256⟩ then some ⟨1000, default, 0, .other⟩
    else none
  firstSlotInEpoch := fun epoch => 100 * epoch
  epochAndSlotIndex := fun slot => (slot / 100, slot % 100)
  minimumBalance := fun _ => 0

/-- Ten slots later, after a `BecomeReceiver` for receiver `101` recorded slot 110. -/
def funnelBankAfterBecomeReceiver : Bank :=
  { becomeReceiverLeaderState shiftedAddresses funnelBank ⟨101#256⟩ with slot := 120 }

/-- With its tip-payment config and funnel accounts in the bank and the funnel not yet the tip
receiver, the funnel crank panics. Had the `BecomeReceiver` gone through, it would have recorded
slot 110 under receiver `101`, where `highest_paid` does not look, and the crank ten slots later
would prepay the funnel's take of slot 105 a second time. -/
theorem funnel_crank_panics_and_misses_leader_state :
    funnelTipManager.getTipPaymentConfigAccount funnelBank = .ok ⟨⟨20#256⟩, ⟨21#256⟩, 0⟩ ∧
    TipManager.getFunnelAccount funnelBank ⟨2#256⟩ =
      .ok ⟨⟨20#256⟩, ⟨⟨22#256⟩, ⟨23#256⟩⟩⟩ ∧
    funnelTipManager.getTipProgramsCrankBundle shiftedAddresses funnelBank ⟨⟨1#256⟩⟩
      ⟨⟨21#256⟩, 0⟩ = none ∧
    funnelTipManager.computeAdditionalLamports shiftedAddresses funnelBank = 10 ∧
    highestPaid shiftedAddresses funnelBankAfterBecomeReceiver ⟨101#256⟩ = some 110 ∧
    highestPaid shiftedAddresses funnelBankAfterBecomeReceiver ⟨1#256⟩ = none ∧
    funnelTipManager.computeAdditionalLamports shiftedAddresses funnelBankAfterBecomeReceiver =
      10 := by
  have hconfig : funnelTipManager.getTipPaymentConfigAccount funnelBank =
      .ok ⟨⟨20#256⟩, ⟨21#256⟩, 0⟩ := rfl
  have hfunnel : TipManager.getFunnelAccount funnelBank ⟨2#256⟩ =
      .ok ⟨⟨20#256⟩, ⟨⟨22#256⟩, ⟨23#256⟩⟩⟩ := rfl
  refine ⟨hconfig, hfunnel, ?_, rfl, rfl, rfl, rfl⟩
  exact TipManager.getTipProgramsCrankBundle_eq_none_of_funnel rfl hconfig hfunnel rfl
    (by decide)

end Agave.Core
