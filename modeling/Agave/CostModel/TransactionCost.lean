import Agave.Sdk.Message

/-!
# Cost model: `TransactionCost`

`cost-model/src/transaction_cost.rs` and the constants of `block_cost_limits.rs` that the cost
tracker reads. A transaction's cost is either the fixed cost of a simple vote or the itemised
`UsageCostDetails` of any other transaction, in compute units.

The tracker reads a transaction only through `writable_accounts`, which walks the message's
account keys and keeps those `is_writable` marks; so a message is its keys and that predicate,
over any type of key. The accessors the tracker never calls (`data_bytes_cost`,
`signature_cost`, `write_lock_cost`) are left out.

The one fact the tracker needs of these definitions is that the load and execution part of an
estimate never exceeds the whole estimate (`estimatedLoadAndExecutionUnits_le_sum`), saturation
included: it is what lets `update_execution_cost` take back part of an estimate without a
`saturating_sub` ever truncating.
-/

namespace Agave.CostModel

/-- `COMPUTE_UNIT_TO_US_RATIO`. -/
def COMPUTE_UNIT_TO_US_RATIO : Nat := 30

/-- `MAX_BLOCK_REPLAY_TIME_US`. -/
def MAX_BLOCK_REPLAY_TIME_US : Nat := 400000

/-- `MAX_CONCURRENCY`. -/
def MAX_CONCURRENCY : Nat := 4

/-- `MAX_BLOCK_UNITS`. -/
def MAX_BLOCK_UNITS : Nat := MAX_BLOCK_REPLAY_TIME_US * COMPUTE_UNIT_TO_US_RATIO * MAX_CONCURRENCY

/-- `MAX_WRITABLE_ACCOUNT_UNITS`. -/
def MAX_WRITABLE_ACCOUNT_UNITS : Nat := MAX_BLOCK_REPLAY_TIME_US * COMPUTE_UNIT_TO_US_RATIO

/-- `MAX_VOTE_UNITS`: `(MAX_BLOCK_UNITS as f64 * 0.75_f64) as u64`, which is exact. -/
def MAX_VOTE_UNITS : Nat := MAX_BLOCK_UNITS * 3 / 4

/-- `MAX_BLOCK_ACCOUNTS_DATA_SIZE_DELTA`. -/
def MAX_BLOCK_ACCOUNTS_DATA_SIZE_DELTA : Nat := 100000000

/-- `vote_processor::DEFAULT_COMPUTE_UNITS`. -/
def DEFAULT_COMPUTE_UNITS : Nat := 2100

/-- `SIMPLE_VOTE_USAGE_COST`. -/
def SIMPLE_VOTE_USAGE_COST : Nat := 3428

/-- The part of an `SVMMessage` that `writable_accounts` reads. -/
structure SVMMessage (α : Type) where
  accountKeys : List α
  isWritable : Nat → Bool

/-- `UsageCostDetails`. -/
structure UsageCostDetails (α : Type) where
  transaction : SVMMessage α
  signatureCost : Nat
  writeLockCost : Nat
  dataBytesCost : Nat
  programsExecutionCost : Nat
  loadedAccountsDataSizeCost : Nat
  allocatedAccountsDataSize : Nat
  signatureDetails : TransactionSignatureDetails

/-- `UsageCostDetails::sum`: the five costs, added with `saturating_add` from the left. -/
def UsageCostDetails.sum {α : Type} (u : UsageCostDetails α) : Nat :=
  saturatingAdd U64_MAX
    (saturatingAdd U64_MAX
      (saturatingAdd U64_MAX (saturatingAdd U64_MAX u.signatureCost u.writeLockCost)
        u.dataBytesCost)
      u.programsExecutionCost)
    u.loadedAccountsDataSizeCost

/-- `TransactionCost`. -/
inductive TransactionCost (α : Type) where
  | simpleVote (transaction : SVMMessage α)
  | transaction (usageCost : UsageCostDetails α)

namespace TransactionCost

variable {α : Type}

/-- `sum`. -/
def sum : TransactionCost α → Nat
  | simpleVote _ => SIMPLE_VOTE_USAGE_COST
  | transaction usageCost => usageCost.sum

/-- `programs_execution_cost`. -/
def programsExecutionCost : TransactionCost α → Nat
  | simpleVote _ => DEFAULT_COMPUTE_UNITS
  | transaction usageCost => usageCost.programsExecutionCost

/-- `is_simple_vote`. -/
def isSimpleVote : TransactionCost α → Bool
  | simpleVote _ => true
  | transaction _ => false

/-- `allocated_accounts_data_size`. -/
def allocatedAccountsDataSize : TransactionCost α → Nat
  | simpleVote _ => 0
  | transaction usageCost => usageCost.allocatedAccountsDataSize

/-- `loaded_accounts_data_size_cost`: a simple vote loads less than one 32K page, at 8 units. -/
def loadedAccountsDataSizeCost : TransactionCost α → Nat
  | simpleVote _ => 8
  | transaction usageCost => usageCost.loadedAccountsDataSizeCost

/-- `writable_accounts`: the account keys of the message at the indices it writes, in order. -/
def writableAccounts (c : TransactionCost α) : List α :=
  let message : SVMMessage α :=
    match c with
    | simpleVote message => message
    | transaction usageCost => usageCost.transaction
  message.accountKeys.zipIdx.filterMap fun (key, index) =>
    if message.isWritable index then some key else none

/-- `num_transaction_signatures`. -/
def numTransactionSignatures : TransactionCost α → Nat
  | simpleVote _ => 1
  | transaction usageCost => usageCost.signatureDetails.numTransactionSignatures

/-- `num_secp256k1_instruction_signatures`. -/
def numSecp256k1InstructionSignatures : TransactionCost α → Nat
  | simpleVote _ => 0
  | transaction usageCost => usageCost.signatureDetails.numSecp256k1InstructionSignatures

/-- `num_ed25519_instruction_signatures`. -/
def numEd25519InstructionSignatures : TransactionCost α → Nat
  | simpleVote _ => 0
  | transaction usageCost => usageCost.signatureDetails.numEd25519InstructionSignatures

/-- `estimated_load_and_execution_units` of `update_execution_cost`: the estimate's execution
and account-loading costs, `saturating_add`ed. -/
def estimatedLoadAndExecutionUnits (c : TransactionCost α) : Nat :=
  saturatingAdd U64_MAX c.programsExecutionCost c.loadedAccountsDataSizeCost

/-- The load and execution part of an estimate is part of its sum. Once any addition of
`UsageCostDetails::sum` saturates, every later one stays at `u64::MAX`, so the bound survives
saturation. -/
theorem estimatedLoadAndExecutionUnits_le_sum (c : TransactionCost α) :
    c.estimatedLoadAndExecutionUnits ≤ c.sum := by
  cases c with
  | simpleVote message =>
    show saturatingAdd U64_MAX DEFAULT_COMPUTE_UNITS 8 ≤ SIMPLE_VOTE_USAGE_COST
    decide
  | transaction u =>
    simp only [estimatedLoadAndExecutionUnits, sum, UsageCostDetails.sum, programsExecutionCost,
      loadedAccountsDataSizeCost, saturatingAdd]
    omega

end TransactionCost

end Agave.CostModel
