import Agave.Sdk.Basic

/-!
# Sanitized messages

The part of `SanitizedMessage` (`sdk/program/src/message/sanitized.rs`) that the modelled
runtime code reads: the resolved account keys, the header's signer count, the compiled
instructions, and the write-lock cache that `LegacyMessage::new` and `LoadedMessage::new`
compute once when the message is built. `is_writable` of both variants only reads that cache,
so the cache is the field here and its computation is left to the modules that need it.

The structure carries what `Message::sanitize` has established by the time a message is
sanitized: at least one signer (the writable fee payer), no more signers than keys, and every
program id index in range, which is what lets `program_instructions_iter` index without a
panic.
-/

namespace Agave

/-- `CompiledInstruction`: a program id index, the account indices and the data bytes. -/
structure CompiledInstruction where
  programIdIndex : UInt8
  accounts : List UInt8
  data : List UInt8
  deriving DecidableEq, Repr

/-- The one field of `MessageHeader` the modelled code reads. -/
structure MessageHeader where
  numRequiredSignatures : UInt8
  deriving DecidableEq, Repr

/-- `secp256k1_program::id()`, `KeccakSecp256k11111111111111111111111111111`. -/
def secp256k1ProgramId : Pubkey :=
  ⟨0x04c6fc20f050ccf05584d7211c9f8cf59ec14785bb166a1e2830e81220000000#256⟩

/-- `ed25519_program::id()`, `Ed25519SigVerify111111111111111111111111111`. -/
def ed25519ProgramId : Pubkey :=
  ⟨0x037d46d67c93fbbe12f9428f838d40ff0570744927f48a64fcca704480000000#256⟩

/-- A sanitized message, resolved: `account_keys()` lists the static keys followed by the keys
loaded from lookup tables. -/
structure SanitizedMessage where
  header : MessageHeader
  accountKeys : List Pubkey
  instructions : List CompiledInstruction
  isWritableAccountCache : List Bool
  /-- `num_readonly_signed_accounts < num_required_signatures`: there is a fee payer. -/
  numRequiredSignatures_pos : 0 < header.numRequiredSignatures.toNat
  /-- `num_required_signatures + num_readonly_unsigned_accounts <= account_keys.len()`. -/
  numRequiredSignatures_le : header.numRequiredSignatures.toNat ≤ accountKeys.length
  /-- `ci.program_id_index < account_keys.len()` for every instruction. -/
  programIdIndex_lt : ∀ ix ∈ instructions, ix.programIdIndex.toNat < accountKeys.length

namespace SanitizedMessage

/-- `SanitizedMessage::is_writable`: both variants answer from their cache, and an index past
its end is not writable. -/
def isWritable (m : SanitizedMessage) (index : Nat) : Bool :=
  m.isWritableAccountCache.getD index false

/-- `SanitizedMessage::is_signer`. -/
def isSigner (m : SanitizedMessage) (index : Nat) : Bool :=
  index < m.header.numRequiredSignatures.toNat

/-- `program_instructions_iter`: each instruction with the key of its program. -/
def programInstructionsIter (m : SanitizedMessage) : List (Pubkey × CompiledInstruction) :=
  m.instructions.attach.map fun ⟨ix, h⟩ =>
    (m.accountKeys.get ⟨ix.programIdIndex.toNat, m.programIdIndex_lt ix h⟩, ix)

end SanitizedMessage

/-- `TransactionSignatureDetails`: transaction signatures and the precompile signatures that
instructions ask for. -/
structure TransactionSignatureDetails where
  numTransactionSignatures : Nat
  numSecp256k1InstructionSignatures : Nat
  numEd25519InstructionSignatures : Nat
  deriving DecidableEq, Repr

namespace TransactionSignatureDetails

/-- `total_signatures`: every count added up, saturating at `u64::MAX`. -/
def totalSignatures (d : TransactionSignatureDetails) : Nat :=
  saturatingAdd U64_MAX
    (saturatingAdd U64_MAX d.numTransactionSignatures d.numSecp256k1InstructionSignatures)
    d.numEd25519InstructionSignatures

/-- The body of the loop of `get_signature_details`: a secp256k1 or ed25519 instruction adds
its first data byte (the number of signatures it verifies) to the matching count. -/
def countInstruction (d : TransactionSignatureDetails) :
    Pubkey × CompiledInstruction → TransactionSignatureDetails
  | (programId, ix) =>
    if programId = secp256k1ProgramId then
      match ix.data.head? with
      | some numVerifies =>
        { d with numSecp256k1InstructionSignatures :=
            saturatingAdd U64_MAX d.numSecp256k1InstructionSignatures numVerifies.toNat }
      | none => d
    else if programId = ed25519ProgramId then
      match ix.data.head? with
      | some numVerifies =>
        { d with numEd25519InstructionSignatures :=
            saturatingAdd U64_MAX d.numEd25519InstructionSignatures numVerifies.toNat }
      | none => d
    else d

@[simp] theorem countInstruction_numTransactionSignatures (d : TransactionSignatureDetails)
    (p : Pubkey × CompiledInstruction) :
    (d.countInstruction p).numTransactionSignatures = d.numTransactionSignatures := by
  obtain ⟨programId, ix⟩ := p
  simp only [countInstruction]
  split_ifs
  · cases ix.data.head? <;> rfl
  · cases ix.data.head? <;> rfl
  · rfl

end TransactionSignatureDetails

namespace SanitizedMessage

/-- `get_signature_details`. -/
def getSignatureDetails (m : SanitizedMessage) : TransactionSignatureDetails :=
  m.programInstructionsIter.foldl TransactionSignatureDetails.countInstruction
    { numTransactionSignatures := m.header.numRequiredSignatures.toNat,
      numSecp256k1InstructionSignatures := 0,
      numEd25519InstructionSignatures := 0 }

/-- `num_total_signatures`: required signatures plus precompile signatures. -/
def numTotalSignatures (m : SanitizedMessage) : Nat :=
  m.getSignatureDetails.totalSignatures

theorem getSignatureDetails_numTransactionSignatures (m : SanitizedMessage) :
    m.getSignatureDetails.numTransactionSignatures = m.header.numRequiredSignatures.toNat := by
  unfold getSignatureDetails
  generalize m.programInstructionsIter = l
  suffices ∀ d : TransactionSignatureDetails,
      (l.foldl TransactionSignatureDetails.countInstruction d).numTransactionSignatures =
        d.numTransactionSignatures from this _
  induction l with
  | nil => intro d; rfl
  | cons p ps ih => intro d; simp [List.foldl_cons, ih]

/-- Precompile signatures only ever add to the count: every signer index is below it. -/
theorem numRequiredSignatures_le_numTotalSignatures (m : SanitizedMessage) :
    m.header.numRequiredSignatures.toNat ≤ m.numTotalSignatures := by
  have hmax : m.getSignatureDetails.numTransactionSignatures ≤ U64_MAX := by
    have := m.header.numRequiredSignatures.toNat_lt
    rw [getSignatureDetails_numTransactionSignatures]
    unfold U64_MAX
    omega
  rw [← getSignatureDetails_numTransactionSignatures m]
  unfold numTotalSignatures TransactionSignatureDetails.totalSignatures
  calc m.getSignatureDetails.numTransactionSignatures
      ≤ saturatingAdd U64_MAX m.getSignatureDetails.numTransactionSignatures
          m.getSignatureDetails.numSecp256k1InstructionSignatures := le_saturatingAdd_left hmax
    _ ≤ _ := le_saturatingAdd_left (min_le_right _ _)

end SanitizedMessage

end Agave
