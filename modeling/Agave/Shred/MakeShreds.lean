import Mathlib.Data.List.ModifyLast
import Mathlib.Data.List.SplitBy
import Agave.Lib.CeilDiv
import Agave.Lib.Chunks
import Agave.Lib.FixedPoint
import Agave.Shred.Merkle

/-!
# The data shreds of `make_shreds_from_data`

`make_shreds_from_data` in `shred/merkle.rs`, up to the data shreds and the index of the first
coding shred of each erasure batch, with `get_erasure_batch_size` and `Shredder::deshred` of
`shredder.rs`. The data is cut into erasure batches of 32 shreds filled to capacity while at least
two batches or exactly one are left (`fullBatches`); what is left goes into a last batch
(`lastBatch`), at least one shred long and 32 for the last in the slot, whose proof size is the
first that agrees with the batch it gives (`findProofSize`). The last shred is marked complete,
and the shreds are grouped by erasure batch. The headers are written into the payloads and the
coding shreds, proofs and signatures come after: they are not modelled.

The search for the last proof size always succeeds (`findProofSize_isSome`): the proof size a
batch asks for grows with the proof size tried, since a larger proof leaves less room, and it stays
between 5 and 9 there, so the search has a fixed point (`exists_fixed_point`). The shreds are the
batches of a plan laid out from the first index (`makeDataShreds_eq`), whose pieces join back to
the data.
-/

namespace Agave.Shred

open Chunks

/-- `DATA_SHREDS_PER_FEC_BLOCK`. -/
def DATA_SHREDS_PER_FEC_BLOCK : Nat := 32

/-- `ERASURE_BATCH_SIZE`: for a number of data shreds, the size of the erasure batch with the same
recovery probabilities as a 32:32 one. -/
def ERASURE_BATCH_SIZE : List Nat :=
  [0, 18, 20, 22, 23, 25, 27, 28, 30, 32, 33, 35, 36, 38, 39, 41, 42, 43, 45, 46, 48, 49, 51, 52, 53,
    55, 56, 58, 59, 60, 62, 63, 64]

/-- `get_erasure_batch_size`. -/
def getErasureBatchSize (numDataShreds : Nat) (isLastInSlot : Bool) : Nat :=
  let erasureBatchSize := (ERASURE_BATCH_SIZE[numDataShreds]?).getD (2 * numDataShreds)
  if isLastInSlot then max erasureBatchSize (2 * DATA_SHREDS_PER_FEC_BLOCK) else erasureBatchSize

/-- `merkle::ShredData::SIZE_OF_PAYLOAD`. -/
def SIZE_OF_PAYLOAD : Nat := 1203

/-- `ShredData::SIZE_OF_HEADERS`: `SIZE_OF_DATA_SHRED_HEADERS`. -/
def SIZE_OF_HEADERS : Nat := 88

/-- `SIZE_OF_MERKLE_ROOT`. -/
def SIZE_OF_MERKLE_ROOT : Nat := 32

/-- `SIZE_OF_SIGNATURE`. -/
def SIZE_OF_SIGNATURE : Nat := 64

/-- `legacy::ShredData::CAPACITY`. -/
def LEGACY_CAPACITY : Nat := 1051

/-- `merkle::ShredData::capacity`: the payload past the headers, the chained root, the proof and
the retransmitter's signature. -/
def capacity (proofSize : Nat) (chained resigned : Bool) : Except Error Nat :=
  let headers := SIZE_OF_HEADERS + (if chained then SIZE_OF_MERKLE_ROOT else 0) +
    proofSize * SIZE_OF_MERKLE_PROOF_ENTRY + (if resigned then SIZE_OF_SIGNATURE else 0)
  if headers ≤ SIZE_OF_PAYLOAD then .ok (SIZE_OF_PAYLOAD - headers)
  else .error (.invalidProofSize proofSize)

/-- `ShredFlags::SHRED_TICK_REFERENCE_MASK`. -/
def SHRED_TICK_REFERENCE_MASK : UInt8 := 0b0011_1111

/-- `ShredFlags::DATA_COMPLETE_SHRED`. -/
def DATA_COMPLETE_SHRED : UInt8 := 0b0100_0000

/-- `ShredFlags::LAST_SHRED_IN_SLOT`, which also sets `DATA_COMPLETE_SHRED`. -/
def LAST_SHRED_IN_SLOT : UInt8 := 0b1100_0000

/-- `ShredVariant::MerkleData`. -/
structure ShredVariant where
  proofSize : Nat
  chained : Bool
  resigned : Bool
  deriving DecidableEq, Repr

/-- `ShredCommonHeader`; the signature, default until the batch is signed, is left out. -/
structure ShredCommonHeader where
  shredVariant : ShredVariant
  slot : Nat
  index : Nat
  version : Nat
  fecSetIndex : Nat
  deriving DecidableEq, Repr

/-- `DataShredHeader`. -/
structure DataShredHeader where
  parentOffset : Nat
  flags : UInt8
  size : Nat
  deriving DecidableEq, Repr

/-- `merkle::ShredData`. -/
structure ShredData where
  commonHeader : ShredCommonHeader
  dataHeader : DataShredHeader
  payload : List UInt8
  deriving DecidableEq, Repr

/-- `new_shred_data`: the data copied after the headers into a zeroed payload, and the size set to
where it ends. -/
def newShredData (commonHeader : ShredCommonHeader) (dataHeader : DataShredHeader)
    (data : List UInt8) : ShredData :=
  let size := SIZE_OF_HEADERS + data.length
  let payload :=
    List.replicate SIZE_OF_HEADERS 0 ++ data ++ List.replicate (SIZE_OF_PAYLOAD - size) 0
  ⟨commonHeader, { dataHeader with size }, payload⟩

/-- `ShredData::data`: the payload from the headers up to the size, which must lie within the
payload and within the capacity of the variant. -/
def ShredData.data (shred : ShredData) : Except Error (List UInt8) := do
  let variant := shred.commonHeader.shredVariant
  let dataBufferSize ← capacity variant.proofSize variant.chained variant.resigned
  let size := shred.dataHeader.size
  if size > shred.payload.length ∨ size < SIZE_OF_HEADERS ∨ size > SIZE_OF_HEADERS + dataBufferSize
  then .error (.invalidDataSize size shred.payload.length)
  else .ok ((shred.payload.take size).drop SIZE_OF_HEADERS)

/-- `ShredData::data_complete`. -/
def ShredData.dataComplete (shred : ShredData) : Bool :=
  shred.dataHeader.flags &&& DATA_COMPLETE_SHRED == DATA_COMPLETE_SHRED

/-- `ShredData::last_in_slot`. -/
def ShredData.lastInSlot (shred : ShredData) : Bool :=
  shred.dataHeader.flags &&& LAST_SHRED_IN_SLOT == LAST_SHRED_IN_SLOT

/-- The turns of a `for` loop over the pieces of a batch: a shred for each piece, the index of
the header counting up; and the header after them. -/
def pushShreds (commonHeader : ShredCommonHeader) (dataHeader : DataShredHeader) :
    List (List UInt8) → List ShredData × ShredCommonHeader
  | [] => ([], commonHeader)
  | piece :: rest =>
    let shred := newShredData commonHeader dataHeader piece
    let pushed := pushShreds { commonHeader with index := commonHeader.index + 1 } dataHeader rest
    (shred :: pushed.1, pushed.2)

/-- The `while` loop: an erasure batch of 32 full shreds a turn, while at least two batches or
exactly one are left; the shreds, the header and what is left. -/
def fullBatches (chunkSize dataBufferSize : Nat) (dataHeader : DataShredHeader)
    (commonHeader : ShredCommonHeader) (data : List UInt8) (shreds : List ShredData) :
    List ShredData × ShredCommonHeader × List UInt8 :=
  -- `chunk_size` is 32 times a capacity, never 0
  if _h : 0 < chunkSize ∧ (data.length ≥ 2 * chunkSize ∨ data.length = chunkSize) then
    let commonHeader := { commonHeader with fecSetIndex := commonHeader.index }
    let pushed := pushShreds commonHeader dataHeader (chunks dataBufferSize (data.take chunkSize))
    fullBatches chunkSize dataBufferSize dataHeader pushed.2 (data.drop chunkSize)
      (shreds ++ pushed.1)
  else (shreds, commonHeader, data)
termination_by data.length
decreasing_by
  rw [List.length_drop]
  omega

/-- The `find_map` over the proof sizes `1..32`: the first whose capacity gives a batch, of at
least `minNumDataShreds` shreds, whose erasure batch asks for that proof size; with that capacity
and number of shreds. -/
def findProofSize (chained resigned isLastInSlot : Bool) (dataLen minNumDataShreds : Nat) :
    Option (Nat × Nat × Nat) :=
  (List.range' 1 31).findSome? fun proofSize =>
    match capacity proofSize chained resigned with
    | .error _ => none
    | .ok dataBufferSize =>
      let numDataShreds := (dataLen + dataBufferSize - 1) / dataBufferSize
      let numDataShreds := max numDataShreds minNumDataShreds
      let erasureBatchSize := getErasureBatchSize numDataShreds isLastInSlot
      if proofSize = getProofSize erasureBatchSize then
        some (proofSize, dataBufferSize, numDataShreds)
      else none

/-- \x60data.chunks(data_buffer_size).chain(repeat(&[])).take(num_data_shreds)\x60: the pieces of
the data, padded with empty ones. -/
def paddedChunks (dataBufferSize numDataShreds : Nat) (data : List UInt8) : List (List UInt8) :=
  (chunks dataBufferSize data ++ List.replicate numDataShreds []).take numDataShreds

/-- The last erasure batch, of what the loop left: at least one shred, at least 32 for the last in
the slot, the pieces padded with empty ones; `UnknownProofSize` if no proof size fits. -/
def lastBatch (chained resigned isLastInSlot : Bool) (dataHeader : DataShredHeader)
    (commonHeader : ShredCommonHeader) (data : List UInt8) : Except Error (List ShredData) :=
  let minNumDataShreds := if isLastInSlot then DATA_SHREDS_PER_FEC_BLOCK else 1
  match findProofSize chained resigned isLastInSlot data.length minNumDataShreds with
  | none => .error .unknownProofSize
  | some (proofSize, dataBufferSize, numDataShreds) =>
    let commonHeader := { commonHeader with
      shredVariant := ⟨proofSize, chained, resigned⟩, fecSetIndex := commonHeader.index }
    .ok (pushShreds commonHeader dataHeader (paddedChunks dataBufferSize numDataShreds data)).1

/-- The flag the last shred gets: `LAST_SHRED_IN_SLOT` for the last in the slot, else
`DATA_COMPLETE_SHRED`. -/
def markShred (isLastInSlot : Bool) (shred : ShredData) : ShredData :=
  { shred with dataHeader := { shred.dataHeader with
      flags := shred.dataHeader.flags |||
        if isLastInSlot then LAST_SHRED_IN_SLOT else DATA_COMPLETE_SHRED } }

/-- `shreds.last_mut()`: the flag set on the last shred. -/
def markLastShred (isLastInSlot : Bool) : List ShredData → List ShredData
  | [] => []
  | [shred] => [markShred isLastInSlot shred]
  | shred :: rest => shred :: markLastShred isLastInSlot rest

/-- `group_by(fec_set_index)`: runs of shreds of the same erasure batch. -/
def groupByErasureBatch (shreds : List ShredData) : List (List ShredData) :=
  shreds.splitBy fun a b => a.commonHeader.fecSetIndex == b.commonHeader.fecSetIndex

/-- The `scan` over the batches: the index of the first coding shred of each, counting up by the
coding shreds of the batches before. -/
def codeIndices (isLastInSlot : Bool) : Nat → List (List ShredData) → List Nat
  | _, [] => []
  | nextCodeIndex, batch :: rest =>
    let numDataShreds := batch.length
    let erasureBatchSize := getErasureBatchSize numDataShreds isLastInSlot
    let numCodingShreds := erasureBatchSize - numDataShreds
    nextCodeIndex :: codeIndices isLastInSlot (nextCodeIndex + numCodingShreds) rest

/-- The data-shred stage of `make_shreds_from_data`: the data shreds by erasure batch, and the index
of the first coding shred of each batch. -/
def makeDataShreds (chainedMerkleRoot : Option Hash) (data : List UInt8)
    (slot parentSlot shredVersion : Nat) (referenceTick : UInt8) (isLastInSlot : Bool)
    (nextShredIndex nextCodeIndex : Nat) : Except Error (List (List ShredData) × List Nat) := do
  let chained := chainedMerkleRoot.isSome
  let resigned := chained && isLastInSlot
  let erasureBatchSize := getErasureBatchSize DATA_SHREDS_PER_FEC_BLOCK isLastInSlot
  let proofSize := getProofSize erasureBatchSize
  let dataBufferSize ← capacity proofSize chained resigned
  let chunkSize := DATA_SHREDS_PER_FEC_BLOCK * dataBufferSize
  let commonHeader : ShredCommonHeader :=
    ⟨⟨proofSize, chained, resigned⟩, slot, nextShredIndex, shredVersion, nextShredIndex⟩
  -- `slot.checked_sub(parent_slot)` as a `u16`
  let dataHeader : DataShredHeader ←
    if parentSlot ≤ slot ∧ slot - parentSlot < 2 ^ 16 then
      pure ⟨slot - parentSlot, min SHRED_TICK_REFERENCE_MASK referenceTick, 0⟩
    else throw (.invalidParentSlot slot parentSlot)
  let loop := fullBatches chunkSize dataBufferSize dataHeader commonHeader data []
  let shreds ← if !loop.2.2.isEmpty || loop.1.isEmpty then do
      let shreds := loop.1 ++ (← lastBatch chained resigned isLastInSlot dataHeader loop.2.1 loop.2.2)
      -- `stats.data_buffer_residual` reads the data of the last shred, and fails with it
      let _ ← shreds.getLast?.mapM ShredData.data
      pure shreds
    else pure loop.1
  let batches := groupByErasureBatch (markLastShred isLastInSlot shreds)
  pure (batches, codeIndices isLastInSlot nextCodeIndex batches)

/-- `Shredder::deshred` over data shreds: their data joined, if their indices follow one another
and the last completes the data. -/
def deshred (shreds : List ShredData) : Except Error (List UInt8) :=
  match shreds.head?, shreds.getLast? with
  | some first, some last =>
    let index := first.commonHeader.index
    let aligned := (shreds.zipIdx index).all fun (shred, i) => shred.commonHeader.index == i
    let dataComplete := last.dataComplete || last.lastInSlot
    if !dataComplete || !aligned then .error .tooFewDataShards
    else do
      let data ← shreds.mapM ShredData.data
      let data := data.flatten
      -- for backward compatibility, no data is a legacy shred's capacity of zeros
      if data.isEmpty then pure (List.replicate LEGACY_CAPACITY 0) else pure data
  | _, _ => .error .tooFewDataShards

/-! ## Sizes -/

/-- The room of a payload past the headers, the chained root and the retransmitter's signature:
the capacity before the proof. -/
def room (chained resigned : Bool) : Nat :=
  SIZE_OF_PAYLOAD - SIZE_OF_HEADERS - (if chained then SIZE_OF_MERKLE_ROOT else 0) -
    (if resigned then SIZE_OF_SIGNATURE else 0)

theorem room_bounds (chained resigned : Bool) : 1019 ≤ room chained resigned ∧
    room chained resigned ≤ 1115 := by
  cases chained <;> cases resigned <;> decide

/-- Up to 31 proof entries fit, and each takes 20 bytes of the room. -/
theorem capacity_of_le {proofSize : Nat} (h : proofSize ≤ 31) (chained resigned : Bool) :
    capacity proofSize chained resigned = .ok (room chained resigned - proofSize * 20) := by
  unfold capacity room
  unfold SIZE_OF_PAYLOAD SIZE_OF_HEADERS SIZE_OF_MERKLE_ROOT SIZE_OF_SIGNATURE
    SIZE_OF_MERKLE_PROOF_ENTRY
  cases chained <;> cases resigned <;> simp only [Bool.false_eq_true, if_true, if_false] <;>
    rw [if_pos (by omega)] <;> congr 1 <;> omega

/-- From 32 data shreds on, the erasure batch is twice the data. -/
theorem getD_ERASURE_BATCH_SIZE_of_le {n : Nat} (h : 32 ≤ n) :
    (ERASURE_BATCH_SIZE[n]?).getD (2 * n) = 2 * n := by
  rcases Nat.eq_or_lt_of_le h with rfl | hlt
  · rfl
  · have hlen : ERASURE_BATCH_SIZE.length ≤ n := by
      unfold ERASURE_BATCH_SIZE
      simp only [List.length_cons, List.length_nil]
      omega
    rw [List.getElem?_eq_none hlen]
    rfl

theorem getErasureBatchSize_le_succ (n : Nat) (isLastInSlot : Bool) :
    getErasureBatchSize n isLastInSlot ≤ getErasureBatchSize (n + 1) isLastInSlot := by
  have hbase : (ERASURE_BATCH_SIZE[n]?).getD (2 * n) ≤
      (ERASURE_BATCH_SIZE[n + 1]?).getD (2 * (n + 1)) := by
    by_cases hn : n < 32
    · -- the table goes up
      have htable : ∀ n < 32, (ERASURE_BATCH_SIZE[n]?).getD (2 * n) ≤
          (ERASURE_BATCH_SIZE[n + 1]?).getD (2 * (n + 1)) := by decide
      exact htable n hn
    · rw [getD_ERASURE_BATCH_SIZE_of_le (by omega), getD_ERASURE_BATCH_SIZE_of_le (by omega)]
      omega
  unfold getErasureBatchSize
  cases isLastInSlot
  · exact hbase
  · exact max_le_max hbase (Nat.le_refl _)

theorem getErasureBatchSize_mono (isLastInSlot : Bool) :
    Monotone (getErasureBatchSize · isLastInSlot) :=
  monotone_nat_of_le_succ fun n => getErasureBatchSize_le_succ n isLastInSlot

/-- An erasure batch of some data shreds has at least 18 shreds, and one of at most 256 at most 512. -/
theorem getErasureBatchSize_bounds {n : Nat} (hpos : 0 < n) (isLastInSlot : Bool) :
    18 ≤ getErasureBatchSize n isLastInSlot ∧
      (n ≤ 256 → getErasureBatchSize n isLastInSlot ≤ 512) := by
  have hone : 18 ≤ getErasureBatchSize 1 isLastInSlot := by cases isLastInSlot <;> decide
  have hmax : getErasureBatchSize 256 isLastInSlot = 512 := by cases isLastInSlot <;> decide
  refine ⟨Nat.le_trans hone (getErasureBatchSize_mono isLastInSlot hpos), fun hn => ?_⟩
  rw [← hmax]
  exact getErasureBatchSize_mono isLastInSlot hn

/-- The proof size of an erasure batch of some data shreds: between 5 and 9 for at most 256 of
them, and growing with them. -/
theorem getProofSize_getErasureBatchSize_bounds {n : Nat} (hpos : 0 < n) (isLastInSlot : Bool) :
    5 ≤ getProofSize (getErasureBatchSize n isLastInSlot) ∧
      (n ≤ 256 → getProofSize (getErasureBatchSize n isLastInSlot) ≤ 9) := by
  obtain ⟨hlo, hhi⟩ := getErasureBatchSize_bounds hpos isLastInSlot
  rw [getProofSize_eq_clog (by omega)]
  refine ⟨(Nat.lt_clog_iff_pow_lt (by decide)).mpr (by omega), fun hn => ?_⟩
  exact (Nat.clog_le_iff_le_pow (by decide)).mpr (by have := hhi hn; omega)

theorem getProofSize_getErasureBatchSize_mono {m n : Nat} (hpos : 0 < m) (hmn : m ≤ n)
    (isLastInSlot : Bool) :
    getProofSize (getErasureBatchSize m isLastInSlot) ≤
      getProofSize (getErasureBatchSize n isLastInSlot) := by
  have hm := (getErasureBatchSize_bounds hpos isLastInSlot).1
  have hle : getErasureBatchSize m isLastInSlot ≤ getErasureBatchSize n isLastInSlot :=
    getErasureBatchSize_mono isLastInSlot hmn
  rw [getProofSize_eq_clog (by omega), getProofSize_eq_clog (by omega)]
  exact Nat.clog_mono_right 2 hle

/-! ## The search for the last proof size -/

/-- The number of data shreds of the last batch when the search tries a capacity. -/
def numDataShredsFor (dataLen dataBufferSize minNumDataShreds : Nat) : Nat :=
  max ((dataLen + dataBufferSize - 1) / dataBufferSize) minNumDataShreds

/-- The proof size that the erasure batch asks for when the search tries `proofSize`. -/
def askedProofSize (chained resigned isLastInSlot : Bool) (dataLen minNumDataShreds proofSize : Nat) :
    Nat :=
  getProofSize (getErasureBatchSize
    (numDataShredsFor dataLen (room chained resigned - proofSize * 20) minNumDataShreds)
    isLastInSlot)

section Search

variable {chained resigned isLastInSlot : Bool} {dataLen minNumDataShreds : Nat}

/-- What the search makes of one proof size up to 31. -/
theorem findProofSize_try {proofSize : Nat} (h : proofSize ≤ 31) :
    (match capacity proofSize chained resigned with
      | .error _ => none
      | .ok dataBufferSize =>
        let numDataShreds := (dataLen + dataBufferSize - 1) / dataBufferSize
        let numDataShreds := max numDataShreds minNumDataShreds
        let erasureBatchSize := getErasureBatchSize numDataShreds isLastInSlot
        if proofSize = getProofSize erasureBatchSize then
          some (proofSize, dataBufferSize, numDataShreds)
        else none) =
      if proofSize =
          askedProofSize chained resigned isLastInSlot dataLen minNumDataShreds proofSize then
        some (proofSize, room chained resigned - proofSize * 20,
          numDataShredsFor dataLen (room chained resigned - proofSize * 20) minNumDataShreds)
      else none := by
  rw [capacity_of_le h]
  rfl

variable (chained resigned isLastInSlot dataLen) in
/-- A larger proof leaves less room, so more shreds, so a proof no shorter. -/
theorem askedProofSize_mono (hmin : 0 < minNumDataShreds) :
    MonotoneOn (askedProofSize chained resigned isLastInSlot dataLen minNumDataShreds)
      (Set.Icc 1 31) := by
  intro p hp q hq hpq
  have hroom := room_bounds chained resigned
  have hcap : room chained resigned - q * 20 ≤ room chained resigned - p * 20 := by omega
  have hceil := CeilDiv.add_pred_div_le_of_le (by have := hq.2; omega) hcap dataLen
  have hnum : numDataShredsFor dataLen (room chained resigned - p * 20) minNumDataShreds ≤
      numDataShredsFor dataLen (room chained resigned - q * 20) minNumDataShreds :=
    max_le_max hceil (Nat.le_refl _)
  exact getProofSize_getErasureBatchSize_mono
    (Nat.lt_of_lt_of_le hmin (le_max_right _ _)) hnum isLastInSlot

variable (isLastInSlot) in
/-- Data short of two full batches of proof size 6 asks for a proof size between 5 and 9 at
either end. -/
theorem askedProofSize_bounds (hmin : 0 < minNumDataShreds ∧ minNumDataShreds ≤ 32)
    (hlen : dataLen < 64 * (room chained resigned - 6 * 20)) :
    5 ≤ askedProofSize chained resigned isLastInSlot dataLen minNumDataShreds 5 ∧
      askedProofSize chained resigned isLastInSlot dataLen minNumDataShreds 9 ≤ 9 := by
  have hroom := room_bounds chained resigned
  have hpos : ∀ proofSize,
      0 < numDataShredsFor dataLen (room chained resigned - proofSize * 20) minNumDataShreds :=
    fun _ => Nat.lt_of_lt_of_le hmin.1 (le_max_right _ _)
  -- at proof size 9 the data fills at most 256 shreds
  have hceil : (dataLen + (room chained resigned - 9 * 20) - 1) / (room chained resigned - 9 * 20)
      ≤ 256 := CeilDiv.add_pred_div_le (by omega) (by omega)
  have hnine : numDataShredsFor dataLen (room chained resigned - 9 * 20) minNumDataShreds ≤ 256 :=
    max_le hceil (by omega)
  exact ⟨(getProofSize_getErasureBatchSize_bounds (hpos 5) isLastInSlot).1,
    (getProofSize_getErasureBatchSize_bounds (hpos 9) isLastInSlot).2 hnine⟩

variable (isLastInSlot) in
/-- The search finds a proof size that agrees with the batch it gives. -/
theorem findProofSize_spec (hmin : 0 < minNumDataShreds ∧ minNumDataShreds ≤ 32)
    (hlen : dataLen < 64 * (room chained resigned - 6 * 20)) :
    ∃ proofSize, proofSize ≤ 31 ∧
      askedProofSize chained resigned isLastInSlot dataLen minNumDataShreds proofSize = proofSize ∧
      findProofSize chained resigned isLastInSlot dataLen minNumDataShreds =
        some (proofSize, room chained resigned - proofSize * 20,
          numDataShredsFor dataLen (room chained resigned - proofSize * 20) minNumDataShreds) := by
  obtain ⟨hfive, hnine⟩ := askedProofSize_bounds isLastInSlot hmin hlen
  have hmono := askedProofSize_mono chained resigned isLastInSlot dataLen hmin.1
  obtain ⟨x, hx, hfix⟩ := FixedPoint.exists_fixed_point (by decide : 5 ≤ 9)
    (hmono.mono (Set.Icc_subset_Icc (by decide) (by decide))) hfive hnine
  -- the search stops at the first proof size that agrees, and one does
  have hsome : (findProofSize chained resigned isLastInSlot dataLen minNumDataShreds).isSome := by
    unfold findProofSize
    rw [List.findSome?_isSome_iff]
    refine ⟨x, List.mem_range'_1.mpr ⟨by have := hx.1; omega, by have := hx.2; omega⟩, ?_⟩
    rw [findProofSize_try (by have := hx.2; omega), if_pos hfix.symm]
    rfl
  obtain ⟨found, hfound⟩ := Option.isSome_iff_exists.mp hsome
  obtain ⟨p, hp, hpfound⟩ := List.exists_of_findSome?_eq_some hfound
  have hp31 : p ≤ 31 := by
    have := List.mem_range'_1.mp hp
    omega
  rw [findProofSize_try hp31] at hpfound
  by_cases hask : p = askedProofSize chained resigned isLastInSlot dataLen minNumDataShreds p
  · rw [if_pos hask, Option.some.injEq] at hpfound
    exact ⟨p, hp31, hask.symm, by rw [hfound, hpfound]⟩
  · rw [if_neg hask] at hpfound
    cases hpfound

end Search

/-! ## Shreds of pieces -/

theorem headers_add_le_of_capacity_eq_ok {proofSize dataBufferSize : Nat}
    {chained resigned : Bool} (h : capacity proofSize chained resigned = .ok dataBufferSize) :
    SIZE_OF_HEADERS + dataBufferSize ≤ SIZE_OF_PAYLOAD := by
  unfold capacity at h
  dsimp only at h
  -- each choice of root and signature gives the payload less the headers
  split_ifs at h <;>
  · injection h with h
    omega

/-- A shred gives back its piece when the piece fits the capacity of its variant. -/
theorem data_newShredData {commonHeader : ShredCommonHeader} (dataHeader : DataShredHeader)
    {piece : List UInt8} {dataBufferSize : Nat}
    (hcap : capacity commonHeader.shredVariant.proofSize commonHeader.shredVariant.chained
      commonHeader.shredVariant.resigned = .ok dataBufferSize)
    (hlen : piece.length ≤ dataBufferSize) :
    (newShredData commonHeader dataHeader piece).data = .ok piece := by
  have hroom := headers_add_le_of_capacity_eq_ok hcap
  unfold ShredData.data newShredData
  simp only [hcap, List.length_append, List.length_replicate, bind, Except.bind]
  rw [if_neg (by omega)]
  -- the piece sits right after the headers
  have htake : (List.replicate SIZE_OF_HEADERS (0 : UInt8) ++ piece ++
      List.replicate (SIZE_OF_PAYLOAD - (SIZE_OF_HEADERS + piece.length)) 0).take
        (SIZE_OF_HEADERS + piece.length) = List.replicate SIZE_OF_HEADERS 0 ++ piece := by
    rw [List.take_append_of_le_length (by simp), List.take_of_length_le (by simp)]
  rw [htake, List.drop_left' List.length_replicate]

/-- The loop over the pieces of a batch: one shred for each, indices counting up. -/
theorem pushShreds_eq (commonHeader : ShredCommonHeader) (dataHeader : DataShredHeader)
    (pieces : List (List UInt8)) :
    pushShreds commonHeader dataHeader pieces =
      ((pieces.zipIdx commonHeader.index).map fun (piece, index) =>
          newShredData { commonHeader with index } dataHeader piece,
        { commonHeader with index := commonHeader.index + pieces.length }) := by
  induction pieces generalizing commonHeader with
  | nil => rfl
  | cons piece rest ih =>
    rw [pushShreds, ih, List.zipIdx_cons, List.map_cons, List.length_cons]
    simp only [Nat.add_assoc, Nat.add_comm 1 rest.length]

/-! ## Batches laid out from a plan -/

/-- An erasure batch as planned: the variant of its shreds and the data of each. -/
structure BatchPlan where
  variant : ShredVariant
  pieces : List (List UInt8)

/-- The shreds of planned batches laid out from a first index: the shreds of each batch numbered
on from those before, its erasure set starting at its first. -/
def layout (slot version : Nat) (dataHeader : DataShredHeader) :
    Nat → List BatchPlan → List (List ShredData)
  | _, [] => []
  | index, plan :: rest =>
    (pushShreds ⟨plan.variant, slot, index, version, index⟩ dataHeader plan.pieces).1 ::
      layout slot version dataHeader (index + plan.pieces.length) rest

/-- The cut the \x60while\x60 loop makes of the data: the pieces of each full batch, and what is
left. -/
def fullPlans (chunkSize dataBufferSize : Nat) (data : List UInt8) :
    List (List (List UInt8)) × List UInt8 :=
  if _h : 0 < chunkSize ∧ (data.length ≥ 2 * chunkSize ∨ data.length = chunkSize) then
    let rest := fullPlans chunkSize dataBufferSize (data.drop chunkSize)
    (chunks dataBufferSize (data.take chunkSize) :: rest.1, rest.2)
  else ([], data)
termination_by data.length
decreasing_by
  rw [List.length_drop]
  omega

/-- The loop lays out the cut as batches of the variant it starts with. -/
theorem fullBatches_eq (chunkSize dataBufferSize : Nat) (dataHeader : DataShredHeader)
    (commonHeader : ShredCommonHeader) (data : List UInt8) (shreds : List ShredData) :
    ∃ fecSetIndex, fullBatches chunkSize dataBufferSize dataHeader commonHeader data shreds =
      (shreds ++ (layout commonHeader.slot commonHeader.version dataHeader commonHeader.index
          ((fullPlans chunkSize dataBufferSize data).1.map
            (BatchPlan.mk commonHeader.shredVariant))).flatten,
        { commonHeader with
          index := commonHeader.index + ((fullPlans chunkSize dataBufferSize data).1.map
            List.length).sum
          fecSetIndex },
        (fullPlans chunkSize dataBufferSize data).2) := by
  rw [fullBatches, fullPlans]
  by_cases h : 0 < chunkSize ∧ (data.length ≥ 2 * chunkSize ∨ data.length = chunkSize)
  · rw [dif_pos h, dif_pos h]
    -- one batch from the first chunk, then the loop on the rest
    obtain ⟨fecSetIndex, hrest⟩ := fullBatches_eq chunkSize dataBufferSize dataHeader
      { commonHeader with
        index := commonHeader.index + (chunks dataBufferSize (data.take chunkSize)).length
        fecSetIndex := commonHeader.index }
      (data.drop chunkSize)
      (shreds ++ (pushShreds { commonHeader with fecSetIndex := commonHeader.index } dataHeader
        (chunks dataBufferSize (data.take chunkSize))).1)
    refine ⟨fecSetIndex, ?_⟩
    dsimp only
    rw [pushShreds_eq] at hrest ⊢
    rw [hrest]
    simp only [List.map_cons, layout, pushShreds_eq, List.flatten_cons, List.append_assoc,
      List.sum_cons, Nat.add_assoc]
  · rw [dif_neg h, dif_neg h]
    exact ⟨commonHeader.fecSetIndex, by simp [layout]⟩
termination_by data.length
decreasing_by
  rw [List.length_drop]
  omega

/-- Every full batch is 32 pieces filled to capacity; the pieces and what is left join back to
the data; and what is left is short of two chunks and not one. -/
theorem fullPlans_spec {dataBufferSize : Nat} (hpos : 0 < dataBufferSize) (data : List UInt8) :
    (∀ pieces ∈ (fullPlans (32 * dataBufferSize) dataBufferSize data).1,
        pieces.length = 32 ∧ ∀ piece ∈ pieces, piece.length = dataBufferSize) ∧
      ((fullPlans (32 * dataBufferSize) dataBufferSize data).1.map List.flatten).flatten ++
        (fullPlans (32 * dataBufferSize) dataBufferSize data).2 = data ∧
      (fullPlans (32 * dataBufferSize) dataBufferSize data).2.length < 2 * (32 * dataBufferSize) ∧
      (fullPlans (32 * dataBufferSize) dataBufferSize data).2.length ≠ 32 * dataBufferSize := by
  rw [fullPlans]
  by_cases h : 0 < 32 * dataBufferSize ∧
    (data.length ≥ 2 * (32 * dataBufferSize) ∨ data.length = 32 * dataBufferSize)
  · rw [dif_pos h]
    dsimp only
    obtain ⟨hfull, hjoin, hlt, hne⟩ := fullPlans_spec hpos (data.drop (32 * dataBufferSize))
    have htake : (data.take (32 * dataBufferSize)).length = 32 * dataBufferSize := by
      rw [List.length_take]
      omega
    obtain ⟨hlen, hpieces⟩ := chunks_of_length_eq_mul hpos 32 _ htake
    refine ⟨?_, ?_, hlt, hne⟩
    · intro pieces hmem
      rcases List.mem_cons.mp hmem with rfl | hmem
      · exact ⟨hlen, hpieces⟩
      · exact hfull pieces hmem
    · rw [List.map_cons, List.flatten_cons, flatten_chunks hpos, List.append_assoc, hjoin,
        List.take_append_drop]
  · rw [dif_neg h]
    dsimp only
    refine ⟨by simp, by simp, ?_, ?_⟩ <;> omega
termination_by data.length
decreasing_by
  rw [List.length_drop]
  omega

/-- The pieces of the last batch: as many as asked for, when that covers the data, joining back
to it, each within the capacity. -/
theorem paddedChunks_spec {dataBufferSize numDataShreds : Nat} (hpos : 0 < dataBufferSize)
    {data : List UInt8} (hnum : (data.length + dataBufferSize - 1) / dataBufferSize ≤ numDataShreds) :
    (paddedChunks dataBufferSize numDataShreds data).length = numDataShreds ∧
      (paddedChunks dataBufferSize numDataShreds data).flatten = data ∧
      ∀ piece ∈ paddedChunks dataBufferSize numDataShreds data, piece.length ≤ dataBufferSize := by
  have hchunks : (chunks dataBufferSize data).length ≤ numDataShreds := by
    rw [length_chunks hpos]
    exact hnum
  unfold paddedChunks
  refine ⟨?_, ?_, fun piece hpiece => ?_⟩
  · rw [List.length_take, List.length_append, List.length_replicate]
    omega
  · -- the chunks, then empty pieces up to the number asked for
    rw [List.take_append, List.take_of_length_le hchunks, List.take_replicate, List.flatten_append,
      flatten_chunks hpos, List.flatten_replicate_nil, List.append_nil]
  · rcases List.mem_append.mp (List.mem_of_mem_take hpiece) with hmem | hmem
    · exact (length_le_of_mem_chunks hmem).2
    · rw [List.eq_of_mem_replicate hmem, List.length_nil]
      exact Nat.zero_le _

/-- A planned batch that lays out well: some pieces, each within the capacity of the variant,
whose proof size is the one its erasure batch asks for. -/
structure BatchPlan.Fits (isLastInSlot : Bool) (plan : BatchPlan) : Prop where
  pieces_ne_nil : plan.pieces ≠ []
  proofSize_le : plan.variant.proofSize ≤ 31
  length_le : ∀ piece ∈ plan.pieces,
    piece.length ≤ room plan.variant.chained plan.variant.resigned - plan.variant.proofSize * 20
  proofSize_eq :
    plan.variant.proofSize = getProofSize (getErasureBatchSize plan.pieces.length isLastInSlot)

/-- A full batch: 32 pieces filled to capacity. -/
structure BatchPlan.Full (plan : BatchPlan) : Prop where
  length_pieces : plan.pieces.length = DATA_SHREDS_PER_FEC_BLOCK
  length_eq : ∀ piece ∈ plan.pieces,
    piece.length = room plan.variant.chained plan.variant.resigned - plan.variant.proofSize * 20

/-- The last batch is one planned batch that fits and holds what the loop left. -/
theorem lastBatch_eq {chained resigned : Bool} (isLastInSlot : Bool) (dataHeader : DataShredHeader)
    (commonHeader : ShredCommonHeader) {data : List UInt8}
    (hlen : data.length < 64 * (room chained resigned - 6 * 20)) :
    ∃ plan : BatchPlan, plan.Fits isLastInSlot ∧ plan.variant.chained = chained ∧
      plan.variant.resigned = resigned ∧ plan.pieces.flatten = data ∧
      lastBatch chained resigned isLastInSlot dataHeader commonHeader data =
        .ok (layout commonHeader.slot commonHeader.version dataHeader commonHeader.index
          [plan]).flatten := by
  have hmin : 0 < (if isLastInSlot then DATA_SHREDS_PER_FEC_BLOCK else 1) ∧
      (if isLastInSlot then DATA_SHREDS_PER_FEC_BLOCK else 1) ≤ 32 := by
    cases isLastInSlot <;> decide
  obtain ⟨proofSize, hle, hasked, hfind⟩ :=
    findProofSize_spec isLastInSlot hmin hlen
  have hroom := room_bounds chained resigned
  set dataBufferSize := room chained resigned - proofSize * 20 with hdbs
  set numDataShreds := numDataShredsFor data.length dataBufferSize
    (if isLastInSlot then DATA_SHREDS_PER_FEC_BLOCK else 1) with hnum
  have hcover : (data.length + dataBufferSize - 1) / dataBufferSize ≤ numDataShreds :=
    le_max_left _ _
  obtain ⟨hlength, hflatten, hpieces⟩ := paddedChunks_spec (by omega : 0 < dataBufferSize) hcover
  refine ⟨⟨⟨proofSize, chained, resigned⟩, paddedChunks dataBufferSize numDataShreds data⟩,
    ⟨?_, hle, hpieces, ?_⟩, rfl, rfl, hflatten, ?_⟩
  · rw [← List.length_pos_iff, hlength]
    exact Nat.lt_of_lt_of_le hmin.1 (le_max_right _ _)
  · dsimp only
    rw [hlength]
    exact hasked.symm
  · unfold lastBatch
    dsimp only
    rw [hfind]
    simp [layout]

/-! ## What the shreds of a plan hold -/

theorem mem_pushShreds {commonHeader : ShredCommonHeader} {dataHeader : DataShredHeader}
    {pieces : List (List UInt8)} {shred : ShredData}
    (h : shred ∈ (pushShreds commonHeader dataHeader pieces).1) :
    ∃ piece ∈ pieces, ∃ index, shred = newShredData { commonHeader with index } dataHeader piece := by
  rw [pushShreds_eq, List.mem_map] at h
  obtain ⟨⟨piece, index⟩, hmem, rfl⟩ := h
  exact ⟨piece, List.fst_mem_of_mem_zipIdx hmem, index, rfl⟩

@[simp] theorem length_pushShreds (commonHeader : ShredCommonHeader) (dataHeader : DataShredHeader)
    (pieces : List (List UInt8)) :
    (pushShreds commonHeader dataHeader pieces).1.length = pieces.length := by
  rw [pushShreds_eq, List.length_map, List.length_zipIdx]

theorem map_index_pushShreds (commonHeader : ShredCommonHeader) (dataHeader : DataShredHeader)
    (pieces : List (List UInt8)) :
    (pushShreds commonHeader dataHeader pieces).1.map (·.commonHeader.index) =
      List.range' commonHeader.index pieces.length := by
  rw [pushShreds_eq, List.map_map, ← List.zipIdx_map_snd]
  rfl

/-- The shreds of a batch give back its pieces when each fits the capacity. -/
theorem mapM_data_pushShreds (dataHeader : DataShredHeader) {dataBufferSize : Nat} :
    ∀ (commonHeader : ShredCommonHeader) {pieces : List (List UInt8)},
      capacity commonHeader.shredVariant.proofSize commonHeader.shredVariant.chained
        commonHeader.shredVariant.resigned = .ok dataBufferSize →
      (∀ piece ∈ pieces, piece.length ≤ dataBufferSize) →
      (pushShreds commonHeader dataHeader pieces).1.mapM ShredData.data = .ok pieces
  | _, [], _, _ => rfl
  | commonHeader, piece :: rest, hcap, hlen => by
    have hpiece := data_newShredData dataHeader hcap (hlen piece (by simp))
    have hrest := mapM_data_pushShreds dataHeader { commonHeader with
      index := commonHeader.index + 1 } hcap (fun p hp => hlen p (List.mem_cons_of_mem _ hp))
    simp only [pushShreds, List.mapM_cons, hpiece, hrest]
    rfl

theorem layout_append (slot version : Nat) (dataHeader : DataShredHeader) :
    ∀ (index : Nat) (plans₁ plans₂ : List BatchPlan),
      layout slot version dataHeader index (plans₁ ++ plans₂) =
        layout slot version dataHeader index plans₁ ++
          layout slot version dataHeader (index + (plans₁.map (·.pieces.length)).sum) plans₂
  | index, [], plans₂ => by simp [layout]
  | index, plan :: plans₁, plans₂ => by
    simp only [List.cons_append, layout, layout_append _ _ _ _ plans₁ plans₂, List.map_cons,
      List.sum_cons, Nat.add_assoc]

theorem mem_layout {slot version index : Nat} {dataHeader : DataShredHeader}
    {plans : List BatchPlan} {batch : List ShredData}
    (h : batch ∈ layout slot version dataHeader index plans) :
    ∃ plan ∈ plans, ∃ start,
      batch = (pushShreds ⟨plan.variant, slot, start, version, start⟩ dataHeader plan.pieces).1 := by
  induction plans generalizing index with
  | nil => cases h
  | cons plan rest ih =>
    rcases List.mem_cons.mp h with rfl | h
    · exact ⟨plan, List.mem_cons_self, index, rfl⟩
    · obtain ⟨plan', hmem, start, rfl⟩ := ih h
      exact ⟨plan', List.mem_cons_of_mem _ hmem, start, rfl⟩

/-- The shreds of a plan are numbered on from the first index. -/
theorem map_index_layout (slot version : Nat) (dataHeader : DataShredHeader) :
    ∀ (index : Nat) (plans : List BatchPlan),
      (layout slot version dataHeader index plans).flatten.map (·.commonHeader.index) =
        List.range' index (plans.map (·.pieces.length)).sum
  | _, [] => rfl
  | index, plan :: rest => by
    rw [layout, List.flatten_cons, List.map_append, map_index_pushShreds,
      map_index_layout _ _ _ _ rest, List.map_cons, List.sum_cons]
    exact List.range'_append_1

/-- The shreds of a plan that fits give back its pieces. -/
theorem mapM_data_layout (slot version : Nat) (dataHeader : DataShredHeader) (isLastInSlot : Bool) :
    ∀ (index : Nat) (plans : List BatchPlan), (∀ plan ∈ plans, plan.Fits isLastInSlot) →
      (layout slot version dataHeader index plans).flatten.mapM ShredData.data =
        .ok (plans.map (·.pieces)).flatten
  | _, [], _ => rfl
  | index, plan :: rest, hfits => by
    have hplan := hfits plan List.mem_cons_self
    have hbatch := mapM_data_pushShreds dataHeader ⟨plan.variant, slot, index, version, index⟩
      (capacity_of_le hplan.proofSize_le _ _) hplan.length_le
    have hrest := mapM_data_layout slot version dataHeader isLastInSlot
      (index + plan.pieces.length) rest (fun p hp => hfits p (List.mem_cons_of_mem _ hp))
    simp only [layout, List.flatten_cons, List.mapM_append, hbatch, hrest, List.map_cons]
    rfl

theorem flags_of_mem_layout {slot version index : Nat} {dataHeader : DataShredHeader}
    {plans : List BatchPlan} {shred : ShredData}
    (h : shred ∈ (layout slot version dataHeader index plans).flatten) :
    shred.dataHeader.flags = dataHeader.flags := by
  obtain ⟨batch, hbatch, hshred⟩ := List.mem_flatten.mp h
  obtain ⟨plan, _, start, rfl⟩ := mem_layout hbatch
  obtain ⟨piece, _, index, rfl⟩ := mem_pushShreds hshred
  rfl

/-! ## Marking and grouping -/

@[simp] theorem markShred_commonHeader (isLastInSlot : Bool) (shred : ShredData) :
    (markShred isLastInSlot shred).commonHeader = shred.commonHeader := rfl

@[simp] theorem data_markShred (isLastInSlot : Bool) (shred : ShredData) :
    (markShred isLastInSlot shred).data = shred.data := rfl

theorem markLastShred_eq (isLastInSlot : Bool) {shreds : List ShredData} (h : shreds ≠ []) :
    markLastShred isLastInSlot shreds =
      shreds.dropLast ++ [markShred isLastInSlot (shreds.getLast h)] := by
  induction shreds with
  | nil => contradiction
  | cons shred rest ih =>
    cases rest with
    | nil => rfl
    | cons next rest =>
      -- the equation of the third case asks for a rest that is not empty
      rw [markLastShred, ih (List.cons_ne_nil _ _), List.dropLast_cons_cons,
        List.getLast_cons_cons, List.cons_append]
      exact List.cons_ne_nil _ _

theorem markLastShred_append (isLastInSlot : Bool) (front : List ShredData) {back : List ShredData}
    (h : back ≠ []) :
    markLastShred isLastInSlot (front ++ back) = front ++ markLastShred isLastInSlot back := by
  rw [markLastShred_eq _ (List.append_ne_nil_of_right_ne_nil _ h), markLastShred_eq _ h,
    List.dropLast_append_of_ne_nil h, List.getLast_append_right h, List.append_assoc]

/-- Marking changes the flags only. -/
theorem map_commonHeader_markLastShred (isLastInSlot : Bool) (shreds : List ShredData) :
    (markLastShred isLastInSlot shreds).map (·.commonHeader) = shreds.map (·.commonHeader) := by
  fun_induction markLastShred isLastInSlot shreds <;> simp_all

theorem mapM_data_markLastShred (isLastInSlot : Bool) (shreds : List ShredData) :
    (markLastShred isLastInSlot shreds).mapM ShredData.data = shreds.mapM ShredData.data := by
  fun_induction markLastShred isLastInSlot shreds <;> simp_all

theorem length_markLastShred (isLastInSlot : Bool) (shreds : List ShredData) :
    (markLastShred isLastInSlot shreds).length = shreds.length := by
  rw [← List.length_map (f := (·.commonHeader)), map_commonHeader_markLastShred, List.length_map]

/-- A run of shreds of one erasure set is one group. -/
theorem isChain_of_fecSetIndex_eq {shreds : List ShredData} {fecSetIndex : Nat}
    (h : ∀ shred ∈ shreds, shred.commonHeader.fecSetIndex = fecSetIndex) :
    shreds.IsChain fun a b =>
      (a.commonHeader.fecSetIndex == b.commonHeader.fecSetIndex) = true := by
  refine List.Pairwise.isChain (List.pairwise_of_forall_mem_list fun a ha b hb => ?_)
  rw [h a ha, h b hb, beq_self_eq_true]

theorem fecSetIndex_of_mem_pushShreds {commonHeader : ShredCommonHeader}
    {dataHeader : DataShredHeader} {pieces : List (List UInt8)} {shred : ShredData}
    (h : shred ∈ (pushShreds commonHeader dataHeader pieces).1) :
    shred.commonHeader.fecSetIndex = commonHeader.fecSetIndex := by
  obtain ⟨piece, _, index, rfl⟩ := mem_pushShreds h
  rfl

/-- A marked shred has the header of a shred it was marked from. -/
theorem exists_of_mem_markLastShred {isLastInSlot : Bool} {shreds : List ShredData}
    {shred : ShredData} (hmem : shred ∈ markLastShred isLastInSlot shreds) :
    ∃ original ∈ shreds, original.commonHeader = shred.commonHeader := by
  have hheader : shred.commonHeader ∈ shreds.map (·.commonHeader) := by
    rw [← map_commonHeader_markLastShred isLastInSlot]
    exact List.mem_map_of_mem hmem
  exact List.mem_map.mp hheader

theorem fecSetIndex_of_mem_markLastShred {isLastInSlot : Bool} {shreds : List ShredData}
    {fecSetIndex : Nat} (h : ∀ shred ∈ shreds, shred.commonHeader.fecSetIndex = fecSetIndex)
    {shred : ShredData} (hmem : shred ∈ markLastShred isLastInSlot shreds) :
    shred.commonHeader.fecSetIndex = fecSetIndex := by
  obtain ⟨original, horiginal, hsame⟩ := exists_of_mem_markLastShred hmem
  rw [← hsame]
  exact h original horiginal

theorem pushShreds_ne_nil (commonHeader : ShredCommonHeader) (dataHeader : DataShredHeader)
    {pieces : List (List UInt8)} (h : pieces ≠ []) :
    (pushShreds commonHeader dataHeader pieces).1 ≠ [] := by
  rw [← List.length_pos_iff, length_pushShreds, List.length_pos_iff]
  exact h

/-- The first shred of a plan opens the erasure set of the first index. -/
theorem fecSetIndex_of_mem_head?_layout {slot version index : Nat} {dataHeader : DataShredHeader}
    {plans : List BatchPlan} (hpieces : ∀ plan ∈ plans, plan.pieces ≠ []) {shred : ShredData}
    (h : shred ∈ (layout slot version dataHeader index plans).flatten.head?) :
    shred.commonHeader.fecSetIndex = index := by
  cases plans with
  | nil => cases h
  | cons plan rest =>
    have hne := pushShreds_ne_nil ⟨plan.variant, slot, index, version, index⟩ dataHeader
      (hpieces plan List.mem_cons_self)
    rw [layout, List.flatten_cons, List.head?_append_of_ne_nil _ hne] at h
    exact fecSetIndex_of_mem_pushShreds (List.mem_of_mem_head? h)

theorem head?_commonHeader_markLastShred (isLastInSlot : Bool) (shreds : List ShredData) :
    (markLastShred isLastInSlot shreds).head?.map (·.commonHeader) =
      shreds.head?.map (·.commonHeader) := by
  rw [← List.head?_map, ← List.head?_map, map_commonHeader_markLastShred]

/-- The batches the stage makes of a plan: its shreds, the last marked, grouped by erasure set. -/
def planBatches (isLastInSlot : Bool) (slot version : Nat) (dataHeader : DataShredHeader)
    (index : Nat) (plans : List BatchPlan) : List (List ShredData) :=
  groupByErasureBatch (markLastShred isLastInSlot (layout slot version dataHeader index plans).flatten)

/-- Grouping by erasure set gives back the batches of a plan, the last shred marked in the last. -/
theorem groupByErasureBatch_layout (isLastInSlot : Bool) (slot version : Nat)
    (dataHeader : DataShredHeader) :
    ∀ (index : Nat) (plans : List BatchPlan), (∀ plan ∈ plans, plan.pieces ≠ []) →
      groupByErasureBatch
          (markLastShred isLastInSlot (layout slot version dataHeader index plans).flatten) =
        (layout slot version dataHeader index plans).modifyLast (markLastShred isLastInSlot)
  | _, [], _ => rfl
  | index, [plan], hpieces => by
    set batch := (pushShreds ⟨plan.variant, slot, index, version, index⟩ dataHeader plan.pieces).1
    have hfec : ∀ shred ∈ batch, shred.commonHeader.fecSetIndex = index := fun _ hshred =>
      fecSetIndex_of_mem_pushShreds hshred
    have hmarked : ∀ shred ∈ markLastShred isLastInSlot batch,
        shred.commonHeader.fecSetIndex = index := fun _ hshred =>
      fecSetIndex_of_mem_markLastShred hfec hshred
    have hne : markLastShred isLastInSlot batch ≠ [] := by
      rw [← List.length_pos_iff, length_markLastShred, length_pushShreds, List.length_pos_iff]
      exact hpieces plan List.mem_cons_self
    simp only [layout, List.flatten_cons, List.flatten_nil, List.append_nil]
    exact List.splitBy_of_isChain hne (isChain_of_fecSetIndex_eq hmarked)
  | index, plan :: next :: rest, hpieces => by
    have hrest : ∀ plan' ∈ next :: rest, plan'.pieces ≠ [] := fun p hp =>
      hpieces p (List.mem_cons_of_mem _ hp)
    set batch := (pushShreds ⟨plan.variant, slot, index, version, index⟩ dataHeader plan.pieces).1
    set later := layout slot version dataHeader (index + plan.pieces.length) (next :: rest)
    have hplan := hpieces plan List.mem_cons_self
    have hbatch : batch ≠ [] := pushShreds_ne_nil _ dataHeader hplan
    have hfec : ∀ shred ∈ batch, shred.commonHeader.fecSetIndex = index := fun _ hshred =>
      fecSetIndex_of_mem_pushShreds hshred
    have hlater : later.flatten ≠ [] := by
      simp only [later, layout, List.flatten_cons]
      exact List.append_ne_nil_of_left_ne_nil (pushShreds_ne_nil _ dataHeader (hrest next
        List.mem_cons_self)) _
    -- the group of this batch ends where the next erasure set starts
    have hboundary : ∀ x ∈ batch.getLast?, ∀ y ∈ (markLastShred isLastInSlot later.flatten).head?,
        (x.commonHeader.fecSetIndex == y.commonHeader.fecSetIndex) = false := by
      intro x hx y hy
      have hheader : y.commonHeader ∈ later.flatten.head?.map (·.commonHeader) := by
        rw [← head?_commonHeader_markLastShred isLastInSlot]
        exact Option.mem_map_of_mem _ hy
      obtain ⟨first, hfirst, hsame⟩ := Option.mem_map.mp hheader
      have hy_fec : y.commonHeader.fecSetIndex = index + plan.pieces.length := by
        rw [← hsame]
        exact fecSetIndex_of_mem_head?_layout hrest hfirst
      have hlen := List.length_pos_iff.mpr hplan
      rw [hfec x (List.mem_of_getLast? hx), hy_fec, beq_eq_false_iff_ne]
      omega
    have hih := groupByErasureBatch_layout isLastInSlot slot version dataHeader
      (index + plan.pieces.length) (next :: rest) hrest
    unfold groupByErasureBatch at hih ⊢
    rw [show layout slot version dataHeader index (plan :: next :: rest) = batch :: later from rfl,
      List.flatten_cons, markLastShred_append _ _ hlater, List.splitBy_append hboundary, hih,
      List.splitBy_of_isChain hbatch (isChain_of_fecSetIndex_eq hfec)]
    exact (List.modifyLast_append_of_right_ne_nil _ [batch] later (by simp [later, layout])).symm
/-! ## The stage -/

/-- A full batch has 32 data shreds, so 64 in its erasure batch, so 6 proof entries. -/
theorem getProofSize_full (isLastInSlot : Bool) :
    getProofSize (getErasureBatchSize DATA_SHREDS_PER_FEC_BLOCK isLastInSlot) = 6 := by
  have hsize : getErasureBatchSize DATA_SHREDS_PER_FEC_BLOCK isLastInSlot = 2 ^ 6 := by
    cases isLastInSlot <;> decide
  rw [hsize, getProofSize_eq_clog (by decide), Nat.clog_pow 2 6 (by decide)]

/-- The batches of the \x60while\x60 loop fit and are full. -/
theorem fullPlan_fits {chained resigned isLastInSlot : Bool} {pieces : List (List UInt8)}
    (hpieces : pieces.length = 32 ∧ ∀ piece ∈ pieces, piece.length = room chained resigned - 6 * 20) :
    (BatchPlan.mk ⟨6, chained, resigned⟩ pieces).Fits isLastInSlot ∧
      (BatchPlan.mk ⟨6, chained, resigned⟩ pieces).Full := by
  have hne : pieces ≠ [] := by
    rw [← List.length_pos_iff, hpieces.1]
    decide
  refine ⟨⟨hne, (by decide : 6 ≤ 31), fun piece hpiece => (hpieces.2 piece hpiece).le, ?_⟩,
    ⟨hpieces.1, hpieces.2⟩⟩
  rw [hpieces.1]
  exact (getProofSize_full isLastInSlot).symm

theorem data_ok_of_mapM_data_ok {shreds : List ShredData} {pieces : List (List UInt8)}
    (h : shreds.mapM ShredData.data = .ok pieces) {shred : ShredData} (hmem : shred ∈ shreds) :
    ∃ piece, shred.data = .ok piece := by
  induction shreds generalizing pieces with
  | nil => cases hmem
  | cons first rest ih =>
    rw [List.mapM_cons] at h
    cases hfirst : first.data with
    | error e =>
      rw [hfirst] at h
      cases h
    | ok piece =>
      cases hrest : rest.mapM ShredData.data with
      | error e =>
        rw [hfirst, hrest] at h
        cases h
      | ok pieces' =>
        rcases List.mem_cons.mp hmem with rfl | hmem
        · exact ⟨piece, hfirst⟩
        · exact ih hrest hmem

theorem mapM_data_getLast? {shreds : List ShredData} {pieces : List (List UInt8)}
    (h : shreds.mapM ShredData.data = .ok pieces) :
    ∃ last, shreds.getLast?.mapM ShredData.data = .ok last := by
  cases hlast : shreds.getLast? with
  | none => exact ⟨none, rfl⟩
  | some shred =>
    obtain ⟨piece, hpiece⟩ := data_ok_of_mapM_data_ok h (List.mem_of_getLast? hlast)
    refine ⟨some piece, ?_⟩
    simp [hpiece]

/-- The stage lays out a plan of batches that fit, all full but the last, whose pieces join back
to the data; then it marks the last shred and groups the shreds by erasure batch. -/
theorem makeDataShreds_eq (chainedMerkleRoot : Option Hash) (data : List UInt8)
    (slot parentSlot shredVersion : Nat) (referenceTick : UInt8) (isLastInSlot : Bool)
    (nextShredIndex nextCodeIndex : Nat) (hparent : parentSlot ≤ slot)
    (hoffset : slot - parentSlot < 2 ^ 16) :
    ∃ plans : List BatchPlan, plans ≠ [] ∧ (∀ plan ∈ plans, plan.Fits isLastInSlot) ∧
      (∀ plan ∈ plans.dropLast, plan.Full) ∧ (plans.map (·.pieces)).flatten.flatten = data ∧
      let batches := planBatches isLastInSlot slot shredVersion
        ⟨slot - parentSlot, min SHRED_TICK_REFERENCE_MASK referenceTick, 0⟩ nextShredIndex plans
      makeDataShreds chainedMerkleRoot data slot parentSlot shredVersion referenceTick
        isLastInSlot nextShredIndex nextCodeIndex =
        .ok (batches, codeIndices isLastInSlot nextCodeIndex batches) := by
  set chained := chainedMerkleRoot.isSome
  set resigned := chained && isLastInSlot
  set dataBufferSize := room chained resigned - 6 * 20 with hdbs
  have hroom := room_bounds chained resigned
  have hpos : 0 < dataBufferSize := by omega
  set dataHeader : DataShredHeader :=
    ⟨slot - parentSlot, min SHRED_TICK_REFERENCE_MASK referenceTick, 0⟩
  have hchunk : DATA_SHREDS_PER_FEC_BLOCK * dataBufferSize = 32 * dataBufferSize := rfl
  obtain ⟨fecSetIndex, hloop⟩ := fullBatches_eq (32 * dataBufferSize) dataBufferSize dataHeader ⟨⟨6, chained, resigned⟩, slot, nextShredIndex, shredVersion,
      nextShredIndex⟩ data []
  obtain ⟨hpieces, hjoin, hshort, hne⟩ := fullPlans_spec hpos data
  set cut := fullPlans (32 * dataBufferSize) dataBufferSize data
  set fulls := cut.1.map (BatchPlan.mk ⟨6, chained, resigned⟩)
  have hfits : ∀ plan ∈ fulls, plan.Fits isLastInSlot ∧ plan.Full := by
    intro plan hplan
    obtain ⟨pieces, hmem, rfl⟩ := List.mem_map.mp hplan
    exact fullPlan_fits (hpieces pieces hmem)
  have hfulls : fulls.map (·.pieces) = cut.1 := by
    simp only [fulls, List.map_map]
    exact List.map_id _
  set fullShreds := (layout slot shredVersion dataHeader nextShredIndex fulls).flatten
  have hfullData := mapM_data_layout slot shredVersion dataHeader isLastInSlot nextShredIndex fulls
    (fun plan hplan => (hfits plan hplan).1)
  by_cases hcase : (!cut.2.isEmpty || ([] ++ fullShreds).isEmpty) = true
  · -- what the loop left goes into a last batch
    have hlen : cut.2.length < 64 * (room chained resigned - 6 * 20) := by omega
    obtain ⟨lastPlan, hlfits, -, -, hlflat, hlast⟩ := lastBatch_eq isLastInSlot dataHeader
      ⟨⟨6, chained, resigned⟩, slot, nextShredIndex + (cut.1.map List.length).sum, shredVersion,
        fecSetIndex⟩ hlen
    have hall : ∀ plan ∈ fulls ++ [lastPlan], plan.Fits isLastInSlot := by
      intro plan hplan
      rcases List.mem_append.mp hplan with hplan | hplan
      · exact (hfits plan hplan).1
      · rw [List.mem_singleton.mp hplan]
        exact hlfits
    have hshreds : (layout slot shredVersion dataHeader nextShredIndex (fulls ++ [lastPlan])).flatten =
        fullShreds ++ (layout slot shredVersion dataHeader
          (nextShredIndex + (cut.1.map List.length).sum) [lastPlan]).flatten := by
      rw [layout_append, List.flatten_append, List.map_map]
      rfl
    obtain ⟨residual, hresidual⟩ := mapM_data_getLast?
      (mapM_data_layout slot shredVersion dataHeader isLastInSlot nextShredIndex _ hall)
    refine ⟨fulls ++ [lastPlan], by simp, hall, ?_, ?_, ?_⟩
    · rw [List.dropLast_concat]
      exact fun plan hplan => (hfits plan hplan).2
    · rw [List.map_append, hfulls, List.flatten_append, List.flatten_append, List.flatten_flatten,
        List.map_singleton, List.flatten_singleton, hlflat, hjoin]
    · unfold makeDataShreds
      simp only [getProofSize_full, capacity_of_le (show 6 ≤ 31 by decide), bind, Except.bind,
        pure, Except.pure, hparent, hoffset, and_self, if_true]
      rw [hchunk, hloop]
      dsimp only
      rw [if_pos hcase, hlast]
      dsimp only
      rw [List.nil_append, ← hshreds, hresidual]
      rfl
  · -- the loop took it all, in at least one batch
    obtain ⟨hrest, hnonempty⟩ : cut.2 = [] ∧ fullShreds ≠ [] := by simpa using hcase
    have hfulls_ne : fulls ≠ [] := by
      intro hnil
      exact hnonempty (by simp only [fullShreds, hnil, layout, List.flatten_nil])
    refine ⟨fulls, hfulls_ne, fun plan hplan => (hfits plan hplan).1,
      fun plan hplan => (hfits plan (List.mem_of_mem_dropLast hplan)).2, ?_, ?_⟩
    · rw [hrest, List.append_nil] at hjoin
      rw [hfulls, List.flatten_flatten, hjoin]
    · unfold makeDataShreds
      simp only [getProofSize_full, capacity_of_le (show 6 ≤ 31 by decide), bind, Except.bind,
        pure, Except.pure, hparent, hoffset, and_self, if_true]
      rw [hchunk, hloop]
      dsimp only
      rw [if_neg hcase, List.nil_append]
      rfl

/-! ## Flags, coding indices and deshredding -/

set_option maxRecDepth 20000 in
/-- The flags of a shred before marking keep to the reference tick, so none reads complete. -/
theorem flags_unmarked (referenceTick : UInt8) :
    (min SHRED_TICK_REFERENCE_MASK referenceTick &&& DATA_COMPLETE_SHRED == DATA_COMPLETE_SHRED) =
        false ∧
      (min SHRED_TICK_REFERENCE_MASK referenceTick &&& LAST_SHRED_IN_SLOT == LAST_SHRED_IN_SLOT) =
        false := by
  revert referenceTick
  decide

set_option maxRecDepth 20000 in
/-- Marking completes the data, and ends the slot only for the last in the slot. -/
theorem flags_marked (referenceTick : UInt8) (isLastInSlot : Bool) :
    ((min SHRED_TICK_REFERENCE_MASK referenceTick |||
          if isLastInSlot then LAST_SHRED_IN_SLOT else DATA_COMPLETE_SHRED) &&&
        DATA_COMPLETE_SHRED == DATA_COMPLETE_SHRED) = true ∧
      ((min SHRED_TICK_REFERENCE_MASK referenceTick |||
          if isLastInSlot then LAST_SHRED_IN_SLOT else DATA_COMPLETE_SHRED) &&&
        LAST_SHRED_IN_SLOT == LAST_SHRED_IN_SLOT) = isLastInSlot := by
  revert referenceTick
  cases isLastInSlot <;> decide

/-- The first coding shred of each batch follows the coding shreds of the batches before. -/
theorem codeIndices_eq (isLastInSlot : Bool) :
    ∀ (nextCodeIndex : Nat) (batches : List (List ShredData)),
      codeIndices isLastInSlot nextCodeIndex batches =
        (List.range batches.length).map fun k => nextCodeIndex +
          ((batches.take k).map fun batch =>
            getErasureBatchSize batch.length isLastInSlot - batch.length).sum
  | _, [] => rfl
  | nextCodeIndex, batch :: rest => by
    rw [codeIndices, codeIndices_eq isLastInSlot _ rest, List.length_cons, List.range_succ_eq_map,
      List.map_cons, List.map_map]
    simp only [List.take_zero, List.map_nil, List.sum_nil, Nat.add_zero, Function.comp_def,
      List.take_succ_cons, List.map_cons, List.sum_cons, Nat.add_assoc]

/-- Shreds numbered on from \x60index\x60 line up with their positions. -/
theorem all_zipIdx_of_map_index {shreds : List ShredData} {index : Nat}
    (h : shreds.map (·.commonHeader.index) = List.range' index shreds.length) :
    (shreds.zipIdx index).all (fun (shred, i) => shred.commonHeader.index == i) = true := by
  induction shreds generalizing index with
  | nil => rfl
  | cons shred rest ih =>
    rw [List.map_cons, List.length_cons, List.range'_succ, List.cons.injEq] at h
    rw [List.zipIdx_cons, List.all_cons]
    dsimp only
    rw [h.1, beq_self_eq_true, Bool.true_and]
    exact ih h.2

/-- \x60deshred\x60 joins the data of shreds numbered on from the first, the last completing the data,
when there is some data. -/
theorem deshred_eq {shreds : List ShredData} {pieces : List (List UInt8)} {first last : ShredData}
    (hfirst : shreds.head? = some first) (hlast : shreds.getLast? = some last)
    (hindex : shreds.map (·.commonHeader.index) =
      List.range' first.commonHeader.index shreds.length)
    (hcomplete : last.dataComplete = true)
    (hdata : shreds.mapM ShredData.data = .ok pieces) (hne : pieces.flatten ≠ []) :
    deshred shreds = .ok pieces.flatten := by
  unfold deshred
  rw [hfirst, hlast]
  dsimp only
  rw [all_zipIdx_of_map_index hindex, hcomplete]
  simp only [Bool.true_or, Bool.not_true, Bool.or_self, Bool.false_eq_true, if_false, hdata,
    bind, Except.bind]
  rw [if_neg (by simpa using hne)]
  rfl

/-! ## The batches of a plan -/

section Batches

variable {isLastInSlot : Bool} {slot version index : Nat} {dataHeader : DataShredHeader}
  {plans : List BatchPlan}

/-- One erasure set: the batch is opened by its first shred, whose index every shred carries as
its FEC set index, and every shred has the proof size the batch's erasure batch asks for. -/
abbrev ErasureSet (isLastInSlot : Bool) (batch : List ShredData) : Prop :=
  ∃ first ∈ batch.head?, ∀ shred ∈ batch,
    shred.commonHeader.fecSetIndex = first.commonHeader.index ∧
      shred.commonHeader.shredVariant.proofSize =
        getProofSize (getErasureBatchSize batch.length isLastInSlot)

/-- A batch laid out from a plan that fits is one erasure set. -/
theorem erasureSet_of_mem_layout (hfits : ∀ plan ∈ plans, plan.Fits isLastInSlot)
    {batch : List ShredData} (h : batch ∈ layout slot version dataHeader index plans) :
    ErasureSet isLastInSlot batch := by
  obtain ⟨plan, hplan, start, rfl⟩ := mem_layout h
  have hfit := hfits plan hplan
  obtain ⟨piece, rest, hpieces⟩ := List.exists_cons_of_ne_nil hfit.pieces_ne_nil
  refine ⟨newShredData ⟨plan.variant, slot, start, version, start⟩ dataHeader piece, ?_,
    fun shred hshred => ?_⟩
  · rw [hpieces]
    rfl
  · obtain ⟨_, _, _, rfl⟩ := mem_pushShreds hshred
    refine ⟨rfl, ?_⟩
    rw [length_pushShreds]
    exact hfit.proofSize_eq

/-- Marking the last shred keeps a batch one erasure set. -/
theorem erasureSet_markLastShred {batch : List ShredData} (h : ErasureSet isLastInSlot batch) :
    ErasureSet isLastInSlot (markLastShred isLastInSlot batch) := by
  obtain ⟨first, hfirst, hset⟩ := h
  have hhead : first.commonHeader ∈ (markLastShred isLastInSlot batch).head?.map (·.commonHeader) := by
    rw [head?_commonHeader_markLastShred]
    exact Option.mem_map_of_mem _ hfirst
  obtain ⟨marked, hmarked, hsame⟩ := Option.mem_map.mp hhead
  refine ⟨marked, hmarked, fun shred hshred => ?_⟩
  obtain ⟨original, horiginal, horiginal_same⟩ := exists_of_mem_markLastShred hshred
  rw [← horiginal_same, hsame, length_markLastShred]
  exact hset original horiginal

/-- A full batch of a plan is 32 shreds, each holding as much data as its capacity. -/
theorem full_of_mem_layout (hfull : ∀ plan ∈ plans, plan.Fits isLastInSlot ∧ plan.Full)
    {batch : List ShredData} (h : batch ∈ layout slot version dataHeader index plans) :
    batch.length = DATA_SHREDS_PER_FEC_BLOCK ∧ ∀ shred ∈ batch, ∃ piece, shred.data = .ok piece ∧
      capacity shred.commonHeader.shredVariant.proofSize shred.commonHeader.shredVariant.chained
        shred.commonHeader.shredVariant.resigned = .ok piece.length := by
  obtain ⟨plan, hplan, start, rfl⟩ := mem_layout h
  obtain ⟨hfit, hplan_full⟩ := hfull plan hplan
  refine ⟨by rw [length_pushShreds, hplan_full.length_pieces], fun shred hshred => ?_⟩
  obtain ⟨piece, hpiece, index, rfl⟩ := mem_pushShreds hshred
  have hcap := capacity_of_le hfit.proofSize_le plan.variant.chained plan.variant.resigned
  refine ⟨piece, data_newShredData dataHeader hcap (hfit.length_le piece hpiece), ?_⟩
  rw [hplan_full.length_eq piece hpiece]
  exact hcap

/-- The batches of a plan that fits, with the last shred marked in the last batch. -/
theorem planBatches_eq (hfits : ∀ plan ∈ plans, plan.Fits isLastInSlot) :
    planBatches isLastInSlot slot version dataHeader index plans =
      (layout slot version dataHeader index plans).modifyLast (markLastShred isLastInSlot) :=
  groupByErasureBatch_layout isLastInSlot slot version dataHeader index plans fun plan hplan =>
    (hfits plan hplan).pieces_ne_nil

theorem flatten_planBatches :
    (planBatches isLastInSlot slot version dataHeader index plans).flatten =
      markLastShred isLastInSlot (layout slot version dataHeader index plans).flatten :=
  List.flatten_splitBy _ _

/-- The shreds are numbered on from the first index. -/
theorem map_index_planBatches :
    (planBatches isLastInSlot slot version dataHeader index plans).flatten.map
        (·.commonHeader.index) =
      List.range' index (planBatches isLastInSlot slot version dataHeader index plans).flatten.length := by
  have hmarked := congrArg (List.map (·.index))
    (map_commonHeader_markLastShred isLastInSlot
      (layout slot version dataHeader index plans).flatten)
  simp only [List.map_map, Function.comp_def] at hmarked
  have hlength := congrArg List.length (map_index_layout slot version dataHeader index plans)
  rw [List.length_map, List.length_range'] at hlength
  rw [flatten_planBatches, hmarked, map_index_layout, length_markLastShred, hlength]

/-- Every batch of a plan that fits is one erasure set with the proof size it asks for. -/
theorem erasureSet_of_mem_planBatches (hfits : ∀ plan ∈ plans, plan.Fits isLastInSlot)
    {batch : List ShredData}
    (h : batch ∈ planBatches isLastInSlot slot version dataHeader index plans) :
    ErasureSet isLastInSlot batch := by
  rw [planBatches_eq hfits] at h
  have hne : layout slot version dataHeader index plans ≠ [] := by
    intro hnil
    rw [hnil] at h
    cases h
  obtain ⟨init, last, hsplit⟩ : ∃ init last, layout slot version dataHeader index plans =
      init ++ [last] := ⟨_, _, (List.dropLast_append_getLast hne).symm⟩
  rw [hsplit, List.modifyLast_concat] at h
  have hmem : ∀ b ∈ init ++ [last], b ∈ layout slot version dataHeader index plans := by
    rw [hsplit]
    exact fun _ hb => hb
  rcases List.mem_append.mp h with h | h
  · exact erasureSet_of_mem_layout hfits (hmem batch (List.mem_append_left _ h))
  · rw [List.mem_singleton.mp h]
    exact erasureSet_markLastShred
      (erasureSet_of_mem_layout hfits (hmem last (List.mem_append_right _ List.mem_cons_self)))

theorem flatten_layout_ne_nil (hfits : ∀ plan ∈ plans, plan.Fits isLastInSlot)
    (hne : plans ≠ []) : (layout slot version dataHeader index plans).flatten ≠ [] := by
  obtain ⟨plan, rest, rfl⟩ := List.exists_cons_of_ne_nil hne
  rw [layout, List.flatten_cons]
  exact List.append_ne_nil_of_left_ne_nil
    (pushShreds_ne_nil _ dataHeader (hfits plan List.mem_cons_self).pieces_ne_nil) _

/-- All batches but the last are full when all planned batches but the last are. -/
theorem full_of_mem_dropLast_planBatches (hfits : ∀ plan ∈ plans, plan.Fits isLastInSlot)
    (hfull : ∀ plan ∈ plans.dropLast, plan.Full) {batch : List ShredData}
    (h : batch ∈ (planBatches isLastInSlot slot version dataHeader index plans).dropLast) :
    batch.length = DATA_SHREDS_PER_FEC_BLOCK ∧ ∀ shred ∈ batch, ∃ piece, shred.data = .ok piece ∧
      capacity shred.commonHeader.shredVariant.proofSize shred.commonHeader.shredVariant.chained
        shred.commonHeader.shredVariant.resigned = .ok piece.length := by
  have hne : plans ≠ [] := by
    intro hnil
    rw [hnil] at h
    cases h
  obtain ⟨init, last, rfl⟩ : ∃ init last, plans = init ++ [last] :=
    ⟨_, _, (List.dropLast_append_getLast hne).symm⟩
  -- the full batches are those of the plans before the last
  rw [planBatches_eq hfits, layout_append, show layout slot version dataHeader _ [last] =
    [(pushShreds ⟨last.variant, slot, _, version, _⟩ dataHeader last.pieces).1] from rfl,
    List.modifyLast_concat, List.dropLast_concat] at h
  rw [List.dropLast_concat] at hfull
  exact full_of_mem_layout (fun plan hplan =>
    ⟨hfits plan (List.mem_append_left _ hplan), hfull plan hplan⟩) h

/-- Only the last shred completes the data, and it ends the slot for the last in the slot. -/
theorem flags_planBatches {referenceTick : UInt8}
    (hflags : dataHeader.flags = min SHRED_TICK_REFERENCE_MASK referenceTick)
    (hfits : ∀ plan ∈ plans, plan.Fits isLastInSlot) (hne : plans ≠ []) :
    (∀ shred ∈ (planBatches isLastInSlot slot version dataHeader index plans).flatten.dropLast,
        shred.dataComplete = false ∧ shred.lastInSlot = false) ∧
      ∃ last ∈ (planBatches isLastInSlot slot version dataHeader index plans).flatten.getLast?,
        last.dataComplete = true ∧ last.lastInSlot = isLastInSlot := by
  have hshreds : (layout slot version dataHeader index plans).flatten ≠ [] :=
    flatten_layout_ne_nil hfits hne
  rw [flatten_planBatches, markLastShred_eq _ hshreds]
  refine ⟨fun shred hshred => ?_, ?_⟩
  · rw [List.dropLast_concat] at hshred
    have hflag := flags_of_mem_layout (List.mem_of_mem_dropLast hshred)
    unfold ShredData.dataComplete ShredData.lastInSlot
    rw [hflag, hflags]
    exact flags_unmarked referenceTick
  · rw [List.getLast?_concat]
    refine ⟨_, rfl, ?_⟩
    have hflag := flags_of_mem_layout (List.getLast_mem hshreds)
    unfold ShredData.dataComplete ShredData.lastInSlot markShred
    dsimp only
    rw [hflag, hflags]
    exact flags_marked referenceTick isLastInSlot

theorem mapM_data_planBatches (hfits : ∀ plan ∈ plans, plan.Fits isLastInSlot) :
    (planBatches isLastInSlot slot version dataHeader index plans).flatten.mapM ShredData.data =
      .ok (plans.map (·.pieces)).flatten := by
  rw [flatten_planBatches, mapM_data_markLastShred,
    mapM_data_layout slot version dataHeader isLastInSlot index plans hfits]

/-- The shreds of a plan with some data deshred to it. -/
theorem deshred_planBatches {referenceTick : UInt8}
    (hflags : dataHeader.flags = min SHRED_TICK_REFERENCE_MASK referenceTick)
    (hfits : ∀ plan ∈ plans, plan.Fits isLastInSlot) (hne : plans ≠ [])
    (hdata : (plans.map (·.pieces)).flatten.flatten ≠ []) :
    deshred (planBatches isLastInSlot slot version dataHeader index plans).flatten =
      .ok (plans.map (·.pieces)).flatten.flatten := by
  have hshreds : (planBatches isLastInSlot slot version dataHeader index plans).flatten ≠ [] := by
    rw [flatten_planBatches, ← List.length_pos_iff, length_markLastShred, List.length_pos_iff]
    exact flatten_layout_ne_nil hfits hne
  set shreds := (planBatches isLastInSlot slot version dataHeader index plans).flatten
  have hindex : shreds.map (·.commonHeader.index) = List.range' index shreds.length :=
    map_index_planBatches
  obtain ⟨first, hfirst⟩ := Option.isSome_iff_exists.mp (List.isSome_head?.mpr hshreds)
  -- the first shred has the first index
  have hfirst_index : first.commonHeader.index = index := by
    have hhead := congrArg List.head? hindex
    rw [List.head?_map, hfirst, List.head?_range', if_neg (by
      rw [← List.length_pos_iff] at hshreds
      omega)] at hhead
    exact Option.some.inj hhead
  have hlast_flags : ∃ last ∈ shreds.getLast?, last.dataComplete = true ∧
      last.lastInSlot = isLastInSlot := (flags_planBatches hflags hfits hne).2
  obtain ⟨last, hlast, hcomplete, -⟩ := hlast_flags
  exact deshred_eq hfirst hlast (by rw [hfirst_index]; exact hindex) hcomplete
    (mapM_data_planBatches hfits) hdata

end Batches

/-! ## The stage is total and lossless -/

theorem make_data_shreds_total_lossless (chainedMerkleRoot : Option Hash) (data : List UInt8)
    (slot parentSlot shredVersion : Nat) (referenceTick : UInt8) (isLastInSlot : Bool)
    (nextShredIndex nextCodeIndex : Nat) (hparent : parentSlot ≤ slot)
    (hoffset : slot - parentSlot < 2 ^ 16) :
    ∃ batches codes, makeDataShreds chainedMerkleRoot data slot parentSlot shredVersion
        referenceTick isLastInSlot nextShredIndex nextCodeIndex = .ok (batches, codes) ∧
      batches.flatten.map (·.commonHeader.index) =
        List.range' nextShredIndex batches.flatten.length ∧
      (∀ batch ∈ batches, ∃ first ∈ batch.head?, ∀ shred ∈ batch,
        shred.commonHeader.fecSetIndex = first.commonHeader.index ∧
          shred.commonHeader.shredVariant.proofSize =
            getProofSize (getErasureBatchSize batch.length isLastInSlot)) ∧
      (∀ batch ∈ batches.dropLast, batch.length = DATA_SHREDS_PER_FEC_BLOCK ∧
        ∀ shred ∈ batch, ∃ piece, shred.data = .ok piece ∧
          capacity shred.commonHeader.shredVariant.proofSize shred.commonHeader.shredVariant.chained
            shred.commonHeader.shredVariant.resigned = .ok piece.length) ∧
      (∀ shred ∈ batches.flatten.dropLast, shred.dataComplete = false ∧ shred.lastInSlot = false) ∧
      (∃ last ∈ batches.flatten.getLast?,
        last.dataComplete = true ∧ last.lastInSlot = isLastInSlot) ∧
      (∃ pieces, batches.flatten.mapM ShredData.data = .ok pieces ∧ pieces.flatten = data) ∧
      (data ≠ [] → deshred batches.flatten = .ok data) ∧
      codes = (List.range batches.length).map fun k => nextCodeIndex +
        ((batches.take k).map fun batch =>
          getErasureBatchSize batch.length isLastInSlot - batch.length).sum := by
  obtain ⟨plans, hne, hfits, hfull, hjoin, hstage⟩ := makeDataShreds_eq chainedMerkleRoot data slot
    parentSlot shredVersion referenceTick isLastInSlot nextShredIndex nextCodeIndex hparent hoffset
  refine ⟨_, _, hstage, map_index_planBatches,
    fun batch hbatch => erasureSet_of_mem_planBatches hfits hbatch,
    fun batch hbatch => full_of_mem_dropLast_planBatches hfits hfull hbatch,
    (flags_planBatches rfl hfits hne).1, (flags_planBatches rfl hfits hne).2,
    ⟨_, mapM_data_planBatches hfits, hjoin⟩, fun hdata => ?_, codeIndices_eq _ _ _⟩
  -- some data deshreds to itself
  rw [← hjoin] at hdata ⊢
  exact deshred_planBatches rfl hfits hne hdata

theorem make_data_shreds_total_lossless_three_bytes :
    ∃ batches codes, makeDataShreds none [1, 2, 3] 5 4 0 0 false 0 0 = .ok (batches, codes) ∧
      batches.flatten.map (·.commonHeader.index) = List.range' 0 batches.flatten.length ∧
      (∀ batch ∈ batches, ∃ first ∈ batch.head?, ∀ shred ∈ batch,
        shred.commonHeader.fecSetIndex = first.commonHeader.index ∧
          shred.commonHeader.shredVariant.proofSize =
            getProofSize (getErasureBatchSize batch.length false)) ∧
      (∀ batch ∈ batches.dropLast, batch.length = DATA_SHREDS_PER_FEC_BLOCK ∧
        ∀ shred ∈ batch, ∃ piece, shred.data = .ok piece ∧
          capacity shred.commonHeader.shredVariant.proofSize shred.commonHeader.shredVariant.chained
            shred.commonHeader.shredVariant.resigned = .ok piece.length) ∧
      (∀ shred ∈ batches.flatten.dropLast, shred.dataComplete = false ∧ shred.lastInSlot = false) ∧
      (∃ last ∈ batches.flatten.getLast?, last.dataComplete = true ∧ last.lastInSlot = false) ∧
      (∃ pieces, batches.flatten.mapM ShredData.data = .ok pieces ∧ pieces.flatten = [1, 2, 3]) ∧
      (([1, 2, 3] : List UInt8) ≠ [] → deshred batches.flatten = .ok [1, 2, 3]) ∧
      codes = (List.range batches.length).map fun k => 0 +
        ((batches.take k).map fun batch =>
          getErasureBatchSize batch.length false - batch.length).sum :=
  make_data_shreds_total_lossless none [1, 2, 3] 5 4 0 0 false 0 0 (by decide) (by decide)

end Agave.Shred
