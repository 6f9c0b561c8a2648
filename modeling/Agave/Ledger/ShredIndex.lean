import Agave.Lib.BitSet
import Mathlib.Data.Finset.Sort
import Mathlib.Data.Finset.Card

/-!
# The shred index of a slot

`blockstore_meta.rs`: the indices of the shreds of a slot the blockstore holds. `ShredIndex` keeps
them in a `BTreeSet<u64>`. `ShredIndexV2`, which supersedes it, keeps a bit vector of
`MAX_DATA_SHREDS_PER_SLOT` bits, eight to a byte, with their count beside it. It ignores an insert
past the end, and its `remove` (test-only) asserts that the index is below the end.

The bit vector refines the set cut to the indices below the end (`Refines`): each call keeps the
relation (`Refines.insert`, `Refines.remove`), and the relation fixes the bit vector
(`Refines.unique`). `range` reads the words a range overlaps and masks the partial words at its
ends; it yields the members from the start it computes to the end (`mem_range_iff`) in increasing
order (`pairwise_range`). The start and the end are the bounds unless a `u64::MAX` bound wraps in
`n as usize + 1` (`RangeBounds.noWrap`), and then `range` yields exactly what the set's yields,
except on reversed bounds, where `BTreeSet::range` panics and the bit vector's yields nothing
(`RangeBounds.isReversed`). Over any run of calls from the defaults the two indices agree on
`contains`, `num_shreds` and `range`, and the conversions between them are inverse
(`shred_index_v2_refines`).
-/

namespace Agave.Ledger

open BitSet

/-- `MAX_DATA_SHREDS_PER_SLOT`. -/
def MAX_DATA_SHREDS_PER_SLOT : Nat := 32768

/-- `Bound<u64>`. -/
inductive Bound where
  | included (n : Nat)
  | excluded (n : Nat)
  | unbounded
  deriving DecidableEq, Repr

/-- A `RangeBounds<u64>`: its start and end bounds. -/
structure RangeBounds where
  startBound : Bound
  endBound : Bound
  deriving DecidableEq, Repr

/-- `RangeBounds::contains`. -/
def RangeBounds.contains (bounds : RangeBounds) (item : Nat) : Bool :=
  (match bounds.startBound with
    | .included start => decide (start ≤ item)
    | .excluded start => decide (start < item)
    | .unbounded => true) &&
  (match bounds.endBound with
    | .included endIdx => decide (item ≤ endIdx)
    | .excluded endIdx => decide (item < endIdx)
    | .unbounded => true)

/-- The bounds `BTreeMap::range` panics on: a start past the end, or equal bounds both excluded. -/
def RangeBounds.isReversed (bounds : RangeBounds) : Bool :=
  match bounds.startBound, bounds.endBound with
  | .excluded start, .excluded endIdx => decide (endIdx ≤ start)
  | .included start, .included endIdx | .included start, .excluded endIdx
  | .excluded start, .included endIdx => decide (endIdx < start)
  | _, _ => false

/-- The bounds hold `u64` values, and turning them into the start and the end of
`ShredIndexV2::range` wraps nothing: no `Excluded(u64::MAX)` start and no `Included(u64::MAX)`
end. -/
def RangeBounds.noWrap (bounds : RangeBounds) : Bool :=
  (match bounds.startBound with
    | .included n => decide (n < 2 ^ 64)
    | .excluded n => decide (n + 1 < 2 ^ 64)
    | .unbounded => true) &&
  (match bounds.endBound with
    | .included n => decide (n + 1 < 2 ^ 64)
    | .excluded n => decide (n < 2 ^ 64)
    | .unbounded => true)

/-! ## The set -/

/-- `ShredIndex`: the shred indices in a `BTreeSet<u64>`. -/
structure ShredIndex where
  index : Finset Nat
  deriving DecidableEq

instance : Inhabited ShredIndex := ⟨⟨∅⟩⟩

namespace ShredIndex

/-- `num_shreds`. -/
def numShreds (s : ShredIndex) : Nat := s.index.card

/-- `range`: the members within the bounds, in increasing order; `none` where `BTreeSet::range`
panics. -/
def range (s : ShredIndex) (bounds : RangeBounds) : Option (List Nat) :=
  if bounds.isReversed then none else some ((s.index.filter (bounds.contains ·)).sort (· ≤ ·))

/-- `contains`. -/
def contains (s : ShredIndex) (index : Nat) : Bool := decide (index ∈ s.index)

/-- `insert`. -/
def insert (s : ShredIndex) (index : Nat) : ShredIndex := ⟨Insert.insert index s.index⟩

/-- `remove` (test-only). -/
def remove (s : ShredIndex) (index : Nat) : ShredIndex := ⟨s.index.erase index⟩

/-- The indices of the set below `MAX_DATA_SHREDS_PER_SLOT`, the ones a bit vector can hold. -/
def restrict (s : ShredIndex) : ShredIndex := ⟨s.index.filter (· < MAX_DATA_SHREDS_PER_SLOT)⟩

end ShredIndex

/-! ## The bit vector -/

/-- `ShredIndexV2Word`: a `u8`. -/
abbrev ShredIndexV2Word := BitVec 8

namespace ShredIndexV2

/-- `SIZE_OF_WORD`. -/
def SIZE_OF_WORD : Nat := 1

/-- `BITS_PER_WORD`. -/
def BITS_PER_WORD : Nat := SIZE_OF_WORD * 8

/-- `MAX_WORDS_PER_SLOT`: `MAX_DATA_SHREDS_PER_SLOT.div_ceil(BITS_PER_WORD)`. -/
def MAX_WORDS_PER_SLOT : Nat := (MAX_DATA_SHREDS_PER_SLOT + BITS_PER_WORD - 1) / BITS_PER_WORD

theorem BITS_PER_WORD_eq : BITS_PER_WORD = 8 := rfl

theorem MAX_WORDS_PER_SLOT_eq : MAX_WORDS_PER_SLOT = 4096 := rfl

end ShredIndexV2

open ShredIndexV2 in
/-- `ShredIndexV2`: a bit for each index below `MAX_DATA_SHREDS_PER_SLOT`, and the count of the
bits set. -/
structure ShredIndexV2 where
  index : Vector ShredIndexV2Word MAX_WORDS_PER_SLOT
  numShreds : Nat
  deriving DecidableEq

namespace ShredIndexV2

/-- `ShredIndexV2::default()`: every bit clear. -/
instance : Inhabited ShredIndexV2 := ⟨{ index := Vector.replicate MAX_WORDS_PER_SLOT 0#8, numShreds := 0 }⟩

/-- `index_and_mask`: the word of an index, and its bit in the word. -/
def indexAndMask (index : Nat) : Nat × ShredIndexV2Word :=
  let wordIdx := index / BITS_PER_WORD
  let bitIdx := index % BITS_PER_WORD
  let mask := 1#8 <<< bitIdx
  (wordIdx, mask)

theorem wordIdx_lt {index : Nat} (h : index < MAX_DATA_SHREDS_PER_SLOT) :
    (indexAndMask index).1 < MAX_WORDS_PER_SLOT := by
  simp only [indexAndMask, BITS_PER_WORD_eq, MAX_WORDS_PER_SLOT_eq]
  unfold MAX_DATA_SHREDS_PER_SLOT at h
  omega

/-- `remove` (test-only): `none` where its `assert!` fails, for an index past the end. -/
def remove (v : ShredIndexV2) (index : Nat) : Option ShredIndexV2 :=
  if h : index < MAX_DATA_SHREDS_PER_SLOT then
    let p := indexAndMask index
    have hword : p.1 < MAX_WORDS_PER_SLOT := wordIdx_lt h
    if v.index[p.1] &&& p.2 ≠ 0#8 then
      some { index := v.index.set p.1 (v.index[p.1] ^^^ p.2), numShreds := v.numShreds - 1 }
    else some v
  else none

/-- `contains`. -/
def contains (v : ShredIndexV2) (idx : Nat) : Bool :=
  if h : idx ≥ MAX_DATA_SHREDS_PER_SLOT then false
  else
    let p := indexAndMask idx
    have hword : p.1 < MAX_WORDS_PER_SLOT := wordIdx_lt (Nat.lt_of_not_le h)
    v.index[p.1] &&& p.2 != 0#8

/-- `insert`: an index past the end is ignored. -/
def insert (v : ShredIndexV2) (idx : Nat) : ShredIndexV2 :=
  if h : idx ≥ MAX_DATA_SHREDS_PER_SLOT then v
  else
    let p := indexAndMask idx
    have hword : p.1 < MAX_WORDS_PER_SLOT := wordIdx_lt (Nat.lt_of_not_le h)
    if v.index[p.1] &&& p.2 = 0#8 then
      { index := v.index.set p.1 (v.index[p.1] ||| p.2), numShreds := v.numShreds + 1 }
    else v

/-- The start of a range as a `usize`: `n as usize + 1` wraps to `0` at `u64::MAX` in a release
build. -/
def startOf : Bound → Nat
  | .included n => n
  | .excluded n => (n + 1) % 2 ^ 64
  | .unbounded => 0

/-- The end of a range as a `usize`, `MAX_DATA_SHREDS_PER_SLOT` when unbounded; `n as usize + 1`
wraps as in `startOf`. -/
def endOf : Bound → Nat
  | .included n => (n + 1) % 2 ^ 64
  | .excluded n => n
  | .unbounded => MAX_DATA_SHREDS_PER_SLOT

/-- The indices `range` yields from one word at `baseIdx`: the word masked to the bits from
`start` to `endIdx`, then its set bits from the lowest, each added to `baseIdx`. -/
def wordIndices (start endIdx baseIdx : Nat) (word : ShredIndexV2Word) : List Nat :=
  let lowerBound := start - baseIdx
  let upperBound := if baseIdx + BITS_PER_WORD > endIdx then endIdx - baseIdx else BITS_PER_WORD
  let lowerMask := BitVec.allOnes 8 <<< lowerBound
  let upperMask := BitVec.allOnes 8 >>> (BITS_PER_WORD - upperBound)
  let mask := word &&& lowerMask &&& upperMask
  (setBitIndices mask).map (baseIdx + ·)

/-- `range`: the words from `start_word` to `end_word` (the slice `index[start_word..end_word]`),
enumerated, each yielding its indices in the range. -/
def range (v : ShredIndexV2) (bounds : RangeBounds) : List Nat :=
  let start := startOf bounds.startBound
  let endIdx := endOf bounds.endBound
  let endWord := min ((endIdx + BITS_PER_WORD - 1) / BITS_PER_WORD) MAX_WORDS_PER_SLOT
  let startWord := min (start / BITS_PER_WORD) endWord
  ((v.index.toList.drop startWord).take (endWord - startWord)).zipIdx.flatMap
    fun (word, wordOffset) => wordIndices start endIdx ((startWord + wordOffset) * BITS_PER_WORD) word

/-- `iter`: the indices in `0..MAX_DATA_SHREDS_PER_SLOT`. -/
def iter (v : ShredIndexV2) : List Nat := v.range ⟨.included 0, .excluded MAX_DATA_SHREDS_PER_SLOT⟩

end ShredIndexV2

/-- `From<ShredIndex> for ShredIndexV2`: the set's indices, in order, inserted into the default. -/
def ShredIndex.toV2 (s : ShredIndex) : ShredIndexV2 :=
  (s.index.sort (· ≤ ·)).foldl ShredIndexV2.insert default

/-- `From<ShredIndexV2> for ShredIndex`: the indices `iter` yields, collected into a set. -/
def ShredIndexV2.toShredIndex (v : ShredIndexV2) : ShredIndex := ⟨v.iter.toFinset⟩

/-! ## Bits -/

namespace ShredIndexV2

/-- Bit `i` of the bit vector: bit `i % 8` of word `i / 8`, and none past the end. -/
def bit (v : ShredIndexV2) (i : Nat) : Bool :=
  if h : i < MAX_DATA_SHREDS_PER_SLOT then
    have hword : (indexAndMask i).1 < MAX_WORDS_PER_SLOT := wordIdx_lt h
    v.index[(indexAndMask i).1].getLsbD (i % BITS_PER_WORD)
  else false

theorem lt_of_bit {v : ShredIndexV2} {i : Nat} (h : v.bit i = true) :
    i < MAX_DATA_SHREDS_PER_SLOT := by
  unfold bit at h
  split at h
  · assumption
  · cases h

/-- The mask of an index is the set of its bit in the word. -/
theorem getLsbD_mask (index j : Nat) :
    (indexAndMask index).2.getLsbD j = (decide (j < 8) && decide (j = index % BITS_PER_WORD)) :=
  getLsbD_one_shiftLeft _ _

theorem and_mask_ne_zero_iff (word : ShredIndexV2Word) (index : Nat) :
    word &&& (indexAndMask index).2 ≠ 0#8 ↔ word.getLsbD (index % BITS_PER_WORD) = true :=
  and_one_shiftLeft_ne_zero_iff (by rw [BITS_PER_WORD_eq]; exact Nat.mod_lt _ (by decide))

/-- Bit `i` read in the word of an index in the same word. -/
theorem getLsbD_word_eq_bit (v : ShredIndexV2) {i idx : Nat} (hi : i < MAX_DATA_SHREDS_PER_SLOT)
    (hw : (indexAndMask idx).1 < MAX_WORDS_PER_SLOT) (hsame : i / BITS_PER_WORD = idx / BITS_PER_WORD) :
    v.index[(indexAndMask idx).1].getLsbD (i % BITS_PER_WORD) = v.bit i := by
  have hword : (indexAndMask i).1 = (indexAndMask idx).1 := hsame
  unfold bit
  rw [dif_pos hi]
  simp only [hword]

/-- Bit `j` of word `w` is the bit of index `8 w + j`. -/
theorem bit_word (v : ShredIndexV2) {w j : Nat} (hw : w < MAX_WORDS_PER_SLOT) (hj : j < 8) :
    v.bit (w * BITS_PER_WORD + j) = v.index[w].getLsbD j := by
  rw [MAX_WORDS_PER_SLOT_eq] at hw
  have hi : w * BITS_PER_WORD + j < MAX_DATA_SHREDS_PER_SLOT := by
    rw [BITS_PER_WORD_eq]
    unfold MAX_DATA_SHREDS_PER_SLOT
    omega
  have hword : (indexAndMask (w * BITS_PER_WORD + j)).1 = w := by
    simp only [indexAndMask, BITS_PER_WORD_eq]
    omega
  have hbit : (w * BITS_PER_WORD + j) % BITS_PER_WORD = j := by
    rw [BITS_PER_WORD_eq]
    omega
  unfold bit
  rw [dif_pos hi]
  simp only [hword, hbit]

/-- The test of `insert` and `remove`: the bit of the index is clear. -/
theorem and_mask_eq_zero_iff (v : ShredIndexV2) {idx : Nat} (h : idx < MAX_DATA_SHREDS_PER_SLOT)
    (hw : (indexAndMask idx).1 < MAX_WORDS_PER_SLOT) :
    v.index[(indexAndMask idx).1] &&& (indexAndMask idx).2 = 0#8 ↔ v.bit idx = false := by
  rw [← getLsbD_word_eq_bit v h hw rfl, ← Bool.not_eq_true, ← and_mask_ne_zero_iff, not_not]

/-- `contains` reads the bit of the index. -/
theorem contains_eq_bit (v : ShredIndexV2) (i : Nat) : v.contains i = v.bit i := by
  unfold contains
  by_cases h : i < MAX_DATA_SHREDS_PER_SLOT
  · rw [dif_neg (Nat.not_le.mpr h)]
    simp only
    rw [Bool.eq_iff_iff, bne_iff_ne, and_mask_ne_zero_iff, getLsbD_word_eq_bit v h _ rfl]
  · rw [dif_pos (Nat.le_of_not_lt h)]
    unfold bit
    rw [dif_neg h]

/-- A word written at the word of `idx` changes the bits of that word only. -/
theorem bit_set (v : ShredIndexV2) {idx : Nat} (hw : (indexAndMask idx).1 < MAX_WORDS_PER_SLOT)
    (word : ShredIndexV2Word) (n i : Nat) :
    ({ index := v.index.set (indexAndMask idx).1 word hw, numShreds := n } : ShredIndexV2).bit i =
      if i / BITS_PER_WORD = idx / BITS_PER_WORD ∧ i < MAX_DATA_SHREDS_PER_SLOT then
        word.getLsbD (i % BITS_PER_WORD)
      else v.bit i := by
  unfold bit
  by_cases h : i < MAX_DATA_SHREDS_PER_SLOT
  · rw [dif_pos h, dif_pos h]
    simp only
    rw [Vector.getElem_set]
    by_cases hwi : (indexAndMask idx).1 = (indexAndMask i).1
    · rw [if_pos hwi, if_pos ⟨hwi.symm, h⟩]
    · rw [if_neg hwi, if_neg (fun hc => hwi hc.1.symm)]
  · rw [dif_neg h, dif_neg h, if_neg (fun hc => h hc.2)]

/-- Two bit vectors with the same bits and the same count are the same. -/
theorem ext_bit {v v' : ShredIndexV2} (hbit : ∀ i, v.bit i = v'.bit i)
    (hnum : v.numShreds = v'.numShreds) : v = v' := by
  obtain ⟨index, numShreds⟩ := v
  obtain ⟨index', numShreds'⟩ := v'
  simp only at hnum
  subst hnum
  congr 1
  apply Vector.ext
  intro w hw
  apply BitVec.eq_of_getLsbD_eq
  intro j hj
  have := hbit (w * BITS_PER_WORD + j)
  rw [bit_word _ hw hj, bit_word _ hw hj] at this
  exact this

/-! ## The calls, bit by bit -/

/-- The word's bit `i % 8` after setting or clearing the bit of `idx` in the same word. -/
theorem mask_bit_iff {i idx : Nat} (hsame : i / BITS_PER_WORD = idx / BITS_PER_WORD) :
    (decide (i % BITS_PER_WORD < 8) && decide (i % BITS_PER_WORD = idx % BITS_PER_WORD)) =
      decide (i = idx) := by
  rw [BITS_PER_WORD_eq] at hsame ⊢
  rw [Bool.eq_iff_iff]
  simp only [Bool.and_eq_true, decide_eq_true_eq]
  omega

theorem bit_insert (v : ShredIndexV2) (idx i : Nat) :
    (v.insert idx).bit i = (v.bit i || decide (i = idx ∧ idx < MAX_DATA_SHREDS_PER_SLOT)) := by
  unfold insert
  by_cases h : idx < MAX_DATA_SHREDS_PER_SLOT
  · rw [dif_neg (Nat.not_le.mpr h)]
    simp only
    split
    · -- the bit was clear: the word gets it
      rw [bit_set]
      by_cases hi : i / BITS_PER_WORD = idx / BITS_PER_WORD ∧ i < MAX_DATA_SHREDS_PER_SLOT
      · rw [if_pos hi, BitVec.getLsbD_or, getLsbD_mask, getLsbD_word_eq_bit v hi.2 _ hi.1,
          mask_bit_iff hi.1]
        simp [h]
      · rw [if_neg hi]
        have hne : ¬(i = idx ∧ idx < MAX_DATA_SHREDS_PER_SLOT) := fun hc =>
          hi ⟨by rw [hc.1], hc.1 ▸ hc.2⟩
        simp [hne]
    · -- the bit was set already
      rename_i hset
      have hbit : v.bit idx = true := by
        rw [← Bool.not_eq_false, ← and_mask_eq_zero_iff v h]
        exact hset
      by_cases hi : i = idx
      · subst hi
        simp [hbit]
      · simp [hi]
  · rw [dif_pos (Nat.le_of_not_lt h)]
    simp [h]

theorem numShreds_insert (v : ShredIndexV2) (idx : Nat) :
    (v.insert idx).numShreds =
      v.numShreds + if idx < MAX_DATA_SHREDS_PER_SLOT ∧ v.bit idx = false then 1 else 0 := by
  unfold insert
  by_cases h : idx < MAX_DATA_SHREDS_PER_SLOT
  · rw [dif_neg (Nat.not_le.mpr h)]
    simp only
    split
    · rename_i hclear
      rw [and_mask_eq_zero_iff v h] at hclear
      simp [h, hclear]
    · rename_i hset
      rw [and_mask_eq_zero_iff v h] at hset
      simp [hset]
  · rw [dif_pos (Nat.le_of_not_lt h)]
    simp [h]

/-- `remove` below the end goes through, and clears the bit of the index. -/
theorem remove_eq_some {v : ShredIndexV2} {idx : Nat} (h : idx < MAX_DATA_SHREDS_PER_SLOT) :
    ∃ v', v.remove idx = some v' ∧ (∀ i, v'.bit i = (v.bit i && decide (i ≠ idx))) ∧
      v'.numShreds = v.numShreds - if v.bit idx = true then 1 else 0 := by
  unfold remove
  rw [dif_pos h]
  simp only
  split
  · -- the bit was set: the word loses it
    rename_i hset
    have hbit : v.bit idx = true := by
      rw [← Bool.not_eq_false, ← and_mask_eq_zero_iff v h]
      exact hset
    refine ⟨_, rfl, fun i => ?_, by simp [hbit]⟩
    rw [bit_set]
    by_cases hi : i / BITS_PER_WORD = idx / BITS_PER_WORD ∧ i < MAX_DATA_SHREDS_PER_SLOT
    · rw [if_pos hi, BitVec.getLsbD_xor, getLsbD_mask, getLsbD_word_eq_bit v hi.2 _ hi.1,
        mask_bit_iff hi.1]
      by_cases hii : i = idx
      · subst hii
        simp [hbit]
      · simp [hii]
    · rw [if_neg hi]
      have hne : i ≠ idx := fun hc => hi ⟨by rw [hc], hc ▸ h⟩
      simp [hne]
  · -- the bit was clear: nothing changes
    rename_i hclear
    rw [not_not, and_mask_eq_zero_iff v h] at hclear
    refine ⟨v, rfl, fun i => ?_, by simp [hclear]⟩
    by_cases hi : i = idx
    · subst hi
      simp [hclear]
    · simp [hi]

/-! ## `range` -/

theorem upperBound_le (baseIdx endIdx : Nat) :
    (if baseIdx + 8 > endIdx then endIdx - baseIdx else 8) ≤ 8 := by
  split <;> omega

/-- One word of `range` yields the indices of its set bits that lie in the range. -/
theorem mem_wordIndices (start endIdx baseIdx : Nat) (word : ShredIndexV2Word) (i : Nat) :
    i ∈ wordIndices start endIdx baseIdx word ↔
      baseIdx ≤ i ∧ i < baseIdx + BITS_PER_WORD ∧ start ≤ i ∧ i < endIdx ∧
        word.getLsbD (i - baseIdx) = true := by
  unfold wordIndices
  rw [BITS_PER_WORD_eq]
  simp only [List.mem_map, mem_setBitIndices, BitVec.getLsbD_and, getLsbD_allOnes_shiftLeft,
    getLsbD_allOnes_ushiftRight (upperBound_le baseIdx endIdx), Bool.and_eq_true,
    decide_eq_true_eq]
  constructor
  · rintro ⟨j, ⟨⟨hword, hj, hlow⟩, hup⟩, rfl⟩
    refine ⟨by omega, by omega, by omega, ?_, by simpa using hword⟩
    split at hup <;> omega
  · rintro ⟨hbase, htop, hstart, hend, hword⟩
    refine ⟨i - baseIdx, ⟨⟨hword, by omega, by omega⟩, ?_⟩, by omega⟩
    split <;> omega

theorem pairwise_wordIndices (start endIdx baseIdx : Nat) (word : ShredIndexV2Word) :
    (wordIndices start endIdx baseIdx word).Pairwise (· < ·) := by
  unfold wordIndices
  rw [List.pairwise_map]
  exact (pairwise_setBitIndices _).imp fun h => by omega

/-- The words of the slice `index[startWord..startWord + n]`, with their offsets. -/
theorem mem_zipIdx_slice {l : List ShredIndexV2Word} {startWord n : Nat}
    {p : ShredIndexV2Word × Nat} (hl : startWord + n ≤ l.length) :
    p ∈ ((l.drop startWord).take n).zipIdx ↔
      ∃ k, ∃ hk : k < n, p = (l[startWord + k], k) := by
  rw [List.mem_iff_getElem]
  constructor
  · rintro ⟨k, hk, rfl⟩
    simp only [List.length_zipIdx, List.length_take, List.length_drop] at hk
    refine ⟨k, by omega, ?_⟩
    simp [List.getElem_zipIdx]
  · rintro ⟨k, hk, rfl⟩
    refine ⟨k, by simp; omega, ?_⟩
    simp [List.getElem_zipIdx]

/-- The words from `startWord` to `endWord` yield the indices in them, in the range, whose bit is
set. -/
theorem mem_words (v : ShredIndexV2) {start endIdx startWord endWord : Nat}
    (hsw : startWord ≤ endWord) (hew : endWord ≤ MAX_WORDS_PER_SLOT) (i : Nat) :
    i ∈ ((v.index.toList.drop startWord).take (endWord - startWord)).zipIdx.flatMap
        (fun (word, wordOffset) =>
          wordIndices start endIdx ((startWord + wordOffset) * BITS_PER_WORD) word) ↔
      startWord * BITS_PER_WORD ≤ i ∧ i < endWord * BITS_PER_WORD ∧ start ≤ i ∧ i < endIdx ∧
        v.bit i = true := by
  have hl : startWord + (endWord - startWord) ≤ v.index.toList.length := by
    rw [Vector.length_toList]
    omega
  rw [List.mem_flatMap]
  constructor
  · rintro ⟨p, hp, hi⟩
    obtain ⟨k, hk, rfl⟩ := (mem_zipIdx_slice hl).mp hp
    rw [mem_wordIndices] at hi
    obtain ⟨hbase, htop, hstart, hend, hword⟩ := hi
    -- the index is bit `i - 8 (startWord + k)` of word `startWord + k`
    have hw : startWord + k < MAX_WORDS_PER_SLOT := by omega
    have hj : i - (startWord + k) * BITS_PER_WORD < 8 := by
      rw [BITS_PER_WORD_eq] at htop ⊢
      omega
    have hbit := bit_word v hw hj
    rw [show (startWord + k) * BITS_PER_WORD + (i - (startWord + k) * BITS_PER_WORD) = i by omega]
      at hbit
    simp only [Vector.getElem_toList] at hword
    refine ⟨by rw [BITS_PER_WORD_eq] at hbase ⊢; omega, ?_, hstart, hend, by rw [hbit, hword]⟩
    rw [BITS_PER_WORD_eq] at htop ⊢
    omega
  · rintro ⟨hlo, hhi, hstart, hend, hbit⟩
    rw [BITS_PER_WORD_eq] at hlo hhi
    -- the word of the index, at its offset in the slice
    have hw : i / 8 < MAX_WORDS_PER_SLOT := by omega
    have hj : i % 8 < 8 := Nat.mod_lt _ (by decide)
    have hword := bit_word v hw hj
    rw [BITS_PER_WORD_eq, Nat.div_add_mod'] at hword
    have hidx : startWord + (i / 8 - startWord) < v.index.toList.length := by
      rw [Vector.length_toList]
      omega
    refine ⟨(v.index.toList[startWord + (i / 8 - startWord)], i / 8 - startWord),
      (mem_zipIdx_slice hl).mpr ⟨i / 8 - startWord, by omega, rfl⟩, ?_⟩
    dsimp only
    rw [mem_wordIndices, BITS_PER_WORD_eq]
    refine ⟨by omega, by omega, hstart, hend, ?_⟩
    simp only [show startWord + (i / 8 - startWord) = i / 8 by omega, Vector.getElem_toList,
      show i - i / 8 * 8 = i % 8 by omega]
    rw [← hword]
    exact hbit

/-- `range` yields the indices whose bit is set, from the start it computes to the end. -/
theorem mem_range_iff (v : ShredIndexV2) (bounds : RangeBounds) (i : Nat) :
    i ∈ v.range bounds ↔
      v.bit i = true ∧ startOf bounds.startBound ≤ i ∧ i < endOf bounds.endBound := by
  unfold range
  simp only
  rw [mem_words v (Nat.min_le_right _ _) (Nat.min_le_right _ _)]
  constructor
  · rintro ⟨-, -, hstart, hend, hbit⟩
    exact ⟨hbit, hstart, hend⟩
  · rintro ⟨hbit, hstart, hend⟩
    have hmax := lt_of_bit hbit
    -- the words the range reads run from the start's word to the end's, within the vector
    rw [BITS_PER_WORD_eq, MAX_WORDS_PER_SLOT_eq]
    unfold MAX_DATA_SHREDS_PER_SLOT at hmax
    exact ⟨by omega, by omega, hstart, hend, hbit⟩

/-- Where nothing wraps, the start and the end `range` computes are the bounds. -/
theorem contains_iff {bounds : RangeBounds} (hwrap : bounds.noWrap = true) {i : Nat}
    (hi : i < MAX_DATA_SHREDS_PER_SLOT) :
    bounds.contains i = true ↔ startOf bounds.startBound ≤ i ∧ i < endOf bounds.endBound := by
  obtain ⟨startBound, endBound⟩ := bounds
  cases startBound <;> cases endBound <;>
    simp only [RangeBounds.noWrap, RangeBounds.contains, startOf, endOf, Bool.and_eq_true,
      Bool.true_and, Bool.and_true, decide_eq_true_eq, Nat.reducePow, true_iff] at hwrap ⊢ <;>
    omega

/-- `range` yields the indices whose bit is set and that lie in the range. -/
theorem mem_range (v : ShredIndexV2) {bounds : RangeBounds} (hwrap : bounds.noWrap = true)
    (i : Nat) : i ∈ v.range bounds ↔ v.bit i = true ∧ bounds.contains i = true := by
  rw [mem_range_iff]
  exact and_congr_right fun hbit => (contains_iff hwrap (lt_of_bit hbit)).symm

/-- On the bounds the set's `range` panics on, the bit vector's yields nothing. -/
theorem range_eq_nil_of_isReversed (v : ShredIndexV2) {bounds : RangeBounds}
    (hwrap : bounds.noWrap = true) (hrev : bounds.isReversed = true) : v.range bounds = [] := by
  refine List.eq_nil_iff_forall_not_mem.mpr fun i hi => ?_
  obtain ⟨-, hstart, hend⟩ := (mem_range_iff v bounds i).mp hi
  obtain ⟨startBound, endBound⟩ := bounds
  cases startBound <;> cases endBound <;>
    simp only [RangeBounds.noWrap, RangeBounds.isReversed, startOf, endOf, Bool.and_eq_true,
      Bool.true_and, Bool.and_true, decide_eq_true_eq, Nat.reducePow, Bool.false_eq_true]
      at hwrap hrev hstart hend <;>
    omega

/-- `range` yields its indices in increasing order: the words in order, and in each word the bits
from the lowest. -/
theorem pairwise_range (v : ShredIndexV2) (bounds : RangeBounds) :
    (v.range bounds).Pairwise (· < ·) := by
  unfold range
  simp only
  rw [List.pairwise_flatMap]
  refine ⟨fun p _ => pairwise_wordIndices _ _ _ _, ?_⟩
  rw [List.pairwise_iff_getElem]
  intro a b ha hb hab x hx y hy
  simp only [List.getElem_zipIdx] at hx hy
  rw [mem_wordIndices] at hx hy
  -- an index of word `a` is below word `a + 1`, and one of word `b` is not
  obtain ⟨-, hx, -⟩ := hx
  obtain ⟨hy, -⟩ := hy
  rw [BITS_PER_WORD_eq] at hx hy
  omega
end ShredIndexV2

/-! ## The bit vector refines the set -/

/-- The bit vector holds the set's indices below the end, and counts them. -/
def Refines (v : ShredIndexV2) (s : ShredIndex) : Prop :=
  (∀ i, v.bit i = s.restrict.contains i) ∧ v.numShreds = s.restrict.numShreds

theorem ShredIndex.mem_restrict {s : ShredIndex} {i : Nat} :
    s.restrict.contains i = true ↔ i ∈ s.index ∧ i < MAX_DATA_SHREDS_PER_SLOT := by
  simp [ShredIndex.restrict, ShredIndex.contains]

theorem ShredIndex.restrict_restrict (s : ShredIndex) : s.restrict.restrict = s.restrict := by
  unfold ShredIndex.restrict
  rw [Finset.filter_filter]
  simp

theorem refines_default : Refines default default := by
  refine ⟨fun i => ?_, rfl⟩
  -- every word of the default is zero, and the default set is empty
  have hbit : (default : ShredIndexV2).bit i = false := by
    unfold ShredIndexV2.bit
    split
    · rw [show (default : ShredIndexV2).index = Vector.replicate _ 0#8 from rfl]
      simp only [Vector.getElem_replicate, BitVec.getLsbD_zero]
    · rfl
  rw [hbit, eq_comm, ← Bool.not_eq_true, ShredIndex.mem_restrict]
  simp [show (default : ShredIndex).index = ∅ from rfl]

namespace Refines

variable {v : ShredIndexV2} {s : ShredIndex}

theorem insert (h : Refines v s) (idx : Nat) : Refines (v.insert idx) (s.insert idx) := by
  obtain ⟨hbit, hnum⟩ := h
  refine ⟨fun i => ?_, ?_⟩
  · rw [ShredIndexV2.bit_insert, hbit, Bool.eq_iff_iff, Bool.or_eq_true, ShredIndex.mem_restrict,
      ShredIndex.mem_restrict, decide_eq_true_eq]
    simp only [ShredIndex.insert, Finset.mem_insert]
    constructor
    · rintro (⟨hi, hmax⟩ | ⟨rfl, hmax⟩)
      · exact ⟨Or.inr hi, hmax⟩
      · exact ⟨Or.inl rfl, hmax⟩
    · rintro ⟨rfl | hi, hmax⟩
      · exact Or.inr ⟨rfl, hmax⟩
      · exact Or.inl ⟨hi, hmax⟩
  · rw [ShredIndexV2.numShreds_insert, hnum]
    unfold ShredIndex.numShreds ShredIndex.restrict ShredIndex.insert
    rw [Finset.filter_insert]
    by_cases hidx : idx < MAX_DATA_SHREDS_PER_SLOT
    · rw [if_pos hidx]
      by_cases hmem : idx ∈ s.index.filter (· < MAX_DATA_SHREDS_PER_SLOT)
      · -- the index is held already, so its bit is set
        have hset : v.bit idx = true := by
          rw [hbit, ShredIndex.mem_restrict]
          exact Finset.mem_filter.mp hmem
        rw [Finset.insert_eq_of_mem hmem]
        simp [hset]
      · have hclear : v.bit idx = false := by
          rw [hbit, ← Bool.not_eq_true, ShredIndex.mem_restrict]
          exact fun hc => hmem (Finset.mem_filter.mpr hc)
        rw [Finset.card_insert_of_notMem hmem]
        simp [hidx, hclear]
    · rw [if_neg hidx]
      simp [hidx]

theorem remove (h : Refines v s) {idx : Nat} (hidx : idx < MAX_DATA_SHREDS_PER_SLOT) :
    ∃ v', v.remove idx = some v' ∧ Refines v' (s.remove idx) := by
  obtain ⟨hbit, hnum⟩ := h
  obtain ⟨v', hv', hbit', hnum'⟩ := ShredIndexV2.remove_eq_some (v := v) hidx
  refine ⟨v', hv', fun i => ?_, ?_⟩
  · rw [hbit', hbit, Bool.eq_iff_iff, Bool.and_eq_true, ShredIndex.mem_restrict,
      ShredIndex.mem_restrict, decide_eq_true_eq]
    simp only [ShredIndex.remove, Finset.mem_erase]
    constructor
    · rintro ⟨⟨hi, hmax⟩, hne⟩
      exact ⟨⟨hne, hi⟩, hmax⟩
    · rintro ⟨⟨hne, hi⟩, hmax⟩
      exact ⟨⟨hi, hmax⟩, hne⟩
  · rw [hnum', hnum]
    unfold ShredIndex.numShreds ShredIndex.restrict ShredIndex.remove
    rw [Finset.filter_erase]
    by_cases hmem : idx ∈ s.index.filter (· < MAX_DATA_SHREDS_PER_SLOT)
    · have hset : v.bit idx = true := by
        rw [hbit, ShredIndex.mem_restrict]
        exact Finset.mem_filter.mp hmem
      rw [Finset.card_erase_of_mem hmem, if_pos hset]
    · have hclear : v.bit idx = false := by
        rw [hbit, ← Bool.not_eq_true, ShredIndex.mem_restrict]
        exact fun hc => hmem (Finset.mem_filter.mpr hc)
      rw [Finset.erase_eq_of_notMem hmem, hclear]
      rfl

/-- The set fixes the bit vector that refines it. -/
theorem unique {v' : ShredIndexV2} (h : Refines v s) (h' : Refines v' s) : v = v' :=
  ShredIndexV2.ext_bit (fun i => by rw [h.1, h'.1]) (by rw [h.2, h'.2])

theorem of_restrict (h : Refines v s.restrict) : Refines v s := by
  rw [Refines, ← ShredIndex.restrict_restrict s]
  exact h

theorem contains_eq (h : Refines v s) (i : Nat) : v.contains i = s.restrict.contains i := by
  rw [ShredIndexV2.contains_eq_bit, h.1]

/-- `range` on the bit vector yields what `range` on the set yields, where the set's does not
panic and nothing wraps. -/
theorem range_eq (h : Refines v s) {bounds : RangeBounds} (hwrap : bounds.noWrap = true)
    (hrev : bounds.isReversed = false) : s.restrict.range bounds = some (v.range bounds) := by
  rw [ShredIndex.range, if_neg (by rw [hrev]; decide), Option.some.injEq]
  symm
  apply List.Pairwise.eq_of_mem_iff (ShredIndexV2.pairwise_range v bounds)
    (List.sortedLT_iff_pairwise.mp (Finset.sortedLT_sort _))
  intro i
  rw [ShredIndexV2.mem_range v hwrap, h.1]
  simp only [Finset.mem_sort, Finset.mem_filter, ShredIndex.contains, decide_eq_true_eq]

/-- `From<ShredIndexV2>` gives back the set. -/
theorem toShredIndex_eq (h : Refines v s) : v.toShredIndex = s.restrict := by
  unfold ShredIndexV2.toShredIndex
  congr 1
  ext i
  rw [List.mem_toFinset, ShredIndexV2.iter, ShredIndexV2.mem_range _ (by decide), h.1]
  have hmem := ShredIndex.mem_restrict (s := s) (i := i)
  simp only [ShredIndex.contains] at hmem ⊢
  simp only [decide_eq_true_eq] at hmem ⊢
  rw [hmem]
  constructor
  · rintro ⟨⟨hi, hmax⟩, -⟩
    exact Finset.mem_filter.mpr ⟨hi, hmax⟩
  · intro hi
    obtain ⟨hi, hmax⟩ := Finset.mem_filter.mp hi
    exact ⟨⟨hi, hmax⟩, by simp [RangeBounds.contains, hmax]⟩

theorem foldl_insert : ∀ (l : List Nat) {v : ShredIndexV2} {s : ShredIndex}, Refines v s →
    Refines (l.foldl ShredIndexV2.insert v) (l.foldl ShredIndex.insert s)
  | [], _, _, h => h
  | i :: l, _, _, h => foldl_insert l (h.insert i)

end Refines

theorem ShredIndex.index_foldl_insert :
    ∀ (l : List Nat) (s : ShredIndex), (l.foldl ShredIndex.insert s).index = s.index ∪ l.toFinset
  | [], s => by simp
  | i :: l, s => by
    rw [List.foldl_cons, index_foldl_insert l, List.toFinset_cons]
    ext j
    simp only [ShredIndex.insert, Finset.mem_union, Finset.mem_insert, List.mem_toFinset]
    tauto

/-- `From<ShredIndex>` gives a bit vector that refines the set. -/
theorem refines_toV2 (s : ShredIndex) : Refines s.toV2 s := by
  have h := Refines.foldl_insert (s.index.sort (· ≤ ·)) refines_default
  have hs : (s.index.sort (· ≤ ·)).foldl ShredIndex.insert default = s := by
    have hindex := ShredIndex.index_foldl_insert (s.index.sort (· ≤ ·)) default
    rw [Finset.sort_toFinset, show (default : ShredIndex).index = ∅ from rfl,
      Finset.empty_union] at hindex
    cases hfold : (s.index.sort (· ≤ ·)).foldl ShredIndex.insert default
    rw [hfold] at hindex
    cases s
    simp only at hindex
    rw [hindex]
  rw [hs] at h
  exact h

/-! ## Runs of calls -/

/-- A call on a shred index. -/
inductive Op where
  | insert (index : Nat)
  | remove (index : Nat)
  deriving DecidableEq, Repr

/-- The call on the bit vector: `none` where `remove` fails its assertion. -/
def Op.applyV2 : Op → ShredIndexV2 → Option ShredIndexV2
  | .insert index, v => some (v.insert index)
  | .remove index, v => v.remove index

/-- The call on the set. -/
def Op.applyRef : Op → ShredIndex → ShredIndex
  | .insert index, s => s.insert index
  | .remove index, s => s.remove index

/-- The calls one after another on `ShredIndexV2::default()`. -/
def runV2 (ops : List Op) : Option ShredIndexV2 := ops.foldlM (fun v op => op.applyV2 v) default

/-- The calls one after another on `ShredIndex::default()`. -/
def runRef (ops : List Op) : ShredIndex := ops.foldl (fun s op => op.applyRef s) default

/-- Every call keeps the refinement, when no `remove` is past the end. -/
theorem Refines.run : ∀ (ops : List Op) {v : ShredIndexV2} {s : ShredIndex}, Refines v s →
    (∀ i, Op.remove i ∈ ops → i < MAX_DATA_SHREDS_PER_SLOT) →
    ∃ v', ops.foldlM (fun v op => op.applyV2 v) v = some v' ∧
      Refines v' (ops.foldl (fun s op => op.applyRef s) s)
  | [], v, _, h, _ => ⟨v, rfl, h⟩
  | .insert i :: ops, v, _, h, hremove => by
    obtain ⟨v', hrun, h'⟩ :=
      Refines.run ops (h.insert i) fun j hj => hremove j (List.mem_cons_of_mem _ hj)
    exact ⟨v', by simpa [Op.applyV2] using hrun, h'⟩
  | .remove i :: ops, v, _, h, hremove => by
    obtain ⟨v₁, hv₁, h₁⟩ := h.remove (hremove i List.mem_cons_self)
    obtain ⟨v', hrun, h'⟩ :=
      Refines.run ops h₁ fun j hj => hremove j (List.mem_cons_of_mem _ hj)
    exact ⟨v', by simpa [Op.applyV2, hv₁] using hrun, h'⟩

/-- The bit vector against the set over any run of `insert` and `remove` calls from the defaults,
no `remove` past the end: after the run the bit vector agrees with the set cut to the indices below
the end on `contains` and `num_shreds`, and on `range` over any bounds of `u64` values that wrap
nothing where the set's `range` does not panic; where it does, the bit vector's yields nothing.
Converting the bit vector gives that set, and converting that set back gives it. Converting any set
below the end to a bit vector and back gives the set. -/
theorem shred_index_v2_refines (ops : List Op)
    (hremove : ∀ i, Op.remove i ∈ ops → i < MAX_DATA_SHREDS_PER_SLOT) :
    ∃ v, runV2 ops = some v ∧
      (∀ i, v.contains i = (runRef ops).restrict.contains i) ∧
      v.numShreds = (runRef ops).restrict.numShreds ∧
      (∀ bounds, bounds.noWrap = true → bounds.isReversed = false →
        (runRef ops).restrict.range bounds = some (v.range bounds)) ∧
      (∀ bounds, bounds.noWrap = true → bounds.isReversed = true →
        (runRef ops).restrict.range bounds = none ∧ v.range bounds = []) ∧
      v.toShredIndex = (runRef ops).restrict ∧ (runRef ops).restrict.toV2 = v ∧
      ∀ s : ShredIndex, (∀ i ∈ s.index, i < MAX_DATA_SHREDS_PER_SLOT) → s.toV2.toShredIndex = s := by
  obtain ⟨v, hrun, h⟩ := Refines.run ops refines_default hremove
  refine ⟨v, hrun, h.contains_eq, h.2, fun bounds hwrap hrev => h.range_eq hwrap hrev,
    fun bounds hwrap hrev => ?_, h.toShredIndex_eq, ?_, fun s hs => ?_⟩
  · -- the set panics, and the bit vector finds no index from the start to the end before it
    exact ⟨by rw [ShredIndex.range, if_pos hrev],
      ShredIndexV2.range_eq_nil_of_isReversed v hwrap hrev⟩
  · exact Refines.unique (Refines.of_restrict (refines_toV2 _)) h
  · -- a set below the end is its own restriction
    have hself : s.restrict = s := by
      cases s
      simp only [ShredIndex.restrict, ShredIndex.mk.injEq]
      exact Finset.filter_true_of_mem hs
    rw [(refines_toV2 s).toShredIndex_eq, hself]

/-- Inserts in and past the end and a remove: one index is left below the end, and the two
indices agree on the range of everything. -/
theorem shred_index_v2_refines_mixed :
    (∀ i, Op.remove i ∈ [.insert 3, .insert 40000, .remove 3, .insert 7] →
      i < MAX_DATA_SHREDS_PER_SLOT) ∧
    ∃ v, runV2 [.insert 3, .insert 40000, .remove 3, .insert 7] = some v ∧ v.numShreds = 1 ∧
      (runRef [.insert 3, .insert 40000, .remove 3, .insert 7]).restrict.range
        ⟨.unbounded, .unbounded⟩ = some (v.range ⟨.unbounded, .unbounded⟩) := by
  have hremove : ∀ i, Op.remove i ∈ [.insert 3, .insert 40000, .remove 3, .insert 7] →
      i < MAX_DATA_SHREDS_PER_SLOT := by
    intro i hi
    simp only [List.mem_cons, Op.remove.injEq, reduceCtorEq, List.not_mem_nil, or_false,
      false_or] at hi
    subst hi
    decide
  obtain ⟨v, hv, -, hnum, hrange, -⟩ := shred_index_v2_refines _ hremove
  exact ⟨hremove, v, hv, hnum.trans (by decide), hrange _ rfl rfl⟩

/-- Two calls the claim allows that the two indices do not agree on. A `remove` past the end fails
the assertion of `ShredIndexV2::remove`, where the set's `remove` goes through. A reversed range,
`5..3`, panics in `BTreeSet::range`, where the bit vector's `range` yields nothing. -/
theorem shred_index_v2_remove_past_end_reversed_range :
    runV2 [.remove MAX_DATA_SHREDS_PER_SLOT] = none ∧
      runRef [.remove MAX_DATA_SHREDS_PER_SLOT] = default ∧
      (runRef [.insert 3, .insert 4]).restrict.range ⟨.included 5, .excluded 3⟩ = none ∧
      ∀ v : ShredIndexV2, v.range ⟨.included 5, .excluded 3⟩ = [] :=
  ⟨rfl, by decide, rfl, fun v => ShredIndexV2.range_eq_nil_of_isReversed v rfl rfl⟩

end Agave.Ledger
