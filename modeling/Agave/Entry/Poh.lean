import Agave.Sdk.Basic
import Agave.Lib.ListOrder

/-!
# Proof of history: the generator and the entry verifier

`Poh` (`entry/src/poh.rs`) hashes a chain forward and emits an entry at each tick and for each
mixin it records; `next_hash` (`entry/src/entry.rs`) recomputes an entry's hash from the hash of
the entry before it, with a `Poh` of its own in low-power mode.

* The calls `Poh::hash` (here `doHash`, `hash` being the field), `record`, `record_bundle` and
  `tick` are `none` where the source panics: an `assert!` that fails, or a `u64` subtraction that
  would underflow. `runCalls` applies a sequence of them and collects what they emit.
* `Inv` ties a state of the generator to the entries emitted before it: the hashes of the entries
  since the last tick, those counted in `num_hashes` and those remaining make up one tick; the
  state's hash is the hash of the last entry hashed `num_hashes` times more; and every entry
  emitted so far checks out against the entries before it (`EntrySound`). Every call keeps it
  (`Inv.apply`), so every run does (`Inv.run`).
* `nextHash_tick` and `nextHash_record` say what the verifier computes, which is what `Inv` needs
  of each new entry; `poh_entries_verify` puts the two sides together.

Counters are naturals. `num_hashes` stays below `hashes_per_tick` and so within `u64` (`Inv`), and
`tick_number` counts ticks, of which no run makes `2^64`.
-/

namespace Agave.Entry

/-- `LOW_POWER_MODE`: a `hashes_per_tick` at which every `tick` emits. -/
def LOW_POWER_MODE : Nat := U64_MAX

/-- `Poh`, without the `slot_start_time` that only `target_poh_time` reads. -/
structure Poh where
  hash : Hash
  numHashes : Nat
  hashesPerTick : Nat
  remainingHashes : Nat
  tickNumber : Nat
  deriving DecidableEq, Repr

/-- `PohEntry`. -/
structure PohEntry where
  numHashes : Nat
  hash : Hash
  deriving DecidableEq, Repr

/-- A `u64` subtraction, which panics on underflow in a debug build. -/
def checkedSub (a b : Nat) : Option Nat := if b ≤ a then some (a - b) else none

section Generator

variable (sha256 : List UInt8 → Hash)

/-- `n` rounds of `self.hash = hash(self.hash.as_ref())`, where `hash(val)` is `hashv(&[val])`. -/
def hashLoop (n : Nat) (h : Hash) : Hash := (fun h => hashv sha256 [h.toBytes])^[n] h

/-- `Poh::new_with_slot_info`; `none` where `assert!(hashes_per_tick > 1)` fails. -/
def Poh.newWithSlotInfo (hash : Hash) (hashesPerTick : Option Nat) (tickNumber : Nat) :
    Option Poh :=
  let hashesPerTick := hashesPerTick.getD LOW_POWER_MODE
  if 1 < hashesPerTick then
    some { hash := hash, numHashes := 0, hashesPerTick := hashesPerTick,
           remainingHashes := hashesPerTick, tickNumber := tickNumber }
  else none

/-- `Poh::new`. -/
def Poh.new (hash : Hash) (hashesPerTick : Option Nat) : Option Poh :=
  Poh.newWithSlotInfo hash hashesPerTick 0

/-- `Poh::hash`: as many hashes as asked for, but one short of the tick; `true` when only the
tick's hash is left. -/
def Poh.doHash (poh : Poh) (maxNumHashes : Nat) : Option (Poh × Bool) := do
  let numHashes := min (← checkedSub poh.remainingHashes 1) maxNumHashes
  let remainingHashes ← checkedSub poh.remainingHashes numHashes
  -- assert!(self.remaining_hashes > 0)
  if remainingHashes = 0 then none
  else
    some ({ poh with hash := hashLoop sha256 numHashes poh.hash,
                     numHashes := poh.numHashes + numHashes,
                     remainingHashes := remainingHashes },
      remainingHashes == 1)

/-- One mixin of `Poh::record_bundle`: the chain hashed with the mixin, an entry for the hashes
since the last entry, and `num_hashes` back to zero. -/
def Poh.recordMixin (poh : Poh) (mixin : Hash) : Option (Poh × PohEntry) := do
  let hash := hashv sha256 [poh.hash.toBytes, mixin.toBytes]
  let numHashes := poh.numHashes + 1
  let remainingHashes ← checkedSub poh.remainingHashes 1
  some ({ poh with hash := hash, numHashes := 0, remainingHashes := remainingHashes },
    { numHashes := numHashes, hash := hash })

/-- The entries of `Poh::record_bundle`, one mixin after the other. -/
def Poh.recordMixins (poh : Poh) : List Hash → Option (Poh × List PohEntry)
  | [] => some (poh, [])
  | mixin :: mixins => do
    let (poh, entry) ← poh.recordMixin sha256 mixin
    let (poh, entries) ← poh.recordMixins mixins
    some (poh, entry :: entries)

/-- `Poh::record_bundle`: `none` inside when no more hashes remain than it needs, and the caller
has to tick first. -/
def Poh.recordBundle (poh : Poh) (mixins : List Hash) : Option (Poh × Option (List PohEntry)) :=
  if poh.remainingHashes ≤ mixins.length then some (poh, none)
  else (poh.recordMixins sha256 mixins).map fun r => (r.1, some r.2)

/-- `Poh::record`: the last entry of a bundle of one. -/
def Poh.record (poh : Poh) (mixin : Hash) : Option (Poh × Option PohEntry) :=
  (poh.recordBundle sha256 [mixin]).map fun r => (r.1, (r.2.getD []).getLast?)

/-- `Poh::tick`: one more hash, and an entry when it completes the tick. -/
def Poh.tick (poh : Poh) : Option (Poh × Option PohEntry) := do
  let hash := hashv sha256 [poh.hash.toBytes]
  let numHashes := poh.numHashes + 1
  let remainingHashes ← checkedSub poh.remainingHashes 1
  -- If we are in low power mode then always generate a tick.
  -- Otherwise only tick if there are no remaining hashes
  if poh.hashesPerTick ≠ LOW_POWER_MODE ∧ remainingHashes ≠ 0 then
    some ({ poh with hash := hash, numHashes := numHashes, remainingHashes := remainingHashes },
      none)
  else
    some ({ poh with hash := hash, numHashes := 0, remainingHashes := poh.hashesPerTick,
                     tickNumber := poh.tickNumber + 1 },
      some { numHashes := numHashes, hash := hash })

/-- `next_hash`: the hash `num_hashes` after `start_hash`, the last one mixed with the hash of the
transactions when there are any. `hash_transactions` is a parameter. -/
def nextHash {τ : Type} (hashTransactions : List τ → Hash) (startHash : Hash) (numHashes : Nat)
    (transactions : List τ) : Option Hash :=
  if numHashes = 0 ∧ transactions.isEmpty then some startHash
  else do
    let poh ← Poh.new startHash none
    let (poh, _) ← poh.doHash sha256 (numHashes - 1)
    -- the entry is `unwrap()`ped
    if transactions.isEmpty then
      let (_, entry) ← poh.tick sha256
      entry.map (·.hash)
    else
      let (_, entry) ← poh.record sha256 (hashTransactions transactions)
      entry.map (·.hash)

/-- The calls a PoH service makes on its generator. -/
inductive PohCall where
  | hash (maxNumHashes : Nat)
  | record (mixin : Hash)
  | recordBundle (mixins : List Hash)
  | tick

/-- An entry as the generator emitted it: at a tick, or for a recorded mixin. -/
inductive Emitted where
  | tick (entry : PohEntry)
  | record (mixin : Hash) (entry : PohEntry)
  deriving DecidableEq, Repr

def Emitted.entry : Emitted → PohEntry
  | .tick entry => entry
  | .record _ entry => entry

def Emitted.isTick : Emitted → Bool
  | .tick _ => true
  | .record _ _ => false

/-- One call on the generator, and the entries it emits. -/
def PohCall.apply (poh : Poh) : PohCall → Option (Poh × List Emitted)
  | .hash maxNumHashes => (poh.doHash sha256 maxNumHashes).map fun r => (r.1, [])
  | .record mixin =>
    (poh.record sha256 mixin).map fun r => (r.1, (r.2.map (.record mixin)).toList)
  | .recordBundle mixins => (poh.recordBundle sha256 mixins).map fun r =>
    (r.1, (mixins.zip (r.2.getD [])).map fun p => .record p.1 p.2)
  | .tick => (poh.tick sha256).map fun r => (r.1, (r.2.map .tick).toList)

/-- A sequence of calls, and everything they emit in order. -/
def runCalls (poh : Poh) : List PohCall → Option (Poh × List Emitted)
  | [] => some (poh, [])
  | call :: calls => do
    let (poh, emitted) ← call.apply sha256 poh
    let (poh, rest) ← runCalls poh calls
    some (poh, emitted ++ rest)

end Generator

/-! ### What each call does -/

section Spec

variable (sha256 : List UInt8 → Hash) (poh : Poh)

theorem checkedSub_of_le {a b : Nat} (h : b ≤ a) : checkedSub a b = some (a - b) := if_pos h

theorem hashLoop_succ (n : Nat) (h : Hash) :
    hashLoop sha256 (n + 1) h = hashv sha256 [(hashLoop sha256 n h).toBytes] :=
  Function.iterate_succ_apply' _ n h

theorem hashLoop_add (m n : Nat) (h : Hash) :
    hashLoop sha256 (m + n) h = hashLoop sha256 m (hashLoop sha256 n h) :=
  Function.iterate_add_apply _ m n h

theorem one_lt_LOW_POWER_MODE : 1 < LOW_POWER_MODE := by decide

theorem new_some {hashesPerTick : Nat} (h : 1 < hashesPerTick) (hash : Hash) :
    Poh.new hash (some hashesPerTick) = some ⟨hash, 0, hashesPerTick, hashesPerTick, 0⟩ := by
  simp [Poh.new, Poh.newWithSlotInfo, h]

/-- Without `hashes_per_tick` the generator is in low-power mode. -/
theorem new_none (hash : Hash) :
    Poh.new hash none = some ⟨hash, 0, LOW_POWER_MODE, LOW_POWER_MODE, 0⟩ := by
  simp [Poh.new, Poh.newWithSlotInfo, one_lt_LOW_POWER_MODE]

theorem doHash_eq (h : 0 < poh.remainingHashes) (maxNumHashes : Nat) :
    poh.doHash sha256 maxNumHashes =
      some ({ poh with
          hash := hashLoop sha256 (min (poh.remainingHashes - 1) maxNumHashes) poh.hash,
          numHashes := poh.numHashes + min (poh.remainingHashes - 1) maxNumHashes,
          remainingHashes := poh.remainingHashes - min (poh.remainingHashes - 1) maxNumHashes },
        poh.remainingHashes - min (poh.remainingHashes - 1) maxNumHashes == 1) := by
  have h1 : min (poh.remainingHashes - 1) maxNumHashes ≤ poh.remainingHashes := by omega
  have h2 : poh.remainingHashes - min (poh.remainingHashes - 1) maxNumHashes ≠ 0 := by omega
  simp [Poh.doHash, checkedSub_of_le (show 1 ≤ poh.remainingHashes from h), checkedSub_of_le h1,
    h2]

theorem recordMixin_eq (h : 0 < poh.remainingHashes) (mixin : Hash) :
    poh.recordMixin sha256 mixin =
      some ({ poh with hash := hashv sha256 [poh.hash.toBytes, mixin.toBytes], numHashes := 0,
                       remainingHashes := poh.remainingHashes - 1 },
        ⟨poh.numHashes + 1, hashv sha256 [poh.hash.toBytes, mixin.toBytes]⟩) := by
  simp [Poh.recordMixin, checkedSub_of_le (show 1 ≤ poh.remainingHashes from h)]

theorem recordBundle_of_le {mixins : List Hash} (h : poh.remainingHashes ≤ mixins.length) :
    poh.recordBundle sha256 mixins = some (poh, none) := if_pos h

theorem recordBundle_of_lt {mixins : List Hash} (h : mixins.length < poh.remainingHashes) :
    poh.recordBundle sha256 mixins =
      (poh.recordMixins sha256 mixins).map fun r => (r.1, some r.2) :=
  if_neg (Nat.not_le_of_lt h)

/-- `record` while more than its one hash remains. -/
theorem record_eq (h : 1 < poh.remainingHashes) (mixin : Hash) :
    poh.record sha256 mixin =
      some ({ poh with hash := hashv sha256 [poh.hash.toBytes, mixin.toBytes], numHashes := 0,
                       remainingHashes := poh.remainingHashes - 1 },
        some ⟨poh.numHashes + 1, hashv sha256 [poh.hash.toBytes, mixin.toBytes]⟩) := by
  rw [Poh.record, recordBundle_of_lt sha256 poh (show [mixin].length < poh.remainingHashes from h)]
  simp [Poh.recordMixins, recordMixin_eq sha256 poh (Nat.zero_lt_of_lt h)]

/-- A tick that does not complete the tick emits nothing. -/
theorem tick_eq_none (h : 1 < poh.remainingHashes) (hlow : poh.hashesPerTick ≠ LOW_POWER_MODE) :
    poh.tick sha256 =
      some ({ poh with hash := hashv sha256 [poh.hash.toBytes], numHashes := poh.numHashes + 1,
                       remainingHashes := poh.remainingHashes - 1 }, none) := by
  have h1 : poh.remainingHashes - 1 ≠ 0 := by omega
  simp [Poh.tick, checkedSub_of_le (show 1 ≤ poh.remainingHashes by omega), hlow, h1]

/-- The last hash of a tick, or any tick in low-power mode, emits the tick's entry. -/
theorem tick_eq_some (h : 0 < poh.remainingHashes)
    (hemit : poh.hashesPerTick = LOW_POWER_MODE ∨ poh.remainingHashes = 1) :
    poh.tick sha256 =
      some ({ poh with hash := hashv sha256 [poh.hash.toBytes], numHashes := 0,
                       remainingHashes := poh.hashesPerTick, tickNumber := poh.tickNumber + 1 },
        some ⟨poh.numHashes + 1, hashv sha256 [poh.hash.toBytes]⟩) := by
  have hcond : ¬ (poh.hashesPerTick ≠ LOW_POWER_MODE ∧ poh.remainingHashes - 1 ≠ 0) := by omega
  simp only [Poh.tick, checkedSub_of_le (show 1 ≤ poh.remainingHashes from h),
    Option.bind_eq_bind, Option.bind_some, if_neg hcond]

end Spec

/-! ### The verifier -/

section Verifier

variable (sha256 : List UInt8 → Hash) {τ : Type} (hashTransactions : List τ → Hash)

/-- A tick entry of `k` hashes is the start hash hashed `k` times. -/
theorem nextHash_tick (p : Hash) {k : Nat} (hk : 0 < k) (hk' : k ≤ U64_MAX) :
    nextHash sha256 hashTransactions p k [] = some (hashLoop sha256 k p) := by
  have hne : ¬ (k = 0 ∧ ([] : List τ).isEmpty) := fun h => absurd h.1 (Nat.pos_iff_ne_zero.mp hk)
  have hmin : min (LOW_POWER_MODE - 1) (k - 1) = k - 1 := by
    unfold LOW_POWER_MODE
    omega
  have hrem : 0 < LOW_POWER_MODE - (k - 1) := by
    unfold LOW_POWER_MODE
    omega
  rw [nextHash, if_neg hne, new_none, Option.bind_eq_bind, Option.bind_some,
    doHash_eq sha256 _ (Nat.zero_lt_of_lt one_lt_LOW_POWER_MODE)]
  simp only [hmin, Option.bind_eq_bind, Option.bind_some, List.isEmpty_nil, if_true]
  rw [tick_eq_some sha256 _ hrem (Or.inl rfl)]
  obtain ⟨j, rfl⟩ : ∃ j, k = j + 1 := ⟨k - 1, by omega⟩
  simp [hashLoop_succ]

/-- A record entry of `k` hashes is the start hash hashed `k - 1` times, then with the mixin. -/
theorem nextHash_record (p : Hash) {txs : List τ} (htxs : txs ≠ []) {k : Nat} (hk : 0 < k)
    (hk' : k < U64_MAX) :
    nextHash sha256 hashTransactions p k txs =
      some (hashv sha256 [(hashLoop sha256 (k - 1) p).toBytes, (hashTransactions txs).toBytes]) := by
  have hempty : txs.isEmpty = false := List.isEmpty_eq_false_iff.mpr htxs
  have hne : ¬ (k = 0 ∧ txs.isEmpty) := fun h => absurd h.1 (Nat.pos_iff_ne_zero.mp hk)
  have hmin : min (LOW_POWER_MODE - 1) (k - 1) = k - 1 := by
    unfold LOW_POWER_MODE
    omega
  -- the mixin needs one of the hashes left after the `k - 1`
  have hrem : 1 < LOW_POWER_MODE - (k - 1) := by
    unfold LOW_POWER_MODE
    omega
  rw [nextHash, if_neg hne, new_none, Option.bind_eq_bind, Option.bind_some,
    doHash_eq sha256 _ (Nat.zero_lt_of_lt one_lt_LOW_POWER_MODE)]
  simp only [hmin, Option.bind_eq_bind, Option.bind_some, hempty, Bool.false_eq_true, if_false]
  rw [record_eq sha256 _ hrem]
  simp

end Verifier

/-! ### The entries emitted so far -/

section History

/-- The hashes of the entries since the last tick. -/
def sinceTick (E : List Emitted) : Nat :=
  E.foldl (fun n x => if x.isTick then 0 else n + x.entry.numHashes) 0

/-- The hash the next entry is chained to: that of the last entry, or the start hash. -/
def lastHash (h0 : Hash) (E : List Emitted) : Hash := (E.getLast?.map (·.entry.hash)).getD h0

@[simp]
theorem sinceTick_append_singleton (E : List Emitted) (x : Emitted) :
    sinceTick (E ++ [x]) = if x.isTick then 0 else sinceTick E + x.entry.numHashes := by
  simp [sinceTick, List.foldl_append]

@[simp]
theorem lastHash_append_singleton (h0 : Hash) (E : List Emitted) (x : Emitted) :
    lastHash h0 (E ++ [x]) = x.entry.hash := by
  simp [lastHash]

/-- Entries without a tick add their hashes to those since the last tick. -/
theorem sinceTick_append_of_not_isTick (pre : List Emitted) {seg : List Emitted}
    (hseg : ∀ x ∈ seg, x.isTick = false) :
    sinceTick (pre ++ seg) = sinceTick pre + (seg.map (·.entry.numHashes)).sum := by
  induction seg using List.reverseRecOn with
  | nil => simp
  | append_singleton seg x ih =>
    rw [← List.append_assoc, sinceTick_append_singleton, hseg x (by simp),
      ih fun y hy => hseg y (by simp [hy])]
    simp only [Bool.false_eq_true, if_false, List.map_append, List.map_cons, List.map_nil,
      List.sum_append, List.sum_cons, List.sum_nil]
    omega

/-- No hashes are counted since a tick, or since the start. -/
theorem sinceTick_of_getLast? {pre : List Emitted} (h : ∀ x ∈ pre.getLast?, x.isTick) :
    sinceTick pre = 0 := by
  rcases List.eq_nil_or_concat pre with rfl | ⟨pre, x, rfl⟩
  · rfl
  · have hx : x.isTick := h x (by simp)
    simp [hx]

variable (sha256 : List UInt8 → Hash) {τ : Type} (hashTransactions : List τ → Hash)

/-- What the verifier accepts of an entry chained to `p`: a tick entry recomputed without
transactions, and a record entry recomputed from any transactions that hash to its mixin. -/
def Verifies (p : Hash) : Emitted → Prop
  | .tick e => nextHash sha256 hashTransactions p e.numHashes [] = some e.hash
  | .record mixin e => ∀ txs : List τ, txs ≠ [] → hashTransactions txs = mixin →
      nextHash sha256 hashTransactions p e.numHashes txs = some e.hash

/-- An entry sound given the entries emitted before it, from the start hash `h0` with `H` hashes
per tick. -/
structure EntrySound (H : Nat) (h0 : Hash) (pre : List Emitted) (x : Emitted) : Prop where
  pos : 0 < x.entry.numHashes
  /-- A tick closes exactly `H` hashes since the tick before it. -/
  tick_sum : x.isTick → sinceTick pre + x.entry.numHashes = H
  /-- The verifier recomputes the entry from the hash of the entry before it. -/
  verifies : Verifies sha256 hashTransactions (lastHash h0 pre) x

/-- A generator state reached after emitting `E`. -/
structure Inv (H : Nat) (h0 : Hash) (poh : Poh) (E : List Emitted) : Prop where
  hashesPerTick : poh.hashesPerTick = H
  remaining_pos : 0 < poh.remainingHashes
  /-- The hashes since the last tick, in entries and in the state, and those left make a tick. -/
  hashes : sinceTick E + poh.numHashes + poh.remainingHashes = H
  /-- The state's hash is `num_hashes` hashes after the last entry. -/
  hash : poh.hash = hashLoop sha256 poh.numHashes (lastHash h0 E)
  tickNumber : poh.tickNumber = E.countP Emitted.isTick
  sound : ListOrder.Prefixwise (EntrySound sha256 hashTransactions H h0) E

end History

/-! ### Every call keeps the invariant -/

section Steps

variable {sha256 : List UInt8 → Hash} {τ : Type} {hashTransactions : List τ → Hash} {H : Nat}
  {h0 : Hash} {poh : Poh} {E : List Emitted}

theorem inv_new (hH : 1 < H) : Inv sha256 hashTransactions H h0 ⟨h0, 0, H, H, 0⟩ [] where
  hashesPerTick := rfl
  remaining_pos := Nat.zero_lt_of_lt hH
  hashes := by simp [sinceTick]
  hash := rfl
  tickNumber := rfl
  sound := ListOrder.prefixwise_nil

theorem Inv.doHash (hinv : Inv sha256 hashTransactions H h0 poh E) (maxNumHashes : Nat) :
    ∃ poh' b, poh.doHash sha256 maxNumHashes = some (poh', b) ∧
      Inv sha256 hashTransactions H h0 poh' E := by
  rw [doHash_eq sha256 poh hinv.remaining_pos]
  refine ⟨_, _, rfl, ?_⟩
  have hcount := hinv.hashes
  have hpos := hinv.remaining_pos
  constructor
  · exact hinv.hashesPerTick
  · dsimp only
    omega
  · dsimp only
    omega
  · -- the new hashes continue the chain
    dsimp only
    rw [hinv.hash, ← hashLoop_add, Nat.add_comm]
  · exact hinv.tickNumber
  · exact hinv.sound

theorem Inv.recordMixin (hinv : Inv sha256 hashTransactions H h0 poh E)
    (hrem : 1 < poh.remainingHashes) (hHmax : H < U64_MAX) (mixin : Hash) :
    ∃ poh' e, poh.recordMixin sha256 mixin = some (poh', e) ∧
      poh'.remainingHashes = poh.remainingHashes - 1 ∧
      Inv sha256 hashTransactions H h0 poh' (E ++ [.record mixin e]) := by
  rw [recordMixin_eq sha256 poh (Nat.zero_lt_of_lt hrem)]
  refine ⟨_, _, rfl, rfl, ?_⟩
  have hcount := hinv.hashes
  constructor
  · exact hinv.hashesPerTick
  · show 0 < poh.remainingHashes - 1
    omega
  · simp only [sinceTick_append_singleton, Emitted.isTick, Emitted.entry, Bool.false_eq_true,
      if_false]
    omega
  · rw [lastHash_append_singleton]
    rfl
  · simp [hinv.tickNumber, Emitted.isTick]
  · rw [ListOrder.prefixwise_append_singleton]
    refine ⟨hinv.sound, ⟨Nat.succ_pos _, fun h => absurd h (by simp [Emitted.isTick]), ?_⟩⟩
    -- the verifier hashes `num_hashes` times from the last entry, then mixes in the mixin
    intro txs htxs hmix
    show nextHash sha256 hashTransactions (lastHash h0 E) (poh.numHashes + 1) txs = some _
    rw [nextHash_record sha256 hashTransactions _ htxs (Nat.succ_pos poh.numHashes) (by omega),
      Nat.succ_sub_one, hmix, ← hinv.hash]

theorem Inv.recordMixins (hHmax : H < U64_MAX) :
    ∀ (mixins : List Hash) {poh : Poh} {E : List Emitted},
      Inv sha256 hashTransactions H h0 poh E → mixins.length < poh.remainingHashes →
      ∃ poh' entries, poh.recordMixins sha256 mixins = some (poh', entries) ∧
        entries.length = mixins.length ∧
        Inv sha256 hashTransactions H h0 poh'
          (E ++ (mixins.zip entries).map fun p => .record p.1 p.2)
  | [], poh, E, hinv, _ => ⟨poh, [], rfl, rfl, by simpa using hinv⟩
  | mixin :: mixins, poh, E, hinv, hlen => by
    rw [List.length_cons] at hlen
    obtain ⟨poh₁, e, h₁, hrem₁, hinv₁⟩ := hinv.recordMixin (by omega) hHmax mixin
    obtain ⟨poh₂, es, h₂, hlen₂, hinv₂⟩ :=
      Inv.recordMixins hHmax mixins hinv₁ (by rw [hrem₁]; omega)
    refine ⟨poh₂, e :: es, by simp [Poh.recordMixins, h₁, h₂], by simp [hlen₂], ?_⟩
    simpa using hinv₂

theorem Inv.recordBundle (hinv : Inv sha256 hashTransactions H h0 poh E) (hHmax : H < U64_MAX)
    (mixins : List Hash) :
    ∃ poh' r, poh.recordBundle sha256 mixins = some (poh', r) ∧
      (r = none ↔ poh.remainingHashes ≤ mixins.length) ∧ (r = none → poh' = poh) ∧
      (∀ entries, r = some entries → entries.length = mixins.length) ∧
      Inv sha256 hashTransactions H h0 poh'
        (E ++ (mixins.zip (r.getD [])).map fun p => .record p.1 p.2) := by
  by_cases hle : poh.remainingHashes ≤ mixins.length
  · refine ⟨poh, none, recordBundle_of_le sha256 poh hle, iff_of_true rfl hle, fun _ => rfl,
      (fun _ h => by cases h), ?_⟩
    simpa using hinv
  · have hlt : mixins.length < poh.remainingHashes := by omega
    obtain ⟨poh', entries, h, hlen, hinv'⟩ := hinv.recordMixins hHmax mixins hlt
    refine ⟨poh', some entries, by simp [recordBundle_of_lt sha256 poh hlt, h], by simp [hle],
      (fun h => by cases h), (fun _ h => by cases h; exact hlen), hinv'⟩

theorem Inv.tick (hinv : Inv sha256 hashTransactions H h0 poh E) (hH : 1 < H)
    (hHmax : H < U64_MAX) :
    ∃ poh' r, poh.tick sha256 = some (poh', r) ∧
      Inv sha256 hashTransactions H h0 poh' (E ++ (r.map .tick).toList) := by
  have hcount := hinv.hashes
  have hpos := hinv.remaining_pos
  by_cases h1 : poh.remainingHashes = 1
  · -- the last hash of the tick: a tick entry
    rw [tick_eq_some sha256 poh hpos (Or.inr h1)]
    refine ⟨_, _, rfl, ?_⟩
    simp only [Option.map_some, Option.toList_some]
    constructor
    · exact hinv.hashesPerTick
    · show 0 < poh.hashesPerTick
      rw [hinv.hashesPerTick]
      omega
    · simp [Emitted.isTick, hinv.hashesPerTick]
    · rw [lastHash_append_singleton]
      rfl
    · simp [hinv.tickNumber, Emitted.isTick]
    · rw [ListOrder.prefixwise_append_singleton]
      refine ⟨hinv.sound, ⟨Nat.succ_pos _, fun _ => by simp only [Emitted.entry]; omega, ?_⟩⟩
      show nextHash sha256 hashTransactions (lastHash h0 E) (poh.numHashes + 1) [] = some _
      rw [nextHash_tick sha256 hashTransactions _ (Nat.succ_pos poh.numHashes) (by omega),
        hashLoop_succ, ← hinv.hash]
  · -- more hashes are left: one more hash of the chain
    have hlow : poh.hashesPerTick ≠ LOW_POWER_MODE := by
      rw [hinv.hashesPerTick]
      exact Nat.ne_of_lt hHmax
    rw [tick_eq_none sha256 poh (by omega) hlow]
    refine ⟨_, _, rfl, ?_⟩
    simp only [Option.map_none, Option.toList_none, List.append_nil]
    constructor
    · exact hinv.hashesPerTick
    · show 0 < poh.remainingHashes - 1
      omega
    · show sinceTick E + (poh.numHashes + 1) + (poh.remainingHashes - 1) = H
      omega
    · show hashv sha256 [poh.hash.toBytes] = hashLoop sha256 (poh.numHashes + 1) (lastHash h0 E)
      rw [hashLoop_succ, ← hinv.hash]
    · exact hinv.tickNumber
    · exact hinv.sound

theorem Inv.apply (hinv : Inv sha256 hashTransactions H h0 poh E) (hH : 1 < H)
    (hHmax : H < U64_MAX) (call : PohCall) :
    ∃ poh' F, call.apply sha256 poh = some (poh', F) ∧
      Inv sha256 hashTransactions H h0 poh' (E ++ F) := by
  cases call with
  | hash maxNumHashes =>
    obtain ⟨poh', b, h, hinv'⟩ := hinv.doHash maxNumHashes
    exact ⟨poh', [], by simp [PohCall.apply, h], by simpa using hinv'⟩
  | record mixin =>
    obtain ⟨poh', r, h, -, -, hlen, hinv'⟩ := hinv.recordBundle hHmax [mixin]
    refine ⟨poh', ((r.getD []).getLast?.map (.record mixin)).toList,
      by simp [PohCall.apply, Poh.record, h], ?_⟩
    -- a bundle of one emits at most its one entry
    rcases r with _ | entries
    · simpa using hinv'
    · obtain ⟨e, rfl⟩ := List.length_eq_one_iff.mp (hlen entries rfl)
      simpa using hinv'
  | recordBundle mixins =>
    obtain ⟨poh', r, h, -, -, -, hinv'⟩ := hinv.recordBundle hHmax mixins
    exact ⟨poh', _, by simp [PohCall.apply, h], hinv'⟩
  | tick =>
    obtain ⟨poh', r, h, hinv'⟩ := hinv.tick hH hHmax
    exact ⟨poh', _, by simp [PohCall.apply, h], hinv'⟩

theorem Inv.run (hH : 1 < H) (hHmax : H < U64_MAX) :
    ∀ (calls : List PohCall) {poh : Poh} {E : List Emitted},
      Inv sha256 hashTransactions H h0 poh E →
      ∃ poh' F, runCalls sha256 poh calls = some (poh', F) ∧
        Inv sha256 hashTransactions H h0 poh' (E ++ F)
  | [], poh, E, hinv => ⟨poh, [], rfl, by simpa using hinv⟩
  | call :: calls, poh, E, hinv => by
    obtain ⟨poh₁, F₁, h₁, hinv₁⟩ := hinv.apply hH hHmax call
    obtain ⟨poh₂, F₂, h₂, hinv₂⟩ := Inv.run hH hHmax calls hinv₁
    exact ⟨poh₂, F₁ ++ F₂, by simp [runCalls, h₁, h₂], by simpa using hinv₂⟩

end Steps

/-! ### Runs of the generator -/

section Run

variable (sha256 : List UInt8 → Hash) {τ : Type} (hashTransactions : List τ → Hash)

/-- What a run of the generator promises about the state it reaches and the entries it emitted. -/
structure RunSound (H : Nat) (h0 : Hash) (poh : Poh) (E : List Emitted) : Prop where
  /-- `num_hashes` never passes a tick's worth. -/
  numHashes_le : poh.numHashes ≤ H
  /-- `record_bundle` refuses exactly when too few hashes remain, and then changes nothing. -/
  recordBundle : ∀ mixins, ∃ poh' r, poh.recordBundle sha256 mixins = some (poh', r) ∧
    (r = none ↔ poh.remainingHashes ≤ mixins.length) ∧ (r = none → poh' = poh)
  entries_pos : ∀ x ∈ E, 1 ≤ x.entry.numHashes
  /-- The entries after a tick, or from the start, up to and including the next tick hold
  `H` hashes. -/
  tick_sums : ∀ pre seg t post, E = pre ++ seg ++ Emitted.tick t :: post →
    (∀ x ∈ pre.getLast?, x.isTick) → (∀ x ∈ seg, x.isTick = false) →
    (seg.map (·.entry.numHashes)).sum + t.numHashes = H
  tickNumber : poh.tickNumber = E.countP Emitted.isTick
  /-- Each entry is recomputed by `next_hash` from the hash of the entry before it. -/
  verifies : ∀ pre x post, E = pre ++ x :: post →
    (∀ e, x = .tick e →
      nextHash sha256 hashTransactions (lastHash h0 pre) e.numHashes [] = some e.hash) ∧
    (∀ mixin e, x = .record mixin e → ∀ txs, txs ≠ [] → hashTransactions txs = mixin →
      nextHash sha256 hashTransactions (lastHash h0 pre) e.numHashes txs = some e.hash)

variable {sha256 hashTransactions} {H : Nat} {h0 : Hash} {poh : Poh} {E : List Emitted}

theorem Inv.runSound (hinv : Inv sha256 hashTransactions H h0 poh E) (hHmax : H < U64_MAX) :
    RunSound sha256 hashTransactions H h0 poh E where
  numHashes_le := by
    have := hinv.hashes
    omega
  recordBundle mixins := by
    obtain ⟨poh', r, h, hnone, hsame, -, -⟩ := hinv.recordBundle hHmax mixins
    exact ⟨poh', r, h, hnone, hsame⟩
  entries_pos x hx := by
    obtain ⟨pre, post, rfl⟩ := List.append_of_mem hx
    exact (hinv.sound pre x post rfl).pos
  tick_sums pre seg t post hE hpre hseg := by
    have hsum := (hinv.sound (pre ++ seg) (.tick t) post (by simp [hE])).tick_sum rfl
    -- the hashes since the last tick are those of the segment
    rw [sinceTick_append_of_not_isTick pre hseg, sinceTick_of_getLast? hpre] at hsum
    simpa [Emitted.entry] using hsum
  tickNumber := hinv.tickNumber
  verifies pre x post hE := by
    have hv := (hinv.sound pre x post hE).verifies
    constructor
    · rintro e rfl
      exact hv
    · rintro mixin e rfl
      exact hv

end Run

/-- The generator and the verifier agree. From `Poh::new(h0, Some(H))` with `1 < H < u64::MAX`,
every sequence of calls goes through without a panic, `num_hashes` stays within `H`,
`record_bundle` refuses exactly when too few
hashes remain, every tick closes `H` hashes, `tick_number` counts the ticks, and `next_hash`
recomputes every entry from the one before it. -/
theorem poh_entries_verify (sha256 : List UInt8 → Hash) {τ : Type}
    (hashTransactions : List τ → Hash) (h0 : Hash) {H : Nat} (hH : 1 < H) (hHmax : H < U64_MAX)
    (calls : List PohCall) :
    ∃ poh₀ poh E, Poh.new h0 (some H) = some poh₀ ∧ runCalls sha256 poh₀ calls = some (poh, E) ∧
      RunSound sha256 hashTransactions H h0 poh E := by
  have hinv₀ : Inv sha256 hashTransactions H h0 ⟨h0, 0, H, H, 0⟩ [] := inv_new hH
  obtain ⟨poh, E, hrun, hinv⟩ := Inv.run hH hHmax calls hinv₀
  rw [List.nil_append] at hinv
  exact ⟨_, poh, E, new_some hH h0, hrun, hinv.runSound hHmax⟩

theorem poh_entries_verify_two_ticks :
    1 < 4 ∧ 4 < U64_MAX ∧
      ∃ poh₀ poh E, Poh.new default (some 4) = some poh₀ ∧
        runCalls (fun _ => default) poh₀ [.hash 1, .record default, .tick, .tick, .hash 5] =
          some (poh, E) ∧
        RunSound (fun _ => default) (fun _ : List Unit => default) 4 default poh E :=
  ⟨by decide, by decide, poh_entries_verify _ _ _ (by decide) (by decide) _⟩

/-- A record entry is not recomputed from an empty list of transactions even when its mixin is
their hash: `next_hash` then takes the tick's path and hashes 32 bytes where the generator hashed
64. Here SHA-256 is stood in for by a hash of the length. -/
theorem poh_record_of_empty_transactions :
    Poh.new default (some 2) = some ⟨default, 0, 2, 2, 0⟩ ∧
      runCalls (fun bytes => ⟨BitVec.ofNat 256 bytes.length⟩) ⟨default, 0, 2, 2, 0⟩
          [.record default] =
        some (⟨⟨64⟩, 0, 2, 1, 0⟩, [.record default ⟨1, ⟨64⟩⟩]) ∧
      (fun _ : List Unit => (default : Hash)) [] = default ∧
      nextHash (fun bytes => ⟨BitVec.ofNat 256 bytes.length⟩) (fun _ : List Unit => default)
        default 1 [] = some ⟨32⟩ := by
  decide

end Agave.Entry
