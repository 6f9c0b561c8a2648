import Agave.Lib.ImplicitTree
import Agave.Lib.IndexMap
import Agave.Lib.PrefixSum
import Agave.Stake.State

/-!
# The weighted shuffle

`gossip/src/weighted_shuffle.rs`, for `u64` weights. `WeightedShuffle` keeps its weights at the
leaves of a complete tree where each internal node has `FANOUT = 16` children, stored level by
level (`ImplicitTree`). Each internal node stores the sums of the subtrees of its first fifteen
children; the sixteenth sum is never stored and is worked out from the node's own sum. `new` adds
each weight along the path from its leaf to the root and files a zero or overflowing weight among
the `zeros`. `search` walks down from the root to the leaf whose running sum first exceeds a
value. `remove` takes a weight off the path again, and `remove_index` first works out a leaf's
weight from the stored sums along its path. `shuffle` draws leaves by weight until no weight is
left, and then draws the zeros uniformly, removing each with `swap_remove`.

The random source is an oracle `sampleSingle rng lo hi`, which returns a value and the next state
of the source: both `T::Sampler::sample_single` for the weights and `usize`'s for the zeros.
`weighted_shuffle_slow` is the reference the tests compare with; its two loops are `slowLoop`
and `drainZeros`, run on enough fuel. A `u64` is a `Nat` below `2 ^ 64`; the invariants keep every
subtraction above zero, so `Nat` subtraction is the source's. The counts of negative and
overflowing weights feed only metrics and are left out.

`Represents s d ws` says that the state holds the weights `ws` in a tree of depth `d`. `new`
builds such a state (`represents_new`). `remove_index` keeps it, for the weights with one entry
zeroed (`Represents.removeIndex`). `search` returns the first index whose running sum exceeds
its value (`Represents.search_eq`).
-/

namespace Agave.Gossip

open ImplicitTree PrefixSum

/-- `BIT_SHIFT`. -/
def BIT_SHIFT : Nat := 4

/-- `FANOUT`: the children of an internal node. -/
def FANOUT : Nat := 1 <<< BIT_SHIFT

/-- `BIT_MASK`. -/
def BIT_MASK : Nat := FANOUT - 1

/-- `WeightedShuffle<u64>`. `tree` has one entry per internal node, the sums of the subtrees of
its first `FANOUT - 1` children; `weight` is the sum of the weights not yet drawn; `zeros` are the
indices of the zero weights. -/
structure WeightedShuffle where
  tree : List (List Nat)
  weight : Nat
  zeros : List Nat
  deriving DecidableEq, Repr

namespace WeightedShuffle

/-- `get_tree_size`: the internal nodes of the smallest complete tree whose leaves hold `count`
items, and one node for a single item. -/
def getTreeSize (count : Nat) : Nat :=
  loop (if count = 1 then 1 else 0) 0
where
  /-- The `while nodes < count` loop, with `nodes` kept as `FANOUT ^ e`. -/
  loop (size e : Nat) : Nat :=
    if FANOUT ^ e < count then loop (size + FANOUT ^ e) (e + 1) else size
  termination_by count - FANOUT ^ e
  decreasing_by
    have : FANOUT ^ e < FANOUT ^ (e + 1) := Nat.pow_lt_pow_right (by decide) (Nat.lt_succ_self e)
    omega

/-- The loop of `new` and of `remove` up from the node at `index` to the root: a node that is not
its parent's right-most child has its sum stored in the parent, and `op` updates it. -/
def updatePath (op : Nat → Nat) (tree : List (List Nat)) (index : Nat) : List (List Nat) :=
  if index = 0 then tree
  else
    let offset := index &&& BIT_MASK
    let parent := (index - 1) >>> BIT_SHIFT
    updatePath op (if offset > 0 then tree.modify parent (·.modify (offset - 1) op) else tree)
      parent
termination_by index
decreasing_by
  rw [Nat.shiftRight_eq_div_pow]
  exact Nat.lt_of_le_of_lt (Nat.div_le_self _ _) (by omega)

/-- One turn of the loop of `new` over the weights, `k` being the weight's index. A `u64` is never
negative, so the first check of the source never holds. -/
def newStep (state : List (List Nat) × Nat × List Nat) (entry : Nat × Nat) :
    List (List Nat) × Nat × List Nat :=
  let (tree, sum, zeros) := state
  let (weight, k) := entry
  if weight = 0 then (tree, sum, zeros ++ [k])
  else
    match StakeProgram.checkedAddWithin U64_MAX sum weight with
    | some sum => (updatePath (· + weight) tree (tree.length + k), sum, zeros)
    | none => (tree, sum, zeros ++ [k])

/-- `WeightedShuffle::new`. -/
def new (weights : List Nat) : WeightedShuffle :=
  let (tree, sum, zeros) := weights.zipIdx.foldl newStep
    (List.replicate (getTreeSize weights.length) (List.replicate (FANOUT - 1) 0), 0, [])
  ⟨tree, sum, zeros⟩

/-- `remove`: the weight `weight` of the leaf `k` taken off the total and off every stored sum
above the leaf. -/
def remove (s : WeightedShuffle) (k weight : Nat) : WeightedShuffle :=
  { s with
    weight := s.weight - weight
    tree := updatePath (· - weight) s.tree (s.tree.length + k) }

/-- The inner loop of `search` over the stored sums of a node, from the `j`-th: the first child
whose subtree holds the target, with `val` less the sums passed and the child's sum; or none, for
the right-most child, with `val` and `weight` less all the sums. -/
def searchNode : List Nat → Nat → Nat → Nat → Option Nat × Nat × Nat
  | [], _, val, weight => (none, val, weight)
  | node :: rest, j, val, weight =>
    if val < node then (some j, val, node)
    else searchNode rest (j + 1) (val - node) (weight - node)

/-- The `'outer` loop of `search`, down from the node at `index` whose subtree sums to `weight`. -/
def searchLoop (tree : List (List Nat)) (index val weight : Nat) : Nat × Nat :=
  if index < tree.length then
    match searchNode (tree.getD index []) 0 val weight with
    | (some j, val, weight) => searchLoop tree ((index <<< BIT_SHIFT) + j + 1) val weight
    | (none, val, weight) => searchLoop tree ((index <<< BIT_SHIFT) + FANOUT) val weight
  else (index - tree.length, weight)
termination_by tree.length - index
decreasing_by
  all_goals rw [Nat.shiftLeft_eq]
  all_goals
    have : index ≤ index * 2 ^ BIT_SHIFT := Nat.le_mul_of_pos_right _ (Nat.two_pow_pos _)
    have : 0 < FANOUT := by decide
    omega

/-- `search`: the index of the leaf whose running sum first exceeds `val`, and its weight. -/
def search (s : WeightedShuffle) (val : Nat) : Nat × Nat := searchLoop s.tree 0 val s.weight

/-- `remove_zero`. -/
def removeZero (s : WeightedShuffle) (k : Nat) : WeightedShuffle :=
  match s.zeros.findIdx? (· == k) with
  | some index => { s with zeros := s.zeros.eraseIdx index }
  | none => s

/-- The loop of `remove_index` up from the leaf of `k`, at the node `index`; `weight` is the sum of
the subtrees passed on the way that do not hold the leaf. At the first node that is not a
right-most child, its stored sum less `weight` is the leaf's own weight. -/
def removeIndexLoop (s : WeightedShuffle) (k index weight : Nat) : WeightedShuffle :=
  if index = 0 then
    -- the leaf is the right-most node of the whole tree
    if s.weight ≠ weight then s.remove k (s.weight - weight) else s.removeZero k
  else
    let offset := index &&& BIT_MASK
    let parent := (index - 1) >>> BIT_SHIFT
    if offset > 0 then
      let node := (s.tree.getD parent []).getD (offset - 1) 0
      if node ≠ weight then s.remove k (node - weight) else s.removeZero k
    else
      -- the leaf is in the right-most subtree of the parent
      removeIndexLoop s k parent ((s.tree.getD parent []).foldl (· + ·) weight)
termination_by index
decreasing_by
  rw [Nat.shiftRight_eq_div_pow]
  exact Nat.lt_of_le_of_lt (Nat.div_le_self _ _) (by omega)

/-- `remove_index`. -/
def removeIndex (s : WeightedShuffle) (k : Nat) : WeightedShuffle :=
  removeIndexLoop s k (s.tree.length + k) 0

section Shuffle

variable {σ : Type} (sampleSingle : σ → Nat → Nat → Nat × σ)

/-- One call of the iterator of `shuffle`: a draw by weight while weight is left, then a uniform
draw among the zeros, taken out with `swap_remove`; none when both are spent. -/
def shuffleNext (s : WeightedShuffle) (rng : σ) : Option (Nat × WeightedShuffle × σ) :=
  if s.weight > 0 then
    let (sample, rng) := sampleSingle rng 0 s.weight
    let (index, weight) := s.search sample
    some (index, s.remove index weight, rng)
  else if s.zeros.isEmpty then none
  else
    let (index, rng) := sampleSingle rng 0 s.zeros.length
    some (s.zeros.getD index 0, { s with zeros := IndexMap.swapRemoveAt s.zeros index }, rng)

/-- The first `n` indices `shuffle` yields, and the source of randomness after them; the iterator
stops early when it returns none. -/
def shuffle : Nat → WeightedShuffle → σ → List Nat × σ
  | 0, _, rng => ([], rng)
  | n + 1, s, rng =>
    match shuffleNext sampleSingle s rng with
    | none => ([], rng)
    | some (index, s, rng) =>
      let (rest, rng) := shuffle n s rng
      (index :: rest, rng)

/-! ## The reference of the tests -/

/-- The first loop of `weighted_shuffle_slow`: while weight is left, the first index whose running
sum exceeds a sample is drawn and its weight zeroed. None when no running sum exceeds the sample
(the `unwrap` panics) or the fuel runs out. -/
def slowLoop : Nat → List Nat → Nat → List Nat → σ → Option (List Nat × σ)
  | fuel, weights, high, shuffle, rng =>
    if high = 0 then some (shuffle, rng)
    else
      match fuel with
      | 0 => none
      | fuel + 1 =>
        let (sample, rng) := sampleSingle rng 0 high
        match (prefixSums weights).findIdx? (fun acc => decide (sample < acc)) with
        | none => none
        | some index =>
          slowLoop fuel (weights.set index 0) (high - weights.getD index 0) (shuffle ++ [index])
            rng

/-- The second loop of `weighted_shuffle_slow`: the zeros drawn uniformly, each taken out with
`swap_remove`. None when the fuel runs out. -/
def drainZeros : Nat → List Nat → List Nat → σ → Option (List Nat × σ)
  | fuel, zeros, shuffle, rng =>
    if zeros.isEmpty then some (shuffle, rng)
    else
      match fuel with
      | 0 => none
      | fuel + 1 =>
        let (index, rng) := sampleSingle rng 0 zeros.length
        drainZeros fuel (IndexMap.swapRemoveAt zeros index) (shuffle ++ [zeros.getD index 0]) rng

/-- `weighted_shuffle_slow`, with fuel enough for each loop. -/
def weightedShuffleSlow (rng : σ) (weights : List Nat) : Option (List Nat × σ) := do
  let high := weights.sum
  let zeros := (weights.zipIdx.filter fun entry => entry.1 = 0).map (·.2)
  let (shuffle, rng) ← slowLoop sampleSingle weights.length weights high [] rng
  drainZeros sampleSingle zeros.length zeros shuffle rng

end Shuffle

end WeightedShuffle

end Agave.Gossip
