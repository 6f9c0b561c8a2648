import Agave.Lib.MerkleLevels
import Agave.Sdk.Basic

/-!
# The `merkle-tree` crate

`merkle-tree/src/merkle_tree.rs`. `MerkleTree::new` lays the levels of the tree one after another
in one vector of nodes, the hashed leaves first, a level a turn of its outer loop and a node a turn
of its inner one. `find_path` walks up the same levels from a leaf: at each level the node enters
the path with the sibling it was joined with below, and the sibling it is joined with at this level
is chosen. `get_proof` of the tip distributor reads the siblings off the path. A read of the vector
out of range, or a failed `assert!`, is a panic, and `none` here.

Against `MerkleLevels`: the vector is the levels laid end to end (`new_eq`), and the siblings read
off the path of a leaf are its siblings level by level (`getProof_new`).
-/

namespace Agave

/-- The derived order of `Hash`, its bytes compared in turn: the order of the word. -/
instance : LE Hash := ⟨fun a b => a.toBitVec ≤ b.toBitVec⟩

instance (a b : Hash) : Decidable (a ≤ b) := inferInstanceAs (Decidable (a.toBitVec ≤ b.toBitVec))

instance : Std.Total (α := Hash) (· ≤ ·) := ⟨fun a b => BitVec.le_total a.toBitVec b.toBitVec⟩

instance : Std.Antisymm (α := Hash) (· ≤ ·) := ⟨fun a b hab hba => by
  cases a
  cases b
  exact congrArg Hash.mk (BitVec.le_antisymm hab hba)⟩

/-- `MerkleTree`: the levels of the tree one after another, the leaves first. -/
structure MerkleTree where
  leafCount : Nat
  nodes : List Hash
  deriving DecidableEq, Repr

/-- `ProofEntry`: a node of the path and the sibling it was joined with, on its side. -/
structure ProofEntry where
  target : Hash
  leftSibling : Option Hash
  rightSibling : Option Hash
  deriving DecidableEq, Repr

/-- `ProofEntry::new`, with its `assert!` that exactly one sibling is given. -/
def ProofEntry.new (target : Hash) (leftSibling rightSibling : Option Hash) : Option ProofEntry :=
  if leftSibling.isNone ^^ rightSibling.isNone then some ⟨target, leftSibling, rightSibling⟩
  else none

namespace MerkleTree

open MerkleLevels

variable (hashv : List (List UInt8) → Hash)

/-- `LEAF_PREFIX`. -/
def LEAF_PREFIX : List UInt8 := [0]

/-- `INTERMEDIATE_PREFIX`. -/
def INTERMEDIATE_PREFIX : List UInt8 := [1]

/-- `hash_leaf!`. -/
def hashLeaf (d : List UInt8) : Hash := hashv [LEAF_PREFIX, d]

/-- `hash_intermediate!`. -/
def hashIntermediate (l r : Hash) : Hash := hashv [INTERMEDIATE_PREFIX, l.toBytes, r.toBytes]

/-- `next_level_len`. -/
def nextLevelLen (levelLen : Nat) : Nat := if levelLen = 1 then 0 else (levelLen + 1) / 2

theorem nextLevelLen_lt {levelLen : Nat} (h : levelLen ≠ 0) : nextLevelLen levelLen < levelLen := by
  unfold nextLevelLen
  split <;> omega

/-- The node `new` pushes for two siblings: their hash in sorted order for tip distribution, in
their own order otherwise. -/
def join (sortedHashes : Bool) (lsib rsib : Hash) : Hash :=
  -- tip-distribution verification uses sorted hashing
  if sortedHashes then
    if lsib ≤ rsib then hashIntermediate hashv lsib rsib else hashIntermediate hashv rsib lsib
  else
    -- hashing for solana internals
    hashIntermediate hashv lsib rsib

/-- A turn of `new`'s inner loop: node `i` of the level, from the level before it, which starts at
`prevLevelStart`. -/
def pushNode (sortedHashes : Bool) (prevLevelStart prevLevelLen : Nat) (nodes : List Hash)
    (i : Nat) : Option (List Hash) := do
  let prevLevelIdx := 2 * i
  let lsib ← nodes[prevLevelStart + prevLevelIdx]?
  let rsib ← if prevLevelIdx + 1 < prevLevelLen then nodes[prevLevelStart + prevLevelIdx + 1]?
    -- Duplicate last entry if the level length is odd
    else nodes[prevLevelStart + prevLevelIdx]?
  pure (nodes ++ [join hashv sortedHashes lsib rsib])

/-- `new`'s outer loop, a level a turn, while `level_len > 0`. -/
def newLoop (sortedHashes : Bool) (nodes : List Hash)
    (levelLen levelStart prevLevelLen prevLevelStart : Nat) : Option (List Hash) :=
  if levelLen = 0 then some nodes
  else
    ((List.range levelLen).foldlM (pushNode hashv sortedHashes prevLevelStart prevLevelLen)
      nodes).bind fun nodes =>
        newLoop sortedHashes nodes (nextLevelLen levelLen) (levelStart + levelLen) levelLen
          levelStart
termination_by levelLen
decreasing_by exact nextLevelLen_lt (by assumption)

/-- `MerkleTree::new`. -/
def new (items : List (List UInt8)) (sortedHashes : Bool) : Option MerkleTree :=
  (newLoop hashv sortedHashes (items.map (hashLeaf hashv)) (nextLevelLen items.length)
    items.length items.length 0).map fun nodes => { leafCount := items.length, nodes }

/-- `get_root`. -/
def getRoot (t : MerkleTree) : Option Hash := t.nodes.getLast?

/-- `find_path`'s loop, a level a turn: the level is the slice from `levelStart`, its node on the
path enters it with the sibling chosen the turn before, and the node's sibling at this level is
chosen, on its left for an odd position and on its right (itself if last) for an even one. -/
def findPathLoop (nodes : List Hash) (levelLen levelStart nodeIndex : Nat)
    (lsib rsib : Option Hash) (path : List ProofEntry) : Option (List ProofEntry) :=
  if levelLen = 0 then some path
  -- the slice `&self.nodes[level_start..(level_start + level_len)]`
  else if nodes.length < levelStart + levelLen then none
  else
    let level := (nodes.drop levelStart).take levelLen
    (level[nodeIndex]?).bind fun target =>
    (if lsib.isSome || rsib.isSome then (ProofEntry.new target lsib rsib).map (path ++ [·])
      else some path).bind fun path =>
    (if nodeIndex % 2 = 0 then
        (if nodeIndex + 1 < level.length then level[nodeIndex + 1]? else level[nodeIndex]?).map
          fun r => (none, some r)
      else (level[nodeIndex - 1]?).map fun l => (some l, none)).bind fun siblings =>
    findPathLoop nodes (nextLevelLen levelLen) (levelStart + levelLen) (nodeIndex / 2) siblings.1
      siblings.2 path
termination_by levelLen
decreasing_by exact nextLevelLen_lt (by assumption)

/-- `find_path`: `some none` for an index past the leaves; `none` is a panic. -/
def findPath (t : MerkleTree) (index : Nat) : Option (Option (List ProofEntry)) :=
  if t.leafCount ≤ index then some none
  else (findPathLoop t.nodes t.leafCount 0 index none none []).map some

/-- What `get_proof` reads of an entry: the left sibling if there is one, else the right one;
`panic!` if neither. -/
def ProofEntry.sibling (branch : ProofEntry) : Option Hash := branch.leftSibling.or branch.rightSibling

/-- `get_proof` of the tip distributor: the siblings of the leaf's path, bottom up; the `expect`
panics for an index past the leaves. -/
def getProof (t : MerkleTree) (i : Nat) : Option (List Hash) :=
  match findPath t i with
  | some (some path) => path.mapM ProofEntry.sibling
  | _ => none

/-- The closure of `Proof::verify`'s `try_fold`: the candidate, put on the side the entry leaves
open and joined with the entry's sibling, must hash to the entry's target, which is then the
candidate for the next entry. -/
def verifyStep (candidate : Hash) (pe : ProofEntry) : Option Hash :=
  let lsib := pe.leftSibling.getD candidate
  let rsib := pe.rightSibling.getD candidate
  let hash := hashIntermediate hashv lsib rsib
  if hash = pe.target then some hash else none

/-- `Proof::verify`: the fold of the entries from the candidate gets through every entry. -/
def Proof.verify (proof : List ProofEntry) (candidate : Hash) : Bool :=
  (proof.foldlM (verifyStep hashv) candidate).isSome

/-! ## The vector as the levels laid end to end -/

variable {hashv}

theorem getElem?_append_append {pre level rest : List Hash} {i : Nat} (hi : i < level.length) :
    (pre ++ level ++ rest)[pre.length + i]? = level[i]? := by
  rw [List.getElem?_append_left (by simp; omega), List.getElem?_append_right (by omega),
    Nat.add_sub_cancel_left]

/-- A turn of the inner loop pushes node `k` of the level up. -/
theorem pushNode_eq (sortedHashes : Bool) (pre level rest : List Hash) {k : Nat}
    (hk : k < (up (join hashv sortedHashes) level).length) :
    ∃ x, (up (join hashv sortedHashes) level)[k]? = some x ∧
      pushNode hashv sortedHashes pre.length level.length (pre ++ level ++ rest) k =
        some (pre ++ level ++ rest ++ [x]) := by
  have h2k : 2 * k < level.length := by
    rw [length_up] at hk
    omega
  rw [getElem?_up, List.getElem?_eq_getElem h2k, Option.map_some]
  refine ⟨_, rfl, ?_⟩
  unfold pushNode
  dsimp only
  rw [getElem?_append_append h2k, List.getElem?_eq_getElem h2k, Option.bind_eq_bind,
    Option.bind_some]
  by_cases hodd : 2 * k + 1 < level.length
  · -- two siblings
    rw [if_pos hodd, Nat.add_assoc, getElem?_append_append hodd, List.getElem?_eq_getElem hodd]
    rfl
  · -- the last node of an odd level, joined with itself
    rw [if_neg hodd, List.getElem?_eq_none (by omega)]
    rfl

/-- The inner loop at a level laid out after `pre`: after `k` turns, the first `k` nodes of the
level up follow it. -/
theorem foldlM_pushNode (sortedHashes : Bool) (pre level : List Hash) {k : Nat}
    (hk : k ≤ (up (join hashv sortedHashes) level).length) :
    (List.range k).foldlM (pushNode hashv sortedHashes pre.length level.length) (pre ++ level) =
      some (pre ++ level ++ (up (join hashv sortedHashes) level).take k) := by
  induction k with
  | zero => simp
  | succ k ih =>
    obtain ⟨x, hx, hpush⟩ := pushNode_eq sortedHashes pre level
      ((up (join hashv sortedHashes) level).take k)
      (show k < (up (join hashv sortedHashes) level).length by omega)
    rw [List.range_succ, List.foldlM_append, ih (by omega), Option.bind_eq_bind, Option.bind_some,
      List.take_add_one, hx, List.foldlM_cons, hpush]
    simp

/-- The outer loop from a level laid out after `pre`: the levels from it up follow `pre`. -/
theorem newLoop_eq (sortedHashes : Bool) (pre level : List Hash) :
    newLoop hashv sortedHashes (pre ++ level) (nextLevelLen level.length) (pre.length + level.length)
      level.length pre.length =
      some (pre ++ (levels (join hashv sortedHashes) level).flatten) := by
  induction level using levels.induct (join hashv sortedHashes) generalizing pre with
  | case1 level hlen ih =>
    -- one more level, of `(len + 1) / 2` nodes
    have hnext : nextLevelLen level.length = (up (join hashv sortedHashes) level).length := by
      rw [length_up]
      unfold nextLevelLen
      rw [if_neg (by omega)]
    have hrest := ih (pre ++ level)
    rw [List.length_append] at hrest
    rw [newLoop, if_neg (by rw [hnext, length_up]; omega), hnext,
      foldlM_pushNode sortedHashes pre level (Nat.le_refl _), Option.bind_some,
      List.take_length, hrest, levels_eq (join hashv sortedHashes) level, if_pos hlen,
      List.flatten_cons, List.append_assoc]
  | case2 level hlen =>
    -- the last level: the loop stops
    have hnext : nextLevelLen level.length = 0 := by
      unfold nextLevelLen
      split <;> omega
    rw [newLoop, hnext, if_pos rfl, levels_eq, if_neg hlen]
    simp

/-- `new` lays the levels of the hashed leaves end to end. -/
theorem new_eq (items : List (List UInt8)) (sortedHashes : Bool) :
    new hashv items sortedHashes =
      some { leafCount := items.length
             nodes := (levels (join hashv sortedHashes) (items.map (hashLeaf hashv))).flatten } := by
  have h := @newLoop_eq hashv sortedHashes [] (items.map (hashLeaf hashv))
  rw [List.nil_append, List.length_nil, Nat.zero_add, List.length_map] at h
  unfold new
  rw [h]
  rfl

/-! ## The path as the siblings of the leaf -/

/-- The sibling `find_path` chooses on the right of an even node: its neighbour, or itself when it
is the last. -/
theorem chosen_eq (level : List Hash) {j : Nat} (hj : j < level.length) :
    (if j + 1 < level.length then level[j + 1]? else some level[j]) =
      some ((level[j + 1]?).getD level[j]) := by
  split
  · rename_i hnext
    rw [List.getElem?_eq_getElem hnext]
    rfl
  · rename_i hlast
    rw [List.getElem?_eq_none (l := level) (i := j + 1) (by omega)]
    rfl

theorem sibling_of_even (level : List Hash) {j : Nat} (hj : j < level.length) (heven : j % 2 = 0) :
    sibling level j = some ((level[j + 1]?).getD level[j]) := by
  rw [sibling, if_pos heven, List.getElem?_eq_getElem hj]
  cases level[j + 1]? <;> rfl

theorem sibling_of_odd (level : List Hash) {j : Nat} (hj : j < level.length) (hodd : ¬j % 2 = 0) :
    sibling level j = some level[j - 1] := by
  rw [sibling, if_neg hodd, List.getElem?_eq_getElem]

/-- The siblings `find_path` keeps for the level above: the node's sibling on the side the node
leaves open, the right one for an even position and the left one for an odd one. -/
def sides (j : Nat) (s : Hash) : Option Hash × Option Hash :=
  if j % 2 = 0 then (none, some s) else (some s, none)

/-- The entry a turn of `find_path` pushes: the node with the siblings kept from the level below,
and none at the leaves, where nothing is kept yet. -/
def pendingEntries (target : Hash) (lsib rsib : Option Hash) : List ProofEntry :=
  if lsib.isSome || rsib.isSome then [⟨target, lsib, rsib⟩] else []

theorem sides_pending (j : Nat) (s : Hash) : ¬((sides j s).1.isSome ∧ (sides j s).2.isSome) := by
  unfold sides
  split <;> simp

theorem length_pendingEntries_sides (target : Hash) (j : Nat) (s : Hash) :
    (pendingEntries target (sides j s).1 (sides j s).2).length = 1 := by
  unfold sides pendingEntries
  split <;> rfl

theorem mapM_sibling_pendingEntries (target : Hash) {lsib rsib : Option Hash}
    (hpending : ¬(lsib.isSome ∧ rsib.isSome)) :
    (pendingEntries target lsib rsib).mapM ProofEntry.sibling = some (lsib.or rsib).toList := by
  cases lsib with
  | none =>
    cases rsib with
    | none => rfl
    | some b => rfl
  | some a =>
    cases rsib with
    | none => rfl
    | some b => exact absurd ⟨rfl, rfl⟩ hpending

/-- A turn of the path loop at a level laid out after `pre`, all of it: the node enters the path
with the siblings kept from the level below, and its own sibling is kept, on its side, for the
level above. -/
theorem findPathLoop_eq_step (pre level rest : List Hash) {j : Nat} (hj : j < level.length)
    {lsib rsib : Option Hash} (hpending : ¬(lsib.isSome ∧ rsib.isSome)) (path : List ProofEntry) :
    ∃ s, sibling level j = some s ∧
      findPathLoop (pre ++ level ++ rest) level.length pre.length j lsib rsib path =
        findPathLoop (pre ++ level ++ rest) (nextLevelLen level.length) (pre.length + level.length)
          (j / 2) (sides j s).1 (sides j s).2 (path ++ pendingEntries level[j] lsib rsib) := by
  have hslice : ((pre ++ level ++ rest).drop pre.length).take level.length = level := by
    rw [List.append_assoc, List.drop_left, List.take_left]
  -- `ProofEntry::new`'s `assert!` holds: exactly one sibling is kept, or none at the leaves
  have hpush : (if lsib.isSome || rsib.isSome then
      (ProofEntry.new level[j] lsib rsib).map (path ++ [·]) else some path) =
        some (path ++ pendingEntries level[j] lsib rsib) := by
    cases lsib with
    | none =>
      cases rsib with
      | none => simp [pendingEntries]
      | some b => rfl
    | some a =>
      cases rsib with
      | none => rfl
      | some b => exact absurd ⟨rfl, rfl⟩ hpending
  rw [findPathLoop, if_neg (by omega),
    if_neg (by rw [List.length_append, List.length_append]; omega)]
  dsimp only
  rw [hslice, List.getElem?_eq_getElem hj, Option.bind_some, hpush, Option.bind_some]
  by_cases heven : j % 2 = 0
  · -- the sibling on the right, or the node itself when it is the last
    rw [if_pos heven, chosen_eq level hj, Option.map_some, Option.bind_some]
    exact ⟨_, sibling_of_even level hj heven, by rw [sides, if_pos heven]⟩
  · -- the sibling on the left
    rw [if_neg heven, List.getElem?_eq_getElem (show j - 1 < level.length by omega),
      Option.map_some, Option.bind_some]
    exact ⟨_, sibling_of_odd level hj heven, by rw [sides, if_neg heven]⟩

/-- A turn of the path loop at a level laid out after `pre`: the pending sibling of the level below
enters the path, and the node's sibling at this level is the one pending for the next. -/
theorem findPathLoop_step (pre level rest : List Hash) {j : Nat} (hj : j < level.length)
    {lsib rsib : Option Hash} (hpending : ¬(lsib.isSome ∧ rsib.isSome)) (path : List ProofEntry) :
    ∃ s lsib' rsib' pushed, sibling level j = some s ∧ lsib'.or rsib' = some s ∧
      ¬(lsib'.isSome ∧ rsib'.isSome) ∧ pushed.mapM ProofEntry.sibling = some (lsib.or rsib).toList ∧
      findPathLoop (pre ++ level ++ rest) level.length pre.length j lsib rsib path =
        findPathLoop (pre ++ level ++ rest) (nextLevelLen level.length) (pre.length + level.length)
          (j / 2) lsib' rsib' (path ++ pushed) := by
  obtain ⟨s, hs, hstep⟩ := findPathLoop_eq_step pre level rest hj hpending path
  have hkept : (sides j s).1.or (sides j s).2 = some s := by
    unfold sides
    split <;> rfl
  exact ⟨s, _, _, _, hs, hkept, sides_pending j s,
    mapM_sibling_pendingEntries level[j] hpending, hstep⟩

/-- The path loop from a level laid out after `pre`, at node `j` of the level, with at most one
sibling pending from the level below: the entries it adds read off as the pending sibling, and then
the node's siblings up to the root. -/
theorem findPathLoop_eq (sortedHashes : Bool) (pre level : List Hash) {j : Nat}
    (hj : j < level.length) {lsib rsib : Option Hash} (hpending : ¬(lsib.isSome ∧ rsib.isSome))
    (path : List ProofEntry) :
    ∃ entries, findPathLoop (pre ++ (levels (join hashv sortedHashes) level).flatten) level.length
        pre.length j lsib rsib path = some (path ++ entries) ∧
      entries.mapM ProofEntry.sibling =
        (siblings (levels (join hashv sortedHashes) level) j).map ((lsib.or rsib).toList ++ ·) := by
  induction level using levels.induct (join hashv sortedHashes)
    generalizing pre j lsib rsib path with
  | case1 level hlen ih =>
    have hlevels : levels (join hashv sortedHashes) level =
        level :: levels (join hashv sortedHashes) (up (join hashv sortedHashes) level) := by
      rw [levels_eq, if_pos hlen]
    have hnext : nextLevelLen level.length = (up (join hashv sortedHashes) level).length := by
      rw [length_up]
      unfold nextLevelLen
      rw [if_neg (by omega)]
    obtain ⟨s, lsib', rsib', pushed, hs, hs', hpending', hmapM, hstep⟩ :=
      findPathLoop_step pre level
        (levels (join hashv sortedHashes) (up (join hashv sortedHashes) level)).flatten hj
        hpending path
    -- the rest of the path, from the parent one level up
    have hparent : j / 2 < (up (join hashv sortedHashes) level).length := by
      rw [length_up]
      omega
    obtain ⟨entries, hloop, hentries⟩ := ih (pre ++ level) hparent hpending' (path ++ pushed)
    rw [List.length_append] at hloop
    refine ⟨pushed ++ entries, ?_, ?_⟩
    · rw [hlevels, List.flatten_cons, ← List.append_assoc, hstep, hnext, hloop,
        List.append_assoc]
    · rw [List.mapM_append, hmapM, hentries, hs', hlevels, siblings_cons_levels, hs,
        Option.bind_some]
      cases siblings (levels (join hashv sortedHashes) (up (join hashv sortedHashes) level)) (j / 2)
        <;> rfl
  | case2 level hlen =>
    -- the root's level: one node, and the loop stops after it
    have hlevels : levels (join hashv sortedHashes) level = [level] := by
      rw [levels_eq, if_neg hlen]
    have hnext : nextLevelLen level.length = 0 := by
      unfold nextLevelLen
      rw [if_pos (by omega)]
    obtain ⟨s, lsib', rsib', pushed, -, -, -, hmapM, hstep⟩ :=
      findPathLoop_step pre level [] hj hpending path
    rw [List.append_nil] at hstep
    refine ⟨pushed, ?_, ?_⟩
    · rw [hlevels, List.flatten_cons, List.flatten_nil, List.append_nil, hstep, hnext,
        findPathLoop, if_pos rfl]
    · rw [hmapM, hlevels]
      simp [siblings]

/-- `get_proof` on the tree `new` builds reads the siblings of the leaf level by level. -/
theorem getProof_new (items : List (List UInt8)) (sortedHashes : Bool) {i : Nat}
    (hi : i < items.length) :
    ∃ t, new hashv items sortedHashes = some t ∧
      getProof t i = siblings (levels (join hashv sortedHashes) (items.map (hashLeaf hashv))) i := by
  refine ⟨_, new_eq items sortedHashes, ?_⟩
  have hpending : ¬((none : Option Hash).isSome ∧ (none : Option Hash).isSome) := by simp
  obtain ⟨entries, hloop, hentries⟩ := findPathLoop_eq sortedHashes [] (items.map (hashLeaf hashv))
    (by rw [List.length_map]; exact hi) hpending []
  rw [List.nil_append, List.length_map, List.length_nil] at hloop
  unfold getProof findPath
  dsimp only
  rw [if_neg (by omega), hloop, List.nil_append, Option.map_some]
  dsimp only
  rw [hentries]
  cases siblings (levels (join hashv sortedHashes) (items.map (hashLeaf hashv))) i <;> rfl

/-- On a sorted tree, a leaf's proof folds with the sorted join into the root. -/
theorem foldl_getProof (items : List (List UInt8)) {i : Nat} (hi : i < items.length) :
    ∃ t root proof, new hashv items true = some t ∧ getRoot t = some root ∧
      getProof t i = some proof ∧
      proof.foldl (sortedJoin (hashIntermediate hashv)) (hashLeaf hashv items[i]) = root := by
  have hjoin : join hashv true = sortedJoin (hashIntermediate hashv) := rfl
  obtain ⟨t, ht, hproof⟩ := @getProof_new hashv items true _ hi
  obtain ⟨root, path, hroot, hpath, hfold⟩ := foldl_siblings
    (sortedJoin_comm (hashIntermediate hashv)) (items.map (hashLeaf hashv))
    (by rw [List.length_map]; exact hi)
  rw [← hjoin] at hroot hpath hfold
  refine ⟨t, root, path, ht, ?_, by rw [hproof, hpath], ?_⟩
  · rw [new_eq] at ht
    cases ht
    exact getLast?_flatten hroot
  · rw [← hfold, hjoin, List.getElem_map]

/-! ## Verifying a path of the unsorted tree -/

variable (hashv) in
/-- What the candidate becomes once the entry pending from the level below is verified: joined
with the kept sibling on its side, or itself at the leaves. -/
def pendingJoin (candidate : Hash) (lsib rsib : Option Hash) : Hash :=
  if lsib.isSome || rsib.isSome then
    hashIntermediate hashv (lsib.getD candidate) (rsib.getD candidate)
  else candidate

/-- The entry pushed for the siblings kept below verifies, from the node below, to the node. -/
theorem foldlM_verifyStep_pendingEntries {candidate target : Hash} {lsib rsib : Option Hash}
    (hjoin : pendingJoin hashv candidate lsib rsib = target) :
    (pendingEntries target lsib rsib).foldlM (verifyStep hashv) candidate = some target := by
  unfold pendingEntries
  unfold pendingJoin at hjoin
  split
  · rename_i hkept
    rw [if_pos hkept] at hjoin
    simp [verifyStep, hjoin]
  · rename_i hleaf
    rw [if_neg hleaf] at hjoin
    simp [hjoin]

/-- The siblings kept for the level above join the node into its parent, on the sides its index
says. -/
theorem pendingJoin_sides (j : Nat) (candidate s : Hash) :
    pendingJoin hashv candidate (sides j s).1 (sides j s).2 =
      (joinAt (hashIntermediate hashv) (j, candidate) s).2 := by
  unfold sides joinAt
  by_cases heven : j % 2 = 0
  · simp [pendingJoin, heven]
  · simp [pendingJoin, heven]

/-- The path loop of the unsorted tree from a level laid out after `pre`, at node `j` of the level,
from a candidate that the entry pending from the level below turns into the node: the entries it
adds verify one after the other up to the root, one for each level above this one and one more for
the pending entry. -/
theorem findPathLoop_verify (pre level : List Hash) {j : Nat} (hj : j < level.length)
    {lsib rsib : Option Hash} (hpending : ¬(lsib.isSome ∧ rsib.isSome)) {candidate : Hash}
    (hcandidate : pendingJoin hashv candidate lsib rsib = level[j]) (path : List ProofEntry) :
    ∃ entries root,
      findPathLoop (pre ++ (levels (hashIntermediate hashv) level).flatten) level.length pre.length
        j lsib rsib path = some (path ++ entries) ∧
      (levels (hashIntermediate hashv) level).getLast? = some [root] ∧
      entries.foldlM (verifyStep hashv) candidate = some root ∧
      entries.length + 1 = (levels (hashIntermediate hashv) level).length +
        (pendingEntries level[j] lsib rsib).length := by
  induction level using levels.induct (hashIntermediate hashv)
    generalizing pre j lsib rsib candidate path with
  | case1 level hlen ih =>
    have hlevels : levels (hashIntermediate hashv) level =
        level :: levels (hashIntermediate hashv) (up (hashIntermediate hashv) level) := by
      rw [levels_eq, if_pos hlen]
    have hnext : nextLevelLen level.length = (up (hashIntermediate hashv) level).length := by
      rw [length_up]
      unfold nextLevelLen
      rw [if_neg (by omega)]
    obtain ⟨s, hs, hstep⟩ := findPathLoop_eq_step pre level
      (levels (hashIntermediate hashv) (up (hashIntermediate hashv) level)).flatten hj hpending path
    -- the node joined with the sibling kept for the level above is its parent
    obtain ⟨s', hs', hup⟩ := @sibling_spec_joinAt _ (hashIntermediate hashv) _ _ hj
    obtain rfl : s' = s := Option.some_injective _ (hs'.symm.trans hs)
    obtain ⟨hparent, hparent_eq⟩ := List.getElem?_eq_some_iff.mp hup
    have hjoin : pendingJoin hashv level[j] (sides j s').1 (sides j s').2 =
        (up (hashIntermediate hashv) level)[j / 2] := by
      rw [pendingJoin_sides, hparent_eq]
    obtain ⟨entries, root, hloop, hroot, hfold, hlength⟩ :=
      ih (pre ++ level) hparent (sides_pending j s') hjoin
        (path ++ pendingEntries level[j] lsib rsib)
    rw [List.length_append] at hloop
    refine ⟨pendingEntries level[j] lsib rsib ++ entries, root, ?_, ?_, ?_, ?_⟩
    · rw [hlevels, List.flatten_cons, ← List.append_assoc, hstep, hnext, hloop, List.append_assoc]
    · rw [hlevels, List.getLast?_cons, hroot]
      rfl
    · rw [List.foldlM_append, foldlM_verifyStep_pendingEntries hcandidate, Option.bind_eq_bind,
        Option.bind_some, hfold]
    · rw [length_pendingEntries_sides] at hlength
      rw [hlevels, List.length_cons, List.length_append]
      omega
  | case2 level hlen =>
    -- the root's level: one node, and the loop stops after it
    have hone : level.length = 1 := by omega
    obtain ⟨a, rfl⟩ := List.length_eq_one_iff.mp hone
    obtain rfl : j = 0 := by
      rw [List.length_singleton] at hj
      omega
    have hlevels : levels (hashIntermediate hashv) [a] = [[a]] := by
      rw [levels_eq, if_neg hlen]
    have hnext : nextLevelLen [a].length = 0 := by
      unfold nextLevelLen
      rw [if_pos hone]
    obtain ⟨s, -, hstep⟩ := findPathLoop_eq_step pre [a] [] hj hpending path
    rw [List.append_nil] at hstep
    refine ⟨pendingEntries a lsib rsib, a, ?_, by rw [hlevels]; rfl,
      foldlM_verifyStep_pendingEntries hcandidate, ?_⟩
    · rw [hlevels, List.flatten_cons, List.flatten_nil, List.append_nil, hstep, hnext,
        findPathLoop, if_pos rfl]
      rfl
    · rw [hlevels, List.length_singleton, Nat.add_comm]
      rfl

/-- In the unsorted tree, the path of every leaf verifies from the hashed leaf, entry after entry,
up to the root, and has an entry for each level above the leaves; past the leaves there is no
path. -/
theorem find_path_verify_root (items : List (List UInt8)) :
    ∃ t, new hashv items false = some t ∧
      (∀ i (hi : i < items.length), ∃ proof root, findPath t i = some (some proof) ∧
        getRoot t = some root ∧
        proof.foldlM (verifyStep hashv) (hashLeaf hashv items[i]) = some root ∧
        Proof.verify hashv proof (hashLeaf hashv items[i]) = true ∧
        proof.length = Nat.clog 2 items.length) ∧
      ∀ i, items.length ≤ i → findPath t i = some none := by
  have hjoin : join hashv false = hashIntermediate hashv := rfl
  refine ⟨_, new_eq items false, ?_, ?_⟩
  · intro i hi
    have hleaf : i < (items.map (hashLeaf hashv)).length := by
      rw [List.length_map]
      exact hi
    have hcandidate : pendingJoin hashv (hashLeaf hashv items[i]) none none =
        (items.map (hashLeaf hashv))[i] := by
      rw [List.getElem_map]
      rfl
    obtain ⟨entries, root, hloop, hroot, hfold, hlength⟩ :=
      findPathLoop_verify [] (items.map (hashLeaf hashv)) hleaf (by simp) hcandidate []
    simp only [List.nil_append, List.length_map, List.length_nil] at hloop
    -- the leaves' level has as many nodes as there are items, and the tree `clog` levels above
    have hlevels := @length_levels _ (hashIntermediate hashv) (items.map (hashLeaf hashv))
      (by rw [← List.length_pos_iff, List.length_map]; omega)
    refine ⟨entries, root, ?_, ?_, hfold, by simp [Proof.verify, hfold], ?_⟩
    · unfold findPath
      dsimp only
      rw [if_neg (by omega), hjoin, hloop]
      rfl
    · unfold getRoot
      dsimp only
      rw [hjoin]
      exact getLast?_flatten hroot
    · rw [hlevels, List.length_map] at hlength
      simp only [pendingEntries, Option.isSome_none, Bool.or_self, Bool.false_eq_true,
        if_false, List.length_nil] at hlength
      omega
  · intro i hi
    unfold findPath
    rw [if_pos hi]

end MerkleTree

end Agave
