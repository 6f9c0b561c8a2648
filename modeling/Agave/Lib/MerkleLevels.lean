import Mathlib.Order.Defs.LinearOrder
import Mathlib.Data.List.Basic
import Mathlib.Data.Nat.Log

/-!
# Merkle trees as lists of levels

A binary Merkle tree built bottom up, a level at a time: each level is the one below with its
nodes joined in pairs, an odd last node joined with itself (`up`), until a single node is left
(`levels`). The sibling of a node is the one it is joined with (`sibling`), and a node's path lists
its siblings level by level (`siblings`).

Folding a leaf's path into the leaf, with the leaf's index to say on which side of its sibling the
node is at each level, gives the root (`foldl_joinAt_siblings`); when the join does not depend on
the order of its arguments the index can be left out (`foldl_siblings`). The path has one sibling
for each level below the root, and a tree over `n` leaves has `⌈log₂ n⌉` of them (`length_levels`). A join of the two nodes in sorted order
(`sortedJoin`) is such a join for any total antisymmetric order, whatever the join of an ordered
pair is; a verifier that has only the path, and not the side each sibling is on, checks with it.
-/

namespace MerkleLevels

variable {α : Type} (join : α → α → α)

/-- One level up: the nodes joined in pairs, an odd last node with itself. -/
def up : List α → List α
  | a :: b :: rest => join a b :: up rest
  | [a] => [join a a]
  | [] => []

theorem length_up : ∀ l : List α, (up join l).length = (l.length + 1) / 2
  | a :: b :: rest => by
    rw [up, List.length_cons, length_up rest]
    simp only [List.length_cons]
    omega
  | [a] => by simp [up]
  | [] => by simp [up]

/-- Node `i` one level up, read off the level below by index: the join of the nodes at `2 * i`
and `2 * i + 1`, or of the one at `2 * i` with itself when it is the last. -/
theorem getElem?_up : ∀ (l : List α) (i : Nat),
    (up join l)[i]? = (l[2 * i]?).map fun a => join a ((l[2 * i + 1]?).getD a)
  | a :: b :: rest, 0 => rfl
  | a :: b :: rest, i + 1 => by
    rw [up, List.getElem?_cons_succ, getElem?_up rest i,
      show 2 * (i + 1) = 2 * i + 2 from rfl, show 2 * i + 2 + 1 = 2 * i + 1 + 2 from rfl]
    rfl
  | [a], 0 => rfl
  | [a], i + 1 => by
    simp only [up, List.getElem?_cons_succ, List.getElem?_nil]
    rw [show 2 * (i + 1) = 2 * i + 1 + 1 from rfl, List.getElem?_cons_succ, List.getElem?_nil]
    rfl
  | [], i => rfl

theorem length_up_lt {l : List α} (h : 1 < l.length) : (up join l).length < l.length := by
  rw [length_up]
  omega

/-- The levels from the leaves to the root: up from the leaves while a level has two nodes. -/
def levels (l : List α) : List (List α) :=
  if 1 < l.length then l :: levels (up join l) else [l]
termination_by l.length
decreasing_by exact length_up_lt join (by assumption)

theorem levels_eq (l : List α) :
    levels join l = l :: if 1 < l.length then levels join (up join l) else [] := by
  rw [levels]
  split <;> rfl

/-- The node joined with the node at `j`: its right neighbour for an even `j`, or itself when it
is the last, and its left neighbour for an odd `j`. -/
def sibling (level : List α) (j : Nat) : Option α :=
  if j % 2 = 0 then (level[j + 1]?).or level[j]? else level[j - 1]?

/-- The siblings of the node at `j`, from its own level to the one below the root. -/
def siblings : List (List α) → Nat → Option (List α)
  | [], _ => some []
  | [_], _ => some []
  | level :: next :: rest, j =>
    (sibling level j).bind fun s => (siblings (next :: rest) (j / 2)).map (s :: ·)

theorem siblings_cons_levels (level : List α) (j : Nat) :
    siblings (level :: levels join (up join level)) j =
      (sibling level j).bind fun s =>
        (siblings (levels join (up join level)) (j / 2)).map (s :: ·) := by
  rw [levels_eq join (up join level)]
  rfl

variable {join}

/-- One step up a path with the node's index: the node joined with its sibling on the side the
index says, and the index of the parent. -/
def joinAt (join : α → α → α) (p : Nat × α) (s : α) : Nat × α :=
  (p.1 / 2, if p.1 % 2 = 0 then join p.2 s else join s p.2)

/-- A node and its sibling join, on the sides their index says, to the node above them. -/
theorem sibling_spec_joinAt {level : List α} {j : Nat} (hj : j < level.length) :
    ∃ s, sibling level j = some s ∧ (up join level)[j / 2]? = some (joinAt join (j, level[j]) s).2 := by
  rw [getElem?_up]
  unfold sibling joinAt
  by_cases heven : j % 2 = 0
  · -- the node is the left one of its pair
    rw [if_pos heven, show 2 * (j / 2) = j by omega, List.getElem?_eq_getElem hj]
    refine ⟨(level[j + 1]?).getD level[j], ?_, by rw [if_pos heven]; rfl⟩
    cases level[j + 1]? <;> rfl
  · -- the node is the right one, and its sibling the left
    rw [if_neg heven, show 2 * (j / 2) = j - 1 by omega, show j - 1 + 1 = j by omega,
      List.getElem?_eq_getElem hj, List.getElem?_eq_getElem (show j - 1 < level.length by omega)]
    exact ⟨level[j - 1], rfl, by rw [Option.map_some, Option.getD_some, if_neg heven]⟩

/-- A node's path leads to the root: folding its siblings into it, each on the side the index
says, gives the single node of the top level, at index `0`. -/
theorem foldl_joinAt_siblings (l : List α) {j : Nat} (hj : j < l.length) :
    ∃ root path, (levels join l).getLast? = some [root] ∧ siblings (levels join l) j = some path ∧
      path.foldl (joinAt join) (j, l[j]) = (0, root) := by
  induction l using levels.induct join generalizing j with
  | case1 l hlen ih =>
    -- one level up, at the parent's position
    obtain ⟨s, hs, hup⟩ := @sibling_spec_joinAt _ join _ _ hj
    have hparent : j / 2 < (up join l).length := (List.getElem?_eq_some_iff.mp hup).1
    obtain ⟨root, path, hroot, hpath, hfold⟩ := ih hparent
    have hlevels : levels join l = l :: levels join (up join l) := by
      rw [levels_eq, if_pos hlen]
    refine ⟨root, s :: path, ?_, ?_, ?_⟩
    · rw [hlevels, List.getLast?_cons, hroot]
      rfl
    · rw [hlevels, siblings_cons_levels join l, hs, Option.bind_some, hpath]
      rfl
    · have hstep : joinAt join (j, l[j]) s = (j / 2, (up join l)[j / 2]) := by
        rw [(List.getElem?_eq_some_iff.mp hup).2]
        rfl
      rw [List.foldl_cons, hstep, hfold]
  | case2 l hlen =>
    -- the leaves are the top level: a single node, which is the root
    have hone : l.length = 1 := by omega
    obtain ⟨a, rfl⟩ := List.length_eq_one_iff.mp hone
    have hj0 : j = 0 := by simp at hj; omega
    subst hj0
    have hlevels : levels join [a] = [[a]] := by
      rw [levels_eq, if_neg hlen]
    rw [hlevels]
    exact ⟨a, [], rfl, rfl, rfl⟩

/-- With a join that does not depend on the order of its arguments, the index changes nothing. -/
theorem foldl_joinAt_of_comm (hcomm : ∀ a b, join a b = join b a) :
    ∀ (path : List α) (j : Nat) (a : α), (path.foldl (joinAt join) (j, a)).2 = path.foldl join a
  | [], _, _ => rfl
  | s :: path, j, a => by
    have hstep : joinAt join (j, a) s = (j / 2, join a s) := by
      unfold joinAt
      by_cases heven : j % 2 = 0
      · rw [if_pos heven]
      · rw [if_neg heven, hcomm]
    rw [List.foldl_cons, List.foldl_cons, hstep, foldl_joinAt_of_comm hcomm path]

/-- A node's path leads to the root: folding its siblings into it with the join gives the single
node of the top level, for a join that does not depend on the order of its arguments. -/
theorem foldl_siblings (hcomm : ∀ a b, join a b = join b a) (l : List α) {j : Nat}
    (hj : j < l.length) :
    ∃ root path, (levels join l).getLast? = some [root] ∧ siblings (levels join l) j = some path ∧
      path.foldl join l[j] = root := by
  obtain ⟨root, path, hroot, hpath, hfold⟩ := @foldl_joinAt_siblings _ join l _ hj
  refine ⟨root, path, hroot, hpath, ?_⟩
  rw [← foldl_joinAt_of_comm hcomm, hfold]

/-- A path has one sibling for each level below the root. -/
theorem length_siblings_levels (l : List α) {j : Nat} {path : List α}
    (h : siblings (levels join l) j = some path) : path.length + 1 = (levels join l).length := by
  induction l using levels.induct join generalizing j path with
  | case1 l hlen ih =>
    have hlevels : levels join l = l :: levels join (up join l) := by
      rw [levels_eq, if_pos hlen]
    rw [hlevels, siblings_cons_levels] at h
    obtain ⟨s, -, hrest⟩ := Option.bind_eq_some_iff.mp h
    obtain ⟨path', hpath', rfl⟩ := Option.map_eq_some_iff.mp hrest
    rw [hlevels, List.length_cons, List.length_cons, ih hpath']
  | case2 l hlen =>
    rw [levels_eq, if_neg hlen] at h ⊢
    cases h
    rfl

/-- A tree over `n` leaves has `⌈log₂ n⌉` levels above them: each level up halves the nodes,
rounding up. -/
theorem length_levels {l : List α} (hl : l ≠ []) :
    (levels join l).length = Nat.clog 2 l.length + 1 := by
  induction l using levels.induct join with
  | case1 l hlen ih =>
    have hup : up join l ≠ [] := by
      rw [← List.length_pos_iff, length_up]
      omega
    rw [levels_eq, if_pos hlen, List.length_cons, ih hup, length_up,
      Nat.clog_of_two_le (by decide) hlen, show l.length + 2 - 1 = l.length + 1 by omega]
  | case2 l hlen =>
    have hone : l.length = 1 := by
      have := List.length_pos_iff.mpr hl
      omega
    rw [levels_eq, if_neg hlen, hone, Nat.clog_one_right]
    rfl

/-- The levels of a tree over `n` leaves hold `n` nodes and, while a level has two, the nodes of the
level above. -/
theorem length_flatten_levels (l : List α) :
    (levels join l).flatten.length =
      l.length + if 1 < l.length then (levels join (up join l)).flatten.length else 0 := by
  rw [levels_eq]
  split <;> simp

/-- The levels laid end to end end with the root. -/
theorem getLast?_flatten {ls : List (List α)} {root : α} (h : ls.getLast? = some [root]) :
    ls.flatten.getLast? = some root := by
  obtain ⟨init, rfl⟩ := List.getLast?_eq_some_iff.mp h
  simp

/-! ## Joining a sorted pair -/

section Sorted

variable [LE α] [DecidableRel (α := α) (· ≤ ·)]

/-- The join of the two nodes in sorted order, the smaller first. -/
def sortedJoin (join : α → α → α) (a b : α) : α := if a ≤ b then join a b else join b a

/-- With a total antisymmetric order, a sorted join does not depend on the order of its
arguments. -/
theorem sortedJoin_comm [Std.Total (α := α) (· ≤ ·)] [Std.Antisymm (α := α) (· ≤ ·)]
    (join : α → α → α) (a b : α) : sortedJoin join a b = sortedJoin join b a := by
  unfold sortedJoin
  by_cases hab : a ≤ b
  · by_cases hba : b ≤ a
    · rw [Std.Antisymm.antisymm a b hab hba]
    · rw [if_pos hab, if_neg hba]
  · have hba : b ≤ a := (Std.Total.total a b).resolve_left hab
    rw [if_neg hab, if_pos hba]

end Sorted

end MerkleLevels
