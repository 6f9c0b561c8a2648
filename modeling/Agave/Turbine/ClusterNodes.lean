import Agave.Lib.Forest
import Mathlib.Data.List.Nodup
import Mathlib.Order.Nat
import Mathlib.Tactic.Ring

/-!
# The turbine retransmit tree

`get_retransmit_peers` and `get_retransmit_parent` (`turbine/src/cluster_nodes.rs`) place the
shuffled nodes of the cluster in a tree by their index. The root `0` retransmits to the first
layer `1, …, fanout`; every other node to `fanout` nodes of the next layer, `fanout` apart from the
first node of its neighbourhood. The two directions are computed by separate index arithmetic.

* The index layer: `retransmitPeerIndices` and `retransmitParentIndex`. Both have a closed form on
  the layout of an index `fanout * (fanout * q + 1 + t) + r + 1` (`retransmitParentIndex_layer`,
  `retransmitPeerIndices_layer`), and from it the one bridge `mem_retransmitPeerIndices_iff`: an
  index is among the peers of `k` exactly when its parent is `k`.
* The tree: the parent of an index is below it, so the parents form a `Forest` on the indices
  (`retransmitTree`), and the `root_distance` of `ClusterNodes::get_retransmit_peers` is its depth
  capped at `3` (`rootDistance_eq_min_depth`).
* The node layer: `while_some` stops at the first index past the slice, and the indices go up, so
  the peers are the nodes at the peer indices that exist (`getRetransmitPeers_eq_filterMap`); on
  nodes without repeats a node is a peer of `k` exactly when its index is
  (`mem_getRetransmitPeers_iff`).

Indices are `usize` in the source and naturals here; the saturating products of the root distance
only saturate past every index of a slice.
-/

namespace Agave.Turbine

variable {α : Type}

/-- The items an iterator of options yields through `while_some`: those before the first `None`. -/
def whileSome : List (Option α) → List α
  | [] => []
  | none :: _ => []
  | some a :: l => a :: whileSome l

/-- The indices `get_retransmit_peers` reads before the slice cuts them off: `fanout` of them from
`anchor * fanout + offset + 1`, one apart for the root and `fanout` apart for any other node. -/
def retransmitPeerIndices (fanout index : Nat) : List Nat :=
  -- Node's index within its neighborhood.
  let offset := (index - 1) % fanout
  -- First node in the neighborhood.
  let anchor := index - offset
  let step := if index = 0 then 1 else fanout
  (List.range fanout).map fun t => anchor * fanout + offset + 1 + t * step

/-- `get_retransmit_peers`. -/
def getRetransmitPeers (fanout index : Nat) (nodes : List α) : List α :=
  whileSome ((retransmitPeerIndices fanout index).map fun i => nodes[i]?)

/-- The index `get_retransmit_parent` reads; `none` at the root, where `checked_sub(1)` fails. -/
def retransmitParentIndex (fanout index : Nat) : Option Nat :=
  -- Node's index within its neighborhood.
  let offset := (index - 1) % fanout
  match index with
  | 0 => none
  | index + 1 =>
    let index := index / fanout
    let index := index - (index - 1) % fanout
    some (if index = 0 then index else index + offset)

/-- `get_retransmit_parent`. -/
def getRetransmitParent (fanout index : Nat) (nodes : List α) : Option α :=
  (retransmitParentIndex fanout index).bind fun i => nodes[i]?

/-- The `root_distance` that `ClusterNodes::get_retransmit_peers` reports for its own index. -/
def rootDistance (fanout selfIndex : Nat) : Nat :=
  if selfIndex = 0 then 0
  else if selfIndex ≤ fanout then 1
  else if selfIndex ≤ (fanout + 1) * fanout then 2
  else 3

/-- The failure of the `ClusterNodes` calls: this node is the slot leader. -/
inductive Error where
  | loopback
  deriving DecidableEq, Repr

/-- What `ClusterNodes::get_retransmit_peers` returns, without the map of socket addresses. -/
structure RetransmitPeers (α : Type) where
  rootDistance : Nat
  children : List α

namespace ClusterNodes

variable [DecidableEq α]

/-- `ClusterNodes::get_retransmit_peers`, on the nodes as the weighted shuffle without the leader
ordered them. The node's own position is read with `position(..).unwrap()`, here `idxOf`: the node
is always among them. -/
def getRetransmitPeers (fanout : Nat) (slotLeader self : α) (nodes : List α) :
    Except Error (RetransmitPeers α) :=
  if slotLeader = self then .error .loopback
  else
    let selfIndex := nodes.idxOf self
    .ok { rootDistance := rootDistance fanout selfIndex
          children := Turbine.getRetransmitPeers fanout selfIndex nodes }

/-- `ClusterNodes::get_retransmit_parent`, on the shuffled nodes: an unstaked node has no parent,
and a staked one takes the nodes before itself and the parent of the index past them. -/
def getRetransmitParent (fanout : Nat) (leader self : α) (selfStake : Nat) (nodes : List α) :
    Except Error (Option α) :=
  if leader = self then .error .loopback
  else if selfStake = 0 then .ok none
  else
    let nodes := nodes.takeWhile (· ≠ self)
    .ok (Turbine.getRetransmitParent fanout nodes.length nodes)

end ClusterNodes

/-! ### The index layer -/

section Index

variable {fanout : Nat}

/-- Division by `fanout` of a number written as quotient and remainder. -/
theorem mul_add_div_mod (hF : 0 < fanout) {x r : Nat} (hr : r < fanout) :
    (fanout * x + r) / fanout = x ∧ (fanout * x + r) % fanout = r :=
  (Nat.div_mod_unique hF).2 ⟨Nat.add_comm _ _, hr⟩

@[simp]
theorem retransmitParentIndex_zero : retransmitParentIndex fanout 0 = none := rfl

theorem exists_retransmitParentIndex {index : Nat} (h : 0 < index) :
    ∃ p, retransmitParentIndex fanout index = some p := by
  obtain ⟨j, rfl⟩ : ∃ j, index = j + 1 := ⟨index - 1, by omega⟩
  exact ⟨_, rfl⟩

/-- The nodes of the first layer are the children of the root. -/
theorem retransmitParentIndex_of_lt {j : Nat} (hj : j < fanout) :
    retransmitParentIndex fanout (j + 1) = some 0 := by
  simp [retransmitParentIndex, Nat.div_eq_of_lt hj]

/-- The parent of an index of a later layer: `t` numbers the child among its siblings and `r` is
the offset it shares with its parent. -/
theorem retransmitParentIndex_layer (hF : 0 < fanout) {q t r : Nat} (ht : t < fanout)
    (hr : r < fanout) :
    retransmitParentIndex fanout (fanout * (fanout * q + 1 + t) + r + 1) =
      some (fanout * q + 1 + r) := by
  obtain ⟨hdiv, hmod⟩ := mul_add_div_mod hF (x := fanout * q + 1 + t) hr
  have hsub : fanout * q + 1 + t - 1 = fanout * q + t := by omega
  have ht' : (fanout * q + t) % fanout = t := (mul_add_div_mod hF ht).2
  simp only [retransmitParentIndex, Nat.add_sub_cancel, hdiv, hmod, hsub, ht']
  rw [if_neg (by omega)]

/-- Every index past the first layer has the layout of `retransmitParentIndex_layer`. -/
theorem exists_layer (hF : 0 < fanout) {j : Nat} (hj : fanout ≤ j) :
    ∃ q t r, t < fanout ∧ r < fanout ∧ j = fanout * (fanout * q + 1 + t) + r := by
  have hm : 1 ≤ j / fanout := (Nat.le_div_iff_mul_le hF).2 (by omega)
  refine ⟨(j / fanout - 1) / fanout, (j / fanout - 1) % fanout, j % fanout,
    Nat.mod_lt _ hF, Nat.mod_lt _ hF, ?_⟩
  have hq := Nat.div_add_mod (j / fanout - 1) fanout
  have hj' := Nat.div_add_mod j fanout
  -- `j / fanout - 1 + 1` is the quotient `j / fanout` again
  calc j = fanout * (j / fanout) + j % fanout := hj'.symm
    _ = fanout * (fanout * ((j / fanout - 1) / fanout) + 1 + (j / fanout - 1) % fanout) +
          j % fanout := by congr 2; omega

theorem retransmitParentIndex_lt {index p : Nat} (h : retransmitParentIndex fanout index = some p) :
    p < index := by
  match index, h with
  | j + 1, h =>
    simp only [retransmitParentIndex, Nat.add_sub_cancel, Option.some.injEq] at h
    subst h
    -- the quotient is at most `j` and the offset is what `j` has past its multiple of `fanout`
    have hdm := Nat.div_add_mod j fanout
    have hsub := Nat.sub_le (j / fanout) ((j / fanout - 1) % fanout)
    rcases Nat.eq_zero_or_pos fanout with h0 | hF
    · subst h0
      simp
    · have hle : j / fanout ≤ fanout * (j / fanout) := Nat.le_mul_of_pos_left _ hF
      split <;> omega

/-- The parent of an index past the first layer is not the root. -/
theorem retransmitParentIndex_ne_zero (hF : 0 < fanout) {j : Nat} (hj : fanout ≤ j) :
    retransmitParentIndex fanout (j + 1) ≠ some 0 := by
  obtain ⟨q, t, r, ht, hr, rfl⟩ := exists_layer hF hj
  rw [retransmitParentIndex_layer hF ht hr]
  simp

@[simp]
theorem length_retransmitPeerIndices (index : Nat) :
    (retransmitPeerIndices fanout index).length = fanout := by
  simp [retransmitPeerIndices]

theorem retransmitPeerIndices_zero :
    retransmitPeerIndices fanout 0 = (List.range fanout).map (· + 1) := by
  simp [retransmitPeerIndices, Nat.add_comm]

theorem retransmitPeerIndices_layer (hF : 0 < fanout) {q r : Nat} (hr : r < fanout) :
    retransmitPeerIndices fanout (fanout * q + r + 1) =
      (List.range fanout).map fun t => fanout * (fanout * q + 1 + t) + r + 1 := by
  have hmod : (fanout * q + r + 1 - 1) % fanout = r := by
    rw [Nat.add_sub_cancel]
    exact (mul_add_div_mod hF hr).2
  simp only [retransmitPeerIndices, hmod, if_neg (Nat.succ_ne_zero (fanout * q + r))]
  refine List.map_congr_left fun t _ => ?_
  have hanchor : fanout * q + r + 1 - r = fanout * q + 1 := by omega
  rw [hanchor]
  ring

/-- The two directions of the tree agree: the peers of `k` are the indices whose parent is `k`. -/
theorem mem_retransmitPeerIndices_iff (hF : 0 < fanout) {k c : Nat} :
    c ∈ retransmitPeerIndices fanout k ↔ retransmitParentIndex fanout c = some k := by
  cases k with
  | zero =>
    rw [retransmitPeerIndices_zero]
    simp only [List.mem_map, List.mem_range]
    constructor
    · rintro ⟨t, ht, rfl⟩
      exact retransmitParentIndex_of_lt ht
    · intro h
      match c, h with
      | j + 1, h =>
        refine ⟨j, ?_, rfl⟩
        by_contra hj
        exact retransmitParentIndex_ne_zero hF (Nat.le_of_not_lt hj) h
  | succ k =>
    -- write `k` as `fanout * q + r`, the layout of `retransmitPeerIndices_layer`
    obtain ⟨q, r, hr, rfl⟩ : ∃ q r, r < fanout ∧ k = fanout * q + r :=
      ⟨k / fanout, k % fanout, Nat.mod_lt _ hF, (Nat.div_add_mod k fanout).symm⟩
    rw [retransmitPeerIndices_layer hF hr]
    simp only [List.mem_map, List.mem_range]
    constructor
    · rintro ⟨t, ht, rfl⟩
      rw [retransmitParentIndex_layer hF ht hr]
      congr 1
      omega
    · intro h
      match c, h with
      | j + 1, h =>
        by_cases hj : j < fanout
        · rw [retransmitParentIndex_of_lt hj] at h
          simp at h
        · obtain ⟨q', t, r', ht, hr', rfl⟩ := exists_layer hF (Nat.le_of_not_lt hj)
          rw [retransmitParentIndex_layer hF ht hr'] at h
          -- the parent fixes the quotient and the offset of the child
          have hpar : fanout * q' + r' = fanout * q + r := by
            simp only [Option.some.injEq] at h
            omega
          have hq : q' = q := by
            have h1 := (mul_add_div_mod hF (x := q') hr').1
            rwa [hpar, (mul_add_div_mod hF hr).1, eq_comm] at h1
          have hrr : r' = r := by
            have h1 := (mul_add_div_mod hF (x := q') hr').2
            rwa [hpar, (mul_add_div_mod hF hr).2, eq_comm] at h1
          subst hq hrr
          exact ⟨t, ht, rfl⟩

theorem pairwise_retransmitPeerIndices (hF : 0 < fanout) (index : Nat) :
    (retransmitPeerIndices fanout index).Pairwise (· < ·) := by
  have hstep : 0 < (if index = 0 then 1 else fanout) := by split <;> omega
  simp only [retransmitPeerIndices, List.pairwise_map]
  refine List.pairwise_lt_range.imp fun {t t'} htt' => ?_
  have := Nat.mul_lt_mul_of_pos_right htt' hstep
  omega

end Index

/-! ### The tree -/

/-- The retransmit tree on the indices of the shuffled nodes. -/
def retransmitTree (fanout : Nat) : Forest Nat where
  parent := retransmitParentIndex fanout
  parent_lt := retransmitParentIndex_lt

section Tree

variable {fanout : Nat}

theorem depth_retransmitTree_of_parent {i p : Nat} (h : retransmitParentIndex fanout i = some p) :
    (retransmitTree fanout).depth i = (retransmitTree fanout).depth p + 1 :=
  Forest.depth_of_parent_eq_some h

theorem depth_retransmitTree_zero : (retransmitTree fanout).depth 0 = 0 :=
  Forest.depth_of_parent_eq_none rfl

theorem depth_retransmitTree_pos {i : Nat} (hi : 0 < i) : 0 < (retransmitTree fanout).depth i := by
  obtain ⟨p, hp⟩ := @exists_retransmitParentIndex fanout _ hi
  rw [depth_retransmitTree_of_parent hp]
  exact Nat.succ_pos _

theorem depth_retransmitTree_of_le {i : Nat} (hi0 : 0 < i) (hi : i ≤ fanout) :
    (retransmitTree fanout).depth i = 1 := by
  obtain ⟨j, rfl⟩ : ∃ j, i = j + 1 := ⟨i - 1, by omega⟩
  rw [depth_retransmitTree_of_parent (retransmitParentIndex_of_lt (by omega)),
    depth_retransmitTree_zero]

/-- Past the first layer the parent is a node of a layer, and it is in the first layer exactly up
to index `(fanout + 1) * fanout`. -/
theorem retransmitParentIndex_of_gt (hF : 0 < fanout) {i : Nat} (hi : fanout < i) :
    ∃ p, retransmitParentIndex fanout i = some p ∧ 0 < p ∧
      (p ≤ fanout ↔ i ≤ (fanout + 1) * fanout) := by
  obtain ⟨q, t, r, ht, hr, hj⟩ := exists_layer hF (show fanout ≤ i - 1 by omega)
  obtain rfl : i = fanout * (fanout * q + 1 + t) + r + 1 := by omega
  refine ⟨fanout * q + 1 + r, retransmitParentIndex_layer hF ht hr, by omega, ?_⟩
  rw [Nat.succ_mul]
  rcases Nat.eq_zero_or_pos q with rfl | hq
  · -- a child of the first layer: both sides hold
    have := Nat.mul_le_mul_left fanout (show 1 + t ≤ fanout by omega)
    simp only [Nat.mul_zero, Nat.zero_add]
    omega
  · -- a child of a later layer: neither side holds
    have h1 : fanout ≤ fanout * q := Nat.le_mul_of_pos_right fanout hq
    have h2 := Nat.mul_le_mul_left fanout (show fanout + 1 ≤ fanout * q + 1 + t by omega)
    rw [Nat.mul_succ] at h2
    omega

theorem two_le_depth_retransmitTree (hF : 0 < fanout) {i : Nat} (hi : fanout < i) :
    2 ≤ (retransmitTree fanout).depth i := by
  obtain ⟨p, hp, hp0, -⟩ := retransmitParentIndex_of_gt hF hi
  rw [depth_retransmitTree_of_parent hp]
  have := @depth_retransmitTree_pos fanout _ hp0
  omega

/-- The root distance is the depth in the tree, capped at `3`. -/
theorem rootDistance_eq_min_depth (hF : 0 < fanout) (i : Nat) :
    rootDistance fanout i = min ((retransmitTree fanout).depth i) 3 := by
  unfold rootDistance
  split_ifs with h0 h1 h2
  · subst h0
    rw [depth_retransmitTree_zero]
    rfl
  · rw [depth_retransmitTree_of_le (Nat.pos_of_ne_zero h0) h1]
    rfl
  · -- the parent is in the first layer
    obtain ⟨p, hp, hp0, hiff⟩ := retransmitParentIndex_of_gt hF (Nat.lt_of_not_le h1)
    rw [depth_retransmitTree_of_parent hp, depth_retransmitTree_of_le hp0 (hiff.2 h2)]
    rfl
  · -- the parent is past the first layer, at depth two or more
    obtain ⟨p, hp, -, hiff⟩ := retransmitParentIndex_of_gt hF (Nat.lt_of_not_le h1)
    rw [depth_retransmitTree_of_parent hp]
    have := two_le_depth_retransmitTree hF (Nat.lt_of_not_le (mt hiff.1 h2))
    omega

end Tree

/-! ### The node layer -/

section Nodes

variable {fanout : Nat}

/-- On indices that go up, `while_some` over the slice reads stops only past the end of the
slice, where every later read fails as well. -/
theorem whileSome_map_getElem? (nodes : List α) {l : List Nat} (hl : l.Pairwise (· < ·)) :
    whileSome (l.map fun i => nodes[i]?) = l.filterMap fun i => nodes[i]? := by
  induction l with
  | nil => rfl
  | cons i l ih =>
    rw [List.pairwise_cons] at hl
    by_cases hi : i < nodes.length
    · simp [whileSome, List.getElem?_eq_getElem hi, ih hl.2]
    · have hnone : ∀ j ∈ l, nodes[j]? = none := fun j hj =>
        List.getElem?_eq_none (by have := hl.1 j hj; omega)
      simp [whileSome, List.getElem?_eq_none (Nat.le_of_not_lt hi),
        List.filterMap_eq_nil_iff.mpr hnone]

theorem getRetransmitPeers_eq_filterMap (hF : 0 < fanout) (index : Nat) (nodes : List α) :
    getRetransmitPeers fanout index nodes =
      (retransmitPeerIndices fanout index).filterMap fun i => nodes[i]? :=
  whileSome_map_getElem? nodes (pairwise_retransmitPeerIndices hF index)

/- Node `3` of eight retransmits to indices `7` and `9`; only the first exists. -/
example : getRetransmitPeers 2 3 [10, 11, 12, 13, 14, 15, 16, 17] = [17] := by decide

theorem length_getRetransmitPeers_le (hF : 0 < fanout) (k : Nat) (nodes : List α) :
    (getRetransmitPeers fanout k nodes).length ≤ fanout := by
  rw [getRetransmitPeers_eq_filterMap hF]
  exact (List.length_filterMap_le _ _).trans (length_retransmitPeerIndices k).le

theorem getRetransmitParent_of_parent {nodes : List α} {index p : Nat}
    (h : retransmitParentIndex fanout index = some p) :
    getRetransmitParent fanout index nodes = nodes[p]? := by
  simp [getRetransmitParent, h]

/-- The parent read from the nodes before an index is the parent read from all of them. -/
theorem getRetransmitParent_take (index : Nat) (nodes : List α) :
    getRetransmitParent fanout index (nodes.take index) = getRetransmitParent fanout index nodes := by
  cases h : retransmitParentIndex fanout index with
  | none => simp [getRetransmitParent, h]
  | some p =>
    rw [getRetransmitParent_of_parent h, getRetransmitParent_of_parent h,
      List.getElem?_take_of_lt (retransmitParentIndex_lt h)]

variable [DecidableEq α] {nodes : List α}

theorem getElem?_eq_some_iff_of_nodup (hnodup : nodes.Nodup) {i : Nat} {p : α} :
    nodes[i]? = some p ↔ p ∈ nodes ∧ nodes.idxOf p = i := by
  constructor
  · intro h
    obtain ⟨hi, rfl⟩ := List.getElem?_eq_some_iff.mp h
    exact ⟨List.getElem_mem hi, hnodup.idxOf_getElem i hi⟩
  · rintro ⟨hp, rfl⟩
    exact List.getElem?_eq_some_iff.mpr
      ⟨List.idxOf_lt_length_of_mem hp, List.getElem_idxOf (List.idxOf_lt_length_of_mem hp)⟩

theorem mem_getRetransmitPeers_iff (hF : 0 < fanout) (hnodup : nodes.Nodup) {k : Nat} {p : α} :
    p ∈ getRetransmitPeers fanout k nodes ↔
      p ∈ nodes ∧ nodes.idxOf p ∈ retransmitPeerIndices fanout k := by
  rw [getRetransmitPeers_eq_filterMap hF, List.mem_filterMap]
  constructor
  · rintro ⟨i, hi, hp⟩
    obtain ⟨hmem, rfl⟩ := (getElem?_eq_some_iff_of_nodup hnodup).mp hp
    exact ⟨hmem, hi⟩
  · rintro ⟨hmem, hi⟩
    exact ⟨_, hi, (getElem?_eq_some_iff_of_nodup hnodup).mpr ⟨hmem, rfl⟩⟩

theorem getElem_mem_getRetransmitPeers_iff (hF : 0 < fanout) (hnodup : nodes.Nodup) {k j : Nat}
    (hj : j < nodes.length) :
    nodes[j] ∈ getRetransmitPeers fanout k nodes ↔ retransmitParentIndex fanout j = some k := by
  rw [mem_getRetransmitPeers_iff hF hnodup, hnodup.idxOf_getElem j hj,
    mem_retransmitPeerIndices_iff hF]
  exact and_iff_right (List.getElem_mem hj)

theorem nodup_getRetransmitPeers (hF : 0 < fanout) (hnodup : nodes.Nodup) (k : Nat) :
    (getRetransmitPeers fanout k nodes).Nodup := by
  rw [getRetransmitPeers_eq_filterMap hF]
  -- distinct indices read distinct nodes
  have hinj : ∀ (i i' : Nat) (p : α), p ∈ nodes[i]? → p ∈ nodes[i']? → i = i' := by
    intro i i' p hi hi'
    rw [Option.mem_def, getElem?_eq_some_iff_of_nodup hnodup] at hi hi'
    exact hi.2.symm.trans hi'.2
  exact List.Nodup.filterMap hinj ((pairwise_retransmitPeerIndices hF k).imp Nat.ne_of_lt)

end Nodes

/-! ### The calls of a cluster node -/

namespace ClusterNodes

variable [DecidableEq α] {fanout : Nat} {nodes : List α}

theorem takeWhile_ne_eq_take_idxOf (self : α) (nodes : List α) :
    nodes.takeWhile (· ≠ self) = nodes.take (nodes.idxOf self) := by
  rw [List.takeWhile_eq_take_findIdx_not]
  congr 2
  funext a
  rw [Bool.eq_iff_iff]
  simp

theorem getRetransmitPeers_eq_ok_iff {slotLeader self : α} {r : RetransmitPeers α} :
    getRetransmitPeers fanout slotLeader self nodes = .ok r ↔
      slotLeader ≠ self ∧ r = ⟨rootDistance fanout (nodes.idxOf self),
        Turbine.getRetransmitPeers fanout (nodes.idxOf self) nodes⟩ := by
  unfold getRetransmitPeers
  split
  · simp_all
  · simp only [Except.ok.injEq]
    exact ⟨fun h => ⟨‹_›, h.symm⟩, fun h => h.2.symm⟩

/-- A staked node that is not the leader finds the parent of its own index. -/
theorem getRetransmitParent_eq {leader self : α} (hne : leader ≠ self) {selfStake : Nat}
    (hstake : selfStake ≠ 0) (nodes : List α) :
    getRetransmitParent fanout leader self selfStake nodes =
      .ok (Turbine.getRetransmitParent fanout (nodes.idxOf self) nodes) := by
  have hlen : (nodes.take (nodes.idxOf self)).length = nodes.idxOf self :=
    List.length_take_of_le List.idxOf_le_length
  simp only [getRetransmitParent, if_neg hne, if_neg hstake, takeWhile_ne_eq_take_idxOf, hlen,
    getRetransmitParent_take]

end ClusterNodes

/-! ### The tree the calls describe -/

/-- What the turbine tree promises on a list of shuffled nodes. -/
structure IsRetransmitTree [DecidableEq α] (fanout : Nat) (nodes : List α) : Prop where
  /-- The root has no parent. -/
  root : getRetransmitParent fanout 0 nodes = none
  /-- Every other node has an earlier parent that lists it among its peers. -/
  parent : ∀ j (hj : j < nodes.length), 0 < j → ∃ i < j,
    getRetransmitParent fanout j nodes = nodes[i]? ∧ nodes[j] ∈ getRetransmitPeers fanout i nodes
  /-- Every node but the root is sent the shred by exactly one node. -/
  sender_unique : ∀ j (hj : j < nodes.length), 0 < j →
    ∃! i, nodes[j] ∈ getRetransmitPeers fanout i nodes
  /-- A node sends to at most `fanout` nodes, each once. -/
  peers_bounded : ∀ k, (getRetransmitPeers fanout k nodes).length ≤ fanout ∧
    (getRetransmitPeers fanout k nodes).Nodup
  /-- Every peer of a node finds that node as its parent. -/
  peer_parent : ∀ k p, p ∈ getRetransmitPeers fanout k nodes →
    ∃ q, nodes[k]? = some q ∧ getRetransmitParent fanout (nodes.idxOf p) nodes = some q
  /-- The root distance a node reports is its depth in the tree, capped at `3`. -/
  root_distance : ∀ slotLeader self, slotLeader ≠ self → ∃ r,
    ClusterNodes.getRetransmitPeers fanout slotLeader self nodes = .ok r ∧
      r.rootDistance = min ((retransmitTree fanout).depth (nodes.idxOf self)) 3

theorem retransmit_tree_spanning [DecidableEq α] {fanout : Nat} (hF : 0 < fanout) {nodes : List α}
    (hnodup : nodes.Nodup) : IsRetransmitTree fanout nodes where
  root := rfl
  parent j hj hj0 := by
    obtain ⟨i, hi⟩ := @exists_retransmitParentIndex fanout _ hj0
    exact ⟨i, retransmitParentIndex_lt hi, getRetransmitParent_of_parent hi,
      (getElem_mem_getRetransmitPeers_iff hF hnodup hj).2 hi⟩
  sender_unique j hj hj0 := by
    obtain ⟨i, hi⟩ := @exists_retransmitParentIndex fanout _ hj0
    -- the sender is the parent, which is unique
    refine ⟨i, (getElem_mem_getRetransmitPeers_iff hF hnodup hj).2 hi, fun i' hi' => ?_⟩
    have hpar := (getElem_mem_getRetransmitPeers_iff hF hnodup hj).1 hi'
    exact Option.some.inj (hpar.symm.trans hi)
  peers_bounded k := ⟨length_getRetransmitPeers_le hF k nodes, nodup_getRetransmitPeers hF hnodup k⟩
  peer_parent k p hp := by
    obtain ⟨hmem, hidx⟩ := (mem_getRetransmitPeers_iff hF hnodup).1 hp
    rw [mem_retransmitPeerIndices_iff hF] at hidx
    -- the parent comes before the peer, so it is a node of the list
    have hk : k < nodes.length :=
      (retransmitParentIndex_lt hidx).trans (List.idxOf_lt_length_of_mem hmem)
    exact ⟨nodes[k], List.getElem?_eq_getElem hk, by
      rw [getRetransmitParent_of_parent hidx, List.getElem?_eq_getElem hk]⟩
  root_distance slotLeader self hne :=
    ⟨_, ClusterNodes.getRetransmitPeers_eq_ok_iff.2 ⟨hne, rfl⟩, rootDistance_eq_min_depth hF _⟩

theorem retransmit_tree_spanning_fanout_two :
    0 < 2 ∧ [10, 11, 12, 13, 14, 15, 16, 17].Nodup ∧
      IsRetransmitTree 2 [10, 11, 12, 13, 14, 15, 16, 17] :=
  ⟨by decide, by decide, retransmit_tree_spanning (by decide) (by decide)⟩

/-- Two staked nodes agree on the edge between them: the parent a node computes from the nodes
before it is the node whose peers, computed from its own index, contain it. The leader is not
among the shuffled nodes, having been removed from the shuffle. -/
theorem retransmit_parent_is_sender [DecidableEq α] {fanout : Nat} (hF : 0 < fanout)
    {nodes : List α} (hnodup : nodes.Nodup) {leader self : α} (hleader : leader ∉ nodes)
    (hself : self ∈ nodes) {selfStake : Nat} (hstake : selfStake ≠ 0) (q : α) :
    ClusterNodes.getRetransmitParent fanout leader self selfStake nodes = .ok (some q) ↔
      ∃ r, ClusterNodes.getRetransmitPeers fanout leader q nodes = .ok r ∧ self ∈ r.children := by
  have hne : leader ≠ self := fun h => hleader (h ▸ hself)
  rw [ClusterNodes.getRetransmitParent_eq hne hstake, Except.ok.injEq]
  constructor
  · intro h
    obtain ⟨p, hp, hq⟩ := Option.bind_eq_some_iff.mp h
    obtain ⟨hqmem, rfl⟩ := (getElem?_eq_some_iff_of_nodup hnodup).mp hq
    have hlq : leader ≠ q := fun h => hleader (h ▸ hqmem)
    exact ⟨_, ClusterNodes.getRetransmitPeers_eq_ok_iff.2 ⟨hlq, rfl⟩,
      (mem_getRetransmitPeers_iff hF hnodup).2 ⟨hself, (mem_retransmitPeerIndices_iff hF).2 hp⟩⟩
  · rintro ⟨r, hr, hmem⟩
    obtain ⟨-, rfl⟩ := ClusterNodes.getRetransmitPeers_eq_ok_iff.1 hr
    obtain ⟨-, hidx⟩ := (mem_getRetransmitPeers_iff hF hnodup).1 hmem
    rw [mem_retransmitPeerIndices_iff hF] at hidx
    -- the sender comes before the node, so it is one of the shuffled nodes
    have hqmem : q ∈ nodes := List.idxOf_lt_length_iff.1
      ((retransmitParentIndex_lt hidx).trans (List.idxOf_lt_length_of_mem hself))
    rw [getRetransmitParent_of_parent hidx]
    exact (getElem?_eq_some_iff_of_nodup hnodup).2 ⟨hqmem, rfl⟩

theorem retransmit_parent_is_sender_third_layer :
    (0 < 2 ∧ [10, 11, 12, 13, 14, 15, 16, 17].Nodup ∧ 3 ∉ [10, 11, 12, 13, 14, 15, 16, 17] ∧
      17 ∈ [10, 11, 12, 13, 14, 15, 16, 17] ∧ 1 ≠ 0) ∧
    (ClusterNodes.getRetransmitParent 2 3 17 1 [10, 11, 12, 13, 14, 15, 16, 17] = .ok (some 13) ↔
      ∃ r, ClusterNodes.getRetransmitPeers 2 3 13 [10, 11, 12, 13, 14, 15, 16, 17] = .ok r ∧
        17 ∈ r.children) :=
  ⟨by decide, retransmit_parent_is_sender (by decide) (by decide) (by decide) (by decide)
    (by decide) 13⟩

end Agave.Turbine
