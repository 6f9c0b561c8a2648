import Agave.Gossip.WeightedShuffleTree

/-!
# `shuffle` against the reference of the tests

`weighted_shuffle_slow` draws, while weight is left, the first index whose running sum exceeds a
sample and zeroes its weight; then it draws the zero weights uniformly. The tree of
`WeightedShuffle` answers the same query with `search`. So from a state that holds the weights
`ws` (`Represents s d ws`), the iterator of `shuffle` draws what `slowLoop` draws on `ws`, from the
same samples, and ends with no weight and the same zeros (`slowLoop_yields`). It then draws what
`drainZeros` draws from those zeros (`drainZeros_yields`). `Yields s rng out rngEnd` says what the
iterator gives: the first `n` items of `out` for every `n`, and after all of them none, with the
source at `rngEnd`.

After `new` and a run of `remove_index`, the state holds the weights `new` keeps with the removed
ones zeroed (`remainingWeights`). Its zeros are those of `new` without the removed indices
(`remainingZeros`, `represents_removeIndex_foldl`). A removed index thus leaves the output whether
its weight was zero or not.
-/

namespace Agave.Gossip.WeightedShuffle

open PrefixSum

/-! ## The indices left to draw -/

section Lists

variable {ws : List Nat} {k : Nat}

theorem getD_set_zero (ws : List Nat) (k i : Nat) :
    (ws.set k 0).getD i 0 = if i = k then 0 else ws.getD i 0 := by
  simp only [List.getD_eq_getElem?_getD, List.getElem?_set]
  by_cases hi : i = k
  · subst hi
    by_cases hlen : i < ws.length
    · simp [hlen]
    · simp [hlen]
  · simp [hi, Ne.symm hi]

/-- Zeroing a weight takes it off the total. -/
theorem sum_set_zero_add (hk : k < ws.length) : (ws.set k 0).sum + ws.getD k 0 = ws.sum := by
  rw [List.sum_set, if_pos hk, ← List.sum_take_add_sum_drop ws k, List.drop_eq_getElem_cons hk,
    List.sum_cons, List.getD_eq_getElem _ _ hk]
  omega

/-- Zeroing a positive weight leaves one positive weight fewer. -/
theorem countP_set_zero (hk : k < ws.length) (hpos : 0 < ws.getD k 0) :
    (ws.set k 0).countP (fun w => 0 < w) + 1 = ws.countP (fun w => 0 < w) := by
  rw [List.getD_eq_getElem _ _ hk] at hpos
  have hsome : 0 < ws.countP (fun w => 0 < w) :=
    List.countP_pos_iff.mpr ⟨_, List.getElem_mem hk, decide_eq_true hpos⟩
  rw [List.countP_set hk, if_pos (decide_eq_true hpos)]
  simp only [Nat.lt_irrefl, decide_false, Bool.false_eq_true, if_false]
  omega

theorem sum_eq_zero_of_countP (h : ws.countP (fun w => 0 < w) = 0) : ws.sum = 0 :=
  List.sum_eq_zero fun w hw => Nat.eq_zero_of_not_pos (by simpa using List.countP_eq_zero.mp h w hw)

/-- The indices of the positive weights, in order: those the first loop of
`weighted_shuffle_slow` draws. -/
def positiveIndices (ws : List Nat) : List Nat :=
  (List.range ws.length).filter fun k => 0 < ws.getD k 0

theorem positiveIndices_eq_nil (h : ws.sum = 0) : positiveIndices ws = [] := by
  rw [positiveIndices, List.filter_eq_nil_iff]
  intro i hi
  rw [List.mem_range] at hi
  rw [List.getD_eq_getElem _ _ hi, List.sum_eq_zero_iff.mp h _ (List.getElem_mem hi)]
  decide

/-- Zeroing the weight of a drawn index takes it out of the indices left to draw. -/
theorem positiveIndices_perm_set (hk : k < ws.length) (hpos : 0 < ws.getD k 0) :
    (positiveIndices ws).Perm (k :: positiveIndices (ws.set k 0)) := by
  have hnodup : (positiveIndices ws).Nodup := List.nodup_range.filter _
  have hmem : k ∈ positiveIndices ws :=
    List.mem_filter.mpr ⟨List.mem_range.mpr hk, decide_eq_true hpos⟩
  have herase : positiveIndices (ws.set k 0) = (positiveIndices ws).erase k := by
    rw [hnodup.erase_eq_filter, positiveIndices, positiveIndices, List.length_set,
      List.filter_filter]
    apply List.filter_congr
    intro i _
    rw [getD_set_zero]
    by_cases hi : i = k <;> simp [hi]
  rw [herase]
  exact List.perm_cons_erase hmem

end Lists

/-! ## What the iterator yields -/

section Yields

variable {σ : Type} (sampleSingle : σ → Nat → Nat → Nat × σ)

/-- The iterator of `shuffle` from the state `s` and the source `rng` yields `out` and then none,
leaving the source at `rngEnd`: its first `n` items are those of `out`, and asking for all of
them or more gives `out` and `rngEnd`. -/
structure Yields (s : WeightedShuffle) (rng : σ) (out : List Nat) (rngEnd : σ) : Prop where
  take : ∀ n, (shuffle sampleSingle n s rng).1 = out.take n
  done : ∀ n, out.length ≤ n → shuffle sampleSingle n s rng = (out, rngEnd)

variable {sampleSingle} {s s' : WeightedShuffle} {rng rng' rngEnd : σ} {out : List Nat} {k : Nat}

/-- No weight and no zeros left: the iterator is done. -/
theorem shuffleNext_eq_none (hw : s.weight = 0) (hz : s.zeros = []) :
    shuffleNext sampleSingle s rng = none := by
  simp [shuffleNext, hw, hz]

theorem Yields.nil (h : shuffleNext sampleSingle s rng = none) :
    Yields sampleSingle s rng [] rng := by
  have hshuffle : ∀ n, shuffle sampleSingle n s rng = ([], rng) := by
    intro n
    cases n with
    | zero => rfl
    | succ n => rw [shuffle, h]
  exact ⟨fun n => by rw [hshuffle, List.take_nil], fun n _ => hshuffle n⟩

/-- One item from the iterator, then the rest. -/
theorem Yields.cons (h : shuffleNext sampleSingle s rng = some (k, s', rng'))
    (hrest : Yields sampleSingle s' rng' out rngEnd) :
    Yields sampleSingle s rng (k :: out) rngEnd := by
  have hstep : ∀ n, shuffle sampleSingle (n + 1) s rng =
      (k :: (shuffle sampleSingle n s' rng').1, (shuffle sampleSingle n s' rng').2) := by
    intro n
    rw [shuffle, h]
  constructor
  · intro n
    cases n with
    | zero => rfl
    | succ n => rw [hstep, hrest.take n, List.take_succ_cons]
  · intro n hn
    rw [List.length_cons] at hn
    obtain ⟨m, rfl⟩ : ∃ m, n = m + 1 := ⟨n - 1, by omega⟩
    rw [hstep, hrest.done m (by omega)]

end Yields

/-! ## The two phases of the iterator -/

section Phases

variable {σ : Type} {sampleSingle : σ → Nat → Nat → Nat × σ}

/-- No weight and no zeros: the iterator and `drainZeros` are both done. -/
theorem drainZeros_yields_of_nil {s : WeightedShuffle} (hw : s.weight = 0) (hz : s.zeros = [])
    (fuel : Nat) (acc : List Nat) (rng : σ) :
    ∃ tail rngEnd, drainZeros sampleSingle fuel s.zeros acc rng = some (acc ++ tail, rngEnd) ∧
      Yields sampleSingle s rng tail rngEnd ∧ tail.Perm s.zeros := by
  refine ⟨[], rng, ?_, Yields.nil (shuffleNext_eq_none hw hz), by rw [hz]⟩
  rw [hz, drainZeros.eq_def]
  simp

/-- No weight left: the iterator draws nothing by weight, and `slowLoop` is done. -/
theorem slowLoop_yields_of_sum_eq_zero {d : Nat} {s : WeightedShuffle} {ws : List Nat}
    (hs : Represents s d ws) (hsum : ws.sum = 0) (fuel : Nat) (acc : List Nat) (rng : σ) :
    ∃ drawn rng' s', slowLoop sampleSingle fuel ws ws.sum acc rng = some (acc ++ drawn, rng') ∧
      s'.weight = 0 ∧ s'.zeros = s.zeros ∧
      (∀ tail rngEnd, Yields sampleSingle s' rng' tail rngEnd →
        Yields sampleSingle s rng (drawn ++ tail) rngEnd) ∧
      drawn.Perm (positiveIndices ws) := by
  refine ⟨[], rng, s, ?_, by rw [hs.weight, hsum], rfl, fun _ _ h => h, ?_⟩
  · rw [slowLoop.eq_def]
    simp [hsum]
  · rw [positiveIndices_eq_nil hsum]

variable (hsample : ∀ rng hi, 0 < hi → (sampleSingle rng 0 hi).1 < hi)

include hsample

/-- With no weight left, the iterator draws the zeros as `drainZeros` does, from the same
samples. -/
theorem drainZeros_yields (fuel : Nat) : ∀ (s : WeightedShuffle) (acc : List Nat) (rng : σ),
    s.weight = 0 → s.zeros.length ≤ fuel →
    ∃ tail rngEnd, drainZeros sampleSingle fuel s.zeros acc rng = some (acc ++ tail, rngEnd) ∧
      Yields sampleSingle s rng tail rngEnd ∧ tail.Perm s.zeros := by
  induction fuel with
  | zero =>
    intro s acc rng hw hlen
    exact drainZeros_yields_of_nil hw
      (List.eq_nil_of_length_eq_zero (Nat.le_zero.mp hlen)) 0 acc rng
  | succ fuel ih =>
    intro s acc rng hw hlen
    by_cases hz : s.zeros = []
    · exact drainZeros_yields_of_nil hw hz _ acc rng
    rcases hdraw : sampleSingle rng 0 s.zeros.length with ⟨index, rng'⟩
    have hindex : index < s.zeros.length := by
      simpa [hdraw] using hsample rng _ (List.length_pos_of_ne_nil hz)
    -- the iterator takes the drawn zero out with `swap_remove`, as the reference does
    let s' : WeightedShuffle := { s with zeros := IndexMap.swapRemoveAt s.zeros index }
    have hlen' : s'.zeros.length ≤ fuel := by
      simp only [s', IndexMap.length_swapRemoveAt]
      omega
    obtain ⟨tail, rngEnd, hdrain, hyields, hperm⟩ :=
      ih s' (acc ++ [s.zeros.getD index 0]) rng' hw hlen'
    have hnext : shuffleNext sampleSingle s rng = some (s.zeros.getD index 0, s', rng') := by
      simp [shuffleNext, hw, hz, hdraw, s']
    refine ⟨s.zeros.getD index 0 :: tail, rngEnd, ?_, hyields.cons hnext, ?_⟩
    · rw [drainZeros.eq_def]
      simp only [List.isEmpty_iff, hz, if_false, hdraw]
      rw [hdrain, List.append_assoc, List.singleton_append]
    · calc List.Perm (s.zeros.getD index 0 :: tail) (s.zeros.getD index 0 :: s.zeros.eraseIdx index)
            := (hperm.trans (IndexMap.perm_swapRemoveAt hindex)).cons _
        _ = s.zeros[index] :: s.zeros.eraseIdx index := by rw [List.getD_eq_getElem _ _ hindex]
        List.Perm _ s.zeros := List.getElem_cons_eraseIdx_perm hindex

/-- While weight is left, the iterator draws what `slowLoop` draws on the weights the state holds,
from the same samples, and ends with no weight and the same zeros. -/
theorem slowLoop_yields {d : Nat} (fuel : Nat) :
    ∀ (s : WeightedShuffle) (ws acc : List Nat) (rng : σ),
    Represents s d ws → ws.countP (fun w => 0 < w) ≤ fuel →
    ∃ drawn rng' s', slowLoop sampleSingle fuel ws ws.sum acc rng = some (acc ++ drawn, rng') ∧
      s'.weight = 0 ∧ s'.zeros = s.zeros ∧
      (∀ tail rngEnd, Yields sampleSingle s' rng' tail rngEnd →
        Yields sampleSingle s rng (drawn ++ tail) rngEnd) ∧
      drawn.Perm (positiveIndices ws) := by
  induction fuel with
  | zero =>
    intro s ws acc rng hs hcount
    exact slowLoop_yields_of_sum_eq_zero hs
      (sum_eq_zero_of_countP (Nat.le_zero.mp hcount)) 0 acc rng
  | succ fuel ih =>
    intro s ws acc rng hs hcount
    by_cases hsum : ws.sum = 0
    · exact slowLoop_yields_of_sum_eq_zero hs hsum _ acc rng
    have hpos : 0 < ws.sum := Nat.pos_of_ne_zero hsum
    rcases hdraw : sampleSingle rng 0 ws.sum with ⟨v, rng'⟩
    have hv : v < ws.sum := by simpa [hdraw] using hsample rng _ hpos
    -- `search` and the scan of the running sums stop at the same index
    obtain ⟨k, hsearch, hk, hlo, hhi⟩ := hs.search_eq hv
    have hfind := findIdx?_prefixSums_eq_some_iff.mpr ⟨hk, hlo, hhi⟩
    have hw : 0 < ws.getD k 0 := by
      rw [Finset.sum_range_succ] at hhi
      omega
    have hcount' := countP_set_zero hk hw
    obtain ⟨drawn, rng'', s', hslow, hw', hz', hyields, hperm⟩ :=
      ih (s.remove k (ws.getD k 0)) (ws.set k 0) (acc ++ [k]) rng' (hs.remove hk) (by omega)
    have hnext : shuffleNext sampleSingle s rng = some (k, s.remove k (ws.getD k 0), rng') := by
      simp [shuffleNext, hs.weight, hpos, hdraw, hsearch]
    refine ⟨k :: drawn, rng'', s', ?_, hw', hz', fun tail rngEnd htail =>
      Yields.cons hnext (hyields tail rngEnd htail), ?_⟩
    · have hhigh : ws.sum - ws.getD k 0 = (ws.set k 0).sum := by
        have := sum_set_zero_add hk
        omega
      rw [slowLoop.eq_def]
      simp only [hsum, if_false, hdraw, hfind]
      rw [hhigh, hslow, List.append_assoc, List.singleton_append]
    · exact (hperm.cons k).trans (positiveIndices_perm_set hk hw).symm

/-- From a state that holds the weights `ws`, the iterator yields what `slowLoop` draws on `ws`
and then what `drainZeros` draws from the state's zeros, from the same samples. -/
theorem yields_slowLoop_drainZeros {d : Nat} {s : WeightedShuffle} {ws : List Nat}
    (hs : Represents s d ws) {fuel : Nat} (hfuel : ws.countP (fun w => 0 < w) ≤ fuel) (rng : σ) :
    ∃ drawn rng' tail rngEnd,
      slowLoop sampleSingle fuel ws ws.sum [] rng = some (drawn, rng') ∧
      drainZeros sampleSingle s.zeros.length s.zeros drawn rng' = some (drawn ++ tail, rngEnd) ∧
      Yields sampleSingle s rng (drawn ++ tail) rngEnd ∧
      drawn.Perm (positiveIndices ws) ∧ tail.Perm s.zeros := by
  obtain ⟨drawn, rng', s', hslow, hw', hz', hyields, hdrawn⟩ :=
    slowLoop_yields hsample fuel s ws [] rng hs hfuel
  -- the draws among the zeros start where the draws by weight end
  obtain ⟨tail, rngEnd, hdrain, htail, htailPerm⟩ :=
    drainZeros_yields hsample s.zeros.length s' drawn rng' hw' (by rw [hz'])
  rw [hz'] at hdrain htailPerm
  exact ⟨drawn, rng', tail, rngEnd, by rw [hslow, List.nil_append], hdrain,
    hyields tail rngEnd htail, hdrawn, htailPerm⟩

end Phases

/-! ## `new`, then `remove_index` of each removed index -/

/-- The weights left after `new` and the removals: those `new` keeps, with each removed index
zeroed. -/
def remainingWeights (weights removed : List Nat) : List Nat :=
  removed.foldl (fun ws k => ws.set k 0) (effectiveWeights weights)

/-- The zeros left after `new` and the removals: those of `new`, without the removed indices. -/
def remainingZeros (weights removed : List Nat) : List Nat :=
  (zerosOf weights).filter fun k => k ∉ removed

section Removals

variable {weights removed : List Nat} {k : Nat}

theorem remainingWeights_append_singleton (weights removed : List Nat) (k : Nat) :
    remainingWeights weights (removed ++ [k]) = (remainingWeights weights removed).set k 0 := by
  rw [remainingWeights, List.foldl_append]
  rfl

@[simp] theorem length_remainingWeights (weights removed : List Nat) :
    (remainingWeights weights removed).length = weights.length := by
  induction removed using List.reverseRecOn with
  | nil => exact length_effectiveWeights weights
  | append_singleton removed k ih => rw [remainingWeights_append_singleton, List.length_set, ih]

theorem getD_remainingWeights (weights removed : List Nat) (i : Nat) :
    (remainingWeights weights removed).getD i 0 =
      if i ∈ removed then 0 else (effectiveWeights weights).getD i 0 := by
  induction removed using List.reverseRecOn with
  | nil => simp [remainingWeights]
  | append_singleton removed k ih =>
    rw [remainingWeights_append_singleton, getD_set_zero, ih]
    by_cases hi : i = k <;> simp [hi]

theorem mem_remainingZeros_iff :
    k ∈ remainingZeros weights removed ↔
      k < weights.length ∧ (remainingWeights weights removed).getD k 0 = 0 ∧ k ∉ removed := by
  rw [remainingZeros, zerosOf, List.mem_filter, List.mem_filter, List.mem_range,
    getD_remainingWeights]
  by_cases hk : k ∈ removed <;> simp [hk]

theorem nodup_remainingZeros (weights removed : List Nat) :
    (remainingZeros weights removed).Nodup :=
  (List.nodup_range.filter _).filter _

theorem remainingZeros_append_singleton (weights removed : List Nat) (k : Nat) :
    remainingZeros weights (removed ++ [k]) = (remainingZeros weights removed).erase k := by
  rw [(nodup_remainingZeros weights removed).erase_eq_filter, remainingZeros, remainingZeros,
    List.filter_filter]
  apply List.filter_congr
  intro i _
  by_cases hi : i = k <;> simp [hi]

/-- `remove_index` of each removed index, after `new`: the state holds the remaining weights, and
its zeros are the remaining zeros. -/
theorem represents_removeIndex_foldl (weights : List Nat) :
    ∀ removed : List Nat, (∀ k ∈ removed, k < weights.length) →
    ∃ d, Represents (removed.foldl removeIndex (new weights)) d
        (remainingWeights weights removed) ∧
      (removed.foldl removeIndex (new weights)).zeros = remainingZeros weights removed := by
  intro removed
  induction removed using List.reverseRecOn with
  | nil =>
    intro _
    obtain ⟨d, hs, hzeros⟩ := represents_new weights
    refine ⟨d, hs, ?_⟩
    rw [List.foldl_nil, hzeros, remainingZeros, List.filter_eq_self.mpr]
    simp
  | append_singleton removed k ih =>
    intro hremoved
    obtain ⟨d, hs, hzeros⟩ := ih fun k' hk' => hremoved k' (List.mem_append_left _ hk')
    have hk : k < (remainingWeights weights removed).length := by
      rw [length_remainingWeights]
      exact hremoved k (List.mem_append_right _ (List.mem_singleton_self k))
    obtain ⟨hs', hzeros'⟩ := hs.removeIndex hk
    rw [List.foldl_append, List.foldl_cons, List.foldl_nil, remainingWeights_append_singleton,
      remainingZeros_append_singleton, hzeros', hzeros]
    refine ⟨d, hs', ?_⟩
    split
    · rfl
    · -- a positive weight was never among the zeros
      rename_i hpos
      rw [List.erase_of_not_mem fun hmem => hpos (mem_remainingZeros_iff.mp hmem).2.1]

/-- The indices drawn by weight and the remaining zeros are, together, every index not removed. -/
theorem positiveIndices_append_remainingZeros_perm (weights removed : List Nat) :
    (positiveIndices (remainingWeights weights removed) ++ remainingZeros weights removed).Perm
      ((List.range weights.length).filter fun k => k ∉ removed) := by
  have hpos : positiveIndices (remainingWeights weights removed) =
      ((List.range weights.length).filter fun k => k ∉ removed).filter
        fun k => 0 < (remainingWeights weights removed).getD k 0 := by
    rw [positiveIndices, length_remainingWeights, List.filter_filter]
    apply List.filter_congr
    intro i _
    -- a removed index has no weight left
    rw [getD_remainingWeights]
    by_cases hi : i ∈ removed <;> simp [hi]
  have hzero : remainingZeros weights removed =
      ((List.range weights.length).filter fun k => k ∉ removed).filter
        fun k => !decide (0 < (remainingWeights weights removed).getD k 0) := by
    rw [remainingZeros, zerosOf, List.filter_filter, List.filter_filter]
    apply List.filter_congr
    intro i _
    rw [getD_remainingWeights]
    by_cases hi : i ∈ removed <;> simp [hi, Nat.pos_iff_ne_zero]
  rw [hpos, hzero]
  exact List.filter_append_perm _ _

end Removals

/-- `new`, `remove_index` of each removed index, then `shuffle`, from a source whose samples lie
in their ranges: the iterator yields what the first loop of `weighted_shuffle_slow` draws on the
remaining weights, then what its second loop draws from the remaining zeros, from the same
samples. That is every index not removed, once, those with weight left first. -/
theorem shuffle_refines_slow {σ : Type} (sampleSingle : σ → Nat → Nat → Nat × σ)
    (hsample : ∀ rng lo hi, lo < hi →
      lo ≤ (sampleSingle rng lo hi).1 ∧ (sampleSingle rng lo hi).1 < hi)
    (weights removed : List Nat) (hremoved : ∀ k ∈ removed, k < weights.length) (rng : σ) :
    ∃ drawn rng' tail rngEnd,
      slowLoop sampleSingle weights.length (remainingWeights weights removed)
          (remainingWeights weights removed).sum [] rng = some (drawn, rng') ∧
      drainZeros sampleSingle (remainingZeros weights removed).length
          (remainingZeros weights removed) drawn rng' = some (drawn ++ tail, rngEnd) ∧
      Yields sampleSingle (removed.foldl removeIndex (new weights)) rng (drawn ++ tail) rngEnd ∧
      (drawn ++ tail).Perm ((List.range weights.length).filter fun k => k ∉ removed) ∧
      (∀ k ∈ drawn, 0 < (remainingWeights weights removed).getD k 0) ∧
      ∀ k ∈ tail, (remainingWeights weights removed).getD k 0 = 0 := by
  obtain ⟨d, hs, hzeros⟩ := represents_removeIndex_foldl weights removed hremoved
  have hfuel : (remainingWeights weights removed).countP (fun w => 0 < w) ≤ weights.length := by
    rw [← length_remainingWeights weights removed]
    exact List.countP_le_length
  obtain ⟨drawn, rng', tail, rngEnd, hslow, hdrain, hyields, hdrawn, htailPerm⟩ :=
    yields_slowLoop_drainZeros (fun rng hi h => (hsample rng 0 hi h).2) hs hfuel rng
  rw [hzeros] at hdrain htailPerm
  refine ⟨drawn, rng', tail, rngEnd, hslow, hdrain, hyields, ?_, ?_, ?_⟩
  · exact (hdrawn.append htailPerm).trans (positiveIndices_append_remainingZeros_perm _ _)
  · intro k hk
    exact of_decide_eq_true (List.mem_filter.mp (hdrawn.mem_iff.mp hk)).2
  · intro k hk
    exact (mem_remainingZeros_iff.mp (htailPerm.mem_iff.mp hk)).2.1

/-- The weights `[2, 0, 1]` with the last removed, and a source that always returns the low end
of its range. -/
theorem shuffle_refines_slow_low_end :
    ∃ drawn rng' tail rngEnd,
      slowLoop (fun (_ : Unit) lo _ => (lo, ())) [2, 0, 1].length (remainingWeights [2, 0, 1] [2])
          (remainingWeights [2, 0, 1] [2]).sum [] () = some (drawn, rng') ∧
      drainZeros (fun (_ : Unit) lo _ => (lo, ())) (remainingZeros [2, 0, 1] [2]).length
          (remainingZeros [2, 0, 1] [2]) drawn rng' = some (drawn ++ tail, rngEnd) ∧
      Yields (fun (_ : Unit) lo _ => (lo, ())) ([2].foldl removeIndex (new [2, 0, 1])) ()
        (drawn ++ tail) rngEnd ∧
      (drawn ++ tail).Perm ((List.range [2, 0, 1].length).filter fun k => k ∉ [2]) ∧
      (∀ k ∈ drawn, 0 < (remainingWeights [2, 0, 1] [2]).getD k 0) ∧
      ∀ k ∈ tail, (remainingWeights [2, 0, 1] [2]).getD k 0 = 0 :=
  shuffle_refines_slow (fun (_ : Unit) lo _ => (lo, ())) (fun _ _ _ h => ⟨le_rfl, h⟩)
    [2, 0, 1] [2] (by decide) ()

/-- A removed index of zero weight leaves the output too: with the one weight `0` removed, the
iterator yields nothing, though no index of positive weight was removed. -/
theorem shuffle_omits_removed_zero :
    ¬ (shuffle (fun (_ : Unit) lo _ => (lo, ())) 2 ([0].foldl removeIndex (new [0])) ()).1.Perm
      ((List.range 1).filter fun k => ¬ (k ∈ [0] ∧ 0 < [0].getD k 0)) := by
  obtain ⟨d, hs, hzeros⟩ := represents_removeIndex_foldl [0] [0] (by decide)
  have hnone : shuffleNext (fun (_ : Unit) lo _ => (lo, ())) ([0].foldl removeIndex (new [0])) ()
      = none :=
    shuffleNext_eq_none (by rw [hs.weight]; rfl) (by rw [hzeros]; rfl)
  rw [(Yields.nil hnone).take 2]
  decide

/-! ## `new` against `weighted_shuffle_slow` -/

/-- The zeros `weighted_shuffle_slow` collects: the indices of the zero weights, in order. -/
theorem zeros_zipIdx_filter (l : List Nat) :
    (l.zipIdx.filter fun entry => entry.1 = 0).map (·.2) =
      (List.range l.length).filter fun k => l.getD k 0 = 0 := by
  induction l using List.reverseRecOn with
  | nil => rfl
  | append_singleton l w ih =>
    rw [List.zipIdx_append, List.filter_append, List.map_append, ih, List.length_append,
      List.length_singleton, List.range_succ, List.filter_append]
    congr 1
    · -- the earlier weights keep their places
      apply List.filter_congr
      intro k hk
      rw [List.getD_append _ _ _ _ (List.mem_range.mp hk)]
    · by_cases hw : w = 0 <;> simp [hw]

/-- `shuffle` after `new` yields what `weighted_shuffle_slow` returns on the weights `new` keeps,
from the same samples, and then none. -/
theorem shuffle_matches_weightedShuffleSlow {σ : Type} (sampleSingle : σ → Nat → Nat → Nat × σ)
    (hsample : ∀ rng lo hi, lo < hi →
      lo ≤ (sampleSingle rng lo hi).1 ∧ (sampleSingle rng lo hi).1 < hi)
    (weights : List Nat) (rng : σ) :
    ∃ out rngEnd, weightedShuffleSlow sampleSingle rng (effectiveWeights weights) =
      some (out, rngEnd) ∧ Yields sampleSingle (new weights) rng out rngEnd := by
  obtain ⟨d, hs, hzeros⟩ := represents_new weights
  obtain ⟨drawn, rng', tail, rngEnd, hslow, hdrain, hyields, -, -⟩ :=
    yields_slowLoop_drainZeros (fun rng hi h => (hsample rng 0 hi h).2) hs
      (List.countP_le_length (l := effectiveWeights weights)) rng
  -- the reference collects the same zeros as `new`
  have hz : ((effectiveWeights weights).zipIdx.filter fun entry => entry.1 = 0).map (·.2) =
      (new weights).zeros := by
    rw [zeros_zipIdx_filter, hzeros, zerosOf, length_effectiveWeights]
  refine ⟨drawn ++ tail, rngEnd, ?_, hyields⟩
  unfold weightedShuffleSlow
  simp only [hslow, hz]
  exact hdrain

/-- The weights `[3, 0, 5]`, and a source that always returns the low end of its range. -/
theorem shuffle_matches_weightedShuffleSlow_low_end :
    ∃ out rngEnd, weightedShuffleSlow (fun (_ : Unit) lo _ => (lo, ())) ()
        (effectiveWeights [3, 0, 5]) = some (out, rngEnd) ∧
      Yields (fun (_ : Unit) lo _ => (lo, ())) (new [3, 0, 5]) () out rngEnd :=
  shuffle_matches_weightedShuffleSlow (fun (_ : Unit) lo _ => (lo, ()))
    (fun _ _ _ h => ⟨le_rfl, h⟩) [3, 0, 5] ()

end Agave.Gossip.WeightedShuffle
