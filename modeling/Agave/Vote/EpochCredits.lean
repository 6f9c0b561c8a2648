import Agave.Vote.State

/-!
# The epoch-credit history

`VoteState::epoch_credits` lists, for each epoch in which the validator earned credits, the epoch,
the credits it had at the end of it and those it had at its start. `increment_credits` opens an
entry when the epoch changes (or moves the last one to the new epoch when it earned nothing),
drops the oldest past `MAX_EPOCH_CREDITS_HISTORY` entries, and adds to the last entry.

`EpochCreditsWellFormed` is the shape the history keeps: epochs go up, every entry starts with
the credits the entry before it ended with, no entry loses credits, all within `u64`, and at most
`MAX_EPOCH_CREDITS_HISTORY` entries. `incrementCredits_cases` gives the new history in each of the
four branches; each keeps the shape (`EpochCreditsWellFormed.incrementCredits`), and over a run
the credits grow by the saturated sum of the increments (`foldl_incrementCredits`).
-/

namespace Agave.Vote

/-- `VoteState::credits`: the credits at the end of the last entry, `0` before any. -/
def credits (epochCredits : List (Epoch × Nat × Nat)) : Nat :=
  (epochCredits.getLast?.map (·.2.1)).getD 0

/-- Two consecutive entries of the history: the later epoch starts where the earlier ended. -/
def EpochCreditsStep (a b : Epoch × Nat × Nat) : Prop := a.1 < b.1 ∧ b.2.2 = a.2.1

/-- The shape `increment_credits` keeps `epoch_credits` in. -/
structure EpochCreditsWellFormed (epochCredits : List (Epoch × Nat × Nat)) : Prop where
  chain : epochCredits.IsChain EpochCreditsStep
  /-- Every entry ends with at least the credits it started with, within `u64`. -/
  entries : ∀ e ∈ epochCredits, e.2.2 ≤ e.2.1 ∧ e.2.1 ≤ U64_MAX
  length_le : epochCredits.length ≤ MAX_EPOCH_CREDITS_HISTORY

section Step

variable {init l : List (Epoch × Nat × Nat)} {epoch : Epoch} {c : Nat}

@[simp]
theorem credits_append_singleton (l : List (Epoch × Nat × Nat)) (x : Epoch × Nat × Nat) :
    credits (l ++ [x]) = x.2.1 := by
  simp [credits]

theorem saturatingAdd_saturatingAdd (a b d : Nat) :
    saturatingAdd U64_MAX (saturatingAdd U64_MAX a b) d = saturatingAdd U64_MAX a (b + d) := by
  unfold saturatingAdd
  omega

/-- What `increment_credits` leaves in each of its branches: a first entry, credits added to the
current epoch, the last entry moved to a new epoch, or a new entry (and the oldest dropped past
`MAX_EPOCH_CREDITS_HISTORY`). -/
theorem incrementCredits_cases (hlen : l.length ≤ MAX_EPOCH_CREDITS_HISTORY) (epoch : Epoch)
    (c : Nat) :
    (l = [] ∧ incrementCredits l epoch c = [(epoch, saturatingAdd U64_MAX 0 c, 0)]) ∨
    ∃ init le lc lp, l = init ++ [(le, lc, lp)] ∧
      ((epoch = le ∧ incrementCredits l epoch c = init ++ [(le, saturatingAdd U64_MAX lc c, lp)]) ∨
       (epoch ≠ le ∧ lc = lp ∧
          incrementCredits l epoch c = init ++ [(epoch, saturatingAdd U64_MAX lc c, lp)]) ∨
       (epoch ≠ le ∧ lc ≠ lp ∧
          incrementCredits l epoch c =
            (if MAX_EPOCH_CREDITS_HISTORY < l.length + 1 then l.tail else l) ++
              [(epoch, saturatingAdd U64_MAX lc c, lc)])) := by
  rcases List.eq_nil_or_concat' l with rfl | ⟨init, ⟨le, lc, lp⟩, rfl⟩
  · left
    exact ⟨rfl, rfl⟩
  · right
    refine ⟨init, le, lc, lp, rfl, ?_⟩
    by_cases he : epoch = le
    · left
      refine ⟨he, ?_⟩
      simp [incrementCredits, he, List.modifyLast_concat]
    · right
      by_cases hc : lc = lp
      · left
        refine ⟨he, hc, ?_⟩
        -- the history keeps its length, so nothing is dropped
        simp at hlen
        simp [incrementCredits, he, hc]
        rw [if_neg (by omega), List.modifyLast_concat]
      · right
        refine ⟨he, hc, ?_⟩
        simp [incrementCredits, he, hc]
        have hsplit : init ++ [(le, lc, lp), (epoch, lc, lc)] =
            (init ++ [(le, lc, lp)]) ++ [(epoch, lc, lc)] := by simp
        by_cases hm : MAX_EPOCH_CREDITS_HISTORY < init.length + 2
        · rw [if_pos hm, if_pos (by omega), hsplit, List.tail_append_of_ne_nil (by simp),
            List.modifyLast_concat]
        · rw [if_neg hm, if_neg (by omega), hsplit, List.modifyLast_concat]

theorem EpochCreditsWellFormed.credits_le (h : EpochCreditsWellFormed l) : credits l ≤ U64_MAX := by
  rcases List.eq_nil_or_concat' l with rfl | ⟨init, x, rfl⟩
  · exact Nat.zero_le _
  · rw [credits_append_singleton]
    exact (h.entries x (by simp)).2

/-- The history grows by one entry that follows its last one. -/
theorem EpochCreditsWellFormed.append_singleton {x : Epoch × Nat × Nat}
    (hchain : l.IsChain EpochCreditsStep) (hentries : ∀ e ∈ l, e.2.2 ≤ e.2.1 ∧ e.2.1 ≤ U64_MAX)
    (hlink : ∀ y ∈ l.getLast?, EpochCreditsStep y x) (hx : x.2.2 ≤ x.2.1 ∧ x.2.1 ≤ U64_MAX)
    (hlen : l.length + 1 ≤ MAX_EPOCH_CREDITS_HISTORY) : EpochCreditsWellFormed (l ++ [x]) where
  chain := hchain.append (List.isChain_singleton x) fun y hy z hz => by
    rw [List.head?_cons, Option.mem_some_iff] at hz
    subst hz
    exact hlink y hy
  entries e he := by
    rcases List.mem_append.mp he with he | he
    · exact hentries e he
    · rw [List.mem_singleton.mp he]
      exact hx
  length_le := by simpa using hlen

/-- Adding credits to an entry keeps it within `u64` and above its starting credits. -/
theorem entry_saturatingAdd {lc lp : Nat} (h : lp ≤ lc ∧ lc ≤ U64_MAX) (c : Nat) :
    lp ≤ saturatingAdd U64_MAX lc c ∧ saturatingAdd U64_MAX lc c ≤ U64_MAX := by
  unfold saturatingAdd
  omega

/-- One `increment_credits` at an epoch no earlier than the last keeps the history well formed,
adds the credits to `credits()`, and leaves the history at that epoch. -/
theorem EpochCreditsWellFormed.incrementCredits (h : EpochCreditsWellFormed l)
    (hepoch : ∀ e ∈ l.getLast?, e.1 ≤ epoch) (c : Nat) :
    EpochCreditsWellFormed (incrementCredits l epoch c) ∧
      credits (incrementCredits l epoch c) = saturatingAdd U64_MAX (credits l) c ∧
      ∀ e ∈ (incrementCredits l epoch c).getLast?, e.1 = epoch := by
  rcases incrementCredits_cases h.length_le epoch c with ⟨rfl, hinc⟩ |
    ⟨init, le, lc, lp, rfl, hcase⟩
  · -- the first entry
    rw [hinc]
    refine ⟨EpochCreditsWellFormed.append_singleton (l := []) List.isChain_nil (by simp)
      (by simp) ?_ (by decide), rfl, by simp⟩
    exact entry_saturatingAdd (by simp) c
  · -- what the old history says of its last entry and the entries before it
    obtain ⟨hinit, -, hlink⟩ := List.isChain_append.mp h.chain
    have hent : ∀ e ∈ init, e.2.2 ≤ e.2.1 ∧ e.2.1 ≤ U64_MAX := fun e he => h.entries e (by simp [he])
    have hlast := h.entries (le, lc, lp) (by simp)
    have hle : le ≤ epoch := hepoch (le, lc, lp) (by simp)
    have hlen := h.length_le
    rw [List.length_append, List.length_singleton] at hlen
    have hstep : ∀ y ∈ init.getLast?, EpochCreditsStep y (le, lc, lp) :=
      fun y hy => hlink y hy _ (by simp)
    rcases hcase with ⟨rfl, hinc⟩ | ⟨hne, rfl, hinc⟩ | ⟨hne, hc, hinc⟩
    · -- the same epoch: credits added to the last entry
      rw [hinc]
      refine ⟨EpochCreditsWellFormed.append_singleton hinit hent (fun y hy => hstep y hy)
        (entry_saturatingAdd hlast c) (by omega), by simp [credits], by simp⟩
    · -- a new epoch after one without credits: the last entry moves to it
      rw [hinc]
      refine ⟨EpochCreditsWellFormed.append_singleton hinit hent ?_ (entry_saturatingAdd hlast c)
        (by omega), by simp [credits], by simp⟩
      intro y hy
      obtain ⟨hlt, hprev⟩ := hstep y hy
      exact ⟨lt_of_lt_of_le hlt hle, hprev⟩
    · -- a new epoch after one with credits: a new entry, the oldest dropped past the limit
      rw [hinc]
      have hnew : ∀ y ∈ (init ++ [(le, lc, lp)]).getLast?,
          EpochCreditsStep y (epoch, saturatingAdd U64_MAX lc c, lc) := by
        intro y hy
        simp only [List.getLast?_concat, Option.mem_some_iff] at hy
        subst hy
        exact ⟨lt_of_le_of_ne hle (Ne.symm hne), rfl⟩
      have hx : lc ≤ saturatingAdd U64_MAX lc c ∧ saturatingAdd U64_MAX lc c ≤ U64_MAX :=
        entry_saturatingAdd ⟨le_rfl, hlast.2⟩ c
      refine ⟨?_, by simp [credits], by simp⟩
      split_ifs with hm
      · -- the oldest entry goes; the new one still follows the last
        have hinit0 : init ≠ [] := by
          rintro rfl
          simp [MAX_EPOCH_CREDITS_HISTORY] at hm
        rw [List.tail_append_of_ne_nil hinit0]
        refine EpochCreditsWellFormed.append_singleton ?_ ?_ ?_ hx ?_
        · rw [← List.tail_append_of_ne_nil hinit0]
          exact h.chain.tail
        · intro e he
          exact h.entries e (List.mem_of_mem_tail (by rw [List.tail_append_of_ne_nil hinit0]; exact he))
        · intro y hy
          rw [List.getLast?_append_of_ne_nil _ (by simp)] at hy
          exact hnew y (by simpa using hy)
        · have := List.length_pos_of_ne_nil hinit0
          simp only [List.length_append, List.length_tail, List.length_singleton]
          omega
      · exact EpochCreditsWellFormed.append_singleton h.chain h.entries hnew hx (Nat.le_of_not_lt hm)

end Step

/-- Any run of `increment_credits` at epochs that do not go back keeps the history well formed and
adds the saturated sum of the credits to `credits()`. -/
theorem foldl_incrementCredits :
    ∀ (increments : List (Epoch × Nat)) {l : List (Epoch × Nat × Nat)},
      EpochCreditsWellFormed l → (∀ e ∈ l.getLast?, ∀ i ∈ increments, e.1 ≤ i.1) →
      (increments.map (·.1)).IsChain (· ≤ ·) →
      EpochCreditsWellFormed (increments.foldl (fun ec i => incrementCredits ec i.1 i.2) l) ∧
        credits (increments.foldl (fun ec i => incrementCredits ec i.1 i.2) l) =
          saturatingAdd U64_MAX (credits l) (increments.map (·.2)).sum
  | [], l, h, _, _ => ⟨h, by
      have := h.credits_le
      simp only [List.foldl_nil, List.map_nil, List.sum_nil, saturatingAdd]
      omega⟩
  | i :: increments, l, h, hlater, hsorted => by
    obtain ⟨hwf, hcredits, hlast⟩ := h.incrementCredits (fun e he => hlater e he i (by simp)) i.2
    -- the later increments are no earlier than this one
    have hpair := List.isChain_iff_pairwise.mp hsorted
    rw [List.map_cons, List.pairwise_cons] at hpair
    have hnext : ∀ e ∈ (incrementCredits l i.1 i.2).getLast?, ∀ j ∈ increments, e.1 ≤ j.1 := by
      intro e he j hj
      rw [hlast e he]
      exact hpair.1 j.1 (List.mem_map_of_mem hj)
    obtain ⟨hwf', hcredits'⟩ := foldl_incrementCredits increments hwf hnext hsorted.tail
    refine ⟨hwf', ?_⟩
    rw [List.foldl_cons, hcredits', hcredits, saturatingAdd_saturatingAdd, List.map_cons,
      List.sum_cons]

/-- The epoch-credit history stays well formed under `increment_credits`, and `credits()` grows by
exactly the saturated sum of the credits added. -/
theorem epoch_credits_history_well_formed (vs : VoteState)
    (hwf : EpochCreditsWellFormed vs.epochCredits) (increments : List (Epoch × Nat))
    (hsorted : (increments.map (·.1)).IsChain (· ≤ ·))
    (hlater : ∀ e ∈ vs.epochCredits.getLast?, ∀ i ∈ increments, e.1 ≤ i.1) :
    EpochCreditsWellFormed
        (increments.foldl (fun ec i => incrementCredits ec i.1 i.2) vs.epochCredits) ∧
      credits (increments.foldl (fun ec i => incrementCredits ec i.1 i.2) vs.epochCredits) =
        saturatingAdd U64_MAX (credits vs.epochCredits) (increments.map (·.2)).sum :=
  foldl_incrementCredits increments hwf hlater hsorted

theorem epoch_credits_history_well_formed_three_epochs :
    let vs : VoteState := ⟨[], none, [(1, 5, 0), (2, 9, 5)]⟩
    let increments : List (Epoch × Nat) := [(2, 3), (3, 0), (5, 4)]
    (EpochCreditsWellFormed vs.epochCredits ∧ (increments.map (·.1)).IsChain (· ≤ ·) ∧
      ∀ e ∈ vs.epochCredits.getLast?, ∀ i ∈ increments, e.1 ≤ i.1) ∧
    EpochCreditsWellFormed
        (increments.foldl (fun ec i => incrementCredits ec i.1 i.2) vs.epochCredits) ∧
      credits (increments.foldl (fun ec i => incrementCredits ec i.1 i.2) vs.epochCredits) =
        saturatingAdd U64_MAX (credits vs.epochCredits) (increments.map (·.2)).sum := by
  have hwf : EpochCreditsWellFormed [(1, 5, 0), (2, 9, 5)] :=
    ⟨by simp [EpochCreditsStep], by decide, by decide⟩
  have hsorted : (([(2, 3), (3, 0), (5, 4)] : List (Epoch × Nat)).map (·.1)).IsChain (· ≤ ·) := by
    simp
  have hlater : ∀ e ∈ ([(1, 5, 0), (2, 9, 5)] : List (Epoch × Nat × Nat)).getLast?,
      ∀ i ∈ ([(2, 3), (3, 0), (5, 4)] : List (Epoch × Nat)), e.1 ≤ i.1 := by
    decide
  exact ⟨⟨hwf, hsorted, hlater⟩, epoch_credits_history_well_formed _ hwf _ hsorted hlater⟩

end Agave.Vote
