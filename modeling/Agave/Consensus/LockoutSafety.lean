import Agave.Consensus.Tower
import Agave.Vote.WellFormed
import Agave.Lib.Forest

/-!
# Lockout safety of the local tower

Fix a fork tree of slots, every parent below its child, and let `anc s` be the ancestors of `s`
that `is_locked_out` is given. A validator starts from a well-formed tower whose root and votes
lie on one fork. It votes on a slot only when the slot descends from the tower's root (bank
forks prunes everything else) and `is_locked_out` says no. Along every such run:

* the lockout check never fails its assertion, and recording the vote never panics;
* after the vote every vote left in the tower, and the root, is the slot or an ancestor of it;
* the root never moves back;
* a slot voted earlier that is not an ancestor of the new slot is no longer locked out: the new
  slot is past its last locked-out slot, as of the last tower that held it.

The last point is the tower's guarantee against voting on conflicting forks. The run carries a
ghost record of the lockout every slot had when it was last in the tower (`recordVotes`). The
invariant (`Inv`) says what became of a slot that left: it went into the root, and so is an
ancestor of every later vote, or it was popped as expired before the vote that popped it.
-/

namespace Agave.Consensus

open Agave.Vote

variable (F : Forest Slot)

/-- A tower on one fork: it has a root, the root is an ancestor of every vote, and every vote is
the last one or an ancestor of it. -/
structure OnFork (vs : VoteState) : Prop where
  root_isSome : vs.rootSlot.isSome = true
  root_isAncestor : ∀ r ∈ vs.rootSlot, ∀ v ∈ vs.votes, F.IsAncestor r v.slot
  isAncestorOrSelf_top : ∀ top ∈ vs.votes.getLast?, ∀ v ∈ vs.votes,
    F.IsAncestorOrSelf v.slot top.slot

/-- The ghost record of a run, updated with each tower: a slot's lockout in the last tower that
held it. -/
def recordVotes (seen : Slot → Option Lockout) (votes : List LandedVote) : Slot → Option Lockout :=
  fun a =>
    match votes.find? (·.slot == a) with
    | some v => some v.lockout
    | none => seen a

/-- The towers a validator reaches, with their ghost records: from a well-formed tower on one
fork, by votes on descendants of the root that pass `is_locked_out`. -/
inductive Reachable (anc : Slot → Finset Slot) : Tower → (Slot → Option Lockout) → Prop
  | init {t : Tower} (hw : WellFormed t.voteState) (hfork : OnFork F t.voteState) :
      Reachable anc t (recordVotes (fun _ => none) t.voteState.votes)
  | vote {t t' : Tower} {seen : Slot → Option Lockout} {slot : Slot} {voteHash : Hash}
      {newRoot : Option Slot} (h : Reachable anc t seen)
      (hdesc : ∀ r ∈ t.root, F.IsAncestor r slot)
      (hlock : t.isLockedOut slot (anc slot) = some false)
      (hrec : t.recordBankVoteAndUpdateLockouts slot voteHash = some (t', newRoot)) :
      Reachable anc t' (recordVotes seen t'.voteState.votes)

/-- The invariant of a run. -/
structure Inv (t : Tower) (seen : Slot → Option Lockout) : Prop where
  wellFormed : WellFormed t.voteState
  onFork : OnFork F t.voteState
  seen_vote : ∀ v ∈ t.voteState.votes, seen v.slot = some v.lockout
  seen_gone : ∀ a l, seen a = some l → (∀ v ∈ t.voteState.votes, v.slot ≠ a) →
    (∃ r ∈ t.voteState.rootSlot, F.IsAncestorOrSelf a r) ∨
      ∃ last ∈ t.voteState.lastVotedSlot, l.lastLockedOutSlot < last

section RecordVotes

variable {seen : Slot → Option Lockout} {votes : List LandedVote}

theorem recordVotes_of_mem {v : LandedVote} (hnd : (votes.map (·.slot)).Nodup) (hv : v ∈ votes) :
    recordVotes seen votes v.slot = some v.lockout := by
  unfold recordVotes
  cases hfind : votes.find? (·.slot == v.slot) with
  | none => exact absurd (List.find?_eq_none.mp hfind v hv) (by simp)
  | some w =>
    -- slots are distinct, so the vote found is `v`
    have hw : w ∈ votes := List.mem_of_find?_eq_some hfind
    have hslot : w.slot = v.slot := by simpa using List.find?_some hfind
    rw [List.inj_on_of_nodup_map hnd hw hv hslot]

theorem recordVotes_of_forall_ne {a : Slot} (h : ∀ v ∈ votes, v.slot ≠ a) :
    recordVotes seen votes a = seen a := by
  unfold recordVotes
  rw [List.find?_eq_none.mpr fun v hv => by simpa using h v hv]

end RecordVotes

variable {F} {t : Tower} {seen : Slot → Option Lockout} {slot : Slot}

/-- A recent slot is later than every vote of a well-formed tower. -/
theorem slot_lt_of_isRecent (hw : WellFormed t.voteState) (hrec : t.isRecent slot = true) :
    ∀ v ∈ t.voteState.votes, v.slot < slot := by
  intro v hv
  have hnew := (Tower.isRecent_iff.mp hrec).1
  rw [VoteState.lastVotedSlot_eq] at hnew
  cases htop : t.voteState.votes.getLast? with
  | none => simp_all
  | some top =>
    have hlt : top.slot < slot := by simpa [htop] using hnew
    exact (hw.stacked.slot_le_of_mem_getLast? htop hv).trans_lt hlt

theorem Inv.init (hw : WellFormed t.voteState) (hfork : OnFork F t.voteState) :
    Inv F t (recordVotes (fun _ => none) t.voteState.votes) where
  wellFormed := hw
  onFork := hfork
  seen_vote v hv := recordVotes_of_mem hw.stacked.nodup_slot hv
  seen_gone a l hseen hgone := by
    rw [recordVotes_of_forall_ne hgone] at hseen
    cases hseen

section Step

variable {ancestors : Finset Slot}

theorem lt_of_mem_lastVotedSlot (hrec : t.isRecent slot = true) {last : Slot}
    (hlast : last ∈ t.voteState.lastVotedSlot) : last < slot := by
  have hnew := (Tower.isRecent_iff.mp hrec).1
  rw [Option.mem_def] at hlast
  rw [hlast] at hnew
  simpa using hnew

theorem wellFormed_votedState (hw : WellFormed t.voteState) (hrec : t.isRecent slot = true) :
    WellFormed (t.votedState slot) ∧ RootLe t.voteState.rootSlot (t.votedState slot).rootSlot :=
  processNextVoteSlot_wellFormed hw (Tower.isRecent_iff.mp hrec).2

theorem lastVotedSlot_votedState (hrec : t.isRecent slot = true) :
    (t.votedState slot).lastVotedSlot = some slot :=
  VoteState.lastVotedSlot_processNextVoteSlot (Tower.isRecent_iff.mp hrec).1

theorem isAncestorOrSelf_of_eq_or_mem (hanc : ∀ a, a ∈ ancestors ↔ F.IsAncestor a slot)
    {a : Slot} (h : a = slot ∨ a ∈ ancestors) : F.IsAncestorOrSelf a slot := by
  rcases h with rfl | h
  · exact .refl a
  · exact ((hanc a).mp h).isAncestorOrSelf

/-- After a vote that passed the lockout check the tower lies on the fork of the new slot. -/
theorem onFork_votedState (hanc : ∀ a, a ∈ ancestors ↔ F.IsAncestor a slot)
    (hinv : Inv F t seen) (hlock : t.isLockedOut slot ancestors = some false) :
    OnFork F (t.votedState slot) := by
  obtain ⟨hrec, hvotes, hroots⟩ := Tower.isLockedOut_eq_some_false hlock
  have hw' := (wellFormed_votedState hinv.wellFormed hrec).1
  have hvote : ∀ v ∈ (t.votedState slot).votes, F.IsAncestorOrSelf v.slot slot :=
    fun v hv => isAncestorOrSelf_of_eq_or_mem hanc (hvotes v hv)
  refine ⟨VoteState.isSome_rootSlot_processNextVoteSlot hinv.onFork.root_isSome, ?_, ?_⟩
  · -- the root and the vote are both on the new slot's fork, the root the smaller
    intro r hr v hv
    exact Forest.isAncestor_of_lt (isAncestorOrSelf_of_eq_or_mem hanc (hroots r hr)) (hvote v hv)
      (hw'.root_lt r hr v hv)
  · intro top htop v hv
    have hslot : some top.slot = some slot := by
      rw [← lastVotedSlot_votedState hrec, VoteState.lastVotedSlot_eq, htop]
      rfl
    rw [Option.some.inj hslot]
    exact hvote v hv

/-- The lockout check never fails its assertion on a descendant of the root. With a full
stack the simulated root is the oldest vote, an ancestor of the vote above it, which the check
has found among the slot's ancestors. -/
theorem isLockedOut_ne_none (hanc : ∀ a, a ∈ ancestors ↔ F.IsAncestor a slot)
    (hinv : Inv F t seen) (hdesc : ∀ r ∈ t.root, F.IsAncestor r slot) :
    t.isLockedOut slot ancestors ≠ none := by
  intro hnone
  obtain ⟨hrec, hvotes, r, hr, -, hnot⟩ := Tower.isLockedOut_eq_none hnone
  obtain ⟨hnew, hroot⟩ := Tower.isRecent_iff.mp hrec
  apply hnot
  rw [hanc]
  unfold Tower.votedState at hr hvotes
  rcases VoteState.processNextVoteSlot_cases t.voteState slot t.voteState.currentEpoch 0 true with
    ⟨hign, -⟩ | ⟨-, latency, ⟨-, heq⟩ | ⟨oldest, rest, credits, hsplit, hlen, heq⟩⟩
  · exact absurd hign (VoteState.not_any_le_of_all_lt hnew)
  · -- the stack was not full: the root stays
    rw [heq] at hr
    exact hdesc r hr
  · rw [heq] at hr hvotes
    obtain rfl : r = oldest.slot := (Option.some.inj hr).symm
    -- the stack was full, so a second vote sits on the oldest one and survives the vote
    obtain ⟨next, rest', rfl⟩ : ∃ next rest', rest = next :: rest' :=
      List.exists_cons_of_length_pos (by unfold MAX_LOCKOUT_HISTORY at hlen; omega)
    have hp := pushable_popExpiredVotes hinv.wellFormed hnew hroot
    rw [hsplit] at hp
    have hsub := (popExpiredVotes_isPrefix t.voteState.votes slot).subset
    rw [hsplit] at hsub
    have hold_mem : oldest ∈ t.voteState.votes := hsub List.mem_cons_self
    have hnext_mem : next ∈ t.voteState.votes := hsub (by simp)
    have hlt : oldest.slot < next.slot := (List.isChain_cons_cons.mp hp.stacked.chain).1.1
    obtain ⟨w, hw, hws⟩ : ∃ w ∈ doubleLockouts ((next :: rest') ++ [⟨latency, Lockout.new slot⟩]),
        w.slot = next.slot := exists_slot_eq_of_mem_doubleLockouts List.mem_cons_self
    have hnext : F.IsAncestor next.slot slot := by
      rcases hvotes w hw with h | h
      · exact absurd (hws ▸ h) (hp.slot_lt next (by simp)).ne
      · exact (hanc _).mp (hws ▸ h)
    have htop := List.getLast?_eq_some_getLast (List.ne_nil_of_mem hold_mem)
    have hchain := hinv.onFork.isAncestorOrSelf_top _ htop
    exact (Forest.isAncestor_of_lt (hchain oldest hold_mem) (hchain next hnext_mem) hlt).trans hnext

/-- A slot voted earlier that is not an ancestor of the new slot had expired: it cannot be
among the votes or the root after the vote, so it was popped, or it had left the tower before. -/
theorem lastLockedOutSlot_lt_of_not_isAncestor (hanc : ∀ a, a ∈ ancestors ↔ F.IsAncestor a slot)
    (hinv : Inv F t seen) (hdesc : ∀ r ∈ t.root, F.IsAncestor r slot)
    (hlock : t.isLockedOut slot ancestors = some false) {a : Slot} {l : Lockout}
    (hseen : seen a = some l) (hna : ¬ F.IsAncestor a slot) : l.lastLockedOutSlot < slot := by
  obtain ⟨hrec, hvotes, hroots⟩ := Tower.isLockedOut_eq_some_false hlock
  by_cases hold : ∃ v ∈ t.voteState.votes, v.slot = a
  · obtain ⟨v, hv, rfl⟩ := hold
    obtain rfl : v.lockout = l := Option.some.inj ((hinv.seen_vote v hv).symm.trans hseen)
    have hvlt : v.slot < slot := slot_lt_of_isRecent hinv.wellFormed hrec v hv
    -- what the check lets through is the slot or its ancestors, and `v` is neither
    have hnot : ∀ x, x = slot ∨ x ∈ ancestors → x ≠ v.slot := by
      rintro x (rfl | hx) rfl
      · exact absurd hvlt (lt_irrefl _)
      · exact hna ((hanc _).mp hx)
    apply VoteState.lastLockedOutSlot_lt_of_removed hv
    · intro w hw
      exact hnot w.slot (hvotes w hw)
    · intro hr
      exact hnot v.slot (hroots v.slot hr) rfl
  · push Not at hold
    rcases hinv.seen_gone a l hseen hold with ⟨r, hr, har⟩ | ⟨last, hlast, hlt⟩
    · -- below the root, so an ancestor of every descendant of it
      exact absurd (har.trans_isAncestor (hdesc r hr)) hna
    · exact hlt.trans (lt_of_mem_lastVotedSlot hrec hlast)

/-- A vote that passes the lockout check keeps the invariant. -/
theorem Inv.vote (hanc : ∀ a, a ∈ ancestors ↔ F.IsAncestor a slot) (hinv : Inv F t seen)
    (hlock : t.isLockedOut slot ancestors = some false) :
    Inv F ⟨t.votedState slot⟩ (recordVotes seen (t.votedState slot).votes) := by
  have hrec := (Tower.isLockedOut_eq_some_false hlock).1
  have hw' := (wellFormed_votedState hinv.wellFormed hrec).1
  refine ⟨hw', onFork_votedState hanc hinv hlock,
    fun v hv => recordVotes_of_mem hw'.stacked.nodup_slot hv, ?_⟩
  intro a l hseen hgone
  rw [recordVotes_of_forall_ne hgone] at hseen
  by_cases hold : ∃ v ∈ t.voteState.votes, v.slot = a
  · -- it left the tower with this vote: into the root, or popped as expired
    obtain ⟨v, hv, rfl⟩ := hold
    obtain rfl : v.lockout = l := Option.some.inj ((hinv.seen_vote v hv).symm.trans hseen)
    by_cases hroot : (t.votedState slot).rootSlot = some v.slot
    · exact .inl ⟨v.slot, hroot, .refl _⟩
    · exact .inr ⟨slot, lastVotedSlot_votedState hrec,
        VoteState.lastLockedOutSlot_lt_of_removed hv hgone hroot⟩
  · -- it had left before: the new root is on top of the old one, the new last vote later
    push Not at hold
    rcases hinv.seen_gone a l hseen hold with ⟨r, hr, har⟩ | ⟨last, hlast, hlt⟩
    · left
      have hroots : (t.votedState slot).rootSlot = t.voteState.rootSlot ∨
          ∃ v ∈ t.voteState.votes, (t.votedState slot).rootSlot = some v.slot :=
        VoteState.rootSlot_processNextVoteSlot
      rcases hroots with hsame | ⟨v, hv, hv'⟩
      · exact ⟨r, hsame ▸ hr, har⟩
      · exact ⟨v.slot, hv', har.trans (hinv.onFork.root_isAncestor r hr v hv).isAncestorOrSelf⟩
    · exact .inr ⟨slot, lastVotedSlot_votedState hrec, hlt.trans (lt_of_mem_lastVotedSlot hrec hlast)⟩

end Step

variable {anc : Slot → Finset Slot}

theorem Reachable.inv (hanc : ∀ a s, a ∈ anc s ↔ F.IsAncestor a s) (h : Reachable F anc t seen) :
    Inv F t seen := by
  induction h with
  | init hw hfork => exact Inv.init hw hfork
  | vote _ _ hlock hrec ih =>
    -- the real vote is the simulated one
    obtain ⟨newRoot, hrecord⟩ := Tower.recordBankVoteAndUpdateLockouts_of_isRecent
      ih.onFork.root_isSome (Tower.isLockedOut_eq_some_false hlock).1 _
    rw [hrec] at hrecord
    obtain ⟨rfl, -⟩ := Prod.mk.inj (Option.some.inj hrecord)
    exact ih.vote (hanc · _) hlock

/-- Lockout safety of the local tower, along every run from a well-formed tower on one fork
that votes only on descendants of its root passing `is_locked_out`: the check's assertion holds;
a vote it lets through is recorded without a panic, leaves only the slot and its ancestors in
the tower and as the root, does not move the root back, and comes after the lockout of every
earlier vote off its fork has ended. -/
theorem tower_lockout_safety (hanc : ∀ a s, a ∈ anc s ↔ F.IsAncestor a s)
    (hreach : Reachable F anc t seen) (hdesc : ∀ r ∈ t.root, F.IsAncestor r slot) :
    t.isLockedOut slot (anc slot) ≠ none ∧
      (t.isLockedOut slot (anc slot) = some false → ∀ voteHash : Hash, ∃ t' newRoot,
        t.recordBankVoteAndUpdateLockouts slot voteHash = some (t', newRoot) ∧
        (∀ v ∈ t'.voteState.votes, v.slot = slot ∨ F.IsAncestor v.slot slot) ∧
        (∀ r ∈ t'.root, r = slot ∨ F.IsAncestor r slot) ∧
        RootLe t.root t'.root ∧
        ∀ a l, seen a = some l → ¬ F.IsAncestor a slot → l.lastLockedOutSlot < slot) := by
  have hinv := hreach.inv hanc
  refine ⟨isLockedOut_ne_none (hanc · slot) hinv hdesc, fun hlock voteHash => ?_⟩
  obtain ⟨hrec, hvotes, hroots⟩ := Tower.isLockedOut_eq_some_false hlock
  obtain ⟨newRoot, hrecord⟩ :=
    Tower.recordBankVoteAndUpdateLockouts_of_isRecent hinv.onFork.root_isSome hrec voteHash
  refine ⟨⟨t.votedState slot⟩, newRoot, hrecord, ?_, ?_,
    (wellFormed_votedState hinv.wellFormed hrec).2,
    fun a l hseen hna => lastLockedOutSlot_lt_of_not_isAncestor (hanc · slot) hinv hdesc hlock hseen hna⟩
  · intro v hv
    exact (hvotes v hv).imp_right (hanc _ _).mp
  · intro r hr
    exact (hroots r hr).imp_right (hanc _ _).mp

/-- A fork tree with two branches above slot 1: slot 2 on one, slots 3, 4, 5, … on the other. -/
def forkForest : Forest ℕ where
  parent s := if s = 0 then none else if s = 3 then some 1 else some (s - 1)
  parent_lt {a p} h := by
    split at h
    · cases h
    · split at h <;> (cases h; omega)

/-- The strict ancestors of a slot, as bank forks would list them. -/
def forkAncestors (s : Slot) : Finset Slot := (Forest.walk forkForest.parent s s).toFinset

theorem mem_forkAncestors {a s : Slot} : a ∈ forkAncestors s ↔ forkForest.IsAncestor a s := by
  rw [forkAncestors, List.mem_toFinset]
  exact Forest.mem_walk_iff (Forest.depth_le_self s)

example : forkAncestors 5 = {4, 3, 1, 0} := by decide

theorem tower_lockout_safety_fork :
    (⟨⟨[⟨0, ⟨1, 2⟩⟩, ⟨0, ⟨2, 1⟩⟩], some 0, []⟩⟩ : Tower).isLockedOut 5 (forkAncestors 5) ≠ none ∧
      ((⟨⟨[⟨0, ⟨1, 2⟩⟩, ⟨0, ⟨2, 1⟩⟩], some 0, []⟩⟩ : Tower).isLockedOut 5 (forkAncestors 5) =
          some false →
        ∀ voteHash : Hash, ∃ t' newRoot,
          (⟨⟨[⟨0, ⟨1, 2⟩⟩, ⟨0, ⟨2, 1⟩⟩], some 0, []⟩⟩ : Tower).recordBankVoteAndUpdateLockouts 5
              voteHash = some (t', newRoot) ∧
          (∀ v ∈ t'.voteState.votes, v.slot = 5 ∨ forkForest.IsAncestor v.slot 5) ∧
          (∀ r ∈ t'.root, r = 5 ∨ forkForest.IsAncestor r 5) ∧
          RootLe (⟨⟨[⟨0, ⟨1, 2⟩⟩, ⟨0, ⟨2, 1⟩⟩], some 0, []⟩⟩ : Tower).root t'.root ∧
          ∀ a l, recordVotes (recordVotes (recordVotes (fun _ => none) [])
              [⟨0, ⟨1, 1⟩⟩]) [⟨0, ⟨1, 2⟩⟩, ⟨0, ⟨2, 1⟩⟩] a = some l →
            ¬ forkForest.IsAncestor a 5 → l.lastLockedOutSlot < 5) := by
  have hanc : ∀ a s, a ∈ forkAncestors s ↔ forkForest.IsAncestor a s := fun _ _ => mem_forkAncestors
  -- slot 0 is the root of the tree, so an ancestor of every later slot
  have hroot : ∀ (t : Tower) s, t.root = some 0 → 0 ∈ forkAncestors s →
      ∀ r ∈ t.root, forkForest.IsAncestor r s :=
    fun t s ht hs r hr => by
      obtain rfl : r = 0 := Option.some.inj (hr.symm.trans ht)
      exact (hanc 0 s).mp hs
  have h₀ : Reachable forkForest forkAncestors (⟨⟨[], some 0, []⟩⟩ : Tower)
      (recordVotes (fun _ => none) []) :=
    .init ⟨Stacked.nil, by simp⟩ ⟨rfl, by simp, by simp⟩
  have hrec₁ : (⟨⟨[], some 0, []⟩⟩ : Tower).recordBankVoteAndUpdateLockouts 1 default =
      some (⟨⟨[⟨0, ⟨1, 1⟩⟩], some 0, []⟩⟩, none) := by
    unfold Tower.recordBankVoteAndUpdateLockouts
    rw [processVoteUnchecked_singleton]
    decide
  have h₁ := Reachable.vote h₀ (hroot _ 1 rfl (by decide))
    (by unfold Tower.isLockedOut; rw [processSlotVoteUnchecked_eq]; decide) hrec₁
  have hrec₂ : (⟨⟨[⟨0, ⟨1, 1⟩⟩], some 0, []⟩⟩ : Tower).recordBankVoteAndUpdateLockouts 2 default =
      some (⟨⟨[⟨0, ⟨1, 2⟩⟩, ⟨0, ⟨2, 1⟩⟩], some 0, []⟩⟩, none) := by
    unfold Tower.recordBankVoteAndUpdateLockouts
    rw [processVoteUnchecked_singleton]
    decide
  have h₂ := Reachable.vote h₁ (hroot _ 2 rfl (by decide))
    (by unfold Tower.isLockedOut; rw [processSlotVoteUnchecked_eq]; decide) hrec₂
  exact tower_lockout_safety hanc h₂ (hroot _ 5 rfl (by decide))

end Agave.Consensus
