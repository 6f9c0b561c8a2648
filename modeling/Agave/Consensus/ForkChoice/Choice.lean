import Agave.Consensus.ForkChoice.Propagate

/-!
# Heaviest-subtree fork choice: the choice over whole runs

`BestSlots` holds of `new` (`bestSlots_new`) and after every call replay makes
(`BestSlots.run`): a new leaf keeps it by `BestSlots.addNewLeafSlot`, a batch of votes by
`BestSlots.processed`, run on the tree with the new latest votes. So in every fork choice a run
reaches, the best overall slot, which `add_votes` returns and replay builds on, is where the
heaviest descent from the root ends (`Reachable.bestOverallSlot_heaviestDescent`).
-/

namespace Agave.Consensus

open Agave.Vote

namespace HeaviestSubtreeForkChoice

variable {fc fc' : HeaviestSubtreeForkChoice}

/-- The root alone is its own best slot. -/
theorem bestSlots_new (root : SlotHashKey) : BestSlots (new root) := by
  refine ⟨fun k info hk _ => ?_, fun k info hk => ?_, ?_⟩
  · rw [get_new] at hk
    split_ifs at hk with hroot
    cases hk
    exact .inl ⟨fun c hc => absurd hc List.not_mem_nil, hroot.symm⟩
  · rw [get_new] at hk
    split_ifs at hk with hroot
    cases hk
    exact .inl hroot.symm
  · show (new root).isCandidate root = some true
    rw [isCandidate_of_get ((get_new root root).trans (if_pos rfl))]
    rfl

/-- The latest votes are none of the rule's business. -/
theorem BestSlots.withLatestVotes (h : BestSlots fc) (latestVotes : List (Pubkey × SlotHashKey)) :
    BestSlots { fc with latestVotes := latestVotes } :=
  ⟨h.rule, h.below, h.root⟩

section Run

variable {epochStakes : Epoch → Option EpochStakes} {epochSchedule : EpochSchedule}

/-- `add_votes` keeps the best slots: its batch runs on the tree of `fc` with the new latest
votes. -/
theorem BestSlots.addVotes (h : BestSlots fc) (hshape : Shape fc)
    (hvoters : (fc.latestVotes.map Prod.fst).Nodup) {pubkeyVotes : List (Pubkey × SlotHashKey)}
    {best : SlotHashKey}
    (hadd : fc.addVotes pubkeyVotes epochStakes epochSchedule = some (best, fc')) :
    BestSlots fc' := by
  obtain ⟨acc, hgen, hP, -⟩ := addVotes_processed hshape hvoters hadd
  exact (h.withLatestVotes _).processed (hshape.withLatestVotes _) hP hgen.batch.closed

/-- Every call replay makes keeps the best slots. -/
theorem BestSlots.run (h : BestSlots fc) (hacc : Accounted (voteStake epochStakes epochSchedule) fc)
    {op : Op} (hvalid : op.Valid fc) (hrun : op.run epochStakes epochSchedule fc = some fc') :
    BestSlots fc' := by
  rcases Op.run_cases hvalid hrun with rfl | ⟨k, p, pinfo, hk, hp, hslot, -, hadd⟩ |
    ⟨pubkeyVotes, best, hadd⟩
  · exact h
  · exact h.addNewLeafSlot hacc.shape hk hp hslot hadd
  · exact h.addVotes hacc.shape hacc.voters hadd

theorem Reachable.bestSlots (h : Reachable epochStakes epochSchedule fc) : BestSlots fc := by
  induction h with
  | init root => exact bestSlots_new root
  | run op hreach hvalid hrun ih => exact ih.run hreach.toAccounted hvalid hrun

/-- In every fork choice a run reaches, the best overall slot is where the descent from the root
through the heaviest candidate children ends. -/
theorem Reachable.bestOverallSlot_heaviestDescent (h : Reachable epochStakes epochSchedule fc) :
    ∃ b, fc.bestOverallSlot = some b ∧ fc.HeaviestDescent fc.treeRoot b := by
  have hshape := h.toAccounted.shape
  have hbest := h.bestSlots
  obtain ⟨rinfo, hroot, -⟩ := hshape.root
  have hcand : rinfo.isCandidate = true := by
    have := hbest.root
    rwa [isCandidate_of_get hroot, Option.some.injEq] at this
  exact ⟨rinfo.bestSlot, bestSlot_of_get hroot, hbest.heaviestDescent hshape hroot hcand⟩

/-- A root, a block of slot 1 under it, and a vote of stake 5 for that block. -/
theorem Reachable.bestOverallSlot_heaviestDescent_leaf_vote :
    ∃ b, ((((new ⟨0, default⟩).addNewLeafSlot ⟨1, default⟩ (some ⟨0, default⟩)).bind fun fc =>
        (fc.addVotes [(default, ⟨1, default⟩)] (fun _ => some ⟨fun _ => 5⟩)
          ⟨32, 32, false, 0, 0⟩).map Prod.snd).getD (new ⟨0, default⟩)).bestOverallSlot = some b ∧
      ((((new ⟨0, default⟩).addNewLeafSlot ⟨1, default⟩ (some ⟨0, default⟩)).bind fun fc =>
        (fc.addVotes [(default, ⟨1, default⟩)] (fun _ => some ⟨fun _ => 5⟩)
          ⟨32, 32, false, 0, 0⟩).map Prod.snd).getD (new ⟨0, default⟩)).HeaviestDescent
        ⟨0, default⟩ b :=
  Reachable.bestOverallSlot_heaviestDescent (Reachable.run (.addVotes [(default, ⟨1, default⟩)])
    (Reachable.run (.addNewLeafSlot ⟨1, default⟩ ⟨0, default⟩) (Reachable.init ⟨0, default⟩)
      (fun _ => ⟨⟨_, rfl, by decide⟩, by simp [new_eq]⟩) rfl) trivial rfl)

end Run

end HeaviestSubtreeForkChoice

end Agave.Consensus
