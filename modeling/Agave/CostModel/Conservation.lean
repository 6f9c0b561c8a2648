import Agave.CostModel.CostTracker

/-!
# Cost model: what the tracker's counters add up to

A run of the tracker is read against the transactions it holds (`Sys.held`): every `try_add`
that succeeds holds its transaction at its estimate, a `remove` releases a held transaction
that was never updated, and an `update_execution_cost` replaces the load and execution part of a
held, never updated estimate by the actual units and keeps the transaction held. Each
transaction is thus settled at most once, as the banking stage does it: removed when it is not
committed, updated when it is.

The tracker's costs fall into charges (`Charge`: the block, its simple votes, and each writable
account) and counts (`Count`: the transactions, their allocated data and their three kinds of
signature). The invariant (`Inv`) is that each charge is the sum of the current costs of the held
transactions it applies to, and each count the sum of their amounts; the step lemmas below are
one argument each, for every charge and every count at once.

No `saturating_add` may saturate along the run, as the claim on the tracker assumes: this is a
hypothesis of the `try_add` and `update_execution_cost` steps, on the block cost and the counts
only, since every other charge is part of the block's. No `saturating_sub` ever truncates: what
a step takes back is always part of what was charged.
-/

namespace Agave.CostModel

open CostTracker

variable {α : Type}

/-- A transaction the tracker holds: its estimated cost, and the
`actual_load_and_execution_units` once `update_execution_cost` has reported them. -/
structure Added (α : Type) where
  txCost : TransactionCost α
  actual : Option Nat

/-- A held transaction's current cost: its estimate, with the load and execution part replaced
by the actual units once they are reported. -/
def Added.cost (e : Added α) : Nat :=
  match e.actual with
  | none => e.txCost.sum
  | some actual => e.txCost.sum - e.txCost.estimatedLoadAndExecutionUnits + actual

/-- The sum of `f` over the held transactions that satisfy `p`. -/
def heldSum (p : Added α → Bool) (f : Added α → Nat) (held : List (Added α)) : Nat :=
  (held.map fun e => if p e then f e else 0).sum

section HeldSum

variable {p q : Added α → Bool} {f : Added α → Nat}

@[simp] theorem heldSum_cons (e : Added α) (held : List (Added α)) :
    heldSum p f (e :: held) = (if p e then f e else 0) + heldSum p f held :=
  List.sum_cons

theorem heldSum_perm {held held' : List (Added α)} (h : held.Perm held') :
    heldSum p f held = heldSum p f held' :=
  (h.map _).sum_eq

theorem heldSum_mono (hpq : ∀ e, p e = true → q e = true) (held : List (Added α)) :
    heldSum p f held ≤ heldSum q f held := by
  induction held with
  | nil => exact le_rfl
  | cons e held ih =>
    rw [heldSum_cons, heldSum_cons]
    have he : (if p e then f e else 0) ≤ (if q e then f e else 0) := by
      by_cases hp : p e = true
      · simp [hp, hpq e hp]
      · simp [hp]
    omega

theorem heldSum_one (held : List (Added α)) :
    heldSum (fun _ => true) (fun _ => 1) held = held.length := by
  induction held with
  | nil => rfl
  | cons e held ih =>
    rw [heldSum_cons, ih, List.length_cons]
    simp only [if_true]
    omega

end HeldSum

/-! ### Charges and counts -/

/-- What the tracker charges a cost to: the block, its simple votes, or one writable account. -/
inductive Charge (α : Type) where
  | block
  | vote
  | account (key : α)

/-- A count the tracker keeps: the transactions, the data they allocate, and their three kinds
of signature. -/
inductive Count where
  | transaction
  | allocatedAccountsDataSize
  | transactionSignature
  | secp256k1InstructionSignature
  | ed25519InstructionSignature

variable [DecidableEq α]

/-- Whether a transaction's cost is charged to it. -/
def Charge.applies : Charge α → TransactionCost α → Bool
  | .block, _ => true
  | .vote, c => c.isSimpleVote
  | .account key, c => decide (key ∈ c.writableAccounts)

omit [DecidableEq α] in
/-- What a transaction adds to a count. -/
def Count.amount : Count → TransactionCost α → Nat
  | .transaction, _ => 1
  | .allocatedAccountsDataSize, c => c.allocatedAccountsDataSize
  | .transactionSignature, c => c.numTransactionSignatures
  | .secp256k1InstructionSignature, c => c.numSecp256k1InstructionSignatures
  | .ed25519InstructionSignature, c => c.numEd25519InstructionSignatures

namespace CostTracker

omit [DecidableEq α] in
/-- The cost the tracker has charged; an account without an entry has been charged nothing. -/
def charged (t : CostTracker α) : Charge α → Nat
  | .block => t.blockCost
  | .vote => t.voteCost
  | .account key => (t.costByWritableAccounts key).getD 0

omit [DecidableEq α] in
/-- The tracker's value of a count. -/
def counted (t : CostTracker α) : Count → Nat
  | .transaction => t.transactionCount
  | .allocatedAccountsDataSize => t.allocatedAccountsDataSize
  | .transactionSignature => t.transactionSignatureCount
  | .secp256k1InstructionSignature => t.secp256k1InstructionSignatureCount
  | .ed25519InstructionSignature => t.ed25519InstructionSignatureCount

/-- Over distinct writable accounts, `add_transaction_execution_cost` raises by the adjustment
every charge the transaction applies to, and no other. -/
theorem charged_addTransactionExecutionCost {t : CostTracker α} {c : TransactionCost α}
    (hkeys : c.writableAccounts.Nodup) (adjustment : Nat) (s : Charge α) :
    (t.addTransactionExecutionCost c adjustment).1.charged s =
      if s.applies c then saturatingAdd U64_MAX (t.charged s) adjustment else t.charged s := by
  cases s with
  | block => rfl
  | vote =>
    by_cases hv : c.isSimpleVote = true <;>
      simp [charged, addTransactionExecutionCost, Charge.applies, hv]
  | account key =>
    simp only [charged, addTransactionExecutionCost, Charge.applies,
      foldl_addAccountCost_fst hkeys, decide_eq_true_eq]
    split_ifs <;> rfl

/-- Over distinct writable accounts, `sub_transaction_execution_cost` lowers by the adjustment
every charge the transaction applies to, and no other. -/
theorem charged_subTransactionExecutionCost {t : CostTracker α} {c : TransactionCost α}
    (hkeys : c.writableAccounts.Nodup) (adjustment : Nat) (s : Charge α) :
    (t.subTransactionExecutionCost c adjustment).charged s =
      if s.applies c then t.charged s - adjustment else t.charged s := by
  cases s with
  | block => rfl
  | vote =>
    by_cases hv : c.isSimpleVote = true <;>
      simp [charged, subTransactionExecutionCost, Charge.applies, hv]
  | account key =>
    simp only [charged, subTransactionExecutionCost, Charge.applies,
      foldl_subAccountCost hkeys, decide_eq_true_eq]
    split_ifs <;> rfl

@[simp] theorem counted_addTransactionExecutionCost (t : CostTracker α) (c : TransactionCost α)
    (adjustment : Nat) (n : Count) :
    (t.addTransactionExecutionCost c adjustment).1.counted n = t.counted n := by
  cases n <;> rfl

@[simp] theorem counted_subTransactionExecutionCost (t : CostTracker α) (c : TransactionCost α)
    (adjustment : Nat) (n : Count) :
    (t.subTransactionExecutionCost c adjustment).counted n = t.counted n := by
  cases n <;> rfl

theorem charged_addTransactionCost {t : CostTracker α} {c : TransactionCost α}
    (hkeys : c.writableAccounts.Nodup) (s : Charge α) :
    (t.addTransactionCost c).1.charged s =
      if s.applies c then saturatingAdd U64_MAX (t.charged s) c.sum else t.charged s := by
  rw [addTransactionCost, charged_addTransactionExecutionCost hkeys]
  -- the counts that `add_transaction_cost` raises first are no charge
  cases s <;> rfl

theorem counted_addTransactionCost (t : CostTracker α) (c : TransactionCost α) (n : Count) :
    (t.addTransactionCost c).1.counted n = saturatingAdd U64_MAX (t.counted n) (n.amount c) := by
  cases n <;> rfl

theorem charged_remove {t : CostTracker α} {c : TransactionCost α}
    (hkeys : c.writableAccounts.Nodup) (s : Charge α) :
    (t.remove c).charged s = if s.applies c then t.charged s - c.sum else t.charged s := by
  rw [← charged_subTransactionExecutionCost hkeys]
  cases s <;> rfl

theorem counted_remove (t : CostTracker α) (c : TransactionCost α) (n : Count) :
    (t.remove c).counted n = t.counted n - n.amount c := by
  cases n <;> rfl

/-- Where the transaction's charges hold its estimate's load and execution part and can take
the difference without saturating, `update_execution_cost` moves every charge the transaction
applies to from that part to the actual units, and no other. -/
theorem charged_updateExecutionCost {t : CostTracker α} {c : TransactionCost α} {ae al : Nat}
    (hkeys : c.writableAccounts.Nodup) (s : Charge α)
    (hbound : s.applies c = true → c.estimatedLoadAndExecutionUnits ≤ t.charged s ∧
      t.charged s + (saturatingAdd U64_MAX ae al - c.estimatedLoadAndExecutionUnits) ≤ U64_MAX) :
    (t.updateExecutionCost c ae al).charged s =
      if s.applies c then t.charged s - c.estimatedLoadAndExecutionUnits + saturatingAdd U64_MAX ae al
      else t.charged s := by
  rcases Nat.lt_trichotomy (saturatingAdd U64_MAX ae al) c.estimatedLoadAndExecutionUnits
    with hlt | heq | hgt
  · rw [updateExecutionCost_of_lt hlt, charged_subTransactionExecutionCost hkeys]
    split_ifs with hs
    · have := (hbound hs).1
      omega
    · rfl
  · rw [updateExecutionCost_of_eq heq]
    split_ifs with hs
    · have := (hbound hs).1
      omega
    · rfl
  · rw [updateExecutionCost_of_gt hgt, charged_addTransactionExecutionCost hkeys]
    split_ifs with hs
    · obtain ⟨hle, hfit⟩ := hbound hs
      rw [saturatingAdd_of_le hfit]
      omega
    · rfl

@[simp] theorem counted_updateExecutionCost (t : CostTracker α) (c : TransactionCost α)
    (ae al : Nat) (n : Count) : (t.updateExecutionCost c ae al).counted n = t.counted n := by
  rcases Nat.lt_trichotomy (saturatingAdd U64_MAX ae al) c.estimatedLoadAndExecutionUnits
    with hlt | heq | hgt
  · rw [updateExecutionCost_of_lt hlt, counted_subTransactionExecutionCost]
  · rw [updateExecutionCost_of_eq heq]
  · rw [updateExecutionCost_of_gt hgt, counted_addTransactionExecutionCost]

omit [DecidableEq α] in
theorem charged_reset (t : CostTracker α) (s : Charge α) : t.reset.charged s = 0 := by
  cases s <;> rfl

omit [DecidableEq α] in
theorem counted_reset (t : CostTracker α) (n : Count) : t.reset.counted n = 0 := by
  cases n <;> rfl

end CostTracker

/-! ### Runs -/

/-- The tracker, with the transactions it holds. -/
structure Sys (α : Type) where
  tracker : CostTracker α
  held : List (Added α)

omit [DecidableEq α] in
/-- No `saturating_add` of `add_transaction_cost` saturates. The vote and account charges are
parts of the block's, so the block's bound covers them. -/
def AddFits (t : CostTracker α) (txCost : TransactionCost α) : Prop :=
  t.blockCost + txCost.sum ≤ U64_MAX ∧ ∀ n : Count, t.counted n + n.amount txCost ≤ U64_MAX

/-- One call on the tracker by a caller that settles each held transaction once. -/
inductive Step : Sys α → Sys α → Prop
  /-- `try_add` of a transaction with distinct writable accounts, which is held if admitted. -/
  | tryAdd {sys : Sys α} {txCost : TransactionCost α} {blockCostLimitReservation : Nat}
      (hkeys : txCost.writableAccounts.Nodup)
      (hfit : sys.tracker.wouldFit txCost blockCostLimitReservation = .ok () →
        AddFits sys.tracker txCost) :
      Step sys ⟨(sys.tracker.tryAdd txCost blockCostLimitReservation).2,
        if (sys.tracker.tryAdd txCost blockCostLimitReservation).1.isOk
        then ⟨txCost, none⟩ :: sys.held else sys.held⟩
  /-- `remove` of a held transaction that was never updated. -/
  | remove {sys : Sys α} {txCost : TransactionCost α} {rest : List (Added α)}
      (hheld : sys.held.Perm (⟨txCost, none⟩ :: rest)) :
      Step sys ⟨sys.tracker.remove txCost, rest⟩
  /-- `update_execution_cost` of a held transaction that was never updated; it stays held. -/
  | updateExecutionCost {sys : Sys α} {txCost : TransactionCost α} {rest : List (Added α)}
      {actualExecutionUnits actualLoadedAccountsDataSizeCost : Nat}
      (hheld : sys.held.Perm (⟨txCost, none⟩ :: rest))
      (hfit : sys.tracker.blockCost +
        (saturatingAdd U64_MAX actualExecutionUnits actualLoadedAccountsDataSizeCost -
          txCost.estimatedLoadAndExecutionUnits) ≤ U64_MAX) :
      Step sys ⟨sys.tracker.updateExecutionCost txCost actualExecutionUnits
          actualLoadedAccountsDataSizeCost,
        ⟨txCost, some (saturatingAdd U64_MAX actualExecutionUnits
          actualLoadedAccountsDataSizeCost)⟩ :: rest⟩

/-- The states of runs from a reset tracker, whatever its limits. -/
def Reachable (t₀ : CostTracker α) (sys : Sys α) : Prop :=
  Relation.ReflTransGen Step ⟨t₀.reset, []⟩ sys

/-- Every charge and every count is the sum over the held transactions. -/
structure Inv (sys : Sys α) : Prop where
  keys : ∀ e ∈ sys.held, e.txCost.writableAccounts.Nodup
  charged : ∀ s, sys.tracker.charged s = heldSum (fun e => s.applies e.txCost) Added.cost sys.held
  counted : ∀ n,
    sys.tracker.counted n = heldSum (fun _ => true) (fun e => n.amount e.txCost) sys.held

theorem Inv.init (t₀ : CostTracker α) : Inv ⟨t₀.reset, []⟩ where
  keys _ h := absurd h List.not_mem_nil
  charged s := charged_reset t₀ s
  counted n := counted_reset t₀ n

/-- The invariant does not depend on the order of the held transactions. -/
theorem Inv.perm {t : CostTracker α} {held held' : List (Added α)} (hinv : Inv ⟨t, held⟩)
    (h : held.Perm held') : Inv ⟨t, held'⟩ where
  keys e he := hinv.keys e (h.mem_iff.mpr he)
  charged s := (hinv.charged s).trans (heldSum_perm h)
  counted n := (hinv.counted n).trans (heldSum_perm h)

/-- Every charge is part of the block's. -/
theorem Inv.charged_le_block {sys : Sys α} (hinv : Inv sys) (s : Charge α) :
    sys.tracker.charged s ≤ sys.tracker.blockCost := by
  rw [hinv.charged s, show sys.tracker.blockCost = sys.tracker.charged .block from rfl,
    hinv.charged .block]
  exact heldSum_mono (fun _ _ => rfl) _

/-- A charge applied to a held transaction never updated holds at least its estimate. -/
theorem Inv.sum_le_charged {t : CostTracker α} {txCost : TransactionCost α}
    {rest : List (Added α)} (hinv : Inv ⟨t, ⟨txCost, none⟩ :: rest⟩) {s : Charge α}
    (hs : s.applies txCost = true) : txCost.sum ≤ t.charged s := by
  have h := hinv.charged s
  simp only [heldSum_cons, hs, if_true, Added.cost] at h
  omega

theorem Inv.addTransactionCost {t : CostTracker α} {held : List (Added α)}
    (hinv : Inv ⟨t, held⟩) {txCost : TransactionCost α} (hkeys : txCost.writableAccounts.Nodup)
    (hfit : AddFits t txCost) :
    Inv ⟨(t.addTransactionCost txCost).1, ⟨txCost, none⟩ :: held⟩ := by
  refine ⟨?_, fun s => ?_, fun n => ?_⟩
  · intro e he
    rcases List.mem_cons.mp he with rfl | he
    · exact hkeys
    · exact hinv.keys e he
  · have h : t.charged s = heldSum (fun e => s.applies e.txCost) Added.cost held := hinv.charged s
    rw [charged_addTransactionCost hkeys, heldSum_cons, ← h]
    by_cases hs : s.applies txCost = true
    · -- the charge is part of the block's, which does not saturate
      have hle : t.charged s ≤ t.blockCost := hinv.charged_le_block s
      have hblock := hfit.1
      simp only [hs, if_true, Added.cost]
      rw [saturatingAdd_of_le (by omega)]
      omega
    · simp [hs]
  · have h : t.counted n = heldSum (fun _ => true) (fun e => n.amount e.txCost) held :=
      hinv.counted n
    rw [counted_addTransactionCost, heldSum_cons, ← h, if_pos rfl, saturatingAdd_of_le (hfit.2 n)]
    dsimp only
    omega

theorem Inv.tryAdd {sys : Sys α} (hinv : Inv sys) {txCost : TransactionCost α} {r : Nat}
    (hkeys : txCost.writableAccounts.Nodup)
    (hfit : sys.tracker.wouldFit txCost r = .ok () → AddFits sys.tracker txCost) :
    Inv ⟨(sys.tracker.tryAdd txCost r).2,
      if (sys.tracker.tryAdd txCost r).1.isOk then ⟨txCost, none⟩ :: sys.held else sys.held⟩ := by
  rcases hw : sys.tracker.wouldFit txCost r with e | ⟨⟩
  · -- a rejected transaction changes nothing and is not held
    rw [tryAdd_of_error hw]
    exact hinv
  · rw [tryAdd_of_ok hw]
    exact hinv.addTransactionCost hkeys (hfit hw)

theorem Inv.remove {t : CostTracker α} {txCost : TransactionCost α} {rest : List (Added α)}
    (hinv : Inv ⟨t, ⟨txCost, none⟩ :: rest⟩) : Inv ⟨t.remove txCost, rest⟩ := by
  have hkeys := hinv.keys _ List.mem_cons_self
  refine ⟨fun e he => hinv.keys e (List.mem_cons_of_mem _ he), fun s => ?_, fun n => ?_⟩
  · have h : t.charged s = heldSum (fun e => s.applies e.txCost) Added.cost
        (⟨txCost, none⟩ :: rest) := hinv.charged s
    rw [charged_remove hkeys]
    by_cases hs : s.applies txCost = true
    · simp only [heldSum_cons, hs, if_true, Added.cost] at h ⊢
      omega
    · simp only [heldSum_cons, hs, Bool.false_eq_true, if_false, Nat.zero_add] at h ⊢
      exact h
  · have h : t.counted n = heldSum (fun _ => true) (fun e => n.amount e.txCost)
        (⟨txCost, none⟩ :: rest) := hinv.counted n
    simp only [heldSum_cons, if_true] at h
    dsimp only
    rw [counted_remove]
    omega

theorem Inv.updateExecutionCost {t : CostTracker α} {txCost : TransactionCost α}
    {rest : List (Added α)} (hinv : Inv ⟨t, ⟨txCost, none⟩ :: rest⟩) {ae al : Nat}
    (hfit : t.blockCost + (saturatingAdd U64_MAX ae al - txCost.estimatedLoadAndExecutionUnits) ≤
      U64_MAX) :
    Inv ⟨t.updateExecutionCost txCost ae al, ⟨txCost, some (saturatingAdd U64_MAX ae al)⟩ :: rest⟩ := by
  have hkeys := hinv.keys _ List.mem_cons_self
  refine ⟨fun e he => ?_, fun s => ?_, fun n => ?_⟩
  · rcases List.mem_cons.mp he with rfl | he
    · exact hkeys
    · exact hinv.keys e (List.mem_cons_of_mem _ he)
  · have h : t.charged s = heldSum (fun e => s.applies e.txCost) Added.cost
        (⟨txCost, none⟩ :: rest) := hinv.charged s
    -- a charge the transaction applies to holds its whole estimate, and is part of the block's
    have hbound : s.applies txCost = true → txCost.estimatedLoadAndExecutionUnits ≤ t.charged s ∧
        t.charged s + (saturatingAdd U64_MAX ae al - txCost.estimatedLoadAndExecutionUnits) ≤
          U64_MAX := fun hs =>
      ⟨txCost.estimatedLoadAndExecutionUnits_le_sum.trans (hinv.sum_le_charged hs),
        (Nat.add_le_add_right (hinv.charged_le_block s) _).trans hfit⟩
    have hest := txCost.estimatedLoadAndExecutionUnits_le_sum
    rw [charged_updateExecutionCost hkeys s hbound]
    by_cases hs : s.applies txCost = true
    · simp only [heldSum_cons, hs, if_true, Added.cost] at h ⊢
      omega
    · simp only [heldSum_cons, hs, Bool.false_eq_true, if_false, Nat.zero_add] at h ⊢
      exact h
  · have h : t.counted n = heldSum (fun _ => true) (fun e => n.amount e.txCost)
        (⟨txCost, none⟩ :: rest) := hinv.counted n
    simp only [heldSum_cons, if_true] at h ⊢
    rw [counted_updateExecutionCost]
    exact h

theorem Inv.step {sys sys' : Sys α} (hinv : Inv sys) (h : Step sys sys') : Inv sys' := by
  cases h with
  | tryAdd hkeys hfit => exact hinv.tryAdd hkeys hfit
  | remove hheld => exact (hinv.perm hheld).remove
  | updateExecutionCost hheld hfit => exact (hinv.perm hheld).updateExecutionCost hfit

theorem Reachable.inv {t₀ : CostTracker α} {sys : Sys α} (h : Reachable t₀ sys) : Inv sys := by
  induction h with
  | refl => exact Inv.init t₀
  | tail _ hstep ih => exact ih.step hstep

/-! ### The tracker's accounting -/

/-- A transaction estimated at one execution unit, writing account `0`. -/
def oneUnitWrite : TransactionCost Nat :=
  .transaction ⟨⟨[0], fun _ => true⟩, 0, 0, 0, 1, 0, 0, ⟨1, 0, 0⟩⟩

/-- A transaction settled twice leaves a cost behind: after its `try_add`, an update reporting
two units where one was estimated, and its `remove`, no transaction is counted but the block is
still charged one unit. -/
theorem update_then_remove_leaves_cost :
    ((default : CostTracker Nat).run [.tryAdd oneUnitWrite 0,
      .updateExecutionCost oneUnitWrite 2 0, .remove oneUnitWrite]).transactionCount = 0 ∧
    ((default : CostTracker Nat).run [.tryAdd oneUnitWrite 0,
      .updateExecutionCost oneUnitWrite 2 0, .remove oneUnitWrite]).blockCost = 1 := by
  decide

/-- **The tracker's accounting.** Over every run from a reset tracker in which each held
transaction is settled once and nothing saturates, the block cost, the vote cost, the cost of
every account, the transaction count and the allocated data are the sums, over the transactions
held, of their current costs and amounts. A `try_add` that fails leaves the tracker as it was.
And along any sequence of `try_add`s of transactions with distinct writable accounts and
`remove`s from a reset tracker, the block, vote and account limits are kept. -/
theorem cost_tracker_accounts_settled_transactions :
    (∀ (t₀ : CostTracker α) (sys : Sys α), Reachable t₀ sys →
      sys.tracker.blockCost = heldSum (fun _ => true) Added.cost sys.held ∧
      sys.tracker.voteCost = heldSum (fun e => e.txCost.isSimpleVote) Added.cost sys.held ∧
      (∀ k, (sys.tracker.costByWritableAccounts k).getD 0 =
        heldSum (fun e => decide (k ∈ e.txCost.writableAccounts)) Added.cost sys.held) ∧
      sys.tracker.transactionCount = sys.held.length ∧
      sys.tracker.allocatedAccountsDataSize =
        heldSum (fun _ => true) (fun e => e.txCost.allocatedAccountsDataSize) sys.held) ∧
    (∀ (t : CostTracker α) (txCost : TransactionCost α) (r : Nat) (e : CostTrackerError),
      (t.tryAdd txCost r).1 = .error e → (t.tryAdd txCost r).2 = t) ∧
    (∀ (t : CostTracker α) (calls : List (Call α)), (∀ c ∈ calls, c.AddOrRemove) →
      (t.reset.run calls).blockCost ≤ (t.reset.run calls).blockCostLimit ∧
      (t.reset.run calls).voteCost ≤ (t.reset.run calls).voteCostLimit ∧
      ∀ k, ((t.reset.run calls).costByWritableAccounts k).getD 0 ≤
        (t.reset.run calls).accountCostLimit) := by
  refine ⟨fun t₀ sys h => ?_, tryAdd_snd_of_error, fun t calls hcalls => ?_⟩
  · have hinv := h.inv
    -- each field is the invariant at one charge or one count
    exact ⟨hinv.charged .block, hinv.charged .vote, fun k => hinv.charged (.account k),
      (hinv.counted .transaction).trans (heldSum_one sys.held),
      hinv.counted .allocatedAccountsDataSize⟩
  · have hlim := (WithinLimits.reset t).run hcalls
    exact ⟨hlim.blockCost, hlim.voteCost, hlim.costByWritableAccounts⟩

/-- Two admissions of one transaction, an update of the first and a removal of the second: the
block is charged the updated cost of the one held. Removing an admitted transaction stays within
the limits, and a refused one changes nothing. -/
theorem cost_tracker_accounts_settled_transactions_update_remove :
    ((default : CostTracker Nat).reset.run [.tryAdd oneUnitWrite 0, .tryAdd oneUnitWrite 0,
        .updateExecutionCost oneUnitWrite 2 0, .remove oneUnitWrite]).blockCost =
      heldSum (fun _ => true) Added.cost [⟨oneUnitWrite, some 2⟩] ∧
    ((default : CostTracker Nat).reset.run [.tryAdd oneUnitWrite 0, .tryAdd oneUnitWrite 0,
        .updateExecutionCost oneUnitWrite 2 0, .remove oneUnitWrite]).transactionCount = 1 ∧
    ((default : CostTracker Nat).reset.run [.tryAdd oneUnitWrite 0, .remove oneUnitWrite]).blockCost ≤
      ((default : CostTracker Nat).reset.run [.tryAdd oneUnitWrite 0,
        .remove oneUnitWrite]).blockCostLimit ∧
    ({ (default : CostTracker Nat) with accountCostLimit := 0 }.tryAdd oneUnitWrite 0).2 =
      { (default : CostTracker Nat) with accountCostLimit := 0 } := by
  have h₁ : ((default : CostTracker Nat).reset.tryAdd oneUnitWrite 0).1.isOk = true := by decide
  have h₂ : (((default : CostTracker Nat).reset.tryAdd oneUnitWrite 0).2.tryAdd oneUnitWrite
    0).1.isOk = true := by decide
  -- the run step by step, each state as the tracker's calls leave it
  have e₁ := @Step.tryAdd Nat _ ⟨(default : CostTracker Nat).reset, []⟩ oneUnitWrite 0
    (by decide) fun _ => ⟨by decide, fun n => by cases n <;> decide⟩
  have e₂ := @Step.tryAdd Nat _
    ⟨((default : CostTracker Nat).reset.tryAdd oneUnitWrite 0).2, [⟨oneUnitWrite, none⟩]⟩
    oneUnitWrite 0 (by decide) fun _ => ⟨by decide, fun n => by cases n <;> decide⟩
  dsimp only at e₁ e₂
  rw [h₁, if_pos rfl] at e₁
  rw [h₂, if_pos rfl] at e₂
  have e₃ := @Step.updateExecutionCost Nat _
    ⟨(((default : CostTracker Nat).reset.tryAdd oneUnitWrite 0).2.tryAdd oneUnitWrite 0).2,
      [⟨oneUnitWrite, none⟩, ⟨oneUnitWrite, none⟩]⟩ oneUnitWrite [⟨oneUnitWrite, none⟩] 2 0
    (List.Perm.refl _) (by decide)
  have e₄ := @Step.remove Nat _
    ⟨(((default : CostTracker Nat).reset.tryAdd oneUnitWrite 0).2.tryAdd oneUnitWrite
      0).2.updateExecutionCost oneUnitWrite 2 0,
      [⟨oneUnitWrite, some 2⟩, ⟨oneUnitWrite, none⟩]⟩ oneUnitWrite [⟨oneUnitWrite, some 2⟩]
    (List.Perm.swap _ _ [])
  have hrun : Reachable default
      (⟨(default : CostTracker Nat).reset.run [.tryAdd oneUnitWrite 0, .tryAdd oneUnitWrite 0,
        .updateExecutionCost oneUnitWrite 2 0, .remove oneUnitWrite], [⟨oneUnitWrite, some 2⟩]⟩ :
        Sys Nat) :=
    .tail (.tail (.tail (.single e₁) e₂) e₃) e₄
  have hcalls : ∀ c ∈ [Call.tryAdd oneUnitWrite 0, .remove oneUnitWrite], c.AddOrRemove := by
    intro c hc
    rcases List.mem_pair.mp hc with rfl | rfl
    · show oneUnitWrite.writableAccounts.Nodup
      decide
    · trivial
  have haccounts := cost_tracker_accounts_settled_transactions.1 _ _ hrun
  exact ⟨haccounts.1, haccounts.2.2.2.1,
    (cost_tracker_accounts_settled_transactions.2.2 _ _ hcalls).1,
    cost_tracker_accounts_settled_transactions.2.1 _ _ _ .wouldExceedAccountMaxLimit rfl⟩

end Agave.CostModel
