import Mathlib.Data.List.TakeWhile
import Agave.Scheduler.Invariant

/-!
# The unified scheduler: the `while let` loop of `unlock_usage_queues`

Once an address is unused, the loop hands it to the front of its queue and, after a read, to every
read right behind it (`grantedSplit`). Each task it hands the address to has its blocked usages
counted down, and joins `unblocked_task_queue` when none is left (`unblockTasks`). The loop is
exactly that (`unblockLoop_eq`): its `try_lock` cannot fail on an unused or read address, and the
`assert_matches!` of `pop_unblocked_readonly_usage_from_task` holds after a read.
-/

namespace Agave.Scheduler

open UsageQueueInner SchedulingStateMachine

variable {α : Type}

/-- The entries that take over an unused address, and the entries left waiting: the front, and
after a read every read right behind it. -/
def grantedSplit : List (UsageFromTask α) → List (UsageFromTask α) × List (UsageFromTask α)
  | [] => ([], [])
  | (.writable, t) :: rest => ([(.writable, t)], rest)
  | (.readonly, t) :: rest =>
    ((.readonly, t) :: rest.takeWhile (·.1 == .readonly), rest.dropWhile (·.1 == .readonly))

/-- The usage the granted entries put the address in. -/
def grantedUsage : List (UsageFromTask α) → Option Usage
  | [] => none
  | (.writable, _) :: _ => some .writable
  | (.readonly, _) :: rest => some (.readonly (rest.length + 1))

theorem grantedSplit_append (l : List (UsageFromTask α)) :
    (grantedSplit l).1 ++ (grantedSplit l).2 = l := by
  match l with
  | [] => rfl
  | (.writable, t) :: rest => rfl
  | (.readonly, t) :: rest =>
    simp only [grantedSplit, List.cons_append, List.takeWhile_append_dropWhile]

/-- The entries that take over an address agree with the usage they put it in. -/
theorem usageMatches_grantedUsage (l : List (UsageFromTask α)) :
    UsageMatches (grantedUsage (grantedSplit l).1) ((grantedSplit l).1.map Prod.fst) := by
  match l with
  | [] => rfl
  | (.writable, t) :: rest => rfl
  | (.readonly, t) :: rest =>
    simp only [grantedSplit, grantedUsage, UsageMatches, List.map_cons]
    refine ⟨Nat.succ_pos _, ?_⟩
    rw [List.replicate_succ]
    congr 1
    -- every entry the `takeWhile` keeps reads
    refine List.eq_replicate_iff.mpr ⟨List.length_map .., fun u hu => ?_⟩
    obtain ⟨e, he, rfl⟩ := List.mem_map.mp hu
    simpa using List.mem_takeWhile_imp he

/-- The front of what is left waits for the entries that took over. -/
theorem frontBlocked_grant (l : List (UsageFromTask α)) :
    FrontBlocked (⟨grantedUsage (grantedSplit l).1, (grantedSplit l).2⟩ : UsageQueueInner α) := by
  match l with
  | [] => trivial
  | (.writable, t) :: rest =>
    simp only [FrontBlocked, grantedSplit, grantedUsage]
    split <;> simp
  | (.readonly, t) :: rest =>
    simp only [FrontBlocked, grantedSplit, grantedUsage]
    split
    · trivial
    · next r u tl hd =>
      -- what the reads leave starts with a write
      refine ⟨Option.some_ne_none _, fun hr => ?_⟩
      have hhead := List.head_dropWhile_not (fun e : UsageFromTask α => e.1 == .readonly)
        (l := rest) (by rw [hd]; exact List.cons_ne_nil _ _)
      simp only [hd, List.head_cons, hr] at hhead
      simp at hhead

/-- One turn of the loop, its steps chained by `bind`. -/
theorem unblockLoop_some (s : SchedulingStateMachine α) (q : UsageQueueInner α) (r : RequestedUsage) (t : Task α) :
    unblockLoop s q (some (r, t)) =
      (s.tryUnblock t).bind fun p => (q.tryLock r).bind fun q' =>
        match r with
        | .readonly => q'.popUnblockedReadonlyUsageFromTask.bind fun n =>
            unblockLoop (p.2.pushUnblocked p.1) n.2 n.1
        | .writable => some (p.2.pushUnblocked p.1, q') := by
  rw [unblockLoop]
  cases s.tryUnblock t with
  | none => rfl
  | some p =>
    simp only [Option.bind_some]
    split
    · next h => rw [h]; rfl
    · next q' h =>
      conv_rhs => rw [h, Option.bind_some]
      cases r with
      | readonly =>
        dsimp only
        split
        · next h' =>
          conv_rhs => rw [h']
          rfl
        · next next q'' h' => conv_rhs => rw [h', Option.bind_some]
      | writable => rfl

/-- Counting down the blocked usages of some tasks, one after another, as the loop does. -/
def unblockTasks (s : SchedulingStateMachine α) : List (Task α) → Option (SchedulingStateMachine α)
  | [] => some s
  | t :: ts => (s.tryUnblock t).bind fun p => unblockTasks (p.2.pushUnblocked p.1) ts

theorem tryLock_readonly_of_reads {cur : Option Usage} {n : Nat}
    {rest : List (UsageFromTask α)} (hcur : cur = none ∧ n = 0 ∨ cur = some (.readonly n)) :
    (⟨cur, rest⟩ : UsageQueueInner α).tryLock .readonly =
      some ⟨some (.readonly (n + 1)), rest⟩ := by
  rcases hcur with ⟨rfl, rfl⟩ | rfl <;> rfl

/-- After a read, the loop hands the address to every read right behind it. -/
theorem unblockLoop_readonly (t : Task α) :
    ∀ (rest : List (UsageFromTask α)) (s : SchedulingStateMachine α) (cur : Option Usage)
      (n : Nat), (cur = none ∧ n = 0 ∨ cur = some (.readonly n)) →
      unblockLoop s ⟨cur, rest⟩ (some (.readonly, t)) =
        (unblockTasks s (t :: (rest.takeWhile (·.1 == .readonly)).map Prod.snd)).map fun s' =>
          (s', ⟨some (.readonly (n + 1 + (rest.takeWhile (·.1 == .readonly)).length)),
            rest.dropWhile (·.1 == .readonly)⟩) := by
  intro rest
  induction rest generalizing t with
  | nil =>
    intro s cur n hcur
    rw [unblockLoop_some]
    cases hu : s.tryUnblock t with
    | none => simp [unblockTasks, hu]
    | some p =>
      simp only [Option.bind_some, tryLock_readonly_of_reads hcur]
      simp [unblockTasks, hu, popUnblockedReadonlyUsageFromTask, unblockLoop]
  | cons e rest ih =>
    intro s cur n hcur
    rw [unblockLoop_some]
    cases hu : s.tryUnblock t with
    | none => simp [unblockTasks, hu]
    | some p =>
      simp only [Option.bind_some, tryLock_readonly_of_reads hcur]
      obtain ⟨r, t'⟩ := e
      cases r with
      | readonly =>
        -- the next read takes the address too, and the loop goes on
        simp only [popUnblockedReadonlyUsageFromTask, Option.bind_some]
        rw [ih t' _ _ (n + 1) (Or.inr rfl)]
        simp [unblockTasks, hu, Nat.add_assoc, Nat.add_comm 1, Nat.add_comm 2]
      | writable =>
        simp [unblockTasks, hu, popUnblockedReadonlyUsageFromTask, unblockLoop]

/-- The loop, from the usage `unlock` popped off an address it left unused. -/
theorem unblockLoop_eq (s : SchedulingStateMachine α) (e : UsageFromTask α)
    (rest : List (UsageFromTask α)) :
    unblockLoop s ⟨none, rest⟩ (some e) =
      (unblockTasks s ((grantedSplit (e :: rest)).1.map Prod.snd)).map fun s' =>
        (s', ⟨grantedUsage (grantedSplit (e :: rest)).1, (grantedSplit (e :: rest)).2⟩) := by
  obtain ⟨r, t⟩ := e
  cases r with
  | readonly =>
    rw [unblockLoop_readonly t rest s none 0 (Or.inl ⟨rfl, rfl⟩)]
    simp [grantedSplit, grantedUsage, Nat.add_comm]
  | writable =>
    rw [unblockLoop_some]
    cases hu : s.tryUnblock t with
    | none => simp [unblockTasks, hu, grantedSplit]
    | some p => simp [unblockTasks, hu, grantedSplit, grantedUsage, tryLock, Usage.ofRequested]

/-- The loop from the front `unlock` popped off an address it left unused, if any. -/
theorem unblockLoop_head (s : SchedulingStateMachine α) (l : List (UsageFromTask α)) :
    unblockLoop s ⟨none, l.tail⟩ l.head? =
      (unblockTasks s ((grantedSplit l).1.map Prod.snd)).map fun s' =>
        (s', ⟨grantedUsage (grantedSplit l).1, (grantedSplit l).2⟩) := by
  cases l with
  | nil => simp [unblockLoop, unblockTasks, grantedSplit, grantedUsage]
  | cons e rest => exact unblockLoop_eq s e rest

/-- Counting down distinct tasks with positive counts: each count drops by one, and the tasks
whose count was one join the unblocked queue, in order. -/
theorem unblockTasks_spec :
    ∀ (ts : List (Task α)) (s : SchedulingStateMachine α),
      (ts.map (·.id)).Nodup → (∀ t ∈ ts, 0 < s.blockedUsageCount t.id) →
      ∃ s', unblockTasks s ts = some s' ∧ s'.usageQueues = s.usageQueues ∧
        (∀ i, s'.blockedUsageCount i =
          if i ∈ ts.map (·.id) then s.blockedUsageCount i - 1 else s.blockedUsageCount i) ∧
        s'.unblockedTaskQueue =
          s.unblockedTaskQueue ++ ts.filter (fun t => s.blockedUsageCount t.id = 1) ∧
        s'.activeTaskCount = s.activeTaskCount ∧ s'.handledTaskCount = s.handledTaskCount ∧
        s'.totalTaskCount = s.totalTaskCount := by
  intro ts
  induction ts with
  | nil =>
    intro s _ _
    exact ⟨s, rfl, rfl, fun i => by simp, by simp, rfl, rfl, rfl⟩
  | cons t ts ih =>
    intro s hnd hpos
    rw [List.map_cons, List.nodup_cons] at hnd
    have ht := hpos t List.mem_cons_self
    -- one count down, then the rest from the state it left
    set c := s.blockedUsageCount t.id with hc
    let s₁ : SchedulingStateMachine α :=
      (({ s with blockedUsageCount := Function.update s.blockedUsageCount t.id (c - 1) } :
        SchedulingStateMachine α).pushUnblocked (if c - 1 = 0 then some t else none))
    have hs₁ : ∀ i, i ≠ t.id → s₁.blockedUsageCount i = s.blockedUsageCount i := by
      intro i hi
      simp only [s₁]
      split_ifs <;> simp [pushUnblocked, Function.update_of_ne hi]
    have hs₁t : s₁.blockedUsageCount t.id = c - 1 := by
      simp only [s₁]
      split_ifs <;> simp [pushUnblocked]
    have hs₁u : s₁.unblockedTaskQueue =
        s.unblockedTaskQueue ++ if c = 1 then [t] else [] := by
      simp only [s₁]
      by_cases h1 : c = 1
      · rw [if_pos (by omega), if_pos h1]
        rfl
      · rw [if_neg (by omega), if_neg h1, List.append_nil]
        rfl
    have hne : ∀ t' ∈ ts, t'.id ≠ t.id := fun t' ht' h =>
      hnd.1 (by rw [← h]; exact List.mem_map_of_mem (f := (·.id)) ht')
    obtain ⟨s', hrun, hq, hcounts, hunb, hact, hhand, htot⟩ := ih s₁ hnd.2 fun t' ht' => by
      rw [hs₁ t'.id (hne t' ht')]
      exact hpos t' (List.mem_cons_of_mem _ ht')
    refine ⟨s', ?_, ?_, fun i => ?_, ?_, ?_, ?_, ?_⟩
    · have htry : s.tryUnblock t = some (if c - 1 = 0 then some t else none,
          { s with blockedUsageCount := Function.update s.blockedUsageCount t.id (c - 1) }) := by
        simp [tryUnblock, ShortCounter.decrement, ← hc, Nat.pos_iff_ne_zero.mp ht]
      simp only [unblockTasks, htry, Option.bind_some]
      exact hrun
    · rw [hq]
      simp only [s₁]
      split_ifs <;> rfl
    · rw [hcounts i]
      by_cases hi : i = t.id
      · subst hi
        rw [if_neg hnd.1, hs₁t, List.map_cons, if_pos List.mem_cons_self, hc]
      · rw [hs₁ i hi]
        simp [hi]
    · rw [hunb, hs₁u, List.filter_cons, List.append_assoc]
      congr 1
      have hfilter : ts.filter (fun t' => s₁.blockedUsageCount t'.id = 1) =
          ts.filter (fun t' => s.blockedUsageCount t'.id = 1) :=
        List.filter_congr fun t' ht' => by rw [hs₁ t'.id (hne t' ht')]
      rw [hfilter]
      by_cases h1 : c = 1 <;> simp [h1, ← hc]
    · rw [hact]
      simp only [s₁]
      split_ifs <;> rfl
    · rw [hhand]
      simp only [s₁]
      split_ifs <;> rfl
    · rw [htot]
      simp only [s₁]
      split_ifs <;> rfl

/-! ### The queue after a holder lets go -/

/-- `unlock` of the address's last holder: the address is unused, and the front is popped. -/
theorem unlock_of_last {q : UsageQueueInner α} {r : RequestedUsage}
    (hc : q.currentUsage = some (.readonly 1) ∧ r = .readonly ∨
      q.currentUsage = some .writable ∧ r = .writable) :
    q.unlock r = some (q.blockedUsagesFromTasks.head?, ⟨none, q.blockedUsagesFromTasks.tail⟩) := by
  rcases hc with ⟨hc, rfl⟩ | ⟨hc, rfl⟩ <;> simp [UsageQueueInner.unlock, hc]

/-- `unlock` of one of several readers. -/
theorem unlock_of_readers {q : UsageQueueInner α} {n : Nat}
    (hc : q.currentUsage = some (.readonly n)) (hn : n ≠ 1) (hpos : 0 < n) :
    q.unlock .readonly = some (none, ⟨some (.readonly (n - 1)), q.blockedUsagesFromTasks⟩) := by
  simp [UsageQueueInner.unlock, hc, hn, ShortCounter.decrement, Nat.pos_iff_ne_zero.mp hpos]

variable [DecidableEq α]

/-- The tasks on an address, without one of its holders. -/
theorem map_snd_filter_holders {H B : List (UsageFromTask α)} {tasks : List (Task α)}
    {T : Task α} (horder : (H ++ B).map Prod.snd = tasks) (hT : T ∉ B.map Prod.snd) :
    (H.filter (·.2 != T) ++ B).map Prod.snd = tasks.filter (· != T) := by
  have hB : (B.map Prod.snd).filter (· != T) = B.map Prod.snd :=
    List.filter_eq_self.mpr fun u hu => bne_iff_ne.mpr fun h => hT (h ▸ hu)
  rw [← horder, List.map_append, List.map_append, List.filter_append, hB, List.filter_map]
  rfl

section Release

variable {a : α} {q : UsageQueueInner α} {H : List (UsageFromTask α)} {tasks : List (Task α)}
  {T : Task α} {r : RequestedUsage}

/-- The only holder lets go: the entries `grantedSplit` picks take over, and the rest wait on. -/
theorem QueueState.release (hq : QueueState a q [(r, T)] tasks) (hT : T ∉ q.blockedTasks) :
    QueueState a ⟨grantedUsage (grantedSplit q.blockedUsagesFromTasks).1,
        (grantedSplit q.blockedUsagesFromTasks).2⟩
      (grantedSplit q.blockedUsagesFromTasks).1 (tasks.filter (· != T)) where
  usage := usageMatches_grantedUsage _
  order := by
    have := map_snd_filter_holders hq.order hT
    simpa [grantedSplit_append] using this
  requests := fun e he => hq.requests e (List.mem_append_right _ (by
    simpa only [grantedSplit_append] using he))
  front := frontBlocked_grant _

/-- One of several readers lets go: the others keep reading, and the queue waits on. -/
theorem QueueState.releaseRead {n : Nat} (hq : QueueState a q H tasks)
    (hc : q.currentUsage = some (.readonly n)) (hn : n ≠ 1) (hH : (.readonly, T) ∈ H)
    (hnd : (H.map Prod.snd).Nodup) (hT : T ∉ q.blockedTasks) :
    QueueState a ⟨some (.readonly (n - 1)), q.blockedUsagesFromTasks⟩ (H.filter (·.2 != T))
      (tasks.filter (· != T)) where
  usage := by
    have husage := hq.usage
    rw [hc] at husage
    obtain ⟨hpos, hrep⟩ := husage
    -- one holder fewer, all of them readers
    have hlen : (H.filter (·.2 != T)).length + 1 = H.length := by
      have := ListOrder.length_filter_flip (p := fun _ => true) hnd.of_map hH rfl (by simp)
        fun y hy hne => bne_iff_ne.mpr fun h => hne (List.inj_on_of_nodup_map hnd hy hH h)
      rwa [List.filter_true] at this
    have hHn : H.length = n := by simpa using congrArg List.length hrep
    refine ⟨by omega, List.eq_replicate_iff.mpr ⟨by rw [List.length_map]; omega, fun u hu => ?_⟩⟩
    obtain ⟨e, he, rfl⟩ := List.mem_map.mp hu
    exact List.eq_of_mem_replicate (hrep ▸ List.mem_map_of_mem (List.mem_of_mem_filter he))
  order := map_snd_filter_holders hq.order hT
  requests := fun e he => hq.requests e (by
    rcases List.mem_append.mp he with he | he
    · exact List.mem_append_left _ (List.mem_of_mem_filter he)
    · exact List.mem_append_right _ he)
  front := by
    have hfront := hq.front
    unfold FrontBlocked at hfront ⊢
    dsimp only
    split
    · trivial
    · next r' u tl hb =>
      -- a read at the front would have waited for a writer
      rw [hb] at hfront
      refine ⟨Option.some_ne_none _, fun hr => ?_⟩
      have := hfront.2 hr
      rw [hc] at this
      cases this

/-- `unlock` and then the `while let` loop, at an address that `T` holds: the entries `P` at the
front of the queue take over, as `unblockTasks` counts them down, and the queue keeps its invariant
without `T`. -/
theorem QueueState.unlock (hq : QueueState a q H tasks) (hnd : tasks.Nodup)
    (haddr : T.addresses.Nodup) (hreq : ⟨a, r⟩ ∈ T.lockContexts) (hTt : T ∈ tasks)
    (hT : T ∉ q.blockedTasks) :
    ∃ next q' P q'', q.unlock r = some (next, q') ∧
      (∀ s, unblockLoop s q' next = (unblockTasks s (P.map Prod.snd)).map fun s' => (s', q'')) ∧
      P ++ q''.blockedUsagesFromTasks = q.blockedUsagesFromTasks ∧
      QueueState a q'' (H.filter (·.2 != T) ++ P) (tasks.filter (· != T)) := by
  have hHnd : (H.map Prod.snd).Nodup := by
    rw [← hq.order, List.map_append] at hnd
    exact hnd.of_append_left
  -- `T` holds the address, with the usage it requested
  have hH : (r, T) ∈ H := by
    rw [← hq.order, List.map_append] at hTt
    obtain ⟨e, he, rfl⟩ := List.mem_map.mp ((List.mem_append.mp hTt).resolve_right hT)
    have hr := request_unique haddr (hq.requests e (List.mem_append_left _ he)) hreq
    rwa [← hr]
  -- the last holder: the front takes over
  have hlast : H.length = 1 → q.unlock r = some (q.blockedUsagesFromTasks.head?,
      ⟨none, q.blockedUsagesFromTasks.tail⟩) → ∃ next q' P q'', q.unlock r = some (next, q') ∧
      (∀ s, unblockLoop s q' next = (unblockTasks s (P.map Prod.snd)).map fun s' => (s', q'')) ∧
      P ++ q''.blockedUsagesFromTasks = q.blockedUsagesFromTasks ∧
      QueueState a q'' (H.filter (·.2 != T) ++ P) (tasks.filter (· != T)) := by
    intro hlen hunlock
    obtain ⟨e, rfl⟩ := List.length_eq_one_iff.mp hlen
    rw [← List.mem_singleton.mp hH] at hq ⊢
    refine ⟨_, _, _, _, hunlock, fun s => unblockLoop_head s _, grantedSplit_append _, ?_⟩
    simpa using hq.release hT
  have husage := hq.usage
  rcases hc : q.currentUsage with _ | n | _ <;> rw [hc] at husage
  · -- an unused address has no holder
    have : H = [] := List.map_eq_nil_iff.mp husage
    rw [this] at hH
    cases hH
  · obtain ⟨hpos, hrep⟩ := husage
    have hr : r = .readonly := List.eq_of_mem_replicate (hrep ▸ List.mem_map_of_mem (f := Prod.fst) hH)
    subst hr
    have hlen : H.length = n := by simpa using congrArg List.length hrep
    by_cases hn : n = 1
    · subst hn
      exact hlast hlen (unlock_of_last (Or.inl ⟨hc, rfl⟩))
    · refine ⟨_, _, [], ⟨some (.readonly (n - 1)), q.blockedUsagesFromTasks⟩,
        unlock_of_readers hc hn hpos, fun s => ?_, rfl, ?_⟩
      · simp [unblockLoop, unblockTasks]
      · rw [List.append_nil]
        exact hq.releaseRead hc hn hH hHnd hT
  · have hr : r = .writable := List.mem_singleton.mp (husage ▸ List.mem_map_of_mem (f := Prod.fst) hH)
    subst hr
    exact hlast (by simpa using congrArg List.length husage) (unlock_of_last (Or.inr ⟨hc, rfl⟩))

end Release

end Agave.Scheduler
