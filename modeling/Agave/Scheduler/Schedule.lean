import Agave.Scheduler.Invariant

/-!
# The unified scheduler: `schedule_task` keeps the invariant

`try_lock_usage_queues` visits each address of the new task once, because its account keys are
distinct. At each it either locks the address, which then has one more holder, or queues the task
behind it (`lockOrBlock_eq_some`). Either way the address keeps its invariant with the new task as
the last one on it (`QueueState.lockOrBlock`), the other addresses are untouched, and the task's
`blocked_usage_count` is the number of queues it joined (`tryLockUsageQueuesLoop_spec`). The
queue's front waits for a holder, so the `assert_matches!` of `push_blocked_usage_from_task` holds.
-/

namespace Agave.Scheduler

open ListOrder UsageQueueInner SchedulingStateMachine

variable {α : Type}

section LockOrBlock

variable {task : Task α} {r : RequestedUsage} {q q' : UsageQueueInner α} {b : Bool}

/-- The body of the loop either locks an address with an empty queue, or queues the task behind a
used address. -/
theorem lockOrBlock_eq_some (h : lockOrBlock task r q = some (b, q')) :
    (b = false ∧ q.blockedUsagesFromTasks = [] ∧ q.tryLock r = some q') ∨
    (b = true ∧
      q' = { q with blockedUsagesFromTasks := q.blockedUsagesFromTasks ++ [(r, task)] } ∧
      q.currentUsage ≠ none ∧ (q.blockedUsagesFromTasks = [] → q.tryLock r = none)) := by
  unfold lockOrBlock at h
  dsimp only at h
  split at h
  · next q₁ hlock =>
    cases h
    by_cases hb : q.hasNoBlockedUsage = true
    · rw [if_pos hb] at hlock
      exact Or.inl ⟨rfl, List.isEmpty_iff.mp hb, hlock⟩
    · rw [if_neg hb] at hlock
      cases hlock
  · next hlock =>
    obtain ⟨q₁, hpush, heq⟩ := Option.map_eq_some_iff.mp h
    cases heq
    unfold pushBlockedUsageFromTask at hpush
    split_ifs at hpush with hcur
    cases hpush
    refine Or.inr ⟨rfl, rfl, Option.isSome_iff_ne_none.mp hcur, fun hnil => ?_⟩
    have hb : q.hasNoBlockedUsage = true := by simp [hasNoBlockedUsage, hnil]
    rwa [if_pos hb] at hlock

/-- The body never panics at a queue whose front waits for a holder. -/
theorem exists_lockOrBlock (hfront : FrontBlocked q) : ∃ p, lockOrBlock task r q = some p := by
  unfold lockOrBlock
  dsimp only
  split
  · exact ⟨_, rfl⟩
  · next hlock =>
    have hcur : q.currentUsage ≠ none := by
      by_cases hb : q.hasNoBlockedUsage = true
      · rw [if_pos hb] at hlock
        exact (tryLock_eq_none hlock).1
      · -- a queue with waiting tasks is used
        have hne : q.blockedUsagesFromTasks ≠ [] := by simpa [hasNoBlockedUsage] using hb
        obtain ⟨e, rest, he⟩ := List.exists_cons_of_ne_nil hne
        unfold FrontBlocked at hfront
        rw [he] at hfront
        exact hfront.1
    rw [pushBlockedUsageFromTask_eq_some hcur]
    exact ⟨_, rfl⟩

theorem blockedTasks_of_lockOrBlock (h : lockOrBlock task r q = some (b, q')) :
    q'.blockedTasks = q.blockedTasks ++ if b then [task] else [] := by
  rcases lockOrBlock_eq_some h with ⟨rfl, -, hlock⟩ | ⟨rfl, rfl, -, -⟩
  · rw [blockedTasks, tryLock_eq_some hlock, if_neg Bool.false_ne_true, List.append_nil]
    rfl
  · simp [blockedTasks]

/-- Locking extends the holders' usage by the new request. -/
theorem UsageMatches.tryLock {us : List RequestedUsage} (hu : UsageMatches q.currentUsage us)
    (h : q.tryLock r = some q') : UsageMatches q'.currentUsage (us ++ [r]) := by
  unfold UsageQueueInner.tryLock at h
  rcases hc : q.currentUsage with _ | n | _ <;> rw [hc] at hu h <;> cases r <;>
    simp only [Option.map_some, Option.map_none, Option.some.injEq, reduceCtorEq] at h
  · subst h
    rw [show us = [] from hu]
    exact ⟨Nat.one_pos, rfl⟩
  · subst h
    rw [show us = [] from hu]
    rfl
  · subst h
    obtain ⟨hn, rfl⟩ := hu
    exact ⟨Nat.succ_pos n, (List.replicate_succ' ..).symm⟩

/-- After the body, the address has the new task last among its active tasks. -/
theorem QueueState.lockOrBlock {a : α} {holders : List (UsageFromTask α)} {tasks : List (Task α)}
    (hq : QueueState a q holders tasks) (hreq : ⟨a, r⟩ ∈ task.lockContexts)
    (h : lockOrBlock task r q = some (b, q')) : AddressInv a q' (tasks ++ [task]) := by
  rcases lockOrBlock_eq_some h with ⟨rfl, hnil, hlock⟩ | ⟨rfl, rfl, hcur, hfail⟩
  · -- locked: the task is the newest holder, and nothing waits
    have hb : q'.blockedUsagesFromTasks = [] := by rw [tryLock_eq_some hlock, hnil]
    refine ⟨holders ++ [(r, task)], ?_, ?_, ?_, ?_⟩
    · rw [List.map_append]
      exact hq.usage.tryLock hlock
    · rw [hb, List.append_nil, List.map_append, ← hq.order, hnil, List.append_nil]
      rfl
    · intro e he
      rw [hb, List.append_nil, List.mem_append] at he
      rcases he with he | he
      · exact hq.requests e (List.mem_append_left _ he)
      · rw [List.mem_singleton.mp he]
        exact hreq
    · unfold FrontBlocked
      rw [hb]
      trivial
  · -- queued: the holders stay, and the task waits last
    refine ⟨holders, hq.usage, ?_, ?_, ?_⟩
    · show (holders ++ (q.blockedUsagesFromTasks ++ [(r, task)])).map Prod.snd = tasks ++ [task]
      rw [← List.append_assoc, List.map_append, hq.order]
      rfl
    · intro e he
      rw [show holders ++ (q.blockedUsagesFromTasks ++ [(r, task)]) =
        (holders ++ q.blockedUsagesFromTasks) ++ [(r, task)] from (List.append_assoc ..).symm,
        List.mem_append] at he
      rcases he with he | he
      · exact hq.requests e he
      · rw [List.mem_singleton.mp he]
        exact hreq
    · have hfront := hq.front
      unfold FrontBlocked at hfront ⊢
      dsimp only
      cases hb : q.blockedUsagesFromTasks with
      | nil => exact tryLock_eq_none (hfail hb)
      | cons e rest =>
        rw [hb] at hfront
        exact hfront

end LockOrBlock

variable [DecidableEq α]

/-- The loop of `try_lock_usage_queues` over contexts of distinct addresses: every address it
visits gets the body's result on its old queue, the others are untouched, and the count is the
number of queues the task joined. -/
theorem tryLockUsageQueuesLoop_spec (task : Task α) :
    ∀ (cs : List (LockContext α)) (n : Nat) (qs : α → UsageQueueInner α),
      (cs.map (·.address)).Nodup → (∀ c ∈ cs, FrontBlocked (qs c.address)) →
      (∀ c ∈ cs, task ∉ (qs c.address).blockedTasks) →
      ∃ m qs', tryLockUsageQueuesLoop task cs n qs = some (m, qs') ∧
        (∀ a, a ∉ cs.map (·.address) → qs' a = qs a) ∧
        (∀ c ∈ cs, ∃ b, lockOrBlock task c.requestedUsage (qs c.address) = some (b, qs' c.address)) ∧
        m = n + (cs.filter fun c => task ∈ (qs' c.address).blockedTasks).length := by
  intro cs
  induction cs with
  | nil =>
    intro n qs _ _ _
    exact ⟨n, qs, rfl, fun _ _ => rfl, fun _ h => absurd h List.not_mem_nil, rfl⟩
  | cons c cs ih =>
    intro n qs hnd hfront hfresh
    rw [List.map_cons, List.nodup_cons] at hnd
    obtain ⟨⟨b, q⟩, hc⟩ : ∃ p, lockOrBlock task c.requestedUsage (qs c.address) = some p :=
      exists_lockOrBlock (hfront c List.mem_cons_self)
    -- the rest of the loop sees the other queues as they were
    have hother : ∀ c' ∈ cs, Function.update qs c.address q c'.address = qs c'.address :=
      fun c' hc' => Function.update_of_ne
        (fun heq => hnd.1 (by rw [← heq]; exact List.mem_map_of_mem (f := (·.address)) hc')) _ _
    obtain ⟨m, qs', hloop, hout, hin, hm⟩ :=
      ih (if b then n + 1 else n) (Function.update qs c.address q) hnd.2
        (fun c' hc' => (hother c' hc').symm ▸ hfront c' (List.mem_cons_of_mem _ hc'))
        (fun c' hc' => (hother c' hc').symm ▸ hfresh c' (List.mem_cons_of_mem _ hc'))
    have hqc : qs' c.address = q := by rw [hout c.address hnd.1, Function.update_self]
    refine ⟨m, qs', ?_, ?_, ?_, ?_⟩
    · simp only [tryLockUsageQueuesLoop, hc]
      exact hloop
    · intro a ha
      rw [List.map_cons, List.mem_cons, not_or] at ha
      rw [hout a ha.2, Function.update_of_ne ha.1]
    · intro c' hc'
      rcases List.mem_cons.mp hc' with rfl | hc'
      · exact ⟨b, by rw [hqc]; exact hc⟩
      · obtain ⟨b', h'⟩ := hin c' hc'
        exact ⟨b', hother c' hc' ▸ h'⟩
    · -- the task is in the visited queue exactly when the body queued it
      have hnew : (task ∈ (qs' c.address).blockedTasks) = (b = true) := by
        rw [hqc, blockedTasks_of_lockOrBlock hc]
        cases b <;> simp [hfresh c List.mem_cons_self]
      rw [hm, List.filter_cons]
      simp only [hnew, decide_eq_true_eq]
      cases b with
      | false => simp
      | true =>
        simp
        omega

/-- A task waiting somewhere other than the new task waits there after the loop as before. -/
theorem mem_blockedTasks_of_tryLockUsageQueuesLoop {task u : Task α} {qs qs' : α → UsageQueueInner α}
    (hout : ∀ a, a ∉ task.addresses → qs' a = qs a)
    (hin : ∀ c ∈ task.lockContexts,
      ∃ b, lockOrBlock task c.requestedUsage (qs c.address) = some (b, qs' c.address))
    (hu : u ≠ task) (a : α) : u ∈ (qs' a).blockedTasks ↔ u ∈ (qs a).blockedTasks := by
  by_cases ha : a ∈ task.addresses
  · obtain ⟨c, hc, rfl⟩ := List.mem_map.mp ha
    obtain ⟨b, hb⟩ := hin c hc
    rw [blockedTasks_of_lockOrBlock hb, List.mem_append]
    cases b <;> simp [hu]
  · rw [hout a ha]

/-- `schedule_task` in terms of its loop: the task is runnable when it queued nowhere, and
otherwise its count is the number of queues it joined. -/
theorem scheduleTask_eq {s : SchedulingStateMachine α} {task : Task α} {m : Nat}
    {qs' : α → UsageQueueInner α}
    (hloop : tryLockUsageQueuesLoop task task.lockContexts 0 s.usageQueues = some (m, qs')) :
    ∃ machine, s.scheduleTask task = some (if m = 0 then some task else none, machine) ∧
      machine.usageQueues = qs' ∧
      machine.blockedUsageCount =
        (if m = 0 then s.blockedUsageCount else Function.update s.blockedUsageCount task.id m) ∧
      machine.unblockedTaskQueue = s.unblockedTaskQueue ∧
      machine.activeTaskCount = s.activeTaskCount + 1 ∧
      machine.totalTaskCount = s.totalTaskCount + 1 ∧
      machine.handledTaskCount = s.handledTaskCount := by
  unfold scheduleTask tryLockUsageQueues
  rw [hloop]
  by_cases hm : m = 0
  · simp only [Option.map_some, if_pos hm]
    exact ⟨_, rfl, rfl, rfl, rfl, rfl, rfl, rfl⟩
  · simp only [Option.map_some, if_neg hm]
    exact ⟨_, rfl, rfl, rfl, rfl, rfl, rfl, rfl⟩

omit [DecidableEq α] in
theorem createTask_spec {s : SchedulingStateMachine α} {transaction : Transaction α} {id : Nat}
    {task : Task α} {created : SchedulingStateMachine α}
    (h : s.createTask transaction id = (task, created)) :
    task.id = id ∧ task.addresses = transaction.accountKeys ∧
      created = { s with blockedUsageCount := Function.update s.blockedUsageCount id 0 } := by
  unfold createTask at h
  obtain ⟨rfl, rfl⟩ := Prod.mk.inj h
  refine ⟨rfl, ?_, rfl⟩
  apply List.ext_getElem (by simp [Task.addresses])
  intro i h₁ h₂
  simp [Task.addresses]

/-- The active tasks on an address, after one more task is scheduled. -/
theorem onAddress_append (active : List (Task α)) (task : Task α) (a : α) :
    (active ++ [task]).filter (fun t => a ∈ t.addresses) =
      active.filter (fun t => a ∈ t.addresses) ++ if a ∈ task.addresses then [task] else [] := by
  rw [List.filter_append]
  by_cases ha : a ∈ task.addresses <;> simp [ha]

/-- `schedule_task` on a task freshly created from a transaction with distinct account keys does
not panic, and keeps the invariant. -/
theorem Inv.scheduleTask {sys : Sys α} (hinv : Inv sys) {transaction : Transaction α} {id : Nat}
    {task : Task α} {created : SchedulingStateMachine α}
    (hkeys : transaction.accountKeys.Nodup) (hid : id ∉ sys.active.map (·.id))
    (hcreate : sys.machine.createTask transaction id = (task, created)) :
    ∃ runnable machine, created.scheduleTask task = some (runnable, machine) ∧
      Inv ⟨machine, sys.active ++ [task], sys.runnable ++ runnable.toList⟩ := by
  obtain ⟨rfl, haddr, rfl⟩ := createTask_spec hcreate
  have hnodup : task.addresses.Nodup := haddr ▸ hkeys
  have hfresh : task ∉ sys.active := fun h =>
    hid (List.mem_map_of_mem (f := (·.id)) h)
  -- every queue the task visits has its front waiting, and does not hold the task yet
  have hfront : ∀ c ∈ task.lockContexts, FrontBlocked (sys.machine.usageQueues c.address) :=
    fun c _ => (hinv.machine.queues c.address).elim fun _ hq => hq.front
  have hnotin : ∀ c ∈ task.lockContexts,
      task ∉ (sys.machine.usageQueues c.address).blockedTasks := by
    intro c _ hmem
    obtain ⟨H, hq⟩ := hinv.machine.queues c.address
    obtain ⟨e, he, heq⟩ := List.mem_map.mp hmem
    have := hq.mem_tasks (List.mem_append_right _ he)
    rw [heq] at this
    exact hfresh (List.mem_filter.mp this).1
  obtain ⟨m, qs', hloop, hout, hin, hm⟩ :=
    tryLockUsageQueuesLoop_spec task task.lockContexts 0 sys.machine.usageQueues hnodup hfront
      hnotin
  obtain ⟨machine, hsched, hqs, hcounts, hunblocked, hactive, htotal, hhandled⟩ :=
    scheduleTask_eq
      (s := { sys.machine with
        blockedUsageCount := Function.update sys.machine.blockedUsageCount task.id 0 }) hloop
  -- the new task's count is the number of queues it joined, and no other count moved
  have hcount_task : machine.blockedUsageCount task.id = m := by
    rw [hcounts]
    split_ifs with h0 <;> simp [h0]
  have hcount_other : ∀ t : Task α, t.id ≠ task.id →
      machine.blockedUsageCount t.id = sys.machine.blockedUsageCount t.id := by
    intro t ht
    rw [hcounts]
    split_ifs <;> simp [Function.update_of_ne ht]
  have hblocked_task : blockedCount qs' task = m := by
    simp only [blockedCount, Task.addresses, List.filter_map, List.length_map, hm, Nat.zero_add]
    rfl
  have hother : ∀ t ∈ sys.active, t.id ≠ task.id ∧ t ≠ task := fun t ht =>
    ⟨fun h => hid (by rw [← h]; exact List.mem_map_of_mem (f := (·.id)) ht),
      fun h => hfresh (h ▸ ht)⟩
  refine ⟨_, machine, hsched, ⟨⟨?_, ?_, ?_, ?_, ?_⟩, ?_, ?_, ?_, ?_⟩⟩
  · -- every address: the task is the newest on the addresses it visited
    intro a
    show AddressInv a (machine.usageQueues a) ((sys.active ++ [task]).filter fun t => a ∈ t.addresses)
    rw [hqs, onAddress_append]
    by_cases ha : a ∈ task.addresses
    · rw [if_pos ha]
      obtain ⟨c, hc, rfl⟩ := List.mem_map.mp ha
      obtain ⟨b, hb⟩ := hin c hc
      obtain ⟨H, hq⟩ := hinv.machine.queues c.address
      exact hq.lockOrBlock hc hb
    · rw [if_neg ha, List.append_nil, hout a ha]
      exact hinv.machine.queues a
  · intro t ht
    rw [hqs]
    rcases List.mem_append.mp ht with ht | ht
    · rw [hcount_other t (hother t ht).1, hinv.machine.counts t ht]
      exact (blockedCount_congr
        (mem_blockedTasks_of_tryLockUsageQueuesLoop hout hin (hother t ht).2)).symm
    · rw [List.mem_singleton.mp ht, hcount_task, hblocked_task]
  · intro t ht
    show machine.blockedUsageCount t.id = 0 ↔
      t ∈ (sys.runnable ++ (if m = 0 then some task else none).toList) ++ machine.unblockedTaskQueue
    rw [hunblocked]
    rcases List.mem_append.mp ht with ht | ht
    · -- an older task: its count and its place among the runnable tasks are as they were
      have hnot : t ∉ (if m = 0 then some task else none).toList := by
        split_ifs <;> simp [(hother t ht).2]
      rw [hcount_other t (hother t ht).1, hinv.machine.granted_iff t ht]
      simp only [List.mem_append] at hnot ⊢
      tauto
    · rw [List.mem_singleton.mp ht, hcount_task]
      have hold : task ∉ sys.runnable ++ sys.machine.unblockedTaskQueue :=
        fun h => hfresh (hinv.machine.granted_sub task h)
      simp only [List.mem_append] at hold ⊢
      by_cases hm0 : m = 0
      · simp [hm0]
      · simp [hm0]
        tauto
  · show ((sys.runnable ++ (if m = 0 then some task else none).toList) ++
      machine.unblockedTaskQueue).Nodup
    rw [hunblocked]
    have hold := hinv.machine.granted_nodup
    by_cases hm0 : m = 0
    · rw [if_pos hm0, Option.toList_some, List.append_assoc, List.singleton_append,
        List.nodup_middle, List.nodup_cons]
      exact ⟨fun h => hfresh (hinv.machine.granted_sub task h), hold⟩
    · rw [if_neg hm0, Option.toList_none, List.append_nil]
      exact hold
  · intro t ht
    change t ∈ (sys.runnable ++ (if m = 0 then some task else none).toList) ++
      machine.unblockedTaskQueue at ht
    rw [hunblocked] at ht
    rcases List.mem_append.mp ht with ht | ht
    · rcases List.mem_append.mp ht with ht | ht
      · exact List.mem_append_left _ (hinv.machine.granted_sub t (List.mem_append_left _ ht))
      · split_ifs at ht
        · exact List.mem_append_right _ (by simpa using ht)
        · cases ht
    · exact List.mem_append_left _ (hinv.machine.granted_sub t (List.mem_append_right _ ht))
  · show ((sys.active ++ [task]).map (·.id)).Nodup
    rw [List.map_append, List.nodup_append]
    refine ⟨hinv.ids, List.nodup_singleton _, fun a ha b hb => ?_⟩
    rw [List.map_singleton, List.mem_singleton] at hb
    rw [hb]
    exact fun h => hid (h ▸ ha)
  · intro t ht
    rcases List.mem_append.mp ht with ht | ht
    · exact hinv.addresses t ht
    · rw [List.mem_singleton.mp ht]
      exact hnodup
  · show machine.activeTaskCount = (sys.active ++ [task]).length
    rw [hactive, List.length_append, List.length_singleton]
    exact congrArg (· + 1) hinv.activeTaskCount
  · show machine.totalTaskCount = machine.activeTaskCount + machine.handledTaskCount
    rw [htotal, hactive, hhandled]
    have := hinv.totalTaskCount
    dsimp only at this ⊢
    omega

/-- `schedule_next_unblocked_task` moves a task from the unblocked queue to the caller, so the
runnable tasks stay the same list. -/
theorem Inv.scheduleNextUnblockedTask {sys : Sys α} (hinv : Inv sys) {next : Option (Task α)}
    {machine : SchedulingStateMachine α}
    (h : sys.machine.scheduleNextUnblockedTask = (next, machine)) :
    Inv ⟨machine, sys.active, sys.runnable ++ next.toList⟩ := by
  unfold SchedulingStateMachine.scheduleNextUnblockedTask at h
  split at h
  · obtain ⟨rfl, rfl⟩ := Prod.mk.inj h
    rw [Option.toList_none, List.append_nil]
    exact hinv
  · next t rest hq =>
    obtain ⟨rfl, rfl⟩ := Prod.mk.inj h
    have hgranted : (sys.runnable ++ (some t).toList) ++ rest =
        sys.runnable ++ sys.machine.unblockedTaskQueue := by
      rw [hq, Option.toList_some, List.append_assoc, List.singleton_append]
    obtain ⟨⟨hqueues, hcounts, hiff, hnodup, hsub⟩, hids, haddr, hactive, htotal⟩ := hinv
    refine ⟨⟨hqueues, hcounts, fun u hu => ?_, ?_, fun u hu => ?_⟩, hids, haddr, hactive, htotal⟩
    · show _ ↔ u ∈ (sys.runnable ++ (some t).toList) ++ rest
      rw [hgranted]
      exact hiff u hu
    · show ((sys.runnable ++ (some t).toList) ++ rest).Nodup
      rw [hgranted]
      exact hnodup
    · change u ∈ (sys.runnable ++ (some t).toList) ++ rest at hu
      rw [hgranted] at hu
      exact hsub u hu

end Agave.Scheduler
