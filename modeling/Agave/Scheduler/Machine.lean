import Agave.Scheduler.State

/-!
# The unified scheduler: `SchedulingStateMachine`

The state machine's counters and unblocked queue, with the heap it reaches through the tasks'
`Arc`s: the usage queue of every address, and every task's `blocked_usage_count`. The loader that
`create_task` calls returns one `UsageQueue` per address, so the queues are a function of the
address. A panic is `none`.

`schedule_task` walks the task's lock contexts once, locking each address whose queue is empty and
lockable, and queueing the task behind every other one; it is runnable when it queued nowhere.
`deschedule_task` unlocks the task's addresses one by one. When an address becomes unused, the
`while let` loop hands it to the front of its queue, and after a read to every read right behind
it, counting down each such task's blocked usages; a task whose count reaches zero joins
`unblocked_task_queue`.
-/

namespace Agave.Scheduler

open UsageQueueInner

variable {α : Type} [DecidableEq α]

/-- `SchedulingStateMachine`, with the cells it reaches through its tasks. -/
structure SchedulingStateMachine (α : Type) where
  unblockedTaskQueue : List (Task α)
  activeTaskCount : Nat
  handledTaskCount : Nat
  unblockedTaskCount : Nat
  totalTaskCount : Nat
  /-- The `UsageQueue` of every address. -/
  usageQueues : α → UsageQueueInner α
  /-- The `blocked_usage_count` of every task, by its allocation. -/
  blockedUsageCount : Nat → Nat

/-- A transaction as `create_task` reads it: its account keys, and which of them it writes
(`message().is_writable(index)`). -/
structure Transaction (α : Type) where
  accountKeys : List α
  isWritable : Nat → Bool

namespace SchedulingStateMachine

/-- `exclusively_initialize_current_thread_for_scheduling`, with every usage queue as
`UsageQueue::default()` leaves it. -/
def exclusivelyInitializeCurrentThreadForScheduling : SchedulingStateMachine α :=
  ⟨[], 0, 0, 0, 0, fun _ => default, fun _ => 0⟩

/-- `has_no_active_task`. -/
def hasNoActiveTask (s : SchedulingStateMachine α) : Bool := s.activeTaskCount = 0

/-- `create_task`: the task allocated at `id`, with a lock context per account key and its
`blocked_usage_count` zero. -/
def createTask (s : SchedulingStateMachine α) (transaction : Transaction α) (id : Nat) :
    Task α × SchedulingStateMachine α :=
  (⟨id, transaction.accountKeys.mapIdx fun index address =>
      ⟨address, if transaction.isWritable index then .writable else .readonly⟩⟩,
    { s with blockedUsageCount := Function.update s.blockedUsageCount id 0 })

/-- `TaskInner::try_unblock`: counts one blocked usage down; the task is returned once none is
left. -/
def tryUnblock (s : SchedulingStateMachine α) (task : Task α) :
    Option (Option (Task α) × SchedulingStateMachine α) :=
  (ShortCounter.decrement (s.blockedUsageCount task.id)).map fun c =>
    (if c = 0 then some task else none,
      { s with blockedUsageCount := Function.update s.blockedUsageCount task.id c })

/-- The body of the `for` loop of `try_lock_usage_queues` at one queue: lock it, or queue the task
behind it (`true`). -/
def lockOrBlock (task : Task α) (requestedUsage : RequestedUsage) (q : UsageQueueInner α) :
    Option (Bool × UsageQueueInner α) :=
  let lockResult := if q.hasNoBlockedUsage then q.tryLock requestedUsage else none
  match lockResult with
  | some q' => some (false, q')
  | none => (q.pushBlockedUsageFromTask (requestedUsage, task)).map fun q' => (true, q')

/-- The `for` loop of `try_lock_usage_queues`, counting the blocked usages. -/
def tryLockUsageQueuesLoop (task : Task α) :
    List (LockContext α) → Nat → (α → UsageQueueInner α) →
      Option (Nat × (α → UsageQueueInner α))
  | [], blockedUsageCount, qs => some (blockedUsageCount, qs)
  | context :: rest, blockedUsageCount, qs =>
    match lockOrBlock task context.requestedUsage (qs context.address) with
    | none => none
    | some (blocked, q) =>
      tryLockUsageQueuesLoop task rest (if blocked then blockedUsageCount + 1 else blockedUsageCount)
        (Function.update qs context.address q)

/-- `try_lock_usage_queues`. -/
def tryLockUsageQueues (s : SchedulingStateMachine α) (task : Task α) :
    Option (Option (Task α) × SchedulingStateMachine α) :=
  (tryLockUsageQueuesLoop task task.lockContexts 0 s.usageQueues).map fun (n, qs) =>
    if n = 0 then (some task, { s with usageQueues := qs })
    else
      (none,
        { s with
          usageQueues := qs
          blockedUsageCount := Function.update s.blockedUsageCount task.id n })

/-- `unblocked_task_queue.push_back`, when `try_unblock` returned the task. -/
def pushUnblocked (s : SchedulingStateMachine α) : Option (Task α) → SchedulingStateMachine α
  | some task => { s with unblockedTaskQueue := s.unblockedTaskQueue ++ [task] }
  | none => s

/-- The `while let` loop of `unlock_usage_queues` at one queue, `next` being the usage it popped
last. -/
def unblockLoop (s : SchedulingStateMachine α) (q : UsageQueueInner α) :
    Option (UsageFromTask α) → Option (SchedulingStateMachine α × UsageQueueInner α)
  | none => some (s, q)
  | some (requestedUsage, task) =>
    match s.tryUnblock task with
    | none => none
    | some (unblocked, s') =>
      match _hlock : q.tryLock requestedUsage with
      | none => none
      | some q' =>
        match requestedUsage with
        | .readonly =>
          match _hpop : q'.popUnblockedReadonlyUsageFromTask with
          | none => none
          | some (next, q'') => unblockLoop (s'.pushUnblocked unblocked) q'' next
        | .writable => some (s'.pushUnblocked unblocked, q')
termination_by next => q.blockedUsagesFromTasks.length + (if next.isSome then 1 else 0)
decreasing_by
  have h₁ := length_of_popUnblockedReadonlyUsageFromTask _hpop
  have h₂ := congrArg List.length (tryLock_eq_some _hlock)
  simp only [Option.isSome_some, if_true]
  omega

/-- The `for` loop of `unlock_usage_queues`. -/
def unlockUsageQueuesLoop :
    List (LockContext α) → SchedulingStateMachine α → Option (SchedulingStateMachine α)
  | [], s => some s
  | context :: rest, s =>
    match (s.usageQueues context.address).unlock context.requestedUsage with
    | none => none
    | some (unblockedTaskFromQueue, q) =>
      match unblockLoop s q unblockedTaskFromQueue with
      | none => none
      | some (s', q') =>
        unlockUsageQueuesLoop rest
          { s' with usageQueues := Function.update s'.usageQueues context.address q' }

/-- `unlock_usage_queues`. -/
def unlockUsageQueues (s : SchedulingStateMachine α) (task : Task α) :
    Option (SchedulingStateMachine α) :=
  unlockUsageQueuesLoop task.lockContexts s

/-- `schedule_task`. -/
def scheduleTask (s : SchedulingStateMachine α) (task : Task α) :
    Option (Option (Task α) × SchedulingStateMachine α) :=
  tryLockUsageQueues
    { s with totalTaskCount := s.totalTaskCount + 1, activeTaskCount := s.activeTaskCount + 1 }
    task

/-- `schedule_next_unblocked_task`. -/
def scheduleNextUnblockedTask (s : SchedulingStateMachine α) :
    Option (Task α) × SchedulingStateMachine α :=
  match s.unblockedTaskQueue with
  | [] => (none, s)
  | task :: rest =>
    (some task, { s with unblockedTaskQueue := rest, unblockedTaskCount := s.unblockedTaskCount + 1 })

/-- `deschedule_task`. -/
def descheduleTask (s : SchedulingStateMachine α) (task : Task α) :
    Option (SchedulingStateMachine α) :=
  (ShortCounter.decrement s.activeTaskCount).bind fun activeTaskCount =>
    unlockUsageQueues
      { s with activeTaskCount := activeTaskCount, handledTaskCount := s.handledTaskCount + 1 } task

/-- `reinitialize`, whose `assert!`s want no active task and an empty unblocked queue. -/
def reinitialize (s : SchedulingStateMachine α) : Option (SchedulingStateMachine α) :=
  if s.hasNoActiveTask ∧ s.unblockedTaskQueue.length = 0 then
    some
      { s with
        activeTaskCount := 0
        handledTaskCount := 0
        unblockedTaskCount := 0
        totalTaskCount := 0 }
  else none

end SchedulingStateMachine

end Agave.Scheduler
