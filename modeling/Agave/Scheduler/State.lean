import Mathlib.Logic.Function.Basic
import Mathlib.Data.List.Basic

/-!
# The unified scheduler: usage queues

`unified-scheduler-logic/src/lib.rs`. Every address has a `UsageQueue`: how it is used now
(`current_usage`: unused, read by `n` tasks, or written by one) and the FIFO queue of tasks blocked
on it. A task is a transaction's list of `LockContext`s, one per account key, each naming the
address's queue and whether the task reads or writes it.

`ShortCounter` is a `u32` whose `increment` and `decrement` unwrap a checked operation; the
source leaves its overflow to the caller, so here it is a `Nat` whose `decrement` fails at zero.
A `Task` is an `Arc`: it carries the identity of its allocation, by which the model tells tasks
apart and finds their `blocked_usage_count`.
-/

namespace Agave.Scheduler

/-- `ShortCounter::decrement`: `checked_sub(1).unwrap()`, `none` where it panics. -/
def ShortCounter.decrement (c : Nat) : Option Nat := if c = 0 then none else some (c - 1)

@[simp] theorem ShortCounter.decrement_eq_some {c d : Nat} :
    ShortCounter.decrement c = some d ↔ 0 < c ∧ d = c - 1 := by
  unfold ShortCounter.decrement
  split_ifs with h <;> simp [h, eq_comm, Nat.pos_iff_ne_zero]

/-- `RequestedUsage`. -/
inductive RequestedUsage where
  | readonly
  | writable
  deriving DecidableEq, Repr

/-- `Usage`: read by `count` tasks, or written by one. -/
inductive Usage where
  | readonly (count : Nat)
  | writable
  deriving DecidableEq, Repr

/-- `impl From<RequestedUsage> for Usage`. -/
def Usage.ofRequested : RequestedUsage → Usage
  | .readonly => .readonly 1
  | .writable => .writable

/-- `LockContext`: the address stands for the `UsageQueue` that the loader returned for it. -/
structure LockContext (α : Type) where
  address : α
  requestedUsage : RequestedUsage
  deriving DecidableEq, Repr

/-- `TaskInner`, behind its `Arc`. `id` is the allocation; `blocked_usage_count` lives in it and
is kept by the state machine's `blockedUsageCount`. -/
structure Task (α : Type) where
  id : Nat
  lockContexts : List (LockContext α)
  deriving DecidableEq, Repr

/-- `==` on tasks is their equality, so the pool's tests of a task's membership in a list are
decided by it. -/
instance Task.instLawfulBEq {α : Type} [DecidableEq α] : LawfulBEq (Task α) := inferInstance

/-- The addresses a task locks, in order. -/
def Task.addresses {α : Type} (t : Task α) : List α := t.lockContexts.map (·.address)

/-- `UsageFromTask`. -/
abbrev UsageFromTask (α : Type) := RequestedUsage × Task α

/-- `UsageQueueInner`. -/
structure UsageQueueInner (α : Type) where
  currentUsage : Option Usage
  blockedUsagesFromTasks : List (UsageFromTask α)
  deriving DecidableEq, Repr

/-- `impl Default for UsageQueueInner`. -/
instance {α : Type} : Inhabited (UsageQueueInner α) := ⟨⟨none, []⟩⟩

namespace UsageQueueInner

variable {α : Type}

/-- `try_lock`: `none` is `Err(())`, and the queue is changed only on success. -/
def tryLock (q : UsageQueueInner α) (requestedUsage : RequestedUsage) :
    Option (UsageQueueInner α) :=
  let newUsage : Option Usage :=
    match q.currentUsage, requestedUsage with
    | none, r => some (Usage.ofRequested r)
    | some (.readonly count), .readonly => some (.readonly (count + 1))
    | some (.readonly _), .writable => none
    | some .writable, _ => none
  newUsage.map fun u => { q with currentUsage := some u }

/-- `unlock`: the usage the queue's front may take over, if the address is unused now. `none`
is a panic: one of the `unreachable!()` arms, or a decrement of zero. -/
def unlock (q : UsageQueueInner α) (requestedUsage : RequestedUsage) :
    Option (Option (UsageFromTask α) × UsageQueueInner α) :=
  let isUnusedNow : Option (Bool × UsageQueueInner α) :=
    match q.currentUsage, requestedUsage with
    | some (.readonly count), .readonly =>
      if count = 1 then some (true, q)
      else (ShortCounter.decrement count).map fun c =>
        (false, { q with currentUsage := some (.readonly c) })
    | some (.readonly _), .writable => none
    | some .writable, .writable => some (true, q)
    | some .writable, .readonly => none
    | none, _ => none
  isUnusedNow.map fun (unused, q) =>
    if unused then
      (q.blockedUsagesFromTasks.head?, ⟨none, q.blockedUsagesFromTasks.tail⟩)
    else (none, q)

/-- `push_blocked_usage_from_task`, whose `assert_matches!` wants the address in use. -/
def pushBlockedUsageFromTask (q : UsageQueueInner α) (usageFromTask : UsageFromTask α) :
    Option (UsageQueueInner α) :=
  if q.currentUsage.isSome then
    some { q with blockedUsagesFromTasks := q.blockedUsagesFromTasks ++ [usageFromTask] }
  else none

/-- `pop_unblocked_readonly_usage_from_task`: pops the front if it reads, asserting the address
is read. -/
def popUnblockedReadonlyUsageFromTask (q : UsageQueueInner α) :
    Option (Option (UsageFromTask α) × UsageQueueInner α) :=
  match q.blockedUsagesFromTasks with
  | (.readonly, t) :: rest =>
    match q.currentUsage with
    | some (.readonly _) => some (some (.readonly, t), { q with blockedUsagesFromTasks := rest })
    | _ => none
  | _ => some (none, q)

/-- `has_no_blocked_usage`. -/
def hasNoBlockedUsage (q : UsageQueueInner α) : Bool := q.blockedUsagesFromTasks.isEmpty

/-! ### What each operation does -/

theorem tryLock_eq_some {q q' : UsageQueueInner α} {r : RequestedUsage}
    (h : q.tryLock r = some q') : q'.blockedUsagesFromTasks = q.blockedUsagesFromTasks := by
  unfold tryLock at h
  obtain ⟨u, -, rfl⟩ := Option.map_eq_some_iff.mp h
  rfl

/-- A lock fails only on a used address, and a read only on a written one. -/
theorem tryLock_eq_none {q : UsageQueueInner α} {r : RequestedUsage} (h : q.tryLock r = none) :
    q.currentUsage ≠ none ∧ (r = .readonly → q.currentUsage = some .writable) := by
  unfold tryLock at h
  rcases hq : q.currentUsage with _ | _ | _ <;> cases r <;> simp_all

theorem pushBlockedUsageFromTask_eq_some {q : UsageQueueInner α} {u : UsageFromTask α}
    (hq : q.currentUsage ≠ none) :
    q.pushBlockedUsageFromTask u =
      some { q with blockedUsagesFromTasks := q.blockedUsagesFromTasks ++ [u] } := by
  unfold pushBlockedUsageFromTask
  rw [if_pos (Option.isSome_iff_ne_none.mpr hq)]

/-- A pop takes one entry off the queue when it returns one. -/
theorem length_of_popUnblockedReadonlyUsageFromTask {q q' : UsageQueueInner α}
    {next : Option (UsageFromTask α)} (h : q.popUnblockedReadonlyUsageFromTask = some (next, q')) :
    q'.blockedUsagesFromTasks.length + (if next.isSome then 1 else 0) =
      q.blockedUsagesFromTasks.length := by
  unfold popUnblockedReadonlyUsageFromTask at h
  split at h
  · next t rest hq =>
    split at h
    · cases h
      simp [hq]
    · cases h
  · cases h
    rfl

end UsageQueueInner

end Agave.Scheduler
