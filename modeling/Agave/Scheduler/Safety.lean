import Agave.Scheduler.Schedule
import Agave.Scheduler.Deschedule

/-!
# The unified scheduler: what every run guarantees

Every step of a run keeps the invariant (`Inv.step`), so every reachable state has it
(`Reachable.inv`). Under it the machine is a first-come first-served scheduler over conflicts: a
task is runnable exactly when no task scheduled before it and still active conflicts with it
(`Inv.mem_granted_iff`, the refinement of the abstract discipline `ListOrder.Unblocked`). Mutual
exclusion, order on conflicts and the absence of deadlock all follow from that, and the oldest
active task is always runnable.

`Sys.call` is the pool's side of a run: each call keeps to the discipline of `Step` or is not
made, so every sequence of calls from a fresh machine is a run (`Reachable.run`).
-/

namespace Agave.Scheduler

open ListOrder UsageQueueInner SchedulingStateMachine

variable {α : Type} [DecidableEq α]

/-! ### Runs -/

omit [DecidableEq α] in
theorem ConflictAt.mem_addresses {a : α} {t u : Task α} (h : ConflictAt a t u) :
    a ∈ t.addresses ∧ a ∈ u.addresses := by
  obtain ⟨r₁, r₂, h₁, h₂, -⟩ := h
  exact ⟨List.mem_map_of_mem (f := (·.address)) h₁, List.mem_map_of_mem (f := (·.address)) h₂⟩

theorem Inv.init : Inv (Sys.init : Sys α) where
  machine :=
    { queues := fun _ => ⟨[], rfl, rfl, fun _ h => absurd h List.not_mem_nil, trivial⟩
      counts := fun _ h => absurd h List.not_mem_nil
      granted_iff := fun _ h => absurd h List.not_mem_nil
      granted_nodup := List.nodup_nil
      granted_sub := fun _ h => absurd h List.not_mem_nil }
  ids := List.nodup_nil
  addresses := fun _ h => absurd h List.not_mem_nil
  activeTaskCount := rfl
  totalTaskCount := rfl

/-- Every step of a run keeps the invariant; the machine calls it makes do not panic. -/
theorem Inv.step {sys sys' : Sys α} (hinv : Inv sys) (h : Step sys sys') : Inv sys' := by
  cases h with
  | scheduleTask hkeys hid hcreate h =>
    obtain ⟨runnable, machine, hsched, hinv'⟩ := hinv.scheduleTask hkeys hid hcreate
    rw [h, Option.some.injEq, Prod.mk.injEq] at hsched
    obtain ⟨rfl, rfl⟩ := hsched
    exact hinv'
  | scheduleNextUnblockedTask h => exact hinv.scheduleNextUnblockedTask h
  | descheduleTask htask h =>
    obtain ⟨machine, hdesched, hinv'⟩ := hinv.descheduleTask htask
    rw [h, Option.some.injEq] at hdesched
    subst hdesched
    exact hinv'

theorem Reachable.inv {sys : Sys α} (h : Reachable sys) : Inv sys := by
  induction h with
  | refl => exact Inv.init
  | tail _ hstep ih => exact ih.step hstep

/-- A call the pool makes on the machine. -/
inductive Call (α : Type) where
  | scheduleTask (transaction : Transaction α) (id : Nat)
  | scheduleNextUnblockedTask
  | descheduleTask (task : Task α)

/-- One call by the pool, which keeps to the discipline of `Step`: it schedules the task of a
transaction with distinct account keys at a fresh allocation, and deschedules only a runnable task
it holds. A call outside that discipline is not made. -/
def Sys.call (sys : Sys α) : Call α → Sys α
  | .scheduleTask transaction id =>
    if transaction.accountKeys.Nodup ∧ id ∉ sys.active.map (·.id) then
      match sys.machine.createTask transaction id with
      | (task, created) =>
        match created.scheduleTask task with
        | some (runnable, machine) =>
          ⟨machine, sys.active ++ [task], sys.runnable ++ runnable.toList⟩
        | none => sys
    else sys
  | .scheduleNextUnblockedTask =>
    match sys.machine.scheduleNextUnblockedTask with
    | (next, machine) => ⟨machine, sys.active, sys.runnable ++ next.toList⟩
  | .descheduleTask task =>
    if task ∈ sys.runnable then
      match sys.machine.descheduleTask task with
      | some machine => ⟨machine, sys.active.erase task, sys.runnable.erase task⟩
      | none => sys
    else sys

/-- The pool's calls, one after another. -/
def Sys.run (sys : Sys α) (calls : List (Call α)) : Sys α := calls.foldl Sys.call sys

/-- A call is a step of a run, or is not made. -/
theorem Sys.call_step (sys : Sys α) (c : Call α) : sys.call c = sys ∨ Step sys (sys.call c) := by
  cases c with
  | scheduleTask transaction id =>
    dsimp only [Sys.call]
    split_ifs with h
    · rcases hcreate : sys.machine.createTask transaction id with ⟨task, created⟩
      dsimp only
      rcases hsched : created.scheduleTask task with _ | ⟨runnable, machine⟩
      · exact Or.inl rfl
      · exact Or.inr (Step.scheduleTask h.1 h.2 hcreate hsched)
    · exact Or.inl rfl
  | scheduleNextUnblockedTask =>
    dsimp only [Sys.call]
    rcases hnext : sys.machine.scheduleNextUnblockedTask with ⟨next, machine⟩
    exact Or.inr (Step.scheduleNextUnblockedTask hnext)
  | descheduleTask task =>
    dsimp only [Sys.call]
    split_ifs with htask
    · rcases hdesched : sys.machine.descheduleTask task with _ | machine
      · exact Or.inl rfl
      · exact Or.inr (Step.descheduleTask htask hdesched)
    · exact Or.inl rfl

/-- Whatever the pool calls from a reachable state, it reaches a state of a run. -/
theorem Reachable.run {sys : Sys α} (h : Reachable sys) (calls : List (Call α)) :
    Reachable (sys.run calls) := by
  induction calls generalizing sys with
  | nil => exact h
  | cons c calls ih =>
    show Reachable ((sys.call c).run calls)
    apply ih
    rcases sys.call_step c with heq | hstep
    · rw [heq]
      exact h
    · exact h.tail hstep

/-! ### First come, first served -/

theorem blockedCount_eq_zero_iff {qs : α → UsageQueueInner α} {t : Task α} :
    blockedCount qs t = 0 ↔ ∀ a ∈ t.addresses, t ∉ (qs a).blockedTasks := by
  simp [blockedCount, List.filter_eq_nil_iff]

/-- Under the invariant, an active task is runnable exactly when no active task scheduled before
it conflicts with it. -/
theorem Inv.mem_granted_iff {sys : Sys α} (hinv : Inv sys) {t : Task α} (ht : t ∈ sys.active) :
    t ∈ sys.granted ↔ Unblocked Conflict sys.active t := by
  have hnd : sys.active.Nodup := hinv.ids.of_map
  -- at each address, the queue is explained by the active tasks on it
  have hqueue : ∀ a ∈ t.addresses, ∃ H, QueueState a (sys.machine.usageQueues a) H
      (sys.onAddress a) ∧ t ∈ sys.onAddress a ∧
      (t ∈ (sys.machine.usageQueues a).blockedTasks ↔
        ∃ u, Before (sys.onAddress a) u t ∧ ConflictAt a u t) := by
    intro a hat
    obtain ⟨H, hq⟩ := hinv.machine.queues a
    have htq : t ∈ sys.onAddress a := List.mem_filter.mpr ⟨ht, decide_eq_true hat⟩
    exact ⟨H, hq, htq, hq.mem_blockedTasks_iff (hnd.filter _)
      (fun v hv => hinv.addresses v (List.mem_of_mem_filter hv)) htq⟩
  rw [Sys.granted, ← hinv.machine.granted_iff t ht, hinv.machine.counts t ht,
    blockedCount_eq_zero_iff]
  constructor
  · intro hfree u hut ⟨a, hconf⟩
    obtain ⟨hau, hat⟩ := hconf.mem_addresses
    obtain ⟨H, -, -, hiff⟩ := hqueue a hat
    exact hfree a hat (hiff.mpr
      ⟨u, before_filter_iff.mpr ⟨hut, decide_eq_true hau, decide_eq_true hat⟩, hconf⟩)
  · intro hunb a hat hb
    obtain ⟨H, -, -, hiff⟩ := hqueue a hat
    obtain ⟨u, hut, hconf⟩ := hiff.mp hb
    exact hunb u (before_filter_iff.mp hut).1 ⟨a, hconf⟩

/-- The oldest active task is runnable. -/
theorem Inv.head_granted {sys : Sys α} (hinv : Inv sys) {t : Task α} {rest : List (Task α)}
    (hact : sys.active = t :: rest) : t ∈ sys.granted := by
  have ht : t ∈ sys.active := hact ▸ List.mem_cons_self
  have hnd : (t :: rest).Nodup := hact ▸ hinv.ids.of_map
  refine (hinv.mem_granted_iff ht).mpr ?_
  rw [hact]
  exact unblocked_head hnd

theorem Inv.active_eq_nil {sys : Sys α} (hinv : Inv sys)
    (hno : sys.machine.hasNoActiveTask = true) : sys.active = [] := by
  have hcount := hinv.activeTaskCount
  simp only [hasNoActiveTask, decide_eq_true_eq] at hno
  exact List.length_eq_zero_iff.mp (by omega)

/-- With no active task, every usage queue is as `UsageQueue::default()` made it. -/
theorem Inv.usageQueues_eq_default {sys : Sys α} (hinv : Inv sys)
    (hno : sys.machine.hasNoActiveTask = true) (a : α) : sys.machine.usageQueues a = default := by
  have hnil := hinv.active_eq_nil hno
  obtain ⟨H, hq⟩ := hinv.machine.queues a
  unfold Sys.onAddress at hq
  rw [hnil, List.filter_nil] at hq
  exact hq.eq_default

/-! ### What every run guarantees -/

/-- Two tasks reading address `0`, scheduled one after the other. -/
def readersRun : Sys Nat :=
  Sys.init.run [.scheduleTask ⟨[0], fun _ => false⟩ 0, .scheduleTask ⟨[0], fun _ => false⟩ 1]

/-- A task writing address `0`, then a task reading it. -/
def writerReaderRun : Sys Nat :=
  Sys.init.run [.scheduleTask ⟨[0], fun _ => true⟩ 0, .scheduleTask ⟨[0], fun _ => false⟩ 1]

/-- The run of `writerReaderRun` to its end: the writer is descheduled, which unblocks the reader,
and the reader is taken from the unblocked queue and descheduled. -/
def writerReaderRestRun : Sys Nat :=
  writerReaderRun.run [.descheduleTask ⟨0, [⟨0, .writable⟩]⟩, .scheduleNextUnblockedTask,
    .descheduleTask ⟨1, [⟨0, .readonly⟩]⟩]

/-- The machine refines first-come first-served scheduling over conflicts: in every reachable
state, an active task is runnable exactly when no active task scheduled before it conflicts with
it. -/
theorem runnable_iff_no_earlier_conflict {sys : Sys α} (h : Reachable sys) {t : Task α}
    (ht : t ∈ sys.active) : t ∈ sys.granted ↔ Unblocked Conflict sys.active t :=
  h.inv.mem_granted_iff ht

theorem runnable_iff_no_earlier_conflict_reader_behind_writer :
    Reachable writerReaderRun ∧ (⟨1, [⟨0, .readonly⟩]⟩ : Task Nat) ∈ writerReaderRun.active ∧
    ((⟨1, [⟨0, .readonly⟩]⟩ : Task Nat) ∈ writerReaderRun.granted ↔
      Unblocked Conflict writerReaderRun.active ⟨1, [⟨0, .readonly⟩]⟩) :=
  ⟨Reachable.run Relation.ReflTransGen.refl _, by decide,
    runnable_iff_no_earlier_conflict (Reachable.run Relation.ReflTransGen.refl _) (by decide)⟩

/-- Mutual exclusion: no two runnable tasks conflict. -/
theorem runnable_tasks_never_conflict {sys : Sys α} (h : Reachable sys) {t u : Task α}
    (ht : t ∈ sys.granted) (hu : u ∈ sys.granted) (hne : t ≠ u) : ¬ Conflict t u := by
  have hinv := h.inv
  have hta := hinv.machine.granted_sub t ht
  have hua := hinv.machine.granted_sub u hu
  exact Unblocked.not_rel (fun _ _ => Conflict.symm) ((hinv.mem_granted_iff hta).mp ht)
    ((hinv.mem_granted_iff hua).mp hu) hta hua hne

theorem runnable_tasks_never_conflict_two_readers :
    Reachable readersRun ∧ (⟨0, [⟨0, .readonly⟩]⟩ : Task Nat) ∈ readersRun.granted ∧
    (⟨1, [⟨0, .readonly⟩]⟩ : Task Nat) ∈ readersRun.granted ∧
    ¬ Conflict (⟨0, [⟨0, .readonly⟩]⟩ : Task Nat) ⟨1, [⟨0, .readonly⟩]⟩ :=
  ⟨Reachable.run Relation.ReflTransGen.refl _, by decide, by decide,
    runnable_tasks_never_conflict
      (show Reachable readersRun from Reachable.run Relation.ReflTransGen.refl _)
      (by decide) (by decide) (by decide)⟩

/-- Order on conflicts: a task never runs while a conflicting task scheduled before it is still
active. -/
theorem conflicting_task_waits_for_earlier {sys : Sys α} (h : Reachable sys) {A B : Task α}
    (hAB : Before sys.active A B) (hconf : Conflict A B) : B ∉ sys.granted := fun hB =>
  (h.inv.mem_granted_iff hAB.mem_right).mp hB A hAB hconf

theorem conflicting_task_waits_for_earlier_writer :
    Reachable writerReaderRun ∧
    Before writerReaderRun.active ⟨0, [⟨0, .writable⟩]⟩ ⟨1, [⟨0, .readonly⟩]⟩ ∧
    Conflict (⟨0, [⟨0, .writable⟩]⟩ : Task Nat) ⟨1, [⟨0, .readonly⟩]⟩ ∧
    (⟨1, [⟨0, .readonly⟩]⟩ : Task Nat) ∉ writerReaderRun.granted :=
  ⟨Reachable.run Relation.ReflTransGen.refl _, by unfold Before; decide,
    ⟨0, .writable, .readonly, by decide, by decide, Or.inl rfl⟩,
    conflicting_task_waits_for_earlier (A := ⟨0, [⟨0, .writable⟩]⟩)
      (Reachable.run Relation.ReflTransGen.refl _) (by unfold Before; decide) ⟨0, .writable, .readonly, by decide, by decide, Or.inl rfl⟩⟩

/-- No deadlock, and back to rest: some active task is always runnable; with no active task every
usage queue is as it was created; `deschedule_task` of a runnable task reaches none of the
`unreachable!()` arms of `unlock`, nor the panic of `unlock_usage_queues`; and the active tasks are
those scheduled and not handled. -/
theorem scheduler_never_deadlocks {sys : Sys α} (h : Reachable sys) :
    (sys.active = [] ∨ ∃ t ∈ sys.active, t ∈ sys.granted) ∧
    (sys.machine.hasNoActiveTask = true → ∀ a, sys.machine.usageQueues a = default) ∧
    (∀ task ∈ sys.runnable, ∃ machine, sys.machine.descheduleTask task = some machine) ∧
    sys.machine.activeTaskCount = sys.machine.totalTaskCount - sys.machine.handledTaskCount := by
  have hinv := h.inv
  refine ⟨?_, hinv.usageQueues_eq_default, fun task htask => ?_, ?_⟩
  · cases hact : sys.active with
    | nil => exact Or.inl rfl
    | cons t rest => exact Or.inr ⟨t, List.mem_cons_self, hinv.head_granted hact⟩
  · obtain ⟨machine, hdesched, -⟩ := hinv.descheduleTask htask
    exact ⟨machine, hdesched⟩
  · have htotal := hinv.totalTaskCount
    omega

theorem scheduler_never_deadlocks_writer_reader :
    Reachable writerReaderRun ∧
    (writerReaderRun.active = [] ∨ ∃ t ∈ writerReaderRun.active, t ∈ writerReaderRun.granted) ∧
    (writerReaderRun.machine.hasNoActiveTask = true →
      ∀ a, writerReaderRun.machine.usageQueues a = default) ∧
    (∀ task ∈ writerReaderRun.runnable,
      ∃ machine, writerReaderRun.machine.descheduleTask task = some machine) ∧
    writerReaderRun.machine.activeTaskCount =
      writerReaderRun.machine.totalTaskCount - writerReaderRun.machine.handledTaskCount :=
  ⟨Reachable.run Relation.ReflTransGen.refl _,
    scheduler_never_deadlocks (Reachable.run Relation.ReflTransGen.refl _)⟩

/-- At rest, `reinitialize` passes its `assert!`s, and leaves the machine with its usage queues as
created, its unblocked queue empty and its counters zero. -/
theorem reinitialize_at_rest {sys : Sys α} (h : Reachable sys)
    (hno : sys.machine.hasNoActiveTask = true) :
    ∃ machine, sys.machine.reinitialize = some machine ∧
      machine.usageQueues = exclusivelyInitializeCurrentThreadForScheduling.usageQueues ∧
      machine.unblockedTaskQueue = [] ∧ machine.activeTaskCount = 0 ∧
      machine.handledTaskCount = 0 ∧ machine.unblockedTaskCount = 0 ∧
      machine.totalTaskCount = 0 := by
  have hinv := h.inv
  have hnil := hinv.active_eq_nil hno
  -- a runnable task is active, so the unblocked queue is empty
  have hempty : sys.machine.unblockedTaskQueue = [] := by
    refine List.eq_nil_iff_forall_not_mem.mpr fun t ht => ?_
    have hact := hinv.machine.granted_sub t (List.mem_append_right _ ht)
    rw [hnil] at hact
    exact List.not_mem_nil hact
  refine ⟨{ sys.machine with
      activeTaskCount := 0
      handledTaskCount := 0
      unblockedTaskCount := 0
      totalTaskCount := 0 },
    ?_, funext (hinv.usageQueues_eq_default hno), hempty, rfl, rfl, rfl, rfl⟩
  unfold reinitialize
  rw [if_pos ⟨hno, by rw [hempty]; rfl⟩]

theorem reinitialize_at_rest_writer_reader :
    Reachable writerReaderRestRun ∧ writerReaderRestRun.machine.hasNoActiveTask = true ∧
    ∃ machine, writerReaderRestRun.machine.reinitialize = some machine ∧
      machine.usageQueues = exclusivelyInitializeCurrentThreadForScheduling.usageQueues ∧
      machine.unblockedTaskQueue = [] ∧ machine.activeTaskCount = 0 ∧
      machine.handledTaskCount = 0 ∧ machine.unblockedTaskCount = 0 ∧
      machine.totalTaskCount = 0 :=
  ⟨(Reachable.run Relation.ReflTransGen.refl _).run _, by decide +kernel,
    reinitialize_at_rest ((Reachable.run Relation.ReflTransGen.refl _).run _) (by decide +kernel)⟩

/-- `schedule_task`, on the task `create_task` makes of a transaction with distinct account keys at
a fresh allocation, does not panic in any reachable state: the `assert_matches!` of
`push_blocked_usage_from_task` holds. -/
theorem scheduleTask_never_panics {sys : Sys α} (h : Reachable sys) {transaction : Transaction α}
    {id : Nat} (hkeys : transaction.accountKeys.Nodup) (hid : id ∉ sys.active.map (·.id)) :
    ∃ runnable machine, (sys.machine.createTask transaction id).2.scheduleTask
      (sys.machine.createTask transaction id).1 = some (runnable, machine) := by
  obtain ⟨runnable, machine, hsched, -⟩ := h.inv.scheduleTask hkeys hid rfl
  exact ⟨runnable, machine, hsched⟩

theorem scheduleTask_never_panics_third_writer :
    Reachable writerReaderRun ∧ [0].Nodup ∧ 2 ∉ writerReaderRun.active.map (·.id) ∧
    ∃ runnable machine, (writerReaderRun.machine.createTask ⟨[0], fun _ => true⟩ 2).2.scheduleTask
      (writerReaderRun.machine.createTask ⟨[0], fun _ => true⟩ 2).1 = some (runnable, machine) :=
  ⟨Reachable.run Relation.ReflTransGen.refl _, by decide, by decide,
    scheduleTask_never_panics (Reachable.run Relation.ReflTransGen.refl _) (by decide)
      (by decide)⟩

end Agave.Scheduler
