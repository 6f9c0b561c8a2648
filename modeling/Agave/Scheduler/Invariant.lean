import Mathlib.Data.List.Nodup
import Mathlib.Logic.Relation
import Agave.Scheduler.Machine
import Agave.Lib.ListOrder

/-!
# The unified scheduler: runs and their invariant

A run is what `solana-unified-scheduler-pool` does with the state machine: it schedules tasks
created from transactions whose account keys are distinct, takes the tasks the machine returns as
runnable (from `schedule_task` or `schedule_next_unblocked_task`), and deschedules each of them
once. `Sys` keeps, beside the machine, the tasks scheduled and not yet descheduled (`active`, in
the order of `schedule_task`) and the runnable tasks the caller holds.

The invariant says, for every address, that its holders followed by its blocked queue are the
active tasks on it in schedule order; that the usage of the address agrees with its holders; that
the front of a non-empty queue waits for a holder; and that every task's `blocked_usage_count` is
the number of queues it waits in, zero exactly for the runnable ones. From it, a task waits at an
address exactly when an earlier active task conflicts with it there
(`QueueState.mem_blockedTasks_iff`).
-/

namespace Agave.Scheduler

open ListOrder UsageQueueInner SchedulingStateMachine

variable {α : Type}

/-- The tasks waiting in a queue, front first. -/
def UsageQueueInner.blockedTasks (q : UsageQueueInner α) : List (Task α) :=
  q.blockedUsagesFromTasks.map Prod.snd

/-- Two tasks conflict at an address when both lock it and one of them writes it. -/
def ConflictAt (a : α) (t u : Task α) : Prop :=
  ∃ r₁ r₂, ⟨a, r₁⟩ ∈ t.lockContexts ∧ ⟨a, r₂⟩ ∈ u.lockContexts ∧
    (r₁ = .writable ∨ r₂ = .writable)

/-- Two tasks conflict when they conflict at some address. -/
def Conflict (t u : Task α) : Prop := ∃ a, ConflictAt a t u

theorem ConflictAt.symm {a : α} {t u : Task α} (h : ConflictAt a t u) : ConflictAt a u t := by
  obtain ⟨r₁, r₂, h₁, h₂, hw⟩ := h
  exact ⟨r₂, r₁, h₂, h₁, hw.symm⟩

theorem Conflict.symm {t u : Task α} (h : Conflict t u) : Conflict u t := by
  obtain ⟨a, h⟩ := h
  exact ⟨a, h.symm⟩

/-- A task whose addresses are distinct requests each of them once. -/
theorem request_unique {t : Task α} (ht : t.addresses.Nodup) {a : α} {r₁ r₂ : RequestedUsage}
    (h₁ : ⟨a, r₁⟩ ∈ t.lockContexts) (h₂ : ⟨a, r₂⟩ ∈ t.lockContexts) : r₁ = r₂ := by
  have := List.inj_on_of_nodup_map ht h₁ h₂ rfl
  cases this
  rfl

/-! ### One address -/

/-- The usage of an address agrees with what its holders requested. -/
def UsageMatches : Option Usage → List RequestedUsage → Prop
  | none, us => us = []
  | some (.readonly n), us => 0 < n ∧ us = List.replicate n .readonly
  | some .writable, us => us = [.writable]

/-- The front of the queue waits for a holder: the address is used, and written if the front
reads. -/
def FrontBlocked (q : UsageQueueInner α) : Prop :=
  match q.blockedUsagesFromTasks with
  | [] => True
  | (r, _) :: _ => q.currentUsage ≠ none ∧ (r = .readonly → q.currentUsage = some .writable)

/-- The state of the queue of `a`, whose holders are `holders`, when `tasks` are the active tasks
on `a` in schedule order. -/
structure QueueState (a : α) (q : UsageQueueInner α) (holders : List (UsageFromTask α))
    (tasks : List (Task α)) : Prop where
  usage : UsageMatches q.currentUsage (holders.map Prod.fst)
  order : (holders ++ q.blockedUsagesFromTasks).map Prod.snd = tasks
  requests : ∀ e ∈ holders ++ q.blockedUsagesFromTasks, ⟨a, e.1⟩ ∈ e.2.lockContexts
  front : FrontBlocked q

/-- The queue of `a` is in a state some holders explain. -/
def AddressInv (a : α) (q : UsageQueueInner α) (tasks : List (Task α)) : Prop :=
  ∃ holders, QueueState a q holders tasks

section QueueState

variable {a : α} {q : UsageQueueInner α} {holders : List (UsageFromTask α)}
  {tasks : List (Task α)}

/-- A queue with waiting tasks has a holder. -/
theorem QueueState.holders_ne_nil (hq : QueueState a q holders tasks)
    (hb : q.blockedUsagesFromTasks ≠ []) : holders ≠ [] := by
  intro hnil
  obtain ⟨e, rest, he⟩ := List.exists_cons_of_ne_nil hb
  have hfront := hq.front
  have husage := hq.usage
  unfold FrontBlocked at hfront
  rw [he] at hfront
  rw [hnil] at husage
  rcases hc : q.currentUsage with _ | _ | _
  · exact hfront.1 hc
  · rw [hc] at husage
    obtain ⟨hn, hrep⟩ := husage
    rw [List.map_nil, eq_comm, List.replicate_eq_nil_iff] at hrep
    omega
  · rw [hc] at husage
    cases husage

theorem QueueState.mem_tasks {e : UsageFromTask α} (hq : QueueState a q holders tasks)
    (he : e ∈ holders ++ q.blockedUsagesFromTasks) : e.2 ∈ tasks := by
  rw [← hq.order]
  exact List.mem_map_of_mem he

/-- Holders come before the tasks waiting in the queue. -/
theorem QueueState.before_of_holder {h e : UsageFromTask α} (hq : QueueState a q holders tasks)
    (hh : h ∈ holders) (he : e ∈ q.blockedUsagesFromTasks) : Before tasks h.2 e.2 := by
  rw [← hq.order, List.map_append]
  exact before_append (List.mem_map_of_mem hh) (List.mem_map_of_mem he)

/-- A task waits at an address exactly when an earlier active task on it conflicts with it
there: the queue keeps schedule order, and its front waits for a conflicting holder. -/
theorem QueueState.mem_blockedTasks_iff (hq : QueueState a q holders tasks) (hnodup : tasks.Nodup)
    (haddr : ∀ t ∈ tasks, t.addresses.Nodup) {t : Task α} (ht : t ∈ tasks) :
    t ∈ q.blockedTasks ↔ ∃ u, Before tasks u t ∧ ConflictAt a u t := by
  constructor
  · intro hb
    obtain ⟨⟨r, t'⟩, hrt, rfl⟩ := List.mem_map.mp hb
    have hreq := hq.requests _ (List.mem_append_right _ hrt)
    have hne : q.blockedUsagesFromTasks ≠ [] := List.ne_nil_of_mem hrt
    obtain ⟨h, hh⟩ := List.exists_mem_of_ne_nil _ (hq.holders_ne_nil hne)
    cases r with
    | writable =>
      -- a write waits for any holder
      exact ⟨h.2, hq.before_of_holder hh hrt,
        h.1, .writable, hq.requests _ (List.mem_append_left _ hh), hreq, Or.inr rfl⟩
    | readonly =>
      obtain ⟨f, rest, hfr⟩ := List.exists_cons_of_ne_nil hne
      have hfront := hq.front
      unfold FrontBlocked at hfront
      rw [hfr] at hfront
      cases hf : f.1 with
      | writable =>
        -- a write at the front, which is not this read, is an earlier conflicting task
        have hfreq := hq.requests f (List.mem_append_right _ (hfr ▸ List.mem_cons_self))
        have hft : f.2 ≠ (RequestedUsage.readonly, t').2 := by
          intro heq
          have := request_unique (haddr _ (hq.mem_tasks (List.mem_append_right _ hrt)))
            (heq ▸ hfreq) hreq
          rw [hf] at this
          cases this
        have hrest : (RequestedUsage.readonly, t') ∈ rest := by
          rw [hfr] at hrt
          rcases List.mem_cons.mp hrt with heq | hmem
          · exact absurd (heq ▸ rfl) hft
          · exact hmem
        have hbefore : Before (q.blockedUsagesFromTasks.map Prod.snd) f.2 t' := by
          rw [hfr, List.map_cons]
          exact before_cons_self.mpr (List.mem_map_of_mem hrest)
        refine ⟨f.2, ?_, f.1, .readonly, hfreq, hreq, Or.inl hf⟩
        rw [← hq.order, List.map_append]
        exact hbefore.sublist (List.sublist_append_right _ _)
      | readonly =>
        -- a read at the front waits for the writer holding the address
        have hw := hfront.2 hf
        have husage := hq.usage
        rw [hw] at husage
        have hh1 : h.1 = .writable := by
          have : h.1 ∈ holders.map Prod.fst := List.mem_map_of_mem hh
          rw [show UsageMatches (some Usage.writable) (holders.map Prod.fst) ↔
            holders.map Prod.fst = [.writable] from Iff.rfl] at husage
          rw [husage] at this
          exact List.mem_singleton.mp this
        exact ⟨h.2, hq.before_of_holder hh hrt,
          h.1, .readonly, hq.requests _ (List.mem_append_left _ hh), hreq, Or.inl hh1⟩
  · rintro ⟨u, hut, r₁, r₂, hu, htr, hw⟩
    by_contra hnot
    -- `t` holds the address, so `u`, before it, holds it too
    have ht' : t ∈ holders.map Prod.snd := by
      rw [← hq.order, List.map_append] at ht
      exact (List.mem_append.mp ht).resolve_right hnot
    have hu' : u ∈ holders.map Prod.snd := by
      have hu₀ := hut.mem_left
      rw [← hq.order, List.map_append] at hu₀
      refine (List.mem_append.mp hu₀).resolve_right fun hub => ?_
      have : Before tasks t u := by
        rw [← hq.order, List.map_append]
        exact before_append ht' hub
      exact this.asymm hnodup hut
    obtain ⟨⟨s₁, u'⟩, hue, rfl⟩ := List.mem_map.mp hu'
    obtain ⟨⟨s₂, t'⟩, hte, rfl⟩ := List.mem_map.mp ht'
    have hs₁ : r₁ = s₁ := request_unique (haddr _ hut.mem_left) hu
      (hq.requests _ (List.mem_append_left _ hue))
    have hs₂ : r₂ = s₂ := request_unique (haddr _ ht) htr
      (hq.requests _ (List.mem_append_left _ hte))
    subst hs₁ hs₂
    have husage := hq.usage
    -- two holders of one address both read it, or are one writer
    rcases hc : q.currentUsage with _ | n | _ <;> rw [hc] at husage
    · rw [show UsageMatches (none : Option Usage) (holders.map Prod.fst) ↔
        holders.map Prod.fst = [] from Iff.rfl, List.map_eq_nil_iff] at husage
      rw [husage] at hue
      cases hue
    · obtain ⟨-, hrep⟩ := husage
      have h₁ := List.eq_of_mem_replicate (hrep ▸ List.mem_map_of_mem (f := Prod.fst) hue)
      have h₂ := List.eq_of_mem_replicate (hrep ▸ List.mem_map_of_mem (f := Prod.fst) hte)
      rcases hw with hw | hw
      · exact absurd (hw.symm.trans h₁) (by decide)
      · exact absurd (hw.symm.trans h₂) (by decide)
    · have hlen : holders.length = 1 := by
        have := congrArg List.length husage
        rwa [List.length_map] at this
      obtain ⟨e, he⟩ := List.length_eq_one_iff.mp hlen
      rw [he, List.mem_singleton] at hue hte
      have hsame : u' = t' := by rw [← hue] at hte; exact (Prod.ext_iff.mp hte).2.symm
      rw [hsame] at hut
      exact hut.irrefl hnodup

/-- With no active task on it, the queue is as `UsageQueue::default()` made it. -/
theorem QueueState.eq_default (hq : QueueState a q holders []) : q = default := by
  have horder := hq.order
  rw [List.map_eq_nil_iff, List.append_eq_nil_iff] at horder
  have husage := hq.usage
  rw [horder.1] at husage
  obtain ⟨c, b⟩ := q
  simp only at horder husage
  rw [horder.2]
  rcases c with _ | _ | _
  · rfl
  · obtain ⟨hn, hrep⟩ := husage
    rw [List.map_nil, eq_comm, List.replicate_eq_nil_iff] at hrep
    omega
  · cases husage

end QueueState

/-! ### The machine -/

variable [DecidableEq α]

/-- The number of queues a task waits in. -/
def blockedCount (qs : α → UsageQueueInner α) (t : Task α) : Nat :=
  (t.addresses.filter fun a => t ∈ (qs a).blockedTasks).length

theorem blockedCount_congr {qs qs' : α → UsageQueueInner α} {t : Task α}
    (h : ∀ a, t ∈ (qs' a).blockedTasks ↔ t ∈ (qs a).blockedTasks) :
    blockedCount qs' t = blockedCount qs t := by
  unfold blockedCount
  congr 1
  exact List.filter_congr fun a _ => by simp only [h a]

/-- The invariant of the machine, for the tasks `onAddress a` on each address, the active
`tasks`, and the runnable tasks the caller holds. -/
structure MachineInv (s : SchedulingStateMachine α) (onAddress : α → List (Task α))
    (tasks granted : List (Task α)) : Prop where
  queues : ∀ a, AddressInv a (s.usageQueues a) (onAddress a)
  counts : ∀ t ∈ tasks, s.blockedUsageCount t.id = blockedCount s.usageQueues t
  granted_iff : ∀ t ∈ tasks, s.blockedUsageCount t.id = 0 ↔ t ∈ granted ++ s.unblockedTaskQueue
  granted_nodup : (granted ++ s.unblockedTaskQueue).Nodup
  granted_sub : ∀ t ∈ granted ++ s.unblockedTaskQueue, t ∈ tasks

/-! ### Runs -/

/-- The state machine and what its caller knows: the active tasks in the order they were
scheduled, and the runnable tasks it holds. -/
structure Sys (α : Type) where
  machine : SchedulingStateMachine α
  active : List (Task α)
  runnable : List (Task α)

namespace Sys

/-- The active tasks on an address, in schedule order. -/
def onAddress (sys : Sys α) (a : α) : List (Task α) := sys.active.filter fun t => a ∈ t.addresses

/-- The runnable tasks: those the caller holds and those waiting in `unblocked_task_queue`. -/
def granted (sys : Sys α) : List (Task α) := sys.runnable ++ sys.machine.unblockedTaskQueue

/-- A freshly initialized machine with no task. -/
def init : Sys α := ⟨exclusivelyInitializeCurrentThreadForScheduling, [], []⟩

end Sys

/-- One call of the machine by its caller. -/
inductive Step : Sys α → Sys α → Prop
  /-- `create_task` on a transaction with distinct account keys, at an allocation no active task
  has, then `schedule_task`. -/
  | scheduleTask {sys : Sys α} {transaction : Transaction α} {id : Nat} {task : Task α}
      {created machine : SchedulingStateMachine α} {runnable : Option (Task α)}
      (hkeys : transaction.accountKeys.Nodup) (hid : id ∉ sys.active.map (·.id))
      (hcreate : sys.machine.createTask transaction id = (task, created))
      (h : created.scheduleTask task = some (runnable, machine)) :
      Step sys ⟨machine, sys.active ++ [task], sys.runnable ++ runnable.toList⟩
  /-- `schedule_next_unblocked_task`. -/
  | scheduleNextUnblockedTask {sys : Sys α} {next : Option (Task α)}
      {machine : SchedulingStateMachine α}
      (h : sys.machine.scheduleNextUnblockedTask = (next, machine)) :
      Step sys ⟨machine, sys.active, sys.runnable ++ next.toList⟩
  /-- `deschedule_task` on a runnable task. -/
  | descheduleTask {sys : Sys α} {task : Task α} {machine : SchedulingStateMachine α}
      (htask : task ∈ sys.runnable) (h : sys.machine.descheduleTask task = some machine) :
      Step sys ⟨machine, sys.active.erase task, sys.runnable.erase task⟩

/-- The states a run from a fresh machine reaches. -/
def Reachable (sys : Sys α) : Prop := Relation.ReflTransGen Step Sys.init sys

/-- The invariant of a run. -/
structure Inv (sys : Sys α) : Prop where
  machine : MachineInv sys.machine sys.onAddress sys.active sys.runnable
  ids : (sys.active.map (·.id)).Nodup
  addresses : ∀ t ∈ sys.active, t.addresses.Nodup
  activeTaskCount : sys.machine.activeTaskCount = sys.active.length
  totalTaskCount :
    sys.machine.totalTaskCount = sys.machine.activeTaskCount + sys.machine.handledTaskCount

end Agave.Scheduler
