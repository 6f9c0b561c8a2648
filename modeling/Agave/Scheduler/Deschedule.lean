import Agave.Scheduler.Unblock

/-!
# The unified scheduler: `deschedule_task` keeps the invariant

`unlock_usage_queues` visits each address of the descheduled task once. The task holds every one
of them, so `unlock` lets go of it there, and the `while let` loop hands the address to the entries
at the front of its queue (`QueueState.unlock`). Handing an address over keeps the machine's
bookkeeping (`MachineInv.grant`): each task it goes to waits in one queue less and has one blocked
usage less, and joins `unblocked_task_queue` when that was its last one. `UnlockInv` is the
invariant of the `for` loop, over the addresses it has visited.
-/

namespace Agave.Scheduler

open ListOrder UsageQueueInner SchedulingStateMachine

variable {α : Type}

section Split

variable {q q' : UsageQueueInner α} {P : List (UsageFromTask α)}

theorem mem_blockedTasks_of_split (hsplit : P ++ q'.blockedUsagesFromTasks = q.blockedUsagesFromTasks)
    {t : Task α} (ht : t ∈ P.map Prod.snd) : t ∈ q.blockedTasks := by
  rw [blockedTasks, ← hsplit, List.map_append]
  exact List.mem_append_left _ ht

/-- The entries handed the address leave its queue, and the others stay. -/
theorem mem_blockedTasks_split_iff (hsplit : P ++ q'.blockedUsagesFromTasks = q.blockedUsagesFromTasks)
    (hnd : q.blockedTasks.Nodup) {t : Task α} :
    t ∈ q'.blockedTasks ↔ t ∈ q.blockedTasks ∧ t ∉ P.map Prod.snd := by
  have hmap : q.blockedTasks = P.map Prod.snd ++ q'.blockedTasks := by
    rw [blockedTasks, blockedTasks, ← hsplit, List.map_append]
  rw [hmap] at hnd ⊢
  constructor
  · intro ht
    exact ⟨List.mem_append_right _ ht, fun hP => (List.nodup_append.mp hnd).2.2 t hP t ht rfl⟩
  · rintro ⟨ht, hP⟩
    exact (List.mem_append.mp ht).resolve_left hP

end Split

variable [DecidableEq α]

theorem blockedCount_pos {qs : α → UsageQueueInner α} {t : Task α} {a : α}
    (ha : a ∈ t.addresses) (hb : t ∈ (qs a).blockedTasks) : 0 < blockedCount qs t :=
  List.length_pos_of_mem (List.mem_filter.mpr ⟨ha, decide_eq_true hb⟩)

/-- A task that leaves one queue it waited in waits in one queue less. -/
theorem blockedCount_update {qs : α → UsageQueueInner α} {a : α} {q : UsageQueueInner α}
    {t : Task α} (hl : t.addresses.Nodup) (ha : a ∈ t.addresses) (hin : t ∈ (qs a).blockedTasks)
    (hout : t ∉ q.blockedTasks) :
    blockedCount (Function.update qs a q) t + 1 = blockedCount qs t := by
  unfold blockedCount
  refine length_filter_flip hl ha (decide_eq_true hin) ?_ fun b _ hb => ?_
  · simpa using hout
  · rw [Function.update_of_ne hb]

section Grant

variable {s : SchedulingStateMachine α} {f : α → List (Task α)} {tasks granted : List (Task α)}
  {a : α} {q : UsageQueueInner α} {P : List (UsageFromTask α)}

/-- Handing the address `a` to the entries `P` at the front of its queue, as the `while let` loop
does, keeps the machine's invariant: `unblockTasks` counts down the tasks handed the address, and
the queue of `a` is left in a state that its new tasks `f' a` explain. -/
theorem MachineInv.grant (f' : α → List (Task α)) (hm : MachineInv s f tasks granted) (hids : (tasks.map (·.id)).Nodup)
    (haddr : ∀ t ∈ tasks, t.addresses.Nodup)
    (hsplit : P ++ q.blockedUsagesFromTasks = (s.usageQueues a).blockedUsagesFromTasks)
    (hnd : (s.usageQueues a).blockedTasks.Nodup) (hP : ∀ t ∈ P.map Prod.snd, t ∈ tasks)
    (hPa : ∀ t ∈ P.map Prod.snd, a ∈ t.addresses) (hq : AddressInv a q (f' a))
    (hf : ∀ b, b ≠ a → f' b = f b) :
    ∃ s', unblockTasks s (P.map Prod.snd) = some s' ∧
      MachineInv { s' with usageQueues := Function.update s'.usageQueues a q } f' tasks granted ∧
      s'.usageQueues = s.usageQueues ∧ s'.activeTaskCount = s.activeTaskCount ∧
      s'.handledTaskCount = s.handledTaskCount ∧ s'.totalTaskCount = s.totalTaskCount := by
  -- each task handed the address waits in its queue, so has a blocked usage to count down
  have hPnd : (P.map Prod.snd).Nodup := by
    rw [blockedTasks, ← hsplit, List.map_append] at hnd
    exact hnd.of_append_left
  have hPids : ((P.map Prod.snd).map (·.id)).Nodup :=
    hPnd.map_on fun x hx y hy h => List.inj_on_of_nodup_map hids (hP x hx) (hP y hy) h
  have hpos : ∀ t ∈ P.map Prod.snd, 0 < s.blockedUsageCount t.id := fun t ht => by
    rw [hm.counts t (hP t ht)]
    exact blockedCount_pos (hPa t ht) (mem_blockedTasks_of_split hsplit ht)
  obtain ⟨s', hrun, hqs, hcounts, hunb, hact, hhand, htot⟩ := unblockTasks_spec _ s hPids hpos
  -- a task is handed the address exactly when its id is among those counted down
  have hmemid : ∀ t ∈ tasks, t.id ∈ (P.map Prod.snd).map (·.id) ↔ t ∈ P.map Prod.snd := by
    intro t ht
    refine ⟨fun h => ?_, List.mem_map_of_mem⟩
    obtain ⟨u, hu, hid⟩ := List.mem_map.mp h
    rwa [List.inj_on_of_nodup_map hids (hP u hu) ht hid] at hu
  have hold : ∀ t ∈ tasks, t ∈ P.map Prod.snd → t ∉ granted ++ s.unblockedTaskQueue :=
    fun t ht htP hg => (Nat.pos_iff_ne_zero.mp (hpos t htP)) ((hm.granted_iff t ht).mpr hg)
  refine ⟨s', hrun, ⟨fun b => ?_, fun t ht => ?_, fun t ht => ?_, ?_, fun t ht => ?_⟩, hqs, hact,
    hhand, htot⟩
  · -- the queue of `a` is the new one, and the others are untouched
    show AddressInv b (Function.update s'.usageQueues a q b) (f' b)
    by_cases hb : b = a
    · subst hb
      rw [Function.update_self]
      exact hq
    · rw [Function.update_of_ne hb, hqs, hf b hb]
      exact hm.queues b
  · show s'.blockedUsageCount t.id = blockedCount (Function.update s'.usageQueues a q) t
    rw [hcounts, hqs, hm.counts t ht]
    by_cases htP : t ∈ P.map Prod.snd
    · -- handed the address: one queue and one blocked usage less
      rw [if_pos ((hmemid t ht).mpr htP)]
      have := blockedCount_update (q := q) (haddr t ht) (hPa t htP)
        (mem_blockedTasks_of_split hsplit htP)
        fun h => ((mem_blockedTasks_split_iff hsplit hnd).mp h).2 htP
      omega
    · rw [if_neg (mt (hmemid t ht).mp htP)]
      refine (blockedCount_congr fun b => ?_).symm
      by_cases hb : b = a
      · subst hb
        rw [Function.update_self, mem_blockedTasks_split_iff hsplit hnd]
        exact and_iff_left htP
      · rw [Function.update_of_ne hb]
  · show s'.blockedUsageCount t.id = 0 ↔ t ∈ granted ++ s'.unblockedTaskQueue
    rw [hcounts, hunb, ← List.append_assoc, List.mem_append, List.mem_filter]
    by_cases htP : t ∈ P.map Prod.snd
    · -- counted down: runnable exactly when that was its last blocked usage
      rw [if_pos ((hmemid t ht).mpr htP)]
      have := hpos t htP
      simp only [hold t ht htP, false_or, htP, true_and, decide_eq_true_eq]
      omega
    · rw [if_neg (mt (hmemid t ht).mp htP), hm.granted_iff t ht]
      simp [htP]
  · show (granted ++ s'.unblockedTaskQueue).Nodup
    rw [hunb, ← List.append_assoc]
    refine List.nodup_append.mpr ⟨hm.granted_nodup, hPnd.filter _, fun x hx y hy hxy => ?_⟩
    subst hxy
    exact hold x (hP x (List.mem_of_mem_filter hy)) (List.mem_of_mem_filter hy) hx
  · change t ∈ granted ++ s'.unblockedTaskQueue at ht
    rw [hunb, ← List.append_assoc, List.mem_append] at ht
    rcases ht with ht | ht
    · exact hm.granted_sub t ht
    · exact hP t (List.mem_of_mem_filter ht)

end Grant

/-- The invariant of the `for` loop of `unlock_usage_queues` when `task` is descheduled from the
run `sys`, once the loop has visited the addresses `done`: the queues it visited no longer have the
task, and the task waits in no queue. -/
structure UnlockInv (sys : Sys α) (task : Task α) (done : List α) (s : SchedulingStateMachine α) :
    Prop where
  machine : MachineInv s
    (fun a => if a ∈ done then (sys.onAddress a).filter (· != task) else sys.onAddress a)
    (sys.active.filter (· != task)) (sys.runnable.erase task)
  released : ∀ a, task ∉ (s.usageQueues a).blockedTasks

/-- Before the loop: a runnable task waits nowhere, and dropping it leaves the bookkeeping of the
other tasks as it was. -/
theorem UnlockInv.start {sys : Sys α} (hinv : Inv sys) {task : Task α}
    (htask : task ∈ sys.runnable) (n m : Nat) :
    UnlockInv sys task [] { sys.machine with activeTaskCount := n, handledTaskCount := m } := by
  have hm := hinv.machine
  have hnodup := List.nodup_append.mp hm.granted_nodup
  have hnotU : task ∉ sys.machine.unblockedTaskQueue := fun h => hnodup.2.2 task htask task h rfl
  have hact : task ∈ sys.active := hm.granted_sub task (List.mem_append_left _ htask)
  have hzero : sys.machine.blockedUsageCount task.id = 0 :=
    (hm.granted_iff task hact).mpr (List.mem_append_left _ htask)
  refine ⟨⟨fun a => ?_, fun t ht => hm.counts t (List.mem_of_mem_filter ht), fun t ht => ?_,
    hm.granted_nodup.sublist (List.erase_sublist.append_right _), fun t ht => ?_⟩, fun a h => ?_⟩
  · simpa using hm.queues a
  · have hne : t ≠ task := by simpa using (List.mem_filter.mp ht).2
    rw [hm.granted_iff t (List.mem_of_mem_filter ht), List.mem_append, List.mem_append,
      List.mem_erase_of_ne hne]
  · -- what the caller still holds, and the unblocked queue, are active tasks other than `task`
    change t ∈ sys.runnable.erase task ++ sys.machine.unblockedTaskQueue at ht
    rcases List.mem_append.mp ht with ht | ht
    · obtain ⟨hne, hrun⟩ := (List.Nodup.mem_erase_iff hnodup.1).mp ht
      exact List.mem_filter.mpr ⟨hm.granted_sub t (List.mem_append_left _ hrun), bne_iff_ne.mpr hne⟩
    · exact List.mem_filter.mpr ⟨hm.granted_sub t (List.mem_append_right _ ht),
        bne_iff_ne.mpr fun hne => hnotU (hne ▸ ht)⟩
  · -- a task waiting somewhere has a blocked usage
    change task ∈ (sys.machine.usageQueues a).blockedTasks at h
    obtain ⟨H, hq⟩ := hm.queues a
    obtain ⟨e, he, hte⟩ := List.mem_map.mp h
    have hon := hq.mem_tasks (List.mem_append_right _ he)
    rw [hte] at hon
    have ha : a ∈ task.addresses := by simpa using (List.mem_filter.mp hon).2
    have hpos := blockedCount_pos ha h
    rw [← hm.counts task hact, hzero] at hpos
    exact Nat.lt_irrefl 0 hpos

/-- One turn of the `for` loop, at an address of `task` it has not visited: `unlock` and the
`while let` loop do not panic, and the invariant holds with the address visited. -/
theorem UnlockInv.unlock {sys : Sys α} (hinv : Inv sys) {task : Task α} {done : List α}
    {s : SchedulingStateMachine α} (hui : UnlockInv sys task done s) (htask : task ∈ sys.active)
    {c : LockContext α} (hc : c ∈ task.lockContexts) (hcd : c.address ∉ done) :
    ∃ next q' s' q'', (s.usageQueues c.address).unlock c.requestedUsage = some (next, q') ∧
      unblockLoop s q' next = some (s', q'') ∧
      UnlockInv sys task (done ++ [c.address])
        { s' with usageQueues := Function.update s'.usageQueues c.address q'' } ∧
      s'.activeTaskCount = s.activeTaskCount ∧ s'.handledTaskCount = s.handledTaskCount ∧
      s'.totalTaskCount = s.totalTaskCount := by
  obtain ⟨a, r⟩ := c
  dsimp only at hcd ⊢
  have hm := hui.machine
  have hon : (sys.onAddress a).Nodup := hinv.ids.of_map.filter _
  obtain ⟨H, hq⟩ : AddressInv a (s.usageQueues a) (sys.onAddress a) := by
    simpa [hcd] using hm.queues a
  have hTt : task ∈ sys.onAddress a :=
    List.mem_filter.mpr ⟨htask, decide_eq_true (List.mem_map_of_mem (f := (·.address)) hc)⟩
  obtain ⟨next, q', P, q'', hunlock, hloop, hsplit, hq''⟩ :=
    hq.unlock hon (hinv.addresses task htask) hc hTt (hui.released a)
  have hnd : (s.usageQueues a).blockedTasks.Nodup := by
    rw [← hq.order, List.map_append] at hon
    exact hon.of_append_right
  -- the tasks handed the address waited in its queue: active tasks on `a` other than `task`
  have hP : ∀ t ∈ P.map Prod.snd, t ∈ sys.active.filter (· != task) := by
    intro t ht
    have hb := mem_blockedTasks_of_split hsplit ht
    obtain ⟨e, he, rfl⟩ := List.mem_map.mp hb
    exact List.mem_filter.mpr ⟨List.mem_of_mem_filter (hq.mem_tasks (List.mem_append_right _ he)),
      bne_iff_ne.mpr fun h => hui.released a (h ▸ hb)⟩
  have hPa : ∀ t ∈ P.map Prod.snd, a ∈ t.addresses := by
    intro t ht
    obtain ⟨e, he, rfl⟩ := List.mem_map.mp (mem_blockedTasks_of_split hsplit ht)
    exact List.mem_map_of_mem (f := (·.address)) (hq.requests e (List.mem_append_right _ he))
  obtain ⟨s', hrun, hm', hqs, hact, hhand, htot⟩ := hm.grant
    (fun b => if b ∈ done ++ [a] then (sys.onAddress b).filter (· != task) else sys.onAddress b)
    (hinv.ids.sublist (List.filter_sublist.map _))
    (fun t ht => hinv.addresses t (List.mem_of_mem_filter ht)) hsplit hnd hP hPa
    ⟨_, by simp only [List.mem_append, List.mem_singleton, or_true, if_true]; exact hq''⟩
    (fun b hb => by simp [hb])
  refine ⟨next, q', s', q'', hunlock, by rw [hloop s, hrun]; rfl, ⟨hm', fun b hb => ?_⟩, hact,
    hhand, htot⟩
  -- `task` left the queue of `a` as a holder, and waits nowhere else
  change task ∈ (Function.update s'.usageQueues a q'' b).blockedTasks at hb
  by_cases hba : b = a
  · subst hba
    rw [Function.update_self, mem_blockedTasks_split_iff hsplit hnd] at hb
    exact hui.released b hb.1
  · rw [Function.update_of_ne hba, hqs] at hb
    exact hui.released b hb

/-- The `for` loop over distinct addresses of `task` that it has not visited yet. -/
theorem UnlockInv.loop {sys : Sys α} (hinv : Inv sys) {task : Task α} (htask : task ∈ sys.active) :
    ∀ (cs : List (LockContext α)) (done : List α) (s : SchedulingStateMachine α),
      UnlockInv sys task done s → (∀ c ∈ cs, c ∈ task.lockContexts) →
      (cs.map (·.address)).Nodup → (∀ c ∈ cs, c.address ∉ done) →
      ∃ s', unlockUsageQueuesLoop cs s = some s' ∧
        UnlockInv sys task (done ++ cs.map (·.address)) s' ∧
        s'.activeTaskCount = s.activeTaskCount ∧ s'.handledTaskCount = s.handledTaskCount ∧
        s'.totalTaskCount = s.totalTaskCount := by
  intro cs
  induction cs with
  | nil =>
    intro done s hui _ _ _
    exact ⟨s, rfl, by simpa using hui, rfl, rfl, rfl⟩
  | cons c cs ih =>
    intro done s hui hcs hnd hdone
    rw [List.map_cons, List.nodup_cons] at hnd
    obtain ⟨next, q', s', q'', hunlock, hloop, hui', hact, hhand, htot⟩ :=
      hui.unlock hinv htask (hcs c List.mem_cons_self) (hdone c List.mem_cons_self)
    -- the rest of the loop visits addresses neither done nor this one
    have hfresh : ∀ c' ∈ cs, c'.address ∉ done ++ [c.address] := by
      intro c' hc' h
      rcases List.mem_append.mp h with h | h
      · exact hdone c' (List.mem_cons_of_mem _ hc') h
      · exact hnd.1 (List.mem_singleton.mp h ▸ List.mem_map_of_mem (f := (·.address)) hc')
    obtain ⟨s'', hrun, hui'', hact', hhand', htot'⟩ :=
      ih _ _ hui' (fun c' hc' => hcs c' (List.mem_cons_of_mem _ hc')) hnd.2 hfresh
    refine ⟨s'', ?_, ?_, hact'.trans hact, hhand'.trans hhand, htot'.trans htot⟩
    · simp only [unlockUsageQueuesLoop, hunlock, hloop]
      exact hrun
    · simpa using hui''

/-- After the loop over every address of `task`: the machine's invariant for the run without
`task`. -/
theorem UnlockInv.finish {sys : Sys α} (hinv : Inv sys) {task : Task α}
    {s : SchedulingStateMachine α} (hui : UnlockInv sys task task.addresses s)
    (machine : SchedulingStateMachine α) :
    MachineInv s (Sys.onAddress ⟨machine, sys.active.erase task, sys.runnable.erase task⟩)
      (sys.active.erase task) (sys.runnable.erase task) := by
  have herase : sys.active.erase task = sys.active.filter (· != task) :=
    hinv.ids.of_map.erase_eq_filter task
  -- every address has the active tasks on it but `task`
  have hon : (fun a => if a ∈ task.addresses then (sys.onAddress a).filter (· != task)
      else sys.onAddress a) =
      Sys.onAddress ⟨machine, sys.active.erase task, sys.runnable.erase task⟩ := by
    funext a
    simp only [Sys.onAddress, herase, List.filter_filter]
    split_ifs with ha
    · exact List.filter_congr fun t _ => Bool.and_comm _ _
    · refine List.filter_congr fun t _ => ?_
      by_cases hta : a ∈ t.addresses
      · have hne : t ≠ task := fun h => ha (h ▸ hta)
        simp [hta, hne]
      · simp [hta]
  have hm := hui.machine
  rw [hon, ← herase] at hm
  exact hm

/-- `deschedule_task` on a runnable task does not panic, and keeps the invariant. -/
theorem Inv.descheduleTask {sys : Sys α} (hinv : Inv sys) {task : Task α}
    (htask : task ∈ sys.runnable) :
    ∃ machine, sys.machine.descheduleTask task = some machine ∧
      Inv ⟨machine, sys.active.erase task, sys.runnable.erase task⟩ := by
  have hact : task ∈ sys.active := hinv.machine.granted_sub task (List.mem_append_left _ htask)
  have hpos : 0 < sys.machine.activeTaskCount :=
    hinv.activeTaskCount ▸ List.length_pos_of_mem hact
  obtain ⟨s, hloop, hui, hsact, hshand, hstot⟩ :=
    UnlockInv.loop hinv hact task.lockContexts [] _
      (UnlockInv.start hinv htask (sys.machine.activeTaskCount - 1)
        (sys.machine.handledTaskCount + 1))
      (fun _ h => h) (hinv.addresses task hact) (fun _ _ h => List.not_mem_nil h)
  have hdec : ShortCounter.decrement sys.machine.activeTaskCount =
      some (sys.machine.activeTaskCount - 1) := ShortCounter.decrement_eq_some.mpr ⟨hpos, rfl⟩
  rw [List.nil_append] at hui
  refine ⟨s, ?_, hui.finish hinv s, ?_, ?_, ?_, ?_⟩
  · rw [SchedulingStateMachine.descheduleTask, hdec, Option.bind_some]
    exact hloop
  · exact hinv.ids.sublist (List.erase_sublist.map _)
  · exact fun t ht => hinv.addresses t (List.mem_of_mem_erase ht)
  · show s.activeTaskCount = (sys.active.erase task).length
    rw [hsact, List.length_erase_of_mem hact, ← hinv.activeTaskCount]
  · show s.totalTaskCount = s.activeTaskCount + s.handledTaskCount
    have htotal := hinv.totalTaskCount
    rw [hstot, hsact, hshand]
    dsimp only at htotal ⊢
    omega

end Agave.Scheduler
