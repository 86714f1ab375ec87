import Stanix.Task.Sleep
import Stanix.Base.Tasks

/-!
# The scheduler

The run queue of `kernel/task/scheduler.c` on one processor. Whether a task is queued is told by its
`run_queue` pointer, which a task keeps while it runs and which the next task clears after a switch; a
task that is preempted is queued whatever its status is. The sections that run with interrupts disabled
are the steps: `yield` up to the end of `finish_yield` is one, and so is `unblock_task_reason`.

`scheduler_sound` is about every run from the boot task on, in which the idle task only executes its loop
(`scheduler.c:76`) and, being on no queue of waiters, is only woken by signals.
-/

namespace Stanix

open Function List

/-- The run queue, and of each task its `run_queue` pointer (whether it is set) and the fields that
blocking uses. A task that does not exist yet is blocked, as a new one is. -/
structure Sched (τ : Type _) where
  task : τ → SchedTask
  runQueue : τ → Bool
  queue : List τ
  current : τ

/-- The sections that run with interrupts disabled: those of the current task, and the waking of a task
by the current one or by an interrupt. `block_prepare_interruptible` is followed by a wake-up of the
task itself if signals wait. -/
inductive SchedStep (τ : Type _)
  | blockPrepare
  | blockPrepareInterruptible
  | blockCancel
  | yield (preempt : Bool)
  | unblock (t : τ) (reason : WakeupReason)

namespace Sched

variable {τ : Type _} [DecidableEq τ]

/-- Source: `run_queue_push_task` (`scheduler.c:46`). -/
def runQueuePushTask (s : Sched τ) (t : τ) : Sched τ :=
  { s with queue := s.queue ++ [t], runQueue := update s.runQueue t true }

/-- The task takes other values. -/
def setTask (s : Sched τ) (t : τ) (task : SchedTask) : Sched τ :=
  { s with task := update s.task t task }

/-- The first task of the queue, or the idle task, becomes the current one. Source: `schedule` and
`run_queue_pop_task` (`scheduler.c:186`, `:51`), and the switch in `yield`. -/
def schedule (s : Sched τ) (idle : τ) : Sched τ :=
  match s.queue with
  | [] => { s with current := idle }
  | t :: queue => { s with current := t, queue }

/-- Source: `finish_yield` (`scheduler.c:274`). -/
def finishYield (s : Sched τ) (prev : τ) (prevIsOnQueue : Bool) : Sched τ :=
  if prevIsOnQueue then s else { s with runQueue := update s.runQueue prev false }

/-- Source: `yield` (`scheduler.c:283`), from the section without interrupts on. -/
def yield (s : Sched τ) (idle : τ) (preempt : Bool) : Sched τ :=
  let onQueue := preempt || decide ((s.task s.current).status = .running)
  let pushed := if onQueue then s.runQueuePushTask s.current else s
  (pushed.schedule idle).finishYield s.current onQueue

/-- Source: `unblock_task_reason` (`scheduler.c:442`). -/
def unblockTaskReason (s : Sched τ) (t : τ) (reason : WakeupReason) : Bool × Sched τ :=
  match (s.task t).unblockTaskReason reason with
  | (false, _) => (false, s)
  | (true, task) =>
    let s := s.setTask t task
    (true, if s.runQueue t then s else s.runQueuePushTask t)

/-- One step. -/
def step (idle : τ) (s : Sched τ) : SchedStep τ → Sched τ
  | .blockPrepare => s.setTask s.current (s.task s.current).blockPrepare
  | .blockPrepareInterruptible =>
    s.setTask s.current ((s.task s.current).blockPrepareInterruptible false)
  | .blockCancel => s.setTask s.current (s.task s.current).blockCancel
  | .yield preempt => s.yield idle preempt
  | .unblock t reason => (s.unblockTaskReason t reason).2

/-- The state that `init_task` (`scheduler.c:123`) leaves: the boot task runs. -/
def start (boot : τ) : Sched τ where
  task t := { status := if t = boot then .running else .blocked }
  runQueue t := decide (t = boot)
  queue := []
  current := boot

/-- What the idle task does, and what is done to it. -/
def Allowed (idle : τ) (s : Sched τ) : SchedStep τ → Prop
  | .blockPrepareInterruptible | .blockCancel => s.current ≠ idle
  | .unblock t reason => t = idle → reason = .signal
  | _ => True

/-- A step that is not the beginning of a sleep of the task. -/
def KeepsAwake (t : τ) (s : Sched τ) : SchedStep τ → Prop
  | .blockPrepare | .blockPrepareInterruptible => s.current ≠ t
  | _ => True

/-- A task that runs or is going to. -/
def Ready (s : Sched τ) (t : τ) : Prop := t = s.current ∨ t ∈ s.queue

/-- What holds in every state. The `run_queue` pointer is that of the tasks on the queue and of the
current one, which the idle task may lack. -/
structure Inv (idle : τ) (s : Sched τ) : Prop where
  nodup : s.queue.Nodup
  current : s.current ∉ s.queue
  queued : ∀ t ∈ s.queue, s.runQueue t = true
  ready : ∀ t, s.runQueue t = true → s.Ready t
  held : s.current ≠ idle → s.runQueue s.current = true
  running : ∀ t ≠ idle, (s.task t).status = .running → s.Ready t
  idle : (s.task idle).status ≠ .interruptible

variable {idle : τ} {s : Sched τ} {t : τ} {task : SchedTask} {reason : WakeupReason}

omit [DecidableEq τ] in
theorem Inv.schedule (hnodup : s.queue.Nodup) (hset : ∀ t, s.runQueue t = true ↔ t ∈ s.queue)
    (hrunning : ∀ t ≠ idle, (s.task t).status = .running → t ∈ s.queue)
    (hidle : (s.task idle).status ≠ .interruptible) : (s.schedule idle).Inv idle := by
  unfold Sched.schedule
  split
  · next hqueue =>
    rw [hqueue] at hset hrunning
    exact ⟨hnodup, hqueue ▸ not_mem_nil, fun t ht => (hset t).2 (hqueue ▸ ht),
      fun t ht => absurd ((hset t).1 ht) not_mem_nil, fun h => absurd rfl h,
      fun t hne ht => absurd (hrunning t hne ht) not_mem_nil, hidle⟩
  next q rest hqueue =>
  rw [hqueue] at hset hrunning hnodup
  obtain ⟨hq, hrest⟩ := nodup_cons.1 hnodup
  exact ⟨hrest, hq, fun t ht => (hset t).2 (mem_cons_of_mem q ht),
    fun t ht => mem_cons.1 ((hset t).1 ht), fun _ => (hset q).2 mem_cons_self,
    fun t hne ht => mem_cons.1 (hrunning t hne ht), hidle⟩

section

variable (h : s.Inv idle)

include h

omit [DecidableEq τ] in
theorem Inv.runQueue_iff (hne : t ≠ s.current) : s.runQueue t = true ↔ t ∈ s.queue :=
  ⟨fun ht => (h.ready t ht).resolve_left hne, h.queued t⟩

/-- A switch, with the old task on the queue or not. -/
theorem Inv.yield (preempt : Bool) : (s.yield idle preempt).Inv idle := by
  unfold Sched.yield
  cases honQueue : preempt || decide ((s.task s.current).status = .running) with
  | true =>
    refine Inv.schedule (s := s.runQueuePushTask s.current) ?_ (fun t => ?_) (fun t hne ht => ?_) h.idle
    · exact h.nodup.append (nodup_singleton _) (disjoint_singleton.2 h.current)
    · by_cases ht : t = s.current
      · simp [runQueuePushTask, ht]
      simp [runQueuePushTask, ht, h.runQueue_iff ht]
    exact mem_append.2 ((h.running t hne ht).symm.imp_right mem_singleton.2)
  | false => ?_
  obtain ⟨-, hstatus⟩ := Bool.or_eq_false_iff.1 honQueue
  have hswap : (s.schedule idle).finishYield s.current false =
      (s.finishYield s.current false).schedule idle := by
    unfold Sched.schedule finishYield
    cases s.queue <;> rfl
  simp only [Bool.false_eq_true, if_false]
  rw [hswap]
  refine Inv.schedule h.nodup (fun t => ?_) (fun t hne ht => ?_) h.idle
  · by_cases ht : t = s.current
    · simp [finishYield, ht, h.current]
    simp [finishYield, ht, h.runQueue_iff ht]
  refine (h.running t hne ht).resolve_left fun heq => ?_
  exact of_decide_eq_false hstatus (heq ▸ ht)

theorem Inv.setTask (hready : task.status = .running → s.Ready t)
    (hidle : t = idle → task.status ≠ .interruptible) : (s.setTask t task).Inv idle := by
  refine { h with running := fun t' hne ht' => ?_, idle := ?_ }
  · by_cases heq : t' = t
    · subst heq
      exact hready (by simpa [Sched.setTask] using ht')
    exact h.running t' hne (by simpa [Sched.setTask, heq] using ht')
  by_cases heq : idle = t
  · simpa [Sched.setTask, heq] using hidle heq.symm
  simpa [Sched.setTask, heq] using h.idle

theorem Inv.runQueuePushTask (hset : ¬ s.runQueue t = true) (hne : s.current ≠ t) :
    (s.runQueuePushTask t).Inv idle := by
  have hqueue : t ∉ s.queue := fun ht => hset (h.queued t ht)
  unfold Sched.runQueuePushTask
  refine ⟨?_, ?_, fun t' ht' => ?_, fun t' ht' => ?_, fun hidle => ?_, fun t' hne' ht' => ?_, h.idle⟩
  · exact h.nodup.append (nodup_singleton _) (disjoint_singleton.2 hqueue)
  · simp [h.current, hne]
  · by_cases heq : t' = t
    · simp [heq]
    simpa [heq] using h.queued t' (by simpa [heq] using ht')
  · by_cases heq : t' = t
    · exact .inr (by simp [heq])
    exact (h.ready t' (by simpa [heq] using ht')).imp_right (mem_append_left _)
  · simpa [hne] using h.held hidle
  exact (h.running t' hne' ht').imp_right (mem_append_left _)

end

omit [DecidableEq τ] in
theorem unblocked (hrun : (s.task t).unblockTaskReason reason = (true, task)) :
    task.status = .running ∧ (reason = .signal → (s.task t).status = .interruptible) := by
  unfold SchedTask.unblockTaskReason at hrun
  split at hrun
  · cases hrun
  split at hrun
  · cases hrun
  next h =>
  obtain rfl := (Prod.mk.inj hrun).2
  exact ⟨rfl, fun hr => not_not.1 fun hs => h ⟨hr, hs⟩⟩

theorem unblock_cases (s : Sched τ) (t : τ) (reason : WakeupReason) :
    s.unblockTaskReason t reason = (false, s) ∨
    ∃ task, (s.task t).unblockTaskReason reason = (true, task) ∧ s.unblockTaskReason t reason =
      (true, if s.runQueue t then s.setTask t task else (s.runQueuePushTask t).setTask t task) := by
  unfold unblockTaskReason
  rcases (s.task t).unblockTaskReason reason with ⟨_ | _, task⟩
  · exact .inl rfl
  exact .inr ⟨task, rfl, rfl⟩

theorem Inv.unblock (h : s.Inv idle) (hallowed : t = idle → reason = .signal) :
    (s.unblockTaskReason t reason).2.Inv idle := by
  obtain hsame | ⟨task, hrun, hnew⟩ := unblock_cases s t reason
  · exact hsame ▸ h
  have hne : t ≠ idle := fun heq => h.idle (heq ▸ (unblocked hrun).2 (hallowed heq))
  rw [hnew]
  split
  · next hset => exact h.setTask (fun _ => h.ready t hset) (fun heq => absurd heq hne)
  next hset =>
  have hcurrent : s.current ≠ t := fun heq => hset (heq ▸ h.held (heq ▸ hne))
  exact (h.runQueuePushTask hset hcurrent).setTask
    (fun _ => .inr (mem_append_right _ (mem_singleton_self t))) (fun heq => absurd heq hne)

theorem Inv.step (h : s.Inv idle) (i : SchedStep τ) (hallowed : Allowed idle s i) :
    (s.step idle i).Inv idle := by
  cases i with
  | blockPrepare => exact h.setTask nofun (fun _ => nofun)
  | blockPrepareInterruptible => exact h.setTask nofun (fun heq => absurd heq hallowed)
  | blockCancel => exact h.setTask (fun _ => .inl rfl) (fun _ => nofun)
  | yield preempt => exact h.yield preempt
  | unblock t reason => exact h.unblock hallowed

theorem inv_start {boot : τ} (h : boot ≠ idle) : (start boot).Inv idle := by
  refine ⟨nodup_nil, not_mem_nil, nofun, fun t ht => .inl (of_decide_eq_true ht),
    fun _ => decide_eq_true rfl, fun t _ ht => .inl (by simpa [start] using ht), ?_⟩
  simp [start, h.symm]

theorem yield_task (s : Sched τ) (idle : τ) (preempt : Bool) : (s.yield idle preempt).task = s.task := by
  have hschedule (s : Sched τ) : (s.schedule idle).task = s.task := by
    unfold schedule
    split <;> rfl
  unfold yield
  cases preempt || decide ((s.task s.current).status = .running) with
  | true => exact hschedule _
  | false => exact hschedule s

theorem running_step (h : (s.task t).status = .running) (i : SchedStep τ) (hkeeps : KeepsAwake t s i) :
    ((s.step idle i).task t).status = .running := by
  have hset {t' : τ} {task : SchedTask} (htask : t = t' → task.status = .running) :
      ((s.setTask t' task).task t).status = .running := by
    by_cases heq : t = t'
    · simpa [setTask, heq] using htask heq
    simpa [setTask, heq] using h
  cases i with
  | blockPrepare | blockPrepareInterruptible => exact hset fun heq => absurd heq.symm hkeeps
  | blockCancel => exact hset fun _ => rfl
  | yield preempt => exact (yield_task s idle preempt).symm ▸ h
  | unblock t' reason => ?_
  show ((s.unblockTaskReason t' reason).2.task t).status = .running
  obtain hsame | ⟨task, hrun, hnew⟩ := unblock_cases s t' reason
  · exact hsame ▸ h
  have hrunning := @hset t' task fun _ => (unblocked hrun).1
  rw [hnew]
  split
  · exact hrunning
  exact hrunning

/-- The steps that give the processor to another task. -/
def isYield : SchedStep τ → Bool
  | .yield _ => true
  | _ => false

/-- Tasks are queued behind those that wait. -/
theorem queue_step (idle : τ) (s : Sched τ) {i : SchedStep τ} (hi : isYield i = false) :
    (s.step idle i).current = s.current ∧ ∃ more, (s.step idle i).queue = s.queue ++ more := by
  cases i with
  | yield => cases hi
  | blockPrepare | blockPrepareInterruptible | blockCancel => exact ⟨rfl, [], (append_nil _).symm⟩
  | unblock t reason =>
    dsimp only [step]
    obtain hsame | ⟨task, -, hnew⟩ := unblock_cases s t reason
    · exact ⟨by rw [hsame], [], by rw [hsame, append_nil]⟩
    rw [hnew]
    split
    · exact ⟨rfl, [], (append_nil _).symm⟩
    exact ⟨rfl, [t], rfl⟩

/-- A switch takes the first task of the queue, and may put the old one behind the others. -/
theorem queue_yield {rest : List τ} (hq : s.queue = t :: rest) (idle : τ) (preempt : Bool) :
    (s.yield idle preempt).current = t ∧ ∃ more, (s.yield idle preempt).queue = rest ++ more := by
  unfold yield
  cases preempt || decide ((s.task s.current).status = .running) with
  | true => simp [runQueuePushTask, schedule, finishYield, hq]
  | false => simp [schedule, finishYield, hq]

/-- A task runs after as many switches as tasks wait in front of it and not before, whatever happens in
between. -/
theorem current_of_queue {front back : List τ} (hq : s.queue = front ++ t :: back)
    (hcurrent : s.current ≠ t) (hfront : t ∉ front) {steps : List (SchedStep τ)}
    (hcount : steps.countP isYield ≤ front.length) :
    (Tasks.run (step idle) s steps).current ≠ t ∧ (steps.countP isYield = front.length →
      ∀ preempt, (Tasks.run (step idle) s (steps ++ [.yield preempt])).current = t) := by
  induction steps generalizing s front back with
  | nil =>
    refine ⟨hcurrent, fun hzero preempt => ?_⟩
    obtain rfl := length_eq_zero_iff.1 hzero.symm
    exact (queue_yield hq idle preempt).1
  | cons i steps ih => ?_
  cases hi : isYield i with
  | false =>
    obtain ⟨hsame, more, hmore⟩ := queue_step idle s hi
    rw [hq, append_assoc, cons_append] at hmore
    rw [countP_cons_of_neg (by simp [hi])] at hcount ⊢
    exact ih hmore (hsame ▸ hcurrent) hfront hcount
  | true => ?_
  rw [countP_cons_of_pos hi] at hcount ⊢
  obtain ⟨q, front, rfl⟩ := exists_cons_of_length_pos (Nat.zero_lt_of_lt hcount)
  cases i with
  | yield p => ?_
  | _ => cases hi
  rw [cons_append] at hq
  obtain ⟨hnew, more, hmore⟩ := queue_yield hq idle p
  rw [append_assoc, cons_append] at hmore
  rw [mem_cons, not_or] at hfront
  rw [length_cons, Nat.succ_inj]
  exact ih hmore (hnew.trans_ne (Ne.symm hfront.1)) hfront.2 (Nat.le_of_succ_le_succ hcount)

/-- **No task starves.** In every state of every run each runnable task but the idle one runs, or it has
a place in the queue and becomes the current task with the switch of that number and not before, however
tasks block, are woken and are preempted until then. -/
theorem scheduler_bounded_wait {boot : τ} (hboot : boot ≠ idle) {steps : List (SchedStep τ)}
    (hsteps : Tasks.StepsAll (step idle) (Allowed idle) (start boot) steps) (hne : t ≠ idle)
    (hrunning : ((Tasks.run (step idle) (start boot) steps).task t).status = .running) :
    let s := Tasks.run (step idle) (start boot) steps
    s.current = t ∨ ∃ place < s.queue.length, ∀ later, later.countP isYield ≤ place →
      (Tasks.run (step idle) s later).current ≠ t ∧ (later.countP isYield = place →
        ∀ preempt, (Tasks.run (step idle) s (later ++ [.yield preempt])).current = t) := by
  intro s
  have h : s.Inv idle := Tasks.run_invariant_of (fun _ i h => h.step i) (inv_start hboot) hsteps
  rcases h.running t hne hrunning with rfl | hmem
  · exact .inl rfl
  obtain ⟨front, back, hq⟩ := append_of_mem hmem
  have hcurrent : s.current ≠ t := fun heq => h.current (heq ▸ hmem)
  have hfront : t ∉ front := fun ht => (nodup_middle.1 (hq ▸ h.nodup)).notMem (mem_append_left back ht)
  exact .inr ⟨front.length, by simp [hq], fun later => current_of_queue hq hcurrent hfront⟩

/-- Of two tasks that are woken the second one runs with the second switch. -/
theorem scheduler_bounded_wait_two :
    let s := Tasks.run (step 1) (start (0 : Nat)) [.unblock 2 .other, .unblock 3 .other]
    s.current = 3 ∨ ∃ place < s.queue.length, ∀ later, later.countP isYield ≤ place →
      (Tasks.run (step 1) s later).current ≠ 3 ∧ (later.countP isYield = place →
        ∀ preempt, (Tasks.run (step 1) s (later ++ [.yield preempt])).current = 3) :=
  scheduler_bounded_wait (by decide) (by simp [Tasks.StepsAll, Allowed]) (by decide) (by decide)

end Sched

end Stanix
