import Mathlib.Data.List.Nodup

/-!
# Blocking and waking tasks

The part of `kernel/task/scheduler.c` and `kernel/task/sleep.c` by which a task goes to sleep and is
made runnable again. A task that is about to sleep first takes the status of a blocked task and puts
a node on a sleep queue, and only then gives up the processor; whoever takes the node off the queue
calls `unblock_task_reason`, which makes the task runnable if it is still blocked.

Only the fields of `task_t` that decide this are kept. The run queue is left out: a task is runnable
if its status is `running`. A sleep queue is the list of the tasks of its nodes, in the order of the
nodes; each function below is one section under the lock of the queue.
-/

namespace Stanix

open Function

/-- Source: the constants `TASK_STATUS_*` (`scheduler.h`). -/
inductive TaskStatus
  | running
  | dead
  | blocked
  | interruptible
  | stopped
  deriving DecidableEq, Repr

/-- Source: the constants `WAKEUP_*` (`scheduler.h`). -/
inductive WakeupReason
  | timeout
  | signal
  | other
  deriving DecidableEq, Repr

/-- The fields of `task_t` (`scheduler.h`) that blocking and waking use. -/
structure SchedTask where
  status : TaskStatus := .running
  wakeupReason : WakeupReason := .other
  deriving DecidableEq, Repr

namespace SchedTask

/-- The task has given up the processor, or is about to. -/
def Asleep (task : SchedTask) : Prop :=
  task.status = .blocked ∨ task.status = .interruptible
  deriving Decidable

/-- Source: `unblock_task_reason` (`scheduler.c:442`), as far as the task is concerned: whether the
task was unblocked, and the task. -/
def unblockTaskReason (task : SchedTask) (reason : WakeupReason) : Bool × SchedTask :=
  if task.status ≠ .blocked ∧ task.status ≠ .interruptible then (false, task)
  else if reason = .signal ∧ task.status ≠ .interruptible then (false, task)
  else (true, { task with status := .running, wakeupReason := reason })

/-- Source: `unblock_task` (`scheduler.h`). -/
def unblockTask (task : SchedTask) : Bool × SchedTask := task.unblockTaskReason .other

/-- Source: `block_prepare` (`scheduler.h`). -/
def blockPrepare (task : SchedTask) : SchedTask := { task with status := .blocked }

/-- Source: `block_prepare_interruptible` (`scheduler.h`); `signals` says whether signals wait to be
handled. -/
def blockPrepareInterruptible (task : SchedTask) (signals : Bool) : SchedTask :=
  let task := { task with status := .interruptible }
  if signals then (task.unblockTaskReason .signal).2 else task

/-- Source: `block_cancel` (`scheduler.h`). -/
def blockCancel (task : SchedTask) : SchedTask := { task with status := .running }

variable {task : SchedTask}

/-- A task that is asleep is made runnable by `unblock_task`. -/
theorem unblockTask_of_asleep (h : task.Asleep) :
    task.unblockTask = (true, { task with status := .running, wakeupReason := .other }) := by
  unfold unblockTask unblockTaskReason
  rcases h with h | h <;> simp [h]

theorem unblockTaskReason_of_not_asleep (h : ¬ task.Asleep) (reason : WakeupReason) :
    task.unblockTaskReason reason = (false, task) :=
  if_pos (not_or.1 h)

/-- No task is asleep after `unblock_task`. -/
theorem not_asleep_unblockTask (task : SchedTask) : ¬ task.unblockTask.2.Asleep := by
  by_cases h : task.Asleep
  · rw [unblockTask_of_asleep h]
    simp [Asleep]
  rw [unblockTask, unblockTaskReason_of_not_asleep h]
  exact h

theorem unblockTask_unblockTask (task : SchedTask) :
    task.unblockTask.2.unblockTask.2 = task.unblockTask.2 := by
  show (task.unblockTask.2.unblockTaskReason .other).2 = _
  rw [unblockTaskReason_of_not_asleep task.not_asleep_unblockTask]

end SchedTask

/-! ## Sleep queues -/

section Queue

variable {τ : Type _} [DecidableEq τ]

/-- Source: `sleep_add_to_queue` (`sleep.c:86`), by the task `t`. -/
def sleepAddToQueue (queue : List τ) (t : τ) : List τ := queue ++ [t]

/-- Source: `sleep_remove_from_queue` (`sleep.c:92`), by the task `t`: its first node goes. -/
def sleepRemoveFromQueue (queue : List τ) (t : τ) : List τ := queue.erase t

/-- Source: `wakeup_queue` (`sleep.c:127`): the nodes are taken off from the front, and the loop ends
when `count` of them were, or, for a count of zero, when none is left. -/
def wakeupQueue : List τ → Nat → (τ → SchedTask) → List τ × (τ → SchedTask)
  | [], _, task => ([], task)
  | t :: waiters, count, task =>
    let task := update task t (task t).unblockTask.2
    match count with
    | 0 => wakeupQueue waiters 0 task
    | 1 => (waiters, task)
    | count + 2 => wakeupQueue waiters (count + 1) task

/-- The nodes that `wakeup_queue` takes off. -/
def wakeupTaken (queue : List τ) (count : Nat) : List τ :=
  if count = 0 then queue else queue.take count

/-- **One call of `wakeup_queue`**: the tasks whose nodes it takes off are unblocked, the others are
left alone. -/
theorem wakeupQueue_task (queue : List τ) (count : Nat) (task : τ → SchedTask) (t : τ) :
    (wakeupQueue queue count task).2 t =
      if t ∈ wakeupTaken queue count then (task t).unblockTask.2 else task t := by
  induction queue generalizing count task with
  | nil => simp [wakeupQueue, wakeupTaken]
  | cons t' waiters ih => ?_
  -- a second node of the same task finds it unblocked already
  have htwice : (update task t' (task t').unblockTask.2 t).unblockTask.2 =
      (task t).unblockTask.2 := by
    by_cases h : t = t'
    · subst h
      rw [update_self, SchedTask.unblockTask_unblockTask]
    rw [update_of_ne h]
  have hrest (taken : List τ) :
      (if t ∈ taken then (task t).unblockTask.2
        else update task t' (task t').unblockTask.2 t) =
      if t ∈ t' :: taken then (task t).unblockTask.2 else task t := by
    by_cases h : t = t'
    · subst h
      simp
    simp [h]
  match count with
  | 0 =>
    rw [wakeupQueue, ih, htwice]
    exact hrest waiters
  | 1 => exact hrest []
  | count + 2 =>
    rw [wakeupQueue, ih, htwice]
    exact hrest (waiters.take (count + 1))

end Queue

end Stanix
