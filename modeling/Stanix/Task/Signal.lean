import Stanix.Base.Exec
import Stanix.Task.Sleep

/-!
# Sending a signal to a thread

The two sends of `kernel/task/signal.c` wake the thread if the signal is blocked, instead of if it
is not, and return from there with the lock of its signal context taken. `signal_send_iff` says
which runs of sends and sleeps do not notice.

A set of signals is a function of the number. Each section under the lock is one step. The infos
that are queued are left out.
-/

namespace Stanix

open Function SchedTask

/-- A thread, with its signal context: whether the lock is taken, and `pending_mask`. -/
structure SignalThread where
  sched : SchedTask
  locked : Bool
  pendingMask : Fin 64 → Bool
  sigMask : Fin 64 → Bool

/-- What is done with a thread: a send, which allocates unless it is lightweight, the beginning of a
sleep, where `others` says whether signals of the process wait, a wake-up, and what the thread does
about its signals while it runs. -/
inductive SignalCall
  | send (signum : Fin 64) (alloc : Bool)
  | prepare (others : Bool)
  | wake (reason : WakeupReason)
  | own (pendingMask sigMask : Fin 64 → Bool)

namespace SignalThread

/-- Source: `signal_get_unhandled_mask` (`signal.c:289`), for the thread. -/
def Unhandled (th : SignalThread) : Prop := ∃ n, th.pendingMask n = true ∧ th.sigMask n = false
  deriving Decidable

variable (ignored : Fin 64 → Bool)

/-- Whether `signal_add_pending` (`signal.c:73`) adds the signal; `ignored` are those that the
process ignores. -/
def adds (th : SignalThread) (signum : Fin 64) : Bool := !th.pendingMask signum && !ignored signum

/-- Source: `signal_send_siginfo_task` (`signal.c:154`), which differs from
`signal_send_siginfo_lightweight_task` (`:176`) in the allocation. A lock that an earlier call left
taken is waited for for ever. -/
def signalSendTask (th : SignalThread) (signum : Fin 64) (alloc : Bool) :
    Exec (Option Errno × SignalThread) :=
  if signum = 0 then .ok (none, th)
  else if !alloc then .ok (some .nomem, th)
  else if th.locked then .error .fuel
  else if !th.adds ignored signum then .ok (none, th)
  else
    let th := { th with pendingMask := update th.pendingMask signum true }
    if th.sigMask signum then
      .ok (none, { th with sched := (th.sched.unblockTaskReason .signal).2, locked := true })
    else .ok (none, th)

/-- One step. Source: `block_prepare_interruptible` (`scheduler.h:198`), and the functions above. -/
def step (th : SignalThread) : SignalCall → Exec (Option Errno × SignalThread)
  | .send signum alloc => th.signalSendTask ignored signum alloc
  | .prepare others =>
    let signals := others || decide th.Unhandled
    .ok (none, { th with sched := th.sched.blockPrepareInterruptible signals })
  | .wake reason => .ok (none, { th with sched := (th.sched.unblockTaskReason reason).2 })
  | .own pendingMask sigMask =>
    if th.locked then .error .fuel
    else if th.sched.status = .running then .ok (none, { th with pendingMask, sigMask })
    else .ok (none, th)

/-- The call makes the signal pending. -/
def Sends (th : SignalThread) (n : Fin 64) (call : SignalCall) : Prop :=
  call = .send n true ∧ n ≠ 0 ∧ th.adds ignored n = true

/-- What is asked of a call: it returns with the lock released, and a signal that it makes pending
wakes the thread from an interruptible sleep exactly if it is not blocked. -/
def Sound (th : SignalThread) (call : SignalCall) : Prop :=
  ∃ r th', step ignored th call = .ok (r, th') ∧ th'.locked = false ∧
    ∀ n, Sends ignored th n call → th.sched.status = .interruptible →
      (th'.sched.status = .running ↔ th.sigMask n = false)

/-- A call that makes no blocked signal pending, and none at all for a thread that sleeps. -/
def Harmless (th : SignalThread) (call : SignalCall) : Prop :=
  ∀ n, Sends ignored th n call → th.sigMask n = false ∧ th.sched.status ≠ .interruptible

/-- The lock is free, and the thread is not in an interruptible sleep while a signal waits that it
does not block. -/
def Heeds (th : SignalThread) : Prop :=
  th.locked = false ∧ (th.sched.status = .interruptible → ¬ th.Unhandled)

variable {ignored} {th : SignalThread} {call : SignalCall}

/-- A call that makes nothing pending. -/
theorem Heeds.returns (h : th.Heeds) (hnone : ∀ n, ¬ Sends ignored th n call) :
    ∃ r th', step ignored th call = .ok (r, th') ∧ th'.Heeds := by
  unfold step
  cases call with
  | send n alloc =>
    simp only [signalSendTask, h.1, Bool.false_eq_true, if_false]
    split_ifs with h0 halloc hadds
    · exact ⟨_, _, rfl, h⟩
    · exact ⟨_, _, rfl, h⟩
    · exact ⟨_, _, rfl, h⟩
    all_goals exact absurd ⟨by simpa using halloc, h0, by simpa using hadds⟩ (hnone n)
  | prepare others =>
    refine ⟨_, _, rfl, h.1, fun hint => ?_⟩
    cases hun : decide th.Unhandled with
    | true => simp [hun, blockPrepareInterruptible, unblockTaskReason] at hint
    | false => exact of_decide_eq_false hun
  | wake reason =>
    refine ⟨_, _, rfl, h.1, fun hint => h.2 ?_⟩
    unfold unblockTaskReason at hint
    split_ifs at hint <;> exact hint
  | own pendingMask sigMask =>
    simp only [h.1, Bool.false_eq_true, if_false]
    split_ifs with hrun
    · exact ⟨_, _, rfl, rfl, fun hint => by cases hrun.symm.trans hint⟩
    exact ⟨_, _, rfl, h⟩

/-- **One call** is sound exactly if it is harmless, and then the thread still heeds its signals. -/
theorem Heeds.sound_iff (h : th.Heeds) : (Sound ignored th call ↔ Harmless ignored th call) ∧
    (Harmless ignored th call → ∃ r th', step ignored th call = .ok (r, th') ∧ th'.Heeds) := by
  by_cases hsends : ∃ n, Sends ignored th n call
  · obtain ⟨n, hs⟩ := hsends
    obtain ⟨rfl, h0, hadds⟩ := id hs
    have honly (m : Fin 64) (hm : Sends ignored th m (.send n true)) : m = n := by
      cases hm.1
      rfl
    cases hmask : th.sigMask n with
    | true =>
      have hbad : ¬ Harmless ignored th (.send n true) := fun hharm => by
        simp [(hharm n hs).1] at hmask
      refine ⟨iff_of_false ?_ hbad, fun hharm => absurd hharm hbad⟩
      rintro ⟨r, th', hstep, hlock, -⟩
      simp only [step, signalSendTask, h0, h.1, hadds, hmask] at hstep
      cases hstep
      cases hlock
    | false => ?_
    have hstep : step ignored th (.send n true) =
        .ok (none, { th with pendingMask := update th.pendingMask n true }) := by
      simp [step, signalSendTask, h0, h.1, hadds, hmask]
    refine ⟨⟨?_, fun hharm => ⟨_, _, hstep, h.1, fun m hm hint => absurd hint (hharm m hm).2⟩⟩,
      fun hharm => ⟨_, _, hstep, h.1, fun hint => absurd hint (hharm n hs).2⟩⟩
    rintro ⟨r, th', hstep', -, hwake⟩ m hm
    cases hstep.symm.trans hstep'
    rw [honly m hm]
    exact ⟨hmask, fun hint => by cases hint.symm.trans ((hwake n hs hint).2 hmask)⟩
  have hnone := not_exists.1 hsends
  obtain ⟨r, th', hstep, hheeds⟩ := h.returns hnone
  exact ⟨iff_of_true ⟨r, th', hstep, hheeds.1, fun n hs => absurd hs (hnone n)⟩
    fun n hs => absurd hs (hnone n), fun _ => ⟨r, th', hstep, hheeds⟩⟩

end SignalThread

/-- **Signals wake a sleeping thread.** In a run of sends, sleeps and wake-ups of a thread, every
send releases the lock and wakes the thread exactly if the signal is not blocked, and the thread
never sleeps with a signal pending that it does not block, if and only if no send makes a blocked
signal pending, or any signal for a thread that sleeps. -/
theorem signal_send_iff (ignored : Fin 64 → Bool) (th : SignalThread) (h : th.Heeds)
    (calls : List SignalCall) :
    CallsAll (SignalThread.step ignored) (SignalThread.Sound ignored) th calls ∧
        RunAll (SignalThread.step ignored) SignalThread.Heeds th calls ↔
      CallsAll (SignalThread.step ignored) (SignalThread.Harmless ignored) th calls := by
  induction calls generalizing th with
  | nil => exact iff_of_true ⟨trivial, h⟩ trivial
  | cons call calls ih => ?_
  constructor
  · rintro ⟨⟨hsound, hrest⟩, -, r, th', hstep, hrun⟩
    exact .cons hstep (h.sound_iff.1.1 hsound) ((ih th' hrun.head).1 ⟨hrest r th' hstep, hrun⟩)
  rintro ⟨hharm, hrest⟩
  obtain ⟨r, th', hstep, hheeds⟩ := h.sound_iff.2 hharm
  obtain ⟨hsound, hrun⟩ := (ih th' hheeds).2 (hrest r th' hstep)
  exact ⟨.cons hstep (h.sound_iff.1.2 hharm) hsound, h, r, th', hstep, hrun⟩

/-- A thread that runs and blocks the signals of a set. -/
def signalThread (sigMask : Fin 64 → Bool) : SignalThread := ⟨{}, false, fun _ => false, sigMask⟩

/-- A signal that is not blocked reaches a thread that runs. -/
theorem signal_send_running :
    CallsAll (SignalThread.step fun _ => false) (SignalThread.Sound fun _ => false)
      (signalThread fun _ => false) [.send 15 true] :=
  ((signal_send_iff _ _ ⟨rfl, fun h => by cases h⟩ [_]).2
    ⟨fun _ _ => ⟨rfl, fun h => by cases h⟩, fun _ _ _ => trivial⟩).1

/-- A thread sleeps. SIGTERM is sent to it, and it stays asleep; with SIGTERM blocked it is woken,
with the lock left taken. -/
theorem signal_send_stranded :
    (∃ rs th, runOps (SignalThread.step fun _ => false) (signalThread fun _ => false)
        [.prepare false, .send 15 true] = .ok (rs, th) ∧
      th.sched.status = .interruptible ∧ th.pendingMask 15 = true ∧ th.sigMask 15 = false) ∧
    ∃ rs th, runOps (SignalThread.step fun _ => false) (signalThread fun n => n == 15)
        [.prepare false, .send 15 true] = .ok (rs, th) ∧
      th.sched.status = .running ∧ th.locked = true :=
  ⟨⟨_, _, rfl, by decide +kernel⟩, _, _, rfl, by decide +kernel⟩

end Stanix
