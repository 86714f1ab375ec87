import Stanix.Base.Exec
import Stanix.Base.Tasks
import Stanix.Task.Sleep

/-!
# Sleeping with a deadline

`block_task_timeout` (`kernel/task/scheduler.c`), `sleep_add_timeout` and `sleep_remove_timeout`
(`kernel/task/sleep.c`), and `wakeup_sleepers`, which every task that gives up the processor runs. A
task with a deadline puts itself on the list `sleeping_tasks`, sorted by deadline; it is taken off by
whoever clears `TASK_FLAG_SLEEP`, either the walk over the list when the deadline has passed, or the
task itself on its way out. Each access to the clock and each section under `sleep_lock` is a step,
so that a run is an interleaving of any number of tasks, of the clock and of wake-ups.

Two of the ways out are wrong (`sleep_deadline_missed`): a call whose deadline has passed when its task
is on the list does not take it off, and one that is woken by its deadline returns 0.
`sleep_timeout_sound` is about the other runs.
-/

namespace Stanix

open List Function SchedTask

/-! ## Times -/

/-- Source: `struct timespec`. -/
structure Timespec where
  sec : Int
  nsec : Int
  deriving DecidableEq

/-- Source: `timespec_cmp` (`time.c:147`). -/
def timespecCmp (time1 time2 : Timespec) : Int :=
  if time1.sec > time2.sec then 1
  else if time1.sec < time2.sec then -1
  else if time1.nsec > time2.nsec then 1
  else if time1.nsec < time2.nsec then -1
  else 0

variable {a b : Timespec}

theorem timespecCmp_nonpos :
    timespecCmp a b ≤ 0 ↔ a.sec < b.sec ∨ a.sec = b.sec ∧ a.nsec ≤ b.nsec := by
  unfold timespecCmp
  repeat' split
  all_goals omega

theorem timespecCmp_neg :
    timespecCmp a b < 0 ↔ a.sec < b.sec ∨ a.sec = b.sec ∧ a.nsec < b.nsec := by
  unfold timespecCmp
  repeat' split
  all_goals omega

theorem timespecCmp_trans {c : Timespec} (hab : timespecCmp a b ≤ 0) (hbc : timespecCmp b c ≤ 0) :
    timespecCmp a c ≤ 0 := by
  rw [timespecCmp_nonpos] at *
  omega

theorem timespecCmp_of_not_neg (h : ¬ timespecCmp a b < 0) : timespecCmp b a ≤ 0 := by
  rw [timespecCmp_neg] at h
  rw [timespecCmp_nonpos]
  omega

/-! ## The system -/

/-- The fields of `task_t` that a sleep with a deadline uses. -/
structure SleepTask extends SchedTask where
  wakeupTime : Timespec := ⟨0, 0⟩
  sleepFlag : Bool := false

/-- Where a task is in `block_task_timeout`. -/
inductive TimeoutPhase
  /-- In no call. -/
  | idle
  /-- In `block_task`, which a call without a deadline is. -/
  | blockTask
  /-- Before the first look at the clock. -/
  | entered (timeout : Timespec)
  /-- At the start of `sleep_add_timeout`. -/
  | mark (timeout : Timespec)
  /-- Before the section that puts the task on the list. -/
  | insert (timeout : Timespec)
  /-- Before the second look at the clock. -/
  | check (timeout : Timespec)
  /-- In `yield`. -/
  | yield
  /-- Before `sleep_remove_timeout`, after which the call returns `ret`. -/
  | remove (ret : Except Errno Unit)

/-- The start of a call (`scheduler.c:404`). -/
def TimeoutPhase.first : Option Timespec → TimeoutPhase
  | none => .blockTask
  | some timeout => .entered timeout

/-- The deadline that a task is about to compare with the clock for the second time. -/
def TimeoutPhase.secondLook : TimeoutPhase → Option Timespec
  | .check timeout => some timeout
  | _ => none

/-- A call that has returned: whether it ended because its deadline passed, and its result. -/
structure TimeoutReturn (τ : Type _) where
  task : τ
  deadline : Bool
  ret : Except Errno Unit

/-- The clock, the tasks and the list `sleeping_tasks`. For the statement, `byTimer` says whether a
task was made runnable last by `wakeup_sleepers`, and `returns` has the calls that have returned. -/
structure TimeoutSystem (τ : Type _) where
  clock : Timespec
  task : τ → SleepTask
  sleeping : List τ
  phase : τ → TimeoutPhase
  byTimer : τ → Bool
  returns : List (TimeoutReturn τ)

/-- A step: a task prepares to block and calls `block_task_timeout`, goes on with its call, the
clock advances, some task runs `wakeup_sleepers` with a time it has read from the clock, or a task is
unblocked by another one or by a signal. -/
inductive TimeoutStep (τ : Type _)
  | call (t : τ) (timeout : Option Timespec) (interruptible signals : Bool)
  | go (t : τ)
  | advance (time : Timespec)
  | wakeupSleepers (time : Timespec)
  | unblock (t : τ) (signal : Bool)

variable {τ : Type _} [DecidableEq τ]

namespace TimeoutSystem

/-- A task moves on in its call. -/
def move (s : TimeoutSystem τ) (t : τ) (x : TimeoutPhase) : TimeoutSystem τ :=
  { s with phase := update s.phase t x }

/-- A write to the fields of a task. -/
def setTask (s : TimeoutSystem τ) (t : τ) (x : SleepTask) : TimeoutSystem τ :=
  { s with task := update s.task t x }

/-- A write to the fields of a task that say whether it runs. -/
def setSched (s : TimeoutSystem τ) (t : τ) (x : SchedTask) : TimeoutSystem τ :=
  s.setTask t { s.task t with toSchedTask := x }

/-- `TASK_FLAG_SLEEP` is cleared and the task taken off the list. -/
def takeOff (s : TimeoutSystem τ) (t : τ) : TimeoutSystem τ :=
  { s.setTask t { s.task t with sleepFlag := false } with sleeping := s.sleeping.erase t }

/-- A call returns. -/
def leave (s : TimeoutSystem τ) (t : τ) (deadline : Bool) (ret : Except Errno Unit) :
    TimeoutSystem τ :=
  { s with returns := ⟨t, deadline, ret⟩ :: s.returns }.move t .idle

/-- A task is unblocked; `timer` says whether `wakeup_sleepers` does it. -/
def unblock (s : TimeoutSystem τ) (t : τ) (reason : WakeupReason) (timer : Bool) :
    TimeoutSystem τ :=
  let (unblocked, task) := (s.task t).unblockTaskReason reason
  { s.setSched t task with
    byTimer := if unblocked then update s.byTimer t timer else s.byTimer }

/-- The walk of `sleep_add_timeout` (`sleep.c:24`) and its insertion: before the first task with a
later deadline. -/
def insertSleeper (wakeupTime : τ → Timespec) (time : Timespec) (t : τ) : List τ → List τ
  | [] => [t]
  | t' :: rest =>
    if timespecCmp time (wakeupTime t') < 0 then t :: t' :: rest
    else t' :: insertSleeper wakeupTime time t rest

/-- The body of the walk of `wakeup_sleepers` (`scheduler.c:179`). -/
def expire (s : TimeoutSystem τ) (t : τ) : TimeoutSystem τ :=
  (s.takeOff t).unblock t .other true

/-- The walk of `wakeup_sleepers` over the list. -/
def expireAll (time : Timespec) : List τ → TimeoutSystem τ → TimeoutSystem τ
  | [], s => s
  | t :: rest, s =>
    if timespecCmp (s.task t).wakeupTime time > 0 then s else expireAll time rest (s.expire t)

/-- Source: `wakeup_sleepers` (`scheduler.c:169`), with the time it has read. -/
def wakeupSleepers (s : TimeoutSystem τ) (time : Timespec) : TimeoutSystem τ :=
  expireAll time s.sleeping s

/-- Source: `sleep_remove_timeout` (`sleep.c:36`). -/
def sleepRemoveTimeout (s : TimeoutSystem τ) (t : τ) : TimeoutSystem τ :=
  if (s.task t).sleepFlag then s.takeOff t else s

/-- The next operation of a task. Source: `block_task_timeout` (`scheduler.c:403`) and
`sleep_add_timeout` (`sleep.c:16`). -/
def go (s : TimeoutSystem τ) (t : τ) : TimeoutSystem τ :=
  match s.phase t with
  | .idle => s
  | .blockTask =>
    if (s.task t).Asleep then s
    else s.leave t (s.byTimer t)
      (if (s.task t).wakeupReason = .signal then .error .intr else .ok ())
  | .entered timeout =>
    if timespecCmp timeout s.clock ≤ 0 then
      (s.setSched t (s.task t).blockCancel).leave t true (.error .timedout)
    else s.move t (.mark timeout)
  | .mark timeout =>
    (s.setTask t { s.task t with wakeupTime := timeout, sleepFlag := true }).move t (.insert timeout)
  | .insert timeout =>
    { s with
      sleeping := insertSleeper (fun t' => (s.task t').wakeupTime) timeout t s.sleeping }.move t
        (.check timeout)
  | .check timeout =>
    -- the task is on the list, and stays there when the deadline has passed meanwhile
    if timespecCmp timeout s.clock ≤ 0 then
      (s.setSched t (s.task t).blockCancel).leave t true (.error .timedout)
    else s.move t .yield
  | .yield =>
    if (s.task t).Asleep then s
    else
      match (s.task t).wakeupReason with
      | .timeout => s.leave t (s.byTimer t) (.error .timedout)
      | .signal => s.move t (.remove (.error .intr))
      | .other => s.move t (.remove (.ok ()))
  | .remove ret => (s.sleepRemoveTimeout t).leave t (s.byTimer t) ret

/-- A task prepares to block. -/
def prepare (s : TimeoutSystem τ) (t : τ) (interruptible signals : Bool) : TimeoutSystem τ :=
  { s.setSched t (if interruptible then (s.task t).blockPrepareInterruptible signals
      else (s.task t).blockPrepare) with
    byTimer := update s.byTimer t false }

/-- One step of the system. The clock does not go back, and a time that was read from it is not
ahead of it. -/
def step (s : TimeoutSystem τ) : TimeoutStep τ → TimeoutSystem τ
  | .call t timeout interruptible signals =>
    match s.phase t with
    | .idle =>
      (s.prepare t interruptible signals).move t (.first timeout)
    | _ => s
  | .go t => s.go t
  | .advance time => if timespecCmp s.clock time ≤ 0 then { s with clock := time } else s
  | .wakeupSleepers time => if timespecCmp time s.clock ≤ 0 then s.wakeupSleepers time else s
  | .unblock t signal => s.unblock t (if signal then .signal else .other) false

/-- Tasks that are in no call, with an empty list. -/
def start (clock : Timespec) (task : τ → SchedTask) : TimeoutSystem τ where
  clock
  task t := { toSchedTask := task t }
  sleeping := []
  phase _ := .idle
  byTimer _ := false
  returns := []

end TimeoutSystem

/-! ## What should hold -/

/-- The list is sorted and has each task at most once, a task outside `block_task_timeout` is not on
it and has its flag clear, and a call that ended because its deadline passed has returned
`-ETIMEDOUT`. -/
structure TimeoutSystem.Sound (s : TimeoutSystem τ) : Prop where
  sorted : s.sleeping.Pairwise fun t t' =>
    timespecCmp (s.task t).wakeupTime (s.task t').wakeupTime ≤ 0
  nodup : s.sleeping.Nodup
  outside : ∀ t, s.phase t = .idle → t ∉ s.sleeping ∧ (s.task t).sleepFlag = false
  timedOut : ∀ r ∈ s.returns, r.deadline = true → r.ret = .error .timedout

/-- No deadline passes between the two looks at the clock, and `wakeup_sleepers` finds no task that
is past its deadline and still asleep. -/
def TimeoutStep.BeforeDeadline (s : TimeoutSystem τ) : TimeoutStep τ → Prop
  | .go t => ∀ timeout, (s.phase t).secondLook = some timeout → 0 < timespecCmp timeout s.clock
  | .wakeupSleepers time =>
    ∀ t ∈ s.sleeping, timespecCmp (s.task t).wakeupTime time ≤ 0 → ¬ (s.task t).Asleep
  | _ => True

instance TimeoutStep.BeforeDeadline.instDecidable (s : TimeoutSystem τ) :
    ∀ i : TimeoutStep τ, Decidable (i.BeforeDeadline s)
  | .go _ => inferInstanceAs (Decidable (∀ timeout, _ = some timeout → _))
  | .wakeupSleepers _ => inferInstanceAs (Decidable (∀ t ∈ s.sleeping, _ → ¬ _))
  | .call .. | .advance _ | .unblock .. => .isTrue trivial

/-! ## Lists of sleepers -/

namespace TimeoutSystem

section Insert

variable {wakeupTime : τ → Timespec} {time : Timespec} {t : τ}

omit [DecidableEq τ] in
theorem insertSleeper_perm (l : List τ) : (insertSleeper wakeupTime time t l).Perm (t :: l) := by
  induction l with
  | nil => exact .refl _
  | cons t' rest ih =>
    unfold insertSleeper
    split
    · exact .refl _
    exact (ih.cons t').trans (.swap t t' rest)

omit [DecidableEq τ] in
/-- The insertion keeps the list sorted. -/
theorem insertSleeper_sorted {l : List τ}
    (h : l.Pairwise fun a b => timespecCmp (wakeupTime a) (wakeupTime b) ≤ 0)
    (ht : wakeupTime t = time) : (insertSleeper wakeupTime time t l).Pairwise
      fun a b => timespecCmp (wakeupTime a) (wakeupTime b) ≤ 0 := by
  induction l with
  | nil => exact pairwise_singleton _ t
  | cons t' rest ih => ?_
  obtain ⟨hfirst, hrest⟩ := pairwise_cons.1 h
  unfold insertSleeper
  split
  · next hlt =>
    -- the rest is not before `t'`, and `t'` is after the new task
    refine pairwise_cons.2 ⟨fun b hb => ?_, h⟩
    have hle : timespecCmp (wakeupTime t) (wakeupTime t') ≤ 0 := by
      rw [ht]
      exact le_of_lt hlt
    rcases mem_cons.1 hb with rfl | hb
    · exact hle
    exact timespecCmp_trans hle (hfirst b hb)
  next hnot =>
  refine pairwise_cons.2 ⟨fun b hb => ?_, ih hrest⟩
  rcases mem_cons.1 ((insertSleeper_perm rest).mem_iff.1 hb) with rfl | hb
  · rw [ht]
    exact timespecCmp_of_not_neg hnot
  exact hfirst b hb

end Insert

/-! ## The invariant -/

/-- What the phase of a task says about its flag and its place: `false` before the flag is set, and
from the insertion on the flag says whether the task is on the list. -/
def Placed (flag : Bool) (listed : Prop) : TimeoutPhase → Prop
  | .idle | .blockTask | .entered _ | .mark _ => flag = false ∧ ¬ listed
  | .insert _ => flag = true ∧ ¬ listed
  | .check _ | .yield | .remove _ => flag = true ↔ listed

/-- What a task that has prepared to block was woken by. -/
def Prepared (task : SchedTask) : TimeoutPhase → Prop
  | .idle | .remove _ => True
  | _ => task.Asleep ∨ task.wakeupReason ≠ .timeout

/-- The invariant of runs in which no deadline ends a sleep. -/
structure Inv (s : TimeoutSystem τ) : Prop where
  sorted : s.sleeping.Pairwise fun t t' =>
    timespecCmp (s.task t).wakeupTime (s.task t').wakeupTime ≤ 0
  nodup : s.sleeping.Nodup
  placed : ∀ t, Placed (s.task t).sleepFlag (t ∈ s.sleeping) (s.phase t)
  deadline : ∀ t timeout, s.phase t = .insert timeout → (s.task t).wakeupTime = timeout
  prepared : ∀ t, Prepared (s.task t).toSchedTask (s.phase t)
  byTimer : ∀ t, s.byTimer t = false
  timedOut : ∀ r ∈ s.returns, r.deadline = true → r.ret = .error .timedout

variable {s s' : TimeoutSystem τ} {t : τ} {x : TimeoutPhase} {ret : Except Errno Unit}
  {reason : WakeupReason} {timeout : Timespec}

section

variable (h : s.Inv)

include h

omit [DecidableEq τ] in
theorem Inv.sound : s.Sound := by
  refine ⟨h.sorted, h.nodup, fun t ht => ?_, h.timedOut⟩
  have := h.placed t
  rw [ht] at this
  exact ⟨this.2, this.1⟩

/-- **A step of one task.** What the invariant says of the others stays as it is when a step writes
only to the fields of `t` and to its place on the list. -/
theorem Inv.of_task (t : τ) (htask : ∀ t' ≠ t, s'.task t' = s.task t')
    (hphase : ∀ t' ≠ t, s'.phase t' = s.phase t')
    (hlisted : ∀ t' ≠ t, t' ∈ s'.sleeping ↔ t' ∈ s.sleeping)
    (hsorted : s'.sleeping.Pairwise fun a b =>
      timespecCmp (s'.task a).wakeupTime (s'.task b).wakeupTime ≤ 0)
    (hnodup : s'.sleeping.Nodup)
    (hplaced : Placed (s'.task t).sleepFlag (t ∈ s'.sleeping) (s'.phase t))
    (hdeadline : ∀ timeout, s'.phase t = .insert timeout → (s'.task t).wakeupTime = timeout)
    (hprepared : Prepared (s'.task t).toSchedTask (s'.phase t))
    (hbyTimer : ∀ t', s'.byTimer t' = false)
    (hreturns : ∀ r ∈ s'.returns, r.deadline = true → r.ret = .error .timedout) : s'.Inv := by
  refine ⟨hsorted, hnodup, fun t' => ?_, fun t' => ?_, fun t' => ?_, hbyTimer, hreturns⟩
  all_goals by_cases heq : t' = t
  · exact heq ▸ hplaced
  · rw [htask t' heq, hphase t' heq, propext (hlisted t' heq)]
    exact h.placed t'
  · exact heq ▸ hdeadline
  · rw [htask t' heq, hphase t' heq]
    exact h.deadline t'
  · exact heq ▸ hprepared
  rw [htask t' heq, hphase t' heq]
  exact h.prepared t'

omit [DecidableEq τ] in
/-- The list when only fields of `t` are written that are not its wake-up time. -/
theorem Inv.sorted_of_eq {task : τ → SleepTask}
    (heq : ∀ t ∈ s.sleeping, (task t).wakeupTime = (s.task t).wakeupTime) :
    s.sleeping.Pairwise fun a b => timespecCmp (task a).wakeupTime (task b).wakeupTime ≤ 0 :=
  h.sorted.imp_of_mem fun ha hb hle => by rwa [heq _ ha, heq _ hb]

theorem Inv.phase {returns : List (TimeoutReturn τ)}
    (hplaced : Placed (s.task t).sleepFlag (t ∈ s.sleeping) x)
    (hdeadline : ∀ timeout, x ≠ .insert timeout) (hprepared : Prepared (s.task t).toSchedTask x)
    (hreturns : ∀ r ∈ returns, r.deadline = true → r.ret = .error .timedout) :
    Inv { s with returns, phase := update s.phase t x } := by
  refine h.of_task t (fun _ _ => rfl) (fun t' ht' => update_of_ne ht' ..)
    (fun _ _ => Iff.rfl) h.sorted h.nodup ?_ ?_ ?_ h.byTimer hreturns
  all_goals simp only [update_self]
  exacts [hplaced, fun timeout heq => absurd heq (hdeadline timeout), hprepared]

theorem Inv.move (hplaced : Placed (s.task t).sleepFlag (t ∈ s.sleeping) x)
    (hdeadline : ∀ timeout, x ≠ .insert timeout) (hprepared : Prepared (s.task t).toSchedTask x) :
    (s.move t x).Inv :=
  h.phase hplaced hdeadline hprepared h.timedOut

theorem Inv.leave (hflag : (s.task t).sleepFlag = false) (hoff : t ∉ s.sleeping) {deadline : Bool}
    (hret : deadline = true → ret = .error .timedout) : (s.leave t deadline ret).Inv := by
  refine h.phase ⟨hflag, hoff⟩ nofun trivial fun r hr => ?_
  rcases mem_cons.1 hr with rfl | hr
  · exact hret
  exact h.timedOut r hr

theorem Inv.setSched {x : SchedTask} (hprepared : Prepared x (s.phase t)) {byTimer : τ → Bool}
    (hbyTimer : ∀ t', byTimer t' = false) : Inv { s.setSched t x with byTimer } := by
  have hkept (t' : τ) : ((s.setSched t x).task t').wakeupTime = (s.task t').wakeupTime ∧
      ((s.setSched t x).task t').sleepFlag = (s.task t').sleepFlag := by
    unfold TimeoutSystem.setSched setTask
    grind [update_apply]
  refine h.of_task t (fun t' ht' => update_of_ne ht' ..) (fun _ _ => rfl)
    (fun _ _ => Iff.rfl) (h.sorted_of_eq fun t' _ => (hkept t').1) h.nodup ?_ ?_ ?_ hbyTimer
    h.timedOut
  · rw [(hkept t).2]
    exact h.placed t
  · rw [(hkept t).1]
    exact h.deadline t
  show Prepared (update s.task t _ t).toSchedTask _
  rw [update_self]
  exact hprepared

theorem Inv.takeOff (hplaced : Placed false False (s.phase t)) : (s.takeOff t).Inv := by
  have hkept (t' : τ) : ((s.takeOff t).task t').wakeupTime = (s.task t').wakeupTime := by
    unfold TimeoutSystem.takeOff setTask
    grind [update_apply]
  have hself : (s.takeOff t).task t = { s.task t with sleepFlag := false } := update_self ..
  have hoff : t ∉ s.sleeping.erase t := fun ht => (h.nodup.mem_erase_iff.1 ht).1 rfl
  refine h.of_task t (fun t' ht' => update_of_ne ht' ..) (fun _ _ => rfl)
    (fun t' ht' => mem_erase_of_ne ht') ?_ (h.nodup.erase t) ?_ ?_ ?_ h.byTimer h.timedOut
  · exact (h.sorted_of_eq fun t' _ => hkept t').sublist (erase_sublist ..)
  · rw [hself]
    show Placed false (t ∈ s.sleeping.erase t) (s.phase t)
    rwa [eq_false hoff]
  · rw [hself]
    exact h.deadline t
  rw [hself]
  exact h.prepared t

end

theorem Prepared.unblock {task : SchedTask} (h : Prepared task x) (hreason : reason ≠ .timeout) :
    Prepared (task.unblockTaskReason reason).2 x := by
  have hwoken (h : task.Asleep ∨ task.wakeupReason ≠ .timeout) :
      (task.unblockTaskReason reason).2.Asleep ∨
        (task.unblockTaskReason reason).2.wakeupReason ≠ .timeout := by
    unfold unblockTaskReason
    split
    · exact h
    split
    · exact h
    exact .inr hreason
  cases x with
  | idle | remove _ => trivial
  | blockTask | entered _ | mark _ | insert _ | check _ | yield => exact hwoken h

theorem Inv.unblock (h : s.Inv) (hreason : reason ≠ .timeout) : (s.unblock t reason false).Inv := by
  have hbyTimer (unblocked : Bool) (t' : τ) :
      (if unblocked then update s.byTimer t false else s.byTimer) t' = false := by
    cases unblocked with
    | false => exact h.byTimer t'
    | true =>
      rw [if_pos rfl, update_apply]
      split
      · rfl
      exact h.byTimer t'
  exact h.setSched ((h.prepared t).unblock hreason) (hbyTimer _)

/-- **The walk of `wakeup_sleepers`** over tasks that are already awake takes them off the list. -/
theorem Inv.expireAll (time : Timespec) {l : List τ} {s : TimeoutSystem τ} (h : s.Inv)
    (hl : s.sleeping = l)
    (hawake : ∀ t ∈ l, timespecCmp (s.task t).wakeupTime time ≤ 0 → ¬ (s.task t).Asleep) :
    (expireAll time l s).Inv := by
  induction l generalizing s with
  | nil => exact h
  | cons t rest ih => ?_
  unfold TimeoutSystem.expireAll
  split
  · exact h
  next hpassed =>
  have hout : ¬ (s.task t).Asleep := hawake t mem_cons_self (by omega)
  have hmem : t ∈ s.sleeping := hl ▸ mem_cons_self
  -- the flag of a task on the list is set, so its call is past the insertion
  have hplaced : Placed false False (s.phase t) := by
    have := h.placed t
    cases hphase : s.phase t with
    | idle | blockTask | entered _ | mark _ | insert _ =>
      rw [hphase] at this
      exact absurd hmem this.2
    | check _ | yield | remove _ => exact by simp [Placed]
  have hoff := h.takeOff hplaced
  have hawake' : ¬ ((s.takeOff t).task t).Asleep := by
    unfold TimeoutSystem.takeOff setTask
    simp only [update_self]
    exact hout
  have hexpire : s.expire t = s.takeOff t := by
    unfold expire TimeoutSystem.unblock
    rw [unblockTaskReason_of_not_asleep hawake']
    simp only [TimeoutSystem.setSched, setTask, update_eq_self, Bool.false_eq_true,
      if_false]
  rw [hexpire]
  refine ih hoff (by simp [TimeoutSystem.takeOff, hl]) fun t' ht' hle => ?_
  have hne : t' ≠ t := fun heq => by
    have hnodup := h.nodup
    rw [hl] at hnodup
    exact (nodup_cons.1 hnodup).1 (heq ▸ ht')
  have hsame : (s.takeOff t).task t' = s.task t' := update_of_ne hne ..
  rw [hsame] at hle ⊢
  exact hawake t' (mem_cons_of_mem _ ht') hle

section

variable (h : s.Inv)

include h

theorem Inv.mark (hphase : s.phase t = .mark timeout) :
    ((s.setTask t { s.task t with wakeupTime := timeout, sleepFlag := true }).move t
      (.insert timeout)).Inv := by
  have hplaced := h.placed t
  have hprepared := h.prepared t
  rw [hphase] at hplaced hprepared
  refine h.of_task t (fun t' ht' => update_of_ne ht' ..)
    (fun t' ht' => update_of_ne ht' ..) (fun _ _ => Iff.rfl)
    (h.sorted_of_eq fun t' ht' => ?_) h.nodup ?_ ?_ ?_ h.byTimer h.timedOut
  · have hne : t' ≠ t := fun heq => hplaced.2 (heq ▸ ht')
    exact congrArg SleepTask.wakeupTime (update_of_ne hne ..)
  all_goals simp only [TimeoutSystem.move, setTask, update_self]
  exacts [⟨rfl, hplaced.2⟩, fun timeout' heq => TimeoutPhase.insert.inj heq, hprepared]

theorem Inv.insert (hphase : s.phase t = .insert timeout) :
    ({ s with sleeping := insertSleeper (fun t' => (s.task t').wakeupTime) timeout t s.sleeping }.move
      t (.check timeout)).Inv := by
  have hplaced := h.placed t
  have hprepared := h.prepared t
  rw [hphase] at hplaced hprepared
  have hperm : (insertSleeper (fun t' => (s.task t').wakeupTime) timeout t s.sleeping).Perm
      (t :: s.sleeping) := insertSleeper_perm s.sleeping
  refine h.of_task t (fun _ _ => rfl) (fun t' ht' => update_of_ne ht' ..)
    (fun t' ht' => hperm.mem_iff.trans (by simp [ht']))
    (insertSleeper_sorted h.sorted (h.deadline t timeout hphase))
    (hperm.nodup_iff.2 (nodup_cons.2 ⟨hplaced.2, h.nodup⟩)) ?_ ?_ ?_ h.byTimer h.timedOut
  all_goals simp only [TimeoutSystem.move, update_self]
  · exact ⟨fun _ => hperm.mem_iff.2 mem_cons_self, fun _ => hplaced.1⟩
  · exact nofun
  exact hprepared

theorem Inv.cancel (hflag : (s.task t).sleepFlag = false) (hoff : t ∉ s.sleeping) :
    ((s.setSched t (s.task t).blockCancel).leave t true (.error .timedout)).Inv := by
  have hleft : (s.leave t true (.error .timedout)).Inv := h.leave hflag hoff fun _ => rfl
  have hidle : (s.leave t true (.error .timedout)).phase t = .idle := update_self ..
  exact hleft.setSched (by rw [hidle]; trivial) h.byTimer

/-- **`sleep_remove_timeout`** takes the task off the list if it is still there. -/
theorem Inv.remove (hphase : s.phase t = .remove ret) :
    ((s.sleepRemoveTimeout t).leave t (s.byTimer t) ret).Inv := by
  have hplaced := h.placed t
  rw [hphase] at hplaced
  have hret (hby : s.byTimer t = true) : ret = .error .timedout := by
    rw [h.byTimer] at hby
    cases hby
  unfold sleepRemoveTimeout
  split
  · have hoff : t ∉ s.sleeping.erase t := fun ht => (h.nodup.mem_erase_iff.1 ht).1 rfl
    refine (h.takeOff (by rw [hphase]; simp [Placed])).leave ?_ hoff hret
    show (update s.task t _ t).sleepFlag = false
    rw [update_self]
  next hflag =>
  exact h.leave (Bool.eq_false_iff.2 hflag) (fun ht => hflag (hplaced.2 ht)) hret

/-- **One operation** of a task, where no deadline passes between the two looks at the clock. -/
theorem Inv.go (hbefore : (TimeoutStep.go t).BeforeDeadline s) : (s.go t).Inv := by
  have hplaced := h.placed t
  have hprepared := h.prepared t
  have hret {ret : Except Errno Unit} (hby : s.byTimer t = true) : ret = .error .timedout := by
    rw [h.byTimer] at hby
    cases hby
  unfold TimeoutSystem.go
  cases hphase : s.phase t with
  | idle => exact h
  | blockTask =>
    rw [hphase] at hplaced
    dsimp only
    split
    · exact h
    exact h.leave hplaced.1 hplaced.2 hret
  | entered timeout =>
    rw [hphase] at hplaced hprepared
    dsimp only
    split
    · exact h.cancel hplaced.1 hplaced.2
    exact h.move hplaced nofun hprepared
  | mark timeout => exact h.mark hphase
  | insert timeout => exact h.insert hphase
  | check timeout =>
    rw [hphase] at hplaced hprepared
    have hlater := hbefore timeout (by rw [hphase]; rfl)
    dsimp only
    rw [if_neg (by omega)]
    exact h.move hplaced nofun hprepared
  | yield =>
    rw [hphase] at hplaced hprepared
    dsimp only
    split
    · exact h
    next hawake =>
    have hreason := hprepared.resolve_left hawake
    split
    · next heq => exact absurd heq hreason
    · exact h.move hplaced nofun trivial
    exact h.move hplaced nofun trivial
  | remove ret => exact h.remove hphase

theorem Inv.prepare (hphase : s.phase t = .idle) (interruptible signals : Bool) :
    (s.prepare t interruptible signals).Inv ∧
      (((s.prepare t interruptible signals).task t).Asleep ∨
        ((s.prepare t interruptible signals).task t).wakeupReason ≠ .timeout) := by
  refine ⟨h.setSched (by rw [hphase]; trivial) fun t' => ?_, ?_⟩
  · rw [update_apply]
    split
    · rfl
    exact h.byTimer t'
  unfold TimeoutSystem.prepare TimeoutSystem.setSched setTask
  simp only [update_self]
  cases interruptible with
  | false => exact .inl (.inl rfl)
  | true =>
    cases signals with
    | false => exact .inl (.inr rfl)
    | true => exact .inr (by simp [blockPrepareInterruptible, unblockTaskReason])

/-- **One step** of the system, where no deadline ends a sleep. -/
theorem Inv.step (i : TimeoutStep τ) (hbefore : i.BeforeDeadline s) : (s.step i).Inv := by
  cases i with
  | call t timeout interruptible signals =>
    simp only [TimeoutSystem.step]
    split
    · next hphase =>
      obtain ⟨h', hprepared⟩ := h.prepare hphase interruptible signals
      have hplaced := h'.placed t
      have hidle : (s.prepare t interruptible signals).phase t = .idle := hphase
      rw [hidle] at hplaced
      cases timeout with
      | none => exact h'.move hplaced nofun hprepared
      | some timeout => exact h'.move hplaced nofun hprepared
    exact h
  | go t => exact h.go hbefore
  | advance time =>
    simp only [TimeoutSystem.step]
    split
    · exact { h with }
    exact h
  | wakeupSleepers time =>
    simp only [TimeoutSystem.step]
    split
    · exact h.expireAll time rfl hbefore
    exact h
  | unblock t signal => exact h.unblock (by cases signal <;> decide)

end

omit [DecidableEq τ] in
theorem start_inv (clock : Timespec) (task : τ → SchedTask) : (start clock task).Inv where
  sorted := .nil
  nodup := .nil
  placed _ := ⟨rfl, not_mem_nil⟩
  deadline _ _ heq := by cases heq
  prepared _ := trivial
  byTimer _ := rfl
  timedOut _ hr := absurd hr not_mem_nil

end TimeoutSystem

/-- **Sleeping with a deadline.** For every interleaving of any number of calls, clock advances,
walks over the sleepers and wake-ups in which no deadline passes between the two looks at the clock
and the walk finds no sleeper past its deadline, the list of sleepers is sorted and without
repetitions, a task outside its call is not on it, and calls ended by their deadline return
`-ETIMEDOUT`. -/
theorem sleep_timeout_sound {τ : Type} [DecidableEq τ] (clock : Timespec) (task : τ → SchedTask)
    (steps : List (TimeoutStep τ))
    (hbefore : Tasks.StepsAll TimeoutSystem.step (fun s i => i.BeforeDeadline s)
      (.start clock task) steps) :
    (Tasks.run TimeoutSystem.step (.start clock task) steps).Sound :=
  (Tasks.run_invariant_of (fun _ i h hi => h.step i hi) (TimeoutSystem.start_inv clock task)
    hbefore).sound

/-- Two tasks sleep; one is woken by the other, one is past its deadline before it sleeps. -/
theorem sleep_timeout_sound_woken :
    (Tasks.run TimeoutSystem.step (.start ⟨5, 0⟩ fun _ => {})
      [.call (0 : Fin 2) (some ⟨9, 0⟩) true false, .go 0, .go 0, .go 0, .go 0, .go 0,
        .wakeupSleepers ⟨5, 0⟩, .unblock 0 false, .advance ⟨10, 0⟩, .wakeupSleepers ⟨10, 0⟩,
        .call 1 (some ⟨7, 0⟩) true false, .go 1, .go 0, .go 0]).Sound :=
  sleep_timeout_sound ⟨5, 0⟩ (fun _ => {}) _ (by decide)

/-- **A sleep that ends with its deadline** returns 0, and a deadline that passes while the task puts
itself on the list leaves it there. -/
theorem sleep_deadline_missed :
    ¬ (∀ (tasks : Nat) (clock : Timespec) (steps : List (TimeoutStep (Fin tasks))),
        ∀ r ∈ (Tasks.run TimeoutSystem.step (.start clock fun _ => {}) steps).returns,
          r.deadline = true → r.ret = .error .timedout) ∧
    ¬ ∀ (tasks : Nat) (clock : Timespec) (steps : List (TimeoutStep (Fin tasks))) (t : Fin tasks),
      (Tasks.run TimeoutSystem.step (.start clock fun _ => {}) steps).phase t = .idle →
        t ∉ (Tasks.run TimeoutSystem.step (.start clock fun _ => {}) steps).sleeping := by
  constructor
  · intro h
    have := h 1 ⟨5, 0⟩ [.call 0 (some ⟨9, 0⟩) true false, .go 0, .go 0, .go 0, .go 0,
      .advance ⟨10, 0⟩, .wakeupSleepers ⟨10, 0⟩, .go 0, .go 0] ⟨0, true, .ok ()⟩
      mem_cons_self rfl
    cases this
  intro h
  exact h 1 ⟨5, 0⟩ [.call 0 (some ⟨9, 0⟩) true false, .go 0, .go 0, .go 0, .advance ⟨10, 0⟩,
    .go 0] 0 rfl (by decide)

end Stanix
