import Stanix.Base.Exec
import Stanix.Task.Sleep

/-!
# The read-write semaphore

`kernel/task/rwsem.c`. A writer owns the semaphore (`writer_active`) and may take it again, for
reading or for writing; `lock_depth` counts what it has taken. Readers are only counted. Tasks that
have to wait sleep on a queue without the spin lock and test their condition again when they are
woken. Each section under the spin lock is a step, so that a run of steps is an interleaving of the
calls of any number of tasks.

Only `rwsem_release_write` lets go of `writer_active`: a writer that gives its write hold back before
its read hold stays the active writer for ever (`rwsem_write_released_first`). `rwsem_sound` is about
the other runs.

The counters are natural numbers; they count holds and waiting tasks.
-/

namespace Stanix

open List Function Exec

/-- Source: `rwsem_t` (`rwsem.h`). -/
structure Rwsem (τ : Type _) where
  writerQueue : List τ := []
  readerQueue : List τ := []
  waitingWritersCount : Nat := 0
  readersCount : Nat := 0
  lockDepth : Nat := 0
  writerActive : Option τ := none

/-- Where a task is: in no call or between two, or asleep in a call that acquires the semaphore. -/
inductive RwPhase
  | idle
  | readWait
  | writeWait
  deriving DecidableEq

/-- A semaphore and the tasks that use it. `reads` and `writes` name the task of every hold that was
acquired and not given back. -/
structure RwSystem (τ : Type _) where
  sem : Rwsem τ := {}
  task : τ → SchedTask := fun _ => {}
  phase : τ → RwPhase := fun _ => .idle
  reads : List τ := []
  writes : List τ := []

/-- A step: a call of a task up to its end or to the point where it sleeps, the part of a call after
a sleep, or a wake-up that comes from elsewhere. -/
inductive RwStep (τ : Type _)
  | acquireRead (t : τ)
  | releaseRead (t : τ)
  | acquireWrite (t : τ)
  | releaseWrite (t : τ)
  | resume (t : τ)
  | unblock (t : τ) (reason : WakeupReason)

variable {τ : Type _} [DecidableEq τ]

namespace RwSystem

/-- The end of `rwsem_acquire_read` for a task that is not the writer (`rwsem.c:21`). -/
def readAcquired (s : RwSystem τ) (t : τ) : RwSystem τ :=
  { s with
    sem := { s.sem with readersCount := s.sem.readersCount + 1 }
    phase := update s.phase t .idle
    reads := t :: s.reads }

/-- The end of `rwsem_acquire_write` for a task that is not the writer (`rwsem.c:54`). -/
def writeAcquired (s : RwSystem τ) (t : τ) : RwSystem τ :=
  { s with
    sem := { s.sem with
      waitingWritersCount := s.sem.waitingWritersCount - 1
      writerActive := some t
      lockDepth := 1 }
    phase := update s.phase t .idle
    writes := t :: s.writes }

/-- A round of the loop of `sleep_on_queue_lock` (`sleep.h:47`) in `rwsem_acquire_read`. The
condition is tested before and after the task has joined the queue; the spin lock is held all the
time, so that the second test repeats the first. -/
def readRound (s : RwSystem τ) (t : τ) : RwSystem τ :=
  if s.sem.waitingWritersCount = 0 ∧ s.sem.writerActive = none then s.readAcquired t
  else
    { s with
      sem := { s.sem with readerQueue := sleepAddToQueue s.sem.readerQueue t }
      task := update s.task t (s.task t).blockPrepare
      phase := update s.phase t .readWait }

/-- A round of the loop of `sleep_on_queue_lock` in `rwsem_acquire_write`. -/
def writeRound (s : RwSystem τ) (t : τ) : RwSystem τ :=
  if s.sem.readersCount = 0 ∧ s.sem.writerActive = none then s.writeAcquired t
  else
    { s with
      sem := { s.sem with writerQueue := sleepAddToQueue s.sem.writerQueue t }
      task := update s.task t (s.task t).blockPrepare
      phase := update s.phase t .writeWait }

/-- Source: `rwsem_acquire_read` (`rwsem.c:14`). -/
def rwsemAcquireRead (s : RwSystem τ) (t : τ) : RwSystem τ :=
  if s.sem.writerActive = some t then
    { s with sem := { s.sem with lockDepth := s.sem.lockDepth + 1 }, reads := t :: s.reads }
  else s.readRound t

/-- Source: `rwsem_acquire_write` (`rwsem.c:46`). -/
def rwsemAcquireWrite (s : RwSystem τ) (t : τ) : RwSystem τ :=
  if s.sem.writerActive = some t then
    { s with sem := { s.sem with lockDepth := s.sem.lockDepth + 1 }, writes := t :: s.writes }
  else
    { s with
      sem := { s.sem with waitingWritersCount := s.sem.waitingWritersCount + 1 } }.writeRound t

/-- Source: `wakeup_queue` on the queue of writers. -/
def wakeWriters (s : RwSystem τ) (count : Nat) : RwSystem τ :=
  let (queue, task) := wakeupQueue s.sem.writerQueue count s.task
  { s with sem := { s.sem with writerQueue := queue }, task }

/-- Source: `wakeup_queue` on the queue of readers. -/
def wakeReaders (s : RwSystem τ) (count : Nat) : RwSystem τ :=
  let (queue, task) := wakeupQueue s.sem.readerQueue count s.task
  { s with sem := { s.sem with readerQueue := queue }, task }

/-- Source: `rwsem_release_read` (`rwsem.c:28`). -/
def rwsemReleaseRead (s : RwSystem τ) (t : τ) : Exec (RwSystem τ) := do
  let reads := s.reads.erase t
  if s.sem.writerActive = some t then
    Exec.assert (s.sem.lockDepth > 0)
    return { s with sem := { s.sem with lockDepth := s.sem.lockDepth - 1 }, reads }
  else
    Exec.assert (s.sem.readersCount > 0)
    let s := { s with sem := { s.sem with readersCount := s.sem.readersCount - 1 }, reads }
    return if s.sem.readersCount = 0 then s.wakeWriters 1 else s

/-- Source: `rwsem_release_write` (`rwsem.c:63`). -/
def rwsemReleaseWrite (s : RwSystem τ) (t : τ) : Exec (RwSystem τ) := do
  Exec.assert (s.sem.writerActive = some t)
  Exec.assert (s.sem.lockDepth > 0)
  let s := { s with
    sem := { s.sem with lockDepth := s.sem.lockDepth - 1 }
    writes := s.writes.erase t }
  if s.sem.lockDepth = 0 then
    let s := { s with sem := { s.sem with writerActive := none } }
    return if s.sem.waitingWritersCount > 0 then s.wakeWriters 1 else s.wakeReaders 0
  else return s

/-- The rest of the loop of `sleep_on_queue_lock` for a task that `block_task` returned to
(`sleep.h:62`): with `-EINTR` the loop ends, whatever the condition. -/
def resume (s : RwSystem τ) (t : τ) : RwSystem τ :=
  if (s.task t).Asleep then s
  else
    match s.phase t with
    | .idle => s
    | .readWait =>
      if (s.task t).wakeupReason = .signal then
        { s with sem := { s.sem with
          readerQueue := sleepRemoveFromQueue s.sem.readerQueue t } }.readAcquired t
      else s.readRound t
    | .writeWait =>
      if (s.task t).wakeupReason = .signal then
        { s with sem := { s.sem with
          writerQueue := sleepRemoveFromQueue s.sem.writerQueue t } }.writeAcquired t
      else s.writeRound t

/-- One step of the system. -/
def step (s : RwSystem τ) : RwStep τ → Exec (Unit × RwSystem τ)
  | .acquireRead t => return ((), s.rwsemAcquireRead t)
  | .releaseRead t => return ((), ← s.rwsemReleaseRead t)
  | .acquireWrite t => return ((), s.rwsemAcquireWrite t)
  | .releaseWrite t => return ((), ← s.rwsemReleaseWrite t)
  | .resume t => return ((), s.resume t)
  | .unblock t reason =>
    return ((), { s with
      task := update s.task t ((s.task t).unblockTaskReason reason).2 })

end RwSystem

/-! ## What should hold -/

/-- The discipline of the tasks: a task makes one call at a time, gives back only what it has
acquired, and does not ask for the write side while it holds only the read side. -/
def RwStep.Disciplined (s : RwSystem τ) : RwStep τ → Prop
  | .acquireRead t => s.phase t = .idle
  | .releaseRead t => s.phase t = .idle ∧ t ∈ s.reads
  | .acquireWrite t => s.phase t = .idle ∧ (t ∈ s.reads → t ∈ s.writes)
  | .releaseWrite t => s.phase t = .idle ∧ t ∈ s.writes
  | .resume _ | .unblock _ _ => True

instance RwStep.Disciplined.instDecidable (s : RwSystem τ) :
    ∀ i : RwStep τ, Decidable (i.Disciplined s)
  | .acquireRead _ => inferInstanceAs (Decidable (_ = _))
  | .releaseRead _ | .releaseWrite _ => inferInstanceAs (Decidable (_ ∧ _))
  | .acquireWrite _ => inferInstanceAs (Decidable (_ ∧ (_ → _)))
  | .resume _ | .unblock _ _ => .isTrue trivial

/-- A task that is the active writer does not give back its last hold with `rwsem_release_read`. -/
def RwStep.WriteReleasedLast (s : RwSystem τ) : RwStep τ → Prop
  | .releaseRead t => s.sem.writerActive = some t → 1 < s.sem.lockDepth
  | _ => True

instance RwStep.WriteReleasedLast.instDecidable (s : RwSystem τ) :
    ∀ i : RwStep τ, Decidable (i.WriteReleasedLast s)
  | .releaseRead _ => inferInstanceAs (Decidable (_ → _))
  | .acquireRead _ | .acquireWrite _ | .releaseWrite _ | .resume _ | .unblock _ _ => .isTrue trivial

/-- An active writer is alone, and the semaphore is free when no task holds or acquires it. -/
structure RwSystem.Sound (s : RwSystem τ) : Prop where
  alone : ∀ w, s.sem.writerActive = some w ∨ w ∈ s.writes → ∀ t ≠ w, t ∉ s.reads ∧ t ∉ s.writes
  free : s.reads = [] → s.writes = [] → (∀ t, s.phase t = .idle) →
    s.sem.writerActive = none ∧ s.sem.readersCount = 0 ∧ s.sem.lockDepth = 0

/-! ## Waiting is not interrupted -/

/-- A task that no signal has woken and that no signal can wake. -/
def SchedTask.Deaf (task : SchedTask) : Prop :=
  task.status = .blocked ∨ task.status ≠ .interruptible ∧ task.wakeupReason ≠ .signal

theorem SchedTask.Deaf.unblockTaskReason {task : SchedTask} (h : task.Deaf)
    (reason : WakeupReason) : (task.unblockTaskReason reason).2.Deaf := by
  unfold SchedTask.unblockTaskReason
  split
  · exact h
  split
  · exact h
  next hasleep hsignal =>
  refine .inr ⟨by simp, fun hreason => hsignal ⟨hreason, fun hstatus => ?_⟩⟩
  rcases h with h | h
  · rw [h] at hstatus
    cases hstatus
  exact h.1 hstatus

namespace RwSystem

variable {s : RwSystem τ} {t : τ}

/-- No signal ends the sleep of a task that waits for the semaphore. -/
def Quiet (s : RwSystem τ) : Prop := ∀ t, s.phase t ≠ .idle → (s.task t).Deaf

theorem Quiet.goOn (h : s.Quiet) {x : RwPhase} {task : SchedTask}
    (ht : x ≠ .idle → task.Deaf) (sem : Rwsem τ) (reads writes : List τ) :
    Quiet { s with
      sem, reads, writes
      task := update s.task t task
      phase := update s.phase t x } := by
  intro t' hphase
  by_cases heq : t' = t
  · grind
  simp only [update_of_ne heq] at hphase ⊢
  exact h t' hphase

theorem Quiet.leave (h : s.Quiet) (sem : Rwsem τ) (reads writes : List τ) :
    Quiet { s with sem, reads, writes, phase := update s.phase t .idle } := by
  have hdeaf : RwPhase.idle ≠ .idle → (s.task t).Deaf := fun hne => absurd rfl hne
  have := h.goOn (t := t) hdeaf sem reads writes
  rwa [update_eq_self] at this

theorem Quiet.wake (h : s.Quiet) (queue : List τ) (count : Nat) (sem : Rwsem τ) :
    Quiet { s with sem, task := (wakeupQueue queue count s.task).2 } := by
  intro t hphase
  have ht := h t hphase
  simp only [wakeupQueue_task]
  split
  · exact ht.unblockTaskReason _
  exact ht

/-! ## Who holds the semaphore -/

/-- What the fields of the semaphore say about the holds: without an active writer there are only
readers, and they are counted; an active writer has all holds, and the depth counts them. -/
structure Counts (s : RwSystem τ) : Prop where
  shared : s.sem.writerActive = none →
    s.sem.lockDepth = 0 ∧ s.sem.readersCount = s.reads.length ∧ s.writes = []
  owned : ∀ w, s.sem.writerActive = some w →
    0 < s.sem.lockDepth ∧ s.sem.lockDepth = s.reads.length + s.writes.length ∧
      s.sem.readersCount = 0 ∧ (∀ t ∈ s.reads, t = w) ∧ ∀ t ∈ s.writes, t = w

/-- The invariant of the semaphore. -/
structure Inv (s : RwSystem τ) : Prop where
  quiet : s.Quiet
  counts : s.Counts

omit [DecidableEq τ] in
theorem Counts.active_of_mem (h : s.Counts) (ht : t ∈ s.writes) : s.sem.writerActive = some t := by
  cases hactive : s.sem.writerActive with
  | none =>
    rw [(h.shared hactive).2.2] at ht
    cases ht
  | some w => rw [(h.owned w hactive).2.2.2.2 t ht]

omit [DecidableEq τ] in
theorem Inv.sound (h : s.Inv) : s.Sound := by
  refine ⟨fun w hw t hne => ?_, fun hreads hwrites _ => ?_⟩
  · obtain ⟨-, -, -, hreads, hwrites⟩ := h.counts.owned w (hw.elim id h.counts.active_of_mem)
    exact ⟨fun ht => hne (hreads t ht), fun ht => hne (hwrites t ht)⟩
  cases hactive : s.sem.writerActive with
  | none =>
    obtain ⟨hdepth, hcount, -⟩ := h.counts.shared hactive
    exact ⟨rfl, by rw [hcount, hreads]; rfl, hdepth⟩
  | some w =>
    obtain ⟨hpos, hdepth, -⟩ := h.counts.owned w hactive
    rw [hreads, hwrites] at hdepth
    exact absurd hdepth (by simp; omega)

/-! ## One step -/

theorem Counts.readAcquired (h : s.Counts) (hnone : s.sem.writerActive = none) :
    (s.readAcquired t).Counts := by
  obtain ⟨hdepth, hcount, hwrites⟩ := h.shared hnone
  exact ⟨fun _ => ⟨hdepth, congrArg (· + 1) hcount, hwrites⟩,
    fun w hw => absurd (hnone.symm.trans hw) (by simp)⟩

theorem Counts.writeAcquired (h : s.Counts) (hnone : s.sem.writerActive = none)
    (hzero : s.sem.readersCount = 0) : (s.writeAcquired t).Counts := by
  obtain ⟨-, hcount, hwrites⟩ := h.shared hnone
  have hreads : s.reads = [] := eq_nil_of_length_eq_zero (hcount.symm.trans hzero)
  refine ⟨fun h' => absurd h' (by simp [RwSystem.writeAcquired]), fun w hw => ?_⟩
  cases hw
  simp [RwSystem.writeAcquired, hreads, hwrites, hzero]

/-- **A round of a reader**: it sleeps, or it has found no writer. -/
theorem Inv.readRound (h : s.Inv) : (s.readRound t).Inv := by
  unfold RwSystem.readRound
  split
  · next hcond => exact ⟨h.quiet.leave _ _ _, h.counts.readAcquired hcond.2⟩
  exact ⟨h.quiet.goOn (fun _ => .inl rfl) _ _ _, { h.counts with }⟩

/-- **A round of a writer**: it sleeps, or it has found neither a writer nor readers. -/
theorem Inv.writeRound (h : s.Inv) : (s.writeRound t).Inv := by
  unfold RwSystem.writeRound
  split
  · next hcond => exact ⟨h.quiet.leave _ _ _, h.counts.writeAcquired hcond.2 hcond.1⟩
  exact ⟨h.quiet.goOn (fun _ => .inl rfl) _ _ _, { h.counts with }⟩

omit [DecidableEq τ] in
theorem Counts.hold (h : s.Counts) (hactive : s.sem.writerActive = some t) {depth : Nat}
    {reads writes : List τ} (hpos : 0 < depth)
    (hlength : s.sem.lockDepth = s.reads.length + s.writes.length →
      depth = reads.length + writes.length)
    (hreads : ∀ t' ∈ reads, t' = t ∨ t' ∈ s.reads) (hwrites : ∀ t' ∈ writes, t' = t ∨ t' ∈ s.writes) :
    Counts { s with sem := { s.sem with lockDepth := depth }, reads, writes } := by
  obtain ⟨-, hdepth, hcount, hr, hw⟩ := h.owned t hactive
  refine ⟨fun hnone => absurd (hactive.symm.trans hnone) (by simp), fun w hw' => ?_⟩
  cases hactive.symm.trans hw'
  exact ⟨hpos, hlength hdepth, hcount, fun t' ht' => (hreads t' ht').elim id (hr t'),
    fun t' ht' => (hwrites t' ht').elim id (hw t')⟩

section

variable (h : s.Inv)
include h

/-- **`rwsem_acquire_read`.** -/
theorem Inv.rwsemAcquireRead : (s.rwsemAcquireRead t).Inv := by
  unfold RwSystem.rwsemAcquireRead
  split
  · next hactive =>
    refine ⟨h.quiet, h.counts.hold hactive (Nat.succ_pos _) (fun _ => ?_) (fun t' => mem_cons.1)
      fun t' => .inr⟩
    rw [length_cons]
    omega
  exact h.readRound

/-- **`rwsem_acquire_write`.** -/
theorem Inv.rwsemAcquireWrite : (s.rwsemAcquireWrite t).Inv := by
  unfold RwSystem.rwsemAcquireWrite
  split
  · next hactive =>
    refine ⟨h.quiet, h.counts.hold hactive (Nat.succ_pos _) (fun _ => ?_) (fun t' => .inr)
      fun t' => mem_cons.1⟩
    rw [length_cons]
    omega
  have h' : Inv { s with
      sem := { s.sem with waitingWritersCount := s.sem.waitingWritersCount + 1 } } :=
    ⟨h.quiet, { h.counts with }⟩
  exact h'.writeRound

theorem Inv.wakeWriters (count : Nat) : (s.wakeWriters count).Inv :=
  ⟨h.quiet.wake s.sem.writerQueue count _, { h.counts with }⟩

theorem Inv.wakeReaders (count : Nat) : (s.wakeReaders count).Inv :=
  ⟨h.quiet.wake s.sem.readerQueue count _, { h.counts with }⟩

/-- **`rwsem_release_read`**, where it is not the last hold of the active writer. -/
theorem Inv.rwsemReleaseRead (hheld : t ∈ s.reads)
    (hlast : s.sem.writerActive = some t → 1 < s.sem.lockDepth) :
    ∃ s', s.rwsemReleaseRead t = .ok s' ∧ s'.Inv := by
  have herase := length_erase_add_one hheld
  unfold RwSystem.rwsemReleaseRead
  split
  · next hactive =>
    have hmore := hlast hactive
    rw [assert_of (by omega)]
    exact ⟨_, rfl, h.quiet, h.counts.hold hactive (by omega) (by omega)
      (fun _ ht => .inr (mem_of_mem_erase ht)) fun _ => .inr⟩
  next hactive =>
  have hnone : s.sem.writerActive = none := by
    cases hw : s.sem.writerActive with
    | none => rfl
    | some w =>
      have hwt : t = w := (h.counts.owned w hw).2.2.2.1 t hheld
      exact absurd (hwt ▸ hw) hactive
  obtain ⟨hdepth, hcount, hwrites⟩ := h.counts.shared hnone
  rw [assert_of (by omega)]
  have h' : Inv { s with
      sem := { s.sem with readersCount := s.sem.readersCount - 1 }
      reads := s.reads.erase t } := by
    refine ⟨h.quiet, fun _ => ⟨hdepth, ?_, hwrites⟩,
      fun w hw => absurd (hnone.symm.trans hw) (by simp)⟩
    show s.sem.readersCount - 1 = (s.reads.erase t).length
    omega
  refine ⟨_, rfl, ?_⟩
  split
  · exact h'.wakeWriters 1
  exact h'

/-- **`rwsem_release_write`.** -/
theorem Inv.rwsemReleaseWrite (hheld : t ∈ s.writes) :
    ∃ s', s.rwsemReleaseWrite t = .ok s' ∧ s'.Inv := by
  have herase := length_erase_add_one hheld
  have hactive := h.counts.active_of_mem hheld
  obtain ⟨hpos, hdepth, hcount, -, -⟩ := h.counts.owned t hactive
  unfold RwSystem.rwsemReleaseWrite
  rw [assert_of hactive, assert_of (hpos)]
  dsimp only [ok_bind]
  split
  · next hzero =>
    -- the last hold goes, and with it the active writer
    have hreads : s.reads = [] := eq_nil_of_length_eq_zero (by omega)
    have hwrites : s.writes.erase t = [] := eq_nil_of_length_eq_zero (by omega)
    have h' : Inv { s with
        sem := { s.sem with lockDepth := s.sem.lockDepth - 1, writerActive := none }
        writes := s.writes.erase t } :=
      ⟨h.quiet, fun _ => ⟨hzero, by rw [hcount, hreads]; rfl, hwrites⟩, nofun⟩
    refine ⟨_, rfl, ?_⟩
    split
    · exact h'.wakeWriters 1
    exact h'.wakeReaders 0
  next hmore =>
  exact ⟨_, rfl, h.quiet, h.counts.hold hactive (by omega) (by omega) (fun _ => .inr)
    fun _ ht => .inr (mem_of_mem_erase ht)⟩

/-- **A task goes on after its sleep.** -/
theorem Inv.resume : (s.resume t).Inv := by
  unfold RwSystem.resume
  split
  · exact h
  next hawake =>
  have hreason (hphase : s.phase t ≠ .idle) : (s.task t).wakeupReason ≠ .signal :=
    (h.quiet t hphase).elim (fun hb => absurd (.inl hb) hawake) And.right
  cases hphase : s.phase t with
  | idle => exact h
  | readWait =>
    rw [if_neg (hreason (by rw [hphase]; decide))]
    exact h.readRound
  | writeWait =>
    dsimp only
    rw [if_neg (hreason (by rw [hphase]; decide))]
    exact h.writeRound

/-- **One step** of the system. -/
theorem Inv.step (i : RwStep τ) (hcalls : i.Disciplined s) (hlast : i.WriteReleasedLast s) :
    ∃ s', s.step i = .ok ((), s') ∧ s'.Inv := by
  cases i with
  | acquireRead t => exact ⟨_, rfl, h.rwsemAcquireRead⟩
  | releaseRead t =>
    obtain ⟨s', hrun, h'⟩ := h.rwsemReleaseRead hcalls.2 hlast
    exact ⟨s', by rw [RwSystem.step, hrun]; rfl, h'⟩
  | acquireWrite t => exact ⟨_, rfl, h.rwsemAcquireWrite⟩
  | releaseWrite t =>
    obtain ⟨s', hrun, h'⟩ := h.rwsemReleaseWrite hcalls.2
    exact ⟨s', by rw [RwSystem.step, hrun]; rfl, h'⟩
  | resume t => exact ⟨_, rfl, h.resume⟩
  | unblock t reason => ?_
  refine ⟨_, rfl, fun t' hphase => ?_, { h.counts with }⟩
  have ht' := h.quiet t' hphase
  by_cases heq : t' = t
  · subst heq
    show (update s.task t' _ t').Deaf
    rw [update_self]
    exact ht'.unblockTaskReason reason
  grind

end

omit [DecidableEq τ] in
/-- A semaphore after `rwsem_init`, with tasks that are not in its calls. -/
theorem init_inv (task : τ → SchedTask) : Inv { task } where
  quiet _ hphase := absurd rfl hphase
  counts := ⟨fun _ => ⟨rfl, rfl, rfl⟩, nofun⟩

end RwSystem

/-- **The read-write semaphore.** For every interleaving of disciplined calls of any number of tasks,
in which no active writer gives back its last hold with `rwsem_release_read`, no assertion fails, an
active writer is alone, and the semaphore is free whenever no task holds or acquires it. -/
theorem rwsem_sound {τ : Type} [DecidableEq τ] (task : τ → SchedTask) (steps : List (RwStep τ))
    (hcalls : CallsAll RwSystem.step (fun s i => i.Disciplined s ∧ i.WriteReleasedLast s)
      { task } steps) :
    RunAll RwSystem.step RwSystem.Sound { task } steps := by
  refine runAll_of_invariant (I := fun _ => RwSystem.Inv) (fun _ _ h => h.sound)
    (fun _ s i h hq => ?_) (RwSystem.init_inv task) hcalls
  obtain ⟨s', hrun, h'⟩ := h.step i hq.1 hq.2
  exact ⟨(), s', hrun, h'⟩

/-- A writer that also reads, and a reader that has to wait for it. -/
theorem rwsem_sound_nested :
    RunAll RwSystem.step RwSystem.Sound ({ task := fun _ => {} } : RwSystem (Fin 2))
      [.acquireWrite 0, .acquireRead 0, .acquireRead 1, .unblock 1 .signal, .resume 1,
        .releaseRead 0, .releaseWrite 0, .resume 1, .releaseRead 1] :=
  rwsem_sound (fun _ => {}) _ (by decide)

/-- **The write side goes first.** A task takes the write side and, while it has it, the read side,
and gives them back in the order in which it took them: nobody holds the semaphore, but the task
remains its active writer. -/
theorem rwsem_write_released_first :
    ¬ ∀ (tasks : Nat) (steps : List (RwStep (Fin tasks))),
      CallsAll RwSystem.step (fun s i => i.Disciplined s) {} steps →
      RunAll RwSystem.step RwSystem.Sound {} steps := by
  intro h
  have hrun := h 1 [.acquireWrite 0, .acquireRead 0, .releaseWrite 0, .releaseRead 0] (by decide)
  have hsound := hrun.final (rfl)
  exact absurd (hsound.free rfl rfl (by decide)).1 (by decide)

end Stanix
