import Stanix.Klib.Ringbuf
import Stanix.Task.Sleep

/-!
# Pipes

`kernel/fs/pipe.c`: a ring buffer of 4096 bytes with a lock, written at one end and read at the
other. A reader that finds nothing and a writer that finds too little room sleep without the lock and
test their condition again when they are woken. Each section under the lock is a step, so that a run
of steps is an interleaving of any number of readers, writers and closes.

What happened is kept in a log: the bytes that were put into the ring, by which call, and the returns
of the calls.

The buffers of the callers do not fault. A call holds a reference to its file, so that no task is in
a call on an end that is closed; the runs here may close an end at any time, once, and end with the
second close, which frees the pipe.
-/

namespace Stanix

open List Function Ringbuffer

/-- The two files of a pipe. -/
inductive PipeEnd
  | read
  | write
  deriving DecidableEq

/-- A call of `pipe_write`: a number of its own, the bytes and whether its file is non-blocking. -/
structure PipeWrite where
  id : Nat
  data : List (BitVec 8)
  nonblock : Bool

/-- Where a task is: in no call, asleep in `pipe_raw_read`, or asleep in `pipe_raw_write` with the
bytes still to be written and the number of bytes written. -/
inductive PipePhase
  | idle
  | readWait (count : Nat)
  | writeWait (call : PipeWrite) (buffer : List (BitVec 8)) (total : Nat)

/-- What happened: bytes were put into the ring for a call, a call returned, an end was closed. -/
inductive PipeEvent
  | accepted (id : Nat) (bytes : List (BitVec 8))
  | wrote (call : PipeWrite) (ret : Except Errno Nat)
  | read (count : Nat) (ret : Except Errno (List (BitVec 8)))
  | closed (side : PipeEnd)

/-- A pipe and the tasks that use it; the log has the last event first. -/
structure PipeSystem (τ : Type _) where
  isbroken : Bool
  ring : Ringbuffer
  readerQueue : List τ
  writerQueue : List τ
  task : τ → SchedTask
  phase : τ → PipePhase
  calls : Nat
  events : List PipeEvent

/-- A step: a call up to its end or to the point where it sleeps, the part of a call after a sleep, a
close, or a wake-up that comes from elsewhere. `signals` says whether a signal waits to be handled
by a task that is about to sleep. -/
inductive PipeStep (τ : Type _)
  | read (t : τ) (count : Nat) (nonblock signals : Bool)
  | write (t : τ) (data : List (BitVec 8)) (nonblock signals : Bool)
  | resume (t : τ) (signals : Bool)
  | close (side : PipeEnd)
  | unblock (t : τ) (reason : WakeupReason)

/-- Source: `PIPE_SIZE` (`pipe.c:22`). -/
def pipeSize : Nat := 4096

namespace PipeSystem

variable {τ : Type _} [DecidableEq τ]

/-- Source: `pipe_create` (`pipe.c:195`), where the allocations succeed. -/
def pipeCreate (task : τ → SchedTask) : PipeSystem τ where
  isbroken := false
  ring := .init pipeSize
  readerQueue := []
  writerQueue := []
  task
  phase _ := .idle
  calls := 0
  events := []

/-- A task leaves its call; the log says with what. -/
def leave (s : PipeSystem τ) (t : τ) (event : PipeEvent) : PipeSystem τ :=
  { s with phase := update s.phase t .idle, events := event :: s.events }

/-! ## Reading -/

/-- A task goes to sleep in `pipe_raw_read` (`pipe.c:33`). -/
def readSleep (s : PipeSystem τ) (t : τ) (count : Nat) (signals : Bool) : PipeSystem τ :=
  { s with
    readerQueue := sleepAddToQueue s.readerQueue t
    task := update s.task t ((s.task t).blockPrepareInterruptible signals)
    phase := update s.phase t (.readWait count) }

/-- The end of `pipe_raw_read` (`pipe.c:44`). -/
def readRing (s : PipeSystem τ) (t : τ) (count : Nat) : PipeSystem τ :=
  let (ret, ring) := s.ring.ringbufferRead count
  let (writerQueue, task) := wakeupQueue s.writerQueue 0 s.task
  { s with ring, writerQueue, task }.leave t (.read count ret)

/-- Source: `pipe_raw_read` (`pipe.c:24`). Nothing is available when the task sleeps, and the pipe is
not broken, so that the condition of the sleep does not hold at first. -/
def pipeRawRead (s : PipeSystem τ) (t : τ) (count : Nat) (nonblock signals : Bool) : PipeSystem τ :=
  if s.ring.readAvailable = 0 then
    if s.isbroken then s.leave t (.read count (.ok []))
    else if nonblock then s.leave t (.read count (.error .again))
    else s.readSleep t count signals
  else s.readRing t count

/-- The rest of `pipe_raw_read` for a task that `block_task` returned to. -/
def readResume (s : PipeSystem τ) (t : τ) (count : Nat) (signals : Bool) : PipeSystem τ :=
  if (s.task t).wakeupReason = .signal then
    { s with readerQueue := sleepRemoveFromQueue s.readerQueue t }.leave t
      (.read count (.error .intr))
  else if s.ring.readAvailable > 0 ∨ s.isbroken then
    if s.isbroken ∧ s.ring.readAvailable = 0 then s.leave t (.read count (.ok []))
    else s.readRing t count
  else s.readSleep t count signals

/-! ## Writing -/

/-- The end of `pipe_raw_write` (`pipe.c:95`) after `total` bytes, with the error `e` or none. -/
def writeFinish (s : PipeSystem τ) (t : τ) (call : PipeWrite) (total : Nat) (e : Option Errno) :
    PipeSystem τ :=
  match e with
  | some e => s.leave t (.wrote call (if total = 0 then .error e else .ok total))
  | none => s.leave t (.wrote call (.ok total))

/-- A task goes to sleep in `pipe_raw_write` (`pipe.c:77`). -/
def writeSleep (s : PipeSystem τ) (t : τ) (call : PipeWrite) (buffer : List (BitVec 8))
    (total : Nat) (signals : Bool) : PipeSystem τ :=
  { s with
    writerQueue := sleepAddToQueue s.writerQueue t
    task := update s.task t ((s.task t).blockPrepareInterruptible signals)
    phase := update s.phase t (.writeWait call buffer total) }

/-- The room that a write waits for (`pipe.c:69`). -/
def minimumWrite (buffer : List (BitVec 8)) : Nat :=
  if buffer.length < 4096 then buffer.length else 4096

/-- Bytes were put into the ring (`pipe.c:87`). -/
def accept (s : PipeSystem τ) (id : Nat) (bytes : List (BitVec 8)) (ring : Ringbuffer) :
    PipeSystem τ :=
  let (readerQueue, task) := wakeupQueue s.readerQueue 0 s.task
  { s with ring, readerQueue, task, events := .accepted id bytes :: s.events }

/-- The loop of `pipe_raw_write` (`pipe.c:66`) while it has the lock. The fuel is the number of
rounds, each of which writes something. -/
def writeLoop : Nat → PipeSystem τ → τ → PipeWrite → List (BitVec 8) → Nat → Bool →
    Exec (PipeSystem τ)
  | 0, _, _, _, _, _, _ => .error .fuel
  | fuel + 1, s, t, call, buffer, total, signals =>
    if buffer.length = 0 then return s.writeFinish t call total none
    else if s.ring.writeAvailable < minimumWrite buffer then
      if call.nonblock then return s.writeFinish t call total (some .again)
      -- the condition of the sleep holds if the pipe is broken
      else if s.isbroken then return s.writeFinish t call total (some .pipe)
      else return s.writeSleep t call buffer total signals
    else
      match s.ring.ringbufferWrite buffer with
      | (.error _, _) => .error .unreachable
      | (.ok written, ring) =>
        writeLoop fuel (s.accept call.id (buffer.take written) ring) t call (buffer.drop written)
          (total + written) signals

/-- Source: `pipe_raw_write` (`pipe.c:58`). -/
def pipeRawWrite (s : PipeSystem τ) (t : τ) (data : List (BitVec 8)) (nonblock signals : Bool) :
    Exec (PipeSystem τ) :=
  let call : PipeWrite := ⟨s.calls, data, nonblock⟩
  let s := { s with calls := s.calls + 1 }
  if s.isbroken then return s.leave t (.wrote call (.error .pipe))
  else writeLoop (data.length + 1) s t call data 0 signals

/-- The rest of `pipe_raw_write` for a task that `block_task` returned to. -/
def writeResume (s : PipeSystem τ) (t : τ) (call : PipeWrite) (buffer : List (BitVec 8))
    (total : Nat) (signals : Bool) : Exec (PipeSystem τ) :=
  if (s.task t).wakeupReason = .signal then
    return { s with writerQueue := sleepRemoveFromQueue s.writerQueue t }.writeFinish t call total
      (some .intr)
  else if s.ring.writeAvailable ≥ minimumWrite buffer ∨ s.isbroken then
    if s.isbroken then return s.writeFinish t call total (some .pipe)
    else writeLoop (buffer.length + 1) s t call buffer total signals
  else return s.writeSleep t call buffer total signals

/-! ## Steps -/

/-- Whether an end was closed. -/
def isClosed (side : PipeEnd) : List PipeEvent → Bool
  | [] => false
  | .closed side' :: older => side' = side || isClosed side older
  | _ :: older => isClosed side older

/-- Source: `pipe_close` (`pipe.c:161`), of the first end that is closed; the second one frees the
pipe. -/
def pipeClose (s : PipeSystem τ) (side : PipeEnd) : PipeSystem τ :=
  let events := .closed side :: s.events
  if s.isbroken then { s with events }
  else
    let (readerQueue, task) := wakeupQueue s.readerQueue 0 s.task
    let (writerQueue, task) := wakeupQueue s.writerQueue 0 task
    { s with isbroken := true, readerQueue, writerQueue, task, events }

/-- A task is no longer asleep in its call. -/
def awake (s : PipeSystem τ) (t : τ) : PipeSystem τ :=
  { s with phase := update s.phase t .idle }

/-- The rest of the call of a task that is runnable again. -/
def resume (s : PipeSystem τ) (t : τ) (signals : Bool) : Exec (PipeSystem τ) :=
  if (s.task t).Asleep then return s
  else
    match s.phase t with
    | .idle => return s
    | .readWait count => return (s.awake t).readResume t count signals
    | .writeWait call buffer total => (s.awake t).writeResume t call buffer total signals

/-- One step of the system. A task makes one call at a time, on an end that is open; nothing uses
the pipe when both are closed. -/
def step (s : PipeSystem τ) (i : PipeStep τ) : Exec (Unit × PipeSystem τ) :=
  if isClosed .read s.events ∧ isClosed .write s.events then return ((), s)
  else
    match i with
    | .read t count nonblock signals =>
      match s.phase t with
      | .idle =>
        if isClosed .read s.events then return ((), s)
        else return ((), s.pipeRawRead t count nonblock signals)
      | _ => return ((), s)
    | .write t data nonblock signals =>
      match s.phase t with
      | .idle =>
        if isClosed .write s.events then return ((), s)
        else return ((), ← s.pipeRawWrite t data nonblock signals)
      | _ => return ((), s)
    | .resume t signals => return ((), ← s.resume t signals)
    | .close side =>
      if isClosed side s.events then return ((), s) else return ((), s.pipeClose side)
    | .unblock t reason =>
      return ((), { s with
        task := update s.task t ((s.task t).unblockTaskReason reason).2 })

end PipeSystem

/-! ## What should hold -/

namespace PipeEvent

/-- The bytes that were accepted, in order. -/
def acceptedBytes : List PipeEvent → List (BitVec 8)
  | [] => []
  | .accepted _ bytes :: older => acceptedBytes older ++ bytes
  | _ :: older => acceptedBytes older

/-- The bytes that reads have returned, in order. -/
def readBytes : List PipeEvent → List (BitVec 8)
  | [] => []
  | .read _ (.ok bytes) :: older => readBytes older ++ bytes
  | _ :: older => readBytes older

/-- The pieces in which the bytes of a call were accepted, in order. -/
def chunks (id : Nat) : List PipeEvent → List (List (BitVec 8))
  | [] => []
  | .accepted id' bytes :: older =>
    if id' = id then chunks id older ++ [bytes] else chunks id older
  | _ :: older => chunks id older

/-- An end was closed. -/
def Closed (events : List PipeEvent) : Prop := ∃ side, .closed side ∈ events

/-- All bytes of a write in one piece. -/
def whole (data : List (BitVec 8)) : List (List (BitVec 8)) := if data = [] then [] else [data]

/-- A write was accepted at once and in one piece, or not at all. -/
def AllOrNothing (older : List PipeEvent) (call : PipeWrite) (ret : Except Errno Nat) : Prop :=
  ret = .ok call.data.length ∧ chunks call.id older = whole call.data ∨
    (∃ e, ret = .error e) ∧ chunks call.id older = []

/-- What the return of a call says about the log before it: a write returns the number of bytes
accepted from it, and is atomic up to 4096 bytes; a read returns nothing only after a close and when
all bytes were read. -/
def Law : PipeEvent → List PipeEvent → Prop
  | .wrote call ret, older =>
    (∀ n, ret = .ok n → (chunks call.id older).flatten = call.data.take n) ∧
      (∀ e, ret = .error e → (chunks call.id older).flatten = []) ∧
      (call.data.length ≤ 4096 → AllOrNothing older call ret)
  | .read count ret, older =>
    ret = .ok [] → 0 < count → Closed older ∧ readBytes older = acceptedBytes older
  | _, _ => True

end PipeEvent

open PipeEvent

/-- The property of a pipe: the bytes read are a beginning of the bytes accepted; a blocking write of
at most 4096 bytes that returns its full count stands in one piece among the bytes accepted; a
non-blocking one is accepted or refused as a whole; and a read of something returns nothing only
after an end was closed and all accepted bytes were read. -/
structure PipeSystem.Lawful {τ : Type _} (s : PipeSystem τ) : Prop where
  inOrder : readBytes s.events <+: acceptedBytes s.events
  contiguous : ∀ call older, (.wrote call (.ok call.data.length) :: older) <:+ s.events →
    call.nonblock = false → call.data.length ≤ 4096 →
    chunks call.id older = whole call.data ∧ call.data <:+: acceptedBytes older
  atomic : ∀ call ret older, (.wrote call ret :: older) <:+ s.events →
    call.nonblock = true → call.data.length ≤ 4096 → AllOrNothing older call ret
  eof : ∀ count older, (.read count (.ok []) :: older) <:+ s.events → 0 < count →
    Closed older ∧ readBytes older = acceptedBytes older

namespace PipeEvent

variable {events : List PipeEvent} {id : Nat}

@[simp] theorem chunks_accepted_self (bytes : List (BitVec 8)) :
    chunks id (.accepted id bytes :: events) = chunks id events ++ [bytes] := if_pos rfl

theorem chunks_accepted_of_ne {id' : Nat} (h : id' ≠ id) (bytes : List (BitVec 8)) :
    chunks id (.accepted id' bytes :: events) = chunks id events := if_neg h

theorem infix_acceptedBytes {bytes : List (BitVec 8)} (h : bytes ∈ chunks id events) :
    bytes <:+: acceptedBytes events := by
  induction events with
  | nil => cases h
  | cons e older ih => ?_
  cases e with
  | accepted id' bytes' =>
    by_cases heq : id' = id
    · subst heq
      rw [chunks_accepted_self, mem_append, mem_singleton] at h
      rcases h with h | rfl
      · exact (ih h).trans (prefix_append ..).isInfix
      exact (suffix_append ..).isInfix
    rw [chunks_accepted_of_ne heq] at h
    exact (ih h).trans (prefix_append ..).isInfix
  | wrote _ _ | closed _ => exact ih h
  | read _ _ => exact ih h

end PipeEvent

/-! ## The invariant -/

/-- A write under way, with `buffer` still to be written: the pieces accepted so far are the rest of
its data, and up to 4096 bytes there are none of them or all. -/
structure PipeWrite.Pending (call : PipeWrite) (events : List PipeEvent)
    (buffer : List (BitVec 8)) (total : Nat) : Prop where
  data : call.data = (chunks call.id events).flatten ++ buffer
  total : total = (chunks call.id events).flatten.length
  short : call.data.length ≤ 4096 →
    chunks call.id events = if buffer = [] then whole call.data else []

theorem PipeWrite.Pending.congr {call : PipeWrite} {events events' : List PipeEvent}
    {buffer : List (BitVec 8)} {total : Nat} (h : call.Pending events buffer total)
    (heq : chunks call.id events' = chunks call.id events) : call.Pending events' buffer total :=
  ⟨by rw [heq]; exact h.data, by rw [heq]; exact h.total, by rw [heq]; exact h.short⟩

namespace PipeSystem

variable {τ : Type _} [DecidableEq τ] {s : PipeSystem τ} {t : τ} {call : PipeWrite}
  {buffer : List (BitVec 8)} {total : Nat} {signals nonblock : Bool} {e : PipeEvent} {count : Nat}

/-- A write that no sleeping task is in, under way. -/
structure Active (s : PipeSystem τ) (call : PipeWrite) (buffer : List (BitVec 8)) (total : Nat) :
    Prop where
  known : call.id < s.calls
  alone : ∀ t call' buffer' total', s.phase t = .writeWait call' buffer' total' →
    call'.id ≠ call.id
  pending : call.Pending s.events buffer total

/-- The invariant of a pipe. -/
structure Inv (s : PipeSystem τ) : Prop where
  valid : s.ring.Valid
  size : s.ring.bufferSize = pipeSize
  inOrder : acceptedBytes s.events = readBytes s.events ++ s.ring.content
  broken : s.isbroken = true ↔ Closed s.events
  fresh : ∀ id, s.calls ≤ id → chunks id s.events = []
  waiting : ∀ t call buffer total, s.phase t = .writeWait call buffer total →
    call.id < s.calls ∧ buffer ≠ [] ∧ call.Pending s.events buffer total
  distinct : ∀ t t' call buffer total call' buffer' total',
    s.phase t = .writeWait call buffer total → s.phase t' = .writeWait call' buffer' total' →
    call.id = call'.id → t = t'
  law : ∀ e older, (e :: older) <:+ s.events → e.Law older

omit [DecidableEq τ] in
theorem Inv.lawful (h : s.Inv) : s.Lawful := by
  refine ⟨⟨_, h.inOrder.symm⟩, fun call older hlog _ hshort => ?_,
    fun call ret older hlog _ hshort => (h.law _ _ hlog).2.2 hshort,
    fun count older hlog => h.law _ _ hlog rfl⟩
  rcases (h.law _ _ hlog).2.2 hshort with ⟨-, hchunks⟩ | ⟨⟨e, he⟩, -⟩
  · refine ⟨hchunks, ?_⟩
    by_cases hnil : call.data = []
    · rw [hnil]
      exact ( nil_prefix ..).isInfix
    have hmem : call.data ∈ chunks call.id older := by
      rw [hchunks, whole, if_neg hnil]
      exact mem_singleton_self _
    exact infix_acceptedBytes hmem
  cases he

omit [DecidableEq τ] in
theorem Inv.law_cons (h : s.Inv) {e' : PipeEvent} {older : List PipeEvent}
    (hlog : (e' :: older) <:+ e :: s.events) (he : e.Law s.events) : e'.Law older := by
  rcases suffix_cons_iff.1 hlog with heq | hlog
  · cases heq
    exact he
  exact h.law e' older hlog

section Phase

variable {x : PipePhase} (hx : ∀ call buffer total, x ≠ .writeWait call buffer total)
include hx

theorem writeWait_of_update {t' : τ} (hp : update s.phase t x t' = .writeWait call buffer total) :
    t' ≠ t ∧ s.phase t' = .writeWait call buffer total := by
  by_cases heq : t' = t
  · rw [heq, update_self] at hp
    exact absurd hp (hx _ _ _)
  exact ⟨heq, by rwa [update_of_ne heq] at hp⟩

theorem Inv.update_phase (h : s.Inv) (t : τ) (readerQueue : List τ) (task : τ → SchedTask) :
    Inv { s with readerQueue, task, phase := update s.phase t x } :=
  ⟨h.valid, h.size, h.inOrder, h.broken, h.fresh,
    fun t' _ _ _ hp => h.waiting t' _ _ _ (writeWait_of_update hx hp).2,
    fun t1 t2 _ _ _ _ _ _ h1 h2 => h.distinct t1 t2 _ _ _ _ _ _ (writeWait_of_update hx h1).2
      (writeWait_of_update hx h2).2, h.law⟩

end Phase

/-! ## Leaving a call -/

section

variable (h : s.Inv)

include h

theorem Inv.leave {ring : Ringbuffer} (readerQueue writerQueue : List τ) (task : τ → SchedTask)
    (hvalid : ring.Valid) (hsize : ring.bufferSize = pipeSize)
    (hbytes : acceptedBytes (e :: s.events) = readBytes (e :: s.events) ++ ring.content)
    (hchunks : ∀ id, chunks id (e :: s.events) = chunks id s.events)
    (hclosed : ∀ side, e ≠ .closed side) (hlaw : e.Law s.events) :
    ({ s with ring, readerQueue, writerQueue, task }.leave t e).Inv := by
  have h' := h.update_phase (x := .idle) nofun t s.readerQueue s.task
  refine ⟨hvalid, hsize, hbytes, h.broken.trans ?_, fun id hid => ?_, fun t' call buffer total hp => ?_,
    h'.distinct, fun _ _ hlog => h.law_cons hlog hlaw⟩
  · refine exists_congr fun side => ?_
    show _ ↔ .closed side ∈ e :: s.events
    simp [Ne.symm (hclosed side)]
  · show chunks id (e :: s.events) = []
    rw [hchunks]
    exact h.fresh id hid
  obtain ⟨hid, hnil, hpending⟩ := h'.waiting t' call buffer total hp
  exact ⟨hid, hnil, hpending.congr (hchunks _)⟩

theorem Inv.leave_ring (readerQueue writerQueue : List τ) (task : τ → SchedTask)
    (haccepted : acceptedBytes (e :: s.events) = acceptedBytes s.events)
    (hread : readBytes (e :: s.events) = readBytes s.events)
    (hchunks : ∀ id, chunks id (e :: s.events) = chunks id s.events)
    (hclosed : ∀ side, e ≠ .closed side) (hlaw : e.Law s.events) :
    ({ s with readerQueue, writerQueue, task }.leave t e).Inv :=
  h.leave readerQueue writerQueue task h.valid h.size (by rw [haccepted, hread, h.inOrder]) hchunks
    hclosed hlaw

theorem Inv.readFails (readerQueue : List τ) {e : Errno} :
    ({ s with readerQueue }.leave t (.read count (.error e))).Inv :=
  h.leave_ring readerQueue s.writerQueue s.task rfl rfl (fun _ => rfl) nofun
    nofun

theorem Inv.readEnds (hempty : s.ring.readAvailable = 0) (hbroken : s.isbroken = true) :
    (s.leave t (.read count (.ok []))).Inv := by
  have hcontent : s.ring.content = [] := eq_nil_of_length_eq_zero (by simpa using hempty)
  refine h.leave_ring s.readerQueue s.writerQueue s.task rfl (append_nil _) (fun _ => rfl)
    nofun fun _ _ => ⟨h.broken.1 hbroken, ?_⟩
  rw [h.inOrder, hcontent, append_nil]

/-- **A read takes bytes out of the ring**, which is not empty. -/
theorem Inv.readRing (hsome : s.ring.readAvailable ≠ 0) : (s.readRing t count).Inv := by
  obtain ⟨ring, hread, hvalid, hcontent, hsize⟩ := read_spec h.valid count
  unfold PipeSystem.readRing
  rw [hread]
  refine h.leave _ _ _ hvalid (hsize.trans h.size) ?_ (fun _ => rfl) nofun
    fun heq hpos => ?_
  · show acceptedBytes s.events = (readBytes s.events ++ s.ring.content.take count) ++ ring.content
    rw [h.inOrder, hcontent, append_assoc, take_append_drop]
  have hnil := Except.ok.inj heq
  have hlength := congrArg List.length hnil
  rw [length_take, length_content, length_nil] at hlength
  omega

/-- A write returns. -/
theorem Inv.writeFinish (writerQueue : List τ) (hactive : s.Active call buffer total)
    {e : Option Errno} (hend : e = none → buffer = []) (hmore : e ≠ none → buffer ≠ []) :
    ({ s with writerQueue }.writeFinish t call total e).Inv := by
  obtain ⟨hdata, htotal, hshort⟩ := hactive.pending
  have hleave {ret : Except Errno Nat} (hlaw : (PipeEvent.wrote call ret).Law s.events) :
      ({ s with writerQueue }.leave t (.wrote call ret)).Inv :=
    h.leave_ring s.readerQueue writerQueue s.task rfl rfl (fun _ => rfl)
      nofun hlaw
  have htake : (chunks call.id s.events).flatten = call.data.take total := by
    rw [hdata, htotal, take_left]
  cases e with
  | none =>
    have hnil := hend rfl
    have hfull : total = call.data.length := by rw [hdata, hnil, append_nil, htotal]
    refine hleave ⟨fun n hn => ?_, nofun, fun hle => .inl ⟨?_, ?_⟩⟩
    · cases hn
      exact htake
    · rw [hfull]
    rw [hshort hle, if_pos hnil]
  | some e => ?_
  have hnil := hmore (by simp)
  unfold PipeSystem.writeFinish
  dsimp only
  split
  · next hzero =>
    have hflat := eq_nil_of_length_eq_zero (htotal.symm.trans hzero)
    refine hleave ⟨nofun, fun _ _ => hflat, fun hle => .inr ⟨⟨e, rfl⟩, ?_⟩⟩
    rw [hshort hle, if_neg hnil]
  next hpos =>
  refine hleave ⟨fun n hn => ?_, nofun, fun hle => absurd ?_ hpos⟩
  · cases hn
    exact htake
  rw [htotal, hshort hle, if_neg hnil]
  rfl

/-! ## Sleeping and writing -/

theorem Inv.readSleep : (s.readSleep t count signals).Inv :=
  h.update_phase (fun _ _ _ heq => by cases heq) t _ _

section

variable (hactive : s.Active call buffer total)

include hactive

/-- A task goes to sleep in a write. -/
theorem Inv.writeSleep (hmore : buffer ≠ []) : (s.writeSleep t call buffer total signals).Inv := by
  have hphase (t' : τ) (hne : t' ≠ t) :
      (s.writeSleep t call buffer total signals).phase t' = s.phase t' :=
    update_of_ne hne ..
  have hself : (s.writeSleep t call buffer total signals).phase t = .writeWait call buffer total :=
    update_self ..
  refine ⟨h.valid, h.size, h.inOrder, h.broken, h.fresh, fun t' call' buffer' total' hp => ?_,
    fun t1 t2 call1 buffer1 total1 call2 buffer2 total2 h1 h2 hid => ?_, h.law⟩
  · by_cases heq : t' = t
    · subst heq
      cases hself.symm.trans hp
      exact ⟨hactive.known, hmore, hactive.pending⟩
    exact h.waiting t' _ _ _ ((hphase t' heq).symm.trans hp)
  by_cases heq1 : t1 = t
  · by_cases heq2 : t2 = t
    · rw [heq1, heq2]
    subst heq1
    cases hself.symm.trans h1
    exact absurd hid.symm (hactive.alone t2 _ _ _ ((hphase t2 heq2).symm.trans h2))
  by_cases heq2 : t2 = t
  · subst heq2
    cases hself.symm.trans h2
    exact absurd hid (hactive.alone t1 _ _ _ ((hphase t1 heq1).symm.trans h1))
  exact h.distinct t1 t2 _ _ _ _ _ _ ((hphase t1 heq1).symm.trans h1)
    ((hphase t2 heq2).symm.trans h2) hid

/-- **A round of a write** that found room. -/
theorem Inv.accept (hmore : buffer ≠ []) (hroom : minimumWrite buffer ≤ s.ring.writeAvailable) :
    ∃ written ring, s.ring.ringbufferWrite buffer = (.ok written, ring) ∧ 0 < written ∧
      (s.accept call.id (buffer.take written) ring).Inv ∧
      (s.accept call.id (buffer.take written) ring).Active call (buffer.drop written)
        (total + written) := by
  obtain ⟨ring, hwrite, hvalid, hcontent, hsize⟩ := write_spec h.valid buffer
  obtain ⟨hdata, htotal, hshort⟩ := hactive.pending
  have hpos : 0 < buffer.length := length_pos_of_ne_nil hmore
  have hmin : 0 < min buffer.length s.ring.writeAvailable := by
    unfold minimumWrite at hroom
    split at hroom <;> omega
  rw [← take_written] at hcontent
  have hlength : (buffer.take (min buffer.length s.ring.writeAvailable)).length =
      min buffer.length s.ring.writeAvailable := by
    rw [length_take]
    omega
  generalize hw : min buffer.length s.ring.writeAvailable = written at *
  have hself : chunks call.id (s.accept call.id (buffer.take written) ring).events =
      chunks call.id s.events ++ [buffer.take written] := chunks_accepted_self _
  refine ⟨written, ring, hwrite, hmin, ⟨hvalid, hsize.trans h.size, ?_, ?_, fun id hid => ?_,
    fun t' call' buffer' total' hp => ?_, h.distinct, fun _ _ hlog => h.law_cons hlog trivial⟩,
    hactive.known, hactive.alone, ?_, ?_, fun hle => ?_⟩
  · show acceptedBytes s.events ++ buffer.take written = readBytes s.events ++ ring.content
    rw [h.inOrder, hcontent, append_assoc]
  · refine h.broken.trans (exists_congr fun side => ?_)
    show _ ↔ .closed side ∈ .accepted call.id (buffer.take written) :: s.events
    simp
  · have hne : call.id ≠ id := fun heq => by
      have := hactive.known
      have hid : s.calls ≤ id := hid
      omega
    exact (chunks_accepted_of_ne hne _).trans (h.fresh id hid)
  · obtain ⟨hid, hnil, hpending⟩ := h.waiting t' call' buffer' total' hp
    exact ⟨hid, hnil, hpending.congr (chunks_accepted_of_ne (hactive.alone t' _ _ _ hp).symm _)⟩
  · rw [hself, flatten_append, flatten_singleton, append_assoc, take_append_drop]
    exact hdata
  · rw [hself, flatten_append, flatten_singleton, length_append, hlength, htotal]
  -- up to 4096 bytes, all of them are written at once
  have hnone : chunks call.id s.events = [] := by rw [hshort hle, if_neg hmore]
  have hall : buffer = call.data := by rw [hdata, hnone]; rfl
  have hfull : buffer.length ≤ written := by
    rw [← hall] at hle
    unfold minimumWrite at hroom
    split at hroom <;> omega
  rw [hself, hnone, take_of_length_le hfull, drop_of_length_le hfull, whole, ← hall, if_neg hmore]
  rfl

/-- **The loop of a write** ends: the write is complete, has failed or sleeps. -/
theorem Inv.writeLoop {fuel : Nat} (hfuel : buffer.length < fuel) :
    ∃ s', writeLoop fuel s t call buffer total signals = .ok s' ∧ s'.Inv := by
  induction fuel generalizing s buffer total with
  | zero => omega
  | succ fuel ih => ?_
  unfold PipeSystem.writeLoop
  split
  · next hnil =>
    have hnil := eq_nil_of_length_eq_zero hnil
    exact ⟨_, rfl, h.writeFinish s.writerQueue hactive (fun _ => hnil) fun hne => absurd rfl hne⟩
  next hlen =>
  have hmore : buffer ≠ [] := fun hnil => hlen (by rw [hnil]; rfl)
  split
  · iterate 2
      split
      · exact ⟨_, rfl, h.writeFinish s.writerQueue hactive nofun fun _ => hmore⟩
    exact ⟨_, rfl, h.writeSleep hactive hmore⟩
  next hroom =>
  obtain ⟨written, ring, hwrite, hpos, h', hactive'⟩ := h.accept hactive hmore (not_lt.1 hroom)
  rw [hwrite]
  refine ih h' hactive' ?_
  rw [length_drop]
  omega

end

/-- **`pipe_raw_write`.** -/
theorem Inv.pipeRawWrite {data : List (BitVec 8)} :
    ∃ s', s.pipeRawWrite t data nonblock signals = .ok s' ∧ s'.Inv := by
  have hchunks := h.fresh _ le_rfl
  have h' : Inv { s with calls := s.calls + 1 } :=
    ⟨h.valid, h.size, h.inOrder, h.broken, fun id hid => h.fresh id (by
        have hid : s.calls + 1 ≤ id := hid
        omega), fun t' _ _ _ hp => by
          obtain ⟨hid, hrest⟩ := h.waiting t' _ _ _ hp
          exact ⟨Nat.lt_succ_of_lt hid, hrest⟩, h.distinct, h.law⟩
  have hactive : Active { s with calls := s.calls + 1 } ⟨s.calls, data, nonblock⟩ data 0 := by
    refine ⟨Nat.lt_succ_self _, fun t' call' _ _ hp heq => ?_, ?_, ?_, fun _ => ?_⟩
    · have hid : call'.id < s.calls := (h.waiting t' _ _ _ hp).1
      have heq : call'.id = s.calls := heq
      omega
    · simp [hchunks]
    · simp [hchunks]
    simp only [hchunks, whole]
    split <;> rfl
  unfold PipeSystem.pipeRawWrite
  dsimp only
  split
  · refine ⟨_, rfl, h'.leave_ring s.readerQueue s.writerQueue s.task rfl rfl (fun _ => rfl)
      nofun ⟨nofun, fun _ _ => ?_, fun _ => .inr ⟨⟨_, rfl⟩, ?_⟩⟩⟩
    · rw [hchunks]
      rfl
    exact hchunks
  exact h'.writeLoop hactive (Nat.lt_succ_self _)

end

/-! ## One step -/

section

variable (h : s.Inv)
include h

theorem Inv.awake (t : τ) : (s.awake t).Inv :=
  h.update_phase (fun _ _ _ heq => by cases heq) t s.readerQueue s.task

theorem Inv.active_awake (hphase : s.phase t = .writeWait call buffer total) :
    (s.awake t).Active call buffer total := by
  obtain ⟨hid, -, hpending⟩ := h.waiting t call buffer total hphase
  refine ⟨hid, fun t' call' _ _ hp heq => ?_, hpending⟩
  obtain ⟨hne, hp⟩ := writeWait_of_update (fun _ _ _ heq => by cases heq) hp
  exact hne (h.distinct t' t _ _ _ _ _ _ hp hphase heq)

/-- **`pipe_raw_read`.** -/
theorem Inv.pipeRawRead : (s.pipeRawRead t count nonblock signals).Inv := by
  unfold PipeSystem.pipeRawRead
  split
  · next hempty =>
    split
    · next hbroken => exact h.readEnds hempty hbroken
    split
    · exact h.readFails s.readerQueue
    exact h.readSleep
  next hsome => exact h.readRing hsome

theorem Inv.readResume : (s.readResume t count signals).Inv := by
  unfold PipeSystem.readResume
  split
  · exact h.readFails _
  split
  · next hcond =>
    split
    · next hend => exact h.readEnds hend.2 hend.1
    next hgo =>
    refine h.readRing fun hempty => ?_
    rcases hcond with hcond | hcond
    · omega
    exact hgo ⟨hcond, hempty⟩
  exact h.readSleep

theorem Inv.writeResume (hactive : s.Active call buffer total) (hmore : buffer ≠ []) :
    ∃ s', s.writeResume t call buffer total signals = .ok s' ∧ s'.Inv := by
  have hfails (writerQueue : List τ) (e : Errno) :
      ({ s with writerQueue }.writeFinish t call total (some e)).Inv :=
    h.writeFinish writerQueue hactive nofun fun _ => hmore
  unfold PipeSystem.writeResume
  split
  · exact ⟨_, rfl, hfails _ _⟩
  split
  · split
    · exact ⟨_, rfl, hfails s.writerQueue _⟩
    exact h.writeLoop hactive (Nat.lt_succ_self _)
  exact ⟨_, rfl, h.writeSleep hactive hmore⟩

theorem Inv.resume : ∃ s', s.resume t signals = .ok s' ∧ s'.Inv := by
  unfold PipeSystem.resume
  split
  · exact ⟨s, rfl, h⟩
  cases hphase : s.phase t with
  | idle => exact ⟨s, rfl, h⟩
  | readWait count => exact ⟨_, rfl, (h.awake t).readResume⟩
  | writeWait call buffer total =>
    exact (h.awake t).writeResume (h.active_awake hphase) (h.waiting t _ _ _ hphase).2.1

/-- **`pipe_close`.** -/
theorem Inv.pipeClose {side : PipeEnd} : (s.pipeClose side).Inv := by
  have hinv {s' : PipeSystem τ} (hring : s'.ring = s.ring) (hbroken : s'.isbroken = true)
      (hcalls : s'.calls = s.calls) (hphase : s'.phase = s.phase)
      (hevents : s'.events = .closed side :: s.events) : s'.Inv := by
    refine ⟨hring ▸ h.valid, hring ▸ h.size, ?_, ?_, ?_, ?_, hphase ▸ h.distinct, ?_⟩
    · rw [hevents, hring]
      exact h.inOrder
    · rw [hevents]
      exact iff_of_true hbroken ⟨side, mem_cons_self⟩
    · rw [hevents, hcalls]
      exact h.fresh
    · rw [hevents, hcalls, hphase]
      intro t' call buffer total hp
      obtain ⟨hid, hmore, hpending⟩ := h.waiting t' call buffer total hp
      exact ⟨hid, hmore, hpending.congr rfl⟩
    rw [hevents]
    exact fun _ _ hlog => h.law_cons hlog trivial
  unfold PipeSystem.pipeClose
  split
  · next hbroken => exact hinv rfl hbroken rfl rfl rfl
  exact hinv rfl rfl rfl rfl rfl

/-- **One step** of the system returns and keeps the invariant. -/
theorem Inv.step (i : PipeStep τ) : ∃ s', s.step i = .ok ((), s') ∧ s'.Inv := by
  unfold PipeSystem.step
  split
  · exact ⟨s, rfl, h⟩
  cases i with
  | read t count nonblock signals =>
    dsimp only
    split
    · split
      · exact ⟨s, rfl, h⟩
      exact ⟨_, rfl, h.pipeRawRead⟩
    exact ⟨s, rfl, h⟩
  | write t data nonblock signals =>
    dsimp only
    split
    · split
      · exact ⟨s, rfl, h⟩
      obtain ⟨s', hrun, h'⟩ := h.pipeRawWrite
      exact ⟨s', by rw [hrun]; rfl, h'⟩
    exact ⟨s, rfl, h⟩
  | resume t signals =>
    obtain ⟨s', hrun, h'⟩ := h.resume
    exact ⟨s', by dsimp only; rw [hrun]; rfl, h'⟩
  | close side =>
    dsimp only
    split
    · exact ⟨s, rfl, h⟩
    exact ⟨_, rfl, h.pipeClose⟩
  | unblock t reason =>
    exact ⟨_, rfl, h.valid, h.size, h.inOrder, h.broken, h.fresh, h.waiting, h.distinct, h.law⟩

end

omit [DecidableEq τ] in
theorem pipeCreate_inv (task : τ → SchedTask) : (pipeCreate task).Inv where
  valid := valid_init (by decide)
  size := rfl
  inOrder := rfl
  broken := by simp [pipeCreate, Closed]
  fresh _ _ := rfl
  waiting _ _ _ _ hp := by cases hp
  distinct _ _ _ _ _ _ _ _ hp := by cases hp
  law e older hlog := by simp [pipeCreate] at hlog

end PipeSystem

/-- **Pipes.** For every number of readers and writers and every interleaving of reads, writes and
closes, every step returns, and in every state the pipe is lawful. -/
theorem pipe_lawful {τ : Type} [DecidableEq τ] (task : τ → SchedTask) (steps : List (PipeStep τ)) :
    RunAll PipeSystem.step PipeSystem.Lawful (.pipeCreate task) steps := by
  refine runAll_of_invariant (I := fun _ => PipeSystem.Inv)
    (fun _ _ h => h.lawful) (fun _ s i h _ => ?_) (PipeSystem.pipeCreate_inv task)
    (.of_mem fun _ _ _ => trivial)
  obtain ⟨s', hrun, h'⟩ := h.step i
  exact ⟨(), s', hrun, h'⟩

/-- A reader sleeps until a writer comes, and is told the end after the close. -/
example : (runOps PipeSystem.step (.pipeCreate fun _ => {})
    [.read (1 : Fin 2) 9 false false, .write 0 [1, 2] false false, .resume 1 false,
      .close .write, .read 1 9 false false]).okAnd
        (fun r => readBytes r.2.events = [1, 2]) = true := by
  decide

end Stanix
