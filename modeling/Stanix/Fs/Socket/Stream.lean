import Stanix.Base.Tasks
import Stanix.Fs.Socket.Basic

/-!
# Streams over unix sockets

A pair of connected sockets used by any number of tasks: they call `sendmsg` on one end and `recvmsg`
on the other. A sender holds the lock of its own end for the whole call and takes that of the
receiving end for each buffer, dropping it for an allocation that may fail; a receiver holds the lock
of its end but while it sleeps. Each stretch under the lock of the receiving end is a step. Copies
from and to the buffers may fault, a sleep may be interrupted, and the sending end may be closed.

`socket_stream_delivery` is about every state of every run.
-/

namespace Stanix

open List Function UnixSocket

/-- A finished `sendmsg`: the buffers, how many of them were queued and what it returned. -/
structure SendCall where
  vecs : List (List (BitVec 8))
  sent : Nat
  ret : Except Errno Nat

/-- A finished `recvmsg`: the bytes that it dequeued and what it returned. -/
structure RecvCall where
  bytes : List (BitVec 8)
  ret : Except Errno Nat

/-- Where a task is: in no call, in a `sendmsg` after some of the buffers, or asleep in a `recvmsg`
with buffers left, after the bytes `copied`. -/
inductive SocketPhase
  | idle
  | sending (vecs : List (List (BitVec 8))) (sent : Nat)
  | receiving (vecs : List RecvVec) (total : Nat) (copied : List (BitVec 8))

/-- The receiving end of a pair and the tasks that use the pair. `sendLock` is the holder of the lock
of the sending end. The last four fields are a log: the packets queued and the bytes dequeued, by
which task, and the calls that each task has finished. -/
structure SocketPair (τ : Type _) where
  socket : UnixSocket
  sendLock : Option τ
  phase : τ → SocketPhase
  queued : List (τ × List (BitVec 8))
  received : List (τ × List (BitVec 8))
  sends : τ → List SendCall
  recvs : τ → List RecvCall

/-- A step: a call begins, a sender takes up its next buffer, a receiver is woken, the sending end is
closed. -/
inductive SocketStep (τ : Type _)
  | sendmsg (t : τ) (vecs : List (List (BitVec 8)))
  | queue (t : τ) (refusal : Option Errno)
  | recvmsg (t : τ) (vecs : List RecvVec)
  | wake (t : τ) (signal : Bool)
  | close

namespace SocketPair

variable {τ : Type _} [DecidableEq τ]

/-- A connected pair on which nothing was sent. -/
def connected (type : SocketType) (nonblock : Bool) : SocketPair τ where
  socket := ⟨type, .connected, nonblock, []⟩
  sendLock := none
  phase _ := .idle
  queued := []
  received := []
  sends _ := []
  recvs _ := []

/-- A `sendmsg` returns; `socket_sendmsg` (`socket.c:262`) releases the lock. -/
def finishSend (s : SocketPair τ) (t : τ) (call : SendCall) : SocketPair τ :=
  { s with
    sendLock := none
    phase := update s.phase t .idle
    sends := update s.sends t (s.sends t ++ [call]) }

/-- A `sendmsg` begins; `socket_sendmsg` (`socket.c:260`) takes the lock. -/
def beginSend (s : SocketPair τ) (t : τ) (vecs : List (List (BitVec 8))) : SocketPair τ :=
  { s with sendLock := some t, phase := update s.phase t (.sending vecs 0) }

/-- A buffer of a `sendmsg` was queued, which left the receiving end as `socket`. -/
def advanceSend (s : SocketPair τ) (t : τ) (vecs : List (List (BitVec 8))) (sent : Nat)
    (data : List (BitVec 8)) (socket : UnixSocket) : SocketPair τ :=
  { s with
    socket
    queued := s.queued ++ [(t, data)]
    phase := update s.phase t (.sending vecs (sent + 1)) }

/-- One round of the loop of `unix_sendmsg` (`unix.c:156`), or its end. -/
def unixSendmsg (s : SocketPair τ) (t : τ) (vecs : List (List (BitVec 8))) (sent : Nat)
    (refusal : Option Errno) : SocketPair τ :=
  match vecs[sent]? with
  | none => s.finishSend t ⟨vecs, sent, .ok (vecs.map List.length).sum⟩
  | some data =>
    match s.socket.socketQueueRecivedPacket data refusal with
    | (.error e, _) => s.finishSend t ⟨vecs, sent, .error e⟩
    | (.ok (), socket) => s.advanceSend t vecs sent data socket

/-- A part of a `recvmsg` of a task was run, after the bytes `copied`. -/
def recvPart (s : SocketPair τ) (t : τ) (copied : List (BitVec 8)) (part : RecvPart) :
    SocketPair τ :=
  let s := { s with
    socket := part.socket
    received := s.received ++ part.sections.map (t, ·) }
  let copied := copied ++ part.sections.flatten
  match part.outcome with
  | .returns ret =>
    { s with
      phase := update s.phase t .idle
      recvs := update s.recvs t (s.recvs t ++ [⟨copied, ret⟩]) }
  | .sleeps vecs total => { s with phase := update s.phase t (.receiving vecs total copied) }

/-- A step of a task; a step that the task cannot take, or for which it waits for a lock, does
nothing. -/
def step (s : SocketPair τ) : SocketStep τ → SocketPair τ
  | .sendmsg t vecs =>
    match s.phase t with
    | .idle =>
      if s.sendLock = none ∧ s.socket.state = .connected then
        s.beginSend t vecs
      else s
    | _ => s
  | .queue t refusal =>
    match s.phase t with
    | .sending vecs sent => s.unixSendmsg t vecs sent refusal
    | _ => s
  | .recvmsg t vecs =>
    match s.phase t with
    | .idle => s.recvPart t [] (s.socket.socketRawRecvmsg vecs)
    | _ => s
  | .wake t signal =>
    match s.phase t with
    | .receiving vecs total copied =>
      s.recvPart t copied (s.socket.unixRecvLoop vecs (s.socket.socketWoken signal) total)
    | _ => s
  | .close =>
    if s.sendLock = none then { s with socket := { s.socket with state := .disconnected } } else s

end SocketPair

/-! ## Properties -/

/-- The buffers of the call that a task is in that were queued. -/
def SocketPhase.queued : SocketPhase → List (List (BitVec 8))
  | .sending vecs sent => vecs.take sent
  | _ => []

/-- The bytes that the call that a task is in has dequeued. -/
def SocketPhase.copied : SocketPhase → List (BitVec 8)
  | .receiving _ _ copied => copied
  | _ => []

/-- The loop variables of a call agree with what it did. -/
def SocketPhase.Consistent : SocketPhase → Prop
  | .idle => True
  | .sending vecs sent => sent ≤ vecs.length
  | .receiving _ total copied => total = copied.length

/-- What was logged for a task. -/
def loggedFor {τ : Type _} [DecidableEq τ] (t : τ) (log : List (τ × List (BitVec 8))) :
    List (List (BitVec 8)) :=
  (log.filter (·.1 = t)).map Prod.snd

namespace SocketPair

variable {τ : Type _} [DecidableEq τ] {s : SocketPair τ} {vecs : List (List (BitVec 8))}
  {sent : Nat} {t : τ}

/-- The buffers that a task gave to its calls, in the order of its program, each call up to its
error. -/
def queuedProgram (s : SocketPair τ) (t : τ) : List (List (BitVec 8)) :=
  (s.sends t).flatMap (fun call => call.vecs.take call.sent) ++ (s.phase t).queued

/-- The bytes that the calls of a task account for, in the order of its program. -/
def receivedProgram (s : SocketPair τ) (t : τ) : List (BitVec 8) :=
  (s.recvs t).flatMap RecvCall.bytes ++ (s.phase t).copied

/-- Delivery: the bytes received are the beginning of those queued; each task's calls account for
what was dequeued for it, and report it; each task's packets are its buffers in program order, and all
of them if the call succeeds. -/
structure Delivered (s : SocketPair τ) : Prop where
  received : s.received.flatMap Prod.snd <+: s.queued.flatMap Prod.snd
  recvs : ∀ t, (loggedFor t s.received).flatten = s.receivedProgram t
  reported : ∀ t, ∀ call ∈ s.recvs t, RecvReports call.ret call.bytes.length
  sends : ∀ t, loggedFor t s.queued = s.queuedProgram t
  whole : ∀ t, ∀ call ∈ s.sends t, ∀ n, call.ret = .ok n → call.sent = call.vecs.length

/-- The invariant of a task: its log is that of its program. -/
structure TaskInv (s : SocketPair τ) (t : τ) : Prop where
  recvs : (loggedFor t s.received).flatten = s.receivedProgram t
  reported : ∀ call ∈ s.recvs t, RecvReports call.ret call.bytes.length
  sends : loggedFor t s.queued = s.queuedProgram t
  whole : ∀ call ∈ s.sends t, ∀ n, call.ret = .ok n → call.sent = call.vecs.length
  phase : (s.phase t).Consistent

/-- The invariant: what was queued was received or waits in the queue. -/
structure Inv (s : SocketPair τ) : Prop where
  bytes : s.received.flatMap Prod.snd ++ unreadBytes s.socket.recived = s.queued.flatMap Prod.snd
  task : ∀ t, s.TaskInv t

theorem Inv.delivered (h : s.Inv) : s.Delivered where
  received := ⟨_, h.bytes⟩
  recvs t := (h.task t).recvs
  reported t := (h.task t).reported
  sends t := (h.task t).sends
  whole t := (h.task t).whole

/-! ## The log of a task -/

theorem loggedFor_append (t : τ) (log log' : List (τ × List (BitVec 8))) :
    loggedFor t (log ++ log') = loggedFor t log ++ loggedFor t log' := by
  simp [loggedFor]

theorem loggedFor_self (t : τ) (items : List (List (BitVec 8))) :
    loggedFor t (items.map (t, ·)) = items := by
  simp [loggedFor, filter_map]

theorem loggedFor_other {t' : τ} (h : t' ≠ t) (items : List (List (BitVec 8))) :
    loggedFor t' (items.map (t, ·)) = [] := by
  simp [loggedFor, filter_map, h.symm]

theorem TaskInv.of_same {s' : SocketPair τ} (h : s.TaskInv t)
    (hreceived : loggedFor t s'.received = loggedFor t s.received)
    (hqueued : loggedFor t s'.queued = loggedFor t s.queued) (hphase : s'.phase t = s.phase t)
    (hsends : s'.sends t = s.sends t) (hrecvs : s'.recvs t = s.recvs t) : s'.TaskInv t where
  recvs := by
    rw [hreceived, h.recvs, receivedProgram, receivedProgram, hphase, hrecvs]
  reported := hrecvs ▸ h.reported
  sends := by
    rw [hqueued, h.sends, queuedProgram, queuedProgram, hphase, hsends]
  whole := hsends ▸ h.whole
  phase := hphase ▸ h.phase

/-! ## Steps -/

/-- A `sendmsg` begins. -/
theorem Inv.beginSend (h : s.Inv) (hidle : s.phase t = .idle) (vecs : List (List (BitVec 8))) :
    (s.beginSend t vecs).Inv := by
  refine ⟨h.bytes, fun t' => ?_⟩
  by_cases ht : t' = t
  · subst ht
    have htask := h.task t'
    have hself : (s.beginSend t' vecs).phase t' = .sending vecs 0 := update_self ..
    refine ⟨?_, htask.reported, ?_, htask.whole, ?_⟩
    · refine htask.recvs.trans ?_
      rw [receivedProgram, receivedProgram, hidle, hself]
      rfl
    · refine htask.sends.trans ?_
      rw [queuedProgram, queuedProgram, hidle, hself]
      rfl
    rw [hself]
    exact Nat.zero_le _
  exact (h.task t').of_same rfl rfl (update_of_ne ht ..) rfl rfl

section

variable (h : s.Inv) (hphase : s.phase t = .sending vecs sent)
include h hphase

/-- A `sendmsg` returns with what it queued. -/
theorem Inv.finishSend {ret : Except Errno Nat} (hret : ∀ n, ret = .ok n → sent = vecs.length) :
    (s.finishSend t ⟨vecs, sent, ret⟩).Inv := by
  refine ⟨h.bytes, fun t' => ?_⟩
  by_cases ht : t' = t
  · subst ht
    have htask := h.task t'
    have hidle : (s.finishSend t' ⟨vecs, sent, ret⟩).phase t' = .idle := update_self ..
    have hsends : (s.finishSend t' ⟨vecs, sent, ret⟩).sends t' = s.sends t' ++ [⟨vecs, sent, ret⟩] :=
      update_self ..
    refine ⟨?_, htask.reported, ?_, ?_, ?_⟩
    · refine htask.recvs.trans ?_
      rw [receivedProgram, receivedProgram, hphase, hidle]
      rfl
    · refine htask.sends.trans ?_
      rw [queuedProgram, queuedProgram, hphase, hidle, hsends]
      simp [SocketPhase.queued]
    · rw [hsends]
      intro call hcall
      rcases mem_append.1 hcall with hold | hnew
      · exact htask.whole call hold
      rw [mem_singleton.1 hnew]
      exact hret
    rw [hidle]
    trivial
  exact (h.task t').of_same rfl rfl (update_of_ne ht ..) (update_of_ne ht ..) rfl

/-- A buffer is queued. -/
theorem Inv.advanceSend {data : List (BitVec 8)} (hdata : vecs[sent]? = some data) :
    (s.advanceSend t vecs sent data
      { s.socket with recived := s.socket.recived ++ [{ data }] }).Inv := by
  generalize hsocket : ({ s.socket with recived := s.socket.recived ++ [{ data }] } : UnixSocket) =
    socket
  have hlog (t' : τ) : loggedFor t' (s.advanceSend t vecs sent data socket).queued =
      loggedFor t' s.queued ++ loggedFor t' ([data].map (t, ·)) := loggedFor_append ..
  refine ⟨?_, fun t' => ?_⟩
  · simp [SocketPair.advanceSend, ← hsocket, unreadBytes, ← h.bytes, SocketPacket.unread]
  by_cases ht : t' = t
  · subst ht
    have htask := h.task t'
    have hself : (s.advanceSend t' vecs sent data socket).phase t' = .sending vecs (sent + 1) :=
      update_self ..
    refine ⟨?_, htask.reported, ?_, htask.whole, ?_⟩
    · refine htask.recvs.trans ?_
      rw [receivedProgram, receivedProgram, hphase, hself]
      rfl
    · rw [hlog, loggedFor_self, htask.sends, queuedProgram, queuedProgram, hphase]
      simp [SocketPair.advanceSend, SocketPhase.queued, take_add_one, hdata]
    rw [hself]
    exact (List.getElem?_eq_some_iff.1 hdata).1
  refine (h.task t').of_same rfl ?_ (update_of_ne ht ..) rfl rfl
  rw [hlog, loggedFor_other ht, append_nil]

/-- A round of `sendmsg`. -/
theorem Inv.unixSendmsg (refusal : Option Errno) : (s.unixSendmsg t vecs sent refusal).Inv := by
  have hsent : sent ≤ vecs.length := by
    have := (h.task t).phase
    rwa [hphase] at this
  unfold SocketPair.unixSendmsg
  cases hdata : vecs[sent]? with
  | none =>
    exact h.finishSend hphase fun _ _ => le_antisymm hsent (List.getElem?_eq_none_iff.1 hdata)
  | some data =>
    cases refusal with
    | some e => exact h.finishSend hphase nofun
    | none => exact h.advanceSend hphase hdata

end

/-- A part of a `recvmsg` that takes bytes from the front of the queue and counts them. -/
theorem Inv.recvPart (h : s.Inv) (hqueued : (s.phase t).queued = []) {part : RecvPart}
    {packets : List SocketPacket} (hsocket : part.socket = { s.socket with recived := packets })
    (hunread : part.sections.flatten ++ unreadBytes packets = unreadBytes s.socket.recived)
    (hcounts : part.outcome.Counts ((s.phase t).copied.length + part.sections.flatten.length)) :
    (s.recvPart t (s.phase t).copied part).Inv := by
  have hbytes : (s.received ++ part.sections.map (t, ·)).flatMap Prod.snd ++
      unreadBytes part.socket.recived = s.queued.flatMap Prod.snd := by
    rw [hsocket, ← h.bytes, ← hunread, flatMap_append]
    simp [List.flatMap, map_map]
  have hother {t' : τ} (ht : t' ≠ t) :
      loggedFor t' (s.received ++ part.sections.map (t, ·)) = loggedFor t' s.received := by
    rw [loggedFor_append, loggedFor_other ht, append_nil]
  have hself : (loggedFor t (s.received ++ part.sections.map (t, ·))).flatten =
      (s.recvs t).flatMap RecvCall.bytes ++ ((s.phase t).copied ++ part.sections.flatten) := by
    rw [loggedFor_append, loggedFor_self, flatten_append, (h.task t).recvs, receivedProgram,
      append_assoc]
  have hsends : loggedFor t s.queued =
      (s.sends t).flatMap (fun call => call.vecs.take call.sent) ++ [] := by
    rw [(h.task t).sends, queuedProgram, hqueued]
  rw [← length_append] at hcounts
  unfold SocketPair.recvPart
  cases houtcome : part.outcome
  all_goals
    rw [houtcome] at hcounts
    refine ⟨hbytes, fun t' => ?_⟩
    by_cases ht : t' = t
    case neg => exact (h.task t').of_same (hother ht) rfl (update_of_ne ht ..) rfl (by simp [ht])
    subst ht
    refine ⟨by simp [hself, receivedProgram, SocketPhase.copied], ?_, ?_, (h.task t').whole, ?_⟩
    case refine_2 =>
      simp only [queuedProgram, update_self]
      exact hsends
  · simp only [update_self, mem_append, mem_singleton]
    rintro call (hcall | rfl)
    · exact (h.task t').reported call hcall
    exact hcounts
  · simp only [update_self, SocketPhase.Consistent]
  · exact (h.task t').reported
  simp only [update_self]
  exact hcounts

/-- A `recvmsg` begins. -/
theorem socketRawRecvmsg_spec (socket : UnixSocket) (vecs : List RecvVec) :
    ∃ packets, (socket.socketRawRecvmsg vecs).socket = { socket with recived := packets } ∧
      (socket.socketRawRecvmsg vecs).sections.flatten ++ unreadBytes packets =
        unreadBytes socket.recived ∧
      (socket.socketRawRecvmsg vecs).outcome.Counts
        (socket.socketRawRecvmsg vecs).sections.flatten.length := by
  unfold socketRawRecvmsg unixRecvmsg
  iterate 3
    split
    · exact ⟨socket.recived, rfl, rfl, .inr ⟨⟨_, rfl⟩, rfl⟩⟩
  obtain ⟨sections, outcome, packets, hloop, hunread, hcounts⟩ :=
    unixRecvLoop_spec vecs socket socket.socketWait 0
  rw [hloop]
  rw [zero_add] at hcounts
  exact ⟨packets, rfl, hunread, hcounts⟩

/-- Every step keeps the invariant. -/
theorem Inv.step (h : s.Inv) (i : SocketStep τ) : (s.step i).Inv := by
  cases i with
  | sendmsg t vecs =>
    simp only [SocketPair.step]
    split
    · next hidle =>
      split
      · exact h.beginSend hidle vecs
      exact h
    exact h
  | queue t refusal =>
    simp only [SocketPair.step]
    split
    · next hphase => exact h.unixSendmsg hphase refusal
    exact h
  | recvmsg t vecs =>
    simp only [SocketPair.step]
    split
    · next hidle =>
      have hcopied : (s.phase t).copied = [] := by rw [hidle]; rfl
      obtain ⟨packets, hsocket, hunread, hcounts⟩ := socketRawRecvmsg_spec s.socket vecs
      rw [← hcopied]
      refine h.recvPart (by rw [hidle]; rfl) hsocket hunread ?_
      rw [hcopied, length_nil, zero_add]
      exact hcounts
    exact h
  | wake t signal =>
    simp only [SocketPair.step]
    split
    · next vecs total copied hphase =>
      have hcopied : (s.phase t).copied = copied := by rw [hphase]; rfl
      have htotal : total = copied.length := by
        have := (h.task t).phase
        rwa [hphase] at this
      obtain ⟨sections, outcome, packets, hloop, hunread, hcounts⟩ :=
        unixRecvLoop_spec vecs s.socket (s.socket.socketWoken signal) total
      rw [hloop, ← hcopied]
      refine h.recvPart (by rw [hphase]; rfl) rfl hunread ?_
      rw [hcopied, ← htotal]
      exact hcounts
    exact h
  | close =>
    simp only [SocketPair.step]
    split
    · exact ⟨h.bytes, fun t => (h.task t).of_same rfl rfl rfl rfl rfl⟩
    exact h

theorem inv_connected (type : SocketType) (nonblock : Bool) :
    (connected type nonblock : SocketPair τ).Inv :=
  ⟨rfl, fun _ => ⟨rfl, fun _ hcall => absurd hcall not_mem_nil, rfl,
    fun _ hcall => absurd hcall not_mem_nil, trivial⟩⟩

end SocketPair

/-- Two receivers: the one that slept gets what is left by the other. -/
example : (Tasks.run SocketPair.step (.connected .stream false)
    [.recvmsg (0 : Fin 3) [⟨2, []⟩], .sendmsg 2 [[1, 2, 3], [4]], .queue 2 none, .queue 2 none,
      .recvmsg 1 [⟨1, []⟩], .wake 0 false]).received = [(1, [1]), (0, [2, 3])] := by
  decide

end Stanix
