import Stanix.Base.Exec

/-!
# Unix sockets

The data path of `kernel/fs/socket.c` and `kernel/fs/unix.c`: what is sent to a connected socket is
kept in its queue of packets, one for each buffer of a `sendmsg`; a `recvmsg` fills one buffer after
the other from the front of the queue and may leave the first packet partly read.

`dequeueLoop_unread` and `unixRecvLoop_spec` say that a receive takes bytes from the front of the
queue, loses none and repeats none, and returns how many it took, for both types of connected
sockets and whatever copy faults.
-/

namespace Stanix

open List

/-- Source: `socket_packet_t` (`socket.h`). -/
structure SocketPacket where
  data : List (BitVec 8)
  read : Nat := 0

/-- The bytes of a packet that were not read. -/
def SocketPacket.unread (packet : SocketPacket) : List (BitVec 8) := packet.data.drop packet.read

/-- The types of sockets. -/
inductive SocketType
  | stream
  | dgram
  | raw
  | seqpacket
  deriving DecidableEq

/-- Source: `SOCKET_STATE_*` (`socket.h`). -/
inductive SocketState
  | init
  | listen
  | connected
  | disconnected
  deriving DecidableEq

/-- A socket, with the packets it received and whether its file is non-blocking. -/
structure UnixSocket where
  type : SocketType
  state : SocketState
  nonblock : Bool
  recived : List SocketPacket

/-- A buffer to receive into. `faults` says which of the copies to it fault, in turn. -/
structure RecvVec where
  len : Nat
  faults : List Bool := []

/-- How far a `recvmsg` got: it returns, or it sleeps with buffers left. -/
inductive RecvOutcome
  | returns (ret : Except Errno Nat)
  | sleeps (vecs : List RecvVec) (total : Nat)

/-- A part of a `recvmsg` under the lock: the bytes copied to each buffer, how it ended, and the
socket after it. -/
structure RecvPart where
  sections : List (List (BitVec 8))
  outcome : RecvOutcome
  socket : UnixSocket

/-- The bytes of a queue that were not read. -/
def unreadBytes (packets : List SocketPacket) : List (BitVec 8) :=
  packets.flatMap SocketPacket.unread

/-! ## Sending -/

namespace UnixSocket

/-- Source: `socket_queue_recived_packet` (`socket.c:110`). `refusal` is the error of an allocation
or of the copy, if there is one. -/
def socketQueueRecivedPacket (socket : UnixSocket) (data : List (BitVec 8))
    (refusal : Option Errno) : Except Errno Unit × UnixSocket :=
  match refusal with
  | some e => (.error e, socket)
  | none => (.ok (), { socket with recived := socket.recived ++ [{ data }] })

/-! ## Receiving -/

/-- Source: `socket_wait` (`socket.c:139`) up to the sleep: `none` if the task sleeps. -/
def socketWait (socket : UnixSocket) : Option (Except Errno Unit) :=
  if socket.recived ≠ [] then some (.ok ())
  else if socket.nonblock then some (.error .again)
  else if socket.state = .disconnected then some (.error .notconn)
  else none

/-- `socket_wait` (`socket.c:150`) from the point where `block_task` returns, by a signal or not. -/
def socketWoken (socket : UnixSocket) (signal : Bool) : Option (Except Errno Unit) :=
  if socket.recived = [] ∧ socket.state = .disconnected then some (.error .notconn)
  else if signal then some (.error .intr)
  else if socket.recived ≠ [] then some (.ok ())
  else none

end UnixSocket

/-- The loop of `socket_dequeue_recived_packet` (`socket.c:164`): whether a copy faulted, the bytes
that were copied and the packets left. -/
def dequeueLoop (keepBounds : Bool) :
    List SocketPacket → Nat → List Bool → Bool × List (BitVec 8) × List SocketPacket
  | [], _, _ => (false, [], [])
  | packet :: rest, size, faults =>
    if size = 0 then (false, [], packet :: rest)
    else
      let available := packet.data.length - packet.read
      let toRead := if available < size then available else size
      if faults.headD false then (true, [], packet :: rest)
      else
        let bytes := packet.unread.take toRead
        let packet := { packet with read := packet.read + toRead }
        if packet.read ≥ packet.data.length then
          if keepBounds then (false, bytes, rest)
          else
            let r := dequeueLoop keepBounds rest (size - toRead) faults.tail
            (r.1, bytes ++ r.2.1, r.2.2)
        -- a packet that is not read to its end filled the buffer
        else (false, bytes, packet :: rest)

namespace UnixSocket

/-- Source: `socket_dequeue_recived_packet` (`socket.c:157`) after the wait, with the bytes that were
copied. -/
def socketDequeueRecivedPacket (socket : UnixSocket) (vec : RecvVec) (keepBounds : Bool) :
    Except Errno Nat × List (BitVec 8) × UnixSocket :=
  let r := dequeueLoop keepBounds socket.recived vec.len vec.faults
  let total := r.2.1.length
  let ret := if r.1 then if total > 0 then .ok total else .error .fault else .ok total
  (ret, r.2.1, { socket with recived := r.2.2 })

/-- What `unix_recvmsg` (`unix.c:138`) returns after an error: an error only if nothing was read. -/
def recvError (total : Nat) (e : Errno) : Except Errno Nat :=
  if total > 0 then .ok total else .error e

/-- The loop of `unix_recvmsg` (`unix.c:136`) over the buffers, with what `socket_wait` answers for
the first one. -/
def unixRecvLoop : List RecvVec → UnixSocket → Option (Except Errno Unit) → Nat → RecvPart
  | [], socket, _, total => ⟨[], .returns (.ok total), socket⟩
  | vec :: vecs, socket, none, total => ⟨[], .sleeps (vec :: vecs) total, socket⟩
  | _ :: _, socket, some (.error e), total => ⟨[], .returns (recvError total e), socket⟩
  | vec :: vecs, socket, some (.ok ()), total =>
    match socket.socketDequeueRecivedPacket vec (socket.type = .seqpacket) with
    | (.error e, bytes, socket) => ⟨[bytes], .returns (recvError total e), socket⟩
    | (.ok n, bytes, socket) =>
      let part := unixRecvLoop vecs socket socket.socketWait (total + n)
      { part with sections := bytes :: part.sections }

/-- Source: `unix_recvmsg` (`unix.c:121`). -/
def unixRecvmsg (socket : UnixSocket) (vecs : List RecvVec) : RecvPart :=
  if socket.type = .dgram ∨ socket.type = .raw then ⟨[], .returns (.error .nosys), socket⟩
  else if socket.state = .disconnected ∧ socket.recived = [] then
    ⟨[], .returns (.error .notconn), socket⟩
  else unixRecvLoop vecs socket socket.socketWait 0

/-- Source: `socket_raw_recvmsg` (`socket.c:266`). -/
def socketRawRecvmsg (socket : UnixSocket) (vecs : List RecvVec) : RecvPart :=
  if (socket.type = .stream ∨ socket.type = .seqpacket) ∧ socket.state ≠ .connected ∧
      socket.state ≠ .disconnected then
    ⟨[], .returns (.error .inval), socket⟩
  else socket.unixRecvmsg vecs

end UnixSocket

/-! ## What a receive takes -/

@[simp] theorem unreadBytes_cons (packet : SocketPacket) (packets : List SocketPacket) :
    unreadBytes (packet :: packets) = packet.unread ++ unreadBytes packets := rfl

/-- The bytes that a dequeue copied are the first ones of the queue, and the others stay. -/
theorem dequeueLoop_unread (keepBounds : Bool) (packets : List SocketPacket) (size : Nat)
    (faults : List Bool) :
    (dequeueLoop keepBounds packets size faults).2.1 ++
      unreadBytes (dequeueLoop keepBounds packets size faults).2.2 = unreadBytes packets := by
  induction packets generalizing size faults with
  | nil => rfl
  | cons packet rest ih => ?_
  unfold dequeueLoop
  split
  · rfl
  dsimp only
  split
  · rfl
  -- `toRead` bytes of the first packet are copied
  generalize (if packet.data.length - packet.read < size then packet.data.length - packet.read
    else size) = toRead
  have hsplit : packet.unread.take toRead ++ packet.data.drop (packet.read + toRead) =
      packet.unread := by
    rw [← drop_drop]
    exact take_append_drop ..
  split
  · next hwhole =>
    have htake : packet.unread.take toRead = packet.unread := by
      rw [drop_of_length_le hwhole, append_nil] at hsplit
      exact hsplit
    split
    · rw [htake, unreadBytes_cons]
    rw [append_assoc, ih, htake, unreadBytes_cons]
  rw [unreadBytes_cons, ← append_assoc]
  exact congrArg (· ++ unreadBytes rest) hsplit

/-- What a `recvmsg` reports: the number of bytes it took, or an error if it took none. -/
def RecvReports (ret : Except Errno Nat) (n : Nat) : Prop :=
  ret = .ok n ∨ (∃ e, ret = .error e) ∧ n = 0

/-- How a part of a `recvmsg` ends, if `n` bytes were taken in all. -/
def RecvOutcome.Counts : RecvOutcome → Nat → Prop
  | .returns ret, n => RecvReports ret n
  | .sleeps _ total, n => total = n

namespace UnixSocket

theorem recvReports_recvError (total : Nat) (e : Errno) : RecvReports (recvError total e) total := by
  unfold recvError RecvReports
  split
  · exact .inl rfl
  exact .inr ⟨⟨e, rfl⟩, by omega⟩

theorem socketDequeueRecivedPacket_spec (socket : UnixSocket) (vec : RecvVec) (keepBounds : Bool) :
    ∃ ret bytes packets, socket.socketDequeueRecivedPacket vec keepBounds =
        (ret, bytes, { socket with recived := packets }) ∧
      bytes ++ unreadBytes packets = unreadBytes socket.recived ∧ RecvReports ret bytes.length := by
  refine ⟨_, _, _, rfl, dequeueLoop_unread .., ?_⟩
  split
  · split
    · exact .inl rfl
    exact .inr ⟨⟨_, rfl⟩, by omega⟩
  exact .inl rfl

/-- A receive takes the first bytes of the queue, and its result counts them. -/
theorem unixRecvLoop_spec (vecs : List RecvVec) (socket : UnixSocket)
    (wait : Option (Except Errno Unit)) (total : Nat) :
    ∃ sections outcome packets, unixRecvLoop vecs socket wait total =
        ⟨sections, outcome, { socket with recived := packets }⟩ ∧
      sections.flatten ++ unreadBytes packets = unreadBytes socket.recived ∧
      outcome.Counts (total + sections.flatten.length) := by
  induction vecs generalizing socket wait total with
  | nil => exact ⟨[], .returns (.ok total), socket.recived, by rw [unixRecvLoop], rfl, .inl rfl⟩
  | cons vec vecs ih => ?_
  rcases wait with _ | e | _
  · exact ⟨[], .sleeps (vec :: vecs) total, socket.recived, by rw [unixRecvLoop], rfl, rfl⟩
  · exact ⟨[], .returns (recvError total e), socket.recived, by rw [unixRecvLoop], rfl,
      recvReports_recvError ..⟩
  -- one buffer is filled, then the others
  obtain ⟨ret, bytes, packets, hdequeue, hunread, hret⟩ :=
    socket.socketDequeueRecivedPacket_spec vec (socket.type = .seqpacket)
  rw [unixRecvLoop, hdequeue]
  cases ret with
  | error e =>
    refine ⟨[bytes], _, packets, rfl, by simpa using hunread, ?_⟩
    rcases hret with hok | ⟨-, hzero⟩
    · cases hok
    simp only [flatten_cons, flatten_nil, append_nil, hzero]
    exact recvReports_recvError ..
  | ok n => ?_
  rcases hret with hok | ⟨⟨_, herror⟩, -⟩
  · cases hok
    obtain ⟨sections, outcome, packets', hloop, hrest, hcounts⟩ :=
      ih { socket with recived := packets }
        (socketWait { socket with recived := packets }) (total + bytes.length)
    dsimp only
    rw [hloop]
    refine ⟨bytes :: sections, outcome, packets', rfl, ?_, ?_⟩
    · rw [flatten_cons, append_assoc, hrest, hunread]
    grind
  cases herror

end UnixSocket

end Stanix
