import Stanix.Base.Bytes
import Stanix.Base.Exec
import Mathlib.Data.Nat.ModEq

/-!
# Ring buffers

A model of `kernel/klib/ringbuf.c`: a buffer of fixed size with a place to read, a place to write and
the number of bytes in between. A transfer that reaches the end of the buffer is cut in two. The
copies from and to the caller's memory may fault, in which case a transfer that was cut may have been
carried out half.

`Ringbuffer.content` is the queue of the bytes that were written and not read, and
`ringbuffer_refines_queue` says what a sequence of transfers does to it.

No sum of the source wraps around: a count is first cut down to what is in the buffer, and an object
in memory is smaller than half of the address space.
-/

namespace Stanix

open ByteStore List

/-- Source: `ringbuffer_t` (`ringbuf.h`). -/
structure Ringbuffer where
  buffer : ByteStore := fun _ => 0
  writeOffset : Nat := 0
  readOffset : Nat := 0
  bufferSize : Nat
  readAvailable : Nat := 0

namespace Ringbuffer

/-- Source: `ringbuffer_init` (`ringbuf.c:10`), where the allocation succeeds. -/
def init (size : Nat) : Ringbuffer := { bufferSize := size }

/-- Source: `ringbuffer_write_available` (`ringbuf.h`). -/
def writeAvailable (ring : Ringbuffer) : Nat := ring.bufferSize - ring.readAvailable

/-- The second copy of `ringbuffer_read` (`ringbuf.c:45`), after the bytes `done` were copied. -/
def readRest (ring : Ringbuffer) (done : List (BitVec 8)) (restCount : Nat) (fault : Bool) :
    Except Errno (List (BitVec 8)) × Ringbuffer :=
  if fault then (.error .fault, ring)
  else
    (.ok (done ++ ring.buffer.read ring.readOffset restCount), { ring with
      readOffset := ring.readOffset + restCount
      readAvailable := ring.readAvailable - restCount })

/-- Source: `ringbuffer_read` (`ringbuf.c:25`): the bytes that were copied to the caller. The flags
say which of the two copies faults. -/
def ringbufferRead (ring : Ringbuffer) (count : Nat) (fault₁ fault₂ : Bool := false) :
    Except Errno (List (BitVec 8)) × Ringbuffer :=
  let count := if count > ring.readAvailable then ring.readAvailable else count
  if count + ring.readOffset ≥ ring.bufferSize then
    let first := ring.bufferSize - ring.readOffset
    if fault₁ then (.error .fault, ring)
    else
      readRest { ring with readAvailable := ring.readAvailable - first, readOffset := 0 }
        (ring.buffer.read ring.readOffset first) (count - first) fault₂
  else ring.readRest [] count fault₂

/-- The second copy of `ringbuffer_write` (`ringbuf.c:75`), of the bytes `rest`. -/
def writeRest (ring : Ringbuffer) (rest : List (BitVec 8)) (count : Nat) (fault : Bool) :
    Except Errno Nat × Ringbuffer :=
  if fault then (.error .fault, ring)
  else
    (.ok count, { ring with
      buffer := ring.buffer.write ring.writeOffset rest
      writeOffset := ring.writeOffset + rest.length
      readAvailable := ring.readAvailable + rest.length })

/-- Source: `ringbuffer_write` (`ringbuf.c:54`): the number of bytes that were taken. -/
def ringbufferWrite (ring : Ringbuffer) (buf : List (BitVec 8)) (fault₁ fault₂ : Bool := false) :
    Except Errno Nat × Ringbuffer :=
  let count := if buf.length > ring.writeAvailable then ring.writeAvailable else buf.length
  if count + ring.writeOffset ≥ ring.bufferSize then
    let first := ring.bufferSize - ring.writeOffset
    if fault₁ then (.error .fault, ring)
    else
      writeRest { ring with
        buffer := ring.buffer.write ring.writeOffset (buf.take first)
        readAvailable := ring.readAvailable + first
        writeOffset := 0 } ((buf.take count).drop first) count fault₂
  else ring.writeRest (buf.take count) count fault₂

/-! ## The queue -/

/-- The offsets are inside of the buffer, and the bytes in between are those available. -/
structure Valid (ring : Ringbuffer) : Prop where
  pos : 0 < ring.bufferSize
  readOffset : ring.readOffset < ring.bufferSize
  available : ring.readAvailable ≤ ring.bufferSize
  writeOffset : ring.writeOffset = (ring.readOffset + ring.readAvailable) % ring.bufferSize

/-- The bytes in the buffer, the next one to be read first. -/
def content (ring : Ringbuffer) : List (BitVec 8) :=
  (List.range ring.readAvailable).map fun i =>
    ring.buffer ((ring.readOffset + i) % ring.bufferSize)

variable {ring : Ringbuffer} {bytes : List (BitVec 8)} {i n size : Nat}

@[simp] theorem length_content (ring : Ringbuffer) : ring.content.length = ring.readAvailable := by
  simp [content]

theorem getElem_content (h : i < ring.content.length) :
    ring.content[i] = ring.buffer ((ring.readOffset + i) % ring.bufferSize) := by
  simp [content]

theorem valid_init (h : 0 < size) : (init size).Valid :=
  ⟨h, h, Nat.zero_le _, by simp [init]⟩

theorem mod_place {a : Nat} (ha : a < n) (hi : i ≤ n) :
    (a + i) % n = if a + i < n then a + i else a + i - n := by
  split
  · next h => exact Nat.mod_eq_of_lt h
  next h => rw [Nat.mod_eq_sub_mod (by omega), Nat.mod_eq_of_lt (by omega)]

/-! ## Reading -/

/-- The ring buffer after `n` bytes were read. -/
def consume (ring : Ringbuffer) (n : Nat) : Ringbuffer :=
  { ring with
    readOffset := (ring.readOffset + n) % ring.bufferSize
    readAvailable := ring.readAvailable - n }

theorem Valid.consume (h : ring.Valid) (hn : n ≤ ring.readAvailable) : (ring.consume n).Valid := by
  refine ⟨h.pos, Nat.mod_lt _ h.pos, (Nat.sub_le ..).trans h.available, ?_⟩
  show ring.writeOffset =
    ((ring.readOffset + n) % ring.bufferSize + (ring.readAvailable - n)) % ring.bufferSize
  rw [Nat.mod_add_mod, h.writeOffset]
  congr 1
  omega

theorem content_consume (ring : Ringbuffer) (n : Nat) :
    (ring.consume n).content = ring.content.drop n := by
  refine ext_getElem (by simp [consume]) fun i h1 h2 => ?_
  rw [getElem_content, getElem_drop, getElem_content]
  simp only [consume, Nat.mod_add_mod, add_assoc]

section

variable (h : ring.Valid)

include h

/-- The front of the queue, as the copies of a read find it in the buffer. -/
theorem take_content (hn : n ≤ ring.readAvailable) :
    ring.content.take n =
      if ring.bufferSize ≤ n + ring.readOffset then
        ring.buffer.read ring.readOffset (ring.bufferSize - ring.readOffset) ++
          ring.buffer.read 0 (n - (ring.bufferSize - ring.readOffset))
      else ring.buffer.read ring.readOffset n := by
  have hoff := h.readOffset
  have havail := h.available
  split
  · next hwrap =>
    refine ext_getElem ?_ fun i h1 h2 => ?_
    · simp only [ByteStore.read, length_take, length_append, length_map,
        length_range, length_content]
      omega
    rw [length_take, length_content] at h1
    rw [getElem_take, getElem_content, mod_place hoff (by omega), getElem_append]
    simp only [ByteStore.read, length_map, length_range, getElem_map, getElem_range]
    grind
  next hwrap =>
  refine ext_getElem (by simp [ByteStore.read, hn]) fun i h1 h2 => ?_
  rw [length_take] at h1
  rw [getElem_take, getElem_content, mod_place hoff (by omega), if_pos (by omega)]
  simp [ByteStore.read]

/-- **Reading.** A read that does not fault returns the first bytes of the queue, as many as were
asked for and are there, and takes them off. -/
theorem read_spec (count : Nat) :
    ∃ ring', ring.ringbufferRead count = (.ok (ring.content.take count), ring') ∧ ring'.Valid ∧
      ring'.content = ring.content.drop count ∧ ring'.bufferSize = ring.bufferSize := by
  have hoff := h.readOffset
  have havail := h.available
  have hcount : (if count > ring.readAvailable then ring.readAvailable else count) =
      min count ring.readAvailable := by
    split <;> omega
  have htake := take_eq_take_min (l := ring.content) (i := count)
  have hdrop := drop_eq_drop_min (l := ring.content) (i := count)
  rw [length_content] at htake hdrop
  have hn := Nat.min_le_right count ring.readAvailable
  generalize min count ring.readAvailable = n at *
  refine ⟨ring.consume n, ?_, h.consume hn, by rw [content_consume, hdrop], rfl⟩
  unfold ringbufferRead
  rw [hcount, htake, take_content h hn]
  dsimp only
  split
  · next hwrap =>
    have hplace : (ring.readOffset + n) % ring.bufferSize =
        0 + (n - (ring.bufferSize - ring.readOffset)) := by
      rw [mod_place hoff (by omega), if_neg (by omega)]
      omega
    simp only [readRest, Bool.false_eq_true, if_false, consume, hplace, Prod.mk.injEq, true_and]
    congr 1
    omega
  next hwrap =>
  have hplace : (ring.readOffset + n) % ring.bufferSize = ring.readOffset + n :=
    Nat.mod_eq_of_lt (by omega)
  simp only [readRest, Bool.false_eq_true, if_false, consume, hplace, nil_append]

/-! ## Writing -/

theorem content_of_written {ring' : Ringbuffer}
    (hsize : ring'.bufferSize = ring.bufferSize) (hread : ring'.readOffset = ring.readOffset)
    (havail : ring'.readAvailable = ring.readAvailable + bytes.length)
    (hold : ∀ i < ring.readAvailable, ring'.buffer ((ring.readOffset + i) % ring.bufferSize) =
      ring.buffer ((ring.readOffset + i) % ring.bufferSize))
    (hnew : ∀ i (hi : i < bytes.length),
      ring'.buffer ((ring.writeOffset + i) % ring.bufferSize) = bytes[i]) :
    ring'.content = ring.content ++ bytes := by
  refine ext_getElem (by simp [havail]) fun i h1 h2 => ?_
  rw [getElem_content, getElem_append, hsize, hread]
  split
  · next hi =>
    rw [getElem_content]
    exact hold i (by simpa using hi)
  next hi =>
  simp only [length_content] at hi ⊢
  rw [← hnew (i - ring.readAvailable), h.writeOffset, Nat.mod_add_mod]
  congr 2
  omega

/-- The ring buffer after `n` bytes were written, in the buffer `buffer`. -/
def extend (ring : Ringbuffer) (buffer : ByteStore) (n : Nat) : Ringbuffer :=
  { ring with
    buffer
    writeOffset := (ring.writeOffset + n) % ring.bufferSize
    readAvailable := ring.readAvailable + n }

theorem Valid.extend (buffer : ByteStore) (hn : n ≤ ring.writeAvailable) :
    (ring.extend buffer n).Valid := by
  have havail := h.available
  unfold writeAvailable at hn
  refine ⟨h.pos, h.readOffset, ?_, ?_⟩
  · show ring.readAvailable + n ≤ ring.bufferSize
    omega
  show (ring.writeOffset + n) % ring.bufferSize =
    (ring.readOffset + (ring.readAvailable + n)) % ring.bufferSize
  rw [h.writeOffset, Nat.mod_add_mod, add_assoc]

/-- The buffer after the two copies of a write of `bytes`, which end at most where the queue
starts. -/
def written (ring : Ringbuffer) (bytes : List (BitVec 8)) : ByteStore :=
  if ring.bufferSize ≤ bytes.length + ring.writeOffset then
    (ring.buffer.write ring.writeOffset (bytes.take (ring.bufferSize - ring.writeOffset))).write 0
      (bytes.drop (ring.bufferSize - ring.writeOffset))
  else ring.buffer.write ring.writeOffset bytes

variable (hn : bytes.length ≤ ring.writeAvailable)

include hn

/-- A write leaves the bytes of the queue. -/
theorem written_old (hi : i < ring.readAvailable) :
    ring.written bytes ((ring.readOffset + i) % ring.bufferSize) =
      ring.buffer ((ring.readOffset + i) % ring.bufferSize) := by
  have hoff := h.readOffset
  have havail := h.available
  have hwrite := h.writeOffset
  unfold writeAvailable at hn
  rw [mod_place hoff havail] at hwrite
  rw [mod_place hoff (by omega)]
  unfold written
  split
  · -- the first copy ends at the end of the buffer, the second one before the queue
    rw [write_of_ge, write_of_lt]
    · split at hwrite <;> split <;> omega
    rw [length_drop]
    split at hwrite <;> split <;> omega
  split at hwrite
  · split
    · exact write_of_lt (by omega)
    exact write_of_lt (by omega)
  split
  · exact write_of_ge (by omega)
  exact write_of_lt (by omega)

theorem written_new (hi : i < bytes.length) :
    ring.written bytes ((ring.writeOffset + i) % ring.bufferSize) = bytes[i] := by
  have hoff := h.writeOffset ▸ Nat.mod_lt _ h.pos
  unfold writeAvailable at hn
  rw [mod_place hoff (by omega)]
  unfold written
  split
  · split
    · next hwrap hplace =>
      rw [write_of_ge (by rw [length_drop]; omega),
        write_add (by rw [length_take]; omega), getElem_take]
    next hwrap hplace =>
    have hadd : ring.writeOffset + i - ring.bufferSize =
        0 + (i - (ring.bufferSize - ring.writeOffset)) := by omega
    rw [hadd, write_add (by rw [length_drop]; omega), getElem_drop]
    congr 1
    omega
  next hwrap =>
  rw [if_pos (by omega), write_add hi]

end

theorem take_written (buf : List (BitVec 8)) (n : Nat) : buf.take (min buf.length n) = buf.take n := by
  rw [min_comm, ← take_eq_take_min]

/-- **Writing.** A write that does not fault appends the first bytes of its argument to the queue, as
many as there is room for, and returns their number. -/
theorem write_spec (h : ring.Valid) (buf : List (BitVec 8)) :
    ∃ ring', ring.ringbufferWrite buf = (.ok (min buf.length ring.writeAvailable), ring') ∧
      ring'.Valid ∧ ring'.content = ring.content ++ buf.take ring.writeAvailable ∧
      ring'.bufferSize = ring.bufferSize := by
  have hoff := h.writeOffset ▸ Nat.mod_lt _ h.pos
  have hroom : ring.writeAvailable ≤ ring.bufferSize := Nat.sub_le ..
  have hcount : (if buf.length > ring.writeAvailable then ring.writeAvailable else buf.length) =
      min buf.length ring.writeAvailable := by
    split <;> omega
  have hlength : (buf.take ring.writeAvailable).length = min buf.length ring.writeAvailable := by
    rw [length_take, min_comm]
  have hle : (buf.take ring.writeAvailable).length ≤ ring.writeAvailable := by
    rw [hlength]
    exact Nat.min_le_right ..
  refine ⟨ring.extend (ring.written (buf.take ring.writeAvailable))
    (min buf.length ring.writeAvailable), ?_, h.extend _ (Nat.min_le_right ..), ?_, rfl⟩
  · unfold ringbufferWrite
    rw [hcount]
    dsimp only
    split
    · next hwrap =>
      have hplace : (ring.writeOffset + min buf.length ring.writeAvailable) % ring.bufferSize =
          0 + (min buf.length ring.writeAvailable - (ring.bufferSize - ring.writeOffset)) := by
        rw [mod_place hoff (by omega), if_neg (by omega)]
        omega
      have hfirst : buf.take (ring.bufferSize - ring.writeOffset) =
          (buf.take ring.writeAvailable).take (ring.bufferSize - ring.writeOffset) := by
        rw [take_take]
        congr 1
        omega
      simp only [writeRest, Bool.false_eq_true, if_false, extend, written, hlength, hplace, take_written,
        hfirst, length_drop, Prod.mk.injEq, true_and, if_pos (hwrap)]
      congr 1
      omega
    next hwrap =>
    have hplace : (ring.writeOffset + min buf.length ring.writeAvailable) % ring.bufferSize =
        ring.writeOffset + min buf.length ring.writeAvailable := Nat.mod_eq_of_lt (by omega)
    simp only [writeRest, Bool.false_eq_true, if_false, extend, written, hlength, hplace, take_written,
      if_neg (hwrap)]
  exact content_of_written h rfl rfl (by rw [hlength]; rfl) (fun i hi => written_old h hle hi)
    fun i hi => written_new h hle hi

/-! ## Sequences of transfers -/

/-- A transfer: a read of at most so many bytes, or a write of a buffer. -/
inductive Transfer
  | read (count : Nat)
  | write (buf : List (BitVec 8))

/-- What a transfer that does not fault returns, with the bytes that were read or the number of those
that were taken. -/
def transfer (ring : Ringbuffer) :
    Transfer → Exec (Except Errno (List (BitVec 8) ⊕ Nat) × Ringbuffer)
  | .read count =>
    let (ret, ring) := ring.ringbufferRead count
    .ok (ret.map .inl, ring)
  | .write buf =>
    let (ret, ring) := ring.ringbufferWrite buf
    .ok (ret.map .inr, ring)

/-- The same on a queue of bytes with room for `capacity` of them. -/
def queueTransfer (capacity : Nat) (queue : List (BitVec 8)) :
    Transfer → Except Errno (List (BitVec 8) ⊕ Nat) × List (BitVec 8)
  | .read count =>
    (.ok (.inl (queue.take (min count queue.length))), queue.drop (min count queue.length))
  | .write buf =>
    let count := min buf.length (capacity - queue.length)
    (.ok (.inr count), queue ++ buf.take count)

/-- A ring buffer of a size holds a queue. -/
def Queues (size : Nat) (ring : Ringbuffer) (queue : List (BitVec 8)) : Prop :=
  ring.Valid ∧ ring.bufferSize = size ∧ ring.content = queue

theorem Queues.transfer {queue : List (BitVec 8)} (h : Queues size ring queue)
    (call : Transfer) : ∃ ring', ring.transfer call = .ok ((queueTransfer size queue call).1, ring') ∧
      Queues size ring' (queueTransfer size queue call).2 := by
  obtain ⟨hvalid, rfl, rfl⟩ := h
  cases call with
  | read count =>
    obtain ⟨ring', hrun, hvalid', hcontent, hsize⟩ := read_spec hvalid count
    refine ⟨ring', ?_, hvalid', hsize, ?_⟩
    · rw [Ringbuffer.transfer, hrun, take_eq_take_min]
      rfl
    rw [hcontent, queueTransfer, drop_eq_drop_min]
  | write buf => ?_
  obtain ⟨ring', hrun, hvalid', hcontent, hsize⟩ := write_spec hvalid buf
  refine ⟨ring', ?_, hvalid', hsize, ?_⟩
  · rw [Ringbuffer.transfer, hrun, queueTransfer, length_content]
    rfl
  rw [hcontent, queueTransfer, length_content, ← take_written]
  rfl

/-- **A ring buffer is a queue.** Any sequence of transfers on a new ring buffer returns what it returns
on an empty queue of its capacity, and leaves the bytes of that queue in the buffer. -/
theorem ringbuffer_refines_queue {size : Nat} (hsize : 0 < size) (calls : List Transfer) :
    ∃ ring, runOps transfer (init size) calls =
        .ok ((specOps (queueTransfer size) [] calls).1, ring) ∧
      ring.content = (specOps (queueTransfer size) [] calls).2 ∧ ring.bufferSize = size ∧
      ring.readOffset < size ∧ ring.writeOffset < size ∧
      ring.writeOffset = (ring.readOffset + ring.readAvailable) % size := by
  obtain ⟨ring, hrun, hvalid, rfl, hcontent⟩ := runOps_refines (R := Queues size)
    (fun _ _ call h _ => h.transfer call) ⟨valid_init hsize, rfl, rfl⟩ (admissible_true [] calls)
  have hwrite := hvalid.writeOffset
  exact ⟨ring, hrun, hcontent, rfl, hvalid.readOffset, hwrite ▸ Nat.mod_lt _ hsize, hwrite⟩

/-- Writes and reads that go around the end of a buffer of four bytes, once exactly up to it. -/
theorem ringbuffer_refines_queue_four : ∃ ring,
    runOps transfer (init 4) [.write [1, 2, 3], .read 2, .write [4, 5, 6, 7], .read 9, .write [8]] =
      .ok ([.ok (.inr 3), .ok (.inl [1, 2]), .ok (.inr 3), .ok (.inl [3, 4, 5, 6]), .ok (.inr 1)],
        ring) ∧ ring.content = [8] := by
  obtain ⟨ring, hrun, hcontent, -⟩ := @ringbuffer_refines_queue 4 (by decide)
    [.write [1, 2, 3], .read 2, .write [4, 5, 6, 7], .read 9, .write [8]]
  exact ⟨ring, hrun, hcontent⟩

end Ringbuffer

end Stanix
