import Stanix.Base.Exec
import Stanix.Mem.Page

/-!
# Reads and writes of page batches on a block device

`kernel/drivers/block.c`: the cache of a block device hands over batches of pages, and the driver
cuts a batch into runs of pages whose offsets follow one another (`block_get_continuous_pages`) and
makes one device request per run. When all requests are through, the whole batch is reported to the
cache as written (`cache_write_terminate`) or read (`cache_read_terminate`).

The results of allocations and of requests are lists of answers in the state, which also records the
requests that the device carried out and the batches that were reported.
-/

namespace Stanix

/-! ## Batches -/

/-- A page of a batch, by its frame, with its offset in the cache (`cache_get_page_offset`), an
`off_t`, as is the offset of its end. -/
structure BatchPage where
  frame : Nat
  offset : Nat
  offset_lt : offset + pageSize < 2 ^ 63
  deriving DecidableEq

/-- Source: `pages_batch_t` (`pagesbatch.h:8`). -/
structure PagesBatch where
  pages : List BatchPage
  length_le : pages.length ≤ pagesPerBatch

/-- A run that `block_get_continuous_pages` returns: the offset of its first page and its pages. -/
structure ContinuousRun where
  startOffset : Nat
  pages : List BatchPage
  deriving DecidableEq

/-- The loop of `block_get_continuous_pages` over the pages from `index` on: the new index and the
number of pages of the run. -/
def continuousLoop : List BatchPage → Nat → Nat → Nat → Nat × Nat
  | [], _, index, pagesCount => (index, pagesCount)
  | page :: rest, nextOffset, index, pagesCount =>
    -- the index moves on before the page is looked at
    if page.offset = nextOffset then
      continuousLoop rest (page.offset + pageSize) (index + 1) (pagesCount + 1)
    else
      (index + 1, pagesCount)

/-- Source: `block_get_continuous_pages` (`block.c:63`): the next run and the index after it. -/
def blockGetContinuousPages (batch : PagesBatch) (index : Nat) : Option (ContinuousRun × Nat) :=
  match batch.pages.drop index with
  | [] => none
  | first :: rest =>
    let (index', pagesCount) := continuousLoop (first :: rest) first.offset index 0
    some (⟨first.offset, (first :: rest).take pagesCount⟩, index')

/-- The runs of repeated calls of `block_get_continuous_pages`, as the callers make them. -/
def continuousRuns (batch : PagesBatch) : Nat → Nat → Exec (List ContinuousRun)
  | 0, _ => .error .fuel
  | fuel + 1, index =>
    match blockGetContinuousPages batch index with
    | none => .ok []
    | some (run, index) => do
      let runs ← continuousRuns batch fuel index
      return run :: runs

/-- The runs of a batch from its first page on. -/
def batchRuns (batch : PagesBatch) : Exec (List ContinuousRun) :=
  continuousRuns batch (batch.pages.length + 1) 0

/-! ## Devices and requests -/

/-- The geometry of a `block_device_t`. -/
structure BlockDevice where
  sectorSize : Nat
  sectorsCount : Nat

/-- Source: the request types of `block.h:53`. -/
inductive BlockRequestType
  | read
  | write
  | flush
  deriving DecidableEq

/-- A `block_request_t`, with the pages of the batch whose bytes it transfers. -/
structure BlockRequest where
  type : BlockRequestType
  startSector : Nat
  sectorsCount : Nat
  pages : List BatchPage
  deriving DecidableEq

/-- The environment of the driver: the answers to come (`none` for a success), the requests that the
device carried out and the batches reported to the cache with their result. -/
structure BlockIo where
  answers : List (Option Errno) := []
  finished : List BlockRequest := []
  reported : List (List BatchPage × Option Errno) := []

namespace BlockIo

/-- The next answer; the environment grants what it has no answer for. -/
def answer (io : BlockIo) : Option Errno × BlockIo :=
  match io.answers with
  | [] => (none, io)
  | a :: rest => (a, { io with answers := rest })

/-- `ioreq_submit_sync_interruptible` (`ioreq.c:29`) of a request. -/
def submitSync (io : BlockIo) (request : BlockRequest) : Option Errno × BlockIo :=
  match io.answer with
  | (some e, io) => (some e, io)
  | (none, io) => (none, { io with finished := io.finished ++ [request] })

/-- A request that is created, which needs memory, and submitted. -/
def request (io : BlockIo) (request : BlockRequest) : Option Errno × BlockIo :=
  match io.answer with
  | (some _, io) => (some .nomem, io)
  | (none, io) => io.submitSync request

end BlockIo

/-- The bounds of the transfer of a run, clipped to the device. -/
structure RunBounds where
  endOffset : Nat
  startSector : Nat
  endSector : Nat

/-- The bounds of the transfer of a run (`block.c:94`, `block.c:159`). -/
def BlockDevice.bounds (dev : BlockDevice) (run : ContinuousRun) : RunBounds :=
  let endOffset := run.startOffset + run.pages.length * pageSize
  let startSector := run.startOffset / dev.sectorSize
  let endSector := (endOffset + dev.sectorSize - 1) / dev.sectorSize
  if endSector > dev.sectorsCount then
    ⟨dev.sectorsCount * dev.sectorSize, startSector, dev.sectorsCount⟩
  else
    ⟨endOffset, startSector, endSector⟩

/-- The number of sectors between two bounds, a `size_t`. -/
def RunBounds.sectorsCount (b : RunBounds) : Nat :=
  (b.endSector + 2 ^ 64 - b.startSector) % 2 ^ 64

/-! ## Writing -/

/-- The read of the first sector of a run, if the run does not start at a sector (`block.c:176`). -/
def blockReadFirst (dev : BlockDevice) (run : ContinuousRun) (io : BlockIo) :
    Option Errno × BlockIo :=
  if run.startOffset % dev.sectorSize ≠ 0 then
    io.request ⟨.read, (dev.bounds run).startSector, 1, []⟩
  else (none, io)

/-- The read of the last sector of a run, if the run does not end at a sector (`block.c:184`). -/
def blockReadLast (dev : BlockDevice) (run : ContinuousRun) (io : BlockIo) :
    Option Errno × BlockIo :=
  let b := dev.bounds run
  if b.endOffset % dev.sectorSize ≠ 0 ∧
      (run.startOffset % dev.sectorSize = 0 ∨ b.startSector ≠ b.endSector) then
    io.request ⟨.read, b.endSector - 1, 1, []⟩
  else (none, io)

/-- The copy of the pages into the buffer (`block.c:194`): valid pages, inside of the buffer. -/
def blockCopyPages (dev : BlockDevice) (run : ContinuousRun) : Exec Unit := do
  Exec.assert (∀ page ∈ run.pages, page.frame ≠ pageInvalid)
  if run.startOffset % dev.sectorSize + run.pages.length * pageSize ≤
      (dev.bounds run).sectorsCount * dev.sectorSize % 2 ^ 64 then .ok () else .error .bounds

/-- The write request of a run and the flush after it (`block.c:204`). -/
def blockWriteAndFlush (dev : BlockDevice) (run : ContinuousRun) (io : BlockIo) :
    Option Errno × BlockIo :=
  let b := dev.bounds run
  match io.request ⟨.write, b.startSector, b.sectorsCount, run.pages⟩ with
  | (some e, io) => (some e, io)
  | (none, io) => io.request ⟨.flush, b.startSector, b.sectorsCount, []⟩

/-- Source: `block_write_continuous_pages` (`block.c:157`). -/
def blockWriteContinuousPages (dev : BlockDevice) (run : ContinuousRun) (io : BlockIo) :
    Exec (Option Errno × BlockIo) :=
  if dev.sectorSize = 0 then .error .division
  else
    match io.answer with
    | (some _, io) => .ok (some .nomem, io)
    | (none, io) =>
      match blockReadFirst dev run io with
      | (some e, io) => .ok (some e, io)
      | (none, io) =>
        match blockReadLast dev run io with
        | (some e, io) => .ok (some e, io)
        | (none, io) => do
          blockCopyPages dev run
          return blockWriteAndFlush dev run io

/-- The loop of `block_write_pages`. -/
def blockWriteLoop (dev : BlockDevice) (batch : PagesBatch) :
    Nat → Nat → BlockIo → Exec (Option Errno × BlockIo)
  | 0, _, _ => .error .fuel
  | fuel + 1, index, io =>
    match blockGetContinuousPages batch index with
    | none => .ok (none, io)
    | some (run, index) => do
      let (ret, io) ← blockWriteContinuousPages dev run io
      match ret with
      | some e => return (some e, io)
      | none => blockWriteLoop dev batch fuel index io

/-- Source: `block_write_pages` (`block.c:229`). -/
def blockWritePages (dev : BlockDevice) (batch : PagesBatch) (io : BlockIo) :
    Exec (Option Errno × BlockIo) := do
  let (ret, io) ← blockWriteLoop dev batch (batch.pages.length + 1) 0 io
  match ret with
  | some e => return (some e, io)
  | none => return (none, { io with reported := io.reported ++ [(batch.pages, none)] })

/-! ## Reading -/

/-- Source: `block_batch_t` (`block.h:77`). -/
structure BlockBatch where
  requestsCount : Nat
  finishedRequestsCount : Nat := 0
  ret : Option Errno := none
  pages : List BatchPage

/-- Source: `block_read_pages_callback` (`block.c:51`) for a request that finished with `ret`. The
first error of the batch is kept. -/
def blockReadPagesCallback (batch : BlockBatch) (request : BlockRequest) (ret : Option Errno)
    (io : BlockIo) : BlockBatch × BlockIo :=
  let batch := { batch with
    ret := if batch.ret.isNone then ret else batch.ret
    finishedRequestsCount := batch.finishedRequestsCount + 1 }
  let io := if ret.isNone then { io with finished := io.finished ++ [request] } else io
  if batch.finishedRequestsCount = batch.requestsCount then
    (batch, { io with reported := io.reported ++ [(batch.pages, batch.ret)] })
  else (batch, io)

/-- Source: `block_make_read_request_from_pages` (`block.c:92`); the request and the buffer of its
pages need memory. -/
def blockMakeReadRequestFromPages (dev : BlockDevice) (run : ContinuousRun) (io : BlockIo) :
    Exec (Option BlockRequest × BlockIo) :=
  if dev.sectorSize = 0 then .error .division
  else
    let b := dev.bounds run
    match io.answer with
    | (some _, io) => .ok (none, io)
    | (none, io) =>
      match io.answer with
      | (some _, io) => .ok (none, io)
      | (none, io) => do
        Exec.assert (∀ page ∈ run.pages, page.frame ≠ pageInvalid)
        return (some ⟨.read, b.startSector, b.sectorsCount, run.pages⟩, io)

/-- The loop of `block_read_pages` that makes the requests, with those made so far. -/
def blockReadLoop (dev : BlockDevice) (batch : PagesBatch) :
    Nat → Nat → List BlockRequest → BlockIo → Exec (Option (List BlockRequest) × BlockIo)
  | 0, _, _, _ => .error .fuel
  | fuel + 1, index, requests, io =>
    match blockGetContinuousPages batch index with
    | none => .ok (some requests, io)
    | some (run, index) => do
      let (request, io) ← blockMakeReadRequestFromPages dev run io
      match request with
      | none => return (none, io)
      | some request =>
        -- the array of requests on the stack has one place per page
        if requests.length < pagesPerBatch then
          blockReadLoop dev batch fuel index (requests ++ [request]) io
        else .error .bounds

/-- The submission of the requests of a batch. A request that is refused is freed before the
callback reads it. -/
def blockSubmitAll : List BlockRequest → BlockIo → Exec BlockIo
  | [], io => .ok io
  | _ :: rest, io =>
    match io.answer with
    | (some _, _) => .error .null
    | (none, io) => blockSubmitAll rest io

/-- Source: `block_read_pages` (`block.c:119`): the requests under way, or an error. -/
def blockReadPages (dev : BlockDevice) (batch : PagesBatch) (io : BlockIo) :
    Exec (Except Errno (List BlockRequest) × BlockIo) :=
  match io.answer with
  | (some _, io) => .ok (.error .nomem, io)
  | (none, io) => do
    let (requests, io) ← blockReadLoop dev batch (batch.pages.length + 1) 0 [] io
    match requests with
    | none => return (.error .nomem, io)
    | some requests =>
      Exec.assert (0 < requests.length)
      let io ← blockSubmitAll requests io
      return (.ok requests, io)

/-- The requests of a batch finish one after the other, each with its result. -/
def blockFinishReads (batch : BlockBatch) :
    List (BlockRequest × Option Errno) → BlockIo → BlockBatch × BlockIo
  | [], io => (batch, io)
  | (request, ret) :: rest, io =>
    let (batch, io) := blockReadPagesCallback batch request ret io
    blockFinishReads batch rest io

end Stanix
