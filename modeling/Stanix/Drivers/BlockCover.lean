import Stanix.Drivers.Block
import Mathlib.Data.List.Chain

/-!
# Which pages of a batch reach the device

The runs that `block_get_continuous_pages` returns, one call after the other, should partition the
batch: then every page that the driver reports to the cache as read or written was part of a device
request. The index moves past a page before the offset of the page is compared, so the page that ends
a run is in no run at all.

`runLength` is the number of pages that a call takes. `continuousRuns_length` counts the pages of all
runs, the requests of the driver are those of the runs (`blockWriteLoop_runs`, `blockReadLoop_runs`),
and `batch_covered_iff` puts the two together.
-/

namespace Stanix

open Exec List BlockIo

/-- A page whose offset follows that of another. -/
def Follows (p q : BatchPage) : Prop := q.offset = p.offset + pageSize

/-- The offsets of a list of pages follow one another. -/
def Consecutive (pages : List BatchPage) : Prop := pages.IsChain Follows

/-- A run as it should be: consecutive pages from its offset on. -/
def ContinuousRun.Ok (run : ContinuousRun) : Prop :=
  Consecutive run.pages ∧ ∀ first ∈ run.pages.head?, first.offset = run.startOffset

/-! ## One run -/

/-- The number of pages at the front of a list whose offsets follow one another from `nextOffset`
on. -/
def runLength : List BatchPage → Nat → Nat
  | [], _ => 0
  | page :: rest, nextOffset =>
    if page.offset = nextOffset then runLength rest (page.offset + pageSize) + 1 else 0

section

variable (pages : List BatchPage)

include pages

theorem runLength_le (nextOffset : Nat) : runLength pages nextOffset ≤ pages.length := by
  induction pages generalizing nextOffset with
  | nil => exact le_rfl
  | cons page rest ih => ?_
  unfold runLength
  split
  · have := ih (page.offset + pageSize)
    simp only [length_cons]
    omega
  exact Nat.zero_le _

/-- The loop takes the pages that follow one another, and moves past one page more if there is
one. -/
theorem continuousLoop_eq (nextOffset index count : Nat) :
    continuousLoop pages nextOffset index count =
      (index + min (runLength pages nextOffset + 1) pages.length,
        count + runLength pages nextOffset) := by
  induction pages generalizing nextOffset index count with
  | nil => simp [continuousLoop, runLength]
  | cons page rest ih => ?_
  unfold continuousLoop runLength
  split
  · rw [ih]
    simp only [length_cons, Prod.mk.injEq]
    omega
  simp

theorem consecutive_take_runLength (nextOffset : Nat) :
    Consecutive (pages.take (runLength pages nextOffset)) ∧
      ∀ first ∈ (pages.take (runLength pages nextOffset)).head?, first.offset = nextOffset := by
  induction pages generalizing nextOffset with
  | nil => simp [Consecutive]
  | cons page rest ih => ?_
  unfold runLength
  split
  · next h =>
    obtain ⟨h1, h2⟩ := ih (page.offset + pageSize)
    refine ⟨?_, by simp [h]⟩
    exact isChain_cons.2 ⟨fun q hq => h2 q hq, h1⟩
  simp [Consecutive]

end

variable {pages rest : List BatchPage} {index fuel : Nat} {batch : PagesBatch}
  {order : List (BlockRequest × Option Errno)} {dev : BlockDevice} {runs : List ContinuousRun}
  {requests : List BlockRequest} {run : ContinuousRun} {page : BatchPage}

theorem consecutive_of_runLength (nextOffset : Nat)
    (h : pages.length ≤ runLength pages nextOffset) : Consecutive pages := by
  have := (consecutive_take_runLength pages nextOffset).1
  rwa [take_of_length_le h] at this

theorem runLength_of_consecutive (h : Consecutive (page :: rest)) :
    runLength (page :: rest) page.offset = (page :: rest).length := by
  induction rest generalizing page with
  | nil => simp [runLength]
  | cons next rest ih =>
    obtain ⟨hnext, hrest⟩ := isChain_cons_cons.1 h
    have := ih hrest
    unfold runLength
    rw [if_pos rfl, ← show next.offset = page.offset + pageSize from hnext, this]
    rfl

/-! ## All runs -/

/-- What a call returns: the pages from the index on that follow one another, and the index of the
page after the one that ended the run. -/
theorem blockGetContinuousPages_eq {first : BatchPage}
    (h : batch.pages.drop index = first :: rest) : blockGetContinuousPages batch index =
      some (⟨first.offset, (first :: rest).take (runLength (first :: rest) first.offset)⟩,
        index + min (runLength (first :: rest) first.offset + 1) (first :: rest).length) := by
  unfold blockGetContinuousPages
  rw [h]
  simp only [continuousLoop_eq, zero_add]

theorem blockGetContinuousPages_eq_none (h : batch.pages.drop index = []) :
    blockGetContinuousPages batch index = none := by
  unfold blockGetContinuousPages
  rw [h]

theorem continuousRuns_none (fuel : Nat) (h : blockGetContinuousPages batch index = none) :
    continuousRuns batch (fuel + 1) index = .ok [] := by
  unfold continuousRuns
  rw [h]

theorem continuousRuns_some {index' : Nat}
    (h : blockGetContinuousPages batch index = some (run, index'))
    (hruns : continuousRuns batch fuel index' = .ok runs) :
    continuousRuns batch (fuel + 1) index = .ok (run :: runs) := by
  rw [continuousRuns, h]
  exact bind_eq_ok.2 ⟨runs, hruns, rfl⟩

/-- The pages of a list of runs, in order. -/
def runsPages (runs : List ContinuousRun) : List BatchPage := (runs.map (·.pages)).flatten

/-- The runs from an index on hold at most the pages from there on, and all of them only if these are
consecutive. -/
theorem continuousRuns_length (h : continuousRuns batch fuel index = .ok runs) :
    (runsPages runs).length ≤ (batch.pages.drop index).length ∧
      ((runsPages runs).length = (batch.pages.drop index).length →
        Consecutive (batch.pages.drop index)) := by
  induction fuel generalizing index runs with
  | zero => cases h
  | succ fuel ih => ?_
  unfold continuousRuns at h
  cases hd : batch.pages.drop index with
  | nil =>
    rw [blockGetContinuousPages_eq_none hd] at h
    cases h
    exact ⟨le_rfl, fun _ => isChain_nil⟩
  | cons first rest => ?_
  rw [blockGetContinuousPages_eq hd] at h
  obtain ⟨runs', h', hruns⟩ := bind_eq_ok.1 h
  cases hruns
  have hk := runLength_le (first :: rest) first.offset
  have hlen : (batch.pages.drop index).length = (first :: rest).length := by rw [hd]
  have hih := (ih h').1
  rw [length_drop] at hih hlen
  have hpages : (runsPages (⟨first.offset,
      (first :: rest).take (runLength (first :: rest) first.offset)⟩ :: runs')).length =
      runLength (first :: rest) first.offset + (runsPages runs').length := by
    simp only [runsPages, map_cons, flatten_cons, length_append, length_take]
    omega
  refine ⟨by omega, fun heq => consecutive_of_runLength first.offset ?_⟩
  -- a run that does not take all pages loses the one that ends it
  by_contra hlt
  omega

theorem batchRuns_of_consecutive (h : Consecutive batch.pages) :
    ∃ runs, batchRuns batch = .ok runs ∧ runsPages runs = batch.pages ∧ ∀ run ∈ runs, run.Ok := by
  unfold batchRuns
  cases hp : batch.pages with
  | nil =>
    exact ⟨[], continuousRuns_none _ (blockGetContinuousPages_eq_none (by simp [hp])), rfl,
      fun run hrun => absurd hrun not_mem_nil⟩
  | cons first rest => ?_
  have hk := runLength_of_consecutive (hp ▸ h)
  have hfirst := blockGetContinuousPages_eq (show batch.pages.drop 0 = first :: rest from hp)
  rw [hk, take_length] at hfirst
  refine ⟨[⟨first.offset, first :: rest⟩], ?_, by simp [runsPages], ?_⟩
  · refine continuousRuns_some hfirst (continuousRuns_none _ ?_)
    exact blockGetContinuousPages_eq_none (by simp [hp])
  intro run hrun
  obtain rfl := mem_singleton.1 hrun
  exact ⟨hp ▸ h, by simp⟩

/-! ## The sectors of a run -/

/-- A request transfers a page and reaches every sector of the device on which bytes of the page
lie. -/
def BlockRequest.Covers (dev : BlockDevice) (request : BlockRequest) (page : BatchPage) : Prop :=
  page ∈ request.pages ∧
    ∀ x, page.offset ≤ x → x < page.offset + pageSize → x / dev.sectorSize < dev.sectorsCount →
      request.startSector ≤ x / dev.sectorSize ∧
        x / dev.sectorSize < request.startSector + request.sectorsCount

/-- The request that transfers a run. -/
def ContinuousRun.request (dev : BlockDevice) (type : BlockRequestType) (run : ContinuousRun) :
    BlockRequest :=
  ⟨type, (dev.bounds run).startSector, (dev.bounds run).sectorsCount, run.pages⟩

/-- The pages of a run lie between its bounds. -/
theorem consecutive_bounds {start : Nat} (h : Consecutive pages)
    (hfirst : ∀ first ∈ pages.head?, first.offset = start) (hp : page ∈ pages) :
    start ≤ page.offset ∧ page.offset + pageSize ≤ start + pages.length * pageSize ∧
      start + pages.length * pageSize < 2 ^ 63 := by
  induction pages generalizing start page with
  | nil => cases hp
  | cons first rest ih => ?_
  have hs := hfirst first rfl
  have hlt := first.offset_lt
  cases rest with
  | nil =>
    obtain rfl := mem_singleton.1 hp
    simp only [length_singleton]
    omega
  | cons second rest => ?_
  obtain ⟨hnext, hrest⟩ := isChain_cons_cons.1 h
  have hnext : second.offset = first.offset + pageSize := hnext
  have hstart : ∀ q ∈ (second :: rest).head?, q.offset = first.offset + pageSize := by
    simpa using hnext
  rcases mem_cons.1 hp with rfl | hp
  · have := ih hrest hstart mem_cons_self
    simp only [length_cons, add_mul] at this ⊢
    omega
  have := ih hrest hstart hp
  simp only [length_cons, add_mul] at this ⊢
  omega

/-- Bounds in order, whose distance fits a `size_t`. -/
theorem RunBounds.sectorsCount_eq {b : RunBounds} (h : b.startSector ≤ b.endSector)
    (hlt : b.endSector < 2 ^ 64) : b.sectorsCount = b.endSector - b.startSector := by
  unfold sectorsCount
  rw [show b.endSector + 2 ^ 64 - b.startSector = b.endSector - b.startSector + 2 ^ 64 by omega,
    Nat.add_mod_right, Nat.mod_eq_of_lt (by omega)]

/-- **The request of a run covers its pages.** -/
theorem ContinuousRun.request_covers (hdev : 0 < dev.sectorSize) (type : BlockRequestType)
    (hrun : run.Ok) (hp : page ∈ run.pages) : (run.request dev type).Covers dev page := by
  refine ⟨hp, fun x hlo hhi hx => ?_⟩
  obtain ⟨h1, h2, h3⟩ := consecutive_bounds hrun.1 hrun.2 hp
  have hstart : run.startOffset / dev.sectorSize ≤ x / dev.sectorSize :=
    Nat.div_le_div_right (by omega)
  have hend : x / dev.sectorSize + 1 ≤
      (run.startOffset + run.pages.length * pageSize + dev.sectorSize - 1) / dev.sectorSize := by
    rw [← Nat.add_div_right _ hdev]
    exact Nat.div_le_div_right (by omega)
  have hle : (run.startOffset + run.pages.length * pageSize + dev.sectorSize - 1) /
      dev.sectorSize < 2 ^ 63 + 1 := by
    rw [Nat.div_lt_iff_lt_mul hdev, add_mul]
    omega
  unfold request BlockDevice.bounds
  dsimp only
  split
  · rw [RunBounds.sectorsCount_eq] <;> dsimp only <;> omega
  rw [RunBounds.sectorsCount_eq] <;> dsimp only <;> omega

/-! ## The requests of the driver -/

namespace BlockIo

variable (io : BlockIo) (request : BlockRequest)

@[simp] theorem answer_finished : io.answer.2.finished = io.finished := by
  unfold answer
  split <;> rfl

@[simp] theorem answer_reported : io.answer.2.reported = io.reported := by
  unfold answer
  split <;> rfl

/-- What the environment did before and after: requests carried out stay on record, and nothing is
reported. -/
structure Extends (io io' : BlockIo) : Prop where
  finished : io.finished ⊆ io'.finished
  reported : io'.reported = io.reported

theorem Extends.refl : io.Extends io := ⟨List.Subset.refl _, rfl⟩

variable {io} {io' : BlockIo}

theorem Extends.trans {io'' : BlockIo} (h : io.Extends io') (h' : io'.Extends io'') :
    io.Extends io'' :=
  ⟨List.Subset.trans h.finished h'.finished, h'.reported.trans h.reported⟩

theorem answer_extends {a : Option Errno} (h : io.answer = (a, io')) : io.Extends io' := by
  obtain rfl := congrArg Prod.snd h
  exact ⟨by simp, by simp⟩

variable {request}

theorem request_extends {ret : Option Errno} (h : io.request request = (ret, io')) :
    io.Extends io' ∧ (ret = none → request ∈ io'.finished) := by
  unfold BlockIo.request at h
  split at h
  · next ha =>
    cases h
    exact ⟨answer_extends ha, nofun⟩
  next io1 ha =>
  unfold submitSync at h
  split at h
  · next hb =>
    cases h
    exact ⟨(answer_extends ha).trans (answer_extends hb), nofun⟩
  next io2 hb =>
  cases h
  have hext := (answer_extends ha).trans (answer_extends hb)
  exact ⟨⟨subset_append_of_subset_left _ hext.finished, hext.reported⟩, fun _ => by simp⟩

end BlockIo

/-- A run that was written with success: its write request was carried out. -/
theorem blockWriteContinuousPages_extends {io io' : BlockIo} {ret : Option Errno}
    (h : blockWriteContinuousPages dev run io = .ok (ret, io')) :
    0 < dev.sectorSize ∧ io.Extends io' ∧
      (ret = none → run.request dev .write ∈ io'.finished) := by
  unfold blockWriteContinuousPages at h
  split at h
  · cases h
  next hdev =>
  refine ⟨Nat.pos_of_ne_zero hdev, ?_⟩
  split at h
  · next ha =>
    cases h
    exact ⟨answer_extends ha, nofun⟩
  next io1 ha =>
  have hext := answer_extends ha
  split at h
  · next e io2 hb =>
    cases h
    exact ⟨hext.trans (readFirst hb), nofun⟩
  next io2 hb =>
  have hext := hext.trans (readFirst hb)
  split at h
  · next e io3 hc =>
    cases h
    exact ⟨hext.trans (readLast hc), nofun⟩
  next io3 hc =>
  have hext := hext.trans (readLast hc)
  obtain ⟨-, -, h⟩ := bind_eq_ok.1 h
  simp only [pure_eq, Except.ok.injEq] at h
  obtain ⟨hext', hmem⟩ := writeAndFlush h
  exact ⟨hext.trans hext', hmem⟩
where
  readFirst {io io' : BlockIo} {ret : Option Errno} (h : blockReadFirst dev run io = (ret, io')) :
      io.Extends io' := by
    unfold blockReadFirst at h
    split at h
    · exact (BlockIo.request_extends h).1
    · cases h
      exact .refl _
  readLast {io io' : BlockIo} {ret : Option Errno} (h : blockReadLast dev run io = (ret, io')) :
      io.Extends io' := by
    unfold blockReadLast at h
    dsimp only at h
    split at h
    · exact (BlockIo.request_extends h).1
    · cases h
      exact .refl _
  writeAndFlush {io io' : BlockIo} {ret : Option Errno}
      (h : blockWriteAndFlush dev run io = (ret, io')) :
      io.Extends io' ∧ (ret = none → run.request dev .write ∈ io'.finished) := by
    unfold blockWriteAndFlush at h
    dsimp only at h
    split at h
    · next hw =>
      cases h
      exact ⟨(BlockIo.request_extends hw).1, nofun⟩
    · next io₁ hw =>
      obtain ⟨hext, hmem⟩ := BlockIo.request_extends hw
      have hflush := (BlockIo.request_extends h).1
      exact ⟨hext.trans hflush, fun _ => hflush.finished (hmem rfl)⟩

/-- **Writing a batch writes its runs.** When the loop over the runs ends without an error, the write
request of every run was carried out. -/
theorem blockWriteLoop_runs {io io' : BlockIo} {ret : Option Errno}
    (h : blockWriteLoop dev batch fuel index io = .ok (ret, io')) :
    io.Extends io' ∧ (ret = none → ∃ runs, continuousRuns batch fuel index = .ok runs ∧
      ∀ run ∈ runs, 0 < dev.sectorSize ∧ run.request dev .write ∈ io'.finished) := by
  induction fuel generalizing index io with
  | zero => cases h
  | succ fuel ih => ?_
  unfold blockWriteLoop at h
  split at h
  · next hnone =>
    cases h
    exact ⟨.refl _, fun _ => ⟨[], continuousRuns_none _ hnone, by simp⟩⟩
  next run index' hsome =>
  obtain ⟨⟨ret1, io1⟩, h1, h⟩ := bind_eq_ok.1 h
  obtain ⟨hdev, hext, hmem⟩ := blockWriteContinuousPages_extends h1
  cases ret1 with
  | some e =>
    cases h
    exact ⟨hext, nofun⟩
  | none => ?_
  obtain ⟨hext', hruns⟩ := ih h
  refine ⟨hext.trans hext', fun hret => ?_⟩
  obtain ⟨runs, hok, hall⟩ := hruns hret
  refine ⟨run :: runs, continuousRuns_some hsome hok, fun r hr => ?_⟩
  rcases mem_cons.1 hr with rfl | hr
  · exact ⟨hdev, hext'.finished (hmem rfl)⟩
  exact hall r hr

/-- **Reading a batch reads its runs.** The requests that are made are those of the runs. -/
theorem blockReadLoop_runs {made : List BlockRequest} {io io' : BlockIo}
    (h : blockReadLoop dev batch fuel index made io = .ok (some requests, io')) :
    io.Extends io' ∧ ∃ runs, continuousRuns batch fuel index = .ok runs ∧
      (∀ run ∈ runs, 0 < dev.sectorSize) ∧ requests = made ++ runs.map (·.request dev .read) := by
  induction fuel generalizing index made io with
  | zero => cases h
  | succ fuel ih => ?_
  unfold blockReadLoop at h
  split at h
  · next hnone =>
    cases h
    exact ⟨.refl _, [], continuousRuns_none _ hnone, by simp, by simp⟩
  next run index' hsome =>
  obtain ⟨⟨request, io1⟩, h1, h⟩ := bind_eq_ok.1 h
  cases request with
  | none => cases h
  | some request => ?_
  obtain ⟨hdev, hext, rfl⟩ := make h1
  dsimp only at h
  split at h
  · obtain ⟨hext', runs, hok, hall, hreq⟩ := ih h
    refine ⟨hext.trans hext', run :: runs, continuousRuns_some hsome hok, ?_, ?_⟩
    · intro r hr
      exact hdev
    rw [hreq, append_assoc, map_cons, singleton_append]
  cases h
where
  make {run : ContinuousRun} {request : BlockRequest} {io io' : BlockIo}
      (h : blockMakeReadRequestFromPages dev run io = .ok (some request, io')) :
      0 < dev.sectorSize ∧ io.Extends io' ∧ request = run.request dev .read := by
    unfold blockMakeReadRequestFromPages at h
    split at h
    · cases h
    next hdev =>
    split at h
    · cases h
    next io₁ ha =>
    split at h
    · cases h
    next io₂ hb =>
    obtain ⟨-, -, h⟩ := bind_eq_ok.1 h
    cases h
    exact ⟨Nat.pos_of_ne_zero hdev, (BlockIo.answer_extends ha).trans (BlockIo.answer_extends hb),
      rfl⟩

theorem blockSubmitAll_extends {io io' : BlockIo} (h : blockSubmitAll requests io = .ok io') :
    io.Extends io' := by
  induction requests generalizing io with
  | nil =>
    cases h
    exact .refl _
  | cons request rest ih =>
    unfold blockSubmitAll at h
    split at h
    · cases h
    next io1 ha => exact (answer_extends ha).trans (ih h)

/-- The requests that a successful `block_read_pages` leaves under way are those of the runs, and it
reports nothing itself. -/
theorem blockReadPages_runs {io io' : BlockIo}
    (h : blockReadPages dev batch io = .ok (.ok requests, io')) :
    io'.reported = io.reported ∧ ∃ runs, batchRuns batch = .ok runs ∧
      (∀ run ∈ runs, 0 < dev.sectorSize) ∧ requests = runs.map (·.request dev .read) := by
  unfold blockReadPages at h
  split at h
  · cases h
  next io1 ha =>
  obtain ⟨⟨made, io2⟩, h1, h⟩ := bind_eq_ok.1 h
  cases made with
  | none => cases h
  | some made => ?_
  obtain ⟨-, -, h⟩ := bind_eq_ok.1 h
  obtain ⟨io3, h3, h⟩ := bind_eq_ok.1 h
  cases h
  obtain ⟨hext, runs, hok, hdev, hreq⟩ := blockReadLoop_runs h1
  have hall := ((answer_extends ha).trans hext).trans (blockSubmitAll_extends h3)
  exact ⟨hall.reported, runs, hok, hdev, by simpa using hreq⟩

/-! ## The end of a read -/

theorem blockFinishReads_finished {batch : BlockBatch} {io : BlockIo} :
    io.finished ⊆ (blockFinishReads batch order io).2.finished ∧
      ∀ request, (request, none) ∈ order →
        request ∈ (blockFinishReads batch order io).2.finished := by
  induction order generalizing batch io with
  | nil => simp [blockFinishReads]
  | cons entry rest ih => ?_
  obtain ⟨request, ret⟩ := entry
  obtain ⟨hkeep, hrest⟩ := @ih (blockReadPagesCallback batch request ret io).1
    (blockReadPagesCallback batch request ret io).2
  have hstep : (blockReadPagesCallback batch request ret io).2.finished =
      if ret.isNone then io.finished ++ [request] else io.finished := by
    unfold blockReadPagesCallback
    dsimp only
    cases ret <;> split <;> rfl
  rw [hstep] at hkeep
  refine ⟨fun x hx => hkeep (by split <;> simp [hx]), fun r hr => ?_⟩
  rcases mem_cons.1 hr with heq | hr
  · cases heq
    exact hkeep (by simp)
  exact hrest r hr

/-- A batch is reported as read when its last request finishes, and only if all of them finished
without an error. -/
theorem blockFinishReads_reported {batch : BlockBatch} {io : BlockIo}
    (hcount : batch.finishedRequestsCount + order.length = batch.requestsCount)
    (hp : (pages, none) ∈ (blockFinishReads batch order io).2.reported) :
    (pages, none) ∈ io.reported ∨
      pages = batch.pages ∧ batch.ret = none ∧ ∀ entry ∈ order, entry.2 = none := by
  induction order generalizing batch io with
  | nil => exact .inl hp
  | cons entry rest ih => ?_
  obtain ⟨request, ret⟩ := entry
  unfold blockFinishReads blockReadPagesCallback at hp
  dsimp only at hp
  simp only [length_cons] at hcount
  have hio : (if ret.isNone then { io with finished := io.finished ++ [request] }
      else io).reported = io.reported := by
    split <;> rfl
  split at hp
  · next hlast =>
    -- the count is reached with the last request only
    obtain rfl : rest = [] := eq_nil_of_length_eq_zero (by omega)
    simp only [blockFinishReads, hio, mem_append, mem_singleton, Prod.mk.injEq] at hp
    rcases hp with hp | ⟨rfl, hret⟩
    · exact .inl hp
    refine .inr ⟨rfl, ?_, fun e he => ?_⟩
    · cases hb : batch.ret with
      | none => rfl
      | some e => simp [hb] at hret
    grind
  rcases ih (by dsimp only; omega) hp with hp | ⟨rfl, hret, hall⟩
  · exact .inl (hio ▸ hp)
  cases hb : batch.ret with
  | none =>
    refine .inr ⟨rfl, rfl, fun e he => ?_⟩
    rcases mem_cons.1 he with rfl | he
    · simpa [hb] using hret
    exact hall e he
  | some e => simp [hb] at hret

/-! ## Batches that reach the device -/

/-- The runs of a batch partition it: every page is in one run, in the order of the batch, and the
pages of a run are consecutive. -/
def RunsPartition (batch : PagesBatch) : Prop :=
  ∃ runs, batchRuns batch = .ok runs ∧ runsPages runs = batch.pages ∧ ∀ run ∈ runs, run.Ok

/-- A page that `block_write_pages` reports as written is covered by a write request that the device
carried out, whatever the environment answers. -/
def WritesCovered (dev : BlockDevice) (batch : PagesBatch) : Prop :=
  ∀ answers ret io', blockWritePages dev batch { answers } = .ok (ret, io') →
    ∀ pages, (pages, none) ∈ io'.reported → ∀ page ∈ pages,
      ∃ request ∈ io'.finished, request.type = .write ∧ request.Covers dev page

/-- A page that is reported as read, once the requests of `block_read_pages` have finished in any
order and with any results, is covered by a read request that the device carried out. -/
def ReadsCovered (dev : BlockDevice) (batch : PagesBatch) : Prop :=
  ∀ answers requests io', blockReadPages dev batch { answers } = .ok (.ok requests, io') →
    ∀ order : List (BlockRequest × Option Errno), (order.map Prod.fst).Perm requests →
      ∀ end_, blockFinishReads { requestsCount := requests.length, pages := batch.pages } order io' =
        end_ → ∀ pages, (pages, none) ∈ end_.2.reported → ∀ page ∈ pages,
          ∃ request ∈ end_.2.finished, request.type = .read ∧ request.Covers dev page

theorem mem_run_of_partition (hruns : batchRuns batch = .ok runs) (h : RunsPartition batch)
    (hp : page ∈ batch.pages) : ∃ run ∈ runs, run.Ok ∧ page ∈ run.pages := by
  obtain ⟨runs', hruns', hpages, hok⟩ := h
  cases hruns.symm.trans hruns'
  rw [← hpages, runsPages, mem_flatten] at hp
  obtain ⟨l, hl, hp⟩ := hp
  obtain ⟨run, hrun, rfl⟩ := mem_map.1 hl
  exact ⟨run, hrun, hok run hrun, hp⟩

theorem writesCovered_of_partition (h : RunsPartition batch) (dev : BlockDevice) :
    WritesCovered dev batch := by
  intro answers ret io' hw pages hrep page hp
  obtain ⟨⟨ret1, io1⟩, h1, hw⟩ := bind_eq_ok.1 hw
  obtain ⟨hext, hruns⟩ := blockWriteLoop_runs h1
  have hrep1 : io1.reported = [] := hext.reported
  cases ret1 with
  | some e =>
    cases hw
    rw [hrep1] at hrep
    cases hrep
  | none => ?_
  cases hw
  simp only [hrep1, nil_append, mem_singleton, Prod.mk.injEq, and_true] at hrep
  subst hrep
  obtain ⟨runs, hok, hall⟩ := hruns rfl
  obtain ⟨run, hrun, hrok, hpr⟩ := mem_run_of_partition hok h hp
  obtain ⟨hdev, hmem⟩ := hall run hrun
  exact ⟨_, hmem, rfl, ContinuousRun.request_covers hdev .write hrok hpr⟩

theorem readsCovered_of_partition (h : RunsPartition batch) (dev : BlockDevice) :
    ReadsCovered dev batch := by
  intro answers requests io' hr order hperm end_ hend pages hrep page hp
  subst hend
  obtain ⟨hrep', runs, hok, hdev, rfl⟩ := blockReadPages_runs hr
  have hlen : order.length = (runs.map (·.request dev .read)).length := by
    rw [← hperm.length_eq, length_map]
  rcases blockFinishReads_reported (by simp [hlen]) hrep with hmem | ⟨rfl, -, hall⟩
  · rw [hrep'] at hmem
    cases hmem
  obtain ⟨run, hrun, hrok, hpr⟩ := mem_run_of_partition hok h hp
  have hin := hperm.mem_iff.2 (mem_map_of_mem hrun)
  obtain ⟨⟨request, ret⟩, hentry, rfl⟩ := mem_map.1 hin
  obtain rfl : ret = none := hall _ hentry
  exact ⟨_, blockFinishReads_finished.2 _ hentry, rfl,
    ContinuousRun.request_covers (hdev run hrun) .read hrok hpr⟩

/-- **Batches reach the device exactly if they are consecutive.** The runs of a batch partition it,
and what is reported as written or read was transferred, if and only if the offsets of its pages
follow one another. -/
theorem batch_covered_iff (batch : PagesBatch) :
    (RunsPartition batch ∧ ∀ dev, WritesCovered dev batch ∧ ReadsCovered dev batch) ↔
      Consecutive batch.pages := by
  constructor
  · rintro ⟨⟨runs, hruns, hpages, -⟩, -⟩
    have := (continuousRuns_length hruns).2
    rw [hpages] at this
    exact this rfl
  intro h
  have hpart : RunsPartition batch := batchRuns_of_consecutive h
  exact ⟨hpart, fun dev => ⟨writesCovered_of_partition hpart dev,
    readsCovered_of_partition hpart dev⟩⟩

/-- Three pages in a row. -/
def rowBatch : PagesBatch :=
  ⟨[⟨5, 0, by decide⟩, ⟨9, 4096, by decide⟩, ⟨7, 8192, by decide⟩], by decide⟩

/-- The pages in a row reach every device. -/
theorem batch_covered_row :
    RunsPartition rowBatch ∧ ∀ dev, WritesCovered dev rowBatch ∧ ReadsCovered dev rowBatch :=
  (batch_covered_iff rowBatch).2 (by simp [Consecutive, rowBatch, Follows, pageSize])

/-- Two pages with a hole between them. -/
def holeBatch : PagesBatch :=
  ⟨[⟨5, 0, by decide⟩, ⟨9, 8192, by decide⟩], by decide⟩

/-- **A page that is never written.** Of two pages with a hole between them the second one is in no
run; the batch is reported as written after a single write request, for the first page. -/
theorem batch_page_lost :
    ¬ RunsPartition holeBatch ∧ ¬ WritesCovered ⟨512, 2048⟩ holeBatch := by
  refine ⟨?_, fun h => ?_⟩
  · rintro ⟨runs, hruns, hpages, -⟩
    have hlen := congrArg List.length hpages
    cases hruns
    exact absurd hlen (by decide)
  have hrun : blockWritePages ⟨512, 2048⟩ holeBatch {} = .ok (none,
      { finished := [⟨.write, 0, 8, [⟨5, 0, by decide⟩]⟩, ⟨.flush, 0, 8, []⟩]
        reported := [(holeBatch.pages, none)] }) := rfl
  obtain ⟨request, hmem, htype, hcov, -⟩ := h [] none _ hrun holeBatch.pages
    mem_cons_self ⟨9, 8192, by decide⟩ (by simp [holeBatch])
  simp only [mem_cons, not_mem_nil, or_false] at hmem
  rcases hmem with rfl | rfl
  · simp at hcov
  cases htype

end Stanix
