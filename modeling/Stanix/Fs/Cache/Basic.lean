import Stanix.Base.Sparse
import Stanix.Mem.Page

/-!
# The page cache

`kernel/fs/cache.c`: the pages of files and devices in memory. A cache holds its pages in an xarray
by page index; a page knows its cache and its index and has a reference count, flags and an error.
This module has the state and the functions on one page; the calls are in `Stanix.Fs.Cache.Calls`.

The xarray is taken as the map it stands for, and the flags of a page one by one. Calls run one after
the other. What comes from outside is input: what the operations of a cache answer, how I/O in
progress ends when a task waits for it, and what a read brings. The generations of pages, which
eviction uses, are left out.
-/

namespace Stanix

open Function

/-! ## The state -/

/-- The two directions of I/O. -/
inductive Io
  | read
  | write
  deriving DecidableEq

/-- Source: `page_t` (`pmm.h:26`) as the cache uses it. `free` says that the allocator has the page,
`cache` is `private`, `offset` the 42 bits of `cached.offset`, `error` the error bits of the flags. -/
structure CachedPage where
  refCount : BitVec 32 := 0
  free : Bool := true
  dirty : Bool := false
  reading : Bool := false
  writing : Bool := false
  evicting : Bool := false
  locked : Bool := false
  error : Option Errno := none
  cache : Option Nat := none
  offset : Nat := 0

/-- Source: `cache_t` (`cache.h:20`). `readers` is the reader count of its lock, `hasWrite`
tells whether it can be written back. -/
structure PageCache where
  size : Nat := 0
  pages : Sparse Nat := ∅
  dirtyCount : BitVec 64 := 0
  readers : Nat := 0
  hasWrite : Bool := true

/-- What an operation of a cache does with a batch: it fails, or it ends the I/O itself, or it leaves
the I/O in progress. -/
inductive IoAnswer
  | fails (e : Errno)
  | completes (ret : Except Errno Unit)
  | pending
  deriving DecidableEq

/-- How waiting for the I/O in progress on a page ends. -/
inductive IoEnd
  | done (ret : Except Errno Unit)
  | interrupted
  deriving DecidableEq

/-- What comes from outside, call by call; the last two for each page and for each cache and index. -/
structure CacheInput where
  writes : List IoAnswer := []
  ends : Nat → List IoEnd := fun _ => []
  device : Nat → Nat → Nat → BitVec 8 := fun _ _ _ => 0

/-- The caches and their pages. `inFlight` has the cache of the I/O in progress on a page, `passed`
the pages handed to write operations so far, and `strayUnlinks` the caches that were unlinked from
`dirty_caches` while they were not on it. -/
structure CacheState where
  page : Nat → CachedPage
  bytes : Nat → Nat → BitVec 8
  cache : Nat → PageCache
  dirtyCaches : List Nat := []
  strayUnlinks : List Nat := []
  inFlight : Io → Nat → Option Nat := fun _ _ => none
  passed : List Nat := []
  input : CacheInput := {}

namespace CacheState

variable (s : CacheState)

/-- A change of the information on a page. -/
def modifyPage (page : Nat) (f : CachedPage → CachedPage) : CacheState :=
  { s with page := update s.page page (f (s.page page)) }

/-- A change of a cache. -/
def modifyCache (cache : Nat) (f : PageCache → PageCache) : CacheState :=
  { s with cache := update s.cache cache (f (s.cache cache)) }

/-! ## References -/

/-- Source: `pmm_retain` (`pmm.c:362`), whose result the cache does not look at. -/
def pmmRetain (page : Nat) : CacheState :=
  if (s.page page).refCount = 0 then s
  else s.modifyPage page fun i => { i with refCount := i.refCount + 1 }

/-- Source: `pmm_release_page` (`pmm.c:343`). -/
def pmmReleasePage (page : Nat) : CacheState :=
  s.modifyPage page fun i =>
    { i with refCount := i.refCount - 1, free := i.free || decide (i.refCount = 1) }

/-- Source: `pmm_acquire_page_lock` (`pmm.h:299`). No other task gives a lock back meanwhile. -/
def pmmAcquirePageLock (page : Nat) : Exec CacheState :=
  if (s.page page).locked then .error .fuel
  else .ok (s.modifyPage page fun i => { i with locked := true })

/-- Source: `pmm_release_page_lock` (`pmm.h:313`). -/
def pmmReleasePageLock (page : Nat) : Exec CacheState :=
  if (s.page page).locked then .ok (s.modifyPage page fun i => { i with locked := false })
  else .error .assertion

/-! ## Dirty pages -/

/-- `list_remove(&dirty_caches, &cache->dirty_node)`. -/
def unlinkDirty (cache : Nat) : CacheState :=
  if cache ∈ s.dirtyCaches then { s with dirtyCaches := s.dirtyCaches.erase cache }
  else { s with strayUnlinks := s.strayUnlinks ++ [cache] }

/-- The list operation of the slow path of `cache_mark_page_dirty`. -/
def linkDirty (cache : Nat) : CacheState :=
  if (s.cache cache).dirtyCount = 0 then { s with dirtyCaches := s.dirtyCaches ++ [cache] } else s

/-- Source: `cache_mark_page_dirty` (`cache.c:128`). -/
def cacheMarkPageDirty (cache page : Nat) : CacheState :=
  if (s.page page).dirty then s
  else
    ((s.modifyPage page fun i => { i with dirty := true }).linkDirty cache).modifyCache cache
      fun c => { c with dirtyCount := c.dirtyCount + 1 }

/-- The list operation of the slow path of `cache_clear_page_dirty`. -/
def unlinkLastDirty (cache : Nat) : CacheState :=
  if (s.cache cache).dirtyCount = 1 then s.unlinkDirty cache else s

/-- Source: `cache_clear_page_dirty` (`cache.c:153`). -/
def cacheClearPageDirty (cache page : Nat) : Bool × CacheState :=
  if (s.page page).dirty then
    (true, ((s.modifyPage page fun i => { i with dirty := false }).unlinkLastDirty cache).modifyCache
      cache fun c => { c with dirtyCount := c.dirtyCount - 1 })
  else (false, s)

/-! ## The end of I/O -/

/-- Source: `cached_page_set_error` (`cache.c:235`). -/
def cachedPageSetError (page : Nat) (ret : Except Errno Unit) : CacheState :=
  s.modifyPage page fun i =>
    { i with error := match ret with | .ok _ => none | .error e => some e }

/-- Source: `cached_page_remove` (`cache.c:240`). -/
def cachedPageRemove (page : Nat) : Exec (Bool × CacheState) := do
  Exec.assert ((s.page page).locked = true)
  match (s.page page).cache with
  | none => .ok (false, s)
  | some cache =>
    let offset := (s.page page).offset
    let s := s.modifyPage page fun i => { i with cache := none }
    let s := s.modifyCache cache fun c => { c with pages := c.pages.erase offset }
    let s := (s.cacheClearPageDirty cache page).2
    .ok (true, s.pmmReleasePage page)

/-- A failed read takes the page out of its cache. -/
def removeUnread (page : Nat) : Except Errno Unit → Exec CacheState
  | .ok _ => .ok s
  | .error _ => do
    let r ← s.cachedPageRemove page
    return r.2

/-- The body of the loop of `cache_read_terminate` (`cache.c:259`). -/
def readEnded (page : Nat) (ret : Except Errno Unit) : Exec CacheState := do
  let s ← (s.cachedPageSetError page ret).removeUnread page ret
  return (s.modifyPage page fun i => { i with reading := false }).pmmReleasePage page

/-- A failed write leaves the page dirty. -/
def remarkDirty (cache page : Nat) : Except Errno Unit → CacheState
  | .ok _ => s
  | .error _ => s.cacheMarkPageDirty cache page

/-- The body of the loop of `cache_write_terminate` (`cache.c:276`). -/
def writeEnded (cache page : Nat) (ret : Except Errno Unit) : CacheState :=
  (((s.cachedPageSetError page ret).remarkDirty cache page ret).modifyPage page
    fun i => { i with writing := false }).pmmReleasePage page

/-- What a read brings into a page. -/
def fill (cache page : Nat) : Except Errno Unit → CacheState
  | .ok _ =>
    { s with bytes := update s.bytes page (s.input.device cache (s.page page).offset) }
  | .error _ => s

end CacheState

open CacheState

/-- Source: `cache_read_terminate` (`cache.c:259`), after the data has come. -/
def cacheReadTerminate (cache : Nat) (batch : List Nat) (ret : Except Errno Unit)
    (s : CacheState) : Exec CacheState :=
  batch.foldlM (fun s page => (s.fill cache page ret).readEnded page ret) s

/-- Source: `cache_write_terminate` (`cache.c:276`). -/
def cacheWriteTerminate (cache : Nat) (batch : List Nat) (ret : Except Errno Unit)
    (s : CacheState) : CacheState :=
  batch.foldl (fun s page => s.writeEnded cache page ret) s

namespace CacheState

variable (s : CacheState)

/-- No I/O is in progress on a page any more. -/
def endIo (io : Io) (page : Nat) : CacheState :=
  { s with
    inFlight := update s.inFlight io (update (s.inFlight io) page none) }

/-- The read in progress on a page ends. -/
def finishRead (page : Nat) (ret : Except Errno Unit) : Exec CacheState :=
  match s.inFlight .read page with
  | none => .ok s
  | some cache => cacheReadTerminate cache [page] ret (s.endIo .read page)

/-- The write in progress on a page ends. -/
def finishWrite (page : Nat) (ret : Except Errno Unit) : CacheState :=
  match s.inFlight .write page with
  | none => s
  | some cache => cacheWriteTerminate cache [page] ret (s.endIo .write page)

/-- How the next wait for a page ends; without a signal or an error if nothing is said. -/
def nextEnd (page : Nat) : IoEnd := (s.input.ends page).headD (.done (.ok ()))

/-- The wait for a page has ended. -/
def popEnd (page : Nat) : CacheState :=
  { s with input := { s.input with
      ends := update s.input.ends page (s.input.ends page).tail } }

/-- The wait for the flags that `waits` tells about goes on as long as one of them is set. -/
def awake (waits : CachedPage → Bool) (page : Nat) : Exec (Except Errno Unit × CacheState) :=
  if waits (s.page page) then .error .fuel else .ok (.ok (), s)

/-- Waits until none of the flags that `waits` tells about is set. Source: `pmm_wait_get`
(`pmm.c:396`). -/
def pmmWaitGet (waits : CachedPage → Bool) (page : Nat) : Exec (Except Errno Unit × CacheState) :=
  if waits (s.page page) then
    match s.nextEnd page with
    | .interrupted => .ok (.error .intr, s.popEnd page)
    | .done ret => do
      let s ← (s.popEnd page).finishRead page ret
      (s.finishWrite page ret).awake waits page
  else .ok (.ok (), s)

/-- The error of the page that was waited for. -/
def pageError (page : Nat) : Except Errno Unit :=
  match (s.page page).error with
  | none => .ok ()
  | some e => .error e

/-- The end of the functions that wait for a page. -/
def waited (page : Nat) (r : Except Errno Unit × CacheState) : Except Errno Unit × CacheState :=
  match r.1 with
  | .error e => (.error e, r.2)
  | .ok _ => (r.2.pageError page, r.2)

/-- Source: `cache_wait_page_written` (`cache.c:195`). -/
def cacheWaitPageWritten (page : Nat) : Exec (Except Errno Unit × CacheState) :=
  waited page <$> s.pmmWaitGet (·.writing) page

/-- Source: `cached_page_is_doing_io` (`cache.c:203`). -/
def cachedPageIsDoingIo (i : CachedPage) : Bool := i.writing || i.reading || i.evicting

/-- Source: `cache_wait_page_no_io` (`cache.c:207`). -/
def cacheWaitPageNoIo (page : Nat) : Exec (Except Errno Unit × CacheState) :=
  waited page <$> s.pmmWaitGet cachedPageIsDoingIo page

/-! ## The operations of a cache -/

/-- I/O on the pages of a batch is in progress. -/
def startIo (io : Io) (cache : Nat) (batch : List Nat) : CacheState :=
  { s with inFlight := update s.inFlight io fun page =>
      if page ∈ batch then some cache else s.inFlight io page }

/-- The rest of `cache_write_pages`, after `ops->write` was called. -/
def writeAnswered (cache : Nat) (batch : List Nat) : IoAnswer → Except Errno Unit × CacheState
  | .fails e => (.error e, cacheWriteTerminate cache batch (.error e) s)
  | .completes ret => (.ok (), cacheWriteTerminate cache batch ret s)
  | .pending => (.ok (), s.startIo .write cache batch)

/-- Source: `cache_write_pages` (`cache.c:391`). -/
def cacheWritePages (cache : Nat) (batch : List Nat) : Except Errno Unit × CacheState :=
  if (s.cache cache).hasWrite then
    { s with
      passed := s.passed ++ batch
      input := { s.input with writes := s.input.writes.tail } }.writeAnswered cache batch
      (s.input.writes.headD (.completes (.ok ())))
  else (.error .opnotsupp, s)

end CacheState

end Stanix
