import Stanix.Fs.Cache.Basic

/-!
# The calls of the page cache

Writing dirty pages back (`kernel/fs/cache.c`). File offsets are not negative. Loops over the entries
of an xarray are `Sparse.foreachFrom`; the other loops have fuel.
-/

namespace Stanix

open CacheState

/-! ## Ranges -/

/-- The number of page indices. -/
def cacheRounds : Nat := 2 ^ 52 + 1

/-- Source: `cache_get_range` (`cache.c:175`). -/
def cacheGetRange (cacheSize offset size : Nat) : Nat × Nat :=
  let size := if offset ≤ cacheSize ∧ cacheSize - offset < size then cacheSize - offset else size
  (pageAlignDown offset, min (pageAlignUp (wrap (offset + size))) (pageAlignUp cacheSize))

/-- Source: `cache_foreach_range` (`cache.h:83`). The bounds are bytes, but the search for the first
page starts at the index `start`. -/
def cacheForeachRange {σ ρ : Type} (cache start stop : Nat) (state : σ → CacheState)
    (body : Nat → σ → Exec (σ × Option ρ)) (s : σ) : Exec (σ × Option ρ) :=
  Sparse.foreachFrom (fun s => ((state s).cache cache).pages)
    (fun i => decide (wrap (i * pageSize) < stop)) (fun _ page => body page) cacheRounds start s

namespace CacheState

variable (s : CacheState)

/-- The rounds of a loop that waits for a page. -/
def waitRounds (page : Nat) : Nat := (s.input.ends page).length + 2

/-- Source: `rwsem_acquire_read`, with no writer about. -/
def rwsemAcquireRead (cache : Nat) : CacheState :=
  s.modifyCache cache fun c => { c with readers := c.readers + 1 }

/-- Source: `rwsem_release_read`. -/
def rwsemReleaseRead (cache : Nat) : CacheState :=
  s.modifyCache cache fun c => { c with readers := c.readers - 1 }

/-! ## Writing back -/

/-- The loop that waits until nobody writes a page and marks it as being written. -/
def acquireWriting (wait : CacheState → Exec (Except Errno Unit × CacheState)) (page : Nat) :
    Nat → CacheState → Exec CacheState
  | 0, _ => .error .fuel
  | fuel + 1, s =>
    if (s.page page).writing then do
      let r ← wait s
      acquireWriting wait page fuel r.2
    else .ok (s.modifyPage page fun i => { i with writing := true })

/-- The end of the body of the loop of `cache_raw_flush_async`: the page goes into the batch, which
is written first if it is full. -/
def flushBatch (cache page : Nat) (batch : List Nat) :
    (CacheState × List Nat) × Option (Except Errno Unit) :=
  if batch.length < pagesPerBatch then ((s, batch ++ [page]), none)
  else
    match s.cacheWritePages cache batch with
    | (.error e, s) => ((s.pmmReleasePage page, batch), some (.error e))
    | (.ok _, s) => ((s, [page]), none)

/-- The body of the loop of `cache_raw_flush_async` under the lock of the page. -/
def flushLocked (cache page : Nat) (batch : List Nat) :
    Exec ((CacheState × List Nat) × Option (Except Errno Unit)) :=
  match (s.page page).cache with
  | none => do
    let s ← (s.modifyPage page fun i => { i with writing := false }).pmmReleasePageLock page
    return ((s.pmmReleasePage page, batch), none)
  | some _ => do
    let s ← s.pmmReleasePageLock page
    return s.flushBatch cache page batch

/-- The body of the loop of `cache_raw_flush_async` for a page that was dirty. -/
def flushDirty (cache page : Nat) (batch : List Nat) :
    Exec ((CacheState × List Nat) × Option (Except Errno Unit)) := do
  let r ← (s.pmmRetain page).cacheWaitPageNoIo page
  let s ← acquireWriting (fun s => s.cacheWaitPageNoIo page) page (r.2.waitRounds page) r.2
  let s ← s.pmmAcquirePageLock page
  s.flushLocked cache page batch

/-- The body of the loop of `cache_raw_flush_async`. -/
def flushBody (cache page : Nat) (st : CacheState × List Nat) :
    Exec ((CacheState × List Nat) × Option (Except Errno Unit)) :=
  match st.1.cacheClearPageDirty cache page with
  | (false, s) => .ok ((s, st.2), none)
  | (true, s) => s.flushDirty cache page st.2

/-- The end of `cache_raw_flush_async`: the last batch. -/
def flushRest (cache : Nat) (r : (CacheState × List Nat) × Option (Except Errno Unit)) :
    Except Errno Unit × CacheState :=
  match r.2 with
  | some ret => (ret, r.1.1)
  | none => if r.1.2 = [] then (.ok (), r.1.1) else r.1.1.cacheWritePages cache r.1.2

/-- Source: `cache_raw_flush_async` (`cache.c:688`). -/
def cacheRawFlushAsync (cache offset size : Nat) : Exec (Except Errno Unit × CacheState) :=
  if (s.cache cache).hasWrite then do
    let range := cacheGetRange (s.cache cache).size offset size
    let r ← cacheForeachRange cache range.1 range.2 Prod.fst (flushBody cache) (s, [])
    return flushRest cache r
  else .ok (.error .inval, s)

/-- The body of the loop of `cache_flush` that waits for the pages. On an error the lock is taken
once more. -/
def flushWaitBody (cache page : Nat) (s : CacheState) :
    Exec (CacheState × Option (Except Errno Unit)) := do
  let r ← s.cacheWaitPageWritten page
  match r.1 with
  | .error e => .ok (r.2.rwsemAcquireRead cache, some (.error e))
  | .ok _ => .ok (r.2, none)

/-- The end of `cache_flush`. -/
def flushWaited (cache : Nat) (r : CacheState × Option (Except Errno Unit)) :
    Except Errno Unit × CacheState :=
  match r.2 with
  | some ret => (ret, r.1)
  | none => (.ok (), r.1.rwsemReleaseRead cache)

/-- Source: `cache_flush` (`cache.c:750`). -/
def cacheFlush (cache offset size : Nat) : Exec (Except Errno Unit × CacheState) := do
  let r ← (s.rwsemAcquireRead cache).cacheRawFlushAsync cache offset size
  match r.1 with
  | .error e => .ok (.error e, r.2.rwsemAcquireRead cache)
  | .ok _ => do
    let range := cacheGetRange (r.2.cache cache).size offset size
    let r ← cacheForeachRange cache range.1 range.2 id (flushWaitBody cache) r.2
    return flushWaited cache r

end CacheState

end Stanix
