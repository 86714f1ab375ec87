import Stanix.Mem.Pmm.Basic

/-!
# The kernel heap

A model of `kernel/mem/kheap.c`: a first-fit allocator over one region of virtual memory that grows
at its end. The region is cut into segments, each with a header `heap_segment_t` in front of it, and
the headers are linked in both directions.

Addresses and lengths are numbers below `2 ^ 64`; sums and differences that the code computes on
them wrap around. A pointer of value zero is NULL, and reading or writing through it is a fault. The
memory is a map from addresses to the headers found there; what the blocks themselves hold is left
out, with the bytes that `kfree` poisons them with. Mapping the pages that the region grows by is
assumed to succeed, and the lock has no state.
-/

namespace Stanix

/-- Source: `MEM_KHEAP_START` (`page.h:27`). -/
def memKheapStart : Nat := 0xfffffe8000000000

/-- Source: `MEM_KERNEL_START` (`page.h:28`). The heap is below the kernel image. -/
def memKernelStart : Nat := 0xffffffff80000000

/-- Source: `HEAP_SEG_MAGIC_FREE` (`kheap.h:12`). -/
def heapSegMagicFree : Nat := 0x1308

/-- Source: `HEAP_SEG_MAGIC_ALLOCATED` (`kheap.h:13`). -/
def heapSegMagicAllocated : Nat := 0x0505

/-- The header of a segment. Source: `heap_segment_t` (`kheap.h:15`). -/
structure HeapSegment where
  magic : Nat
  length : Nat
  next : Nat
  prev : Nat
  deriving DecidableEq

/-- Source: `sizeof(heap_segment_t)`. -/
def heapSegmentSize : Nat := 32

/-- The heap: `kheap_start`, `kheap_length`, `first_seg` and the memory. -/
structure Kheap where
  start : Nat
  length : Nat
  firstSeg : Nat
  mem : Nat → HeapSegment

/-- A header is read. -/
def kheapLoad (s : Kheap) (p : Nat) : Exec HeapSegment :=
  if p = 0 then .error .null else .ok (s.mem p)

/-- Fields of a header are written. -/
def kheapModify (s : Kheap) (p : Nat) (f : HeapSegment → HeapSegment) : Exec Kheap :=
  if p = 0 then .error .null else .ok { s with mem := Function.update s.mem p (f (s.mem p)) }

theorem kheapLoad_eq {s : Kheap} {p : Nat} (h : p ≠ 0) : kheapLoad s p = .ok (s.mem p) := if_neg h

theorem kheapModify_eq {s : Kheap} {p : Nat} {f : HeapSegment → HeapSegment} (h : p ≠ 0) :
    kheapModify s p f = .ok { s with mem := Function.update s.mem p (f (s.mem p)) } := if_neg h

/-- Source: `init_kheap` (`kheap.c:19`). -/
def initKheap (mem : Nat → HeapSegment) : Kheap :=
  let start := memKheapStart / pageSize * pageSize
  { start := start
    length := pageSize
    firstSeg := start
    mem := Function.update mem start
      { magic := heapSegMagicFree, length := pageSize - heapSegmentSize, next := 0, prev := 0 } }

/-- Source: `change_kheap_size` (`kheap.c:39`). -/
def changeKheapSize (s : Kheap) (offset : Nat) : Kheap :=
  if offset = 0 then s
  else { s with length := wrap (s.length + offset / pageSize * pageSize) }

/-! ## Allocating -/

/-- What `kmalloc_flags` does at the last segment when it has found no other. -/
def kmallocGrow (s : Kheap) (current amount : Nat) : Exec (Nat × Kheap) := do
  let seg ← kheapLoad s current
  if seg.magic = heapSegMagicFree then
    let offset := pageAlignUp (wrap (wrapSub amount seg.length + heapSegmentSize + 16))
    let s := changeKheapSize s offset
    let s ← kheapModify s current fun g => { g with length := wrap (g.length + offset) }
    return (current, s)
  else
    let offset := pageAlignUp (wrap (amount + heapSegmentSize * 2 + 16))
    let s := changeKheapSize s offset
    let newSeg := wrap (current + seg.length + heapSegmentSize)
    let s ← kheapModify s newSeg fun _ =>
      { length := wrapSub offset heapSegmentSize, magic := heapSegMagicFree, next := 0,
        prev := current }
    let s ← kheapModify s current fun g => { g with next := newSeg }
    return (newSeg, s)

/-- The loop of `kmalloc_flags`. -/
def kmallocFind (amount : Nat) : Nat → Kheap → Nat → Exec (Nat × Kheap)
  | 0, _, _ => .error .fuel
  | fuel + 1, s, current => do
    let seg ← kheapLoad s current
    if seg.length < amount ∨ seg.magic ≠ heapSegMagicFree then
      if seg.next = 0 then kmallocGrow s current amount
      else kmallocFind amount fuel s seg.next
    else return (current, s)

/-- A segment that is large enough is cut in two. -/
def kmallocCut (s : Kheap) (current amount : Nat) : Exec Kheap := do
  let seg ← kheapLoad s current
  if seg.length ≥ wrap (amount + heapSegmentSize + 16) then
    let newSeg := wrap (current + amount + heapSegmentSize)
    let s ← kheapModify s newSeg fun g =>
      { g with length := wrapSub seg.length (heapSegmentSize + amount) }
    let s ← kheapModify s current fun g => { g with length := amount }
    let s ← kheapModify s newSeg fun g => { g with magic := heapSegMagicFree }
    let seg ← kheapLoad s current
    let s ← if seg.next ≠ 0 then kheapModify s seg.next fun g => { g with prev := newSeg } else .ok s
    let seg ← kheapLoad s current
    let s ← kheapModify s newSeg fun g => { g with next := seg.next, prev := current }
    kheapModify s current fun g => { g with next := newSeg }
  else return s

/-- The amount of a request, rounded up to a multiple of 16. -/
def kmallocRound (amount : Nat) : Nat :=
  if amount % 16 ≠ 0 then wrap (amount + (16 - amount % 16)) else amount

/-- The loop over the segments has the length of the heap as fuel, which has at most that many of
them. Source: `kmalloc_flags` (`kheap.c:67`). -/
def kmallocFlags (s : Kheap) (amount : Nat) : Exec (Nat × Kheap) := do
  let amount := kmallocRound amount
  let (current, s) ← kmallocFind amount s.length s s.firstSeg
  let s ← kmallocCut s current amount
  let s ← kheapModify s current fun g => { g with magic := heapSegMagicAllocated }
  return (wrap (current + heapSegmentSize), s)

/-! ## Freeing -/

/-- The segment is merged with the next one if that is free. -/
def kfreeMergeNext (s : Kheap) (current : Nat) : Exec Kheap := do
  let seg ← kheapLoad s current
  if seg.next = 0 then return s
  else
    let next ← kheapLoad s seg.next
    if next.magic = heapSegMagicFree then
      let s ← kheapModify s current fun g =>
        { g with length := wrap (g.length + (next.length + heapSegmentSize)) }
      let next ← kheapLoad s seg.next
      let s ← if next.next ≠ 0 then kheapModify s next.next fun g => { g with prev := current }
        else .ok s
      let next ← kheapLoad s seg.next
      kheapModify s current fun g => { g with next := next.next }
    else return s

/-- The segment is merged with the previous one if that is free. -/
def kfreeMergePrev (s : Kheap) (current : Nat) : Exec Kheap := do
  let seg ← kheapLoad s current
  if seg.prev = 0 then return s
  else
    let prev ← kheapLoad s seg.prev
    if prev.magic = heapSegMagicFree then
      let s ← kheapModify s seg.prev fun g =>
        { g with length := wrap (g.length + (seg.length + heapSegmentSize)) }
      let seg ← kheapLoad s current
      let s ← if seg.next ≠ 0 then kheapModify s seg.next fun g => { g with prev := seg.prev }
        else .ok s
      let seg ← kheapLoad s current
      kheapModify s seg.prev fun g => { g with next := seg.next }
    else return s

/-- Source: `kfree` (`kheap.c:124`). -/
def kfree (s : Kheap) (ptr : Nat) : Exec Kheap :=
  if ptr = 0 then .ok s
  else do
    let current := wrapSub ptr heapSegmentSize
    let seg ← kheapLoad s current
    if seg.magic ≠ heapSegMagicAllocated then
      if seg.magic = heapSegMagicFree then return s
      else .error .panic
    else
      let s ← kheapModify s current fun g => { g with magic := heapSegMagicFree }
      let s ← kfreeMergeNext s current
      kfreeMergePrev s current

end Stanix
