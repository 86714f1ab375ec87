import Stanix.Base.Exec
import Stanix.Klib.List
import Stanix.Mem.Page
import Mathlib.Data.Fintype.Basic

/-!
# The physical memory manager

A model of the second stage of `kernel/mem/pmm.c`, a buddy allocator of physical pages with a
reference count on every page. Pages are given by their number, the physical address over
`PAGE_SIZE`. The free blocks of each zone and order are on a list whose nodes live in the first page
of each block, so `mem` is the memory of the pages, as far as it holds list nodes. The order of a
block stands in the information of its first page, in a union with the page cache's own data: only
the last writer's data is there.

Every function is sequential here; the spin lock of a zone has no state of its own. What the merge
loop takes off a list is logged (`PmmUnlink`) beside its result, for statements about these points
of the execution; the log plays no part in it.
-/

namespace Stanix

/-- Source: `ZONE_DMA24`, `ZONE_DMA32`, `ZONE_NORMAL` (`pmm.h`). -/
inductive Zone
  | dma24
  | dma32
  | normal
  deriving DecidableEq, Repr

instance : Fintype Zone where
  elems := {.dma24, .dma32, .normal}
  complete z := by cases z <;> decide

/-- The information on a page. `order` is the number in the union that stands for `pmm.order`.
Source: `page_t` (`pmm.h:27`). -/
@[ext]
structure Page where
  refCount : BitVec 32
  flags : BitVec 32
  order : Nat
  deriving DecidableEq

/-- Source: `PAGE_FLAG_USABLE`. -/
def pageFlagUsable : BitVec 32 := 0x04

/-- Source: `PAGE_FLAG_RESERVED`. -/
def pageFlagReserved : BitVec 32 := 0x08

/-- Source: `ORDERS_COUNT`. -/
def ordersCount : Nat := 7

/-- Source: `ORDER2COUNT`. -/
def order2Count (order : Nat) : Nat := 2 ^ order

/-- Source: `ZONE_DMA24_END`. -/
def zoneDma24End : Nat := 2 ^ 16

/-- Source: `ZONE_DMA32_END`. -/
def zoneDma32End : Nat := 2 ^ 32

/-- Source: `ALLOC_FLAG_OOM`. -/
def allocFlagOom : BitVec 32 := 0x2

/-- Source: `ALLOC_FLAG_EMERGENCY`. -/
def allocFlagEmergency : BitVec 32 := 0x4

/-- The state of the memory manager: the free lists `pmms[zone].entries[order]`, the list nodes in
the pages, the information on the pages that have any, and the counters. -/
structure Pmm where
  entries : Zone → Nat → ListHead Nat
  mem : Nat → ListNode Nat
  info : Nat → Option Page
  totalPages : BitVec 64
  usedPages : BitVec 64
  privatePages : BitVec 64
  sharedPages : BitVec 64

namespace Pmm

/-- A write to the information on a page. -/
def setPage (s : Pmm) (page : Nat) (info : Page) : Pmm :=
  { s with info := Function.update s.info page (some info) }

/-- A write to a free list and to the list nodes. -/
def setEntry (s : Pmm) (zone : Zone) (order : Nat) (list : (Nat → ListNode Nat) × ListHead Nat) :
    Pmm :=
  { s with
    mem := list.1
    entries := Function.update s.entries zone (Function.update (s.entries zone) order list.2) }

/-- `list_append` on a free list. -/
def append (s : Pmm) (zone : Zone) (order page : Nat) : Pmm :=
  s.setEntry zone order (listAppend s.mem (s.entries zone order) page)

/-- `list_remove` on a free list. -/
def remove (s : Pmm) (zone : Zone) (order page : Nat) : Pmm :=
  s.setEntry zone order (listRemove s.mem (s.entries zone order) page)

end Pmm

/-- Source: `pmm_page_info` (`pmm.c:155`). -/
def pmmPageInfo (s : Pmm) (page : Nat) : Exec (Option Page) := do
  Exec.assert (page ≠ pageInvalid)
  return s.info page

/-- Source: `pmm_get_zone` (`pmm.c:165`). -/
def pmmGetZone (page : Nat) : Zone :=
  if page * pageSize < zoneDma24End then .dma24
  else if page * pageSize < zoneDma32End then .dma32
  else .normal

/-- Source: `pmm_is_free` (`pmm.c:175`). -/
def pmmIsFree (info : Page) : Bool := info.refCount = 0 ∧ info.flags &&& pageFlagReserved = 0

/-! ## Allocation -/

/-- Source: `pmm_raw_helper_allocate_pages` (`pmm.c:179`). -/
def pmmRawHelperAllocatePages (zone : Zone) : Nat → Pmm → Nat → Exec (Nat × Pmm)
  | 0, _, _ => .error .fuel
  | fuel + 1, s, order =>
    if order ≥ ordersCount then return (pageInvalid, s)
    else
      match (s.entries zone order).lastNode with
      | some node => return (node, s.remove zone order node)
      | none => do
        -- get pages from next order and split
        let (pages, s) ← pmmRawHelperAllocatePages zone fuel s (order + 1)
        if pages = pageInvalid then return (pageInvalid, s)
        -- put back unused pages
        let unused := pages + order2Count order
        let some unusedInfo ← pmmPageInfo s unused | .error .assertion
        let s := s.setPage unused { unusedInfo with order := order }
        return (pages, s.append zone order unused)

/-- The loop over the pages of an allocated block. Source: `pmm_helper_allocate_pages`
(`pmm.c:207`). -/
def pmmResetPages : Nat → Nat → Pmm → Exec Pmm
  | 0, _, s => return s
  | count + 1, page, s => do
    let some info ← pmmPageInfo s page | .error .assertion
    let s := s.setPage page
      { info with flags := info.flags &&& (pageFlagUsable ||| pageFlagReserved), refCount := 1 }
    pmmResetPages count (page + 1) s

/-- Source: `pmm_helper_allocate_pages` (`pmm.c:201`). -/
def pmmHelperAllocatePages (s : Pmm) (zone : Zone) (order : Nat) : Exec (Nat × Pmm) := do
  let (pages, s) ← pmmRawHelperAllocatePages zone (ordersCount + 1) s order
  if pages = pageInvalid then return (pages, s)
  let s := { s with
    usedPages := s.usedPages + BitVec.ofNat 64 (order2Count order)
    privatePages := s.privatePages + BitVec.ofNat 64 (order2Count order) }
  let s ← pmmResetPages (order2Count order) pages s
  return (pages, s)

/-- Source: `pmm_get_free_pages` (`pmm.h:229`). -/
def pmmGetFreePages (s : Pmm) : BitVec 64 := s.totalPages - s.usedPages

/-- Source: `pmm_get_emergency_pages` (`pmm.c`). -/
def pmmGetEmergencyPages : BitVec 64 := BitVec.ofNat 64 (3 * 1000000 / pageSize)

/-- A zone and those below it, in the order in which the zone number counts down. -/
def Zone.andBelow : Zone → List Zone
  | dma24 => [dma24]
  | dma32 => [dma32, dma24]
  | normal => [normal, dma32, dma24]

/-- The loop over the zones. Source: `pmm_zone_allocate_pages_flags` (`pmm.c:263`). -/
def pmmTryZones (order : Nat) : List Zone → Pmm → Exec (Nat × Pmm)
  | [], s => return (pageInvalid, s)
  | zone :: zones, s => do
    let (page, s) ← pmmHelperAllocatePages s zone order
    if page ≠ pageInvalid then return (page, s)
    pmmTryZones order zones s

/-- Allocation in the second stage; `flags` already has the flags of the task, and `none` is
`ZONE_DEFAULT`. Source: `pmm_zone_allocate_pages_flags` (`pmm.c:247`). -/
def pmmZoneAllocatePagesFlags (s : Pmm) (zone : Option Zone) (order : Nat) (flags : BitVec 32) :
    Exec (Nat × Pmm) := do
  let zone := zone.getD .normal
  let oom (s : Pmm) : Exec (Nat × Pmm) :=
    if flags &&& allocFlagOom ≠ 0 then .error .panic else return (pageInvalid, s)
  if flags &&& allocFlagEmergency = 0 ∧
      pmmGetFreePages s < pmmGetEmergencyPages + BitVec.ofNat 64 (order2Count order) then
    oom s
  else
    let (page, s) ← pmmTryZones order zone.andBelow s
    if page ≠ pageInvalid then return (page, s)
    oom s

/-! ## Freeing -/

/-- A point of the execution where the merge loop takes a page off a free list, with the state it
does so in. -/
structure PmmUnlink where
  pmm : Pmm
  zone : Zone
  order : Nat
  page : Nat

/-- The test of the merge loop on the buddy. Source: `pmm_zone_set_free_pages` (`pmm.c:292`). -/
def pmmCanMerge (info : Option Page) (order : Nat) : Bool :=
  match info with
  | none => false
  | some info => pmmIsFree info ∧ info.order = order

/-- The merge loop; it gives the block it ends with. Source: `pmm_zone_set_free_pages`
(`pmm.c:289`). -/
def pmmMerge (zone : Zone) : Nat → Pmm → Nat → Nat → Exec (List PmmUnlink × Nat × Nat × Pmm)
  | 0, _, _, _ => .error .fuel
  | fuel + 1, s, start, order =>
    if order + 1 < ordersCount then do
      let mergingPage := start ^^^ order2Count order
      let mergingPageInfo ← pmmPageInfo s mergingPage
      if pmmCanMerge mergingPageInfo order then
        let (unlinks, r) ← pmmMerge zone fuel (s.remove zone order mergingPage)
          (if mergingPage < start then mergingPage else start) (order + 1)
        return (⟨s, zone, order, mergingPage⟩ :: unlinks, r)
      else return ([], start, order, s)
    else return ([], start, order, s)

/-- Source: `pmm_zone_set_free_pages` (`pmm.c:282`). -/
def pmmZoneSetFreePages (s : Pmm) (zone : Zone) (start order : Nat) :
    Exec (List PmmUnlink × Pmm) := do
  let s := { s with
    usedPages := s.usedPages - BitVec.ofNat 64 (order2Count order)
    privatePages := s.privatePages - BitVec.ofNat 64 (order2Count order) }
  let (unlinks, start, order, s) ← pmmMerge zone ordersCount s start order
  let s := s.append zone order start
  let info ← pmmPageInfo s start >>= Exec.deref
  return (unlinks, s.setPage start { info with order := order })

/-- One round of the loop that marks the pages of a block as free. Source: `pmm_set_free_pages`
(`pmm.c:319`). -/
def pmmMarkPage (s : Pmm) (page : Nat) : Exec Pmm := do
  match ← pmmPageInfo s page with
  | some info => return s.setPage page { info with refCount := 0 }
  | none => return s

/-- The loop that marks the pages of a block as free. Source: `pmm_set_free_pages` (`pmm.c:319`). -/
def pmmMarkPages : Nat → Nat → Pmm → Exec Pmm
  | 0, _, s => return s
  | count + 1, page, s => do
    let s ← pmmMarkPage s page
    pmmMarkPages count (page + 1) s

/-- Source: `pmm_set_free_pages` (`pmm.c:314`). -/
def pmmSetFreePages (s : Pmm) (start order : Nat) : Exec (List PmmUnlink × Pmm) := do
  Exec.assert (start ≠ pageInvalid)
  Exec.assert (start % order2Count order = 0)
  let s ← pmmMarkPages (order2Count order) start s
  pmmZoneSetFreePages s (pmmGetZone start) start order

/-- The loop that looks for the largest block at the start of a range, from an order downwards.
Source: `pmm_set_free_pages_range` (`pmm.c:332`). -/
def pmmRangeOrder (start count : Nat) : Nat → Option Nat
  | 0 => if count < order2Count 0 ∨ start % order2Count 0 ≠ 0 then none else some 0
  | order + 1 =>
    if count < order2Count (order + 1) ∨ start % order2Count (order + 1) ≠ 0 then
      pmmRangeOrder start count order
    else some (order + 1)

/-- The loop over a range. Source: `pmm_set_free_pages_range` (`pmm.c:331`). -/
def pmmFreeRange : Nat → Pmm → Nat → Nat → Exec (List PmmUnlink × Pmm)
  | 0, _, _, _ => .error .fuel
  | fuel + 1, s, start, count =>
    if count > 0 then
      match pmmRangeOrder start count (ordersCount - 1) with
      | some order => do
        let (unlinks, s) ← pmmSetFreePages s start order
        let (unlinks', s) ←
          pmmFreeRange fuel s (start + order2Count order) (count - order2Count order)
        return (unlinks ++ unlinks', s)
      | none => pmmFreeRange fuel s start count
    else return ([], s)

/-- Source: `pmm_set_free_pages_range` (`pmm.c:327`). -/
def pmmSetFreePagesRange (s : Pmm) (start count : Nat) : Exec (List PmmUnlink × Pmm) := do
  if count = 0 then return ([], s)
  Exec.assert (start ≠ pageInvalid)
  pmmFreeRange (count + 1) s start count

/-! ## Reference counts -/

/-- Source: `pmm_release_page` (`pmm.c:343`), with `pmm_set_free_page` (`pmm.h`). -/
def pmmReleasePage (s : Pmm) (page : Nat) : Exec (List PmmUnlink × Pmm) := do
  Exec.assert (page ≠ pageInvalid)
  match ← pmmPageInfo s page with
  | some info =>
    let ref := info.refCount
    let s := s.setPage page { info with refCount := ref - 1 }
    if ref ≠ 1 then
      if ref = 2 then
        -- we go from shared to private
        return ([], { s with
          sharedPages := s.sharedPages - 1
          privatePages := s.privatePages + 1 })
      else return ([], s)
    else pmmSetFreePages s page 0
  | none => pmmSetFreePages s page 0

/-- Source: `pmm_retain` (`pmm.c:362`). Without other tasks the exchange succeeds. -/
def pmmRetain (s : Pmm) (page : Nat) : Exec (Bool × Pmm) := do
  Exec.assert (page ≠ pageInvalid)
  let some info ← pmmPageInfo s page | .error .assertion
  let old := info.refCount
  if old ≠ 0 then
    let s := s.setPage page { info with refCount := old + 1 }
    if old = 1 then
      -- we go from private to shared
      return (true, { s with
        privatePages := s.privatePages - 1
        sharedPages := s.sharedPages + 1 })
    else return (true, s)
  else return (false, s)

end Stanix
