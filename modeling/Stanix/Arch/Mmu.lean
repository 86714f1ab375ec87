import Stanix.Base.Exec
import Stanix.Arch.Paging.Entry

/-!
# The interface to page tables

`kernel/include/arch/mmu.h`, and what the code above it uses of the physical memory manager: the code
that manages address spaces knows page tables only by the interface `Mmu`, over any state `σ`, any
handles `Sp` of address spaces and any handles `E` of entries. The loop macro
`mmu_foreach_entry_range` and the functions on ranges of pages are written against it.

A search for the next entry gives the entry and its address; every loop over entries has a bound on
its rounds, one more than there are pages in an address space.
-/

namespace Stanix

/-- The operations on page tables and on physical pages. -/
structure Mmu (σ Sp E : Type) where
  /-- Source: `mmu_entry_fetch`. -/
  fetch : σ → E → BitVec 64
  /-- `atomic_store` to an entry. -/
  store : σ → E → BitVec 64 → σ
  /-- Source: `mmu_get_entry_and_acquire_lock`. -/
  getEntryAndAcquireLock : σ → Sp → Nat → Exec (Option E × σ)
  /-- Source: `mmu_create_entry_and_acquire_lock`. -/
  createEntryAndAcquireLock : σ → Sp → Nat → Exec (Option E × σ)
  /-- Source: `mmu_create_next_entry_and_acquire_lock`. -/
  createNextEntryAndAcquireLock : σ → Sp → Nat → Option E → Nat → Exec (Option E × σ)
  /-- Source: `mmu_get_next_entry`. -/
  getNextEntry : σ → Sp → Nat → Option (E × Nat)
  /-- Source: `mmu_entry_release_lock`. -/
  entryReleaseLock : σ → E → Exec σ
  /-- Source: `mmu_space_virt2phys`. -/
  virt2phys : σ → Sp → Nat → Option Nat
  /-- Source: `pmm_allocate_page`. -/
  allocatePage : σ → Option Nat × σ
  /-- Source: `pmm_retain`. -/
  retain : σ → Nat → Exec (Bool × σ)
  /-- Source: `pmm_release_page`. -/
  releasePage : σ → Nat → Exec σ
  /-- `memset` of a page to zero. -/
  zeroPage : σ → Nat → σ
  /-- `memcpy` of a page, to the first page from the second. -/
  copyPage : σ → Nat → Nat → σ
  /-- `pmm_page_info(page)->ref_count`. -/
  refCount : σ → Nat → BitVec 32
  /-- The page of zeros that `pmm_get_zero_page` hands out. -/
  zeroFrame : σ → Nat

variable {σ Sp E α : Type} (M : Mmu σ Sp E)

/-- More rounds than a loop over the pages of an address space makes. -/
def mmuRounds : Nat := 2 ^ 36 + 1

/-- Source: `mmu_foreach_entry_range` (`mmu.h:102`), from an address on, with what the body of the
loop keeps beside the state. -/
def mmuForeachEntryRange (sp : Sp) (stop : Nat) (body : Nat → E → σ × α → Exec (σ × α)) :
    Nat → Nat → σ × α → Exec (σ × α)
  | 0, _, _ => .error .fuel
  | rounds + 1, start, s =>
    match M.getNextEntry s.1 sp start with
    | none => .ok s
    | some (entry, vaddr) =>
      if vaddr < stop then do
        let s ← body vaddr entry s
        mmuForeachEntryRange sp stop body rounds (wrap (vaddr + pageSize)) s
      else .ok s

/-- The addresses that the loop visits when its body changes nothing. -/
def mmuVisited (s : σ) (sp : Sp) (start stop : Nat) : Exec (List Nat) := do
  let (_, visited) ← mmuForeachEntryRange M sp stop
    (fun vaddr _ (s, visited) => .ok (s, visited ++ [vaddr])) mmuRounds start (s, [])
  return visited

/-- Source: `mmu_unmap_pages` (`paging.c:241`). -/
def mmuUnmapPages (s : σ) (sp : Sp) (vaddr size : Nat) : Exec σ := do
  Exec.assert (vaddr % pageSize = 0)
  Exec.assert (size % pageSize = 0)
  let (s, _) ← mmuForeachEntryRange M sp (wrap (vaddr + size))
    (fun _ entry (s, ()) => .ok (M.store s entry 0, ())) mmuRounds vaddr (s, ())
  return s

/-- Source: `mmu_unmap_and_release_pages` (`paging.c:249`). -/
def mmuUnmapAndReleasePages (s : σ) (sp : Sp) (vaddr size : Nat) : Exec σ := do
  Exec.assert (vaddr % pageSize = 0)
  Exec.assert (size % pageSize = 0)
  let (s, _) ← mmuForeachEntryRange M sp (wrap (vaddr + size))
    (fun _ entry (s, ()) => do
      let value := M.fetch s entry
      let s := M.store s entry 0
      match mmuEntryValGetPage value with
      | some page => return (← M.releasePage s page, ())
      | none => return (s, ()))
    mmuRounds vaddr (s, ())
  return s

/-- The loop of `mmu_map_pages`, with the number of pages that are left. -/
def mmuMapPagesLoop (sp : Sp) (flags : BitVec 64) (start : Nat) :
    Nat → Nat → Nat → Option E → σ → Exec (Option Errno × σ)
  | 0, _, _, none, s => .ok (none, s)
  | 0, _, _, some entry, s => do
    let s ← M.entryReleaseLock s entry
    return (none, s)
  | left + 1, vaddr, paddr, entry, s => do
    let (entry, s) ← M.createNextEntryAndAcquireLock s sp vaddr entry (wrapSub vaddr pageSize)
    match entry with
    | none =>
      let s ← mmuUnmapPages M s sp start (wrapSub vaddr start)
      return (some .nomem, s)
    | some entry =>
      let s := M.store s entry (mapValue paddr flags)
      mmuMapPagesLoop sp flags start left (wrap (vaddr + pageSize)) (wrap (paddr + pageSize))
        (some entry) s

/-- Source: `mmu_map_pages` (`paging.c:167`). -/
def mmuMapPages (s : σ) (sp : Sp) (vaddr paddr size : Nat) (flags : BitVec 64) :
    Exec (Option Errno × σ) := do
  Exec.assert (vaddr % pageSize = 0)
  Exec.assert (size % pageSize = 0)
  mmuMapPagesLoop M sp flags vaddr (size / pageSize) vaddr paddr none s

/-- The loop of `mmu_allocate_and_map_pages` and of `mmu_allocate_zero_and_map_pages`, which also
clears each page. -/
def mmuAllocateLoop (zero : Bool) (sp : Sp) (flags : BitVec 64) (start : Nat) :
    Nat → Nat → σ → Exec (Option Errno × σ)
  | 0, _, s => .ok (none, s)
  | left + 1, vaddr, s => do
    match M.allocatePage s with
    | (none, s) =>
      let s ← mmuUnmapAndReleasePages M s sp start (wrapSub vaddr start)
      return (some .nomem, s)
    | (some page, s) =>
      let s := if zero then M.zeroPage s page else s
      let (ret, s) ← mmuMapPages M s sp vaddr page pageSize flags
      match ret with
      | some err =>
        let s ← M.releasePage s page
        let s ← mmuUnmapAndReleasePages M s sp start (wrapSub vaddr start)
        return (some err, s)
      | none => mmuAllocateLoop zero sp flags start left (wrap (vaddr + pageSize)) s

/-- Source: `pmm_get_zero_page` (`pmm.c:410`). -/
def pmmGetZeroPage (s : σ) : Exec (Nat × σ) := do
  let (_, s) ← M.retain s (M.zeroFrame s)
  return (M.zeroFrame s, s)

/-- Source: `mmu_allocate_zero_and_map_pages` (`paging.c:213`). -/
def mmuAllocateZeroAndMapPages (s : σ) (sp : Sp) (vaddr size : Nat) (flags : BitVec 64) :
    Exec (Option Errno × σ) := do
  Exec.assert (vaddr % pageSize = 0)
  Exec.assert (size % pageSize = 0)
  mmuAllocateLoop M true sp flags vaddr (size / pageSize) vaddr s

end Stanix
