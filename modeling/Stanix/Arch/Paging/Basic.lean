import Stanix.Arch.Mmu

/-!
# Four-level page tables

A model of `kernel/arch/x86_64/paging.c`. A table is a page of 512 entries of eight bytes, known by
its physical address; a pointer to an entry is the physical address of the entry, since all of them
are reached through the direct mapping of physical memory. So `old_entry + k` is an address `8 * k`
higher, wherever that is. The levels are numbered from 3, the level of the root, down to 0, the level
whose entries map pages; a page walk is a recursion on the level.

Physical memory is the words in it and, of the information on each page, its reference count and the
bit that is its lock. The pages that `pmm_allocate_page` will hand out are a list in the state: any
page may come next, or none, but only a page whose reference count is zero is handed out. A task that
waits for a lock that is taken never goes on.
-/

namespace Stanix

open Function

/-- Physical memory: its words by address, the reference counts and locks of its pages, and what the
page allocator will answer. -/
structure PhysMem where
  word : Nat → BitVec 64
  refCount : Nat → BitVec 32
  locked : Nat → Bool
  pages : List (Option Nat)
  /-- The page of zeros that is set aside at boot. -/
  zeroFrame : Nat := 0

/-! ## Pages -/

/-- `memset(page, 0, PAGE_SIZE)`. -/
def PhysMem.zeroPage (s : PhysMem) (page : Nat) : PhysMem :=
  { s with word := fun a => if pageAlignDown a = page then 0 else s.word a }

/-- `memcpy(target, page, PAGE_SIZE)`. -/
def PhysMem.copyPage (s : PhysMem) (target page : Nat) : PhysMem :=
  { s with word := fun a => if pageAlignDown a = target then s.word (page + a % pageSize) else s.word a }

/-- Write of a word. -/
def PhysMem.setWord (s : PhysMem) (a : Nat) (value : BitVec 64) : PhysMem :=
  { s with word := update s.word a value }

/-- A page that is free, and can be a page: below the addresses that an entry can hold. -/
def PhysMem.Free (s : PhysMem) (page : Nat) : Prop :=
  page % pageSize = 0 ∧ page < 2 ^ 52 ∧ s.refCount page = 0
  deriving Decidable

/-- Source: `pmm_allocate_page` (`pmm.h:135`), `none` being `PAGE_INVALID`. -/
def pmmAllocatePage (s : PhysMem) : Option Nat × PhysMem :=
  match s.pages with
  | [] => (none, s)
  | none :: pages => (none, { s with pages := pages })
  | some page :: pages =>
    if s.Free page then
      (some page, { s with refCount := update s.refCount page 1, pages := pages })
    else (none, { s with pages := pages })

/-- Source: `pmm_retain` (`pmm.c:362`). -/
def pmmRetainPage (s : PhysMem) (page : Nat) : Exec (Bool × PhysMem) := do
  Exec.assert (page % pageSize = 0)
  let old := s.refCount page
  if old = 0 then return (false, s)
  else return (true, { s with refCount := update s.refCount page (old + 1) })

/-- Source: `pmm_release_page` (`pmm.c:343`). A page whose last reference goes has the count zero,
which makes it free. -/
def pmmPutPage (s : PhysMem) (page : Nat) : Exec PhysMem := do
  Exec.assert (page % pageSize = 0)
  return { s with refCount := update s.refCount page (s.refCount page - 1) }

/-- Source: `pmm_acquire_page_lock` (`pmm.h:299`). -/
def pmmAcquirePageLock (s : PhysMem) (page : Nat) : Exec PhysMem :=
  if s.locked page then .error .fuel
  else .ok { s with locked := update s.locked page true }

/-- Source: `pmm_release_page_lock` (`pmm.h:313`). -/
def pmmReleasePageLock (s : PhysMem) (page : Nat) : Exec PhysMem := do
  Exec.assert (s.locked page = true)
  return { s with locked := update s.locked page false }

/-! ## Walks -/

/-- Source: `PAGING_LEVEL_SHIFT` (`paging.h:15`). -/
def pagingLevelShift (level : Nat) : Nat := 12 + 9 * level

/-- Source: `PAGING_LEVEL_INDEX` (`paging.h:16`). -/
def pagingLevelIndex (level addr : Nat) : Nat := (addr >>> pagingLevelShift level) &&& 0x1ff

/-- Source: `PAGING_LEVEL_MAX`. -/
def pagingLevelMax : Nat := 3

/-- Source: `PAGING_ENTRIES_PER_LEVEL`. -/
def pagingEntriesPerLevel : Nat := 512

/-- `&table[index]`. -/
def tableEntry (table index : Nat) : Nat := table + 8 * index

/-- The walk of `mmu_get_entry` from a table of a level on. -/
def mmuGetEntryFrom (s : PhysMem) (vaddr : Nat) : Nat → Nat → Option Nat
  | 0, table => some (tableEntry table (pagingLevelIndex 0 vaddr))
  | level + 1, table =>
    let current := s.word (tableEntry table (pagingLevelIndex (level + 1) vaddr))
    if Present current then mmuGetEntryFrom s vaddr level (entryAddress current) else none

/-- Source: `mmu_get_entry` (`paging.c:261`). -/
def mmuGetEntry (s : PhysMem) (pml4 vaddr : Nat) : Option Nat :=
  mmuGetEntryFrom s vaddr pagingLevelMax pml4

/-- Source: `mmu_space_virt2phys` (`paging.c:423`). -/
def mmuSpaceVirt2phys (s : PhysMem) (pml4 address : Nat) : Option Nat :=
  match mmuGetEntry s pml4 address with
  | none => none
  | some entry =>
    let value := s.word entry
    if Present value then some (entryAddress value + address % pageSize) else none

/-- The walk of `mmu_get_entry_and_acquire_lock` from a locked table of a level on. -/
def mmuGetEntryLockedFrom (vaddr : Nat) : Nat → Nat → PhysMem → Exec (Option Nat × PhysMem)
  | 0, table, s => .ok (some (tableEntry table (pagingLevelIndex 0 vaddr)), s)
  | level + 1, table, s => do
    let current := s.word (tableEntry table (pagingLevelIndex (level + 1) vaddr))
    if Present current then
      let nextTable := entryAddress current
      let s ← pmmAcquirePageLock s nextTable
      let s ← pmmReleasePageLock s table
      mmuGetEntryLockedFrom vaddr level nextTable s
    else
      let s ← pmmReleasePageLock s table
      return (none, s)

/-- Source: `mmu_get_entry_and_acquire_lock` (`paging.c:280`). -/
def mmuGetEntryAndAcquireLock (s : PhysMem) (pml4 vaddr : Nat) : Exec (Option Nat × PhysMem) := do
  let s ← pmmAcquirePageLock s pml4
  mmuGetEntryLockedFrom vaddr pagingLevelMax pml4 s

/-- The entry of a table for the next level, made to point to a new table if it points to none. -/
def mmuNextTable (s : PhysMem) (entry : Nat) : Option Nat × PhysMem :=
  let current := s.word entry
  if Present current then (some (entryAddress current), s)
  else
    match pmmAllocatePage s with
    | (none, s) => (none, s)
    | (some page, s) =>
      let current := tableValue page
      (some (entryAddress current), (s.zeroPage page).setWord entry current)

/-- The walk of `mmu_create_entry_and_acquire_lock` from a locked table of a level on. -/
def mmuCreateEntryFrom (vaddr : Nat) : Nat → Nat → PhysMem → Exec (Option Nat × PhysMem)
  | 0, table, s => .ok (some (tableEntry table (pagingLevelIndex 0 vaddr)), s)
  | level + 1, table, s => do
    match mmuNextTable s (tableEntry table (pagingLevelIndex (level + 1) vaddr)) with
    | (none, s) =>
      let s ← pmmReleasePageLock s table
      return (none, s)
    | (some nextTable, s) =>
      let s ← pmmAcquirePageLock s nextTable
      let s ← pmmReleasePageLock s table
      mmuCreateEntryFrom vaddr level nextTable s

/-- Source: `mmu_create_entry_and_acquire_lock` (`paging.c:301`). -/
def mmuCreateEntryAndAcquireLock (s : PhysMem) (pml4 vaddr : Nat) :
    Exec (Option Nat × PhysMem) := do
  let s ← pmmAcquirePageLock s pml4
  mmuCreateEntryFrom vaddr pagingLevelMax pml4 s

/-- Source: `mmu_entry_release_lock` (`paging.c:418`). -/
def mmuEntryReleaseLock (s : PhysMem) (entry : Nat) : Exec PhysMem :=
  pmmReleasePageLock s (pageAlignDown entry)

/-- Source: `mmu_create_next_entry_and_acquire_lock` (`paging.c:400`). The two addresses are taken to
be in one table when they agree in one bit, bit 21. -/
def mmuCreateNextEntryAndAcquireLock (s : PhysMem) (pml4 vaddr : Nat) (oldEntry : Option Nat)
    (oldVaddr : Nat) : Exec (Option Nat × PhysMem) := do
  match oldEntry with
  | none => mmuCreateEntryAndAcquireLock s pml4 vaddr
  | some oldEntry =>
    if vaddr &&& (pagingEntriesPerLevel * pageSize) =
        oldVaddr &&& (pagingEntriesPerLevel * pageSize) then
      if vaddr > oldVaddr then
        return (some (oldEntry + 8 * ((vaddr - oldVaddr) / pageSize)), s)
      else
        return (some (oldEntry - 8 * ((oldVaddr - vaddr) / pageSize)), s)
    else
      let s ← mmuEntryReleaseLock s oldEntry
      mmuCreateEntryAndAcquireLock s pml4 vaddr

/-- Source: `mmu_get_next_entry_helper` (`paging.c:328`). The address that comes back is put together
from the indices, and nothing extends its sign. -/
def mmuGetNextEntryHelper (s : PhysMem) : Nat → Nat → Nat → Option (Nat × Nat)
  | 0, table, start =>
    let first := pagingLevelIndex 0 start
    (List.range' first (pagingEntriesPerLevel - first)).findSome? fun i =>
      if Present (s.word (tableEntry table i)) then
        some (tableEntry table i, i <<< pagingLevelShift 0)
      else none
  | level + 1, table, start =>
    let first := pagingLevelIndex (level + 1) start
    (List.range' first (pagingEntriesPerLevel - first)).findSome? fun i =>
      let current := s.word (tableEntry table i)
      if Present current then
        (mmuGetNextEntryHelper s level (entryAddress current) (if i = first then start else 0)).map
          fun found => (found.1, found.2 + i <<< pagingLevelShift (level + 1))
      else none

/-- Source: `mmu_get_next_entry` (`paging.c:348`). -/
def mmuGetNextEntry (s : PhysMem) (pml4 start : Nat) : Option (Nat × Nat) :=
  mmuGetNextEntryHelper s pagingLevelMax pml4 start

/-- The page tables of `paging.c`, as an implementation of the interface. -/
def paging : Mmu PhysMem Nat Nat where
  fetch s entry := s.word entry
  store s entry value := s.setWord entry value
  getEntryAndAcquireLock := mmuGetEntryAndAcquireLock
  createEntryAndAcquireLock := mmuCreateEntryAndAcquireLock
  createNextEntryAndAcquireLock := mmuCreateNextEntryAndAcquireLock
  getNextEntry := mmuGetNextEntry
  entryReleaseLock := mmuEntryReleaseLock
  virt2phys := mmuSpaceVirt2phys
  allocatePage := pmmAllocatePage
  retain := pmmRetainPage
  releasePage := pmmPutPage
  zeroPage := PhysMem.zeroPage
  copyPage := PhysMem.copyPage
  refCount s page := s.refCount page
  zeroFrame s := s.zeroFrame

@[simp] theorem paging_fetch (s : PhysMem) (entry : Nat) : paging.fetch s entry = s.word entry := rfl

@[simp] theorem paging_createNext :
    paging.createNextEntryAndAcquireLock = mmuCreateNextEntryAndAcquireLock := rfl

@[simp] theorem paging_getNextEntry : paging.getNextEntry = mmuGetNextEntry := rfl

@[simp] theorem paging_entryReleaseLock : paging.entryReleaseLock = mmuEntryReleaseLock := rfl

end Stanix
