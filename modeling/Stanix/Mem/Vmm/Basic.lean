import Stanix.Arch.Mmu
import Stanix.Klib.Avltree.Basic
import Mathlib.Data.Finset.Card

/-!
# Address spaces

A model of `kernel/mem/vmm.c`: the segments of an address space in a tree that is ordered by their
addresses, and the calls that map, unmap, protect and clone. The code is written against the interface
`Mmu` to the page tables. What drivers and files do when the code calls them is `VmmDrivers`, over the
same state.

Segments, spaces and open files are known by their addresses. The memory of all segments is one map, a
segment that is freed is full of the byte 0xdd, and the tree of a space is its root pointer and the
links in the segments. What `slab_alloc` will answer is a list in the state: any object that is free
may come next, or none.

Every call runs under the lock of its space. The mutex of a segment can be taken again by the task that
has it; it is modelled by how often it is taken.
-/

namespace Stanix

open Function

/-- Source: `VMM_FLAG_ANONYMOUS`. -/
def vmmFlagAnonymous : BitVec 64 := 0x01

/-- Source: `VMM_FLAG_PRIVATE`. -/
def vmmFlagPrivate : BitVec 64 := 0x02

/-- Source: `VMM_FLAG_SHARED`. -/
def vmmFlagShared : BitVec 64 := 0x04

/-- Source: `VMM_FLAG_IO`. -/
def vmmFlagIo : BitVec 64 := 0x08

/-- Source: `VMM_FLAG_ASYNC`. -/
def vmmFlagAsync : BitVec 64 := 0x2

/-- A segment of an address space; `stop` is the source's `end`. Source: `vmm_seg_t` (`vmm.h:38`). -/
structure VmmSeg where
  node : AvltreeNode Nat
  /-- How often the mutex is taken. -/
  lock : Nat
  space : Nat
  start : Nat
  stop : Nat
  prot : BitVec 64
  flags : BitVec 64
  fd : Option Nat
  privateData : Option Nat
  ops : Option Nat
  offset : Nat
  lastFaultPage : Nat
  lastFaultSize : Nat
  lastFaultCounter : Nat

/-- What `vmm_seg_constructor` makes of a segment (`vmm.c:19`). -/
def VmmSeg.zero : VmmSeg where
  node := ⟨none, none, none, 0⟩
  lock := 0
  space := 0
  start := 0
  stop := 0
  prot := 0
  flags := 0
  fd := none
  privateData := none
  ops := none
  offset := 0
  lastFaultPage := 0
  lastFaultSize := 0
  lastFaultCounter := 0

/-- Eight bytes of a freed object. -/
def poison : Nat := 0xdddddddddddddddd

/-- What `slab_free` leaves of a segment. -/
def VmmSeg.poisoned : VmmSeg where
  node := ⟨some poison, some poison, some poison, poison⟩
  lock := poison
  space := poison
  start := poison
  stop := poison
  prot := BitVec.ofNat 64 poison
  flags := BitVec.ofNat 64 poison
  fd := some poison
  privateData := some poison
  ops := some poison
  offset := poison
  lastFaultPage := poison
  lastFaultSize := poison
  lastFaultCounter := poison

/-- The size of a segment. Source: `VMM_SIZE` (`vmm.h:59`). -/
def VmmSeg.size (seg : VmmSeg) : Nat := wrapSub seg.stop seg.start

/-- An address space. Source: `vmm_space_t` (`vmm.h:63`). -/
structure VmmSpace (Sp : Type) where
  addrspace : Sp
  /-- `segs.root`. -/
  root : Option Nat
  totalSize : Nat := 0
  peakSize : Nat := 0
  privateSize : Nat := 0
  sharedSize : Nat := 0
  fileSize : Nat := 0
  anonSize : Nat := 0
  pageFaults : Nat := 0

/-- What the fields that a driver's `mmap` may set are afterwards. -/
structure MmapSeg where
  prot : BitVec 64
  flags : BitVec 64
  ops : Option Nat
  privateData : Option Nat

/-- What a driver's fault handler answers (`vmm.h:33`). -/
inductive VmmFault
  | notHandled
  | succed
  | failed
  deriving DecidableEq, Repr

/-- Open files and drivers, as far as the code calls them. A callback that a driver does not have
changes nothing and refuses nothing. -/
structure VmmDrivers (σ Sp : Type) where
  /-- `fd->flags & O_WRONLY`. -/
  wronly : Nat → Bool
  /-- `fd->flags & O_RDWR`. -/
  rdwr : Nat → Bool
  /-- `vfs_mmap` of an open file at an offset. -/
  mmap : Nat → Nat → Sp → VmmSeg → σ → Exec (Option Errno × MmapSeg × σ)
  /-- `can_mprotect`, with the error it answers. -/
  canMprotect : Nat → VmmSeg → BitVec 64 → Option Errno
  /-- `can_split`, with the error it answers. -/
  canSplit : Nat → VmmSeg → Nat → Option Errno
  dup : Nat → VmmSeg → σ → Exec σ
  destroy : Nat → VmmSeg → σ → Exec σ
  msync : Nat → Sp → VmmSeg → Nat → Nat → BitVec 64 → σ → Exec (Option Errno × σ)
  fault : Nat → VmmSeg → Nat → BitVec 64 → σ → Exec (VmmFault × σ)
  preload : Nat → VmmSeg → Nat → Nat → σ → Exec σ
  /-- `get_page`; `none` when the driver has none. -/
  getPage : Nat → Option (VmmSeg → Nat → σ → Exec (Option Nat × σ))

/-- A kernel without drivers: only anonymous memory can be mapped. -/
def noDrivers {σ Sp : Type} : VmmDrivers σ Sp where
  wronly _ := false
  rdwr _ := true
  mmap _ _ _ seg mem := .ok (some .opnotsupp, ⟨seg.prot, seg.flags, seg.ops, seg.privateData⟩, mem)
  canMprotect _ _ _ := none
  canSplit _ _ _ := none
  dup _ _ mem := .ok mem
  destroy _ _ mem := .ok mem
  msync _ _ _ _ _ _ mem := .ok (none, mem)
  fault _ _ _ _ mem := .ok (.notHandled, mem)
  preload _ _ _ _ mem := .ok mem
  getPage _ := none

/-- The state of the address spaces: the memory and page tables, the segments, which of them are
allocated and which object the slab will answer with, the spaces, and the references to open files. -/
structure Vmm (σ Sp : Type) where
  mem : σ
  seg : Nat → VmmSeg
  live : Finset Nat
  slab : List (Option Nat)
  space : Nat → VmmSpace Sp
  fdRef : Nat → Nat

variable {σ Sp E : Type}

namespace Vmm

/-- Write of a segment. -/
def setSeg (s : Vmm σ Sp) (v : Nat) (seg : VmmSeg) : Vmm σ Sp :=
  { s with seg := update s.seg v seg }

/-- Write of a space. -/
def setSpace (s : Vmm σ Sp) (sp : Nat) (space : VmmSpace Sp) : Vmm σ Sp :=
  { s with space := update s.space sp space }

/-- The tree of a space. -/
def tree (s : Vmm σ Sp) (sp : Nat) : Avltree Nat Unit where
  root := (s.space sp).root
  node v := (s.seg v).node
  data _ := ()

/-- Write of the tree of a space. -/
def setTree (s : Vmm σ Sp) (sp : Nat) (t : Avltree Nat Unit) : Vmm σ Sp :=
  { s with
    seg := fun v => { s.seg v with node := t.node v }
    space := update s.space sp { s.space sp with root := t.root } }

/-- More steps than a walk in a tree of segments takes. -/
def fuel (s : Vmm σ Sp) : Nat := s.live.card + 1

/-- Source: `mutex_acquire(&seg->lock)`. -/
def acquire (s : Vmm σ Sp) (v : Nat) : Vmm σ Sp :=
  s.setSeg v { s.seg v with lock := (s.seg v).lock + 1 }

/-- Source: `mutex_release(&seg->lock)`. -/
def release (s : Vmm σ Sp) (v : Nat) : Vmm σ Sp :=
  s.setSeg v { s.seg v with lock := (s.seg v).lock - 1 }

/-- Source: `slab_alloc(&vmm_seg_slab)`. -/
def slabAlloc (s : Vmm σ Sp) : Option Nat × Vmm σ Sp :=
  match s.slab with
  | [] => (none, s)
  | none :: slab => (none, { s with slab := slab })
  | some v :: slab =>
    if v ∈ s.live then (none, { s with slab := slab })
    else (some v, { s with
      slab := slab, live := insert v s.live, seg := update s.seg v .zero })

/-- Source: `slab_free`. -/
def slabFree (s : Vmm σ Sp) (v : Nat) : Vmm σ Sp :=
  { s with live := s.live.erase v, seg := update s.seg v .poisoned }

/-- Source: `vfs_dup` (`vfs.h:623`). -/
def vfsDup (s : Vmm σ Sp) : Option Nat → Vmm σ Sp
  | none => s
  | some fd => { s with fdRef := update s.fdRef fd (s.fdRef fd + 1) }

/-- Source: `vfs_close` (`vfd.c:172`). -/
def vfsClose (s : Vmm σ Sp) : Option Nat → Vmm σ Sp
  | none => s
  | some fd => { s with fdRef := update s.fdRef fd (s.fdRef fd - 1) }

end Vmm

/-! ## The tree of segments -/

/-- Source: `vmm_tree_compare_nodes` (`vmm.c:231`). -/
def vmmTreeCompareNodes (seg : Nat → VmmSeg) (a b : Nat) : Int :=
  if (seg a).stop ≤ (seg b).start then -1
  else if (seg a).start ≥ (seg b).stop then 1
  else 0

/-- Source: `vmm_tree_compare_key` (`vmm.c:245`). -/
def vmmTreeCompareKey (seg : Nat → VmmSeg) (addr : Nat) (v : Nat) : Int :=
  if addr < (seg v).start then -1
  else if addr ≥ (seg v).stop then 1
  else 0

/-- Source: `vmm_tree_ops` (`vmm.c:265`). -/
def vmmTreeOps (seg : Nat → VmmSeg) : AvltreeOps Nat Nat Unit where
  compareNodes := vmmTreeCompareNodes seg
  compareKey _ := vmmTreeCompareKey seg
  recalculate := some fun _ _ => ()

/-- `avltree_insert(&space->segs, &seg->node)`. -/
def vmmTreeInsert (s : Vmm σ Sp) (sp v : Nat) : Exec (Vmm σ Sp) := do
  let t ← avltreeInsert (vmmTreeOps s.seg) s.fuel (s.tree sp) v
  return s.setTree sp t

/-- `avltree_remove(&space->segs, &seg->node)`. -/
def vmmTreeRemove (s : Vmm σ Sp) (sp v : Nat) : Exec (Vmm σ Sp) := do
  let (_, t) ← avltreeRemove (vmmTreeOps s.seg) s.fuel (s.tree sp) v
  return s.setTree sp t

/-- `avltree_next(&space->segs, node)`. -/
def vmmTreeNext (s : Vmm σ Sp) (sp v : Nat) : Exec (Option Nat) :=
  avltreeNext s.fuel (s.tree sp) (some v)

/-- `avltree_first_superior_or_equal(&space->segs, &start)`. -/
def vmmTreeFrom (s : Vmm σ Sp) (sp start : Nat) : Exec (Option Nat) :=
  avltreeFirstSuperiorOrEqual (vmmTreeOps s.seg) s.fuel (s.tree sp) start

end Stanix
