import Stanix.Mem.Pmm.Basic

/-!
# The slab allocator

A model of `kernel/mem/slab.c`: objects of one size, cut out of blocks of pages that the physical
memory manager hands out. A block starts with its header `slab_t`; the objects follow it, and those
that are not in use are linked through their own first word. The cache keeps its slabs on the lists
`partial` and `full`; nothing puts a slab on the list `free`.

Addresses are physical ones, since the direct map only adds a constant to them. The headers, the
list nodes in them and the first words of the objects are separate maps: a header and the objects
behind it do not overlap. What the memory manager answers is an argument, and `blocks` records which
blocks it has handed out and not got back. The hooks of a cache are left out: `evict` is not set,
and what a constructor or a destructor does to an object is like any other write to it.
-/

namespace Stanix

open Function

/-- Source: `SLAB_FREE`, `SLAB_PARTIAL`, `SLAB_FULL` (`slab.h:22`). -/
inductive SlabState
  | slabFree
  | slabPartial
  | slabFull
  deriving DecidableEq, Repr

/-- The header of a slab, its list node apart. Source: `slab_t` (`slab.h:14`). -/
structure Slab where
  free : Option Nat
  allocatedCount : BitVec 64
  state : SlabState
  deriving DecidableEq

/-- Source: `sizeof(slab_t)`. -/
def slabHeaderSize : Nat := 48

/-- A cache of objects of one size. Source: `slab_cache_t` (`slab.h:26`). -/
structure SlabCache where
  free : ListHead Nat := {}
  partialList : ListHead Nat := {}
  full : ListHead Nat := {}
  order : Nat
  size : Nat
  deriving DecidableEq

/-- A cache with the memory it works on: the list nodes and the headers by the address of the slab,
the first words of the objects, the slab noted for each page, and the blocks of pages in use. -/
structure SlabHeap where
  cache : SlabCache
  nodes : Nat → ListNode Nat
  slabs : Nat → Slab
  next : Nat → Option Nat
  priv : Nat → Option Nat
  blocks : List Nat

/-! ## Caches -/

/-- One turn of the loop over the orders; `best` is the waste and the order chosen so far. -/
def slabOrderStep (size : Nat) (best : Nat × Nat) (order : Nat) : Nat × Nat :=
  let usableSize := order2Count order * pageSize - slabHeaderSize
  let objectsPerSlab := usableSize / size
  if objectsPerSlab = 0 then best
  else
    let usedSize := objectsPerSlab * size
    let wastedSize := usableSize - usedSize
    let penalty := 256 * (order2Count order - 1)
    if wastedSize + penalty ≤ best.1 then (wastedSize, order) else best

/-- Source: `slab_calculate_order` (`slab.c:11`). -/
def slabCalculateOrder (size : Nat) : Nat :=
  if size < 1024 then 0
  else ((List.range ordersCount).foldl (slabOrderStep size) (2 ^ 64 - 1, 6)).2

/-- The size of an object, rounded up to a multiple of 16. -/
def slabRound (size : Nat) : Nat :=
  if size % 16 ≠ 0 then size + (16 - size % 16) else size

/-- `none` is the result `-EINVAL`. Source: `slab_init` (`slab.c:38`). -/
def slabInit (size : Nat) : Option SlabCache :=
  if size > pageSize - slabHeaderSize then none
  else some { size := slabRound size, order := slabCalculateOrder (slabRound size) }

namespace SlabCache

/-- The number of objects in a slab, `objects_count` in `new_slab`. -/
def capacity (cache : SlabCache) : Nat :=
  (order2Count cache.order * pageSize - slabHeaderSize) / cache.size

/-- The address of an object. -/
def object (cache : SlabCache) (slab i : Nat) : Nat := slab + slabHeaderSize + i * cache.size

end SlabCache

namespace SlabHeap

/-- A write to the header of a slab. -/
def setSlab (s : SlabHeap) (slab : Nat) (header : Slab) : SlabHeap :=
  { s with slabs := update s.slabs slab header }

/-- A write to the first word of an object. -/
def setNext (s : SlabHeap) (ptr : Nat) (next : Option Nat) : SlabHeap :=
  { s with next := update s.next ptr next }

@[simp] theorem setSlab_setSlab (s : SlabHeap) (slab : Nat) (h h' : Slab) :
    (s.setSlab slab h).setSlab slab h' = s.setSlab slab h' := by
  simp [setSlab]

@[simp] theorem setSlab_slabs_self (s : SlabHeap) (slab : Nat) (h : Slab) :
    (s.setSlab slab h).slabs slab = h := update_self ..

@[simp] theorem setNext_setNext (s : SlabHeap) (ptr : Nat) (v v' : Option Nat) :
    (s.setNext ptr v).setNext ptr v' = s.setNext ptr v' := by
  simp [setNext]

/-- `list_add_after(&partial, NULL, slab)`. -/
def addPartial (s : SlabHeap) (slab : Nat) : SlabHeap :=
  let (nodes, list) := listAddAfter s.nodes s.cache.partialList none slab
  { s with nodes := nodes, cache := { s.cache with partialList := list } }

/-- `list_remove(&partial, slab)`. -/
def removePartial (s : SlabHeap) (slab : Nat) : SlabHeap :=
  let (nodes, list) := listRemove s.nodes s.cache.partialList slab
  { s with nodes := nodes, cache := { s.cache with partialList := list } }

/-- `list_append(&full, slab)`. -/
def appendFull (s : SlabHeap) (slab : Nat) : SlabHeap :=
  let (nodes, list) := listAppend s.nodes s.cache.full slab
  { s with nodes := nodes, cache := { s.cache with full := list } }

/-- `list_remove(&full, slab)`. -/
def removeFull (s : SlabHeap) (slab : Nat) : SlabHeap :=
  let (nodes, list) := listRemove s.nodes s.cache.full slab
  { s with nodes := nodes, cache := { s.cache with full := list } }

/-- `list_remove(&free, slab)`. -/
def removeFree (s : SlabHeap) (slab : Nat) : SlabHeap :=
  let (nodes, list) := listRemove s.nodes s.cache.free slab
  { s with nodes := nodes, cache := { s.cache with free := list } }

end SlabHeap

/-! ## New slabs -/

/-- The loop of `new_slab` that notes the slab for the first `count` pages. -/
def slabSetPrivate (s : SlabHeap) (page slab : Nat) : Nat → SlabHeap
  | 0 => s
  | i + 1 =>
    let s := slabSetPrivate s page slab i
    { s with priv := update s.priv (page + i) (some slab) }

/-- The loop of `new_slab` that links the objects, up to object `i`. -/
def slabLinkObjects (s : SlabHeap) (slab objectsCount : Nat) : Nat → SlabHeap
  | 0 => s
  | i + 1 =>
    let s := slabLinkObjects s slab objectsCount i
    let current := s.cache.object slab i
    if i = objectsCount - 1 then s.setNext current none
    else s.setNext current (some (s.cache.object slab (i + 1)))

/-- `answer` is the page of the block that the memory manager hands out, if it has one.
Source: `new_slab` (`slab.c:62`). -/
def newSlab (s : SlabHeap) (answer : Option Nat) : Exec (Option Nat × SlabHeap) :=
  match answer with
  | none => .ok (none, s)
  | some page =>
    let slab := page * pageSize
    let s := { s with blocks := slab :: s.blocks, nodes := update s.nodes slab ⟨none, none⟩ }
    let s := s.setSlab slab { free := none, allocatedCount := 0, state := .slabFree }
    let s := slabSetPrivate s page slab (order2Count s.cache.order)
    if s.cache.size = 0 then .error .division
    else
      let s := slabLinkObjects s slab s.cache.capacity s.cache.capacity
      let s := s.setSlab slab { s.slabs slab with free := some (slab + slabHeaderSize) }
      .ok (some slab, s)

/-! ## Allocating and freeing -/

/-- `SLAB_PARTIAL` and the list of partial slabs. -/
def slabMakePartial (s : SlabHeap) (slab : Nat) : SlabHeap :=
  (s.setSlab slab { s.slabs slab with state := .slabPartial }).addPartial slab

/-- The slab `slab_alloc` takes an object from. -/
def slabPick (s : SlabHeap) (answer : Option Nat) : Exec (Option Nat × SlabHeap) :=
  match s.cache.partialList.firstNode with
  | some slab => .ok (some slab, s)
  | none =>
    match s.cache.free.firstNode with
    | some slab => .ok (some slab, slabMakePartial s slab)
    | none => do
      let (slab, s) ← newSlab s answer
      match slab with
      | none => return (none, s)
      | some slab => return (some slab, slabMakePartial (s.removeFree slab) slab)

/-- What `slab_alloc` does with the slab it has picked. -/
def slabTake (s : SlabHeap) (slab : Nat) : Exec (Nat × SlabHeap) := do
  let header := s.slabs slab
  let node ← Exec.deref header.free
  let free := s.next node
  let s := s.setSlab slab { header with free := free, allocatedCount := header.allocatedCount + 1 }
  let s :=
    if free = none then
      ((s.setSlab slab { s.slabs slab with state := .slabFull }).removePartial slab).appendFull slab
    else s
  return (node, s.setNext node (some 0xaaaaaaaaaaaaaaaa))

/-- Without pages and without eviction the result is NULL. Source: `slab_alloc` (`slab.c:104`). -/
def slabAlloc (s : SlabHeap) (answer : Option Nat) : Exec (Option Nat × SlabHeap) := do
  let (slab, s) ← slabPick s answer
  match slab with
  | none => return (none, s)
  | some slab =>
    let (node, s) ← slabTake s slab
    return (some node, s)

/-- Source: `free_slab` (`slab.c:98`). -/
def freeSlab (s : SlabHeap) (slab : Nat) : SlabHeap := { s with blocks := s.blocks.erase slab }

/-- What `slab_free` does with the slab of the object. -/
def slabPut (s : SlabHeap) (slab ptr : Nat) : SlabHeap :=
  let header := s.slabs slab
  let s := (s.setNext ptr (some 0xdddddddddddddddd)).setNext ptr header.free
  let header := { header with free := some ptr, allocatedCount := header.allocatedCount - 1 }
  if header.allocatedCount = 0 then
    freeSlab ((s.setSlab slab { header with state := .slabFree }).removePartial slab) slab
  else if header.state = .slabFull then
    ((s.setSlab slab { header with state := .slabPartial }).removeFull slab).addPartial slab
  else s.setSlab slab header

/-- Source: `slab_free` (`slab.c:159`). -/
def slabFree (s : SlabHeap) (ptr : Nat) : Exec SlabHeap := do
  let slab ← Exec.deref (s.priv (ptr / pageSize))
  return slabPut s slab ptr

/-! ## Which sizes leave room for one object only -/

/-- The sizes for which a slab has room for two objects or more. -/
def SlabSizeFits (size : Nat) : Prop :=
  0 < size ∧ ¬ (2032 < size ∧ size ≤ 2160) ∧ ¬ (2720 < size ∧ size ≤ 3248) ∧ size ≤ 3264
  deriving Decidable

/-- The cache of every multiple of 16 that `slab_init` accepts. -/
theorem slab_capacity_of_round : ∀ k < 254,
    let cache : SlabCache := { size := 16 * k, order := slabCalculateOrder (16 * k) }
    (k ≠ 0 → 1 ≤ cache.capacity) ∧ cache.order < ordersCount ∧
      (2 ≤ cache.capacity ↔ SlabSizeFits (16 * k)) := by
  decide +kernel

theorem slabSizeFits_round (size : Nat) :
    slabRound size % 16 = 0 ∧ (SlabSizeFits (slabRound size) ↔ SlabSizeFits size) := by
  unfold SlabSizeFits slabRound
  split <;> omega

/-- **A cache as `slab_init` sets it up.** -/
theorem slabInit_spec {size : Nat} {cache : SlabCache} (h : slabInit size = some cache) :
    cache.free = {} ∧ cache.partialList = {} ∧ cache.full = {} ∧ cache.size = slabRound size ∧
      (cache.size ≠ 0 → 1 ≤ cache.capacity) ∧ cache.order < ordersCount ∧
      (2 ≤ cache.capacity ↔ SlabSizeFits size) := by
  unfold slabInit at h
  split at h
  · cases h
  rename_i hsize
  obtain ⟨hmod, hfits⟩ := slabSizeFits_round size
  have hle : slabRound size ≤ 4048 := by
    unfold slabRound
    have : size ≤ 4048 := not_lt.1 hsize
    split <;> omega
  obtain ⟨k, hk⟩ := Nat.dvd_of_mod_eq_zero hmod
  obtain ⟨hone, horder, htwo⟩ := slab_capacity_of_round k (by omega)
  cases h
  rw [← hfits, hk]
  exact ⟨rfl, rfl, rfl, rfl, fun h0 => hone fun hk0 => h0 (by simp [hk0]), horder, htwo⟩

end Stanix
