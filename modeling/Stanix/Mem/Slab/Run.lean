import Stanix.Mem.Slab.Step

/-!
# Runs of the slab allocator

A run is a sequence of `slab_alloc` and `slab_free` on one cache, with writes to objects in use in
between; beside the cache it keeps the list of these objects. `SlabRun.Sound` is what the lists, the
counts and the free lists of the slabs are for. `slab_runs_sound_iff` says for which object sizes
all runs keep it: for those of which two fit into a slab. A slab with room for one object goes from
`partial` to `full` at once, and `slab_free` looks for it on `partial` when it gives its pages back,
so it stays on `full`; and a size of zero, which `slab_init` accepts, is divided by in `new_slab`.
-/

namespace Stanix

open Exec List SlabHeap SlabCache

/-- A call of the allocator, with the answer of the memory manager if it is asked, or a write to the
first word of an object by its user. -/
inductive SlabCall
  | alloc (answer : Option Nat)
  | free (ptr : Nat)
  | write (ptr : Nat) (word : Option Nat)
  deriving DecidableEq

/-- A cache with the objects in use. -/
structure SlabRun where
  heap : SlabHeap
  live : List Nat

/-- One call. An object that `slab_alloc` returns is in use until it is freed. -/
def slabCall (r : SlabRun) : SlabCall → Exec (Option Nat × SlabRun)
  | .alloc answer => do
    let (ptr, heap) ← slabAlloc r.heap answer
    return (ptr, ⟨heap, ptr.toList ++ r.live⟩)
  | .free ptr => do
    let heap ← slabFree r.heap ptr
    return (none, ⟨heap, r.live.erase ptr⟩)
  | .write ptr word => return (none, { r with heap := r.heap.setNext ptr word })

/-- The memory manager hands out pages that are not in use, and the users free and write to objects
that are. -/
def SlabCall.Proper (r : SlabRun) : SlabCall → Prop
  | .alloc answer => ∀ page, answer = some page → r.heap.Fresh page
  | .free ptr => ptr ∈ r.live
  | .write ptr _ => ptr ∈ r.live

instance SlabCall.instDecidableProper (r : SlabRun) : ∀ call : SlabCall, Decidable (call.Proper r)
  | .alloc answer => inferInstanceAs (Decidable (∀ page, answer = some page → _))
  | .free _ | .write .. => inferInstanceAs (Decidable (_ ∈ _))

/-- **What a cache promises.** A slab is on the list that its count says, its free list has the
other objects, a slab whose pages have been given back is on no list, and no object is in use twice.
-/
structure SlabRun.Sound (r : SlabRun) : Prop where
  partial_iff : ∀ a ∈ r.heap.blocks, r.heap.cache.partialList.On r.heap.nodes a ↔
    0 < (r.heap.slabs a).allocatedCount.toNat ∧
      (r.heap.slabs a).allocatedCount.toNat < r.heap.cache.capacity
  full_iff : ∀ a ∈ r.heap.blocks, r.heap.cache.full.On r.heap.nodes a ↔
    (r.heap.slabs a).allocatedCount.toNat = r.heap.cache.capacity
  free_length : ∀ a ∈ r.heap.blocks, ∃ free, Sll.Rep r.heap.next (r.heap.slabs a).free free ∧
    free.length + (r.heap.slabs a).allocatedCount.toNat = r.heap.cache.capacity
  off_lists : ∀ a, a ∉ r.heap.blocks → ¬ r.heap.cache.partialList.On r.heap.nodes a ∧
    ¬ r.heap.cache.full.On r.heap.nodes a ∧ ¬ r.heap.cache.free.On r.heap.nodes a
  live_nodup : r.live.Nodup

/-- The invariant of a run. -/
def SlabRun.Holds (r : SlabRun) : Prop :=
  (∃ ps fs, r.heap.Inv r.live ps fs) ∧ r.heap.Used r.live

namespace SlabRun.Holds

variable {r : SlabRun} {heap : SlabHeap}

/-- The invariant implies what a cache promises. -/
theorem sound (h : r.Holds) : r.Sound := by
  obtain ⟨⟨ps, fs, h⟩, hused⟩ := h
  have hcap := capacity_lt h.order_lt
  -- the count of a slab, its free list and its place, from what is said of its objects
  have hslab : ∀ a ∈ r.heap.blocks, ∃ free, Sll.Rep r.heap.next (r.heap.slabs a).free free ∧
      free.length + (r.heap.slabs a).allocatedCount.toNat = r.heap.cache.capacity ∧
      0 < (r.heap.slabs a).allocatedCount.toNat ∧ (free.length = 0 ↔ a ∈ fs) := by
    intro a ha
    obtain ⟨free, hrep, hlen, hcount, hfull⟩ := (h.ok a ha).length_add (length_objects ▸ hcap)
    rw [length_objects] at hlen
    refine ⟨free, hrep, hlen, ?_, by rw [length_eq_zero_iff, hfull]⟩
    obtain ⟨x, hx, hxa⟩ := hused a ha
    rw [hcount]
    exact length_pos_of_mem (mem_liveAmong.2 ⟨hx, hxa⟩)
  refine ⟨fun a ha => ?_, fun a ha => ?_, fun a ha => ?_, fun a ha => ?_, h.nodup⟩
  · have hor := (h.mem_blocks a).1 ha
    have hapart := h.lists.apart a
    rw [h.lists.partials.on_iff]
    constructor
    · grind
    grind
  · obtain ⟨free, -, hlen, -, hfull⟩ := hslab a ha
    rw [h.lists.fulls.on_iff, ← hfull]
    omega
  · grind
  rw [h.mem_blocks, not_or] at ha
  rw [h.lists.partials.on_iff, h.lists.fulls.on_iff]
  refine ⟨ha.1, ha.2, fun ⟨n, hn⟩ => ?_⟩
  rw [h.lists.free, Dll.nth_none] at hn
  cases hn

theorem init {size : Nat} (hinit : slabInit size = some heap.cache) (hblocks : heap.blocks = [])
    (hfits : SlabSizeFits size) : Holds ⟨heap, []⟩ := by
  obtain ⟨hfree, hpart, hfull, hsize, -, horder, htwo⟩ := slabInit_spec hinit
  have hpos : 0 < heap.cache.size := by
    rw [hsize]
    exact ((slabSizeFits_round size).2.2 hfits).1
  refine ⟨⟨[], [], hpos, htwo.2 hfits, horder, ?_, ?_, ?_, ?_, ?_, nodup_nil⟩, ?_⟩
  · refine ⟨by rw [hfree], ?_, ?_, fun a ha => absurd ha not_mem_nil⟩
    · rw [hpart]; exact Dll.Rep.nil _
    rw [hfull]; exact Dll.Rep.nil _
  all_goals simp only [hblocks]
  · exact ⟨nodup_nil, by simp, by simp⟩
  · simp
  · simp
  · simp
  intro a ha
  rw [hblocks] at ha
  exact absurd ha not_mem_nil

theorem of_take {live ps fs : List Nat} {slab : Nat} (h : heap.Inv live ps fs) (hps : slab ∈ ps)
    (hused : ∀ a ∈ heap.blocks, a ≠ slab → ∃ x ∈ live, x ∈ heap.cache.objects a) :
    ∃ node heap', slabTake heap slab = .ok (node, heap') ∧ Holds ⟨heap', node :: live⟩ := by
  obtain ⟨node, heap', ps', fs', htake, h', hnode, hblocks, hobjs⟩ := h.take hps
  refine ⟨node, heap', htake, ⟨ps', fs', h'⟩, fun a ha => ?_⟩
  rw [hobjs]
  by_cases heq : a = slab
  · exact ⟨node, mem_cons_self, heq ▸ hnode⟩
  grind

/-- `slab_alloc` keeps the invariant. -/
theorem alloc (h : r.Holds) {answer : Option Nat} (hq : (SlabCall.alloc answer).Proper r) :
    ∃ ptr r', slabCall r (.alloc answer) = .ok (ptr, r') ∧ r'.Holds := by
  obtain ⟨⟨ps, fs, hinv⟩, hused⟩ := h
  have hfirst := hinv.lists.partials.first_eq
  cases ps with
  | cons slab ps =>
    obtain ⟨node, heap', htake, hholds⟩ := of_take hinv mem_cons_self fun a ha _ => hused a ha
    refine ⟨some node, ⟨heap', node :: r.live⟩, ?_, hholds⟩
    simp [slabCall, slabAlloc, slabPick, hfirst, htake]
  | nil => ?_
  cases answer with
  | none =>
    refine ⟨none, r, ?_, ⟨⟨[], fs, hinv⟩, hused⟩⟩
    simp [slabCall, slabAlloc, slabPick, hfirst, hinv.lists.free, newSlab]
  | some page => ?_
  obtain ⟨heap1, hpick, hinv1, hblocks, hobjs⟩ := hinv.newSlab (hq page rfl)
  obtain ⟨node, heap', htake, hholds⟩ := of_take hinv1 mem_cons_self fun a ha hne => by
    rw [hblocks] at ha
    rw [hobjs]
    exact hused a ((mem_cons.1 ha).resolve_left hne)
  refine ⟨some node, ⟨heap', node :: r.live⟩, ?_, hholds⟩
  simp [slabCall, slabAlloc, hpick, htake]

theorem call (h : r.Holds) {c : SlabCall} (hq : c.Proper r) :
    ∃ ptr r', slabCall r c = .ok (ptr, r') ∧ r'.Holds := by
  cases c with
  | alloc answer => exact h.alloc hq
  | free ptr =>
    obtain ⟨⟨ps, fs, hinv⟩, hused⟩ := h
    obtain ⟨heap', ps', fs', hput, hinv', hused'⟩ := hinv.put hused hq
    refine ⟨none, ⟨heap', r.live.erase ptr⟩, ?_, ⟨ps', fs', hinv'⟩, hused'⟩
    simp [slabCall, hput]
  | write ptr word =>
    obtain ⟨⟨ps, fs, hinv⟩, hused⟩ := h
    refine ⟨none, _, rfl, ⟨ps, fs, ?_⟩, hused⟩
    refine ⟨hinv.size_pos, hinv.capacity, hinv.order_lt, hinv.lists, hinv.owned, hinv.mem_blocks,
      fun a ha => ?_, hinv.home, hinv.nodup⟩
    exact (hinv.ok a ha).write hq (nodup_objects hinv.size_pos)

end SlabRun.Holds

/-! ## Slabs with room for one object -/

/-- A cache before its first use, in cleared memory. -/
def SlabCache.start (cache : SlabCache) : SlabRun where
  heap :=
    { cache := cache
      nodes := fun _ => ⟨none, none⟩
      slabs := fun _ => ⟨none, 0, .slabFree⟩
      next := fun _ => none
      priv := fun _ => none
      blocks := [] }
  live := []

section OneObject

variable {s : SlabHeap}

/-- The only object of a new slab is handed out: the slab is full. -/
theorem slabAlloc_one (hpart : s.cache.partialList = {}) (hfree : s.cache.free = {})
    (hfull : s.cache.full = {}) (hsize : 0 < s.cache.size) (hcap : s.cache.capacity = 1) (page : Nat) :
    ∃ s', slabAlloc s (some page) = .ok (some (page * pageSize + slabHeaderSize), s') ∧
      s'.cache.full.firstNode = some (page * pageSize) ∧ s'.blocks = page * pageSize :: s.blocks ∧
      (s'.slabs (page * pageSize)).allocatedCount = 1 ∧
      s'.priv ((page * pageSize + slabHeaderSize) / pageSize) = some (page * pageSize) := by
  obtain ⟨next, heq, hrep, -⟩ := newSlab_eq hsize (hcap ▸ Nat.one_pos) page
  have hobjs : s.cache.objects (page * pageSize) = [page * pageSize + slabHeaderSize] := by
    simp [objects, hcap, object]
  rw [hobjs] at hrep
  have hlast : next (page * pageSize + slabHeaderSize) = none := hrep.2
  have hpage : (page * pageSize + slabHeaderSize) / pageSize = page := by
    unfold pageSize slabHeaderSize
    omega
  have hcount : 0 < order2Count s.cache.order := Nat.two_pow_pos _
  unfold slabAlloc slabPick
  simp only [hpart, hfree, heq, ok_bind, pure_eq]
  unfold slabTake
  simp only [slabMakePartial, removeFree, setSlab, addPartial,
    Function.update_self, deref_some, ok_bind, hlast, if_true, pure_eq,
    removePartial, appendFull, setNext, hfull]
  refine ⟨_, rfl, ?_, rfl, ?_, ?_⟩
  · simp
  · simp
  rw [hpage]
  exact if_pos ⟨le_rfl, by omega⟩

/-- The last object of a slab is put back: its pages are given back, the list of full slabs stays as
it is, whatever is on it. -/
theorem slabFree_last {ptr slab : Nat} (hpriv : s.priv (ptr / pageSize) = some slab)
    (hcount : (s.slabs slab).allocatedCount = 1) :
    ∃ s', slabFree s ptr = .ok s' ∧ s'.cache.full = s.cache.full ∧
      s'.blocks = s.blocks.erase slab := by
  unfold slabFree slabPut
  have hzero : (s.slabs slab).allocatedCount - 1 = 0 := by rw [hcount]; rfl
  simp only [hpriv, deref_some, ok_bind, pure_eq]
  rw [if_pos hzero]
  exact ⟨_, rfl, rfl, rfl⟩

/-- **One object in a slab.** When it has been handed out and put back, the pages of the slab are
given back and the slab is still on the list of full slabs. -/
theorem slab_one_object {cache : SlabCache} (hpart : cache.partialList = {})
    (hfree : cache.free = {}) (hfull : cache.full = {}) (hsize : 0 < cache.size)
    (hcap : cache.capacity = 1) :
    ∃ r r', slabCall cache.start (.alloc (some 1)) = .ok (some (pageSize + slabHeaderSize), r) ∧
      r.live = [pageSize + slabHeaderSize] ∧
      slabCall r (.free (pageSize + slabHeaderSize)) = .ok (none, r') ∧ ¬ r'.Sound := by
  obtain ⟨s1, halloc, hfirst, hblocks, hcount, hpriv⟩ :=
    slabAlloc_one (s := cache.start.heap) hpart hfree hfull hsize hcap 1
  rw [one_mul] at halloc hfirst hblocks hcount hpriv
  obtain ⟨s2, hput, hfull2, hblocks2⟩ := slabFree_last hpriv hcount
  refine ⟨⟨s1, [pageSize + slabHeaderSize]⟩, ⟨s2, []⟩, ?_, rfl, ?_, fun hsound => ?_⟩
  · simp only [slabCall, halloc, ok_bind]
    rfl
  · simp [slabCall, hput]
  have hoff : pageSize ∉ s2.blocks := by
    rw [hblocks2, hblocks]
    simp [start]
  refine (hsound.off_lists pageSize hoff).2.1 ⟨0, ?_⟩
  show s2.cache.full.firstNode = _
  rw [hfull2, hfirst]

end OneObject

/-! ## The sizes that work -/

/-- **All runs of a cache keep its promises exactly if two objects fit into a slab.** The runs start
from what `slab_init` sets up, in any memory. -/
theorem slab_runs_sound_iff {size : Nat} {cache : SlabCache} (hinit : slabInit size = some cache) :
    (∀ (heap : SlabHeap) (calls : List SlabCall), heap.cache = cache → heap.blocks = [] →
      CallsAll slabCall SlabCall.Proper ⟨heap, []⟩ calls →
      RunAll slabCall SlabRun.Sound ⟨heap, []⟩ calls) ↔ SlabSizeFits size := by
  constructor
  · intro hall
    obtain ⟨hfree, hpart, hfull, hsize, hone, -, htwo⟩ := slabInit_spec hinit
    by_contra hfits
    have hproper : (SlabCall.alloc (some 1)).Proper cache.start :=
      fun page _ b hb => absurd hb not_mem_nil
    by_cases hzero : cache.size = 0
    · -- the division by the size
      have hfault : slabCall cache.start (.alloc (some 1)) = .error .division := by
        simp [slabCall, slabAlloc, slabPick, newSlab, start, hpart, hfree,
          slabSetPrivate_eq, setSlab, hzero]
      obtain ⟨-, r, r', hcall, -⟩ := hall cache.start.heap [.alloc (some 1)] rfl rfl
        ⟨hproper, fun r r' hcall => trivial⟩
      rw [show (⟨cache.start.heap, []⟩ : SlabRun) = cache.start from rfl, hfault] at hcall
      cases hcall
    have hcap : cache.capacity = 1 := by grind
    obtain ⟨r, r', halloc, hlive, hput, hunsound⟩ :=
      slab_one_object hpart hfree hfull (Nat.pos_of_ne_zero hzero) hcap
    have hrun := hall cache.start.heap [.alloc (some 1), .free (pageSize + slabHeaderSize)] rfl rfl
      (.cons halloc hproper (.cons hput (by simp [SlabCall.Proper, hlive]) trivial))
    obtain ⟨-, p, r₁, h1, -, p', r₂, h2, h3⟩ := hrun
    cases halloc.symm.trans h1
    cases hput.symm.trans h2
    exact hunsound h3
  intro hfits heap calls hcache hblocks hcalls
  refine runAll_of_invariant (I := fun _ => SlabRun.Holds) (fun _ _ h => h.sound)
    (fun _ _ _ h hq => h.call hq) ?_ hcalls
  exact SlabRun.Holds.init (hcache ▸ hinit) hblocks hfits

/-- A cache for objects of 1360 bytes, with 12 objects in a slab of four pages: three objects, and
two of them put back. -/
theorem slab_runs_sound_1360 : RunAll slabCall SlabRun.Sound
    (SlabCache.start { size := 1360, order := 2 })
    [.alloc (some 4), .alloc none, .alloc none, .write 17792 (some 7), .free 16432, .free 17792] :=
  (slab_runs_sound_iff (show slabInit 1354 = some { size := 1360, order := 2 } by decide +kernel)).2
    (by decide) _ _ rfl rfl (by decide +kernel)

/-- Objects of 4048 bytes: one of them is handed out and put back, its slab is given back to the
memory manager and stays on the list of full slabs. -/
theorem slab_full_after_free :
    slabInit 4048 = some { size := 4048, order := 0 } ∧
    CallsAll slabCall SlabCall.Proper (SlabCache.start { size := 4048, order := 0 })
      [.alloc (some 1), .free 4144] ∧
    (∃ rs r, runOps slabCall (SlabCache.start { size := 4048, order := 0 })
      [.alloc (some 1), .free 4144] = .ok (rs, r) ∧ r.heap.blocks = [] ∧
      r.heap.cache.full.On r.heap.nodes 4096) ∧
    ¬ RunAll slabCall SlabRun.Sound (SlabCache.start { size := 4048, order := 0 })
      [.alloc (some 1), .free 4144] := by
  have hrun : ∃ rs r, runOps slabCall (start { size := 4048, order := 0 })
      [.alloc (some 1), .free 4144] = .ok (rs, r) ∧ r.heap.blocks = [] ∧
      r.heap.cache.full.On r.heap.nodes 4096 := ⟨_, _, rfl, rfl, 0, rfl⟩
  refine ⟨by decide +kernel, by decide +kernel, hrun, fun hall => ?_⟩
  obtain ⟨rs, r, heq, hblocks, hon⟩ := hrun
  exact ((hall.final heq).off_lists 4096 (hblocks ▸ not_mem_nil)).2.1 hon

/-! ## Memory -/

/-- Every slab has an object in use, and no other slab has it. -/
theorem SlabRun.Holds.length_blocks_le {r : SlabRun} (h : r.Holds) :
    r.heap.blocks.length ≤ r.live.length := by
  obtain ⟨⟨ps, fs, h⟩, hused⟩ := h
  choose! object hlive hobject using hused
  have hinj : ∀ a ∈ r.heap.blocks, ∀ b ∈ r.heap.blocks, object a = object b → a = b := by
    intro a ha b hb hab
    exact h.owned.object_unique h.size_pos ha hb (hobject a ha) (hab ▸ hobject b hb)
  have hnodup : (r.heap.blocks.map object).Nodup := h.owned.nodup.map_on hinj
  rw [← length_map (f := object)]
  refine hnodup.length_le_of_subset fun x hx => ?_
  obtain ⟨a, ha, rfl⟩ := mem_map.1 hx
  exact hlive a ha

/-- **A cache holds no more memory than it needs.** For the sizes that can be handled, a cache never has
more slabs than objects in use; when the last object is freed all pages have been given back. -/
theorem slab_memory_bounded {size : Nat} {heap : SlabHeap} (hinit : slabInit size = some heap.cache)
    (hfits : SlabSizeFits size) (hblocks : heap.blocks = []) {calls : List SlabCall}
    (hcalls : CallsAll slabCall SlabCall.Proper ⟨heap, []⟩ calls) :
    RunAll slabCall (fun r => r.heap.blocks.length ≤ r.live.length) ⟨heap, []⟩ calls :=
  runAll_of_invariant (I := fun _ => SlabRun.Holds) (fun _ _ h => h.length_blocks_le)
    (fun _ _ _ h hq => h.call hq) (SlabRun.Holds.init hinit hblocks hfits) hcalls

/-- Two objects are allocated and freed. -/
theorem slab_memory_bounded_1360 : RunAll slabCall (fun r => r.heap.blocks.length ≤ r.live.length)
    (SlabCache.start { size := 1360, order := 2 })
    [.alloc (some 4), .alloc none, .free 16432, .free 17792] :=
  slab_memory_bounded (show slabInit 1354 = some { size := 1360, order := 2 } by decide +kernel)
    (by decide) rfl (by decide +kernel)

end Stanix
