import Stanix.Mem.Kheap.Alloc

/-!
# Runs of the kernel heap

A run is a sequence of `kmalloc` and `kfree`, with the list of the blocks in use and the lengths
they were requested with. `KheapRun.Sound` is what holds of every state of a run, for the headers
that next pointers lead to and for the blocks in use. `kheap_run_sound` shows it for runs in which
the region stays below the kernel image. Nothing in the code sees to that: a large request puts a
header past the last address, which is where NULL is (`kmalloc_leaves_address_space`).
-/

namespace Stanix

open List Tiling

/-- A call of the heap. -/
inductive KheapCall
  | kmalloc (amount : Nat)
  | kfree (ptr : Nat)
  deriving DecidableEq

/-- The heap with the blocks in use and the lengths they were requested with. -/
structure KheapRun where
  heap : Kheap
  live : List (Nat × Nat)

/-- One call. -/
def kheapCall (r : KheapRun) : KheapCall → Exec (Option Nat × KheapRun)
  | .kmalloc amount => do
    let (ptr, heap) ← kmallocFlags r.heap amount
    return (some ptr, ⟨heap, (ptr, amount) :: r.live⟩)
  | .kfree ptr => do
    let heap ← kfree r.heap ptr
    return (none, ⟨heap, r.live.filter (·.1 ≠ ptr)⟩)

/-- Requests are of at most `2 ^ 62` bytes, and blocks in use are freed. -/
def KheapCall.Proper (r : KheapRun) : KheapCall → Prop
  | .kmalloc amount => amount ≤ 2 ^ 62
  | .kfree ptr => ptr ∈ r.live.map Prod.fst

/-- The region stays below the kernel image. -/
def KheapCall.Roomy (r : KheapRun) : KheapCall → Prop
  | .kmalloc amount => KmallocFits r.heap amount
  | .kfree _ => True

instance KheapCall.instDecidableProper (r : KheapRun) : ∀ c : KheapCall, Decidable (c.Proper r)
  | .kmalloc amount => inferInstanceAs (Decidable (amount ≤ 2 ^ 62))
  | .kfree ptr => inferInstanceAs (Decidable (ptr ∈ r.live.map Prod.fst))

instance KheapCall.instDecidableRoomy (r : KheapRun) : ∀ c : KheapCall, Decidable (c.Roomy r)
  | .kmalloc amount => inferInstanceAs (Decidable (KmallocFits r.heap amount))
  | .kfree _ => inferInstanceAs (Decidable True)

/-- The heap after `init_kheap`, in any memory. -/
def KheapRun.start (mem : Nat → HeapSegment) : KheapRun := ⟨initKheap mem, []⟩

/-- A pointer of the code. -/
def nullable (p : Nat) : Option Nat := if p = 0 then none else some p

/-- What holds of the headers `as` and of the blocks in use. -/
structure KheapRun.SoundWith (r : KheapRun) (as : List Nat) : Prop where
  /-- They are those that next pointers lead to. -/
  reached : Sll.Rep (fun a => nullable (r.heap.mem a).next) (nullable r.heap.firstSeg) as
  /-- The segments start where the region does, follow each other without gap, and end with it. -/
  first : as.head? = some r.heap.start
  tiled : as.IsChain fun a b => a + heapSegmentSize + (r.heap.mem a).length = b
  last : ∀ a ∈ as.getLast?,
    a + heapSegmentSize + (r.heap.mem a).length = r.heap.start + r.heap.length
  space : r.heap.start + r.heap.length ≤ memKernelStart
  /-- Links are mutual. -/
  prev_first : ∀ a ∈ as.head?, (r.heap.mem a).prev = 0
  linked : as.IsChain fun a b => (r.heap.mem a).next = b ∧ (r.heap.mem b).prev = a
  aligned : ∀ a ∈ as, a % 16 = 0
  coalesced : as.IsChain fun a b =>
    ¬ ((r.heap.mem a).magic = heapSegMagicFree ∧ (r.heap.mem b).magic = heapSegMagicFree)
  /-- A block in use is that of an allocated segment of at least the requested length. -/
  block : ∀ x ∈ r.live, ∃ a ∈ as, x.1 = a + heapSegmentSize ∧
    (r.heap.mem a).magic = heapSegMagicAllocated ∧ x.2 ≤ (r.heap.mem a).length
  /-- It overlaps no other block in use, whose header comes first, and no header. -/
  apart : r.live.Pairwise fun x y =>
    x.1 + (r.heap.mem (x.1 - heapSegmentSize)).length + heapSegmentSize ≤ y.1 ∨
      y.1 + (r.heap.mem (y.1 - heapSegmentSize)).length + heapSegmentSize ≤ x.1
  off_headers : ∀ x ∈ r.live, ∀ a ∈ as,
    x.1 + (r.heap.mem (x.1 - heapSegmentSize)).length ≤ a ∨ a + heapSegmentSize ≤ x.1

/-- **What the heap promises.** -/
def KheapRun.Sound (r : KheapRun) : Prop := ∃ as, r.SoundWith as

/-- The invariant of a run. -/
structure KheapRun.HoldsWith (r : KheapRun) (cs : List Piece) : Prop where
  rep : r.heap.Rep cs
  coalesced : Coalesced cs
  block : ∀ x ∈ r.live, ∃ a len, x.1 = a + heapSegmentSize ∧ x.2 ≤ len ∧
    (a, len) ∈ usedFrom heapSegmentSize r.heap.start cs
  nodup : (r.live.map Prod.fst).Nodup

namespace KheapRun.HoldsWith

variable {r : KheapRun} {cs : List Piece}

theorem reached {mem : Nat → HeapSegment} {prev p : Nat} (hp : 0 < p)
    (h : Walk heapSegmentSize (HeapHeader mem) prev p cs 0) (hcs : cs ≠ []) :
    Sll.Rep (fun a => nullable (mem a).next) (nullable p) (addrs heapSegmentSize p cs) := by
  induction cs generalizing prev p with
  | nil => exact absurd rfl hcs
  | cons c cs ih => ?_
  obtain ⟨hc, hwalk⟩ := h
  refine ⟨if_neg hp.ne', ?_⟩
  unfold HeapHeader at hc
  simp only [hc]
  cases cs with
  | nil => exact rfl
  | cons d cs =>
    rw [if_neg (cons_ne_nil d cs)]
    exact ih (by omega) hwalk (cons_ne_nil d cs)

theorem mem_of_used (h : r.heap.Rep cs) {x : Nat × Nat}
    (hx : x ∈ usedFrom heapSegmentSize r.heap.start cs) :
    x.1 ∈ addrs heapSegmentSize r.heap.start cs ∧
      (r.heap.mem x.1).magic = heapSegMagicAllocated ∧ (r.heap.mem x.1).length = x.2 := by
  obtain ⟨l, c, t, rfl, hused, rfl⟩ := exists_of_mem_usedFrom hx
  have hmem := h.mem_eq
  unfold Kheap.addr at hmem
  refine ⟨?_, ?_, ?_⟩
  · rw [addrs_append]
    exact mem_append_right _ mem_cons_self
  · rw [hmem, hused]
    rfl
  rw [hmem]

/-- The invariant implies what the heap promises. -/
theorem sound (h : r.HoldsWith cs) : r.Sound := by
  have hrep := h.rep
  refine ⟨addrs heapSegmentSize r.heap.start cs, ?_, ?_, ?_, ?_, hrep.fits, ?_, ?_, ?_, ?_, ?_, ?_,
    ?_⟩
  · rw [hrep.first]
    exact reached hrep.pos hrep.walk hrep.ne_nil
  · obtain ⟨c, t, rfl⟩ := exists_cons_of_ne_nil hrep.ne_nil
    rfl
  · refine hrep.walk.isChain h.coalesced fun a b c d n _ hc _ => ?_
    rw [show r.heap.mem a = _ from hc, add_assoc]
  · intro a ha
    obtain ⟨c, b, hc, heq⟩ := hrep.walk.last ha
    rw [show r.heap.mem a = _ from hc, hrep.length, ← heq, add_assoc]
  · intro a ha
    obtain ⟨c, t, rfl⟩ := exists_cons_of_ne_nil hrep.ne_nil
    cases ha
    rw [show r.heap.mem r.heap.start = _ from hrep.walk.1]
  · refine hrep.walk.isChain h.coalesced fun a b c d n _ hc hd => ⟨?_, ?_⟩
    · rw [show r.heap.mem a = _ from hc]
    rw [show r.heap.mem (a + (heapSegmentSize + c.len)) = _ from hd]
  · intro a ha
    obtain ⟨l, c, t, rfl, rfl⟩ := exists_of_mem_addrs ha
    have hmod := Kheap.Rep.extent_mod fun d hd => hrep.mod d (mem_append_left _ hd)
    have hstart := hrep.start_mod
    omega
  · refine hrep.walk.isChain h.coalesced fun a b c d n hor hc hd hboth => ?_
    rw [show r.heap.mem a = _ from hc,
      show r.heap.mem (a + (heapSegmentSize + c.len)) = _ from hd] at hboth
    simp only [heapSegMagic_eq_free] at hboth
    simp [hboth.1, hboth.2] at hor
  · intro x hx
    obtain ⟨a, len, hxa, hle, hmem⟩ := h.block x hx
    obtain ⟨ha, hmagic, hlen⟩ := mem_of_used hrep hmem
    exact ⟨a, ha, hxa, hmagic, hle.trans hlen.ge⟩
  · refine (pairwise_map.1 h.nodup).imp_of_mem fun {x y} hx hy hne => ?_
    obtain ⟨a, len, hxa, -, ha⟩ := h.block x hx
    obtain ⟨b, len', hyb, -, hb⟩ := h.block y hy
    have hapart := usedFrom_apart ha hb fun heq => hne (by rw [hxa, hyb, (Prod.mk.inj heq).1])
    rw [hxa, hyb, Nat.add_sub_cancel, Nat.add_sub_cancel, (mem_of_used hrep ha).2.2,
      (mem_of_used hrep hb).2.2]
    omega
  intro x hx b hb
  obtain ⟨a, len, hxa, -, ha⟩ := h.block x hx
  have hapart := header_apart ha hb
  rw [hxa, Nat.add_sub_cancel, (mem_of_used hrep ha).2.2]
  omega

/-- The heap after `init_kheap` is one free segment. -/
theorem start (mem : Nat → HeapSegment) :
    (KheapRun.start mem).HoldsWith [⟨pageSize - heapSegmentSize, false⟩] := by
  have hstart : (KheapRun.start mem).heap.start = memKheapStart := rfl
  have hlength : (KheapRun.start mem).heap.length = pageSize := rfl
  refine ⟨⟨?_, ?_, rfl, cons_ne_nil _ _, rfl, ⟨?_, trivial⟩, ?_, ?_, ?_⟩,
    isChain_singleton _, ?_, nodup_nil⟩
  · rw [hstart]
    decide
  · rw [hstart]
    decide
  · rfl
  · intro c hc
    rw [mem_singleton.1 hc]
    decide
  · intro c hc
    cases hc
    decide
  · rw [hstart, hlength]
    decide
  exact fun x hx => absurd hx not_mem_nil

/-- `kmalloc` keeps the invariant. -/
theorem kmalloc (h : r.HoldsWith cs) {amount : Nat} (hamount : amount ≤ 2 ^ 62)
    (hfits : KmallocFits r.heap amount) :
    ∃ p r' cs', kheapCall r (.kmalloc amount) = .ok (p, r') ∧ r'.HoldsWith cs' := by
  obtain ⟨s', cs', a, len, used1, used2, hcall, hrep, hco, hstart, hle, hused, hused'⟩ :=
    h.rep.kmalloc h.coalesced hamount hfits
  have hsub : ∀ {x}, x ∈ usedFrom heapSegmentSize r.heap.start cs →
      x ∈ usedFrom heapSegmentSize r.heap.start cs' := by
    intro x hx
    rw [hused, mem_append] at hx
    rw [hused', mem_append, mem_cons]
    exact hx.imp_right .inr
  -- the block is none of those in use: the pieces in use are apart
  have hnew : a + heapSegmentSize ∉ r.live.map Prod.fst := by
    intro hmem
    obtain ⟨x, hx, hxa⟩ := mem_map.1 hmem
    obtain ⟨b, len', hxb, -, hb⟩ := h.block x hx
    have hpair := hused' ▸ usedFrom_pairwise
    obtain ⟨-, hright, hleft⟩ := pairwise_append.1 hpair
    rw [hused, mem_append] at hb
    rcases hb with hb | hb
    · have := hleft _ hb _ mem_cons_self
      simp only [heapSegmentSize] at this
      omega
    have := (pairwise_cons.1 hright).1 _ hb
    simp only [heapSegmentSize] at this
    omega
  refine ⟨some (a + heapSegmentSize), ⟨s', (a + heapSegmentSize, amount) :: r.live⟩, cs', ?_, hrep,
    hco, ?_, ?_⟩
  · simp [kheapCall, hcall]
  · intro x hx
    rw [hstart]
    rcases mem_cons.1 hx with rfl | hx
    · refine ⟨a, len, rfl, hle, ?_⟩
      rw [hused']
      simp
    obtain ⟨b, len', hxb, hle', hb⟩ := h.block x hx
    exact ⟨b, len', hxb, hle', hsub hb⟩
  exact nodup_cons.2 ⟨hnew, h.nodup⟩

/-- `kfree` of a block in use keeps the invariant. -/
theorem kfree (h : r.HoldsWith cs) {ptr : Nat} (hptr : ptr ∈ r.live.map Prod.fst) :
    ∃ p r' cs', kheapCall r (.kfree ptr) = .ok (p, r') ∧ r'.HoldsWith cs' := by
  obtain ⟨x, hx, rfl⟩ := mem_map.1 hptr
  obtain ⟨a, len, hxa, -, ha⟩ := h.block x hx
  obtain ⟨l, c, t, rfl, hused, heq⟩ := exists_of_mem_usedFrom ha
  obtain ⟨rfl, rfl⟩ := Prod.mk.inj heq
  obtain ⟨s', cs', hcall, hrep, hco, hstart, hused'⟩ := h.rep.kfree h.coalesced hused
  refine ⟨none, ⟨s', r.live.filter (·.1 ≠ x.1)⟩, cs', ?_, hrep, hco, ?_, ?_⟩
  · unfold Kheap.addr at hcall
    simp [kheapCall, hxa, hcall]
  · intro y hy
    rw [mem_filter] at hy
    obtain ⟨b, len', hyb, hle, hb⟩ := h.block y hy.1
    refine ⟨b, len', hyb, hle, ?_⟩
    rw [hstart, hused', mem_append]
    rw [usedFrom_append, usedFrom, mem_append, mem_append] at hb
    rcases hb with hb | hb | hb
    · exact .inl hb
    · grind
    right
    rw [Kheap.addr_concat]
    exact hb
  exact h.nodup.sublist (filter_sublist.map Prod.fst)

end KheapRun.HoldsWith

/-- **The kernel heap stays sound** in every run in which the region stays below the kernel image.
-/
theorem kheap_run_sound {mem : Nat → HeapSegment} {calls : List KheapCall}
    (hcalls : CallsAll kheapCall (fun r c => c.Proper r ∧ c.Roomy r) (KheapRun.start mem) calls) :
    RunAll kheapCall KheapRun.Sound (KheapRun.start mem) calls := by
  refine runAll_of_invariant (I := fun _ r => ∃ cs, r.HoldsWith cs) (fun _ r ⟨cs, h⟩ => h.sound)
    ?_ ⟨_, KheapRun.HoldsWith.start mem⟩ hcalls
  rintro _ r c ⟨cs, h⟩ ⟨hproper, hroomy⟩
  cases c with
  | kmalloc amount =>
    obtain ⟨p, r', cs', hcall, h'⟩ := h.kmalloc hproper hroomy
    exact ⟨p, r', hcall, cs', h'⟩
  | kfree ptr =>
    obtain ⟨p, r', cs', hcall, h'⟩ := h.kfree hproper
    exact ⟨p, r', hcall, cs', h'⟩

/-- Three requests, the second of which makes the heap grow; then all blocks are freed, the middle
one last. -/
theorem kheap_run_sound_three : RunAll kheapCall KheapRun.Sound (KheapRun.start fun _ => ⟨0, 0, 0, 0⟩)
    [.kmalloc 100, .kmalloc 8000, .kmalloc 0, .kfree (memKheapStart + 32),
      .kfree (memKheapStart + 8208), .kfree (memKheapStart + 176)] :=
  kheap_run_sound (by decide +kernel)

/-- A request of 32 bytes less than lie between the start of the heap and the end of the address
space: the header of the rest is written at NULL. -/
theorem kmalloc_leaves_address_space :
    CallsAll kheapCall KheapCall.Proper (KheapRun.start fun _ => ⟨0, 0, 0, 0⟩)
      [.kmalloc (0x18000000000 - 32)] ∧
    kmallocFlags (initKheap fun _ => ⟨0, 0, 0, 0⟩) (0x18000000000 - 32) = .error .null ∧
    ¬ RunAll kheapCall KheapRun.Sound (KheapRun.start fun _ => ⟨0, 0, 0, 0⟩)
      [.kmalloc (0x18000000000 - 32)] := by
  have hfault : kmallocFlags (initKheap fun _ => ⟨0, 0, 0, 0⟩) (0x18000000000 - 32) =
      .error .null := by
    rfl
  refine ⟨⟨by decide, fun _ _ _ => trivial⟩, hfault, fun hall => ?_⟩
  obtain ⟨-, p, r, hcall, -⟩ := hall
  cases hcall

end Stanix
