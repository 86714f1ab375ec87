import Stanix.Mem.Vmm.ClonePages

/-!
# What a clone makes of the page tables

`vmm_clone` over the page tables of `paging.c`, for a parent whose segments are in the lower half of
the address space. A clone that returns is exact (`cloneRun_spec`); it returns, given enough memory,
if and only if `mmu_create_next_entry_and_acquire_lock` recognises two pages of one table wherever
they follow each other (`vmm_clone_exact`). Two pages of a segment that are four megabytes apart,
with nothing between them, are enough for it to write to a page that is no page table and then to
stop at an assertion.
-/

namespace Stanix

open PhysMem VmmSeg List PageTable Exec

namespace Vmm

variable {D : VmmDrivers PhysMem Nat} {s s' : Vmm PhysMem Nat} {parent child k new : Nat}
  {ps vs cs cs' : List Nat} {seg : Nat → VmmSeg} {x u v : Nat}

/-! ## Segments of a list -/

/-- The segment that a page is in, among those of a list. -/
def segAt (seg : Nat → VmmSeg) (vs : List Nat) (u : Nat) : Option VmmSeg :=
  vs.findSome? fun x => PhysMem.pagesOf (seg x) u

theorem segAt_congr {seg' : Nat → VmmSeg} (h : ∀ x ∈ vs, (seg' x).core = (seg x).core) :
    segAt seg' vs = segAt seg vs := by
  funext u
  unfold segAt
  induction vs with
  | nil => rfl
  | cons x vs ih =>
    have hx := h x mem_cons_self
    rw [List.findSome?_cons, List.findSome?_cons, ih fun y hy => h y (mem_cons_of_mem x hy),
      PhysMem.pagesOf, core_start hx, core_stop hx, hx, PhysMem.pagesOf]

theorem Sorted.segAt_mem (h : Sorted seg vs) (hx : x ∈ vs)
    (hu : (seg x).start ≤ u * pageSize ∧ u * pageSize < (seg x).stop) :
    segAt seg vs u = some (seg x).core := by
  have hother (y : Nat) (hy : y ∈ vs) (hyx : y ≠ x) : PhysMem.pagesOf (seg y) u = none := by
    have := h.disjoint hx hy hyx.symm
    rw [PhysMem.pagesOf, if_neg]
    omega
  unfold segAt
  clear h
  induction vs with
  | nil => cases hx
  | cons y vs ih => ?_
  rw [List.findSome?_cons]
  by_cases hyx : y = x
  · rw [hyx, PhysMem.pagesOf, if_pos hu]
  rw [hother y mem_cons_self hyx]
  exact ih (mem_of_ne_of_mem (Ne.symm hyx) hx) fun z hz => hother z (mem_cons_of_mem y hz)

theorem segAt_eq_none : segAt seg vs u = none ↔
    ∀ x ∈ vs, ¬ ((seg x).start ≤ u * pageSize ∧ u * pageSize < (seg x).stop) := by
  rw [segAt, List.findSome?_eq_none_iff]
  refine forall₂_congr fun x _ => ?_
  rw [PhysMem.pagesOf]
  split <;> simp_all

/-! ## The loop over the segments -/

/-- How many pages of segments are present. -/
def pagesIn (s : Vmm PhysMem Nat) (sp : Nat) (vs : List Nat) : Nat :=
  (vs.map fun x => s.mem.presentIn (s.space sp).addrspace ((s.seg x).start / pageSize)
    ((s.seg x).stop / pageSize)).sum

/-- In each segment, the test by which two pages of one table are recognised is right about the pages
that are present. -/
def ChainedIn (s : Vmm PhysMem Nat) (sp : Nat) (vs : List Nat) : Prop :=
  ∀ x ∈ vs, s.mem.Chained (s.space sp).addrspace ((s.seg x).start / pageSize)
    ((s.seg x).stop / pageSize)

/-- The segments are in the lower half of the address space. -/
def Low (seg : Nat → VmmSeg) (ps : List Nat) : Prop := ∀ x ∈ ps, (seg x).stop ≤ 2 ^ 47

theorem Low.pages (h : Low seg ps) (hx : x ∈ ps) : (seg x).stop / pageSize ≤ lowPages := by
  have := h x hx
  simp only [pageSize, lowPages]
  omega

theorem pagesIn_cons (v : Nat) : s.pagesIn parent (v :: vs) =
    s.pagesIn parent [v] + s.pagesIn parent vs := by
  simp [pagesIn]

/-- What the loop needs of the segments, the page tables and the reference counts. -/
structure Clonable (s : Vmm PhysMem Nat) (parent child : Nat) (ps vs : List Nat) : Prop where
  paged : Paged s.seg ps
  low : Low s.seg ps
  pair : s.mem.Pair (s.space parent).addrspace (s.space child).addrspace none
  room : s.mem.Room (s.pagesIn parent vs)

theorem CloneStep.core_of_mem (hstep : CloneStep paging D parent child ps v new s cs s')
    (hP : s.Holds parent ps) (hx : x ∈ ps) : (s'.seg x).core = (s.seg x).core :=
  hstep.core x (ne_of_mem_of_not_mem (hP.live x hx) hstep.fresh)

/-- **One segment.** Its pages are cloned, and the segments that are left have the pages that they
had. -/
theorem CloneStep.next (hdup : ∀ ops seg mem, D.dup ops seg mem = .ok mem)
    (hstep : CloneStep paging D parent child ps v new s cs s') (hne : parent ≠ child)
    (hl : CloneLists s parent child ps cs (v :: vs)) (h : s.Clonable parent child ps (v :: vs)) :
    s.mem.Chained (s.space parent).addrspace ((s.seg v).start / pageSize)
        ((s.seg v).stop / pageSize) ∧
      PhysMem.Clones s.mem s'.mem (s.space parent).addrspace (s.space child).addrspace
        (PhysMem.pagesOf (s.seg v)) ∧
      s'.Clonable parent child ps vs ∧ s'.pagesIn parent vs = s.pagesIn parent vs ∧
      (s'.ChainedIn parent vs ↔ s.ChainedIn parent vs) := by
  obtain ⟨seg, newSeg, hcore, hpages⟩ := hstep.pages
  obtain ⟨hstart, hstop, -⟩ := h.paged.pages hstep.mem
  have hroom := h.room
  rw [pagesIn_cons, add_comm] at hroom
  obtain ⟨hchained, hclones, hroom'⟩ := clonePages_spec h.pair
    ((core_start hcore).trans hstart) ((core_stop hcore).trans hstop)
    (Nat.div_le_div_right (hl.parent.nonempty v hstep.mem).le) (h.low.pages hstep.mem)
    (by simpa [pagesIn] using hroom) hdup hpages
  have hsame : PhysMem.pagesOf seg = PhysMem.pagesOf (s.seg v) := by
    funext u
    rw [PhysMem.pagesOf, core_start hcore, core_stop hcore, hcore, PhysMem.pagesOf]
  rw [hsame] at hclones
  obtain ⟨done, hps⟩ := hl.rest
  have hvs : vs ⊆ ps := fun x hx => by rw [hps]; simp [hx]
  have hstart (x : Nat) (hx : x ∈ ps) := core_start (hstep.core_of_mem hl.parent hx)
  have hstop (x : Nat) (hx : x ∈ ps) := core_stop (hstep.core_of_mem hl.parent hx)
  have hcount : s'.pagesIn parent vs = s.pagesIn parent vs := by
    unfold pagesIn
    rw [hstep.space parent hne]
    congr 1
    refine map_congr_left fun x hx => ?_
    rw [hstart x (hvs hx), hstop x (hvs hx)]
    exact presentIn_congr (h.low.pages (hvs hx)) hclones.present
  refine ⟨hchained, hclones, ⟨h.paged.congr (fun _ hx => hx) fun x hx => ⟨hstart x hx, hstop x hx⟩,
    fun x hx => ?_, ?_, hcount ▸ hroom'⟩, hcount, ?_⟩
  · rw [hstop x hx]
    exact h.low x hx
  · rw [hstep.space parent hne, hstep.addrspace]
    exact hclones.pair
  unfold ChainedIn
  rw [hstep.space parent hne]
  refine forall₂_congr fun x hx => ?_
  rw [hstart x (hvs hx), hstop x (hvs hx)]
  exact ⟨fun hc => hc.congr (h.low.pages (hvs hx)) fun u hu => (hclones.present u hu).symm,
    fun hc => hc.congr (h.low.pages (hvs hx)) hclones.present⟩

theorem CloneLists.pagesOf_disjoint (h : CloneLists s parent child ps cs (v :: vs)) (u : Nat) :
    PhysMem.pagesOf (s.seg v) u = none ∨ segAt s.seg vs u = none := by
  obtain ⟨done, hps⟩ := h.rest
  have hsorted := h.parent.sorted
  rw [hps] at hsorted
  have hbefore := (pairwise_cons.1 (pairwise_append.1 hsorted).2.1).1
  by_cases hu : (s.seg v).start ≤ u * pageSize ∧ u * pageSize < (s.seg v).stop
  · refine .inr (segAt_eq_none.2 fun x hx hux => ?_)
    have := hbefore x hx
    omega
  exact .inl (if_neg hu)

/-- **The loop of `vmm_clone`**: segments that have been cloned had their pages where the test is right,
and all their pages are cloned. -/
theorem cloneRun_spec (hdup : ∀ ops seg mem, D.dup ops seg mem = .ok mem)
    (h : CloneRun paging D parent child ps vs s cs s' cs') :
    parent ≠ child → CloneLists s parent child ps cs vs → s.Clonable parent child ps vs →
      s.ChainedIn parent vs ∧ PhysMem.Clones s.mem s'.mem (s.space parent).addrspace
        (s.space child).addrspace (segAt s.seg vs) := by
  induction h with
  | nil =>
    intro _ _ h
    exact ⟨fun x hx => absurd hx not_mem_nil, .refl h.pair⟩
  | @cons v new vs cs cs' s s1 s' hstep hrun ih => ?_
  intro hne hl h
  obtain ⟨hchained, hclones, h1, -, hchain⟩ := hstep.next hdup hne hl h
  obtain ⟨hchained', hclones'⟩ := ih hne (hstep.lists hl) h1
  obtain ⟨done, hps⟩ := hl.rest
  rw [hstep.space parent hne, hstep.addrspace, segAt_congr fun x hx =>
    hstep.core_of_mem hl.parent (by rw [hps]; simp [hx])] at hclones'
  refine ⟨forall_mem_cons.2 ⟨hchained, hchain.1 hchained'⟩, ?_⟩
  have hsegs : segAt s.seg (v :: vs) =
      fun u => (PhysMem.pagesOf (s.seg v) u).or (segAt s.seg vs u) := by
    funext u
    rw [segAt, List.findSome?_cons]
    cases PhysMem.pagesOf (s.seg v) u <;> rfl
  rw [hsegs]
  exact hclones.trans hclones' hl.pagesOf_disjoint

/-! ## Enough memory -/

/-- The slab will answer with at least `k` objects that are free, one after the other. -/
def SlabSupplies (s : Vmm PhysMem Nat) (k : Nat) : Prop :=
  ∃ (news : List Nat) (rest : List (Option Nat)), s.slab = news.map some ++ rest ∧ k ≤ news.length ∧
    news.Nodup ∧ ∀ new ∈ news, new ∉ s.live

/-- There is memory for the segments and page tables of a clone. -/
def CloneSupplies (s : Vmm PhysMem Nat) (parent : Nat) (vs : List Nat) : Prop :=
  s.SlabSupplies vs.length ∧ s.mem.Supplies (3 * s.pagesIn parent vs)

theorem SlabSupplies.succ (h : s.SlabSupplies (k + 1)) : ∃ new slab, s.slab = some new :: slab ∧
    new ∉ s.live ∧ ∀ s' : Vmm PhysMem Nat, s'.slab = slab → s'.live = insert new s.live →
      s'.SlabSupplies k := by
  obtain ⟨_ | ⟨new, news⟩, rest, hslab, hlen, hnd, hfresh⟩ := h
  · exact absurd hlen (Nat.not_succ_le_zero k)
  obtain ⟨hnew, hnd⟩ := nodup_cons.1 hnd
  refine ⟨new, news.map some ++ rest, hslab, hfresh new mem_cons_self, fun s' hs hl =>
    ⟨news, rest, hs, Nat.le_of_succ_le_succ hlen, hnd, fun x hx => ?_⟩⟩
  rw [hl, Finset.mem_insert, not_or]
  exact ⟨ne_of_mem_of_not_mem hx hnew, hfresh x (mem_cons_of_mem new hx)⟩

/-- What a clone needs to go on with the segments that are left. -/
structure CanClone (s : Vmm PhysMem Nat) (parent child : Nat) (ps vs : List Nat) : Prop where
  paged : Paged s.seg ps
  low : Low s.seg ps
  pair : s.mem.Pair (s.space parent).addrspace (s.space child).addrspace none
  room : s.mem.Room (s.pagesIn parent vs)
  chained : s.ChainedIn parent vs
  supplies : s.CloneSupplies parent vs

/-- **A round of the loop**, with enough memory. -/
theorem CanClone.step (hdup : ∀ ops seg mem, D.dup ops seg mem = .ok mem) (hne : parent ≠ child)
    (hl : CloneLists s parent child ps cs (v :: vs)) (h : s.CanClone parent child ps (v :: vs)) :
    ∃ s', vmmCloneSeg paging D s parent child v = .ok (none, s') ∧
      ∀ new, CloneStep paging D parent child ps v new s cs s' → s'.CanClone parent child ps vs := by
  obtain ⟨done, hps⟩ := hl.rest
  have hv : v ∈ ps := by rw [hps]; simp
  obtain ⟨hstart, hstop, -⟩ := h.paged.pages hv
  have hone : s.pagesIn parent [v] = s.mem.presentIn (s.space parent).addrspace
      ((s.seg v).start / pageSize) ((s.seg v).stop / pageSize) := by simp [pagesIn]
  have hroom := h.room
  obtain ⟨hslab, hsup⟩ := h.supplies
  rw [pagesIn_cons] at hroom hsup
  rw [mul_add, add_comm] at hsup
  obtain ⟨new, slab, hs, hfresh, hnext⟩ := hslab.succ
  obtain ⟨s', hrun, hslab', hlive', hsup'⟩ := cloneSeg_total hl.parent hl.child hv
    (fun c hc => hl.last c hc v mem_cons_self) hs hfresh
    fun seg newSeg hcore =>
      clonePages_total h.pair ((core_start hcore).trans hstart)
        ((core_stop hcore).trans hstop) (Nat.div_le_div_right (hl.parent.nonempty v hv).le)
        (h.low.pages hv) (h.chained v mem_cons_self)
        (hone ▸ hroom.mono (Nat.le_add_right ..)) hsup hdup newSeg
  refine ⟨s', hrun, fun new' hstep => ?_⟩
  obtain ⟨-, -, h1, hcount, hchain⟩ := hstep.next hdup hne hl { h with }
  exact { h1 with
    chained := hchain.2 fun x hx => h.chained x (mem_cons_of_mem v hx)
    supplies := ⟨hnext s' hslab' hlive', hcount ▸ hsup'⟩ }

/-! ## A clone -/

/-- A parent with its segments in the lower half of the address space and a child without segments or
pages there; no page table is locked, no reference count comes near its largest value, and the
drivers have nothing to do when a segment is cloned. -/
structure CloneSetup (D : VmmDrivers PhysMem Nat) (s : Vmm PhysMem Nat) (parent child : Nat)
    (ps : List Nat) : Prop where
  ne : parent ≠ child
  parentHolds : s.Holds parent ps
  childHolds : s.Holds child []
  paged : Paged s.seg ps
  low : Low s.seg ps
  pair : s.mem.Pair (s.space parent).addrspace (s.space child).addrspace none
  empty : ∀ u < lowPages, ¬ Present (leaf s.mem.word 3 (s.space child).addrspace u)
  room : s.mem.Room (s.pagesIn parent ps)
  dup : ∀ ops seg mem, D.dup ops seg mem = .ok mem

/-- **What a clone should do to the page tables.** The child has the pages of the parent in its segments,
at the same frames; the parent keeps its pages; entries of other pages are as before in both spaces;
and no page in use that is not a table of one of the two spaces is written. -/
structure CloneExact (s s' : Vmm PhysMem Nat) (parent child : Nat) (ps : List Nat) : Prop where
  maps : ∀ x ∈ ps, ∀ a, (s.seg x).start ≤ a → a < (s.seg x).stop →
    mmuSpaceVirt2phys s'.mem (s.space child).addrspace a =
      mmuSpaceVirt2phys s.mem (s.space parent).addrspace a
  keeps : ∀ a < 2 ^ 47, mmuSpaceVirt2phys s'.mem (s.space parent).addrspace a =
    mmuSpaceVirt2phys s.mem (s.space parent).addrspace a
  others : ∀ u < lowPages, (∀ x ∈ ps, ¬ ((s.seg x).start ≤ u * pageSize ∧
      u * pageSize < (s.seg x).stop)) →
    leaf s'.mem.word 3 (s.space parent).addrspace u = leaf s.mem.word 3 (s.space parent).addrspace u ∧
    leaf s'.mem.word 3 (s.space child).addrspace u = leaf s.mem.word 3 (s.space child).addrspace u
  writes : ∀ a, s.mem.refCount (pageAlignDown a) ≠ 0 →
    pageAlignDown a ∉ tables s.mem.word 256 3 (s.space parent).addrspace →
    pageAlignDown a ∉ tables s.mem.word 256 3 (s.space child).addrspace →
    s'.mem.word a = s.mem.word a

/-- The pages that are present in a segment can be cloned: the test by which two pages of one table are
recognised is right about them, and their segment's protection has the present flag. -/
def CloneSafe (s : Vmm PhysMem Nat) (parent : Nat) (ps : List Nat) : Prop :=
  s.ChainedIn parent ps ∧ ∀ x ∈ ps, HasFlag (s.seg x).prot mmuFlagPresent ∨
    ∀ u, (s.seg x).start / pageSize ≤ u → u < (s.seg x).stop / pageSize →
      ¬ Present (leaf s.mem.word 3 (s.space parent).addrspace u)

theorem mmuSpaceVirt2phys_leaf (m : PhysMem) (root a : Nat) : mmuSpaceVirt2phys m root a =
    if Present (leaf m.word 3 root (a / pageSize)) then
      some (entryAddress (leaf m.word 3 root (a / pageSize)) + a % pageSize)
    else none := by
  rw [mmuSpaceVirt2phys_eq, mapping_eq, entryMapping, mmuEntryValGetPage]
  split <;> rfl

theorem cloneProt_present (seg : VmmSeg) :
    HasFlag (cloneProt seg) mmuFlagPresent ↔ HasFlag seg.prot mmuFlagPresent := by
  unfold cloneProt
  split
  · exact hasFlag_and_of_subset (by decide)
  exact Iff.rfl

theorem sized_pagesIn : (s.sized parent child).pagesIn parent ps = s.pagesIn parent ps := by
  unfold pagesIn
  rw [sized_addrspace]
  rfl

namespace CloneSetup

variable (h : CloneSetup D s parent child ps) {x a : Nat}
include h

theorem page (hx : x ∈ ps) (hlo : (s.seg x).start ≤ a) (hhi : a < (s.seg x).stop) :
    a / pageSize < lowPages ∧ (s.seg x).start ≤ a / pageSize * pageSize ∧
      a / pageSize * pageSize < (s.seg x).stop := by
  have h1 := h.paged.start x hx
  have h2 := h.low x hx
  simp only [pageSize, lowPages] at *
  omega

theorem clonable : (s.sized parent child).Clonable parent child ps ps where
  paged := h.paged
  low := h.low
  pair := by
    rw [sized_addrspace, sized_addrspace]
    exact h.pair
  room := by
    rw [sized_pagesIn]
    exact h.room

theorem clones (hrun : vmmClone paging D s parent child = .ok (none, s')) :
    s.ChainedIn parent ps ∧ PhysMem.Clones s.mem s'.mem (s.space parent).addrspace
      (s.space child).addrspace (segAt s.seg ps) := by
  obtain ⟨vs1, vs2, s1, cs1, hps, hclone, -, hend⟩ :=
    clone_spec h.parentHolds h.childHolds h.ne hrun
  rcases hend with ⟨-, rfl, rfl⟩ | ⟨err, _, _, herr, -⟩
  · rw [append_nil] at hps
    subst hps
    have hlists := CloneLists.start h.parentHolds h.childHolds
    obtain ⟨hchained, hclones⟩ := cloneRun_spec h.dup hclone h.ne hlists h.clonable
    rw [sized_addrspace, sized_addrspace] at hclones
    refine ⟨fun x hx => ?_, hclones⟩
    have := hchained x hx
    rw [sized_addrspace] at this
    exact this
  cases herr

theorem childLeaf (hx : x ∈ ps) (hlo : (s.seg x).start ≤ a) (hhi : a < (s.seg x).stop)
    (hclones : PhysMem.Clones s.mem s'.mem (s.space parent).addrspace (s.space child).addrspace
      (segAt s.seg ps)) : leaf s'.mem.word 3 (s.space child).addrspace (a / pageSize) =
      clonedChild (s.seg x) (leaf s.mem.word 3 (s.space parent).addrspace (a / pageSize))
        (leaf s.mem.word 3 (s.space child).addrspace (a / pageSize)) := by
  obtain ⟨hu, hin⟩ := h.page hx hlo hhi
  rw [hclones.child _ hu, h.parentHolds.segAt_mem hx hin]
  rfl

/-- A clone that succeeds is exact, if the protections have the present flag. -/
theorem exact (hrun : vmmClone paging D s parent child = .ok (none, s'))
    (hsafe : s.CloneSafe parent ps) : CloneExact s s' parent child ps := by
  obtain ⟨-, hclones⟩ := h.clones hrun
  refine ⟨fun x hx a hlo hhi => ?_, fun a ha => ?_, fun u hu hout => ?_, hclones.word⟩
  · obtain ⟨hu, hstart, hstop⟩ := h.page hx hlo hhi
    rw [mmuSpaceVirt2phys_leaf, mmuSpaceVirt2phys_leaf, h.childLeaf hx hlo hhi hclones, clonedChild]
    by_cases hp : Present (leaf s.mem.word 3 (s.space parent).addrspace (a / pageSize))
    · have hprot : HasFlag (s.seg x).prot mmuFlagPresent := by
        refine (hsafe.2 x hx).resolve_right fun hnone => hnone (a / pageSize) ?_ ?_ hp
        · exact Nat.div_le_div_right hlo
        exact Nat.div_lt_of_lt_mul (by
          rw [mul_comm, ← (h.paged.pages hx).2.1]
          exact hhi)
      obtain ⟨h1, h2⟩ :=
        entryAddress_spec (leaf s.mem.word 3 (s.space parent).addrspace (a / pageSize))
      rw [if_pos hp, if_pos hp, if_pos (present_mapValue.2 ((cloneProt_present _).2 hprot)),
        entryAddress_mapValue h1 h2]
    rw [if_neg hp, if_neg hp, if_neg (h.empty _ hu)]
  · have hu : a / pageSize < lowPages := by
      simp only [pageSize, lowPages]
      omega
    rw [mmuSpaceVirt2phys_leaf, mmuSpaceVirt2phys_leaf, hclones.parent _ hu]
    cases segAt s.seg ps (a / pageSize) with
    | none => rfl
    | some seg =>
      rw [Option.elim_some, clonedParent]
      split
      · simp only [present_clearWrite, entryAddress_clearWrite]
      rfl
  have hnone := segAt_eq_none.2 hout
  rw [hclones.parent u hu, hclones.child u hu, hnone]
  exact ⟨rfl, rfl⟩

theorem total (hchained : s.ChainedIn parent ps) (hsup : s.CloneSupplies parent ps) :
    ∃ s', vmmClone paging D s parent child = .ok (none, s') := by
  refine clone_total h.parentHolds h.childHolds h.ne (I := fun s vs => s.CanClone parent child ps vs)
    { h.clonable with chained := fun x hx => ?_, supplies := ⟨hsup.1, ?_⟩ }
    fun s cs v vs hl hcan => hcan.step h.dup h.ne hl
  · rw [sized_addrspace]
    exact hchained x hx
  rw [sized_pagesIn]
  exact hsup.2

end CloneSetup

/-- **`vmm_clone` is exact**, for every parent with its segments in the lower half: a clone that
succeeds does to the page tables what it should, if the pages can be cloned; and with enough memory a
clone succeeds and does what it should if and only if they can. -/
theorem vmm_clone_exact (h : CloneSetup D s parent child ps) :
    (s.CloneSafe parent ps → ∀ s', vmmClone paging D s parent child = .ok (none, s') →
      CloneExact s s' parent child ps) ∧
    (s.CloneSupplies parent ps →
      ((∃ s', vmmClone paging D s parent child = .ok (none, s') ∧ CloneExact s s' parent child ps) ↔
        s.CloneSafe parent ps)) := by
  refine ⟨fun hsafe s' hrun => h.exact hrun hsafe, fun hsup => ⟨?_, fun hsafe => ?_⟩⟩
  · rintro ⟨s', hrun, hexact⟩
    obtain ⟨hchained, hclones⟩ := h.clones hrun
    refine ⟨hchained, fun x hx => or_iff_not_imp_left.2 fun hprot u hlo hhi hp => ?_⟩
    -- the page has no present entry in the child
    obtain ⟨hstart, hstop, -⟩ := h.paged.pages hx
    have hlo' : (s.seg x).start ≤ u * pageSize := by
      rw [hstart]
      exact Nat.mul_le_mul_right _ hlo
    have hhi' : u * pageSize < (s.seg x).stop := by
      rw [hstop]
      exact Nat.mul_lt_mul_of_pos_right hhi (by decide)
    have hpage : u * pageSize / pageSize = u := Nat.mul_div_cancel _ (by decide)
    have hmaps := hexact.maps x hx (u * pageSize) hlo' hhi'
    rw [mmuSpaceVirt2phys_leaf, mmuSpaceVirt2phys_leaf, h.childLeaf hx hlo' hhi' hclones, hpage,
      clonedChild, if_pos hp, if_pos hp, if_neg] at hmaps
    · cases hmaps
    rw [present_mapValue, cloneProt_present]
    exact hprot
  obtain ⟨s', hrun⟩ := h.total hsafe.1 hsup
  exact ⟨s', hrun, h.exact hrun hsafe⟩

/-! ## Two parents -/

/-- The protection of memory that a program can read and write. -/
def userData : BitVec 64 := mmuFlagPresent ||| mmuFlagRead ||| mmuFlagWrite ||| mmuFlagUser

/-- Memory with the tables of a parent at `0x1000` and of a child at `0x8000`. The parent has the
first pages of the tables for the entries 2 and `k` of its page directory. The page `0x14000` belongs
to someone else, and seven pages are free. -/
def sparseMem (k : Nat) : PhysMem where
  word a :=
    if a = 0x1000 then tableValue 0x2000 else if a = 0x2000 then tableValue 0x3000
    else if a = 0x3010 then tableValue 0x4000 else if a = tableEntry 0x3000 k then tableValue 0x5000
    else if a = 0x4000 then mapValue 0x20000 userData
    else if a = 0x5000 then mapValue 0x21000 userData
    else 0
  refCount page :=
    if page ∈ [0x1000, 0x2000, 0x3000, 0x4000, 0x5000, 0x8000, 0x14000, 0x20000, 0x21000] then 1 else 0
  locked _ := false
  pages := [some 0x10000, some 0x11000, some 0x12000, some 0x15000, some 0x16000, some 0x17000,
    some 0x18000]

/-- A segment of private memory from `0x400000` on that holds the two pages of `sparseMem`. -/
def sparseSeg (k : Nat) : VmmSeg :=
  { zero with
    node := ⟨none, none, none, 1⟩, start := 0x400000, stop := (512 * k + 1) * pageSize
    prot := userData, flags := vmmFlagAnonymous ||| vmmFlagPrivate }

/-- A process with this segment, and a space for its child. -/
def sparseSpaces (k : Nat) : Vmm PhysMem Nat where
  mem := sparseMem k
  seg v := if v = 1 then sparseSeg k else .zero
  live := {1}
  slab := [some 2]
  space sp := if sp = 0 then { addrspace := 0x1000, root := some 1 } else { addrspace := 0x8000, root := none }
  fdRef _ := 0

section Sparse

variable {j : Nat} (hj : j = 3 ∨ j = 4)
include hj

/-- The tables of the parent. -/
theorem sparseMem_tables : Apart (sparseMem j).word 256 3 0x1000 ∧
    tables (sparseMem j).word 256 3 0x1000 ⊆ {0x1000, 0x2000, 0x3000, 0x4000, 0x5000} := by
  -- the entries of the three levels
  obtain ⟨h3, ha3, h2, ha2, h1⟩ :
      (∀ i < 256, Present ((sparseMem j).word (tableEntry 0x1000 i)) → i = 0) ∧
      entryAddress ((sparseMem j).word (tableEntry 0x1000 0)) = 0x2000 ∧
      (∀ i < 512, Present ((sparseMem j).word (tableEntry 0x2000 i)) → i = 0) ∧
      entryAddress ((sparseMem j).word (tableEntry 0x2000 0)) = 0x3000 ∧
      ∀ i < 512, Present ((sparseMem j).word (tableEntry 0x3000 i)) →
        i = 2 ∧ entryAddress ((sparseMem j).word (tableEntry 0x3000 i)) = 0x4000 ∨
        i = j ∧ entryAddress ((sparseMem j).word (tableEntry 0x3000 i)) = 0x5000 := by
    rcases hj with rfl | rfl <;> decide +kernel
  have ht1 : tables (sparseMem j).word 512 1 0x3000 ⊆ {0x3000, 0x4000, 0x5000} := by
    rintro f (hf | ⟨i, hi, hp, hf⟩)
    · exact .inl hf
    rcases h1 i hi hp with ⟨-, h⟩ | ⟨-, h⟩ <;> rw [h] at hf <;> simp [show f = _ from hf]
  have ht2 : tables (sparseMem j).word 512 2 0x2000 ⊆ {0x2000, 0x3000, 0x4000, 0x5000} := by
    rintro f (hf | ⟨i, hi, hp, hf⟩)
    · exact .inl hf
    rw [h2 i hi hp, ha2] at hf
    exact .inr (ht1 hf)
  have hA1 : Apart (sparseMem j).word 512 1 0x3000 := by
    refine ⟨fun i hi hp => ⟨trivial, ?_⟩, fun i hi i' hi' hii hp hp' => ?_⟩
    · rcases h1 i hi hp with ⟨-, h⟩ | ⟨-, h⟩ <;> rw [h] <;> exact nofun
    refine Set.disjoint_singleton.2 fun heq => ?_
    rcases h1 i hi hp with ⟨rfl, h⟩ | ⟨rfl, h⟩ <;> rcases h1 i' hi' hp' with ⟨rfl, h'⟩ | ⟨rfl, h'⟩ <;>
      first
        | exact hii rfl
        | (rw [h, h'] at heq; exact absurd heq (by decide))
  have hA2 : Apart (sparseMem j).word 512 2 0x2000 := by
    refine ⟨fun i hi hp => ?_, fun i hi i' hi' hii hp hp' => ?_⟩
    · grind
    exact absurd ((h2 i hi hp).trans (h2 i' hi' hp').symm) hii
  refine ⟨⟨fun i hi hp => ?_, fun i hi i' hi' hii hp hp' => ?_⟩, ?_⟩
  · grind
  · exact absurd ((h3 i hi hp).trans (h3 i' hi' hp').symm) hii
  rintro f (hf | ⟨i, hi, hp, hf⟩)
  · exact .inl hf
  rw [h3 i hi hp, ha3] at hf
  exact .inr (ht2 hf)

theorem sparseMem_child : tables (sparseMem j).word 256 3 0x8000 = {0x8000} ∧
    Apart (sparseMem j).word 256 3 0x8000 ∧ ∀ u, leaf (sparseMem j).word 3 0x8000 u = 0 := by
  refine zero_table ?_ (by decide)
  rcases hj with rfl | rfl <;> decide +kernel

theorem sparseMem_pair : (sparseMem j).Pair 0x1000 0x8000 none := by
  obtain ⟨hapart, htables⟩ := sparseMem_tables hj
  obtain ⟨hchild, hchildApart, -⟩ := sparseMem_child hj
  have hlock (T : Set Nat) : ∀ f ∈ T, (sparseMem j).locked f = true ↔
      ∃ e, (none : Option Nat) = some e ∧ f = pageAlignDown e :=
    fun f _ => ⟨nofun, nofun⟩
  refine ⟨⟨⟨rfl, by decide, hapart, fun f hf => ?_⟩, hlock _, fun _ _ => rfl⟩,
    ⟨⟨rfl, by decide, hchildApart, fun f hf => ?_⟩, hlock _, fun _ _ => rfl⟩, ?_, nofun⟩
  · rcases htables hf with rfl | rfl | rfl | rfl | rfl <;> exact (by decide : (1 : BitVec 32) ≠ 0)
  · rw [hchild] at hf
    rw [show f = _ from hf]
    exact (by decide : (1 : BitVec 32) ≠ 0)
  grind

theorem sparseMem_present {u : Nat} (hlo : 0x400 ≤ u) (hhi : u < 512 * j + 1)
    (hp : Present (leaf (sparseMem j).word 3 0x1000 u)) : u = 0x400 ∨ u = 512 * j := by
  have hall : ∀ d < 512 * j + 1 - 0x400, Present (leaf (sparseMem j).word 3 0x1000 (0x400 + d)) →
      0x400 + d = 0x400 ∨ 0x400 + d = 512 * j := by
    rcases hj with rfl | rfl <;> decide +kernel
  have := hall (u - 0x400) (by omega)
  rw [Nat.add_sub_cancel' hlo] at this
  exact this hp

theorem sparseSpaces_pagesIn : (sparseSpaces j).pagesIn 0 [1] ≤ 2 := by
  have hsub : (Finset.Ico ((sparseSeg j).start / pageSize) ((sparseSeg j).stop / pageSize)).filter
      (fun u => Present (leaf (sparseMem j).word 3 0x1000 u)) ⊆ {0x400, 512 * j} := by
    intro u hu
    obtain ⟨hu, hp⟩ := Finset.mem_filter.1 hu
    obtain ⟨hlo, hhi⟩ := Finset.mem_Ico.1 hu
    rw [show (sparseSeg j).start / pageSize = 0x400 from (by decide : 0x400000 / pageSize = _)] at hlo
    rw [show (sparseSeg j).stop / pageSize = 512 * j + 1 from Nat.mul_div_cancel _ (by decide)] at hhi
    rcases sparseMem_present hj hlo hhi hp with rfl | rfl <;> simp
  exact (Finset.card_le_card hsub).trans Finset.card_le_two

theorem sparseSpaces_setup : CloneSetup noDrivers (sparseSpaces j) 0 1 [1] := by
  have hcount := sparseSpaces_pagesIn hj
  refine ⟨by decide, ⟨⟨fun x hx => ?_, pairwise_singleton ..⟩,
    ⟨nodup_singleton 1, .node 1 .nil .nil, rfl, ⟨rfl, rfl, rfl, rfl, trivial, trivial⟩, rfl⟩, ?_⟩,
    ⟨⟨nofun, .nil⟩, .empty rfl, nofun⟩, ⟨fun x hx => ?_, fun x hx => ?_, fun x hx => ?_⟩,
    fun x hx => ?_, sparseMem_pair hj, fun u _ => ?_, ?_, fun _ _ _ => rfl⟩
  · rw [mem_singleton.1 hx]
    rcases hj with rfl | rfl <;> decide
  · exact (by decide : ∀ v ∈ [1], v ∈ ({1} : Finset Nat))
  · rw [mem_singleton.1 hx]
    exact (by decide : 0x400000 % pageSize = 0)
  · rw [mem_singleton.1 hx]
    exact Nat.mul_mod_left ..
  iterate 2
    · rw [mem_singleton.1 hx]
      rcases hj with rfl | rfl <;> decide
  · rw [show leaf (sparseSpaces j).mem.word 3 ((sparseSpaces j).space 1).addrspace u = 0 from
      (sparseMem_child hj).2.2 u]
    exact not_hasFlag_zero
  intro f hf
  show (if f ∈ _ then (1 : BitVec 32) else 0).toNat + _ < _
  split
  · show 1 + _ < 2 ^ 32
    omega
  show 0 + _ < 2 ^ 32
  omega

theorem sparseSpaces_supplies : (sparseSpaces j).CloneSupplies 0 [1] := by
  have hcount := sparseSpaces_pagesIn hj
  refine ⟨⟨[2], [], rfl, le_rfl, nodup_singleton 2,
    (by decide : ∀ new ∈ [2], new ∉ ({1} : Finset Nat))⟩,
    [0x10000, 0x11000, 0x12000, 0x15000, 0x16000, 0x17000, 0x18000], [], rfl, ?_, by decide, ?_⟩
  · simp only [length_cons]
    omega
  rcases hj with rfl | rfl <;> decide +kernel

end Sparse

/-- Two pages two megabytes apart, in two tables: bit 21 of their addresses differs. -/
theorem vmm_clone_exact_sparse :
    ∃ s', vmmClone paging noDrivers (sparseSpaces 3) 0 1 = .ok (none, s') ∧
      CloneExact (sparseSpaces 3) s' 0 1 [1] := by
  refine ((vmm_clone_exact (sparseSpaces_setup (.inl rfl))).2 (sparseSpaces_supplies (.inl rfl))).2
    ⟨fun x hx a b hlo hab hb hpa hpb _ => ?_, fun x hx => .inl ?_⟩
  · rw [mem_singleton.1 hx] at hlo hb
    have ha := sparseMem_present (.inl rfl) hlo (hab.trans hb) hpa
    have hb := sparseMem_present (.inl rfl) (hlo.trans hab.le) hb hpb
    obtain ⟨rfl, rfl⟩ : a = 0x400 ∧ b = 512 * 3 := by omega
    decide
  rw [mem_singleton.1 hx]
  decide

/-- Two pages four megabytes apart, in two tables: bit 21 of their addresses is the same. The loop of
`vmm_clone_seg` writes the entry of the second page to a page that is no page table, the child does not
get the page, and the release of the lock fails. -/
theorem vmm_clone_overwrites :
    CloneSetup noDrivers (sparseSpaces 4) 0 1 [1] ∧ (sparseSpaces 4).CloneSupplies 0 [1] ∧
      vmmClone paging noDrivers (sparseSpaces 4) 0 1 = .error .assertion ∧
      ∃ entry mem', vmmCloneLoop paging 0x1000 0x8000 (sparseSeg 4) (cloneProt (sparseSeg 4)) mmuRounds
          0x400000 none 0 (sparseMem 4) = .ok (.ok entry, mem') ∧
        (sparseMem 4).refCount 0x14000 ≠ 0 ∧
        0x14000 ∉ tables (sparseMem 4).word 256 3 0x1000 ∧
        0x14000 ∉ tables (sparseMem 4).word 256 3 0x8000 ∧
        mem'.word 0x14000 ≠ (sparseMem 4).word 0x14000 ∧
        mmuSpaceVirt2phys (sparseMem 4) 0x1000 0x800000 = some 0x21000 ∧
        mmuSpaceVirt2phys mem' 0x8000 0x800000 = none := by
  have hj : 4 = 3 ∨ 4 = 4 := .inr rfl
  have hloop : okAnd (vmmCloneLoop paging 0x1000 0x8000 (sparseSeg 4)
      (cloneProt (sparseSeg 4)) mmuRounds 0x400000 none 0 (sparseMem 4)) (fun r => r.1.isOk &&
        decide (r.2.word 0x14000 ≠ (sparseMem 4).word 0x14000 ∧
          mmuSpaceVirt2phys r.2 0x8000 0x800000 = none)) = true := by
    decide +kernel
  have hfault : faultIs (vmmClone paging noDrivers (sparseSpaces 4) 0 1) .assertion = true := by
    decide +kernel
  obtain ⟨⟨entry, mem'⟩, hrun, htest⟩ := okAnd_eq_true.1 hloop
  obtain ⟨hok, hvals⟩ := Bool.and_eq_true_iff.1 htest
  obtain ⟨hword, hvirt⟩ := of_decide_eq_true hvals
  cases entry with
  | error e => cases hok
  | ok entry => ?_
  refine ⟨sparseSpaces_setup hj, sparseSpaces_supplies hj, faultIs_eq_true.1 hfault, entry,
    mem', hrun, by decide, fun hf => absurd ((sparseMem_tables hj).2 hf) (by decide),
    fun hf => ?_, hword, by decide +kernel, hvirt⟩
  rw [(sparseMem_child hj).1] at hf
  exact absurd (Set.mem_singleton_iff.1 hf) (by decide)

end Vmm

end Stanix
