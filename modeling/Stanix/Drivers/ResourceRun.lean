import Stanix.Drivers.Resource
import Mathlib.Data.List.Chain

/-!
# The segment list of a resource manager

What holds of the segments of a resource manager after any run of `rman_add_region`, `rman_allocate`
and `rman_free` (`RmanState.Sound`).

Every call works at one place of the list, so the lemmas are about a segment between a front and a
back. `merge_at` is the one about merging, which needs a front and a back that are merged each and
makes the whole list so; `split_at` cuts a free segment in up to three.

When no resource can be allocated after a split, the pieces stay (`rman_splits_stay`). `rman_sound` is
about the other runs.
-/

namespace Stanix

open Keyed RmanSeg List Exec

/-! ## Well-formed lists -/

/-- Two free segments that touch. -/
def RmanSeg.Mergeable (a b : RmanSeg) : Prop :=
  a.isAllocated = false ∧ b.isAllocated = false ∧ a.stop = b.start

/-- A list of segments with distinct addresses, none of them empty, sorted and disjoint. -/
structure SegsWf (segs : List RmanSeg) : Prop where
  nodup : (segs.map RmanSeg.id).Nodup
  pos : ∀ seg ∈ segs, 0 < seg.size
  stop_lt : ∀ seg ∈ segs, seg.stop < 2 ^ 64
  apart : segs.Pairwise fun a b => a.stop ≤ b.start

/-- No two free neighbours touch. -/
def SegsMerged (segs : List RmanSeg) : Prop := segs.IsChain fun a b => ¬ a.Mergeable b

/-- An address is in one of the segments. -/
def Covered (segs : List RmanSeg) (x : Nat) : Prop := ∃ seg ∈ segs, seg.start ≤ x ∧ x < seg.stop

/-- The segments that are allocated, in order. -/
def allocated (segs : List RmanSeg) : List RmanSeg := segs.filter isAllocated

variable {l r segs segs' : List RmanSeg} {seg seg' : RmanSeg} {request : ResourceRequest}
  {answers : RmanAnswers} {start size x align : Nat} {devnode : Option Nat} {s : RmanState}
  {rman rman' : Rman}

@[simp] theorem covered_append : Covered (l ++ r) x ↔ Covered l x ∨ Covered r x := by
  simp [Covered, or_and_right, exists_or]

@[simp] theorem covered_cons :
    Covered (seg :: r) x ↔ (seg.start ≤ x ∧ x < seg.stop) ∨ Covered r x := by
  simp [Covered]

@[simp] theorem covered_nil : ¬ Covered [] x := by simp [Covered]

@[simp] theorem allocated_append : allocated (l ++ r) = allocated l ++ allocated r :=
  filter_append ..

theorem allocated_cons_free (h : seg.isAllocated = false) : allocated (seg :: r) = allocated r :=
  filter_cons_of_neg (by simp [h])

theorem allocated_cons_used (h : seg.isAllocated = true) :
    allocated (seg :: r) = seg :: allocated r :=
  filter_cons_of_pos h

theorem forall_mem_middle {P : RmanSeg → Prop} :
    (∀ s ∈ l ++ seg :: r, P s) ↔ P seg ∧ ∀ s ∈ l ++ r, P s := by
  rw [forall_mem_append, forall_mem_cons, forall_mem_append]
  tauto

/-- A segment fits between a front and a back. -/
structure RmanSeg.Fits (seg : RmanSeg) (l r : List RmanSeg) : Prop where
  id_left : seg.id ∉ l.map RmanSeg.id
  id_right : seg.id ∉ r.map RmanSeg.id
  pos : 0 < seg.size
  stop_lt : seg.stop < 2 ^ 64
  left : ∀ s ∈ l, s.stop ≤ seg.start
  right : ∀ s ∈ r, seg.stop ≤ s.start

theorem segsWf_middle : SegsWf (l ++ seg :: r) ↔ SegsWf (l ++ r) ∧ seg.Fits l r := by
  have hnodup : ((l ++ seg :: r).map RmanSeg.id).Nodup ↔ ((l ++ r).map RmanSeg.id).Nodup ∧
      seg.id ∉ l.map RmanSeg.id ∧ seg.id ∉ r.map RmanSeg.id := by
    rw [map_append, map_cons, nodup_middle, nodup_cons, mem_append, not_or, map_append, and_comm]
  have hapart : ((l ++ seg :: r).Pairwise fun a b => a.stop ≤ b.start) ↔
      ((l ++ r).Pairwise fun a b => a.stop ≤ b.start) ∧ (∀ s ∈ l, s.stop ≤ seg.start) ∧
        ∀ s ∈ r, seg.stop ≤ s.start := by
    simp only [pairwise_append, pairwise_cons, forall_mem_cons, forall_and]
    tauto
  constructor
  · intro h
    obtain ⟨hpos, hpos'⟩ := forall_mem_middle.1 h.pos
    obtain ⟨hstop, hstop'⟩ := forall_mem_middle.1 h.stop_lt
    obtain ⟨hn, hidl, hidr⟩ := hnodup.1 h.nodup
    obtain ⟨ha, hl, hr⟩ := hapart.1 h.apart
    exact ⟨⟨hn, hpos', hstop', ha⟩, hidl, hidr, hpos, hstop, hl, hr⟩
  rintro ⟨h, hfit⟩
  exact ⟨hnodup.2 ⟨h.nodup, hfit.id_left, hfit.id_right⟩, forall_mem_middle.2 ⟨hfit.pos, h.pos⟩,
    forall_mem_middle.2 ⟨hfit.stop_lt, h.stop_lt⟩, hapart.2 ⟨h.apart, hfit.left, hfit.right⟩⟩

theorem SegsWf.id_notMem (h : SegsWf (l ++ seg :: r)) :
    seg.id ∉ l.map RmanSeg.id ∧ seg.id ∉ r.map RmanSeg.id :=
  have hfit := (segsWf_middle.1 h).2
  ⟨hfit.id_left, hfit.id_right⟩

theorem SegsWf.nodup_left (h : SegsWf (l ++ r)) : (l.map RmanSeg.id).Nodup := by
  have := h.nodup
  rw [map_append] at this
  exact (nodup_append.1 this).1

theorem SegsWf.insert (h : SegsWf (l ++ r)) (seg : RmanSeg) (hid : ∀ s ∈ l ++ r, s.id < seg.id)
    (hpos : 0 < seg.size) (hstop : seg.stop < 2 ^ 64) (hl : ∀ s ∈ l, s.stop ≤ seg.start)
    (hr : ∀ s ∈ r, seg.stop ≤ s.start) : SegsWf (l ++ seg :: r) := by
  have hnew (s : RmanSeg) (hs : s ∈ l ++ r) : s.id ≠ seg.id := (hid s hs).ne
  refine segsWf_middle.2 ⟨h, ?_, ?_, hpos, hstop, hl, hr⟩
  · simpa using fun s hs => hnew s (mem_append_left _ hs)
  simpa using fun s hs => hnew s (mem_append_right _ hs)

/-! ## Merging -/

/-- Two lists of segments with the same room: they cover the same addresses, have the same allocated
segments, and the second one has no address that the first one has not. -/
structure SameRoom (segs segs' : List RmanSeg) : Prop where
  covered : ∀ x, Covered segs' x ↔ Covered segs x
  allocated : allocated segs' = allocated segs
  ids : ∀ seg' ∈ segs', ∃ seg ∈ segs, seg.id = seg'.id

theorem SameRoom.refl (segs : List RmanSeg) : SameRoom segs segs :=
  ⟨fun _ => Iff.rfl, rfl, fun seg h => ⟨seg, h, rfl⟩⟩

theorem SameRoom.trans {segs'' : List RmanSeg} (h : SameRoom segs segs')
    (h' : SameRoom segs' segs'') : SameRoom segs segs'' where
  covered x := (h'.covered x).trans (h.covered x)
  allocated := h'.allocated.trans h.allocated
  ids seg'' hs := by
    obtain ⟨seg', hs', hid'⟩ := h'.ids seg'' hs
    obtain ⟨seg, hs, hid⟩ := h.ids seg' hs'
    exact ⟨seg, hs, hid.trans hid'⟩

/-- Two touching segments that are free, made one under either address. -/
theorem SegsWf.join {a b c : RmanSeg} (h : SegsWf (l ++ a :: b :: r)) (hab : a.Mergeable b)
    (hc : c.start = a.start) (hstop : c.stop = b.stop) (hfree : c.isAllocated = false)
    (hid : c.id = a.id ∨ c.id = b.id) :
    SegsWf (l ++ c :: r) ∧ SameRoom (l ++ a :: b :: r) (l ++ c :: r) := by
  obtain ⟨ha, hb, htouch⟩ := hab
  obtain ⟨hrest, hfa⟩ := segsWf_middle.1 h
  obtain ⟨hlr, hfb⟩ := segsWf_middle.1 hrest
  have hsize : c.size = a.size + b.size := by
    simp only [RmanSeg.stop] at hstop htouch
    omega
  have hids : c.id ∉ l.map RmanSeg.id ∧ c.id ∉ r.map RmanSeg.id := by
    rcases hid with hid | hid
    · rw [hid]
      exact ⟨hfa.id_left, fun hm => hfa.id_right (mem_cons_of_mem _ hm)⟩
    rw [hid]
    exact ⟨hfb.id_left, hfb.id_right⟩
  refine ⟨segsWf_middle.2 ⟨hlr, hids.1, hids.2, hsize ▸ Nat.add_pos_left hfa.pos _,
    hstop ▸ hfb.stop_lt, hc ▸ hfa.left, hstop ▸ hfb.right⟩, fun x => ?_, ?_,
    forall_mem_middle.2 ⟨?_, fun s hs => ⟨s, by grind, rfl⟩⟩⟩
  · simp only [covered_append, covered_cons, hc, hstop]
    refine or_congr_right ?_
    rw [← or_assoc]
    refine or_congr_left ?_
    simp only [RmanSeg.stop] at htouch ⊢
    omega
  · rw [allocated_append, allocated_append, allocated_cons_free ha, allocated_cons_free hb,
      allocated_cons_free hfree]
  grind

theorem segsMerged_middle : SegsMerged (l ++ seg :: r) ↔ SegsMerged l ∧ SegsMerged r ∧
    (∀ x ∈ l.getLast?, ¬ x.Mergeable seg) ∧ ∀ y ∈ r.head?, ¬ seg.Mergeable y := by
  simp only [SegsMerged, isChain_append, isChain_cons, List.head?_cons, Option.mem_some_iff,
    forall_eq']
  tauto

section

variable (h : SegsWf (l ++ seg :: r)) (hfree : seg.isAllocated = false)
include h hfree

/-- **Merging with the segment before.** -/
theorem rmanMergePrev_at (hl : SegsMerged l) :
    ∃ l' seg', rmanMergePrev (l ++ seg :: r) seg = (l' ++ seg' :: r, seg') ∧
      SegsWf (l' ++ seg' :: r) ∧ SameRoom (l ++ seg :: r) (l' ++ seg' :: r) ∧
      seg'.isAllocated = false ∧ SegsMerged (l' ++ [seg']) := by
  obtain ⟨hidl, hidr⟩ := h.id_notMem
  unfold rmanMergePrev
  rw [prev_at hidl]
  rcases eq_nil_or_concat l with rfl | ⟨l, p, rfl⟩
  · exact ⟨[], seg, rfl, h, .refl _, hfree, isChain_singleton _⟩
  rw [concat_eq_append] at *
  rw [List.getLast?_concat]
  dsimp only
  obtain ⟨hl', -, hlast, -⟩ := segsMerged_middle.1 hl
  split
  · next hm =>
    have hab : p.Mergeable seg := ⟨hm.2, hfree, hm.1⟩
    have heq : l ++ [p] ++ seg :: r = l ++ p :: seg :: r := by simp
    rw [heq] at h ⊢
    have hid : seg.id ∉ l.map RmanSeg.id :=
      fun hm => hidl (by rw [map_append]; exact mem_append_left _ hm)
    obtain ⟨hpl, hpr⟩ := h.id_notMem
    rw [remove_at hpl hpr, modify_at hid hidr]
    have hstop : ({ seg with start := p.start, size := seg.size + p.size } : RmanSeg).stop =
        seg.stop := by
      have := hm.1
      simp only [RmanSeg.stop] at this ⊢
      omega
    obtain ⟨hwf, hroom⟩ := h.join hab
      (c := { seg with start := p.start, size := seg.size + p.size }) rfl hstop hfree (.inr rfl)
    -- what did not merge with the segment that is absorbed does not merge with the result
    exact ⟨l, _, rfl, hwf, hroom, hfree, segsMerged_middle.2 ⟨hl', isChain_nil,
      fun x hx hxy => hlast x hx ⟨hxy.1, hm.2, hxy.2.2⟩, nofun⟩⟩
  next hm =>
  refine ⟨l ++ [p], seg, rfl, h, .refl _, hfree,
    segsMerged_middle.2 ⟨hl, isChain_nil, fun x hx hxy => hm ?_, nofun⟩⟩
  obtain rfl : p = x := by simpa using hx
  exact ⟨hxy.2.2, hxy.1⟩

/-- **Merging with the segment behind.** -/
theorem rmanMergeNext_at (hl : SegsMerged (l ++ [seg])) (hr : SegsMerged r) :
    SegsWf (rmanMergeNext (l ++ seg :: r) seg) ∧
      SameRoom (l ++ seg :: r) (rmanMergeNext (l ++ seg :: r) seg) ∧
      SegsMerged (rmanMergeNext (l ++ seg :: r) seg) := by
  obtain ⟨hidl, hidr⟩ := h.id_notMem
  obtain ⟨hl', -, hlast, -⟩ := segsMerged_middle.1 hl
  unfold rmanMergeNext
  rw [next_at hidl]
  cases r with
  | nil => exact ⟨h, .refl _, hl⟩
  | cons n r => ?_
  obtain ⟨hhead, hr'⟩ := isChain_cons.1 hr
  rw [List.head?_cons]
  dsimp only
  split
  · next hm =>
    have hab : seg.Mergeable n := ⟨hfree, hm.2, hm.1⟩
    have hn : SegsWf ((l ++ [seg]) ++ n :: r) := by simpa using h
    obtain ⟨hnl, hnr⟩ := hn.id_notMem
    have hremove : remove RmanSeg.id n.id (l ++ seg :: n :: r) = l ++ seg :: r := by
      rw [show l ++ seg :: n :: r = (l ++ [seg]) ++ n :: r by simp, remove_at hnl hnr]
      simp
    have hidr' : seg.id ∉ r.map RmanSeg.id := fun hm => hidr (mem_cons_of_mem _ hm)
    rw [hremove, modify_at hidl hidr']
    have hstop : ({ seg with size := seg.size + n.size } : RmanSeg).stop = n.stop := by
      have := hm.1
      simp only [stop] at this ⊢
      omega
    obtain ⟨hwf, hroom⟩ := h.join hab (c := { seg with size := seg.size + n.size }) rfl hstop hfree
      (.inl rfl)
    exact ⟨hwf, hroom, segsMerged_middle.2 ⟨hl', hr', hlast,
      fun y hy hxy => hhead y hy ⟨hm.2, hxy.2.1, hstop ▸ hxy.2.2⟩⟩⟩
  next hm =>
  refine ⟨h, .refl _, segsMerged_middle.2 ⟨hl', hr, hlast, fun y hy hxy => hm ?_⟩⟩
  obtain rfl : n = y := by simpa using hy
  exact ⟨hxy.2.2, hxy.2.1⟩

/-- **Merging a free segment into the list** makes the whole list merged if its front and its back
are, and keeps its room. -/
theorem rmanMerge_at (hl : SegsMerged l) (hr : SegsMerged r) :
    SegsWf (rmanMerge (l ++ seg :: r) seg) ∧
      SameRoom (l ++ seg :: r) (rmanMerge (l ++ seg :: r) seg) ∧
      SegsMerged (rmanMerge (l ++ seg :: r) seg) := by
  obtain ⟨l', seg', hprev, hwf, hroom, hfree', hl'⟩ := rmanMergePrev_at h hfree hl
  obtain ⟨hwf', hroom', hmerged⟩ := rmanMergeNext_at hwf hfree' hl' hr
  unfold rmanMerge
  rw [hprev]
  exact ⟨hwf', hroom.trans hroom', hmerged⟩

end

/-! ## Adding a region -/

/-- A sorted list, cut at an address: the segments that start below it, the last of which is the one
that is looked for, and the others. -/
theorem rmanGetSegBefore_cut (h : SegsWf segs) (addr : Nat) (prev : Option RmanSeg) :
    ∃ l r, segs = l ++ r ∧ (∀ s ∈ l, s.start < addr) ∧ (∀ s ∈ r, addr ≤ s.start) ∧
      rmanGetSegBefore addr prev segs = l.getLast?.or prev := by
  induction segs generalizing prev with
  | nil => exact ⟨[], [], rfl, by simp, by simp, by simp [rmanGetSegBefore]⟩
  | cons seg rest ih => ?_
  obtain ⟨hwf, hfit⟩ := (segsWf_middle (l := [])).1 h
  unfold rmanGetSegBefore
  by_cases hge : seg.start ≥ addr
  · refine ⟨[], seg :: rest, rfl, by simp, forall_mem_cons.2 ⟨hge, fun s hs => ?_⟩, if_pos hge⟩
    exact le_trans (hge.trans (Nat.le_add_right ..)) (hfit.right s hs)
  obtain ⟨l, r, rfl, hl, hr, hget⟩ := ih hwf (some seg)
  refine ⟨seg :: l, r, rfl, forall_mem_cons.2 ⟨not_le.1 hge, hl⟩, hr, ?_⟩
  rw [if_neg hge, hget]
  cases l with
  | nil => rfl
  | cons a m => rfl

/-- A region overlaps a segment. -/
def Overlaps (segs : List RmanSeg) (start size : Nat) : Prop :=
  ∃ seg ∈ segs, seg.start < start + size ∧ start < seg.stop

/-- In a sorted list a region overlaps a segment exactly if it overlaps the last one that starts
below it or the first one that does not. -/
theorem overlaps_iff (h : SegsWf (l ++ r)) (hl : ∀ s ∈ l, s.start < start)
    (hr : ∀ s ∈ r, start ≤ s.start) (hsize : 0 < size) :
    Overlaps (l ++ r) start size ↔
      (∃ s, l.getLast? = some s ∧ s.stop > start) ∨ ∃ s, r.head? = some s ∧ s.start < start + size := by
  have hap := pairwise_append.1 h.apart
  constructor
  · rintro ⟨s, hs, hlt, hgt⟩
    rcases mem_append.1 hs with hs | hs
    · left
      rcases eq_nil_or_concat l with rfl | ⟨l, p, rfl⟩
      · cases hs
      rw [concat_eq_append] at *
      refine ⟨p, List.getLast?_concat, ?_⟩
      rcases mem_append.1 hs with hs | hs
      · have := (pairwise_append.1 hap.1).2.2 s hs p (by simp)
        have := hl p (by simp)
        omega
      obtain rfl := mem_singleton.1 hs
      exact hgt
    right
    cases r with
    | nil => cases hs
    | cons n r => ?_
    refine ⟨n, rfl, ?_⟩
    rcases mem_cons.1 hs with rfl | hs
    · exact hlt
    have := (pairwise_cons.1 hap.2.1).1 s hs
    simp only [stop] at *
    omega
  rintro (⟨s, hs, hgt⟩ | ⟨s, hs, hlt⟩)
  · have hs := mem_of_getLast? hs
    exact ⟨s, by simp [hs], by have := hl s hs; omega, hgt⟩
  have hs := mem_of_head? hs
  have hpos := h.pos s (by simp [hs])
  refine ⟨s, by simp [hs], hlt, ?_⟩
  have := hr s hs
  simp only [stop]
  omega

/-- The invariant of a resource manager. -/
structure Rman.Ok (rman : Rman) : Prop where
  wf : SegsWf rman.segs
  merged : SegsMerged rman.segs
  fresh_seg : ∀ seg ∈ rman.segs, seg.id < rman.fresh
  fresh_resource : ∀ res ∈ rman.resources, res.id < rman.fresh
  nodup_resource : (rman.resources.map RmanResource.id).Nodup
  out : ((allocated rman.segs).map fun seg => (seg.id, seg.devnode, seg.start, seg.size)).Perm
    (rman.resources.map fun res => (res.segId, some res.devnode, res.start, res.size))

theorem SegsWf.cut (h : SegsWf segs) (start : Nat) :
    ∃ l r, segs = l ++ r ∧ (∀ s ∈ l, s.start < start) ∧ (∀ s ∈ r, start ≤ s.start) ∧
      rmanGetSegBefore start none segs = l.getLast? ∧
      rmanSegAfter segs l.getLast? = r.head? := by
  obtain ⟨l, r, rfl, hl, hr, hget⟩ := rmanGetSegBefore_cut h start none
  refine ⟨l, r, rfl, hl, hr, by rw [hget]; cases l.getLast? <;> rfl, ?_⟩
  rcases eq_nil_or_concat l with rfl | ⟨l, p, rfl⟩
  · rfl
  rw [concat_eq_append] at h ⊢
  rw [List.getLast?_concat]
  have heq : l ++ [p] ++ r = l ++ p :: r := by simp
  rw [heq] at h ⊢
  exact next_at h.id_notMem.1

/-- **Adding a region.** Where the segment can be allocated, a region is rejected exactly if it
overlaps a segment; otherwise the manager covers the region as well. -/
theorem rmanAddRegion_spec (h : rman.Ok) (hsize : 0 < size) (hstop : start + size < 2 ^ 64)
    (hseg : answers.seg₁ = true) :
    (Overlaps rman.segs start size ∧ rmanAddRegion rman start size answers = (some .inval, rman)) ∨
    (¬ Overlaps rman.segs start size ∧ ∃ rman', rmanAddRegion rman start size answers = (none, rman') ∧
      rman'.Ok ∧ rman'.resources = rman.resources ∧
      ∀ x, Covered rman'.segs x ↔ Covered rman.segs x ∨ start ≤ x ∧ x < start + size) := by
  obtain ⟨l, r, hsegs, hl, hr, hbefore, hafter⟩ := h.wf.cut start
  have hwf := h.wf
  rw [hsegs] at hwf
  have hiff := overlaps_iff hwf hl hr hsize
  rw [← hsegs] at hiff
  unfold rmanAddRegion
  simp only [hbefore, hafter, Nat.mod_eq_of_lt hstop]
  by_cases hov : Overlaps rman.segs start size
  · left
    refine ⟨hov, ?_⟩
    rcases hiff.1 hov with h1 | h2
    · rw [if_pos h1]
    split
    · rfl
    rfl
  right
  refine ⟨hov, ?_⟩
  rw [if_neg fun h1 => hov (hiff.2 (.inl h1)), if_neg fun h2 => hov (hiff.2 (.inr h2)),
    if_neg (by simp [hseg])]
  rw [hsegs, addAfter_getLast hwf.nodup_left]
  have hmerged := h.merged
  rw [hsegs] at hmerged
  obtain ⟨hml, hmr, -⟩ := isChain_append.1 hmerged
  have hfresh (s : RmanSeg) (hs : s ∈ l ++ r) : s.id < rman.fresh := h.fresh_seg s (hsegs ▸ hs)
  have hnew : SegsWf (l ++ { id := rman.fresh, start, size } :: r) := by
    refine hwf.insert _ hfresh hsize hstop (fun s hs => ?_) fun s hs => ?_
    · show s.stop ≤ start
      by_contra hgt
      exact hov ⟨s, by simp [hsegs, hs], by have := hl s hs; omega, by omega⟩
    show start + size ≤ s.start
    by_contra hlt
    have := hwf.pos s (by simp [hs])
    exact hov ⟨s, by simp [hsegs, hs], by omega,
      by have := hr s hs; simp only [stop]; omega⟩
  obtain ⟨hwf', hroom, hmerged'⟩ := rmanMerge_at hnew rfl hml hmr
  refine ⟨_, rfl, ⟨hwf', hmerged', fun s' hs' => ?_, fun res hres => ?_, h.nodup_resource, ?_⟩, rfl,
    fun x => ?_⟩
  · obtain ⟨s, hs, hid⟩ := hroom.ids s' hs'
    rw [← hid]
    exact forall_mem_middle.2 ⟨Nat.lt_succ_self _, fun s hs => Nat.lt_succ_of_lt (hfresh s hs)⟩ s hs
  · exact Nat.lt_succ_of_lt (h.fresh_resource res hres)
  · rw [hroom.allocated, allocated_append, allocated_cons_free rfl, ← allocated_append, ← hsegs]
    exact h.out
  rw [hroom.covered, covered_append, covered_cons, covered_append]
  tauto

/-! ## Allocating and freeing -/

/-- The usable part of a segment that reaches into the bounds of a request starts in the segment. A
request whose start is past its end has room to spare, as the difference wraps around. -/
theorem rmanUsable_spec {count : Nat} (hpos : 0 < seg.size) (hbelow : request.start < seg.stop)
    (habove : seg.start < request.stop) (hstop : seg.stop < 2 ^ 64)
    (halign : request.start % align = 0) (h : rmanUsable request align seg = some (start, count))
    (hcount : 0 < count) : seg.start ≤ start ∧ start < seg.stop := by
  have hseg : seg.start < seg.stop := Nat.lt_add_of_pos_right hpos
  unfold rmanUsable at h
  dsimp only at h
  split at h
  · next hne =>
    -- the start of the request is aligned, so it is the segment's that is not
    have hmax : max seg.start request.start = seg.start := by grind
    split at h <;> split at h <;> cases h <;> omega
  cases h
  omega

/-- What the search finds: a free segment of the list, and a start in it. -/
theorem rmanFindSeg_spec (hsegs : ∀ s ∈ segs, 0 < s.size ∧ s.stop < 2 ^ 64)
    (halign : request.start % align = 0) (hsize : 0 < size)
    (h : rmanFindSeg request align size segs = some (seg, start)) :
    (∃ l r, segs = l ++ seg :: r) ∧ seg.isAllocated = false ∧ seg.start ≤ start ∧
      start < seg.stop := by
  induction segs with
  | nil => cases h
  | cons s rest ih => ?_
  have hrest (h : rmanFindSeg request align size rest = some (seg, start)) :
      (∃ l r, s :: rest = l ++ seg :: r) ∧ seg.isAllocated = false ∧ seg.start ≤ start ∧
        start < seg.stop := by
    obtain ⟨⟨l, r, rfl⟩, hs⟩ := ih (fun s hs => hsegs s (by simp [hs])) h
    exact ⟨⟨s :: l, r, rfl⟩, hs⟩
  obtain ⟨hpos, hstop⟩ := hsegs s (by simp)
  unfold rmanFindSeg at h
  split at h
  · exact hrest h
  next hbelow =>
  split at h
  · cases h
  next hafter =>
  split at h
  · exact hrest h
  next hfree =>
  split at h
  · exact hrest h
  next segStart segCount huse =>
  split at h
  · exact hrest h
  next hcount =>
  cases h
  exact ⟨⟨[], rest, rfl⟩, by simpa using hfree,
    rmanUsable_spec hpos (by omega) (by omega) hstop halign huse (by omega)⟩

/-- The pieces of a segment that is cut: what stays in front of a start, the part that is used, and
what stays behind. -/
structure Pieces (seg : RmanSeg) (before : List RmanSeg) (used : RmanSeg) (behind : List RmanSeg) :
    Prop where
  id : used.id = seg.id
  free : used.isAllocated = false
  pos : 0 < used.size
  before : before = [] ∧ used.start = seg.start ∨ ∃ b : RmanSeg, before = [b] ∧
    b.isAllocated = false ∧ 0 < b.size ∧ b.start = seg.start ∧ b.stop = used.start
  behind : behind = [] ∧ used.stop = seg.stop ∨ ∃ b : RmanSeg, behind = [b] ∧
    b.isAllocated = false ∧ 0 < b.size ∧ b.start = used.stop ∧ b.stop = seg.stop

/-- The split before a start. -/
theorem rmanSplitBefore_at (h : SegsWf (l ++ seg :: r)) (hstart : seg.start ≤ start)
    (hstop : start < seg.stop) (fresh : Nat) :
    ∃ before used, rmanSplitBefore (l ++ seg :: r) seg start fresh =
        (l ++ before ++ used :: r, used) ∧
      used.id = seg.id ∧ used.devnode = seg.devnode ∧ used.start = start ∧ used.stop = seg.stop ∧
      (before = [] ∧ used.start = seg.start ∨ ∃ b : RmanSeg, before = [b] ∧ b.id = fresh ∧
        b.isAllocated = false ∧ 0 < b.size ∧ b.start = seg.start ∧ b.stop = used.start) := by
  obtain ⟨hidl, hidr⟩ := h.id_notMem
  unfold rmanSplitBefore
  split
  · next hlt =>
    dsimp only
    rw [modify_at hidl hidr]
    refine ⟨[{ id := fresh, start := seg.start, size := start - seg.start }],
      { seg with start := seg.start + (start - seg.start), size := seg.size - (start - seg.start) },
      Prod.ext ?_ rfl, rfl, rfl, ?_, ?_, .inr ⟨_, rfl, rfl, rfl, ?_, rfl, rfl⟩⟩
    · rw [append_assoc]
      exact addBefore_at (x := { seg with
        start := seg.start + (start - seg.start), size := seg.size - (start - seg.start) })
        h.nodup_left hidl
    · dsimp only
      omega
    · simp only [RmanSeg.stop] at hstop ⊢
      omega
    dsimp only
    omega
  next hge => exact ⟨[], seg, by simp, rfl, rfl, by omega, rfl, .inl ⟨rfl, rfl⟩⟩

/-- The split after a size. -/
theorem rmanSplitAfter_at (hidl : seg.id ∉ l.map RmanSeg.id) (hidr : seg.id ∉ r.map RmanSeg.id)
    (size : Nat) (hstart : seg.start = start) (fresh : Nat) :
    ∃ behind used, rmanSplitAfter (l ++ seg :: r) seg start size fresh =
        (l ++ used :: (behind ++ r), used) ∧
      used.id = seg.id ∧ used.devnode = seg.devnode ∧ used.start = seg.start ∧
      used.size = min seg.size size ∧
      (behind = [] ∧ used.stop = seg.stop ∨ ∃ b : RmanSeg, behind = [b] ∧ b.id = fresh ∧
        b.isAllocated = false ∧ 0 < b.size ∧ b.start = used.stop ∧ b.stop = seg.stop) := by
  unfold rmanSplitAfter
  split
  · next hgt =>
    dsimp only
    rw [modify_at hidl hidr]
    refine ⟨[{ id := fresh, start := start + size, size := seg.size - size }],
      { seg with size := seg.size - (seg.size - size) }, Prod.ext ?_ rfl, rfl, rfl, rfl, ?_,
      .inr ⟨_, rfl, rfl, rfl, ?_, ?_, ?_⟩⟩
    · exact addAfter_at (x := { seg with size := seg.size - (seg.size - size) }) hidl
    · dsimp only
      omega
    · dsimp only
      omega
    · simp only [stop]
      omega
    simp only [stop]
    omega
  next hle => exact ⟨[], seg, by simp, rfl, rfl, rfl, by omega, .inl ⟨rfl, rfl⟩⟩

/-- **Splitting a segment** at its place in the list. -/
theorem rmanSplit_at (h : SegsWf (l ++ seg :: r)) (hfree : seg.isAllocated = false)
    (hstart : seg.start ≤ start) (hstop : start < seg.stop) (hsize : 0 < size) {fresh : Nat}
    (hfresh : ∀ s ∈ l ++ seg :: r, s.id < fresh) :
    ∃ segs' mid before used behind,
      rmanSplitBefore (l ++ seg :: r) seg start fresh = (segs', mid) ∧
      rmanSplitAfter segs' mid start size (fresh + 1) = (l ++ before ++ used :: (behind ++ r), used) ∧
      Pieces seg before used behind ∧ (∀ b ∈ before, b.id = fresh) ∧
      ∀ b ∈ behind, b.id = fresh + 1 := by
  obtain ⟨before, mid, hbefore, hid, hdev, hms, hmstop, hb⟩ := rmanSplitBefore_at h hstart hstop fresh
  obtain ⟨hidl, hidr⟩ := h.id_notMem
  have hbid : ∀ b ∈ before, b.id = fresh := by grind
  have hmidl : mid.id ∉ (l ++ before).map RmanSeg.id := by grind
  obtain ⟨behind, used, hafter, hid', hdev', hus, husize, ha⟩ :=
    rmanSplitAfter_at hmidl (hid ▸ hidr) size hms (fresh + 1)
  refine ⟨_, mid, before, used, behind, hbefore, hafter, ⟨hid'.trans hid, ?_, ?_, ?_, ?_⟩, hbid, ?_⟩
  · rw [isAllocated, hdev', hdev]
    exact hfree
  · have hpos : 0 < mid.size := by
      simp only [stop] at hmstop hstop
      omega
    omega
  · grind
  · grind
  grind

section
variable {before behind : List RmanSeg} {used used' : RmanSeg} {fresh : Nat}

/-- The pieces of a segment, with the used one given away, in the place of the segment. -/
theorem Pieces.wf (h : SegsWf (l ++ seg :: r)) (hp : Pieces seg before used behind)
    (hfresh : ∀ s ∈ l ++ seg :: r, s.id < fresh) (hbefore : ∀ b ∈ before, b.id = fresh)
    (hbehind : ∀ b ∈ behind, b.id = fresh + 1) (hid : used'.id = used.id)
    (hstart : used'.start = used.start) (hsize : used'.size = used.size) :
    SegsWf (l ++ before ++ used' :: (behind ++ r)) := by
  have hstop : used'.stop = used.stop := by rw [RmanSeg.stop, hstart, hsize, RmanSeg.stop]
  obtain ⟨hlr, hfit⟩ := segsWf_middle.1 h
  have hl := hfit.left
  have hr := hfit.right
  have hin : seg.start ≤ used.start ∧ used.stop ≤ seg.stop := by
    constructor
    · rcases hp.before with ⟨-, hs⟩ | ⟨b, -, -, hpos, hs, hb⟩
      · exact hs.ge
      simp only [stop] at hb
      omega
    rcases hp.behind with ⟨-, hs⟩ | ⟨b, -, -, hpos, hs, hb⟩
    · exact hs.le
    simp only [stop] at hs hb ⊢
    omega
  have hmid : used.start ≤ used.stop := Nat.le_add_right _ _
  have hlt := hfit.stop_lt
  have hid := hid.trans hp.id
  -- the segment shrinks to the used piece, then the free pieces go into the gaps
  have hused := segsWf_middle.2 ⟨hlr, hid ▸ hfit.id_left,
    hid ▸ hfit.id_right, hsize ▸ hp.pos, by omega, fun s hs => by have := hl s hs; omega,
    fun s hs => by have := hr s hs; omega⟩
  have hids := forall_mem_middle.2 ⟨hid ▸ hfresh seg (by simp), (forall_mem_middle.1 hfresh).2⟩
  have hwf1 : SegsWf (l ++ before ++ used' :: r) := by
    rcases hp.before with ⟨rfl, -⟩ | ⟨b, rfl, -, hbpos, hbs, hbstop⟩
    · simpa using hused
    have := hused.insert b (hbefore b mem_cons_self ▸ hids) hbpos (by omega) (fun s hs => hbs ▸ hl s hs)
      (forall_mem_cons.2 ⟨by omega, fun s hs => by have := hr s hs; omega⟩)
    simpa using this
  rcases hp.behind with ⟨rfl, -⟩ | ⟨b, rfl, -, hbpos, hbs, hbstop⟩
  · simpa using hwf1
  have := SegsWf.insert (l := l ++ before ++ [used']) (by simpa using hwf1) b ?_
    hbpos (by omega) ?_ (fun s hs => hbstop ▸ hr s hs)
  · simpa using this
  · grind
  simp only [forall_mem_append, forall_mem_cons]
  refine ⟨⟨fun s hs => by have := hl s hs; omega, fun s hs => ?_⟩, by omega, nofun⟩
  rcases hp.before with ⟨rfl, -⟩ | ⟨b', rfl, -, -, -, hb'⟩
  · cases hs
  obtain rfl := mem_singleton.1 hs
  omega

theorem Pieces.covered (hp : Pieces seg before used behind) (used' : RmanSeg)
    (hstart : used'.start = used.start) (hsize : used'.size = used.size) (x : Nat) :
    Covered (l ++ before ++ used' :: (behind ++ r)) x ↔ Covered (l ++ seg :: r) x := by
  have hstop : used'.stop = used.stop := by rw [stop, hstart, hsize, stop]
  have hpieces : Covered before x ∨ (used'.start ≤ x ∧ x < used'.stop) ∨ Covered behind x ↔
      seg.start ≤ x ∧ x < seg.stop := by
    rcases hp.before with ⟨rfl, hb⟩ | ⟨b, rfl, -, hbpos, hbs, hb⟩ <;>
      rcases hp.behind with ⟨rfl, ha⟩ | ⟨a, rfl, -, hapos, has, ha⟩ <;>
      simp only [covered_cons, covered_nil, or_false, false_or, hstart, hstop] <;>
      simp only [stop] at * <;> omega
  simp only [covered_append, covered_cons]
  tauto

section

variable (hp : Pieces seg before used behind) (hfree : seg.isAllocated = false)
  (hused : used'.isAllocated = true)
include hp hfree hused

/-- The pieces are merged, with one another and with the neighbours of the segment, when the used one
is given away. -/
theorem Pieces.merged (h : SegsMerged (l ++ seg :: r)) :
    SegsMerged (l ++ before ++ used' :: (behind ++ r)) := by
  obtain ⟨hl, hr, hlast, hhead⟩ := segsMerged_middle.1 h
  have hbehind : SegsMerged (behind ++ r) := by
    rcases hp.behind with ⟨rfl, -⟩ | ⟨b, rfl, -, -, -, hb⟩
    · exact hr
    exact isChain_cons.2 ⟨fun y hy hxy => hhead y hy ⟨hfree, hxy.2.1, hb ▸ hxy.2.2⟩, hr⟩
  have hbefore : SegsMerged (l ++ before) := by
    rcases hp.before with ⟨rfl, -⟩ | ⟨b, rfl, -, -, hb, -⟩
    · rw [append_nil]
      exact hl
    exact segsMerged_middle.2 ⟨hl, isChain_nil,
      fun x hx hxy => hlast x hx ⟨hxy.1, hfree, hb ▸ hxy.2.2⟩, nofun⟩
  exact segsMerged_middle.2 ⟨hbefore, hbehind, fun x _ => by simp [RmanSeg.Mergeable, hused],
    fun y _ => by simp [RmanSeg.Mergeable, hused]⟩

theorem Pieces.allocated_perm :
    (allocated (l ++ before ++ used' :: (behind ++ r))).Perm (used' :: allocated (l ++ seg :: r)) := by
  have hbefore : allocated before = [] := by
    rcases hp.before with ⟨rfl, -⟩ | ⟨b, rfl, hb, -⟩
    · rfl
    exact allocated_cons_free hb
  have hbehind : allocated (behind ++ r) = allocated r := by
    rcases hp.behind with ⟨rfl, -⟩ | ⟨b, rfl, hb, -⟩
    · rfl
    exact allocated_cons_free hb
  rw [allocated_append, allocated_append, hbefore, append_nil, allocated_append,
    allocated_cons_free hfree, allocated_cons_used hused, hbehind]
  exact perm_middle

end

end

/-- **Allocating a resource**, where no allocation of memory fails: the manager stays as it is and
answers with an error, or a resource is out that was not before, and the manager covers the same
addresses. -/
theorem rmanAllocate_spec (h : rman.Ok) {ret : Except Errno RmanResource}
    (hseg1 : answers.seg₁ = true) (hseg2 : answers.seg₂ = true) (hres : answers.resource = true)
    (hrun : rmanAllocate rman devnode request answers = .ok (ret, rman')) :
    rman'.Ok ∧ (∀ x, Covered rman'.segs x ↔ Covered rman.segs x) ∧
      ((∃ e, ret = .error e) ∧ rman' = rman ∨
        ∃ res, ret = .ok res ∧ rman'.resources = res :: rman.resources) := by
  have hsize : 0 < rmanDefault request.size := by
    unfold rmanDefault
    split <;> omega
  unfold rmanAllocate at hrun
  dsimp only at hrun
  split at hrun
  · grind
  next halign =>
  split at hrun
  · grind
  next seg start hfind =>
  obtain ⟨⟨l, r, hsegs⟩, hfree, hstart, hstop⟩ := rmanFindSeg_spec
    (fun s hs => ⟨h.wf.pos s hs, h.wf.stop_lt s hs⟩) (by simpa using halign) hsize hfind
  have hwf := h.wf
  have hmerged := h.merged
  have hfresh := h.fresh_seg
  rw [hsegs] at hwf hmerged hfresh
  obtain ⟨segs', mid, before, used, behind, hbefore, hafter, hp, hbid, haid⟩ :=
    rmanSplit_at hwf hfree hstart hstop hsize hfresh
  rw [if_neg (by simp [hseg1]), hsegs, hbefore] at hrun
  rw [if_neg (by simp [hseg2]), hafter] at hrun
  rw [if_neg (by simp [hres])] at hrun
  obtain ⟨dev, hdev, hrun⟩ := bind_eq_ok.1 hrun
  obtain rfl : devnode = some dev := by
    cases devnode with
    | none => cases hdev
    | some d => cases hdev; rfl
  obtain ⟨hidl, hidr⟩ := (hp.wf hwf hfresh hbid haid rfl rfl rfl).id_notMem
  rw [modify_at hidl hidr] at hrun
  cases hrun
  have hin (s : RmanSeg) (hs : s ∈ l ++ before ++ { used with devnode := some dev } :: (behind ++ r)) :
      s.id < rman.fresh + 1 + 1 + 1 := by
    have := hp.id
    grind
  refine ⟨⟨hp.wf hwf hfresh hbid haid rfl rfl rfl, hp.merged hfree rfl hmerged, hin, ?_, ?_, ?_⟩,
    fun x => ?_, .inr ⟨_, rfl, rfl⟩⟩
  · intro res hres
    rcases mem_cons.1 hres with rfl | hres
    · exact Nat.lt_succ_self _
    exact Nat.lt_add_right 3 (h.fresh_resource res hres)
  · refine nodup_cons.2 ⟨fun hm => ?_, h.nodup_resource⟩
    obtain ⟨res, hres, heq⟩ := mem_map.1 hm
    exact absurd (h.fresh_resource res hres) (by rw [heq]; exact not_lt.2 (Nat.le_add_right _ 2))
  · have hout := h.out
    rw [hsegs] at hout
    exact ((hp.allocated_perm hfree rfl).map _).trans (hout.cons _)
  rw [hsegs]
  exact hp.covered { used with devnode := some dev } rfl rfl x

/-- **Freeing a resource** puts its segment back and merges it with its free neighbours. -/
theorem rmanFree_spec (h : rman.Ok) {resource : Option Nat}
    (hrun : rmanFree rman devnode resource = .ok rman') :
    rman'.Ok ∧ (∀ x, Covered rman'.segs x ↔ Covered rman.segs x) ∧
      (resource = none ∧ rman' = rman ∨ ∃ id, resource = some id ∧
        rman'.resources = remove RmanResource.id id rman.resources) := by
  cases resource with
  | none =>
    cases hrun
    exact ⟨h, fun _ => Iff.rfl, .inl ⟨rfl, rfl⟩⟩
  | some id => ?_
  obtain ⟨res, hres, hrun⟩ := bind_eq_ok.1 hrun
  obtain ⟨seg, hseg, hrun⟩ := bind_eq_ok.1 hrun
  obtain ⟨-, -, hrun⟩ := bind_eq_ok.1 hrun
  obtain ⟨l2, r2, hrs, hresid, hresl, hresr⟩ := get_eq_some h.nodup_resource (deref_eq_ok.1 hres)
  obtain ⟨l, r, hsegs, hsegid, hidl, hidr⟩ := get_eq_some h.wf.nodup (deref_eq_ok.1 hseg)
  have hwf := h.wf
  have hmerged := h.merged
  have hfresh := h.fresh_seg
  have hout := h.out
  rw [hsegs] at hwf hmerged hfresh hout
  rw [hrs] at hout
  obtain ⟨hml, hmr, -⟩ := segsMerged_middle.1 hmerged
  -- the segment of the resource is the allocated one that the resource was made from
  obtain ⟨halloc, htuple⟩ : seg.isAllocated = true ∧ (seg.id, seg.devnode, seg.start, seg.size) =
        (res.segId, some res.devnode, res.start, res.size) := by
    have hmem := hout.symm.subset (mem_map_of_mem
      (mem_append_right l2 (mem_cons_self : res ∈ res :: r2)))
    obtain ⟨seg0, hseg0, heq⟩ := mem_map.1 hmem
    obtain ⟨hin, halloc⟩ := mem_filter.1 hseg0
    have hid : seg0.id = seg.id := by rw [hsegid]; exact congrArg Prod.fst heq
    obtain rfl : seg0 = seg := by
      refine inj_on_of_nodup_map hwf.nodup hin (by simp) hid
    exact ⟨halloc, heq⟩
  have hfree : SegsWf (l ++ { seg with devnode := none } :: r) := by
    obtain ⟨hlr, hfit⟩ := segsWf_middle.1 hwf
    exact segsWf_middle.2 ⟨hlr, { hfit with }⟩
  have hmod : modify RmanSeg.id seg.id (fun _ => { seg with devnode := none }) rman.segs =
      l ++ { seg with devnode := none } :: r := by
    rw [hsegs, modify_at hidl hidr]
  simp only [hmod] at hrun
  obtain ⟨hwf', hroom, hmerged'⟩ := rmanMerge_at hfree rfl hml hmr
  cases hrun
  refine ⟨⟨hwf', hmerged', fun s' hs' => ?_, fun res' hres' => ?_, ?_, ?_⟩, fun x => ?_,
    .inr ⟨id, rfl, by rw [hresid]⟩⟩
  · obtain ⟨s, hs, hid⟩ := hroom.ids s' hs'
    rw [← hid]
    obtain ⟨hseg, hrest⟩ := forall_mem_middle.1 hfresh
    exact forall_mem_middle.2 ⟨hseg, hrest⟩ s hs
  · exact h.fresh_resource res' (mem_filter.1 hres').1
  · exact h.nodup_resource.sublist (filter_sublist.map _)
  · rw [hroom.allocated, allocated_append, hrs, remove_at hresl hresr]
    rw [allocated_append, allocated_cons_used halloc] at hout
    simp only [map_append, map_cons, htuple] at hout ⊢
    exact (perm_middle.symm.trans (hout.trans perm_middle)).cons_inv
  rw [hroom.covered, hsegs]
  simp only [covered_append, covered_cons, stop]

/-! ## Runs -/

/-- A resource manager with the regions that it has accepted. -/
structure RmanState where
  rman : Rman
  regions : List (Nat × Nat) := []

/-- A call, with the answers of the allocators. -/
inductive RmanCall
  | addRegion (start size : Nat) (answers : RmanAnswers)
  | allocate (devnode : Option Nat) (request : ResourceRequest) (answers : RmanAnswers)
  | free (devnode resource : Option Nat)

/-- One call; the result is the resource, if the call makes one, or the error. -/
def RmanCall.step (s : RmanState) : RmanCall → Exec (Except Errno (Option RmanResource) × RmanState)
  | .addRegion start size answers =>
    match rmanAddRegion s.rman start size answers with
    | (some e, rman) => .ok (.error e, { s with rman })
    | (none, rman) => .ok (.ok none, { rman, regions := (start, size) :: s.regions })
  | .allocate devnode request answers => do
    let (ret, rman) ← rmanAllocate s.rman devnode request answers
    return (ret.map some, { s with rman })
  | .free devnode resource => do
    let rman ← rmanFree s.rman devnode resource
    return (.ok none, { s with rman })

/-- The calls that runs are made of: regions that are not empty and do not wrap around, and segments
that can be allocated. -/
def RmanCall.Admitted : RmanCall → Prop
  | .addRegion start size answers => 0 < size ∧ start + size < 2 ^ 64 ∧ answers.seg₁ = true
  | .allocate _ _ answers => answers.seg₁ = true ∧ answers.seg₂ = true
  | .free _ _ => True

/-- The resource of an allocation can be allocated as well. -/
def RmanCall.Granted : RmanCall → Prop
  | .allocate _ _ answers => answers.resource = true
  | _ => True

/-- What should hold of a resource manager: its segments are not empty, sorted and disjoint; they
cover the accepted regions and nothing else; a region is rejected exactly if it overlaps a segment;
free neighbours are merged; the allocated segments are, one to one, the resources that are out. -/
structure RmanState.Sound (s : RmanState) : Prop where
  nonempty : ∀ seg ∈ s.rman.segs, 0 < seg.size
  apart : s.rman.segs.Pairwise fun a b => a.stop ≤ b.start
  union : ∀ x, Covered s.rman.segs x ↔ ∃ region ∈ s.regions, region.1 ≤ x ∧ x < region.1 + region.2
  rejects : ∀ start size answers, (RmanCall.addRegion start size answers).Admitted →
    ((rmanAddRegion s.rman start size answers).1 = some .inval ↔ Overlaps s.rman.segs start size)
  merged : SegsMerged s.rman.segs
  segs_nodup : (s.rman.segs.map RmanSeg.id).Nodup
  resources_nodup : (s.rman.resources.map RmanResource.id).Nodup
  out : ((allocated s.rman.segs).map fun seg => (seg.id, seg.devnode, seg.start, seg.size)).Perm
    (s.rman.resources.map fun res => (res.segId, some res.devnode, res.start, res.size))

/-- The invariant of a run. -/
structure RmanState.Ok (s : RmanState) : Prop where
  rman : s.rman.Ok
  union : ∀ x, Covered s.rman.segs x ↔ ∃ region ∈ s.regions, region.1 ≤ x ∧ x < region.1 + region.2

theorem RmanState.Ok.sound (h : s.Ok) : s.Sound where
  nonempty := h.rman.wf.pos
  apart := h.rman.wf.apart
  union := h.union
  rejects start size answers ha := by
    rcases rmanAddRegion_spec h.rman ha.1 ha.2.1 ha.2.2 with ⟨hov, heq⟩ | ⟨hov, _, heq, -⟩
    · simp [heq, hov]
    simp [heq, hov]
  merged := h.rman.merged
  segs_nodup := h.rman.wf.nodup
  resources_nodup := h.rman.nodup_resource
  out := h.rman.out

/-- **One call** keeps the invariant, if the resource it makes can be allocated. -/
theorem RmanCall.step_ok {s' : RmanState} {call : RmanCall}
    {ret : Except Errno (Option RmanResource)} (h : s.Ok) (ha : call.Admitted) (hg : call.Granted)
    (hrun : call.step s = .ok (ret, s')) : s'.Ok := by
  cases call with
  | addRegion start size answers =>
    rcases rmanAddRegion_spec h.rman ha.1 ha.2.1 ha.2.2 with ⟨-, heq⟩ | ⟨-, rman', heq, hok, -, hcov⟩
    · simp only [step, heq] at hrun
      cases hrun
      exact h
    simp only [step, heq] at hrun
    cases hrun
    refine ⟨hok, fun x => ?_⟩
    rw [hcov, h.union]
    simp only [mem_cons, exists_eq_or_imp]
    exact or_comm
  | allocate devnode request answers =>
    obtain ⟨⟨ret', rman'⟩, halloc, hrun⟩ := bind_eq_ok.1 hrun
    obtain ⟨hok, hcov, -⟩ := rmanAllocate_spec h.rman ha.1 ha.2 hg halloc
    cases hrun
    exact ⟨hok, fun x => (hcov x).trans (h.union x)⟩
  | free devnode resource =>
    obtain ⟨rman', hfree, hrun⟩ := bind_eq_ok.1 hrun
    obtain ⟨hok, hcov, -⟩ := rmanFree_spec h.rman hfree
    cases hrun
    exact ⟨hok, fun x => (hcov x).trans (h.union x)⟩

/-- **Resource managers are sound** in every state of a run in which the resources that are allocated
can be, from an empty manager on. -/
theorem rman_sound (type : BitVec 32) (calls : List RmanCall) (ha : ∀ call ∈ calls, call.Admitted)
    (hg : ∀ call ∈ calls, call.Granted) :
    StatesAll RmanCall.step RmanState.Sound { rman := { type } } calls := by
  refine statesAll_of_invariant (Q := fun _ call => call.Admitted ∧ call.Granted)
    (fun _ => RmanState.Ok.sound) (fun s call ret s' h hq hrun => ?_) ?_
    (CallsAll.of_mem fun call hcall _ => ⟨ha call hcall, hg call hcall⟩)
  · exact RmanCall.step_ok h hq.1 hq.2 hrun
  refine ⟨⟨⟨nodup_nil, ?_, ?_, List.Pairwise.nil⟩, isChain_nil, ?_, ?_, nodup_nil,
    List.Perm.refl _⟩, ?_⟩ <;> simp [Covered]

/-- A request for one unit anywhere in a range. -/
def unitRequest (start stop : Nat) (h : stop < 2 ^ 64) : ResourceRequest where
  start
  stop
  size := 1
  align := 1
  flags := 0
  stop_lt := h

/-- The interrupt lines of a machine: two regions that touch, two devices that take a line each, and
the first one gives it back. -/
theorem rman_sound_interrupts :
    StatesAll RmanCall.step RmanState.Sound { rman := { type := 1 } }
      [.addRegion 0 16 {}, .addRegion 16 8 {}, .allocate (some 100) (unitRequest 4 24 (by decide)) {},
        .allocate (some 101) (unitRequest 0 24 (by decide)) {}, .free (some 100) (some 4)] :=
  rman_sound 1 _ (by simp [RmanCall.Admitted]) (by simp [RmanCall.Granted])

/-- **Pieces that stay apart.** A line is asked for in the middle of a free region and the resource
cannot be allocated: the region is left in three free pieces. -/
theorem rman_splits_stay :
    ¬ ∀ (type : BitVec 32) (calls : List RmanCall), (∀ call ∈ calls, call.Admitted) →
      StatesAll RmanCall.step RmanState.Sound { rman := { type } } calls := by
  intro h
  have hrun := h 1 [.addRegion 0 16 {},
    .allocate (some 100) (unitRequest 4 16 (by decide)) { resource := false }]
    (by simp [RmanCall.Admitted])
  obtain ⟨-, hrun⟩ := hrun
  obtain ⟨-, hrun⟩ := hrun _ _ rfl
  have hmerged := (hrun _ _ rfl).merged
  exact absurd (isChain_cons_cons.1 hmerged).1 (by simp [RmanSeg.Mergeable]; decide)

end Stanix
