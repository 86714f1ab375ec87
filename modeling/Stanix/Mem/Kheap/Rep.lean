import Stanix.Mem.Kheap.Basic
import Stanix.Base.Tiling

/-!
# The segments of the kernel heap

`Kheap.Rep` says which pieces a heap consists of: its headers describe a tiling of the region. The
lemmas after it are the changes that the code makes to the memory: a segment is marked as free or in
use (`Kheap.Rep.mark`), merged with the next one (`Kheap.Rep.merge`), or cut in two
(`Kheap.Rep.split`), and all of them are cases of `Kheap.Rep.replace`. That no two free segments
follow each other is not part of `Kheap.Rep`, since it does not hold between these changes.
-/

namespace Stanix

open List Tiling Function

/-- The magic number of a segment. -/
def heapSegMagic (used : Bool) : Nat := if used then heapSegMagicAllocated else heapSegMagicFree

/-- The header at an address describes a piece. -/
def HeapHeader (mem : Nat → HeapSegment) (a : Nat) (c : Piece) (next prev : Nat) : Prop :=
  mem a = ⟨heapSegMagic c.used, c.len, next, prev⟩

/-- **The pieces of a heap.** -/
structure Kheap.Rep (s : Kheap) (cs : List Piece) : Prop where
  pos : 0 < s.start
  start_mod : s.start % 16 = 0
  first : s.firstSeg = s.start
  ne_nil : cs ≠ []
  length : s.length = extent heapSegmentSize cs
  walk : Walk heapSegmentSize (HeapHeader s.mem) 0 s.start cs 0
  mod : ∀ c ∈ cs, c.len % 16 = 0
  last : ∀ c ∈ cs.getLast?, 0 < c.len
  fits : s.start + s.length ≤ memKernelStart

theorem memKernelStart_le : memKernelStart ≤ 2 ^ 64 := by decide

@[simp] theorem heapSegMagic_eq_free {used : Bool} :
    heapSegMagic used = heapSegMagicFree ↔ used = false := by cases used <;> decide

theorem heapSegmentSize_pos : 0 < heapSegmentSize := by decide

namespace Kheap

/-- The address behind the pieces `l`, where the next header stands. -/
def addr (s : Kheap) (l : List Piece) : Nat := s.start + extent heapSegmentSize l

/-- The address of the last header of the pieces `l`, or NULL. -/
def back (s : Kheap) (l : List Piece) : Nat := lastAddr heapSegmentSize 0 s.start l

theorem addr_append (s : Kheap) (l r : List Piece) :
    s.addr (l ++ r) = s.addr l + extent heapSegmentSize r := by
  simp [addr, add_assoc]

theorem addr_concat (s : Kheap) (l : List Piece) (c : Piece) :
    s.addr (l ++ [c]) = s.addr l + (heapSegmentSize + c.len) := by
  simp [addr_append, extent]

theorem back_concat (s : Kheap) (l : List Piece) (c : Piece) : s.back (l ++ [c]) = s.addr l := by
  simp [back, addr, lastAddr_append, lastAddr]

namespace Rep

variable {s : Kheap} {cs l r : List Piece} {c : Piece} {mem' : Nat → HeapSegment} {d : Piece}

theorem mem_eq (h : s.Rep (l ++ c :: r)) :
    s.mem (s.addr l) = ⟨heapSegMagic c.used, c.len,
      if r = [] then 0 else s.addr (l ++ [c]), s.back l⟩ := by
  have hwalk := (walk_append.1 h.walk).2.1
  rw [addr_append]
  exact hwalk

theorem addr_le (mid : List Piece) (h : s.Rep (l ++ (mid ++ r))) :
    0 < s.addr l ∧ s.addr l + extent heapSegmentSize mid + extent heapSegmentSize r ≤ 2 ^ 64 := by
  have hpos := h.pos
  have hfits := h.fits.trans memKernelStart_le
  rw [h.length, extent_append, extent_append] at hfits
  unfold addr
  omega

/-- The block of a segment starts inside the address space: behind a segment of length zero there is
another one. -/
theorem block_lt (h : s.Rep (l ++ c :: r)) : s.addr l + heapSegmentSize < 2 ^ 64 := by
  have hle := (addr_le [c] h).2
  simp only [extent] at hle
  cases r with
  | nil =>
    have hlen := h.last c (by simp)
    omega
  | cons d r =>
    simp only [extent, heapSegmentSize] at hle ⊢
    omega

theorem extent_mod (hmod : ∀ c ∈ l, c.len % 16 = 0) : extent heapSegmentSize l % 16 = 0 := by
  induction l with
  | nil => rfl
  | cons c l ih => ?_
  have hc := hmod c mem_cons_self
  have hl := ih fun d hd => hmod d (mem_cons_of_mem c hd)
  simp only [extent, heapSegmentSize]
  simp only [heapSegmentSize] at hl
  omega

/-- **Some segments in a row are replaced** in memory, by others of the same extent. -/
theorem replace (mid mid' : List Piece) (h : s.Rep (l ++ (mid ++ r))) (hmid : mid ≠ [])
    (hmid' : mid' ≠ []) (hext : extent heapSegmentSize mid' = extent heapSegmentSize mid)
    (hmod : ∀ c ∈ mid', c.len % 16 = 0) (hlast : r = [] → ∀ c ∈ mid'.getLast?, 0 < c.len)
    (hnew : Walk heapSegmentSize (HeapHeader mem') (s.back l) (s.addr l) mid'
      (if r = [] then 0 else s.addr (l ++ mid)))
    (hhead : r ≠ [] → mem' (s.addr (l ++ mid)) = { s.mem (s.addr (l ++ mid)) with
      prev := lastAddr heapSegmentSize (s.back l) (s.addr l) mid' })
    (hrest : ∀ a, a + heapSegmentSize ≤ s.addr l ∨ s.addr (l ++ mid) + heapSegmentSize ≤ a →
      mem' a = s.mem a) : Rep { s with mem := mem' } (l ++ (mid' ++ r)) := by
  rw [addr_append] at hnew hhead hrest
  refine ⟨h.pos, h.start_mod, h.first, by simp [hmid'], ?_, ?_, ?_, ?_, h.fits⟩
  · rw [h.length]
    simp [hext]
  · refine h.walk.replace mid mid' hmid hmid' (fun _ => hext) ?_ hnew ?_ ?_ heapSegmentSize_pos
    · intro a ha c n b hH
      exact (hrest a (.inl (addrs_bounds ha).2)).trans hH
    · intro hr c n hH
      refine (hhead hr).trans ?_
      rw [show s.mem (s.addr l + extent heapSegmentSize mid) = _ from hH]
      rfl
    intro a ha hne c n b hH
    refine (hrest a (.inr ?_)).trans hH
    -- a header behind the first one is behind the whole first piece
    cases r with
    | nil => exact absurd ha not_mem_nil
    | cons d r => ?_
    rcases mem_cons.1 ha with rfl | ha
    · exact absurd rfl hne
    have hbounds := (addrs_bounds ha).1
    unfold addr
    omega
  · intro c hc
    simp only [mem_append] at hc
    rcases hc with hc | hc | hc
    · exact h.mod c (by simp [hc])
    · exact hmod c hc
    exact h.mod c (by simp [hc])
  intro c hc
  by_cases hr : r = []
  · subst hr
    rw [append_nil, List.getLast?_append_of_ne_nil _ hmid'] at hc
    exact hlast rfl c hc
  refine h.last c ?_
  rw [← append_assoc, List.getLast?_append_of_ne_nil _ hr] at hc ⊢
  exact hc

theorem prev_eq (mid : List Piece) (h : s.Rep (l ++ (mid ++ r))) (hr : r ≠ []) :
    (s.mem (s.addr (l ++ mid))).prev = s.back (l ++ mid) := by
  cases r with
  | nil => exact absurd rfl hr
  | cons d r =>
    rw [← append_assoc] at h
    rw [h.mem_eq]

/-- A segment is marked. -/
theorem mark (h : s.Rep (l ++ c :: r)) (used : Bool) :
    ∃ s', (kheapModify s (s.addr l) fun g => { g with magic := heapSegMagic used }) = .ok s' ∧
      s'.Rep (l ++ ⟨c.len, used⟩ :: r) ∧ s'.start = s.start := by
  have hpos := (addr_le [c] h).1
  rw [kheapModify_eq hpos.ne']
  refine ⟨_, rfl, ?_, rfl⟩
  refine replace [c] [⟨c.len, used⟩] h (cons_ne_nil _ _)
    (cons_ne_nil _ _) rfl ?_ ?_ ⟨?_, trivial⟩ ?_ ?_
  · intro d hd
    rw [mem_singleton.1 hd]
    exact h.mod c (by simp)
  · intro hr d hd
    subst hr
    cases hd
    exact h.last c (by simp)
  · unfold HeapHeader
    rw [update_self, h.mem_eq]
    rfl
  · intro hr
    have hne : s.addr (l ++ [c]) ≠ s.addr l := by
      rw [addr_concat]
      simp only [heapSegmentSize]
      omega
    rw [update_of_ne hne]
    have hprev := prev_eq [c] h hr
    rw [back_concat] at hprev
    show s.mem (s.addr (l ++ [c])) = { s.mem (s.addr (l ++ [c])) with prev := s.addr l }
    rw [← hprev]
  intro a ha
  refine update_of_ne ?_ _ _
  rw [addr_concat] at ha
  simp only [heapSegmentSize] at ha
  omega

theorem wrap_merge (h : s.Rep (l ++ c :: d :: r)) :
    wrap (c.len + (d.len + heapSegmentSize)) = c.len + (d.len + heapSegmentSize) := by
  obtain ⟨hpos, hle⟩ := addr_le [c, d] h
  simp only [extent] at hle
  exact wrap_of_lt (by omega)

/-- Two segments are merged: the first one takes the length and the next pointer of the second, and
the header behind them is linked to it. -/
theorem merge (h : s.Rep (l ++ c :: d :: r))
    (hfirst : mem' (s.addr l) = ⟨heapSegMagic c.used, c.len + (d.len + heapSegmentSize), if r = [] then 0 else s.addr (l ++ [c, d]), s.back l⟩)
    (hnext : r ≠ [] → mem' (s.addr (l ++ [c, d])) = { s.mem (s.addr (l ++ [c, d])) with prev := s.addr l })
    (hrest : ∀ a, a ≠ s.addr l → a ≠ s.addr (l ++ [c, d]) → mem' a = s.mem a) :
    Rep { s with mem := mem' } (l ++ ⟨c.len + (d.len + heapSegmentSize), c.used⟩ :: r) := by
  refine replace [c, d] [⟨c.len + (d.len + heapSegmentSize), c.used⟩] h
    (cons_ne_nil _ _) (cons_ne_nil _ _) ?_ ?_ ?_ ⟨hfirst, trivial⟩ hnext ?_
  · simp only [extent]
    omega
  · intro e he
    rw [mem_singleton.1 he]
    have hc := h.mod c (by simp)
    have hd := h.mod d (by simp)
    simp only [heapSegmentSize]
    omega
  · intro _ e he
    cases he
    exact Nat.lt_of_lt_of_le heapSegmentSize_pos
      ((Nat.le_add_left _ _).trans (Nat.le_add_left _ _))
  intro a ha
  rw [addr_append] at ha
  simp only [extent, heapSegmentSize] at ha
  refine hrest a (by omega) ?_
  rw [addr_append]
  simp only [extent, heapSegmentSize]
  omega

/-- A segment is cut in two: a header is written inside it, which takes the rest of its length and
its next pointer, and the header behind is linked to the new one. -/
theorem split {n : Nat} (h : s.Rep (l ++ c :: r)) (hmod : n % 16 = 0)
    (hle : n + heapSegmentSize < c.len)
    (hfirst : mem' (s.addr l) = ⟨heapSegMagic c.used, n, s.addr l + (heapSegmentSize + n), s.back l⟩)
    (hnew : mem' (s.addr l + (heapSegmentSize + n)) = ⟨heapSegMagicFree,
      c.len - (heapSegmentSize + n), if r = [] then 0 else s.addr (l ++ [c]), s.addr l⟩)
    (hnext : r ≠ [] → mem' (s.addr (l ++ [c])) =
      { s.mem (s.addr (l ++ [c])) with prev := s.addr l + (heapSegmentSize + n) })
    (hrest : ∀ a, a ≠ s.addr l → a ≠ s.addr l + (heapSegmentSize + n) → a ≠ s.addr (l ++ [c]) →
      mem' a = s.mem a) :
    Rep { s with mem := mem' }
      (l ++ ⟨n, c.used⟩ :: ⟨c.len - (heapSegmentSize + n), false⟩ :: r) := by
  refine replace [c] [⟨n, c.used⟩, ⟨c.len - (heapSegmentSize + n), false⟩] h
    (cons_ne_nil _ _) (cons_ne_nil _ _) ?_ ?_ ?_ ⟨hfirst, hnew, trivial⟩ hnext ?_
  · simp only [extent]
    omega
  · intro d hd
    have hcmod := h.mod c (by simp)
    rcases mem_cons.1 hd with rfl | hd
    · exact hmod
    rw [mem_singleton.1 hd]
    simp only [heapSegmentSize] at hle ⊢
    omega
  · grind
  intro a ha
  rw [addr_concat] at ha hrest
  simp only [heapSegmentSize] at ha hle hrest
  exact hrest a (by omega) (by omega) (by omega)

end Rep

end Kheap

end Stanix
