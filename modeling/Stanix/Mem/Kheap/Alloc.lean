import Stanix.Mem.Kheap.Free

/-!
# Allocating in the kernel heap

The search for a segment (`Kheap.Rep.find`), the growth of the region at its last segment
(`Kheap.Rep.grow`) and the cut of a segment that is larger than needed (`Kheap.Rep.cut`), put
together in `Kheap.Rep.kmalloc`. The code does not ask whether the region is still below the kernel
image when it grows: `KmallocFits` says that it is.
-/

namespace Stanix

open Exec List Function Tiling

/-! ## When the heap may grow -/

/-- By how much the region grows at its last segment. -/
def kheapGrowth (amount : Nat) (seg : HeapSegment) : Nat :=
  if seg.magic = heapSegMagicFree then
    pageAlignUp (wrap (wrapSub amount seg.length + heapSegmentSize + 16))
  else pageAlignUp (wrap (amount + heapSegmentSize * 2 + 16))

/-- The headers that next pointers lead to from `p`. -/
def kheapSegments (mem : Nat → HeapSegment) : Nat → Nat → List Nat
  | 0, _ => []
  | fuel + 1, p => if p = 0 then [] else p :: kheapSegments mem fuel (mem p).next

/-- A request finds a free segment that is large enough, or the region stays below the kernel image when
it grows. -/
def KmallocFits (s : Kheap) (amount : Nat) : Prop :=
  (∃ a ∈ kheapSegments s.mem s.length s.firstSeg,
    (s.mem a).magic = heapSegMagicFree ∧ kmallocRound amount ≤ (s.mem a).length) ∨
  ∀ a ∈ kheapSegments s.mem s.length s.firstSeg, (s.mem a).next = 0 →
    s.start + s.length + kheapGrowth (kmallocRound amount) (s.mem a) ≤ memKernelStart
  deriving Decidable

theorem pageAlignUp_spec {n : Nat} (h : n ≤ 2 ^ 63) :
    n ≤ pageAlignUp n ∧ pageAlignUp n < n + pageSize ∧ pageAlignUp n % pageSize = 0 := by
  unfold pageAlignUp wrap pageSize
  omega

theorem kmallocRound_spec {amount : Nat} (h : amount ≤ 2 ^ 62) :
    amount ≤ kmallocRound amount ∧ kmallocRound amount ≤ 2 ^ 62 ∧ kmallocRound amount % 16 = 0 := by
  unfold kmallocRound wrap
  split <;> omega

namespace Kheap.Rep

variable {s : Kheap} {cs l r : List Piece} {c : Piece} {amount offset : Nat}

theorem length_le (h : s.Rep cs) : cs.length ≤ s.length := by
  have hle : ∀ cs : List Piece, cs.length ≤ extent heapSegmentSize cs := by
    intro cs
    induction cs with
    | nil => exact le_rfl
    | cons c cs ih =>
      simp only [length_cons, extent, heapSegmentSize] at ih ⊢
      omega
  rw [h.length]
  exact hle cs

theorem segments_eq (h : s.Rep cs) :
    kheapSegments s.mem s.length s.firstSeg = addrs heapSegmentSize s.start cs := by
  have hgo : ∀ {r l fuel}, s.Rep (l ++ r) → r ≠ [] → r.length ≤ fuel →
      kheapSegments s.mem fuel (s.addr l) = addrs heapSegmentSize (s.addr l) r := by
    intro r
    induction r with
    | nil => exact fun _ hr => absurd rfl hr
    | cons c r ih => ?_
    intro l fuel h _ hfuel
    cases fuel with
    | zero => exact absurd hfuel (by simp)
    | succ fuel => ?_
    rw [kheapSegments, if_neg h.addr_ne_zero, h.mem_eq, addrs, ← addr_concat]
    cases r with
    | nil => cases fuel <;> simp [kheapSegments, addrs]
    | cons d r =>
      rw [if_neg (cons_ne_nil d r), ih (by simpa using h) (cons_ne_nil d r)
        (Nat.le_of_succ_le_succ hfuel)]
  rw [h.first]
  exact hgo (l := []) h h.ne_nil h.length_le

/-! ## Searching -/

theorem skip_of_not (h : ¬ (c.used = false ∧ amount ≤ c.len)) :
    c.len < amount ∨ heapSegMagic c.used ≠ heapSegMagicFree := by
  rw [ne_eq, heapSegMagic_eq_free]
  exact (not_and_or.1 h).symm.imp_left Nat.lt_of_not_le

/-- **The search** ends at a free segment that is large enough, or at the last one. -/
theorem find {fuel : Nat} (h : s.Rep (l ++ c :: r)) (hfuel : r.length < fuel) :
    (∃ l' c' r', l ++ c :: r = l' ++ c' :: r' ∧ c'.used = false ∧ amount ≤ c'.len ∧
      kmallocFind amount fuel s (s.addr l) = .ok (s.addr l', s)) ∨
    ∃ l' c', l ++ c :: r = l' ++ [c'] ∧ (∀ d ∈ c :: r, d.used = false → d.len < amount) ∧
      kmallocFind amount fuel s (s.addr l) = kmallocGrow s (s.addr l') amount := by
  induction fuel generalizing l c r with
  | zero => exact absurd hfuel (Nat.not_lt_zero _)
  | succ fuel ih => ?_
  rw [kmallocFind, kheapLoad_eq h.addr_ne_zero, ok_bind, h.mem_eq]
  by_cases hc : c.used = false ∧ amount ≤ c.len
  · refine .inl ⟨l, c, r, rfl, hc.1, hc.2, ?_⟩
    simp [hc.1, hc.2]
  rw [if_pos (skip_of_not hc)]
  cases r with
  | nil =>
    refine .inr ⟨l, c, rfl, fun d hd hfree => ?_, rfl⟩
    grind
  | cons e r => ?_
  have h' : s.Rep ((l ++ [c]) ++ e :: r) := by simpa using h
  rw [if_neg (cons_ne_nil e r), if_neg h'.addr_ne_zero]
  rcases ih h' (Nat.lt_of_succ_lt_succ hfuel) with hfound | ⟨l', c', heq, hall, hgrow⟩
  · simpa using Or.inl hfound
  refine .inr ⟨l', c', by simpa using heq, forall_mem_cons.2 ⟨fun hfree => ?_, hall⟩, hgrow⟩
  by_contra hlt
  exact hc ⟨hfree, not_lt.1 hlt⟩

/-! ## Growing -/

/-- The last segment is replaced by others, and the region ends where they do. -/
theorem extend {mid : List Piece} {mem' : Nat → HeapSegment} (h : s.Rep (l ++ [c]))
    (hmid : mid ≠ []) (hext : extent heapSegmentSize mid = heapSegmentSize + c.len + offset)
    (hmod : ∀ d ∈ mid, d.len % 16 = 0) (hlast : ∀ d ∈ mid.getLast?, 0 < d.len)
    (hfits : s.start + s.length + offset ≤ memKernelStart)
    (hnew : Walk heapSegmentSize (HeapHeader mem') (s.back l) (s.addr l) mid 0)
    (hrest : ∀ a, a < s.addr l → mem' a = s.mem a) :
    Rep { s with length := s.length + offset, mem := mem' } (l ++ mid) := by
  refine ⟨h.pos, h.start_mod, h.first, by simp [hmid], ?_, ?_, ?_, ?_, ?_⟩
  · show s.length + offset = _
    rw [h.length, extent_append, extent_append]
    simp only [extent]
    omega
  · have hwalk : Walk heapSegmentSize (HeapHeader mem') 0 s.start (l ++ (mid ++ [])) 0 :=
      Walk.replace [c] mid h.walk (cons_ne_nil _ _) hmid (fun hr => absurd rfl hr)
      (fun a ha c n b hH => (hrest a ?_).trans hH) hnew
      (fun hr => absurd rfl hr) (fun a ha => absurd ha not_mem_nil) heapSegmentSize_pos
    · simpa using hwalk
    have hbounds := (addrs_bounds ha).2
    simp only [heapSegmentSize] at hbounds
    unfold addr
    simp only [heapSegmentSize]
    omega
  · intro d hd
    rcases mem_append.1 hd with hd | hd
    · exact h.mod d (mem_append_left _ hd)
    exact hmod d hd
  · intro d hd
    rw [List.getLast?_append_of_ne_nil _ hmid] at hd
    exact hlast d hd
  show s.start + (s.length + offset) ≤ memKernelStart
  omega

theorem changeKheapSize_eq {s : Kheap} (hpos : 0 < s.start) (hne : offset ≠ 0)
    (hmod : offset % pageSize = 0) (hfits : s.start + s.length + offset ≤ 2 ^ 64) :
    changeKheapSize s offset = { s with length := s.length + offset } := by
  unfold changeKheapSize
  rw [if_neg hne, Nat.div_mul_cancel (Nat.dvd_of_mod_eq_zero hmod), wrap_of_lt (by omega)]

/-- **The region grows**: its last segment is then free, and large enough to be cut. -/
theorem grow (h : s.Rep (l ++ [c])) (hamount : amount ≤ 2 ^ 62)
    (hskip : c.used = false → c.len < amount)
    (hfits : s.start + s.length + kheapGrowth amount (s.mem (s.addr l)) ≤ memKernelStart) :
    ∃ s' l' c', kmallocGrow s (s.addr l) amount = .ok (s'.addr l', s') ∧ s'.Rep (l' ++ [c']) ∧
      s'.start = s.start ∧ c'.used = false ∧ amount + heapSegmentSize + 16 ≤ c'.len ∧
      usedFrom heapSegmentSize s.start l' = usedFrom heapSegmentSize s.start (l ++ [c]) ∧
      (Coalesced (l ++ [c]) → Coalesced (l' ++ [c'])) := by
  have hx : s.addr l ≠ 0 := h.addr_ne_zero
  have hmem := h.mem_eq
  have hcmod := h.mod c (by simp)
  have haddr := addr_le [c] (r := []) h
  simp only [extent] at haddr
  unfold kmallocGrow kheapGrowth at *
  rw [kheapLoad_eq hx, ok_bind]
  by_cases hfree : c.used = false
  · -- the last segment is free and becomes larger
    have hlt := hskip hfree
    simp only [hmem, heapSegMagic_eq_free, hfree, if_true] at hfits ⊢
    rw [wrapSub_of_le hlt.le (by omega), wrap_of_lt (by simp only [heapSegmentSize]; omega)] at *
    obtain ⟨h1, h2, h3⟩ := pageAlignUp_spec
      (n := amount - c.len + heapSegmentSize + 16) (by simp only [heapSegmentSize]; omega)
    generalize pageAlignUp (amount - c.len + heapSegmentSize + 16) = offset at *
    have hspace := hfits.trans memKernelStart_le
    rw [changeKheapSize_eq h.pos (by simp only [heapSegmentSize] at h1; omega) h3 hspace,
      kheapModify_eq hx]
    simp only [ok_bind, pure_eq, hmem, hfree]
    have hlen : wrap (c.len + offset) = c.len + offset := by
      refine wrap_of_lt ?_
      have hle := h.length
      rw [extent_append] at hle
      simp only [extent] at hle
      have := h.pos
      omega
    rw [hlen]
    refine ⟨_, l, ⟨c.len + offset, false⟩, rfl, h.extend
      (cons_ne_nil _ _) ?_ ?_ ?_ hfits ⟨?_, trivial⟩ ?_, rfl, rfl, ?_, ?_, ?_⟩
    · simp only [extent]
      omega
    · intro d hd
      rw [mem_singleton.1 hd]
      simp only [pageSize] at h3
      simp only
      omega
    · grind
    · unfold HeapHeader
      rw [update_self]
      rfl
    · intro a ha
      exact update_of_ne ha.ne _ _
    · show amount + heapSegmentSize + 16 ≤ c.len + offset
      omega
    · simp [usedFrom_append, usedFrom, hfree]
    intro hco
    obtain ⟨hl, hr, hside⟩ := hco.sides
    exact hl.insert hr (hside hfree).1 (hside hfree).2
  -- a new segment is put behind the last one
  have hused : c.used = true := by simpa using hfree
  have haddr' : s.addr l + c.len + heapSegmentSize = s.addr (l ++ [c]) := by
    rw [addr_concat]
    omega
  have hmagic : ¬ heapSegMagic c.used = heapSegMagicFree := fun h => hfree (heapSegMagic_eq_free.1 h)
  simp only [hmem, hmagic, if_false] at hfits ⊢
  rw [wrap_of_lt (by simp only [heapSegmentSize]; omega)] at *
  obtain ⟨h1, h2, h3⟩ := pageAlignUp_spec
    (n := amount + heapSegmentSize * 2 + 16) (by simp only [heapSegmentSize]; omega)
  generalize pageAlignUp (amount + heapSegmentSize * 2 + 16) = offset at *
  have hspace := hfits.trans memKernelStart_le
  have hend : s.addr (l ++ [c]) + offset ≤ 2 ^ 64 := by
    rw [h.length] at hspace
    exact hspace
  have hlt := addr_lt_concat (s := s) (l := l) (c := c)
  have hy : s.addr (l ++ [c]) ≠ 0 := by omega
  rw [changeKheapSize_eq h.pos (by simp only [heapSegmentSize] at h1; omega) h3 hspace, haddr',
    wrap_of_lt (by simp only [heapSegmentSize] at h1; omega), kheapModify_eq hy, ok_bind,
    kheapModify_eq hx]
  simp only [ok_bind, pure_eq, update_of_ne hlt.ne, hmem]
  rw [wrapSub_of_le (by simp only [heapSegmentSize] at h1 ⊢; omega) (by omega)]
  refine ⟨⟨s.start, s.length + offset, s.firstSeg, update (update s.mem (s.addr (l ++ [c]))
        ⟨heapSegMagicFree, offset - heapSegmentSize, 0, s.addr l⟩) (s.addr l)
        ⟨heapSegMagic c.used, c.len, s.addr (l ++ [c]), s.back l⟩⟩,
    l ++ [c], ⟨offset - heapSegmentSize, false⟩, rfl, ?_, rfl, rfl, ?_, rfl, ?_⟩
  · rw [append_assoc, singleton_append]
    refine h.extend (cons_ne_nil _ _) ?_ ?_ ?_ hfits ⟨?_, ?_, trivial⟩ ?_
    · simp only [extent, heapSegmentSize] at h1 ⊢
      omega
    · intro d hd
      rcases mem_cons.1 hd with rfl | hd
      · exact hcmod
      rw [mem_singleton.1 hd]
      simp only [pageSize] at h3
      simp only [heapSegmentSize] at h1 ⊢
      omega
    · grind
    · unfold HeapHeader
      rw [update_self, addr_concat, if_neg (cons_ne_nil _ _)]
    · unfold HeapHeader
      rw [← addr_concat, update_of_ne hlt.ne', update_self]
      rfl
    grind
  · simp only [heapSegmentSize] at h1 ⊢
    omega
  intro hco
  refine isChain_append.2 ⟨hco, isChain_singleton _, fun d hd e he => ?_⟩
  rw [List.getLast?_concat] at hd
  cases hd
  exact .inl hused

/-! ## Cutting -/

/-- **A segment is cut in two** if it is large enough for that. -/
theorem cut (h : s.Rep (l ++ c :: r)) (hmod : amount % 16 = 0)
    (hle : amount + heapSegmentSize + 16 ≤ c.len) :
    ∃ s', kmallocCut s (s.addr l) amount = .ok s' ∧ s'.start = s.start ∧
      s'.Rep (l ++ ⟨amount, c.used⟩ :: ⟨c.len - (heapSegmentSize + amount), false⟩ :: r) := by
  have hx : s.addr l ≠ 0 := h.addr_ne_zero
  have hmem := h.mem_eq
  have haddr := addr_le [c] h
  simp only [extent] at haddr
  -- the new header lies between the cut one and the next one
  have hy : wrap (s.addr l + amount + heapSegmentSize) = s.addr l + (heapSegmentSize + amount) := by
    rw [wrap_of_lt (by simp only [heapSegmentSize] at *; omega)]
    omega
  have hxy : s.addr l < s.addr l + (heapSegmentSize + amount) := by
    simp only [heapSegmentSize]
    omega
  have hyz : s.addr l + (heapSegmentSize + amount) < s.addr (l ++ [c]) := by
    rw [addr_concat]
    omega
  have hy0 : s.addr l + (heapSegmentSize + amount) ≠ 0 := by omega
  have hlen : wrapSub c.len (heapSegmentSize + amount) = c.len - (heapSegmentSize + amount) :=
    wrapSub_of_le (by omega) (by simp only [heapSegmentSize] at haddr; omega)
  have hcond : wrap (amount + heapSegmentSize + 16) ≤ c.len := (Nat.mod_le _ _).trans hle
  unfold kmallocCut
  simp only [kheapLoad_eq hx, ok_bind, hmem, ge_iff_le, hcond, if_true, hy, hlen,
    kheapModify_eq hy0, kheapModify_eq hx, update_of_ne hxy.ne, update_of_ne hxy.ne',
    update_self]
  cases r with
  | nil =>
    simp only [if_true, ne_eq, not_true_eq_false, if_false]
    refine ⟨_, rfl, rfl, h.split hmod (by omega) ?_ ?_ (fun hr => absurd rfl hr) ?_⟩
    · simp
    · simp [update_of_ne hxy.ne']
    intro a h1 h2 _
    simp [update_of_ne h1, update_of_ne h2]
  | cons e r => ?_
  have hz0 : s.addr (l ++ [c]) ≠ 0 := by omega
  simp only [if_neg (cons_ne_nil e r), ne_eq, hz0, not_false_eq_true, if_true, ok_bind,
    kheapModify_eq hz0, update_of_ne hxy.ne, update_of_ne (hxy.trans hyz).ne,
    update_of_ne hyz.ne, update_self]
  refine ⟨_, rfl, rfl, h.split hmod (by omega) ?_ ?_ (fun _ => ?_) ?_⟩
  · simp
  · simp [update_of_ne hxy.ne']
  · simp [update_of_ne hyz.ne', update_of_ne (hxy.trans hyz).ne']
  grind

/-! ## The whole function -/

/-- A free segment that is large enough is cut and marked as in use. -/
theorem take (h : s.Rep (l ++ c :: r)) (hco : Coalesced (l ++ c :: r)) (hfree : c.used = false)
    (hamount : amount ≤ 2 ^ 62) (hmod : amount % 16 = 0) (hle : amount ≤ c.len) :
    ∃ s1 s' cs' len, kmallocCut s (s.addr l) amount = .ok s1 ∧
      (kheapModify s1 (s.addr l) fun g => { g with magic := heapSegMagicAllocated }) = .ok s' ∧
      s'.Rep cs' ∧ Coalesced cs' ∧ s'.start = s.start ∧ amount ≤ len ∧
      usedFrom heapSegmentSize s.start cs' = usedFrom heapSegmentSize s.start l ++
        (s.addr l, len) :: usedFrom heapSegmentSize (s.addr (l ++ [c])) r := by
  obtain ⟨hl, hr, hside⟩ := hco.sides
  obtain ⟨hlast, hhead⟩ := hside hfree
  have hend : ∀ {t : List Piece} {d : Piece}, d.used = true → Coalesced t → Coalesced (l ++ d :: t) := by
    intro t d hd ht
    refine isChain_append.2 ⟨hl, isChain_cons.2 ⟨fun _ _ => .inl hd, ht⟩, ?_⟩
    exact fun e he _ _ => .inl (hlast e he)
  by_cases hcut : amount + heapSegmentSize + 16 ≤ c.len
  · obtain ⟨s1, hs1, hstart1, h1⟩ := h.cut hmod hcut
    obtain ⟨s2, hs2, h2, hstart2⟩ := h1.mark true
    have haddr : s1.addr l = s.addr l := by rw [addr, hstart1]; rfl
    rw [haddr] at hs2
    refine ⟨s1, s2, _, amount, hs1, hs2, h2, hend rfl ?_, by rw [hstart2, hstart1], le_rfl, ?_⟩
    · exact isChain_cons.2 ⟨fun d hd => .inr (hhead d hd), hr⟩
    have hoffset : s.addr l + (heapSegmentSize + amount) +
        (heapSegmentSize + (c.len - (heapSegmentSize + amount))) =
          s.addr l + (heapSegmentSize + c.len) := by
      omega
    rw [usedFrom_append, addr_concat]
    simp only [usedFrom, if_true, Bool.false_eq_true, if_false, nil_append, singleton_append]
    rw [← hoffset]
    rfl
  obtain ⟨s2, hs2, h2, hstart2⟩ := h.mark true
  refine ⟨s, s2, _, c.len, ?_, hs2, h2, hend rfl hr, hstart2, hle, ?_⟩
  · unfold kmallocCut
    have hwrap : wrap (amount + heapSegmentSize + 16) = amount + heapSegmentSize + 16 :=
      wrap_of_lt (by simp only [heapSegmentSize]; omega)
    rw [kheapLoad_eq h.addr_ne_zero, ok_bind, h.mem_eq, hwrap, if_neg hcut]
    rfl
  rw [usedFrom_append, addr_concat]
  rfl

/-- A request for which there is room has it at the last segment, if the search has not found one.
-/
theorem roomy_of_fits (h : s.Rep (l ++ [c]))
    (hall : ∀ d ∈ l ++ [c], d.used = false → d.len < kmallocRound amount)
    (hfits : KmallocFits s amount) :
    s.start + s.length + kheapGrowth (kmallocRound amount) (s.mem (s.addr l)) ≤ memKernelStart := by
  unfold KmallocFits at hfits
  rw [h.segments_eq] at hfits
  rcases hfits with ⟨a, ha, hmagic, hle⟩ | hfits
  · -- such a segment would have been found
    obtain ⟨l', d, r', heq, rfl⟩ := exists_of_mem_addrs ha
    have hmem := (heq ▸ h).mem_eq
    unfold addr at hmem
    rw [hmem] at hmagic hle
    have hd : d ∈ l ++ [c] := by simp [heq]
    exact absurd hle (Nat.not_le_of_lt (hall d hd (heapSegMagic_eq_free.1 hmagic)))
  refine hfits (s.addr l) ?_ (by rw [h.mem_eq]; rfl)
  rw [addrs_append]
  exact mem_append_right _ mem_cons_self

/-- **The search, with growth if need be**, gives a free segment that is large enough. -/
theorem locate (h : s.Rep cs) (hco : Coalesced cs) (hamount : kmallocRound amount ≤ 2 ^ 62)
    (hfits : KmallocFits s amount) :
    ∃ s' l c r, kmallocFind (kmallocRound amount) s.length s s.firstSeg = .ok (s'.addr l, s') ∧
      s'.Rep (l ++ c :: r) ∧ Coalesced (l ++ c :: r) ∧ s'.start = s.start ∧ c.used = false ∧
      kmallocRound amount ≤ c.len ∧ usedFrom heapSegmentSize s.start cs =
        usedFrom heapSegmentSize s.start l ++ usedFrom heapSegmentSize (s.addr (l ++ [c])) r := by
  cases cs with
  | nil => exact absurd rfl h.ne_nil
  | cons d cs => ?_
  have hfuel : cs.length < s.length := h.length_le
  rw [h.first]
  rcases find (l := []) h hfuel with ⟨l, c, r, heq, hfree, hle, hfind⟩ | ⟨l, c, heq, hall, hgrow⟩
  · rw [nil_append] at heq
    rw [heq] at h hco ⊢
    refine ⟨s, l, c, r, hfind, h, hco, rfl, hfree, hle, ?_⟩
    rw [usedFrom_append, usedFrom, addr_concat]
    simp only [hfree, Bool.false_eq_true, if_false, nil_append]
    rfl
  rw [nil_append] at heq
  rw [heq] at h hco hall ⊢
  obtain ⟨s', l', c', hs', h', hstart, hfree, hlen, hused, hco'⟩ :=
    h.grow hamount (hall c (by simp)) (h.roomy_of_fits hall hfits)
  refine ⟨s', l', c', [], hgrow.trans hs', h', hco' hco, hstart, hfree, by omega, ?_⟩
  rw [← hused]
  simp [usedFrom]

/-- **`kmalloc` of a request for which there is room.** One segment is in use that was not before;
it is at least as long as requested, and all others in use stay as they are. -/
theorem kmalloc (h : s.Rep cs) (hco : Coalesced cs) (hamount : amount ≤ 2 ^ 62)
    (hfits : KmallocFits s amount) :
    ∃ s' cs' a len used1 used2, kmallocFlags s amount = .ok (a + heapSegmentSize, s') ∧ s'.Rep cs' ∧
      Coalesced cs' ∧ s'.start = s.start ∧ amount ≤ len ∧
      usedFrom heapSegmentSize s.start cs = used1 ++ used2 ∧
      usedFrom heapSegmentSize s.start cs' = used1 ++ (a, len) :: used2 := by
  obtain ⟨hround, hround', hmod⟩ := kmallocRound_spec hamount
  obtain ⟨s1, l, c, r, hfind, h1, hco1, hstart1, hfree, hlen, hused⟩ := h.locate hco hround' hfits
  obtain ⟨s2, s', cs', len, hcut, hmark, h', hco', hstart', hle, hused'⟩ :=
    h1.take hco1 hfree hround' hmod hlen
  have haddr : ∀ l, s1.addr l = s.addr l := fun l => by rw [addr, hstart1]; rfl
  refine ⟨s', cs', s1.addr l, len, _, _, ?_, h', hco', hstart'.trans hstart1, hround.trans hle,
    hused, ?_⟩
  · unfold kmallocFlags
    simp only [hfind, ok_bind, hcut, hmark, pure_eq]
    rw [wrap_of_lt h1.block_lt]
  rw [hstart1, haddr (l ++ [c])] at hused'
  exact hused'

end Kheap.Rep

end Stanix
