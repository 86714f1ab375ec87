import Stanix.Arch.Paging.Range

/-!
# Page tables refine a partial map

What the functions on ranges of pages should do to the map from virtual pages to frames and flags:
`MapExact`, `UnmapExact` and `ForeachExact`. On a range of the lower half they do it. On a range of
the upper half `mmu_map_pages` does it, and the loop over the entries of the range, with everything
that is built on it, does it only if there is no page to be found from the start of the range on.
-/

namespace Stanix

open Exec PageTable List PhysMem

variable {s s' : PhysMem} {root v size a : Nat}

/-- An address that the processor accepts: bits 48 to 63 are copies of bit 47. -/
def Canonical (a : Nat) : Prop := a < 2 ^ 47 ∨ 2 ^ 64 - 2 ^ 47 ≤ a ∧ a < 2 ^ 64

/-- A range of whole pages in one half of the address space. -/
structure CanonicalRange (v size : Nat) : Prop where
  aligned : v % pageSize = 0
  pages : size % pageSize = 0
  half : v + size ≤ 2 ^ 47 ∨ 2 ^ 64 - 2 ^ 47 ≤ v ∧ v < 2 ^ 64 ∧ v + size ≤ 2 ^ 64

/-- When `mmu_map_pages` succeeds, the pages of the range are mapped to the frames from `paddr` on, with
the flags given, and the other pages are mapped as before. Flags without the present flag map to
nothing. -/
def MapExact (s : PhysMem) (root v size : Nat) : Prop :=
  ∀ paddr flags s', paddr % pageSize = 0 → paddr + size ≤ 2 ^ 52 →
    mmuMapPages paging s root v paddr size flags = .ok (none, s') → ∀ a, Canonical a →
      s'.mapping root a =
        (if v ≤ a ∧ a < v + size then
          if HasFlag flags mmuFlagPresent then
            some (paddr + (pageAlignDown a - v), paging2mmuFlags (mmu2pagingFlags flags))
          else none
        else s.mapping root a) ∧
      mmuSpaceVirt2phys s' root a =
        if v ≤ a ∧ a < v + size then
          if HasFlag flags mmuFlagPresent then some (paddr + (a - v)) else none
        else mmuSpaceVirt2phys s root a

/-- `mmu_unmap_pages` returns, and the pages of the range are mapped to nothing and the other pages as
before. -/
def UnmapExact (s : PhysMem) (root v size : Nat) : Prop :=
  ∃ s', mmuUnmapPages paging s root v size = .ok s' ∧
    ∀ a, Canonical a → s'.mapping root a =
      if v ≤ a ∧ a < v + size then none else s.mapping root a

/-- The loop `mmu_foreach_entry_range` ends, and it visits the pages of the range that are mapped, in
ascending order. -/
def ForeachExact (s : PhysMem) (root v size : Nat) : Prop :=
  ∃ visited, mmuVisited paging s root v (wrap (v + size)) = .ok visited ∧
    visited.Pairwise (· < ·) ∧
    ∀ a, a ∈ visited ↔ v ≤ a ∧ a < v + size ∧ a % pageSize = 0 ∧ s.mapping root a ≠ none

/-! ## Mapping -/

theorem CanonicalRange.page_iff (h : CanonicalRange v size) (ha : Canonical a) :
    (v / pageSize % 512 ^ 4 ≤ a / pageSize % 512 ^ 4 ∧
      a / pageSize % 512 ^ 4 < v / pageSize % 512 ^ 4 + size / pageSize) ↔ v ≤ a ∧ a < v + size := by
  obtain ⟨h1, h2, h3⟩ := h
  simp only [pageSize, Canonical] at *
  omega

theorem CanonicalRange.frame (h : CanonicalRange v size) (hin : v ≤ a ∧ a < v + size) :
    (a / pageSize % 512 ^ 4 - v / pageSize % 512 ^ 4) * pageSize = pageAlignDown a - v ∧
      (pageAlignDown a - v) % pageSize = 0 ∧ pageAlignDown a - v < size := by
  obtain ⟨h1, h2, h3⟩ := h
  simp only [pageSize, pageAlignDown] at *
  omega

/-- `mmu_map_pages`, when it succeeds: the values of the pages. -/
theorem mmuMapPages_spec {paddr : Nat} {flags : BitVec 64} (h : s.Space 512 root)
    (hr : CanonicalRange v size) (hmax : paddr + size ≤ 2 ^ 52)
    (hrun : mmuMapPages paging s root v paddr size flags = .ok (none, s')) :
    s'.Space 512 root ∧ ∀ u, leaf s'.word 3 root u =
      if v / pageSize % 512 ^ 4 ≤ u % 512 ^ 4 ∧
          u % 512 ^ 4 < v / pageSize % 512 ^ 4 + size / pageSize then
        mapValue (paddr + (u % 512 ^ 4 - v / pageSize % 512 ^ 4) * pageSize) flags
      else leaf s.word 3 root u := by
  have hsize := Nat.div_mul_cancel (Nat.dvd_of_mod_eq_zero hr.pages)
  have hhalf := hr.half
  rw [mmuMapPages, assert_of hr.aligned, assert_of hr.pages, ok_bind, ok_bind] at hrun
  obtain ⟨hspace, hleaf⟩ := (mapPagesLoop_spec h
    hr.aligned (by rw [hsize]; omega) (by simp only [pageSize] at *; omega)
    (by rw [hsize]; exact hmax) nofun).1 s' hrun
  exact ⟨hspace, fun u => hleaf u (Nat.mod_lt _ (by decide))⟩

/-- **`mmu_map_pages`** is exact in both halves. -/
theorem MapExact.of_range (h : s.Space 512 root) (hr : CanonicalRange v size) :
    MapExact s root v size := by
  intro paddr flags s' hp hmax hrun a ha
  obtain ⟨-, hleaf⟩ := mmuMapPages_spec h hr hmax hrun
  have hmapping : s'.mapping root a =
      if v ≤ a ∧ a < v + size then
        if HasFlag flags mmuFlagPresent then
          some (paddr + (pageAlignDown a - v), paging2mmuFlags (mmu2pagingFlags flags))
        else none
      else s.mapping root a := by
    rw [mapping_eq, hleaf]
    by_cases hin : v ≤ a ∧ a < v + size
    · rw [if_pos ((hr.page_iff ha).2 hin), if_pos hin]
      obtain ⟨hframe, hmod, hlt⟩ := hr.frame hin
      rw [hframe, entryMapping_mapValue (by rw [Nat.add_mod, hp, hmod]; rfl) (by omega)]
    rw [if_neg (mt (hr.page_iff ha).1 hin), if_neg hin, mapping_eq]
  refine ⟨hmapping, ?_⟩
  rw [mmuSpaceVirt2phys_eq, mmuSpaceVirt2phys_eq, hmapping]
  split
  · next hin =>
    split
    · have := hr.aligned
      simp only [Option.map_some, Option.some.injEq, pageSize, pageAlignDown] at *
      omega
    rfl
  rfl

/-! ## The loop over a range -/

theorem PhysMem.mem_presentPages {start count : Nat} : a ∈ s.presentPages root start count ↔
    ∃ u, a = u * pageSize ∧ start ≤ u ∧ u < start + count ∧ Present (leaf s.word 3 root u) := by
  simp only [presentPages, mem_map, mem_filter]
  constructor
  · grind
  grind

theorem PhysMem.presentPages_pairwise (s : PhysMem) (root start count : Nat) :
    (s.presentPages root start count).Pairwise (· < ·) := by
  refine List.Pairwise.map _ (fun u w huw => ?_)
    (List.Pairwise.filter _ (pairwise_lt_range' (s := start) (n := count)))
  exact Nat.mul_lt_mul_of_pos_right huw (by decide)

/-- **In the lower half** the loop and `mmu_unmap_pages` are exact. -/
theorem exact_of_low (h : s.Space 512 root) (hr : CanonicalRange v size) (hlow : v + size ≤ 2 ^ 47) :
    UnmapExact s root v size ∧ ForeachExact s root v size := by
  obtain ⟨hv, hsize, -⟩ := id hr
  obtain ⟨u, rfl⟩ : ∃ u, v = u * pageSize := ⟨_, (Nat.div_mul_cancel (Nat.dvd_of_mod_eq_zero hv)).symm⟩
  obtain ⟨k, rfl⟩ : ∃ k, size = k * pageSize :=
    ⟨_, (Nat.div_mul_cancel (Nat.dvd_of_mod_eq_zero hsize)).symm⟩
  have hlt : u + k < 512 ^ 4 := by simp only [pageSize] at hlow; omega
  have hstop : wrap (u * pageSize + k * pageSize) = (u + k) * pageSize := by
    rw [wrap_of_lt (by omega), add_mul]
  constructor
  · obtain ⟨s', hrun, hun⟩ := mmuUnmapPages_low h.owns (by omega) hlt
    refine ⟨s', hrun, fun a ha => ?_⟩
    rw [mapping_eq, hun.leaf _ (Nat.mod_lt _ (by decide)), mapping_eq]
    have hiff := hr.page_iff ha
    rw [Nat.mul_div_cancel _ (by decide), Nat.mul_div_cancel _ (by decide),
      Nat.mod_eq_of_lt (by omega)] at hiff
    by_cases hin : u * pageSize ≤ a ∧ a < u * pageSize + k * pageSize
    · obtain ⟨h1, h2⟩ := hiff.2 hin
      split
      · exact entryMapping_eq_none.2 not_hasFlag_zero
      next hp => exact entryMapping_eq_none.2 fun hp' => hp ⟨h1, h2, hp'⟩
    rw [if_neg hin, if_neg fun hc => hin (hiff.1 ⟨hc.1, hc.2.1⟩)]
  refine ⟨_, by rw [hstop]; exact mmuVisited_low (by omega) hlt, s.presentPages_pairwise .., fun a => ?_⟩
  rw [mem_presentPages, Ne, mapping_eq_none, not_not]
  constructor
  · rintro ⟨w, rfl, h1, h2, hp⟩
    rw [Nat.mul_div_cancel _ (by decide)]
    refine ⟨Nat.mul_le_mul_right _ h1, ?_, Nat.mul_mod_left .., hp⟩
    rw [← add_mul]
    exact Nat.mul_lt_mul_of_pos_right (by omega) (by decide)
  rintro ⟨h1, h2, h3, hp⟩
  refine ⟨a / pageSize, (Nat.div_mul_cancel (Nat.dvd_of_mod_eq_zero h3)).symm, ?_, ?_, hp⟩ <;>
    simp only [pageSize] at * <;> omega

/-- No page is mapped from the start of a range of the upper half on. -/
def NoneFrom (s : PhysMem) (root v : Nat) : Prop :=
  ∀ a, v ≤ a → a < 2 ^ 64 → s.mapping root a = none

theorem leaf_high (w : Nat → BitVec 64) (root u : Nat) :
    leaf w 3 root ((u * pageSize + (2 ^ 64 - 2 ^ 48)) / pageSize) = leaf w 3 root u := by
  refine leaf_congr_digits ?_
  simp only [pageSize]
  omega

theorem mmuGetNextEntry_high (hv : 2 ^ 64 - 2 ^ 47 ≤ v) (hlt : v < 2 ^ 64) (haligned : v % pageSize = 0) :
    mmuGetNextEntry s root v = none ↔ NoneFrom s root v := by
  have hspec := mmuGetNextEntry_spec s root v
  constructor
  · intro hnone a hva ha
    rw [hnone] at hspec
    rw [mapping_eq_none, ← leaf_congr_digits (Nat.mod_mod _ (512 ^ (3 + 1)))]
    refine hspec _ ?_ (Nat.mod_lt _ (by decide))
    simp only [pageSize]
    omega
  intro hnone
  cases hfound : mmuGetNextEntry s root v with
  | none => rfl
  | some found => ?_
  rw [hfound] at hspec
  obtain ⟨u, -, hu, hlt', hwalk, hp, -⟩ := hspec
  -- the address of the page, with its sign
  have ha := hnone (u * pageSize + (2 ^ 64 - 2 ^ 48))
    (by simp only [pageSize] at *; omega) (by simp only [pageSize]; omega)
  rw [mapping_eq_none, leaf_high, leaf_of_walk hwalk] at ha
  exact absurd hp ha

theorem visited_mono {σ Sp E : Type} {M : Mmu σ Sp E} {sp : Sp} {stop rounds start : Nat}
    {s : σ × List Nat} {r : σ × List Nat}
    (h : mmuForeachEntryRange M sp stop (fun vaddr _ (s, visited) => .ok (s, visited ++ [vaddr]))
      rounds start s = .ok r) : ∀ a ∈ s.2, a ∈ r.2 := by
  induction rounds generalizing start s with
  | zero => cases h
  | succ rounds ih => ?_
  rw [mmuForeachEntryRange] at h
  split at h
  · cases h
    exact fun a ha => ha
  split at h
  · exact fun a ha => ih h a (mem_append_left _ ha)
  cases h
  exact fun a ha => ha

section

variable (hr : CanonicalRange v size) (hv : 2 ^ 64 - 2 ^ 47 ≤ v) (hlt : v < 2 ^ 64)
  (hend : v + size ≤ 2 ^ 64)
include hr hv hlt hend

theorem exact_of_noneFrom (hnone : NoneFrom s root v) :
    UnmapExact s root v size ∧ ForeachExact s root v size := by
  have hfound := (mmuGetNextEntry_high hv hlt hr.aligned).2 hnone
  constructor
  · refine ⟨s, ?_, fun a _ => ?_⟩
    · rw [mmuUnmapPages, assert_of hr.aligned, assert_of hr.pages, ok_bind, ok_bind,
        mmuRounds, mmuForeachEntryRange, paging_getNextEntry, hfound]
      rfl
    split
    · next hin => exact hnone a hin.1 (hin.2.trans_le hend)
    rfl
  refine ⟨[], ?_, List.Pairwise.nil, fun a => ?_⟩
  · rw [mmuVisited, mmuRounds, mmuForeachEntryRange, paging_getNextEntry, hfound]
    rfl
  refine iff_of_false not_mem_nil ?_
  rintro ⟨h1, h2, -, h4⟩
  exact h4 (hnone a h1 (h2.trans_le hend))

/-- A range of the upper half from whose start on a page is mapped: the loop leaves the range, or it
misses the page. -/
theorem not_foreachExact (hsome : ¬ NoneFrom s root v) : ¬ ForeachExact s root v size := by
  rintro ⟨visited, hrun, -, hmem⟩
  have hspec := mmuGetNextEntry_spec s root v
  rw [← mmuGetNextEntry_high hv hlt hr.aligned] at hsome
  obtain ⟨⟨e, a⟩, hfound⟩ := Option.ne_none_iff_exists'.1 hsome
  rw [hfound] at hspec
  obtain ⟨u, rfl, hu, hlt', hwalk, hp, -⟩ := hspec
  obtain ⟨⟨s', l⟩, hloop, hret⟩ := bind_eq_ok.1 hrun
  cases hret
  rw [mmuRounds, mmuForeachEntryRange, paging_getNextEntry, hfound] at hloop
  have hsmall : u * pageSize < 2 ^ 48 := by simp only [pageSize]; omega
  by_cases htop : v + size = 2 ^ 64
  · -- the end of the range is zero, and nothing is visited
    have hstop : wrap (v + size) = 0 := by rw [htop]; rfl
    simp only [hstop, Nat.not_lt_zero, if_false, Except.ok.injEq, Prod.mk.injEq] at hloop
    obtain ⟨rfl, rfl⟩ := hloop
    refine not_mem_nil ((hmem (u * pageSize + (2 ^ 64 - 2 ^ 48))).2 ⟨?_, ?_, ?_, ?_⟩)
    · have haligned := hr.aligned
      simp only [pageSize] at hu haligned ⊢
      omega
    · rw [htop]
      omega
    · simp only [pageSize]
      omega
    rw [Ne, mapping_eq_none, not_not, leaf_high, leaf_of_walk hwalk]
    exact hp
  have hstop : wrap (v + size) = v + size := wrap_of_lt (by omega)
  rw [hstop] at hloop
  simp only [if_pos (show u * pageSize < v + size by omega), ok_bind] at hloop
  have hin := visited_mono hloop (u * pageSize) (mem_append_right _ (mem_singleton_self _))
  have := ((hmem _).1 hin).1
  omega

end

/-! ## Both halves -/

/-- **Page tables refine a partial map**: on every range of pages of either half, mapping, unmapping
and the loop are exact if and only if the range is in the lower half or nothing is mapped from its
start on. -/
theorem paging_refines_map (h : s.Space 512 root) (hr : CanonicalRange v size) :
    (MapExact s root v size ∧ UnmapExact s root v size ∧ ForeachExact s root v size) ↔
      v + size ≤ 2 ^ 47 ∨ NoneFrom s root v := by
  refine ⟨fun ⟨_, _, hforeach⟩ => ?_, fun hcond => ⟨.of_range h hr, ?_⟩⟩
  · rcases hr.half with hlow | ⟨hv, hlt, hend⟩
    · exact .inl hlow
    exact .inr (by_contra fun hsome => not_foreachExact hr hv hlt hend hsome hforeach)
  rcases hr.half with hlow | ⟨hv, hlt, hend⟩
  · exact exact_of_low h hr hlow
  refine exact_of_noneFrom hr hv hlt hend (hcond.resolve_left ?_)
  omega

/-- Memory with an empty root table at 0x1000 and three free pages. -/
def kernelMem : PhysMem where
  word := fun _ => 0
  refCount := fun page => if page = 0x1000 then 1 else 0
  locked := fun _ => false
  pages := [some 0x2000, some 0x3000, some 0x4000]

theorem kernelMem_space : kernelMem.Space 512 0x1000 := by
  obtain ⟨htables, hapart, -⟩ :=
    zero_table (w := kernelMem.word) (p := 0x1000) (l := 3) (fun _ _ => rfl) le_rfl
  refine ⟨⟨rfl, le_rfl, hapart, fun f hf => ?_⟩, fun f _ => ⟨nofun, ?_⟩, fun _ _ => rfl⟩
  · rw [htables, Set.mem_singleton_iff] at hf
    rw [hf]
    decide
  rintro ⟨e, he, -⟩
  cases he

/-- Two pages of a program, in the lower half. -/
theorem paging_refines_map_program :
    MapExact kernelMem 0x1000 0x400000 0x2000 ∧ UnmapExact kernelMem 0x1000 0x400000 0x2000 ∧
      ForeachExact kernelMem 0x1000 0x400000 0x2000 :=
  (paging_refines_map kernelMem_space ⟨rfl, rfl, .inl (by decide)⟩).2 (.inl (by decide))

/-- Two pages of the kernel heap are mapped, and the first of them is unmapped: the second is no
longer mapped either. -/
theorem mmuUnmapPages_leaves_range : ∃ s s',
    mmuMapPages paging kernelMem 0x1000 0xfffffe8000000000 0x10000 0x2000 0x7 = .ok (none, s) ∧
    s.Space 512 0x1000 ∧ CanonicalRange 0xfffffe8000000000 0x1000 ∧
    s.mapping 0x1000 0xfffffe8000001000 = some (0x11000, 0x7) ∧
    mmuUnmapPages paging s 0x1000 0xfffffe8000000000 0x1000 = .ok s' ∧
    s'.mapping 0x1000 0xfffffe8000001000 = none := by
  have hrun : (do
      let (ret, s) ← mmuMapPages paging kernelMem 0x1000 0xfffffe8000000000 0x10000 0x2000 0x7
      let s' ← mmuUnmapPages paging s 0x1000 0xfffffe8000000000 0x1000
      return (ret, s.mapping 0x1000 0xfffffe8000001000, s'.mapping 0x1000 0xfffffe8000001000)) =
      (.ok (none, some (0x11000, 0x7), none) : Exec _) := by
    decide +kernel
  obtain ⟨⟨ret, s⟩, hmap, hrun⟩ := bind_eq_ok.1 hrun
  obtain ⟨s', hunmap, hrun⟩ := bind_eq_ok.1 hrun
  simp only [pure_eq, Except.ok.injEq, Prod.mk.injEq] at hrun
  obtain ⟨rfl, hbefore, hafter⟩ := hrun
  have hspace := (mmuMapPages_spec kernelMem_space ⟨rfl, rfl, .inr (by decide)⟩ (by decide) hmap).1
  exact ⟨s, s', hmap, hspace, ⟨rfl, rfl, .inr (by decide)⟩, hbefore, hunmap, hafter⟩

end Stanix
