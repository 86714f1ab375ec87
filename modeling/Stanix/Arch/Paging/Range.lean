import Stanix.Arch.Paging.Map

/-!
# Ranges of pages

The page tables seen as a partial map from virtual pages to frames and flags
(`PhysMem.mapping`), and what the functions on ranges do to this map. `mmu_map_pages` maps the pages
of its range, in either half of the address space. The loop `mmu_foreach_entry_range`, and
`mmu_unmap_pages` with it, keep to their range in the lower half (`foreach_low`). In the upper half
they do not: the address that a search returns is put together from indices and its sign is not
extended, so that no page looks as if it were past the end of the range (`foreach_high`).
-/

namespace Stanix

open PageTable List PhysMem

variable {s s' : PhysMem} {n root a e v size : Nat} {α : Type}

/-! ## The loop over the pages of a range -/

/-- **`mmu_get_next_entry`** finds the first page that is present, from an address on. -/
theorem mmuGetNextEntry_spec (s : PhysMem) (root start : Nat) :
    NextSpec s.word 3 root start (mmuGetNextEntry s root start) :=
  mmuGetNextEntryHelper_spec s 3 root start

section Low

variable {stop : Nat} (body : Nat → Nat → PhysMem × α → Exec (PhysMem × α))
  (I : Nat → PhysMem × α → Prop)

/-- **The loop on a range of the lower half.** `I v` is what holds when the pages before `v` have been
dealt with: a page that is not present changes nothing, and the body deals with one that is. -/
theorem foreach_low (hstop : stop < 512 ^ 4)
    (hskip : ∀ v s, v < stop → I v s → ¬ Present (leaf s.1.word 3 root v) → I (v + 1) s)
    (hbody : ∀ v s e, v < stop → I v s → walk s.1.word 3 root v = some e → Present (s.1.word e) →
      ∃ s', body (v * pageSize) e s = .ok s' ∧ I (v + 1) s') :
    ∀ rounds v s, v ≤ stop → stop - v < rounds → I v s →
      ∃ s', mmuForeachEntryRange paging root (stop * pageSize) body rounds (v * pageSize) s = .ok s' ∧
        I stop s' := by
  have hskips {v u : Nat} {s : PhysMem × α} (hvu : v ≤ u) (hu : u ≤ stop) (hI : I v s)
      (hnone : ∀ v', v ≤ v' → v' < u → ¬ Present (leaf s.1.word 3 root v')) : I u s := by
    induction u, hvu using Nat.le_induction with
    | base => exact hI
    | succ u hvu ih =>
      exact hskip u s hu (ih (by omega) fun v' h1 h2 => hnone v' h1 (by omega))
        (hnone u hvu (by omega))
  intro rounds
  induction rounds with
  | zero => exact fun _ _ _ h => absurd h (Nat.not_lt_zero _)
  | succ rounds ih => ?_
  intro v s hv hrounds hI
  have hnum : v * pageSize / pageSize % 512 ^ (3 + 1) = v := by
    rw [Nat.mul_div_cancel _ (by decide), Nat.mod_eq_of_lt (hv.trans_lt hstop)]
  have hnext := mmuGetNextEntry_spec s.1 root (v * pageSize)
  rw [mmuForeachEntryRange, paging_getNextEntry]
  cases hfound : mmuGetNextEntry s.1 root (v * pageSize) with
  | none =>
    rw [hfound, NextSpec, hnum] at hnext
    exact ⟨s, rfl, hskips hv le_rfl hI fun v' h1 h2 => hnext v' h1 (h2.trans hstop)⟩
  | some found => ?_
  obtain ⟨e, a⟩ := found
  rw [hfound, NextSpec, hnum] at hnext
  obtain ⟨u, rfl, hvu, hu, hwalk, hp, hbetween⟩ := hnext
  by_cases hlt : u < stop
  · obtain ⟨s', hrun, hI'⟩ := hbody u s e hlt (hskips hvu hlt.le hI hbetween) hwalk hp
    have hnextaddr : wrap (u * pageSize + pageSize) = (u + 1) * pageSize := by
      rw [wrap_of_lt, add_mul, one_mul]
      simp only [pageSize] at *
      omega
    have hin : u * pageSize < stop * pageSize := Nat.mul_lt_mul_of_pos_right hlt (by decide)
    simp only [if_pos hin, hrun, hnextaddr]
    exact ih (u + 1) s' hlt (by omega) hI'
  have hout : ¬ u * pageSize < stop * pageSize := by
    simp only [pageSize]
    omega
  simp only [if_neg hout]
  exact ⟨s, rfl, hskips hv le_rfl hI fun v' h1 h2 => hbetween v' h1 (by omega)⟩

end Low

/-- The addresses of the pages of a range that are present. -/
def PhysMem.presentPages (s : PhysMem) (root start count : Nat) : List Nat :=
  ((List.range' start count).filter fun v => Present (leaf s.word 3 root v)).map (· * pageSize)

theorem PhysMem.presentPages_succ (s : PhysMem) (root start count : Nat) :
    s.presentPages root start (count + 1) = s.presentPages root start count ++
      if Present (leaf s.word 3 root (start + count)) then [(start + count) * pageSize] else [] := by
  rw [presentPages, range'_1_concat, filter_append, map_append]
  congr 1
  split
  · next hp => rw [filter_cons_of_pos (by simpa using hp)]; rfl
  next hp => rw [filter_cons_of_neg (by simpa using hp)]; rfl

/-- **The loop on a range of the lower half** visits the pages that are present. -/
theorem mmuVisited_low {start stop : Nat} (hle : start ≤ stop) (hstop : stop < 512 ^ 4) :
    mmuVisited paging s root (start * pageSize) (stop * pageSize) =
      .ok (s.presentPages root start (stop - start)) := by
  have hsucc {v : Nat} (hv : start ≤ v) : v + 1 - start = v - start + 1 := by omega
  have hat {v : Nat} (hv : start ≤ v) : start + (v - start) = v := by omega
  obtain ⟨_, hrun, -, rfl⟩ := foreach_low
    (fun vaddr _ (s, visited) => .ok (s, visited ++ [vaddr]))
    (fun v r => start ≤ v ∧ r = (s, s.presentPages root start (v - start))) hstop
    (by
      rintro v _ - ⟨hv, rfl⟩ hp
      refine ⟨by omega, ?_⟩
      rw [hsucc hv, presentPages_succ, hat hv, if_neg hp, append_nil])
    (by
      rintro v _ e - ⟨hv, rfl⟩ hwalk hp
      refine ⟨_, rfl, by omega, ?_⟩
      rw [hsucc hv, presentPages_succ, hat hv, leaf_of_walk hwalk, if_pos hp])
    mmuRounds start (s, []) hle (by rw [mmuRounds]; omega) ⟨le_rfl, by rw [Nat.sub_self]; rfl⟩
  rw [mmuVisited, hrun]
  rfl

/-- Of the pages of a space, those from `v` to before `v'` have been removed, and nothing else has
changed. -/
structure Unmapped (s s' : PhysMem) (n root v v' : Nat) : Prop where
  locked : s'.locked = s.locked
  refCount : s'.refCount = s.refCount
  pages : s'.pages = s.pages
  tree : Extends s s' n 3 root
  leaf : ∀ u, u / 512 ^ 3 % 512 < n → leaf s'.word 3 root u =
    if v ≤ u % 512 ^ 4 ∧ u % 512 ^ 4 < v' ∧ Present (leaf s.word 3 root u) then 0
    else leaf s.word 3 root u

namespace Unmapped

variable {v' : Nat}

variable (h : Unmapped s s' n root v v')

include h

theorem leaf_of_ge (hlt : v' < 512 ^ 4) (hv' : v' / 512 ^ 3 % 512 < n) :
    PageTable.leaf s'.word 3 root v' = PageTable.leaf s.word 3 root v' := by
  rw [h.leaf v' hv', if_neg]
  omega

theorem skip (hlt : v' < 512 ^ 4) (hv' : v' / 512 ^ 3 % 512 < n)
    (hp : ¬ Present (PageTable.leaf s'.word 3 root v')) : Unmapped s s' n root v (v' + 1) := by
  refine ⟨h.locked, h.refCount, h.pages, h.tree, fun u hu => ?_⟩
  rw [h.leaf_of_ge hlt hv'] at hp
  rw [h.leaf u hu]
  by_cases huv : u % 512 ^ 4 = v' % 512 ^ 4
  · rw [leaf_congr_digits huv, if_neg fun hc => hp hc.2.2, if_neg fun hc => hp hc.2.2]
  grind

theorem clear (hv : v ≤ v') (hlt : v' < 512 ^ 4)
    (hv' : v' / 512 ^ 3 % 512 < n) (he : walk s'.word 3 root v' = some e)
    (hp : Present (s'.word e)) : Unmapped s (s'.setWord e 0) n root v (v' + 1) := by
  have howns := h.tree.owns
  refine ⟨h.locked, h.refCount, h.pages, h.tree.trans (.setWord howns hv' he 0), fun u hu => ?_⟩
  have hpres : Present (PageTable.leaf s.word 3 root v') := by
    rw [← h.leaf_of_ge hlt hv', leaf_of_walk he]
    exact hp
  refine (howns.apart.leaf_update howns.aligned howns.entries hv' he 0 hu).trans ?_
  rw [h.leaf u hu]
  by_cases huv : u % 512 ^ (3 + 1) = v' % 512 ^ (3 + 1)
  · rw [if_pos huv, if_pos]
    rw [leaf_congr_digits huv]
    refine ⟨?_, ?_, hpres⟩ <;> omega
  grind

end Unmapped

/-- **`mmu_unmap_pages` on a range of the lower half** removes the pages of the range. -/
theorem mmuUnmapPages_low {count : Nat} (h : s.Owns n 3 root) (hn : v + count ≤ n * 512 ^ 3)
    (hstop : v + count < 512 ^ 4) :
    ∃ s', mmuUnmapPages paging s root (v * pageSize) (count * pageSize) = .ok s' ∧
      Unmapped s s' n root v (v + count) := by
  have hdigit {v' : Nat} (hv' : v' < v + count) : v' / 512 ^ 3 % 512 < n := by omega
  obtain ⟨⟨s', _⟩, hrun, -, hend⟩ := foreach_low
    (fun _ entry (s, ()) => .ok (paging.store s entry 0, ()))
    (fun v' r => v ≤ v' ∧ Unmapped s r.1 n root v v') hstop
    (by
      rintro v' r hlt ⟨hv, hr⟩ hp
      exact ⟨by omega, hr.skip (hlt.trans hstop) (hdigit hlt) hp⟩)
    (by
      rintro v' r e hlt ⟨hv, hr⟩ hwalk hp
      exact ⟨_, rfl, by omega, hr.clear hv (hlt.trans hstop) (hdigit hlt) hwalk hp⟩)
    mmuRounds v (s, ()) (by omega) (by rw [mmuRounds]; omega)
    ⟨le_rfl, rfl, rfl, rfl, .of_eq h rfl rfl, fun u _ => (if_neg (by omega)).symm⟩
  refine ⟨s', ?_, hend⟩
  have haddr : wrap (v * pageSize + count * pageSize) = (v + count) * pageSize := by
    rw [wrap_of_lt, add_mul]
    simp only [pageSize]
    omega
  rw [mmuUnmapPages, Exec.assert_of (Nat.mul_mod_left ..), Exec.assert_of (Nat.mul_mod_left ..),
    haddr, hrun]
  rfl

/-! ## Page tables as a partial map -/

/-- What an entry maps its page to: the frame and the flags. -/
def entryMapping (value : BitVec 64) : Option (Nat × BitVec 64) :=
  (mmuEntryValGetPage value).map fun page => (page, mmuEntryValGetFlags value)

/-- **The page tables as a map** from virtual addresses to the frame and the flags of their page. -/
def PhysMem.mapping (s : PhysMem) (root a : Nat) : Option (Nat × BitVec 64) :=
  match mmuGetEntry s root a with
  | none => none
  | some entry => entryMapping (s.word entry)

theorem entryMapping_eq_none {value : BitVec 64} : entryMapping value = none ↔ ¬ Present value := by
  rw [entryMapping, mmuEntryValGetPage]
  split <;> simp_all

theorem PhysMem.mapping_eq (s : PhysMem) (root a : Nat) :
    s.mapping root a = entryMapping (leaf s.word 3 root (a / pageSize)) := by
  rw [mapping, mmuGetEntry, mmuGetEntryFrom_eq]
  cases h : walk s.word pagingLevelMax root (a / pageSize) with
  | none =>
    rw [leaf, show walk s.word 3 root (a / pageSize) = none from h]
    exact (entryMapping_eq_none.2 not_hasFlag_zero).symm
  | some e => rw [leaf_of_walk (show walk s.word 3 root (a / pageSize) = some e from h)]

theorem PhysMem.mapping_eq_none : s.mapping root a = none ↔ ¬ Present (leaf s.word 3 root (a / pageSize)) := by
  rw [mapping_eq, entryMapping_eq_none]

theorem mmuSpaceVirt2phys_eq (s : PhysMem) (root a : Nat) :
    mmuSpaceVirt2phys s root a = (s.mapping root a).map fun m => m.1 + a % pageSize := by
  rw [mmuSpaceVirt2phys, mapping]
  cases mmuGetEntry s root a with
  | none => rfl
  | some e =>
    simp only [entryMapping, mmuEntryValGetPage]
    split <;> rfl

theorem paging2mmuFlags_mapValue (paddr : Nat) (flags : BitVec 64) :
    paging2mmuFlags (mapValue paddr flags) = paging2mmuFlags (mmu2pagingFlags flags) := by
  have hflag {m : BitVec 64} (hm : pagingEntryAddress &&& m = 0#64) :
      HasFlag (mapValue paddr flags) m ↔ HasFlag (mmu2pagingFlags flags) m := by
    rw [mapValue, hasFlag_or, or_iff_right (not_hasFlag_and hm)]
  simp only [paging2mmuFlags, orIf, hflag (m := pagingFlagPresent) (by decide),
    hflag (m := pagingFlagWrite) (by decide), hflag (m := pagingFlagNoExe) (by decide),
    hflag (m := pagingFlagUser) (by decide), hflag (m := pagingFlagAccess) (by decide),
    hflag (m := pagingFlagDirty) (by decide), hflag (m := pagingFlagPat) (by decide),
    hflag (m := pagingFlagPcd) (by decide)]

theorem entryMapping_mapValue {paddr : Nat} (h : paddr % pageSize = 0) (hlt : paddr < 2 ^ 52)
    (flags : BitVec 64) : entryMapping (mapValue paddr flags) =
      if HasFlag flags mmuFlagPresent then some (paddr, paging2mmuFlags (mmu2pagingFlags flags))
      else none := by
  simp only [entryMapping, mmuEntryValGetPage, mmuEntryValGetFlags, present_mapValue,
    entryAddress_mapValue h hlt, paging2mmuFlags_mapValue]
  split <;> rfl

end Stanix
