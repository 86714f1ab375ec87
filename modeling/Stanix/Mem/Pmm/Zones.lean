import Stanix.Mem.Pmm.Refine
import Mathlib.Tactic.IntervalCases

/-!
# Zones of physical memory

The zone of a block that is freed is computed from its first page, and the merge loop never looks at
it again. This is right as long as no block that can arise lies in two zones. The border between
`ZONE_DMA32` and `ZONE_NORMAL` is a multiple of the largest block, but the end of `ZONE_DMA24` is 16
pages into memory, so the two blocks of 32 and of 64 pages at the start of memory lie across it. As
long as one of the first 32 pages is not free these two blocks cannot be (`zone_eq_of_inBlock`), and
the merge loop stays inside one zone (`zoneClosed_of_gap`).
-/

namespace Stanix

open Buddy Exec

variable {o p q g : Nat}

theorem zone_eq_of_inBlock (ho : o < ordersCount) (hg : g < 32) (hgap : ¬ InBlock o p g)
    (hq : InBlock o p q) : pmmGetZone q = pmmGetZone p := by
  have hdma24 : q * pageSize < zoneDma24End ↔ p * pageSize < zoneDma24End := by
    unfold InBlock at hgap hq
    unfold ordersCount at ho
    unfold pageSize zoneDma24End
    interval_cases o <;> omega
  have hdma32 : q * pageSize < zoneDma32End ↔ p * pageSize < zoneDma32End := by
    unfold InBlock at hq
    unfold ordersCount at ho
    unfold pageSize zoneDma32End
    interval_cases o <;> omega
  unfold pmmGetZone
  simp only [hdma24, hdma32]

namespace Pmm

variable {F F' : FreeLists Zone ordersCount} {s : Pmm}

/-- The merge loop stays inside the zone of a block if one of the first 32 pages is neither free nor
in the block. -/
theorem zoneClosed_of_gap (hw : F.Within pmmGetZone) (hg : g < 32) (hcov : ¬ F.Covers g)
    (hgap : ¬ InBlock o p g) : ZoneClosed F (pmmGetZone p) o p := by
  intro k z' ho hk hfull hb
  have hgap' : ¬ InBlock (k + 1) p g := by
    intro h
    -- the block of order `k` is free or being freed, and its buddy is free
    rcases inBlock_succ_iff_at.1 h with h | h
    · exact (hfull g h).elim hcov hgap
    exact hcov ⟨z', k, _, hb, h⟩
  have hbuddy : InBlock (k + 1) p (buddyAt k p) := inBlock_succ_iff_at.2 (.inr rfl)
  rw [← zone_eq_of_inBlock hk hg hgap' hbuddy]
  exact (hw _ _ _ _ hb rfl).symm

/-- A block that is freed, with one of the first 32 pages neither free nor in it, is inside one
zone. -/
theorem within_of_gap (h : Freed (pmmGetZone p) F F' o p) (hw : F.Within pmmGetZone)
    (ho : o < ordersCount) (hg : g < 32) (hgap : ¬ InBlock o p g) : F'.Within pmmGetZone :=
  h.within hw fun hq => zone_eq_of_inBlock ho hg hgap hq

namespace Inv

variable {n fuel : Nat}

section

variable (h : s.Inv F fun _ => False)
include h

theorem tryZones (zones : List Zone) (o : Nat) :
    pmmTryZones o zones s = .ok (pageInvalid, s) ∨
      ∃ z ∈ zones, pmmTryZones o zones s = pmmHelperAllocatePages s z o ∧
        pmmHelperAllocatePages s z o ≠ .ok (pageInvalid, s) := by
  induction zones with
  | nil => exact .inl rfl
  | cons z zones ih => ?_
  rw [pmmTryZones]
  rcases h.helperAllocatePages z o with h1 | ⟨p, s', F', h1, hp, -⟩
  · rw [h1]
    rcases ih with ih | ⟨z', hz', ih⟩
    · exact .inl ih
    exact .inr ⟨z', List.mem_cons_of_mem z hz', ih⟩
  refine .inr ⟨z, List.mem_cons_self, ?_, ?_⟩
  · rw [h1]
    exact if_pos hp
  rw [h1]
  intro h2
  cases h2
  exact hp rfl

/-- Allocation panics, fails without a trace, or is an allocation from one of the zones. -/
theorem zoneAllocatePagesFlags (zone : Option Zone) (o : Nat) (flags : BitVec 32) :
    pmmZoneAllocatePagesFlags s zone o flags = .error .panic ∨
      pmmZoneAllocatePagesFlags s zone o flags = .ok (pageInvalid, s) ∨
      ∃ z ∈ (zone.getD .normal).andBelow,
        pmmZoneAllocatePagesFlags s zone o flags = pmmHelperAllocatePages s z o ∧
          pmmHelperAllocatePages s z o ≠ .ok (pageInvalid, s) := by
  unfold pmmZoneAllocatePagesFlags
  dsimp only
  split
  · split
    · exact .inl rfl
    exact .inr (.inl rfl)
  rcases h.tryZones (zone.getD .normal).andBelow o with h1 | ⟨z, hz, h1, h2⟩
  · rw [h1, ok_bind]
    rw [if_neg (not_not.2 rfl)]
    split
    · exact .inl rfl
    exact .inr (.inl rfl)
  refine .inr (.inr ⟨z, hz, ?_, h2⟩)
  rcases h.helperAllocatePages z o with h3 | ⟨p, s', F', h3, hp, -⟩
  · exact absurd h3 h2
  rw [h1, h3]
  exact if_pos hp

/-- The loop over a range frees its pages, block by block. -/
theorem freeRange (hw : F.Within pmmGetZone) (hg : g < 32) (hcov : ¬ F.Covers g)
    (hgap : ¬ (p ≤ g ∧ g < p + n))
    (hpages : ∀ q, p ≤ q → q < p + n → ¬ F.Covers q ∧ ∃ i, s.info q = some i) (hf : n < fuel) :
    ∃ us s' F', pmmFreeRange fuel s p n = .ok (us, s') ∧ (s'.Inv F' fun _ => False) ∧
      F'.Within pmmGetZone ∧ (∀ q, F'.Covers q ↔ F.Covers q ∨ (p ≤ q ∧ q < p + n)) ∧
      (∀ u ∈ us, u.Linked) ∧
      (∀ q, s'.refs q = if p ≤ q ∧ q < p + n then (s.refs q).map fun r => (0, r.2) else s.refs q) ∧
      (F.Coalesced → (∀ q r, F.Covers q ∨ (p ≤ q ∧ q < p + n) → s.refs q = some r →
        r.2 &&& pageFlagReserved = 0) → F'.Coalesced) := by
  induction fuel generalizing s F p n with
  | zero => omega
  | succ fuel ih => ?_
  rw [pmmFreeRange]
  rcases Nat.eq_zero_or_pos n with rfl | hn
  · refine ⟨[], s, F, if_neg (by omega), h, hw, fun q => ?_, by simp, fun q => ?_, fun hF _ => hF⟩
    · exact (or_iff_left (by omega)).symm
    rw [if_neg (by omega)]
  obtain ⟨o, h1, ho, hle, hp, -⟩ := rangeOrder_spec p n (ordersCount - 1) hn
  have ho' : o < ordersCount := by unfold ordersCount at *; omega
  have hblock : ∀ {q}, InBlock o p q → p ≤ q ∧ q < p + n := fun hq => by
    have := (inBlock_iff hp).1 hq
    omega
  have hgapBlock : ¬ InBlock o p g := fun hq => hgap (hblock hq)
  obtain ⟨us, s1, F1, h2, h3, h4, h5, h6, -, h7⟩ := h.setFreePages (fun _ => False.elim) hp ho'
    (fun q hq => hpages q (hblock hq).1 (hblock hq).2) (zoneClosed_of_gap hw hg hcov hgapBlock)
  have hcov1 : ∀ {q}, F1.Covers q ↔ F.Covers q ∨ (p ≤ q ∧ q < p + 2 ^ o) := fun {q} => by
    rw [h4.covers, inBlock_iff hp]
  have hinfo : ∀ q, p + 2 ^ o ≤ q → q < p + 2 ^ o + (n - 2 ^ o) →
      ¬ F1.Covers q ∧ ∃ i, s1.info q = some i := by
    intro q hq hq'
    obtain ⟨h8, i, hi⟩ := hpages q (by omega) (by omega)
    refine ⟨fun hc => (hcov1.1 hc).elim h8 (by omega), ?_⟩
    have hr := h6 q
    rw [if_neg (fun hb => by have := (inBlock_iff hp).1 hb; omega), refs_of_info hi] at hr
    obtain ⟨j, hj, -⟩ := Option.map_eq_some_iff.1 hr
    exact ⟨j, hj⟩
  obtain ⟨us', s', F', h8, h9, h10, h11, h12, h13, h14⟩ := ih h3
    (within_of_gap h4 hw ho' hg hgapBlock)
    (fun hc => (hcov1.1 hc).elim hcov (by omega)) (by omega) hinfo (by omega)
  refine ⟨us ++ us', s', F', ?_, h9, h10, fun q => ?_, ?_, fun q => ?_, fun hF hres => ?_⟩
  · rw [if_pos hn]
    simp only [h1, h2, ok_bind]
    rw [show pmmFreeRange fuel s1 (p + order2Count o) (n - order2Count o) = .ok (us', s') from h8]
    rfl
  · grind
  · intro u hu
    exact (List.mem_append.1 hu).elim (h5 u) (h12 u)
  · rw [h13, h6]
    simp only [inBlock_iff hp]
    grind
  refine h14 (h7 hF fun q r hq hr => hres q r (hq.imp_right hblock) hr) fun q r hq hr => ?_
  have hq' : F.Covers q ∨ (p ≤ q ∧ q < p + n) := by grind
  rw [h6] at hr
  split at hr
  · obtain ⟨r0, hr0, rfl⟩ := Option.map_eq_some_iff.1 hr
    exact hres q r0 hq' hr0
  exact hres q r hq' hr

/-- **Adding a range** is the loop over it: its pages have a description, so they are not the invalid
one. -/
theorem setFreePagesRange_eq (hpages : ∀ q, p ≤ q → q < p + n → ∃ i, s.info q = some i) :
    pmmSetFreePagesRange s p n = pmmFreeRange (n + 1) s p n := by
  rw [pmmSetFreePagesRange]
  rcases Nat.eq_zero_or_pos n with rfl | hn
  · rfl
  obtain ⟨i, hi⟩ := hpages p le_rfl (by omega)
  rw [if_neg (by omega), assert_of (h.ne_invalid hi), ok_bind]

end

end Inv

/-! ## The blocks of a range -/

/-- The blocks of a list, each a first page and an order, freed one after the other. -/
def freeBlocks (s : Pmm) : List (Nat × Nat) → Exec (List PmmUnlink × Pmm)
  | [] => return ([], s)
  | (page, order) :: blocks => do
    let (unlinks, s) ← pmmSetFreePages s page order
    let (unlinks', s) ← freeBlocks s blocks
    return (unlinks ++ unlinks', s)

/-- Blocks that partition the `n` pages from `p` on, in order. Each is aligned, and of the largest
order that its first page and the end of the range allow. -/
def GreedyBlocks (p n : Nat) (blocks : List (Nat × Nat)) : Prop :=
  (blocks.flatMap fun b => List.range' b.1 (order2Count b.2)) = List.range' p n ∧
    ∀ b ∈ blocks, b.2 ≤ 6 ∧ b.1 % order2Count b.2 = 0 ∧
      ∀ o ≤ 6, b.1 + order2Count o ≤ p + n → b.1 % order2Count o = 0 → o ≤ b.2

theorem freeRange_blocks {fuel p n : Nat} (hf : n < fuel) : ∃ blocks, GreedyBlocks p n blocks ∧
    ∀ s, pmmFreeRange fuel s p n = freeBlocks s blocks := by
  induction fuel generalizing p n with
  | zero => omega
  | succ fuel ih => ?_
  rcases Nat.eq_zero_or_pos n with rfl | hn
  · exact ⟨[], ⟨rfl, nofun⟩, fun s => rfl⟩
  obtain ⟨o, h1, ho, hle, hp, hmax⟩ := Inv.rangeOrder_spec p n (ordersCount - 1) hn
  have hpos := Nat.two_pow_pos o
  obtain ⟨blocks, ⟨hpart, hrest⟩, hrun⟩ := ih (p := p + 2 ^ o) (n := n - 2 ^ o) (by omega)
  refine ⟨(p, o) :: blocks, ⟨?_, ?_⟩, fun s => ?_⟩
  · rw [List.flatMap_cons, hpart, order2Count, List.range'_append_1]
    exact congrArg (List.range' p) (Nat.add_sub_cancel' hle)
  · rintro b (- | ⟨-, hb⟩)
    · exact ⟨ho, hp, fun o' ho' hn' => hmax o' ho' (Nat.le_of_add_le_add_left hn')⟩
    obtain ⟨h2, h3, h4⟩ := hrest b hb
    exact ⟨h2, h3, fun o' ho' hn' => h4 o' ho' (by omega)⟩
  rw [pmmFreeRange, if_pos hn]
  simp only [h1, freeBlocks, ← hrun]
  rfl

/-- **Freeing a range** of any length and alignment ends, and is the freeing of blocks that
partition it, each the largest one allowed where it starts. -/
theorem pmm_range_greedy (p n : Nat) : ∃ blocks, GreedyBlocks p n blocks ∧
    ∀ s, pmmSetFreePagesRange s p n = freeBlocks s blocks := by
  obtain ⟨blocks, h, hrun⟩ := freeRange_blocks (p := p) n.lt_succ_self
  refine ⟨blocks, h, fun s => ?_⟩
  rw [← hrun, pmmSetFreePagesRange]
  rcases Nat.eq_zero_or_pos n with rfl | hn
  · rfl
  rw [if_neg (by omega)]
  by_cases hp : p = pageInvalid
  · -- the first block is refused too
    subst hp
    obtain ⟨o, h1, -⟩ := Inv.rangeOrder_spec pageInvalid n (ordersCount - 1) hn
    rw [pmmFreeRange, if_pos hn]
    simp only [h1, pmmSetFreePages]
    rfl
  rw [assert_of hp, ok_bind]

end Pmm

end Stanix
