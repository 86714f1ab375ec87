import Stanix.Mem.Pmm.Run

/-!
# The page counters

The memory manager counts its pages in four global counters: the total, those in use, and among these
the private ones, with one reference, and the shared ones, with more. `Pmm.Balanced` says what they
should be. `pmm_counters_balanced` shows that allocation, `pmm_retain`, `pmm_release_page` and
`pmm_set_free_pages` keep them right under three conditions on the calls: no reference count is at
its maximum when it is retained, a released page has a reference, and one of the first 32 pages keeps
one, so that no block is merged across the end of `ZONE_DMA24`. `pmm_counters_unbalanced` shows the
first and the last one needed.
-/

namespace Stanix

open Buddy Exec Finset BitVec

/-- A call that moves pages or references. -/
inductive PmmUseCall
  | allocate (zone : Option Zone) (order : Nat) (flags : BitVec 32)
  | retain (page : Nat)
  | release (page : Nat)
  | setFree (start order : Nat)

/-- A state of a run of such calls. -/
structure PmmUse where
  pmm : Pmm
  /-- The machine was stopped for lack of memory. -/
  halted : Bool := false

/-- One call of a run. -/
def pmmUseCall (u : PmmUse) (call : PmmUseCall) : Exec (Unit × PmmUse) :=
  if u.halted then return ((), u)
  else
    match call with
    | .allocate zone order flags =>
      match pmmZoneAllocatePagesFlags u.pmm zone order flags with
      | .ok (_, s) => return ((), { u with pmm := s })
      | .error .panic => return ((), { u with halted := true })
      | .error e => .error e
    | .retain page => do
      let (_, s) ← pmmRetain u.pmm page
      return ((), { u with pmm := s })
    | .release page => do
      let (_, s) ← pmmReleasePage u.pmm page
      return ((), { u with pmm := s })
    | .setFree start order => do
      let (_, s) ← pmmSetFreePages u.pmm start order
      return ((), { u with pmm := s })

namespace Pmm

/-- The counters are right: the pages not in use are those on the free lists, those in use are
private or shared, and the shared ones are those with two references or more. Counters are `size_t`.
-/
def Balanced (s : Pmm) : Prop :=
  (∃ L : Zone → Nat → List Nat, (∀ z o, (s.entries z o).Rep s.mem (L z o)) ∧
    s.totalPages - s.usedPages =
      BitVec.ofNat 64 (∑ z, ∑ o ∈ Finset.range ordersCount, 2 ^ o * (L z o).length)) ∧
  s.privatePages + s.sharedPages = s.usedPages ∧
  ∃ S : Finset Nat, (∀ q, q ∈ S ↔ ∃ i, s.info q = some i ∧ 2 ≤ i.refCount.toNat) ∧
    s.sharedPages = BitVec.ofNat 64 S.card

/-- The page is in use: it has a reference, or it is not known to the memory manager. -/
def InUse (s : Pmm) (q : Nat) : Prop := ∀ i, s.info q = some i → i.refCount ≠ 0
  deriving Decidable

end Pmm

/-- What the callers promise: pages that are retained or released exist, a block that is freed is a
block of allocated pages with one reference each. -/
def PmmUseCall.Proper (u : PmmUse) : PmmUseCall → Prop
  | .allocate .. => True
  | .retain page => ∃ i, u.pmm.info page = some i
  | .release page => ∃ i, u.pmm.info page = some i
  | .setFree start order => order < ordersCount ∧ start % 2 ^ order = 0 ∧
      ∀ q, start ≤ q → q < start + 2 ^ order → ∃ i, u.pmm.info q = some i ∧ i.refCount = 1

/-- The conditions under which the counters stay right: no reference count is at its maximum when it
is retained, a released page has a reference, and a page among the first 32 stays in use whenever
pages become free. -/
def PmmUseCall.Careful (u : PmmUse) : PmmUseCall → Prop
  | .allocate .. => True
  | .retain page => ∀ i, u.pmm.info page = some i → i.refCount ≠ allOnes 32
  | .release page => u.pmm.InUse page ∧
      ((∃ i, u.pmm.info page = some i ∧ i.refCount = 1) → ∃ g < 32, g ≠ page ∧ u.pmm.InUse g)
  | .setFree start order =>
      ∃ g < 32, ¬ (start ≤ g ∧ g < start + 2 ^ order) ∧ u.pmm.InUse g

/-! ## The invariant -/

namespace Pmm

/-- The state against its free lists and the set of its shared pages. -/
structure Counts (s : Pmm) (F : FreeLists Zone ordersCount) (S : Finset Nat) : Prop where
  inv : s.Inv F fun _ => False
  within : F.Within pmmGetZone
  free : s.totalPages - s.usedPages = BitVec.ofNat 64 F.size
  used : s.privatePages + s.sharedPages = s.usedPages
  mem : ∀ q, q ∈ S ↔ ∃ x, s.refs q = some x ∧ 2 ≤ x.1.toNat
  shared : s.sharedPages = BitVec.ofNat 64 S.card

namespace Counts

variable {s s' : Pmm} {F F' : FreeLists Zone ordersCount} {S : Finset Nat} {o p q g : Nat}
  {i : Page} {z : Zone} {H : Nat → Prop}

theorem refs_shared_iff : (∃ x, s.refs q = some x ∧ 2 ≤ x.1.toNat) ↔
    ∃ i, s.info q = some i ∧ 2 ≤ i.refCount.toNat := by
  simp [refs]

theorem balanced (h : s.Counts F S) : s.Balanced :=
  ⟨⟨F.heads, h.inv.rep, h.free⟩, h.used, S, fun q => (h.mem q).trans refs_shared_iff, h.shared⟩

theorem of_balanced (hinv : s.Inv F fun _ => False) (hw : F.Within pmmGetZone) (h : s.Balanced) :
    ∃ S, s.Counts F S := by
  obtain ⟨⟨L, hL, hfree⟩, hused, S, hS, hshared⟩ := h
  obtain rfl : L = F.heads := funext fun z => funext fun o => (hL z o).unique (hinv.rep z o)
  exact ⟨S, hinv, hw, hfree, hused, fun q => (hS q).trans refs_shared_iff.symm, hshared⟩

theorem charge {n : BitVec 64} (h : s.Counts F S) (hinv : s'.Inv F' fun _ => False)
    (hw : F'.Within pmmGetZone) (hn : Charged s s' n)
    (hsize : BitVec.ofNat 64 F'.size + n = BitVec.ofNat 64 F.size)
    (hrefs : ∀ q, (∃ x, s'.refs q = some x ∧ 2 ≤ x.1.toNat) ↔ ∃ x, s.refs q = some x ∧ 2 ≤ x.1.toNat) :
    s'.Counts F' S := by
  refine ⟨hinv, hw, ?_, ?_, fun q => (h.mem q).trans (hrefs q).symm, hn.shared.trans h.shared⟩
  · have := h.free
    rw [hn.total, hn.used]
    grind
  have := h.used
  rw [hn.priv, hn.shared, hn.used]
  grind

theorem inUse_of_info (hi : s.info q = some i) (h0 : i.refCount ≠ 0) : s.InUse q := fun j hj => by
  cases hi.symm.trans hj
  exact h0

theorem not_covers_of_inUse (h : s.Inv F H) (hq : s.InUse q) : ¬ F.Covers q := by
  intro hc
  obtain ⟨i, hi, hr⟩ := h.free (.inl hc)
  exact hq i hi hr

section

variable (h : s.Counts F S) {r : BitVec 32}
include h

theorem allocate (zone : Option Zone) (o : Nat) (flags : BitVec 32) :
    pmmZoneAllocatePagesFlags s zone o flags = .error .panic ∨
      ∃ p s' F', pmmZoneAllocatePagesFlags s zone o flags = .ok (p, s') ∧ s'.Counts F' S := by
  rcases h.inv.zoneAllocatePagesFlags zone o flags with h1 | h1 | ⟨z, -, h1, h2⟩
  · exact .inl h1
  · exact .inr ⟨_, s, F, h1, h⟩
  rcases h.inv.helperAllocatePages z o with h3 | ⟨p, s', F', h3, -, h4, h5, h6, h7⟩
  · exact absurd h3 h2
  refine .inr ⟨p, s', F', h1.trans h3, h.charge h5 (h4.within h.within) h7 ?_ fun q => ?_⟩
  · rw [← h4.size, ofNat_add]
  rw [h6]
  split
  · obtain ⟨i, hi, hr⟩ := h.inv.free (.inl (h4.covers.2 (.inr ‹_›)))
    rw [refs_of_info hi]
    simp [hr]
  rfl

/-- A block without shared pages is freed. -/
theorem setFree {s0 : Pmm} (hinv : s0.Inv F H) (hH : ∀ q, H q → InBlock o p q)
    (hrefs : ∀ q, ¬ InBlock o p q → s0.refs q = s.refs q) (hsame : SameCounters s s0)
    (ho : o < ordersCount) (hp : p % 2 ^ o = 0)
    (hone : ∀ q, InBlock o p q → ∃ i, s.info q = some i ∧ i.refCount.toNat ≤ 1)
    (hblock : ∀ q, InBlock o p q → ¬ F.Covers q ∧ ∃ i, s0.info q = some i) (hg : g < 32)
    (hgap : ¬ InBlock o p g) (huse : ¬ F.Covers g) :
    ∃ us s' F', pmmSetFreePages s0 p o = .ok (us, s') ∧ s'.Counts F' S := by
  obtain ⟨us, s', F', h1, h2, h3, -, h4, h5, -⟩ := hinv.setFreePages hH hp ho hblock
    (zoneClosed_of_gap h.within hg huse hgap)
  have hn : Charged s s' (-BitVec.ofNat 64 (2 ^ o)) :=
    ⟨h5.total.trans hsame.total, by rw [h5.used, hsame.used], by rw [h5.priv, hsame.priv],
      h5.shared.trans hsame.shared⟩
  refine ⟨us, s', F', h1, h.charge h2 (within_of_gap h3 h.within ho hg hgap) hn ?_ fun q => ?_⟩
  · rw [h3.size, ofNat_add]
    grind
  rw [h4]
  split
  · obtain ⟨i, hi, hr⟩ := hone q ‹_›
    rw [refs_of_info hi]
    constructor
    · rintro ⟨x, hx, h2⟩
      obtain ⟨y, -, rfl⟩ := Option.map_eq_some_iff.1 hx
      exact absurd h2 (by simp)
    grind
  rw [hrefs q ‹_›]

theorem setRefs (hi : s.info p = some i) (h0 : i.refCount ≠ 0) (hr : r ≠ 0) :
    (s.setPage p { i with refCount := r }).Inv F fun _ => False := by
  have hcov := not_covers_of_inUse h.inv (inUse_of_info hi h0)
  have hset := ((h.inv.mark hcov hi).acquire (i := { i with refCount := r }) (.inr rfl) hr).congr
      fun q => ⟨False.elim, fun hq => hq.1.elim id hq.2⟩
  simpa only [setPage, Function.update_idem] using hset

theorem mem_setRefs (p : Nat) (i : Page) (q : Nat) :
    (∃ x, (s.setPage p { i with refCount := r }).refs q = some x ∧ 2 ≤ x.1.toNat) ↔
      if q = p then 2 ≤ r.toNat else q ∈ S := by
  rw [setPage_refs]
  split
  · simp
  exact (h.mem q).symm

variable (hi : s.info p = some i)

include hi

theorem mem_iff : p ∈ S ↔ 2 ≤ i.refCount.toNat := by
  rw [h.mem, refs_of_info hi]
  simp

/-- A page is retained. -/
theorem retain (hmax : i.refCount ≠ allOnes 32) :
    ∃ b s' S', pmmRetain s p = .ok (b, s') ∧ s'.Counts F S' := by
  have hp := h.inv.ne_invalid hi
  rw [pmmRetain, assert_of hp, ok_bind, h.inv.pageInfo hi, ok_bind]
  dsimp only
  by_cases h0 : i.refCount = 0
  · exact ⟨false, s, S, if_neg (not_not.2 h0), h⟩
  rw [if_pos h0]
  have hmax : i.refCount ≠ 0xffffffff#32 := hmax
  have hinv := h.setRefs hi h0 (show i.refCount + 1 ≠ 0 by bv_omega)
  by_cases h1 : i.refCount = 1
  · -- the page becomes shared
    have hnot : p ∉ S := by
      rw [h.mem_iff hi, h1]
      decide
    refine ⟨true, _, insert p S, if_pos h1, { hinv with }, h.within, h.free, ?_, fun q => ?_, ?_⟩
    · show s.privatePages - 1 + (s.sharedPages + 1) = s.usedPages
      rw [← h.used]
      grind
    · refine Iff.trans ?_ (h.mem_setRefs p i q).symm
      split <;> simp_all
    show s.sharedPages + 1 = _
    rw [card_insert_of_notMem hnot, ofNat_add, h.shared]
    rfl
  refine ⟨true, _, S, if_neg h1, { hinv with }, h.within, h.free, h.used, fun q => ?_, h.shared⟩
  refine Iff.trans ?_ (h.mem_setRefs p i q).symm
  split
  · subst ‹q = p›
    rw [h.mem_iff hi]
    bv_omega
  rfl

/-- A page in use is released. -/
theorem release (h0 : i.refCount ≠ 0) (hgap : i.refCount = 1 → ∃ g < 32, g ≠ p ∧ s.InUse g) :
    ∃ us s' F' S', pmmReleasePage s p = .ok (us, s') ∧ s'.Counts F' S' := by
  have hp := h.inv.ne_invalid hi
  rw [pmmReleasePage, assert_of hp, ok_bind, h.inv.pageInfo hi, ok_bind]
  dsimp only
  by_cases h1 : i.refCount = 1
  · -- the last reference is gone
    obtain ⟨g, hg, hgp, huse⟩ := hgap h1
    have hcov := not_covers_of_inUse h.inv (inUse_of_info hi h0)
    rw [if_neg (not_not.2 h1), h1]
    obtain ⟨us, s', F', h2, h3⟩ := h.setFree (h.inv.mark hcov hi)
      (fun q hq => inBlock_zero.2 (hq.resolve_left id))
      (fun q hq => by rw [setPage_refs, if_neg fun hqp => hq (inBlock_zero.2 hqp)])
      ⟨rfl, rfl, rfl, rfl⟩ (by decide) (Nat.mod_one p)
      (fun q hq => ⟨i, by rw [inBlock_zero.1 hq, hi], by rw [h1]; decide⟩)
      (fun q hq => by
        rw [inBlock_zero.1 hq, setPage_info, if_pos rfl]
        exact ⟨hcov, _, rfl⟩)
      hg (fun hq => hgp (inBlock_zero.1 hq)) (not_covers_of_inUse h.inv huse)
    exact ⟨us, s', F', S, h2, h3⟩
  rw [if_pos h1]
  have hinv := h.setRefs hi h0 (show i.refCount - 1 ≠ 0 by bv_omega)
  have hmem : p ∈ S := (h.mem_iff hi).2 (by bv_omega)
  by_cases h2 : i.refCount = 2
  · -- the page becomes private
    refine ⟨[], _, F, S.erase p, if_pos h2, { hinv with }, h.within, h.free, ?_, fun q => ?_, ?_⟩
    · show s.privatePages + 1 + (s.sharedPages - 1) = s.usedPages
      rw [← h.used]
      grind
    · refine Iff.trans ?_ (h.mem_setRefs p i q).symm
      split <;> simp_all
    show s.sharedPages - 1 = _
    have hcard := card_erase_add_one hmem
    rw [h.shared, ← hcard, ofNat_add]
    grind
  refine ⟨[], _, F, S, if_neg h2, { hinv with }, h.within, h.free, h.used, fun q => ?_, h.shared⟩
  refine Iff.trans ?_ (h.mem_setRefs p i q).symm
  split
  · subst ‹q = p›
    exact ⟨fun _ => by bv_omega, fun _ => hmem⟩
  rfl

end

end Counts

end Pmm

/-- One call that is proper and careful returns, and keeps the invariant. -/
theorem Pmm.Counts.call {u : PmmUse} {F : FreeLists Zone ordersCount} {S : Finset Nat}
    (h : u.pmm.Counts F S) {op : PmmUseCall} (hop : op.Proper u) (hcare : op.Careful u) :
    ∃ u' F' S', pmmUseCall u op = .ok ((), u') ∧ u'.pmm.Counts F' S' := by
  unfold pmmUseCall
  by_cases hhalt : u.halted = true
  · exact ⟨u, F, S, if_pos hhalt, h⟩
  rw [if_neg hhalt]
  cases op with
  | allocate zone order flags =>
    dsimp only
    rcases h.allocate zone order flags with h1 | ⟨p, s, F', h1, h2⟩
    · exact ⟨{ u with halted := true }, F, S, by rw [h1]; rfl, h⟩
    exact ⟨{ u with pmm := s }, F', S, by rw [h1]; rfl, h2⟩
  | retain page =>
    obtain ⟨i, hi⟩ := hop
    obtain ⟨b, s, S', h1, h2⟩ := h.retain hi (hcare i hi)
    exact ⟨{ u with pmm := s }, F, S', by dsimp only; rw [h1]; rfl, h2⟩
  | release page =>
    obtain ⟨i, hi⟩ := hop
    obtain ⟨us, s, F', S', h1, h2⟩ := h.release hi (hcare.1 i hi) fun h1 => hcare.2 ⟨i, hi, h1⟩
    exact ⟨{ u with pmm := s }, F', S', by dsimp only; rw [h1]; rfl, h2⟩
  | setFree start order => ?_
  obtain ⟨ho, hmod, hone⟩ := hop
  obtain ⟨g, hg, hgap, huse⟩ := hcare
  have hpage : ∀ q, InBlock order start q → ∃ i, u.pmm.info q = some i ∧ i.refCount = 1 :=
    fun q hq => hone q ((inBlock_iff hmod).1 hq).1 ((inBlock_iff hmod).1 hq).2
  obtain ⟨us, s, F', h1, h2⟩ := h.setFree h.inv (fun _ => False.elim) (fun _ _ => rfl)
    (.refl u.pmm) ho hmod
    (fun q hq => by grind)
    (fun q hq => by
      obtain ⟨i, hi, hr⟩ := hpage q hq
      refine ⟨Pmm.Counts.not_covers_of_inUse h.inv (Pmm.Counts.inUse_of_info hi ?_), i, hi⟩
      rw [hr]
      decide)
    hg (fun hq => hgap ((inBlock_iff hmod).1 hq)) (Pmm.Counts.not_covers_of_inUse h.inv huse)
  exact ⟨{ u with pmm := s }, F', S, by dsimp only; rw [h1]; rfl, h2⟩

/-- **The counters stay right** from any state with sound free lists, in every sequential run of
allocations, retains, releases and frees in which no reference count overflows, only pages with a
reference are released, and one of the first 32 pages stays in use. -/
theorem pmm_counters_balanced {s : Pmm} {F : FreeLists Zone ordersCount}
    (hinv : s.Inv F fun _ => False) (hzone : F.Within pmmGetZone) (hs : s.Balanced)
    {ops : List PmmUseCall}
    (hops : CallsAll pmmUseCall (fun u op => op.Proper u ∧ op.Careful u) { pmm := s } ops) :
    RunAll pmmUseCall (fun u => u.pmm.Balanced) { pmm := s } ops := by
  obtain ⟨S, h⟩ := Pmm.Counts.of_balanced hinv hzone hs
  refine runAll_of_invariant (I := fun _ u => ∃ F S, u.pmm.Counts F S)
    (fun _ u ⟨F, S, h⟩ => h.balanced) ?_ ⟨F, S, h⟩ hops
  rintro - u op ⟨F, S, h⟩ ⟨hop, hcare⟩
  obtain ⟨u', F', S', h1, h2⟩ := h.call hop hcare
  exact ⟨(), u', h1, F', S', h2⟩

instance (u : PmmUse) : ∀ call : PmmUseCall, Decidable (call.Proper u)
  | .allocate .. => .isTrue trivial
  | .retain page | .release page => decidable_of_iff ((u.pmm.info page).isSome = true)
      Option.isSome_iff_exists
  | .setFree .. => inferInstanceAs (Decidable (_ ∧ _ ∧ ∀ q, _ ≤ q → q < _ → _))

instance (u : PmmUse) : ∀ call : PmmUseCall, Decidable (call.Careful u)
  | .allocate .. => .isTrue trivial
  | .retain _ => inferInstanceAs (Decidable (∀ i, _ = some i → _))
  | .release _ => inferInstanceAs (Decidable (_ ∧ ((∃ i, _ = some i ∧ _) → ∃ g < 32, _)))
  | .setFree .. => inferInstanceAs (Decidable (∃ g < 32, _))

theorem bootPmm_balanced : bootPmm.Balanced := by
  refine ⟨⟨fun _ _ => [], fun _ _ => Dll.Rep.nil _, by decide⟩, by decide, ∅, fun q => ?_, rfl⟩
  constructor
  · intro h
    exact absurd h (notMem_empty q)
  rintro ⟨i, hi, h2⟩
  unfold bootPmm at hi
  dsimp only at hi
  split at hi
  · cases hi
    exact absurd h2 (by decide)
  cases hi

theorem pmm_counters_balanced_boot :
    RunAll pmmUseCall (fun u => u.pmm.Balanced) { pmm := bootPmm }
      [.retain 70, .setFree 64 2, .release 70, .release 70,
        .allocate (some .dma32) 1 allocFlagEmergency, .release 64, .release 65] :=
  pmm_counters_balanced (PmmRun.Holds.of_fresh bootPmm_fresh 0).inv
    (PmmRun.Holds.of_fresh bootPmm_fresh 0).within bootPmm_balanced (by decide +kernel)

/-- The same memory with page 64 referenced as often as the counter can say. -/
def saturatedPmm : Pmm where
  entries _ _ := {}
  mem _ := ⟨none, none⟩
  info q :=
    if q = 64 then some ⟨allOnes 32, pageFlagUsable, 0⟩
    else if q < 128 then some ⟨1, pageFlagUsable, 0⟩ else none
  totalPages := 128
  usedPages := 128
  privatePages := 127
  sharedPages := 1

theorem saturated_shared (q : Nat) : q ∈ ({64} : Finset Nat) ↔
    ∃ i, saturatedPmm.info q = some i ∧ 2 ≤ i.refCount.toNat := by
  rw [mem_singleton]
  unfold saturatedPmm
  constructor
  · rintro rfl
    exact ⟨_, rfl, by decide⟩
  grind

theorem saturatedPmm_balanced : saturatedPmm.Balanced :=
  ⟨⟨fun _ _ => [], fun _ _ => Dll.Rep.nil _, by decide⟩, by decide, {64}, saturated_shared, rfl⟩

/-- The counters go wrong in two ways. A page with the largest reference count looks free after one
more `pmm_retain`, and is still counted as shared. And when the first 32 pages are freed in two
blocks of 16, the first one stays on its list while the block of both is linked in the other zone. -/
theorem pmm_counters_unbalanced :
    (saturatedPmm.Balanced ∧
      CallsAll pmmUseCall (fun u op => op.Proper u) { pmm := saturatedPmm } [.retain 64] ∧
      ∃ u, runOps pmmUseCall { pmm := saturatedPmm } [.retain 64] = .ok ([()], u) ∧
        ¬ u.pmm.Balanced) ∧
    (bootPmm.Balanced ∧
      CallsAll pmmUseCall (fun u op => op.Proper u) { pmm := bootPmm }
        [.setFree 16 4, .setFree 0 4] ∧
      ∃ u, runOps pmmUseCall { pmm := bootPmm } [.setFree 16 4, .setFree 0 4] = .ok ([(), ()], u) ∧
        ¬ u.pmm.Balanced) := by
  refine ⟨⟨saturatedPmm_balanced, by decide +kernel, _, rfl, ?_⟩, bootPmm_balanced, by decide +kernel, _,
    rfl, ?_⟩
  · rintro ⟨-, -, S, hS, hcard⟩
    -- no page is shared any more
    have hempty : S = ∅ := by
      refine eq_empty_of_forall_notMem fun q hq => ?_
      obtain ⟨i, hi, h2⟩ := (hS q).1 hq
      rw [Pmm.setPage_info] at hi
      split at hi
      · cases hi
        exact absurd h2 (by decide)
      exact ‹q ≠ 64› (mem_singleton.1 ((saturated_shared q).2 ⟨i, hi, h2⟩))
    subst hempty
    exact absurd hcard (by decide)
  rintro ⟨⟨L, hL, hsum⟩, -⟩
  have hlen : ∀ z, ∀ o ∈ range ordersCount, (L z o).length =
      if (z = .dma24 ∧ o = 5) ∨ (z = .dma32 ∧ o = 4) then 1 else 0 := by
    intro z o ho
    have ho' : o < 7 := mem_range.1 ho
    refine (hL z o).length_eq ?_ ?_ <;> cases z <;> interval_cases o <;> decide +kernel
  rw [sum_congr rfl fun z _ => sum_congr rfl fun o ho => by rw [hlen z o ho]] at hsum
  exact absurd hsum (by decide)

end Stanix
