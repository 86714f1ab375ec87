import Stanix.Mem.Pmm.Zones

/-!
# Runs of the physical memory manager

A run starts with empty lists and no page that looks free, as `init_second_stage_pmm` sets the memory
manager up. Free ranges of the memory map are added, blocks are allocated and freed, and the owner of
a block writes what it likes into its pages and into the union in their information. `PmmRun` keeps
what has been added and what is outstanding beside the state of the code.

`PmmRun.Holds` is the invariant of all runs in which one of the first 32 pages is never added. From
it come `pmm_run_sound`, for one zone, and `pmm_run_in_zones`, which fails without that page
(`pmm_merge_leaves_zone`).
-/

namespace Stanix

open List Buddy Pmm FreeLists

/-- A call to the memory manager, or a write by the owner of a page: to its memory, as far as a list
node would be there, and to the union in its information. -/
inductive PmmCall
  | addRange (start count : Nat)
  | helperAllocate (zone : Zone) (order : Nat)
  | zoneAllocate (zone : Option Zone) (order : Nat) (flags : BitVec 32)
  | setFree (start order : Nat)
  | write (page : Nat) (node : ListNode Nat) (order : Nat)

/-- A state of a run: the state of the code, the ranges added so far, the outstanding blocks, all
blocks granted so far with the zone they were asked from, and the pages that were taken off lists by
merging. -/
structure PmmRun where
  pmm : Pmm
  added : List (Nat × Nat) := []
  live : List (Nat × Nat) := []
  granted : List (Zone × Nat × Nat) := []
  unlinks : List PmmUnlink := []
  /-- The machine was stopped for lack of memory. -/
  halted : Bool := false

namespace PmmRun

/-- The page is in a range that was added. -/
def Added (r : PmmRun) (q : Nat) : Prop := ∃ b ∈ r.added, b.1 ≤ q ∧ q < b.1 + b.2
  deriving Decidable

/-- The page is in an outstanding block. -/
def Live (r : PmmRun) (q : Nat) : Prop := ∃ b ∈ r.live, b.1 ≤ q ∧ q < b.1 + 2 ^ b.2
  deriving Decidable

/-- The state after an allocation. -/
def grant (r : PmmRun) (zone : Zone) (order page : Nat) (s : Pmm) : PmmRun :=
  if page = pageInvalid then { r with pmm := s }
  else { r with
    pmm := s
    live := (page, order) :: r.live
    granted := (zone, page, order) :: r.granted }

/-- The state after a write to a page. -/
def write (r : PmmRun) (page : Nat) (node : ListNode Nat) (order : Nat) : PmmRun :=
  let s := match r.pmm.info page with
    | some info => r.pmm.setPage page { info with order := order }
    | none => r.pmm
  { r with pmm := { s with mem := Function.update s.mem page node } }

end PmmRun

/-- One call of a run. -/
def pmmCall (r : PmmRun) (call : PmmCall) : Exec (Unit × PmmRun) :=
  if r.halted then return ((), r)
  else
    match call with
    | .addRange start count => do
      let (unlinks, s) ← pmmSetFreePagesRange r.pmm start count
      return ((), { r with
        pmm := s, added := (start, count) :: r.added, unlinks := unlinks ++ r.unlinks })
    | .helperAllocate zone order => do
      let (page, s) ← pmmHelperAllocatePages r.pmm zone order
      return ((), r.grant zone order page s)
    | .zoneAllocate zone order flags =>
      match pmmZoneAllocatePagesFlags r.pmm zone order flags with
      | .ok (page, s) => return ((), r.grant (zone.getD .normal) order page s)
      | .error .panic => return ((), { r with halted := true })
      | .error e => .error e
    | .setFree start order => do
      let (unlinks, s) ← pmmSetFreePages r.pmm start order
      return ((), { r with
        pmm := s, live := r.live.erase (start, order), unlinks := unlinks ++ r.unlinks })
    | .write page node order => return ((), r.write page node order)

/-- What is asked of a call: ranges are added once, of pages that are usable and not reserved, only
outstanding blocks are freed, with the order they were allocated with, and only pages of outstanding
blocks are written. -/
def PmmCall.Proper (r : PmmRun) : PmmCall → Prop
  | .addRange start count => ∀ q, start ≤ q → q < start + count → ¬ r.Added q ∧
      ∃ i, r.pmm.info q = some i ∧ i.flags &&& pageFlagUsable ≠ 0 ∧ i.flags &&& pageFlagReserved = 0
  | .helperAllocate .. => True
  | .zoneAllocate .. => True
  | .setFree start order => (start, order) ∈ r.live
  | .write page _ _ => r.Live page

instance (r : PmmRun) : ∀ call : PmmCall, Decidable (call.Proper r)
  | .addRange _ _ => inferInstanceAs (Decidable (∀ q, _ ≤ q → q < _ → _))
  | .helperAllocate .. | .zoneAllocate .. => .isTrue trivial
  | .setFree .. => inferInstanceAs (Decidable (_ ∈ _))
  | .write page _ _ => inferInstanceAs (Decidable (r.Live page))

/-- The call does not add the page `g`. -/
def PmmCall.Omits (g : Nat) : PmmCall → Prop
  | .addRange start count => ¬ (start ≤ g ∧ g < start + count)
  | _ => True

/-- The memory manager before the first range is added: the lists are empty, no page looks free, and
`PAGE_INVALID` is far from every page. -/
structure Pmm.Fresh (s : Pmm) : Prop where
  entries : ∀ z o, s.entries z o = {}
  inUse : ∀ {q i}, s.info q = some i → pmmIsFree i = false
  bound : ∀ {q i}, s.info q = some i → ¬ InBlock (ordersCount - 1) pageInvalid q

/-! ## The invariant of runs -/

/-- The state of a run, against the free lists it stands for, when the page `g` is never added. -/
structure PmmRun.Holds (g : Nat) (r : PmmRun) (F : FreeLists Zone ordersCount) : Prop where
  inv : r.pmm.Inv F fun _ => False
  within : F.Within pmmGetZone
  coalesced : F.Coalesced
  gap : ¬ r.Added g
  covers : ∀ q, r.Added q ↔ F.Covers q ∨ r.Live q
  apart : ∀ {q}, F.Covers q → ¬ r.Live q
  block : ∀ {p o}, (p, o) ∈ r.live → o < ordersCount ∧ p % 2 ^ o = 0
  disjoint : r.live.Pairwise fun b c => ∀ q, InBlock b.2 b.1 q → ¬ InBlock c.2 c.1 q
  usable : ∀ {q}, r.Added q → ∃ x, r.pmm.refs q = some x ∧ x.2 &&& pageFlagReserved = 0
  linked : ∀ u ∈ r.unlinks, u.Linked
  granted : ∀ {z p o q}, (z, p, o) ∈ r.granted → p ≤ q ∧ q < p + 2 ^ o →
    pmmGetZone q ∈ z.andBelow

namespace PmmRun.Holds

variable {r r' : PmmRun} {F : FreeLists Zone ordersCount} {g o p q : Nat} {z : Zone}

theorem live_of_mem (h : r.Holds g F) (hp : (p, o) ∈ r.live) (hq : InBlock o p q) : r.Live q :=
  ⟨(p, o), hp, (inBlock_iff (h.block hp).2).1 hq⟩

theorem info_of_added (h : r.Holds g F) (hq : r.Added q) : ∃ i, r.pmm.info q = some i := by
  obtain ⟨x, hx, -⟩ := h.usable hq
  obtain ⟨i, hi, -⟩ := Option.map_eq_some_iff.1 hx
  exact ⟨i, hi⟩

/-- The start of a run. -/
theorem of_fresh {s : Pmm} (hs : s.Fresh) (g : Nat) :
    Holds g { pmm := s } (FreeLists.empty Zone ordersCount) where
  inv :=
    { rep := fun z o => by
        rw [hs.entries]
        exact Dll.Rep.nil s.mem
      bound := hs.bound
      free := fun h => absurd (h.resolve_right id) not_covers_empty
      head := fun h => absurd h not_mem_nil
      linked := fun hi hf => by
        rw [hs.inUse hi] at hf
        cases hf
      hole := False.elim }
  within _ _ _ _ h := absurd h not_mem_nil
  coalesced _ _ _ _ _ h := absurd h not_mem_nil
  gap := by simp [Added]
  covers q := by simp [Added, Live, not_covers_empty]
  apart h := absurd h not_covers_empty
  block h := absurd h not_mem_nil
  disjoint := List.Pairwise.nil
  usable := by simp [Added]
  linked u h := absurd h not_mem_nil
  granted h := absurd h not_mem_nil

variable (h : r.Holds g F)

include h

/-- A range is added. -/
theorem addRange (hg : g < 32) {start count : Nat}
    (hproper : (PmmCall.addRange start count).Proper r) (hgap : ¬ (start ≤ g ∧ g < start + count)) :
    ∃ us s F', pmmSetFreePagesRange r.pmm start count = .ok (us, s) ∧ Holds g { r with
      pmm := s, added := (start, count) :: r.added, unlinks := us ++ r.unlinks } F' := by
  have hcov : ∀ {q}, F.Covers q → r.Added q := fun hq => (h.covers _).2 (.inl hq)
  have hpages (q : Nat) (hle : start ≤ q) (hlt : q < start + count) : ∃ i, r.pmm.info q = some i :=
    (hproper q hle hlt).2.imp fun _ => And.left
  obtain ⟨us, s, F', h1, h2, h3, h4, h5, h6, h7⟩ :=
    h.inv.freeRange h.within hg (fun hc => h.gap (hcov hc)) hgap (fun q hle hlt =>
      ⟨fun hc => (hproper q hle hlt).1 (hcov hc), hpages q hle hlt⟩) (Nat.lt_succ_self count)
  rw [← h.inv.setFreePagesRange_eq hpages] at h1
  let r' : PmmRun := { r with
    pmm := s, added := (start, count) :: r.added, unlinks := us ++ r.unlinks }
  have hadded : ∀ {q}, r'.Added q ↔ (start ≤ q ∧ q < start + count) ∨ r.Added q := by
    simp [r', Added]
  have hres : ∀ q, (start ≤ q ∧ q < start + count) ∨ r.Added q →
      ∃ x, r.pmm.refs q = some x ∧ x.2 &&& pageFlagReserved = 0 := by
    rintro q (hq | hq)
    · obtain ⟨-, i, hi, -, hi'⟩ := hproper q hq.1 hq.2
      exact ⟨_, refs_of_info hi, hi'⟩
    exact h.usable hq
  refine ⟨us, s, F', h1, h2, h3, h7 h.coalesced fun q x hq hx => ?_, ?_, fun q => ?_, fun {q} hq => ?_,
    h.block, h.disjoint, fun {q} hq => ?_, ?_, h.granted⟩
  · grind
  · rintro hadd
    exact (hadded.1 hadd).elim hgap h.gap
  · refine hadded.trans ?_
    rw [h4, h.covers]
    tauto
  · rcases (h4 q).1 hq with hq | hq
    · exact h.apart hq
    exact fun hl => (hproper q hq.1 hq.2).1 ((h.covers q).2 (.inr hl))
  · grind
  intro u hu
  exact (mem_append.1 hu).elim (h5 u) (h.linked u)

/-- A block is granted. -/
theorem grant {F' : FreeLists Zone ordersCount} {s : Pmm} {z' : Zone}
    (hp : p ≠ pageInvalid) (hF : Taken z' F F' o p) (hs : s.Inv F' fun _ => False)
    (hrefs : ∀ q, s.refs q = if InBlock o p q then
      (r.pmm.refs q).map fun x => (1, x.2 &&& (pageFlagUsable ||| pageFlagReserved))
      else r.pmm.refs q) (hz : z' ∈ z.andBelow) : (r.grant z o p s).Holds g F' := by
  have hlive : ∀ {q}, (∃ b ∈ (p, o) :: r.live, b.1 ≤ q ∧ q < b.1 + 2 ^ b.2) ↔
      InBlock o p q ∨ r.Live q := by
    intro q
    rw [inBlock_iff hF.aligned]
    simp [Live]
  unfold PmmRun.grant
  rw [if_neg hp]
  refine ⟨hs, hF.within h.within, hF.coalesced h.coalesced, h.gap, fun q => ?_, fun {q} hq => ?_,
    fun {p' o'} hb => ?_, ?_, fun {q} hq => ?_, h.linked, fun {z1 p1 o1 q} hb hq => ?_⟩
  · refine (h.covers q).trans ?_
    rw [hF.covers]
    refine Iff.trans ?_ (or_congr_right hlive.symm)
    tauto
  · intro hl
    rcases hlive.1 hl with hb | hl
    · exact hF.apart hb hq
    exact h.apart (hF.covers.2 (.inl hq)) hl
  · rcases mem_cons.1 hb with hb | hb
    · cases hb
      exact ⟨hF.order_lt, hF.aligned⟩
    exact h.block hb
  · refine pairwise_cons.2 ⟨fun b hb q hq hq' => ?_, h.disjoint⟩
    exact h.apart (hF.covers.2 (.inr hq)) (h.live_of_mem hb hq')
  · obtain ⟨x, hx, hx'⟩ := h.usable hq
    rw [hrefs, hx]
    split
    · grind
    exact ⟨x, rfl, hx'⟩
  rcases mem_cons.1 hb with hb | hb
  · cases hb
    rw [hF.zone h.within ((inBlock_iff hF.aligned).2 hq)]
    exact hz
  exact h.granted hb hq

/-- An outstanding block is freed. -/
theorem setFree (hg : g < 32) (hp : (p, o) ∈ r.live) :
    ∃ us s F', pmmSetFreePages r.pmm p o = .ok (us, s) ∧ Holds g { r with
      pmm := s, live := r.live.erase (p, o), unlinks := us ++ r.unlinks } F' := by
  obtain ⟨ho, hmod⟩ := h.block hp
  have hlive : ∀ {q}, InBlock o p q → r.Live q := fun hq => h.live_of_mem hp hq
  have hcov : ∀ {q}, F.Covers q → r.Added q := fun hq => (h.covers _).2 (.inl hq)
  have hadded : ∀ {q}, InBlock o p q → r.Added q := fun hq => (h.covers _).2 (.inr (hlive hq))
  have hgap : ¬ InBlock o p g := fun hq => h.gap (hadded hq)
  obtain ⟨us, s, F', h1, h2, h3, h4, h5, -, h6⟩ := h.inv.setFreePages (fun _ => False.elim) hmod ho
    (fun q hq => ⟨fun hc => h.apart hc (hlive hq), h.info_of_added (hadded hq)⟩)
    (zoneClosed_of_gap h.within hg (fun hc => h.gap (hcov hc)) hgap)
  -- the other outstanding blocks are apart from the freed one
  have hperm := perm_cons_erase hp
  have hpair := (hperm.pairwise_iff fun hbc q hq hq' => hbc q hq' hq).1 h.disjoint
  obtain ⟨hhead, htail⟩ := pairwise_cons.1 hpair
  have hsub : ∀ {b}, b ∈ r.live.erase (p, o) → b ∈ r.live := fun hb => mem_of_mem_erase hb
  have hlive' : ∀ {q}, r.Live q ↔
      InBlock o p q ∨ ∃ b ∈ r.live.erase (p, o), b.1 ≤ q ∧ q < b.1 + 2 ^ b.2 := by
    intro q
    constructor
    · rintro ⟨b, hb, hq⟩
      rcases mem_cons.1 (hperm.mem_iff.1 hb) with rfl | hb
      · exact .inl ((inBlock_iff hmod).2 hq)
      exact .inr ⟨b, hb, hq⟩
    rintro (hq | ⟨b, hb, hq⟩)
    · exact hlive hq
    exact ⟨b, hsub hb, hq⟩
  refine ⟨us, s, F', h1, h2, within_of_gap h3 h.within ho hg hgap,
    h6 h.coalesced fun q x hq hx => ?_, h.gap, fun q => ?_, fun {q} hq => ?_, fun hb => h.block (hsub hb),
    htail, fun {q} hq => ?_, ?_, h.granted⟩
  · obtain ⟨y, hy, hy'⟩ := h.usable (hq.elim hcov hadded)
    cases hx.symm.trans hy
    exact hy'
  · refine (h.covers q).trans ?_
    rw [h3.covers, hlive', or_assoc]
    rfl
  · rintro ⟨b, hb, hq'⟩
    rcases h3.covers.1 hq with hq | hq
    · exact h.apart hq ⟨b, hsub hb, hq'⟩
    exact hhead b hb q hq ((inBlock_iff (h.block (hsub hb)).2).2 hq')
  · obtain ⟨x, hx, hx'⟩ := h.usable hq
    rw [h5, hx]
    split
    · exact ⟨_, rfl, hx'⟩
    exact ⟨x, rfl, hx'⟩
  intro u hu
  exact (mem_append.1 hu).elim (h4 u) (h.linked u)

theorem write (hq : r.Live q) (node : ListNode Nat) (order : Nat) :
    (r.write q node order).Holds g F := by
  obtain ⟨i, hi⟩ := h.info_of_added ((h.covers q).2 (.inr hq))
  have hinv := h.inv.write (fun hc => h.apart hc hq) hi node order
  unfold PmmRun.write
  rw [hi]
  refine ⟨hinv, h.within, h.coalesced, h.gap, h.covers, h.apart, h.block, h.disjoint,
    fun {q'} hq' => ?_, h.linked, h.granted⟩
  obtain ⟨x, hx, hx'⟩ := h.usable hq'
  exact ⟨x, (congrFun (refs_setPage_order hi order) q').trans hx, hx'⟩

/-- **One call.** A proper call returns, and keeps the invariant. -/
theorem call (hg : g < 32) {op : PmmCall} (hop : op.Proper r) (hgap : op.Omits g) :
    ∃ r' F', pmmCall r op = .ok ((), r') ∧ r'.Holds g F' := by
  unfold pmmCall
  by_cases hhalt : r.halted = true
  · exact ⟨r, F, if_pos hhalt, h⟩
  rw [if_neg hhalt]
  have hnone : ∀ z o, (r.grant z o pageInvalid r.pmm).Holds g F := fun z o => h
  cases op with
  | addRange start count =>
    obtain ⟨us, s, F', h1, h2⟩ := h.addRange hg hop hgap
    exact ⟨_, F', by dsimp only; rw [h1]; rfl, h2⟩
  | helperAllocate zone order =>
    rcases h.inv.helperAllocatePages zone order with h1 | ⟨p, s, F', h1, h2, h3, h4, h5, -⟩
    · exact ⟨_, F, by dsimp only; rw [h1]; rfl, hnone zone order⟩
    have hz : zone ∈ zone.andBelow := by cases zone <;> decide
    exact ⟨_, F', by dsimp only; rw [h1]; rfl, h.grant h2 h3 h4 h5 hz⟩
  | zoneAllocate zone order flags =>
    dsimp only
    rcases h.inv.zoneAllocatePagesFlags zone order flags with h1 | h1 | ⟨z, hz, h1, h2⟩
    · exact ⟨{ r with halted := true }, F, by rw [h1]; rfl, { h with }⟩
    · exact ⟨_, F, by rw [h1]; rfl, hnone _ order⟩
    rcases h.inv.helperAllocatePages z order with h3 | ⟨p, s, F', h3, h4, h5, h6, h7, -⟩
    · exact absurd h3 h2
    exact ⟨_, F', by rw [h1, h3]; rfl, h.grant h4 h5 h6 h7 hz⟩
  | setFree start order =>
    obtain ⟨us, s, F', h1, h2⟩ := h.setFree hg hop
    exact ⟨_, F', by dsimp only; rw [h1]; rfl, h2⟩
  | write page node order => exact ⟨_, F, rfl, h.write hop node order⟩

end PmmRun.Holds

/-! ## One zone -/

/-- The block at `p` is the `n`-th on the free list of the zone and the order. -/
def Pmm.FreeAt (s : Pmm) (z : Zone) (o n p : Nat) : Prop :=
  Dll.nth s.mem (s.entries z o).firstNode n = some p

/-- The free blocks and the outstanding ones partition the memory that was added, and the free ones
are as the code takes them to be. -/
structure PmmRun.Sound (r : PmmRun) : Prop where
  freeDisjoint : ∀ {z z' o o' n n' p p' q}, r.pmm.FreeAt z o n p → r.pmm.FreeAt z' o' n' p' →
    p ≤ q ∧ q < p + 2 ^ o → p' ≤ q ∧ q < p' + 2 ^ o' → z = z' ∧ o = o' ∧ n = n'
  freeLive : ∀ {z o n p q}, r.pmm.FreeAt z o n p → p ≤ q ∧ q < p + 2 ^ o → ¬ r.Live q
  liveDisjoint : r.live.Pairwise fun b c =>
    ∀ q, b.1 ≤ q ∧ q < b.1 + 2 ^ b.2 → ¬ (c.1 ≤ q ∧ q < c.1 + 2 ^ c.2)
  covers : ∀ q, r.Added q ↔ (∃ z o n p, r.pmm.FreeAt z o n p ∧ p ≤ q ∧ q < p + 2 ^ o) ∨ r.Live q
  aligned : ∀ {z o n p}, r.pmm.FreeAt z o n p → o < ordersCount ∧ p % 2 ^ o = 0
  unreferenced : ∀ {z o n p q}, r.pmm.FreeAt z o n p → p ≤ q ∧ q < p + 2 ^ o →
    ∃ i, r.pmm.info q = some i ∧ i.refCount = 0
  order : ∀ {z o n p}, r.pmm.FreeAt z o n p → ∃ i, r.pmm.info p = some i ∧ i.order = o
  merged : ∀ {z z' o n n' p}, o < 6 → r.pmm.FreeAt z o n p → ¬ r.pmm.FreeAt z' o n' (p ^^^ 2 ^ o)

namespace Pmm.Inv

variable {s : Pmm} {F : FreeLists Zone ordersCount} {H : Nat → Prop} {z z' : Zone}
  {o o' p p' q n n' : Nat}

theorem freeAt_iff (h : s.Inv F H) : s.FreeAt z o n p ↔ (F.heads z o)[n]? = some p := by
  rw [FreeAt, (h.rep z o).nth_eq]

section

variable (h : s.Inv F H) (hp : s.FreeAt z o n p)
include h hp

theorem mem_of_freeAt : p ∈ F.heads z o :=
  mem_of_getElem? (h.freeAt_iff.1 hp)

theorem inBlock_of_freeAt (hq : p ≤ q ∧ q < p + 2 ^ o) : InBlock o p q :=
  (inBlock_iff (F.aligned (h.mem_of_freeAt hp))).2 hq

theorem covers_of_freeAt (hq : p ≤ q ∧ q < p + 2 ^ o) : F.Covers q :=
  ⟨z, o, p, h.mem_of_freeAt hp, h.inBlock_of_freeAt hp hq⟩

theorem freeAt_disjoint (hp' : s.FreeAt z' o' n' p') (hq : p ≤ q ∧ q < p + 2 ^ o)
    (hq' : p' ≤ q ∧ q < p' + 2 ^ o') : z = z' ∧ o = o' ∧ n = n' := by
  obtain ⟨rfl, rfl, rfl⟩ := F.disjoint (h.mem_of_freeAt hp) (h.mem_of_freeAt hp')
    (h.inBlock_of_freeAt hp hq) (h.inBlock_of_freeAt hp' hq')
  rw [h.freeAt_iff] at hp hp'
  have hlt := (List.getElem?_eq_some_iff.1 hp).1
  exact ⟨rfl, rfl, (List.getElem?_inj hlt (F.nodup z o)).1 (hp.trans hp'.symm)⟩

end

end Pmm.Inv

variable {F : FreeLists Zone ordersCount} {g lo hi q : Nat} {r : PmmRun}

/-- The invariant makes a state sound. -/
theorem PmmRun.Holds.sound (h : r.Holds g F) : r.Sound where
  freeDisjoint hp hp' := h.inv.freeAt_disjoint hp hp'
  freeLive hp hq := h.apart (h.inv.covers_of_freeAt hp hq)
  liveDisjoint := by
    refine h.disjoint.imp_of_mem fun {b c} hb hc hbc q hq hq' => ?_
    exact hbc q ((inBlock_iff (h.block hb).2).2 hq) ((inBlock_iff (h.block hc).2).2 hq')
  covers q := by
    rw [h.covers]
    refine or_congr_left ⟨?_, ?_⟩
    · rintro ⟨z, o, p, hp, hq⟩
      obtain ⟨n, hn⟩ := mem_iff_getElem?.1 hp
      exact ⟨z, o, n, p, h.inv.freeAt_iff.2 hn, (inBlock_iff (F.aligned hp)).1 hq⟩
    rintro ⟨z, o, n, p, hp, hq⟩
    exact h.inv.covers_of_freeAt hp hq
  aligned hp := ⟨F.order_lt (h.inv.mem_of_freeAt hp), F.aligned (h.inv.mem_of_freeAt hp)⟩
  unreferenced hp hq := h.inv.free (.inl (h.inv.covers_of_freeAt hp hq))
  order := by
    intro z o n p hp
    have hmem := h.inv.mem_of_freeAt hp
    obtain ⟨i, hi, -⟩ := h.inv.free (.inl (covers_of_mem hmem))
    exact ⟨i, hi, h.inv.head hmem hi⟩
  merged ho hp hp' := h.coalesced _ _ _ _ (Nat.succ_lt_succ ho) (h.inv.mem_of_freeAt hp)
    (h.inv.mem_of_freeAt hp')

/-- A call on the pages from `lo` to `hi`, which belong to the zone `z`. -/
def PmmCall.Fits (z : Zone) (lo hi : Nat) (r : PmmRun) : PmmCall → Prop
  | .addRange start count =>
      (lo ≤ start ∧ start + count ≤ hi) ∧ (PmmCall.addRange start count).Proper r
  | .helperAllocate zone _ => zone = z
  | .zoneAllocate .. => False
  | .setFree start order => (PmmCall.setFree start order).Proper r
  | .write page node order => (PmmCall.write page node order).Proper r

instance (z : Zone) (lo hi : Nat) (r : PmmRun) : ∀ call : PmmCall, Decidable (call.Fits z lo hi r)
  | .addRange .. => inferInstanceAs (Decidable (_ ∧ _))
  | .helperAllocate .. => inferInstanceAs (Decidable (_ = _))
  | .zoneAllocate .. => .isFalse id
  | .setFree start order => inferInstanceAs (Decidable ((PmmCall.setFree start order).Proper r))
  | .write page node order => inferInstanceAs (Decidable ((PmmCall.write page node order).Proper r))

/-- The bounds of a zone that are multiples of the largest block leave out the first page, unless
there is nothing between them. -/
theorem lo_pos_of_zone {z : Zone} (hlo : lo % 64 = 0) (hhi : hi % 64 = 0)
    (hzone : ∀ q, lo ≤ q → q < hi → pmmGetZone q = z) : 0 < lo ∨ hi = 0 := by
  by_contra h
  have h0 := hzone 0 (by omega) (by omega)
  have h63 := hzone 63 (by omega) (by omega)
  exact absurd (h0.trans h63.symm) (by decide)

theorem holds_of_fits {z : Zone} (hlo : lo % 64 = 0) (hhi : hi % 64 = 0)
    (hzone : ∀ q, lo ≤ q → q < hi → pmmGetZone q = z) {s : Pmm} (hs : s.Fresh) {ops : List PmmCall}
    (hops : CallsAll pmmCall (fun r op => op.Fits z lo hi r) { pmm := s } ops) :
    RunAll pmmCall (fun r => ∃ F, r.Holds 0 F) { pmm := s } ops := by
  have hlow := lo_pos_of_zone hlo hhi hzone
  refine runAll_of_invariant (fun _ _ => id) ?_
    ⟨_, .of_fresh hs 0⟩ hops
  rintro - r op ⟨F, h⟩ hop
  have hstep : op.Proper r ∧ op.Omits 0 := by
    cases op with
    | addRange start count =>
      refine ⟨hop.2, fun hq => ?_⟩
      have := hop.1
      omega
    | helperAllocate zone order => exact ⟨trivial, trivial⟩
    | zoneAllocate zone order flags => exact hop.elim
    | setFree start order => exact ⟨hop, trivial⟩
    | write page node order => exact ⟨hop, trivial⟩
  obtain ⟨r', F', h1, h2⟩ := h.call (by decide) hstep.1 hstep.2
  exact ⟨(), r', h1, F', h2⟩

/-- **The free lists are sound.** On the pages of one zone, between bounds that are multiples of 64
pages, every run that adds usable ranges, allocates, frees and writes what it holds keeps the free
blocks and the outstanding ones a partition of the memory that was added. Every free block is
aligned, has no references and holds its order, and no two buddies are free. -/
theorem pmm_run_sound {z : Zone} {lo hi : Nat} (hlo : lo % 64 = 0) (hhi : hi % 64 = 0)
    (hzone : ∀ q, lo ≤ q → q < hi → pmmGetZone q = z) {s : Pmm} (hs : s.Fresh) {ops : List PmmCall}
    (hops : CallsAll pmmCall (fun r op => op.Fits z lo hi r) { pmm := s } ops) :
    RunAll pmmCall PmmRun.Sound { pmm := s } ops :=
  (holds_of_fits hlo hhi hzone hs hops).mono fun _ ⟨_, h⟩ => h.sound

/-- Memory of 128 pages, usable and all with one reference, as they are before they are added. -/
def bootPmm : Pmm where
  entries _ _ := {}
  mem _ := ⟨none, none⟩
  info q := if q < 128 then some ⟨1, pageFlagUsable, 0⟩ else none
  totalPages := 128
  usedPages := 128
  privatePages := 128
  sharedPages := 0

theorem bootPmm_fresh : bootPmm.Fresh where
  entries _ _ := rfl
  inUse := by
    intro q i hi
    unfold bootPmm at hi
    dsimp only at hi
    split at hi
    · cases hi
      rfl
    cases hi
  bound := by
    intro q i hi hq
    unfold bootPmm at hi
    dsimp only at hi
    split at hi
    · unfold InBlock ordersCount pageInvalid at hq
      omega
    cases hi

theorem pmmGetZone_boot (q : Nat) (hle : 64 ≤ q) (hlt : q < 128) : pmmGetZone q = .dma32 := by
  unfold pmmGetZone pageSize zoneDma24End zoneDma32End
  rw [if_neg (by omega), if_pos (by omega)]

theorem pmm_run_sound_boot :
    RunAll pmmCall PmmRun.Sound { pmm := bootPmm }
      [.addRange 64 7, .addRange 71 5, .helperAllocate .dma32 1, .helperAllocate .dma32 0,
        .write 72 ⟨some 3, some 64⟩ 1, .setFree 72 1, .setFree 74 0] :=
  pmm_run_sound (by decide) (by decide) pmmGetZone_boot bootPmm_fresh (by decide +kernel)

/-! ## All zones -/

/-- The lists do not mix the zones: every block on a list of a zone lies inside it, merging has
taken pages only off the lists they were on, and no block was granted from above the zone asked for.
-/
structure PmmRun.InZones (r : PmmRun) : Prop where
  within : ∀ {z o n p q}, r.pmm.FreeAt z o n p → p ≤ q ∧ q < p + 2 ^ o → pmmGetZone q = z
  linked : ∀ u ∈ r.unlinks, u.Linked
  belowDma24 : ∀ {p o q}, (.dma24, p, o) ∈ r.granted → p ≤ q ∧ q < p + 2 ^ o →
    q * pageSize < zoneDma24End
  belowDma32 : ∀ {p o q}, (.dma32, p, o) ∈ r.granted → p ≤ q ∧ q < p + 2 ^ o →
    q * pageSize < zoneDma32End

theorem pmmGetZone_eq_dma24 (h : pmmGetZone q = .dma24) : q * pageSize < zoneDma24End := by
  unfold pmmGetZone at h
  split at h
  · assumption
  split at h <;> cases h

theorem pmmGetZone_ne_normal (h : pmmGetZone q ≠ .normal) : q * pageSize < zoneDma32End := by
  unfold pmmGetZone at h
  split at h
  · unfold zoneDma24End at *
    unfold zoneDma32End
    omega
  split at h
  · assumption
  exact absurd rfl h

theorem PmmRun.Holds.inZones (h : r.Holds g F) : r.InZones where
  within hp hq := h.within _ _ _ _ (h.inv.mem_of_freeAt hp) (h.inv.inBlock_of_freeAt hp hq)
  linked := h.linked
  belowDma24 hp hq := pmmGetZone_eq_dma24 (mem_singleton.1 (h.granted hp hq))
  belowDma32 hp hq := pmmGetZone_ne_normal fun hz => by
    have := h.granted hp hq
    rw [hz] at this
    exact absurd this (by decide)

/-- **The zones stay apart.** In every run in which one of the first 32 pages is never added, no
list mixes the zones, and what is granted from `ZONE_DMA24` or `ZONE_DMA32` lies below the end of
that zone. -/
theorem pmm_run_in_zones {g : Nat} (hg : g < 32) {s : Pmm} (hs : s.Fresh) {ops : List PmmCall}
    (hops : CallsAll pmmCall (fun r op => op.Proper r ∧ op.Omits g) { pmm := s } ops) :
    RunAll pmmCall PmmRun.InZones { pmm := s } ops := by
  refine runAll_of_invariant (I := fun _ r => ∃ F, r.Holds g F) (fun _ r ⟨F, h⟩ => h.inZones) ?_
    ⟨_, .of_fresh hs g⟩ hops
  rintro - r op ⟨F, h⟩ ⟨hop, hgap⟩
  obtain ⟨r', F', h1, h2⟩ := h.call hg hop hgap
  exact ⟨(), r', h1, F', h2⟩

instance (g : Nat) : ∀ call : PmmCall, Decidable (call.Omits g)
  | .addRange .. => inferInstanceAs (Decidable (¬ _))
  | .helperAllocate .. | .zoneAllocate .. | .setFree .. | .write .. => .isTrue trivial

theorem pmm_run_in_zones_boot :
    RunAll pmmCall PmmRun.InZones { pmm := bootPmm }
      [.addRange 1 60, .zoneAllocate (some .dma24) 2 allocFlagEmergency,
        .zoneAllocate none 4 allocFlagEmergency, .setFree 4 2] :=
  pmm_run_in_zones (g := 0) (by decide) bootPmm_fresh (by decide +kernel)

/-- When the first 32 pages are added as two ranges of 16, the second one merges with the first,
which is on a list of the other zone, and the block of 32 pages across the border ends on a list of
`ZONE_DMA24`. -/
theorem pmm_merge_leaves_zone :
    bootPmm.Fresh ∧
      CallsAll pmmCall (fun r op => op.Proper r) { pmm := bootPmm }
        [.addRange 16 16, .addRange 0 16] ∧
      ∃ r, runOps pmmCall { pmm := bootPmm } [.addRange 16 16, .addRange 0 16] = .ok ([(), ()], r) ∧
        (∃ u ∈ r.unlinks, ¬ u.Linked) ∧ ¬ r.InZones := by
  refine ⟨bootPmm_fresh, by decide +kernel, _, rfl, ⟨_, mem_cons_self, ?_⟩, fun h => ?_⟩
  · -- the list of order 4 of the first zone is empty when page 16 is taken off it
    rintro ⟨n, hn⟩
    exact Option.some_ne_none _ (hn.symm.trans (Dll.nth_none _ n))
  have hzone := h.within (z := .dma24) (o := 5) (n := 0) (q := 16) rfl (by decide)
  exact absurd hzone (by decide)

/-! ## Free lists without a history -/

open Exec

/-- The state that a run leaves. -/
theorem PmmRun.Holds.run {g : Nat} (hg : g < 32) {s : Pmm} (hs : s.Fresh) {ops : List PmmCall}
    (hops : CallsAll pmmCall (fun r op => op.Proper r ∧ op.Omits g) { pmm := s } ops) {rs : List Unit}
    (hrun : runOps pmmCall { pmm := s } ops = .ok (rs, r)) : ∃ F, r.Holds g F := by
  refine (runAll_of_invariant (I := fun _ r => ∃ F, r.Holds g F) (fun _ r h => h) ?_
    ⟨_, .of_fresh hs g⟩ hops).final hrun
  rintro - r op ⟨F, h⟩ ⟨hop, hgap⟩
  obtain ⟨r', F', h1, h2⟩ := h.call hg hop hgap
  exact ⟨(), r', h1, F', h2⟩

/-- The free pages are those that were added and are not in a block that was handed out. -/
theorem PmmRun.Holds.covers_iff (h : r.Holds g F) (q : Nat) :
    F.Covers q ↔ r.Added q ∧ ¬ r.Live q := by
  rw [h.covers]
  exact ⟨fun hq => ⟨.inl hq, h.apart hq⟩, fun hq => hq.1.resolve_right hq.2⟩

/-- **The free lists have no history.** Two runs that leave the same pages free, however they added,
allocated and freed them, leave the same blocks on the free lists of every zone and order. -/
theorem pmm_lists_canonical {g : Nat} (hg : g < 32) {s s' : Pmm} (hs : s.Fresh) (hs' : s'.Fresh)
    {ops ops' : List PmmCall}
    (hops : CallsAll pmmCall (fun r op => op.Proper r ∧ op.Omits g) { pmm := s } ops)
    (hops' : CallsAll pmmCall (fun r op => op.Proper r ∧ op.Omits g) { pmm := s' } ops')
    {r r' : PmmRun} {rs rs' : List Unit} (hrun : runOps pmmCall { pmm := s } ops = .ok (rs, r))
    (hrun' : runOps pmmCall { pmm := s' } ops' = .ok (rs', r'))
    (hfree : ∀ q, r.Added q ∧ ¬ r.Live q ↔ r'.Added q ∧ ¬ r'.Live q) (z : Zone) (o p : Nat) :
    (∃ n, r.pmm.FreeAt z o n p) ↔ ∃ n, r'.pmm.FreeAt z o n p := by
  obtain ⟨F, h⟩ := PmmRun.Holds.run hg hs hops hrun
  obtain ⟨F', h'⟩ := PmmRun.Holds.run hg hs' hops' hrun'
  have hcovers (q : Nat) : F.Covers q ↔ F'.Covers q := by
    rw [h.covers_iff, h'.covers_iff, hfree]
  simp only [h.inv.freeAt_iff, h'.inv.freeAt_iff, ← mem_iff_getElem?]
  exact ⟨h.coalesced.mem_of_covers h'.coalesced h.within h'.within hcovers,
    h'.coalesced.mem_of_covers h.coalesced h'.within h.within fun q => (hcovers q).symm⟩

/-- A block that is allocated and freed leaves the lists as they were. -/
theorem pmm_lists_canonical_boot : ∃ r r' rs rs',
    runOps pmmCall { pmm := bootPmm } [.addRange 1 60] = .ok (rs, r) ∧
    runOps pmmCall { pmm := bootPmm }
      [.addRange 1 60, .zoneAllocate (some .dma24) 2 allocFlagEmergency, .setFree 4 2] = .ok (rs', r') ∧
    ∀ z o p, (∃ n, r.pmm.FreeAt z o n p) ↔ ∃ n, r'.pmm.FreeAt z o n p := by
  have final (ops : List PmmCall) (h : (runOps pmmCall { pmm := bootPmm } ops).okAnd
      fun x => x.2.added = [(1, 60)] && x.2.live = []) :
      ∃ rs r, runOps pmmCall { pmm := bootPmm } ops = .ok (rs, r) ∧
        ∀ q, r.Added q ∧ ¬ r.Live q ↔ 1 ≤ q ∧ q < 61 := by
    obtain ⟨⟨rs, r⟩, hr, hx⟩ := okAnd_eq_true.1 h
    exact ⟨rs, r, hr, by simp_all [PmmRun.Added, PmmRun.Live]⟩
  obtain ⟨rs, r, hr, hfree⟩ := final [.addRange 1 60] (by decide +kernel)
  obtain ⟨rs', r', hr', hfree'⟩ := final
    [.addRange 1 60, .zoneAllocate (some .dma24) 2 allocFlagEmergency, .setFree 4 2] (by decide +kernel)
  exact ⟨r, r', rs, rs', hr, hr', pmm_lists_canonical (g := 0) (by decide) bootPmm_fresh bootPmm_fresh
    (by decide +kernel) (by decide +kernel) hr hr' fun q => (hfree q).trans (hfree' q).symm⟩

/-- **Allocation is complete.** In every state of every run, allocation of an order from a zone fails
exactly if the zone has no free pages in a row, as many as asked for, that start at a multiple of their
number. -/
theorem pmm_allocate_complete {g : Nat} (hg : g < 32) {s : Pmm} (hs : s.Fresh) {ops : List PmmCall}
    (hops : CallsAll pmmCall (fun r op => op.Proper r ∧ op.Omits g) { pmm := s } ops)
    {rs : List Unit} (hrun : runOps pmmCall { pmm := s } ops = .ok (rs, r)) (z : Zone) {o : Nat}
    (ho : o < ordersCount) :
    pmmHelperAllocatePages r.pmm z o = .ok (pageInvalid, r.pmm) ↔
      ¬ ∃ p, p % 2 ^ o = 0 ∧ ∀ q, p ≤ q ∧ q < p + 2 ^ o →
        (r.Added q ∧ ¬ r.Live q) ∧ pmmGetZone q = z := by
  obtain ⟨F, h⟩ := PmmRun.Holds.run hg hs hops hrun
  simp only [← h.covers_iff]
  constructor
  · rintro hfail ⟨p, hp, hfree⟩
    simp only [← inBlock_iff hp] at hfree
    obtain ⟨z', o', p', hp', hle, hin⟩ := h.coalesced.exists_block ho fun q hq => (hfree q hq).1
    obtain rfl := (h.within _ _ _ _ hp' hin).symm.trans (hfree p rfl).2
    obtain ⟨⟨page, s₁⟩, hraw, hrest⟩ := bind_eq_ok.1 hfail
    by_cases hpage : page = pageInvalid
    · subst hpage
      rw [h.inv.heads_eq_nil hraw (by omega) hle] at hp'
      cases hp'
    simp only [if_neg hpage] at hrest
    obtain ⟨s₂, -, hrest⟩ := bind_eq_ok.1 hrest
    exact hpage (congrArg Prod.fst (Except.ok.inj hrest))
  intro hnone
  refine (h.inv.helperAllocatePages z o).resolve_right ?_
  rintro ⟨p, s', F', -, -, htaken, -⟩
  refine hnone ⟨p, htaken.aligned, fun q hq => ?_⟩
  rw [← inBlock_iff htaken.aligned] at hq
  exact ⟨htaken.covers.2 (.inr hq), htaken.zone h.within hq⟩

/-- Page zero being left out, the first zone has no 16 pages in a row. -/
theorem pmm_allocate_complete_boot : ∃ rs r,
    runOps pmmCall { pmm := bootPmm } [.addRange 1 60] = .ok (rs, r) ∧
    pmmHelperAllocatePages r.pmm .dma24 4 = .ok (pageInvalid, r.pmm) := by
  obtain ⟨⟨rs, r⟩, hr, hx⟩ := okAnd_eq_true.1 (show (runOps pmmCall { pmm := bootPmm }
    [.addRange 1 60]).okAnd (fun x => x.2.added = [(1, 60)]) = true by decide +kernel)
  refine ⟨rs, r, hr, (pmm_allocate_complete (g := 0) (by decide) bootPmm_fresh (by decide +kernel) hr
    .dma24 (by decide)).2 ?_⟩
  rintro ⟨p, hp, hfree⟩
  have hlast := pmmGetZone_eq_dma24 (hfree (p + 15) (by omega)).2
  have hfirst := (hfree p (by omega)).1.1
  have hadded : r.added = [(1, 60)] := of_decide_eq_true hx
  unfold pageSize zoneDma24End at hlast
  simp only [PmmRun.Added, hadded, mem_singleton, exists_eq_left] at hfirst
  omega

end Stanix
