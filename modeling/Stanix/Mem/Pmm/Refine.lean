import Stanix.Mem.Pmm.Inv

/-!
# What the functions of the memory manager do

One lemma for each function: from a state with the invariant it returns, the state it leaves has the
invariant for free lists related to the old ones by `Buddy.Taken`, `Buddy.Merged` or `Buddy.Freed`,
and the reference counts, flags and counters change as stated. The merge loop is where the invariant
pays: a buddy that looks free and holds the right order is on the list of that order
(`Inv.buddy_linked`), although the order field of a page inside a larger free block may hold any
number.
-/

namespace Stanix

open Exec Buddy FreeLists InBlock

/-- The page is on the free list it is taken off. -/
def PmmUnlink.Linked (u : PmmUnlink) : Prop :=
  (u.pmm.entries u.zone u.order).On u.pmm.mem u.page

namespace Pmm

variable {s s' : Pmm} {z z' : Zone} {o o' p q n fuel : Nat} {i : Page}

/-- The reference count and the flags of a page. -/
def refs (s : Pmm) (q : Nat) : Option (BitVec 32 × BitVec 32) :=
  (s.info q).map fun i => (i.refCount, i.flags)

/-- The counters are the same in two states. -/
structure SameCounters (s s' : Pmm) : Prop where
  total : s'.totalPages = s.totalPages
  used : s'.usedPages = s.usedPages
  priv : s'.privatePages = s.privatePages
  shared : s'.sharedPages = s.sharedPages

theorem SameCounters.refl (s : Pmm) : SameCounters s s := ⟨rfl, rfl, rfl, rfl⟩

/-- `n` more pages are in use, privately. -/
structure Charged (s s' : Pmm) (n : BitVec 64) : Prop where
  total : s'.totalPages = s.totalPages
  used : s'.usedPages = s.usedPages + n
  priv : s'.privatePages = s.privatePages + n
  shared : s'.sharedPages = s.sharedPages

theorem setPage_refs (s : Pmm) (p q : Nat) (i : Page) :
    (s.setPage p i).refs q = if q = p then some (i.refCount, i.flags) else s.refs q := by
  unfold refs
  rw [setPage_info]
  split <;> rfl

theorem refs_setPage_order (hi : s.info p = some i) (o : Nat) :
    (s.setPage p { i with order := o }).refs = s.refs := by
  funext q
  rw [setPage_refs]
  split
  · subst ‹q = p›
    rw [refs, hi]
    rfl
  rfl

theorem refs_of_info (hi : s.info q = some i) : s.refs q = some (i.refCount, i.flags) := by
  rw [refs, hi]
  rfl

/-- No buddy that the merge loop looks at, starting with the block of order `o` at `p`, is a page of
`T`. The loop comes to the order `k` when the buddies of all orders before it pass the test. -/
def ClearOf (s : Pmm) (T : Nat → Prop) (o p : Nat) : Prop :=
  ∀ k, o ≤ k → k + 1 < ordersCount →
    (∀ j, o ≤ j → j ≤ k → pmmCanMerge (s.info (buddyAt j p)) j = true) → ¬ T (buddyAt k p)

/-- Every free buddy that the merge loop comes to, starting with the block of order `o` at `p`, is
on a list of the zone `z`. -/
def ZoneClosed (F : FreeLists Zone ordersCount) (z : Zone) (o p : Nat) : Prop :=
  ∀ k z', o ≤ k → k + 1 < ordersCount → (∀ q, InBlock k p q → F.Covers q ∨ InBlock o p q) →
    buddyAt k p ∈ F.heads z' k → z' = z

namespace Inv

variable {F F' : FreeLists Zone ordersCount} {H T : Nat → Prop}

/-- A page with information is not `PAGE_INVALID`. -/
theorem ne_invalid (h : s.Inv F H) (hi : s.info q = some i) : q ≠ pageInvalid :=
  fun hq => h.bound hi (hq ▸ rfl)

theorem pageInfo (h : s.Inv F H) (hi : s.info q = some i) : pmmPageInfo s q = .ok (some i) := by
  rw [pmmPageInfo, assert_of (h.ne_invalid hi), hi]
  rfl

/-! ## Allocation -/

/-- A block is taken off the lists of a zone, split down to the order asked for, or there is none.
-/
theorem rawHelperAllocatePages (h : s.Inv F H) (z : Zone) (h0 : fuel ≠ 0)
    (hf : ordersCount < o + fuel) :
    pmmRawHelperAllocatePages z fuel s o = .ok (pageInvalid, s) ∨
      ∃ p s' F', pmmRawHelperAllocatePages z fuel s o = .ok (p, s') ∧ Taken z F F' o p ∧
        s'.Inv F' (fun q => H q ∨ InBlock o p q) ∧ s'.refs = s.refs ∧ SameCounters s s' := by
  induction fuel generalizing o with
  | zero => exact absurd rfl h0
  | succ fuel ih => ?_
  rw [pmmRawHelperAllocatePages]
  by_cases ho : o ≥ ordersCount
  · exact .inl (if_pos ho)
  rw [if_neg ho]
  cases hlast : (s.entries z o).lastNode with
  | some p =>
    have hp : p ∈ F.heads z o := (h.rep z o).mem_of_lastNode hlast
    exact .inr ⟨p, _, _, rfl, .of_mem hp, h.remove hp, rfl, ⟨rfl, rfl, rfl, rfl⟩⟩
  | none => ?_
  rcases ih (o := o + 1) (by omega) (by omega) with h1 | ⟨p, s1, F1, h1, h2, h3, h4, h5⟩
  · refine .inl ?_
    simp only [h1]
    rfl
  -- the pages of the upper half of the block are in transit
  have hupper : ∀ {q}, InBlock o (p + 2 ^ o) q → InBlock (o + 1) p q := by
    intro q hq
    rw [← buddy_of_mod h2.aligned] at hq
    exact inBlock_succ_iff.2 (.inr hq)
  obtain ⟨i0, hi0, -⟩ := h3.free (.inr (.inr (refl _ p)))
  obtain ⟨i, hi, -⟩ := h3.free (.inr (.inr (hupper (refl _ _))))
  refine .inr ⟨p, _, _, ?_, h2.split,
    (h3.link (Nat.lt_of_not_le ho) h2.aligned_half (fun hq => .inr (hupper hq)) hi).congr
      fun q => ?_, ?_, ?_⟩
  · have hinfo := h3.pageInfo hi
    simp only [h1, ok_bind, if_neg (h3.ne_invalid hi0), order2Count, hinfo]
    rfl
  · rw [inBlock_succ_iff, buddy_of_mod h2.aligned]
    constructor
    · rintro (hH | hq)
      · refine ⟨.inl hH, fun hq => h.hole hH (h2.covers.2 (.inr (hupper hq)))⟩
      refine ⟨.inr (.inl hq), fun hq' => not_inBlock_buddy (o := o) (p := p) ?_⟩
      rw [buddy_of_mod h2.aligned]
      exact hq.trans hq'.symm
    grind
  · exact (refs_setPage_order hi o).trans h4
  exact { h5 with }

/-- A page in front of a run of pages, all of which have their references changed by `g`. -/
theorem refs_setPage_run {i' : Page} {g : BitVec 32 × BitVec 32 → BitVec 32 × BitVec 32}
    (hi : s.info p = some i) (hg : g (i.refCount, i.flags) = (i'.refCount, i'.flags)) (q : Nat) :
    (if p + 1 ≤ q ∧ q < p + 1 + n then ((s.setPage p i').refs q).map g else (s.setPage p i').refs q) =
      if p ≤ q ∧ q < p + (n + 1) then (s.refs q).map g else s.refs q := by
  rw [setPage_refs]
  by_cases hqp : q = p
  · subst hqp
    rw [if_neg (by omega), if_pos rfl, if_pos (by omega), refs_of_info hi, Option.map_some, hg]
  grind

/-- Every page of an allocated block gets one reference and loses its other flags. -/
theorem resetPages (h : s.Inv F fun q => p ≤ q ∧ q < p + n) :
    ∃ s', pmmResetPages n p s = .ok s' ∧ (s'.Inv F fun _ => False) ∧ SameCounters s s' ∧
      ∀ q, s'.refs q = if p ≤ q ∧ q < p + n then
        (s.refs q).map fun r => (1, r.2 &&& (pageFlagUsable ||| pageFlagReserved)) else s.refs q := by
  induction n generalizing p s with
  | zero =>
    refine ⟨s, rfl, h.congr fun q => ?_, .refl s, fun q => ?_⟩
    · constructor
      · exact False.elim
      omega
    rw [if_neg (by omega)]
  | succ n ih => ?_
  obtain ⟨i, hi, -⟩ := h.free (.inr ⟨le_rfl, by omega⟩)
  let i' : Page :=
    { i with flags := i.flags &&& (pageFlagUsable ||| pageFlagReserved), refCount := 1 }
  have h1 : (s.setPage p i').Inv F fun q => p + 1 ≤ q ∧ q < p + 1 + n := by
    refine (h.acquire ⟨le_rfl, by omega⟩ (show (1 : BitVec 32) ≠ 0 by decide)).congr fun q => ?_
    omega
  obtain ⟨s', h2, h3, h4, h5⟩ := ih h1
  refine ⟨s', ?_, h3, { h4 with }, fun q => ?_⟩
  · rw [pmmResetPages, h.pageInfo hi]
    exact h2
  rw [h5]
  exact refs_setPage_run hi rfl q

/-- Allocation fails only when the lists of the zone are empty from the order on. -/
theorem heads_eq_nil (h : s.Inv F H)
    (hrun : pmmRawHelperAllocatePages z fuel s o = .ok (pageInvalid, s')) (hf : ordersCount < o + fuel)
    (ho : o ≤ o') : F.heads z o' = [] := by
  induction fuel generalizing o s' with
  | zero => cases hrun
  | succ fuel ih => ?_
  rw [pmmRawHelperAllocatePages] at hrun
  split at hrun
  · next hge => exact List.eq_nil_iff_forall_not_mem.2 fun p hp => absurd (F.order_lt hp) (by omega)
  next hlt =>
  split at hrun
  · next p hlast =>
    obtain ⟨i, hi, -⟩ := h.free (.inl (covers_of_mem ((h.rep z o).mem_of_lastNode hlast)))
    exact absurd (congrArg Prod.fst (Except.ok.inj hrun)) (h.ne_invalid hi)
  next hlast =>
  rcases ho.eq_or_lt with rfl | hlt
  · rw [(h.rep z o).last_eq, List.getLast?_eq_none_iff] at hlast
    exact hlast
  have hf' : ordersCount < o + 1 + fuel := by omega
  rcases h.rawHelperAllocatePages z (by omega) hf' with h1 | ⟨p, s1, F1, h1, -, h3, -⟩
  · exact ih h1 hf' hlt
  obtain ⟨i, hi, -⟩ := h3.free (.inr (.inr (refl _ p)))
  simp only [h1, ok_bind, if_neg (h3.ne_invalid hi)] at hrun
  obtain ⟨info, -, hrun⟩ := bind_eq_ok.1 hrun
  cases info with
  | none => cases hrun
  | some => exact absurd (congrArg Prod.fst (Except.ok.inj hrun)) (h3.ne_invalid hi)

/-- **Allocation.** No block of the order or above is left, or one is handed out with one reference
on each of its pages. -/
theorem helperAllocatePages (h : s.Inv F fun _ => False) (z : Zone) (o : Nat) :
    pmmHelperAllocatePages s z o = .ok (pageInvalid, s) ∨
      ∃ p s' F', pmmHelperAllocatePages s z o = .ok (p, s') ∧ p ≠ pageInvalid ∧ Taken z F F' o p ∧
        (s'.Inv F' fun _ => False) ∧
        (∀ q, s'.refs q = if InBlock o p q then
          (s.refs q).map fun r => (1, r.2 &&& (pageFlagUsable ||| pageFlagReserved))
          else s.refs q) ∧
        Charged s s' (BitVec.ofNat 64 (2 ^ o)) := by
  rw [pmmHelperAllocatePages]
  rcases h.rawHelperAllocatePages z (by omega : ordersCount + 1 ≠ 0) (by omega : ordersCount < o + _)
    with h1 | ⟨p, s1, F1, h1, h2, h3, h4, h5⟩
  · refine .inl ?_
    simp only [h1]
    rfl
  obtain ⟨i, hi, -⟩ := h3.free (.inr (.inr (refl _ p)))
  have hp := h3.ne_invalid hi
  let s2 : Pmm := { s1 with
    usedPages := s1.usedPages + BitVec.ofNat 64 (order2Count o)
    privatePages := s1.privatePages + BitVec.ofNat 64 (order2Count o) }
  have h6 : s2.Inv F1 fun q => p ≤ q ∧ q < p + 2 ^ o := by
    refine { h3.congr fun q => ?_ with }
    rw [inBlock_iff h2.aligned]
    tauto
  obtain ⟨s', h7, h8, h9, h10⟩ := h6.resetPages
  refine .inr ⟨p, s', F1, ?_, hp, h2, h8, fun q => ?_, h9.total.trans h5.total, ?_, ?_,
    h9.shared.trans h5.shared⟩
  · simp only [h1, ok_bind, if_neg hp]
    rw [show pmmResetPages (order2Count o) p _ = .ok s' from h7]
    rfl
  · rw [h10, show s2.refs = s.refs from h4]
    simp only [inBlock_iff h2.aligned]
  · rw [h9.used, ← h5.used]
    rfl
  rw [h9.priv, ← h5.priv]
  rfl

/-! ## Freeing -/

/-- The pages of a block that is not free are marked. -/
theorem markPages (h : s.Inv F H)
    (hq : ∀ q, p ≤ q → q < p + n → ¬ F.Covers q ∧ ∃ i, s.info q = some i) :
    ∃ s', pmmMarkPages n p s = .ok s' ∧ (s'.Inv F fun q => H q ∨ (p ≤ q ∧ q < p + n)) ∧
      SameCounters s s' ∧
      ∀ q, s'.refs q = if p ≤ q ∧ q < p + n then (s.refs q).map fun r => (0, r.2) else s.refs q := by
  induction n generalizing p s H with
  | zero =>
    refine ⟨s, rfl, h.congr fun q => ?_, .refl s, fun q => ?_⟩
    · exact or_iff_left (by omega)
    rw [if_neg (by omega)]
  | succ n ih => ?_
  obtain ⟨hcov, i, hi⟩ := hq p le_rfl (by omega)
  have h1 := h.mark hcov hi
  have hq' : ∀ q, p + 1 ≤ q → q < p + 1 + n → ¬ F.Covers q ∧
      ∃ j, (s.setPage p { i with refCount := 0 }).info q = some j := by
    intro q hle hlt
    rw [setPage_info, if_neg (by omega)]
    exact hq q (by omega) (by omega)
  obtain ⟨s', h2, h3, h4, h5⟩ := ih h1 hq'
  refine ⟨s', ?_, h3.congr fun q => ?_, { h4 with }, fun q => ?_⟩
  · rw [pmmMarkPages, pmmMarkPage, h.pageInfo hi]
    exact h2
  · grind
  rw [h5]
  exact refs_setPage_run hi rfl q

section

variable (h : s.Inv F fun q => T q ∨ InBlock o p q)
include h

/-- **A free buddy is linked.** A page that the merge loop takes for the free buddy of a block in
transit is the first page of a free block of that order, unless it is in transit itself. -/
theorem buddy_linked (hp : p % 2 ^ o = 0) (hcan : pmmCanMerge (s.info (buddy o p)) o = true)
    (hT : ¬ T (buddy o p)) : ∃ z', buddy o p ∈ F.heads z' o := by
  cases hi : s.info (buddy o p) with
  | none =>
    rw [hi] at hcan
    cases hcan
  | some i => ?_
  rw [hi] at hcan
  obtain ⟨hfree, horder⟩ := of_decide_eq_true hcan
  rcases h.linked hi hfree with ⟨z', o', p', hp', hq⟩ | hTb | hq
  · -- a larger block around the buddy would contain the block in transit
    have hle : o' ≤ o := by
      by_contra hlt
      refine h.hole (.inr (refl o p)) ⟨z', o', p', hp', hq.trans ?_⟩
      exact inBlock_buddy.symm.mono (by omega)
    -- a smaller one starts there, and the first page of a free block holds its order
    obtain rfl : buddy o p = p' := hq.eq (F.aligned hp') (mod_of_le (buddy_mod hp) hle)
    obtain rfl : o = o' := horder.symm.trans (h.head hp' hi)
    exact ⟨z', hp'⟩
  · exact absurd hTb hT
  exact absurd hq not_inBlock_buddy

/-- The merge loop looks at a page that is not `PAGE_INVALID`. -/
theorem pageInfo_buddy (ho : o + 1 < ordersCount) :
    pmmPageInfo s (buddy o p) = .ok (s.info (buddy o p)) := by
  obtain ⟨i, hi, -⟩ := h.free (.inr (.inr (refl o p)))
  have hne : buddy o p ≠ pageInvalid := by
    intro hb
    refine h.bound hi (hb ▸ ?_)
    exact inBlock_buddy.symm.mono (Nat.le_sub_one_of_lt ho)
  rw [pmmPageInfo, assert_of hne]
  rfl

/-- **The merge loop.** A block in transit merges with free buddies only, each taken off the list it
is on. -/
theorem merge (hp : p % 2 ^ o = 0) (ho : o < ordersCount) (hf : ordersCount ≤ o + fuel)
    (hT : s.ClearOf T o p) (hz : ZoneClosed F z o p) :
    ∃ us p' o' s' F', pmmMerge z fuel s p o = .ok (us, p', o', s') ∧ Merged z F o p F' o' p' ∧
      (s'.Inv F' fun q => T q ∨ InBlock o' p' q) ∧ s'.info = s.info ∧ SameCounters s s' ∧
      (∀ u ∈ us, u.Linked) ∧
      (o' + 1 < ordersCount → ∀ z', buddy o' p' ∈ F'.heads z' o' →
        ∃ i, s.info (buddy o' p') = some i ∧ i.flags &&& pageFlagReserved ≠ 0) := by
  induction fuel generalizing s F o p with
  | zero => omega
  | succ fuel ih => ?_
  have hapart : ∀ {q}, InBlock o p q → ¬ F.Covers q := fun hq => h.hole (.inr hq)
  rw [pmmMerge]
  by_cases ho' : o + 1 < ordersCount
  swap
  · refine ⟨[], p, o, s, F, if_neg ho', .refl z ho hp hapart, h, rfl, .refl s, by simp, ?_⟩
    exact fun h' => absurd h' ho'
  have hbuddy : p ^^^ order2Count o = buddy o p := rfl
  simp only [if_pos ho', hbuddy, h.pageInfo_buddy ho', ok_bind]
  cases hcan : pmmCanMerge (s.info (buddy o p)) o with
  | false =>
    refine ⟨[], p, o, s, F, rfl, .refl z ho hp hapart, h, rfl, .refl s,
      by simp, fun _ z' hb => ?_⟩
    obtain ⟨i, hi, hr⟩ := h.free (.inl (covers_of_mem hb))
    refine ⟨i, hi, fun hres => ?_⟩
    have : pmmCanMerge (s.info (buddy o p)) o = true := by
      rw [hi]
      exact decide_eq_true ⟨decide_eq_true ⟨hr, hres⟩, h.head hb hi⟩
    rw [hcan] at this
    cases this
  | true => ?_
  have hat := buddyAt_of_mod hp
  -- the buddy is on the list of its order, in this zone
  have hb : buddy o p ∈ F.heads z o := by
    have hTb : ¬ T (buddy o p) := by
      refine hat ▸ hT o le_rfl ho' fun j hj hj' => ?_
      obtain rfl : j = o := by omega
      rw [hat]
      exact hcan
    obtain ⟨z', hz'⟩ := h.buddy_linked hp hcan hTb
    obtain rfl : z' = z := hz o z' le_rfl ho' (fun q hq => .inr hq) (hat ▸ hz')
    exact hz'
  have h1 : (s.remove z o (buddy o p)).Inv (F.erase z o (buddy o p)) fun q =>
      T q ∨ InBlock (o + 1) (min p (buddy o p)) q := by
    refine (h.remove hb).congr fun q => ?_
    rw [inBlock_min_buddy, inBlock_succ_iff]
    tauto
  have hblock : ∀ k, o + 1 ≤ k → InBlock k p (min p (buddy o p)) :=
    fun k hk => (inBlock_min_buddy.1 (refl (o + 1) _)).mono hk
  obtain ⟨us, p', o', s', F', h2, h3, h4, h5, h6, h7, h8⟩ := ih h1 (min_buddy_mod hp) ho'
    (by omega)
    (by
      intro k hk hk' hcan'
      rw [(hblock k hk).buddyAt_eq]
      refine hT k (by omega) hk' fun j hj hj' => ?_
      by_cases hjo : j = o
      · rw [hjo, hat]
        exact hcan
      rw [← (hblock j (by omega)).buddyAt_eq]
      exact hcan' j (by omega) hj')
    (by
      intro k z' hk hk' hfull hmem
      rw [(hblock k hk).buddyAt_eq] at hmem
      refine hz k z' (by omega) hk' (fun q hq => ?_) (mem_erase.1 hmem).1
      rcases hfull q ((hblock k hk).symm.trans hq) with hcov | hq'
      · exact .inl ((covers_erase hb).1 hcov).1
      rcases inBlock_succ_iff.1 (inBlock_min_buddy.1 hq') with hq' | hq'
      · exact .inr hq'
      exact .inl ⟨z, o, _, hb, hq'⟩)
  refine ⟨⟨s, z, o, buddy o p⟩ :: us, p', o', s', F', ?_, h3.step hb, h4, h5, { h6 with }, ?_, h8⟩
  · rw [show (if buddy o p < p then buddy o p else p) = min p (buddy o p) by
      rw [min_def]; split <;> split <;> omega, h2]
    rfl
  intro u hu
  rcases List.mem_cons.1 hu with rfl | hu
  · exact (h.rep z o).on_iff.2 hb
  exact h7 u hu

/-- **Freeing, the locked section.** A block in transit is merged and linked. -/
theorem zoneSetFreePages (hapart : ∀ {q}, T q → ¬ InBlock o p q) (hp : p % 2 ^ o = 0)
    (ho : o < ordersCount) (hT : s.ClearOf T o p) (hz : ZoneClosed F z o p) :
    ∃ us s' F', pmmZoneSetFreePages s z p o = .ok (us, s') ∧ s'.Inv F' T ∧ Freed z F F' o p ∧
      (∀ u ∈ us, u.Linked) ∧ s'.refs = s.refs ∧ Charged s s' (-BitVec.ofNat 64 (2 ^ o)) ∧
      (F.Coalesced → (∀ q r, F.Covers q ∨ InBlock o p q → s.refs q = some r →
        r.2 &&& pageFlagReserved = 0) → F'.Coalesced) := by
  let s1 : Pmm := { s with
    usedPages := s.usedPages - BitVec.ofNat 64 (order2Count o)
    privatePages := s.privatePages - BitVec.ofNat 64 (order2Count o) }
  have h1 : s1.Inv F fun q => T q ∨ InBlock o p q := { h with }
  obtain ⟨us, p', o', s2, F2, h2, h3, h4, h5, h6, h7, h8⟩ :=
    h1.merge hp ho (Nat.le_add_left ordersCount o) hT hz
  obtain ⟨i, hi, -⟩ := h4.free (.inr (.inr (refl o' p')))
  have h9 := h4.link (z := z) h3.order_lt h3.aligned .inr hi
  have hT' : ∀ q, T q → ¬ InBlock o' p' q := by
    intro q hTq hq
    rcases h3.covers.1 (.inr hq) with hcov | hb
    · exact h.hole (.inl hTq) hcov
    exact hapart hTq hb
  refine ⟨us, (s2.append z o' p').setPage p' { i with order := o' }, _, ?_, h9.congr fun q => ?_,
    h3.push, h7, ?_, ⟨h6.total, h6.used.trans (BitVec.sub_eq_add_neg ..),
      h6.priv.trans (BitVec.sub_eq_add_neg ..), h6.shared⟩, fun hF hres => ?_⟩
  · rw [pmmZoneSetFreePages]
    have hinfo : pmmPageInfo (s2.append z o' p') p' = .ok (some i) := h4.pageInfo hi
    rw [show pmmMerge z ordersCount _ p o = .ok (us, p', o', s2) from h2]
    simp only [ok_bind, hinfo]
    rfl
  · grind
  · have hrefs : s2.refs = s.refs := by
      unfold refs
      rw [h5]
    exact (refs_setPage_order hi o').trans hrefs
  refine (h3.coalesced hF).push fun ho' z' hb => ?_
  obtain ⟨j, hj, hflag⟩ := h8 ho' z' hb
  exact hflag (hres _ _ (h3.covers.1 (.inl (covers_of_mem hb))) (refs_of_info hj))

end

/-- **Freeing.** A block that is not free is marked, merged and linked. Some of its pages may be
marked already. -/
theorem setFreePages (h : s.Inv F H) (hH : ∀ q, H q → InBlock o p q) (hp : p % 2 ^ o = 0)
    (ho : o < ordersCount) (hblock : ∀ q, InBlock o p q → ¬ F.Covers q ∧ ∃ i, s.info q = some i)
    (hz : ZoneClosed F (pmmGetZone p) o p) :
    ∃ us s' F', pmmSetFreePages s p o = .ok (us, s') ∧ (s'.Inv F' fun _ => False) ∧
      Freed (pmmGetZone p) F F' o p ∧ (∀ u ∈ us, u.Linked) ∧
      (∀ q, s'.refs q = if InBlock o p q then (s.refs q).map fun r => (0, r.2) else s.refs q) ∧
      Charged s s' (-BitVec.ofNat 64 (2 ^ o)) ∧
      (F.Coalesced → (∀ q r, F.Covers q ∨ InBlock o p q → s.refs q = some r →
        r.2 &&& pageFlagReserved = 0) → F'.Coalesced) := by
  obtain ⟨i, hi⟩ := (hblock p (refl o p)).2
  obtain ⟨s1, h1, h2, h3, h4⟩ := h.markPages fun q hle hlt =>
    hblock q ((inBlock_iff hp).2 ⟨hle, hlt⟩)
  have h5 : s1.Inv F fun q => False ∨ InBlock o p q := by
    refine h2.congr fun q => ?_
    rw [← inBlock_iff hp, or_iff_right id]
    exact ⟨.inr, fun hq => hq.elim (hH q) id⟩
  obtain ⟨us, s', F', h6, h7, h8, h9, h10, h11, h12⟩ :=
    h5.zoneSetFreePages False.elim hp ho (fun _ _ _ _ => id) hz
  have h4' : ∀ q, s1.refs q =
      if InBlock o p q then (s.refs q).map fun r => (0, r.2) else s.refs q := by
    intro q
    simp only [h4, inBlock_iff hp]
  refine ⟨us, s', F', ?_, h7, h8, h9, fun q => by rw [h10, h4'], ?_, fun hF hres => ?_⟩
  · rw [pmmSetFreePages, assert_of (h.ne_invalid hi), ok_bind,
      assert_of (show p % order2Count o = 0 from hp), ok_bind,
      show pmmMarkPages (order2Count o) p s = .ok s1 from h1, ok_bind, h6]
  · exact ⟨h11.total.trans h3.total, by rw [h11.used, h3.used], by rw [h11.priv, h3.priv],
      h11.shared.trans h3.shared⟩
  refine h12 hF fun q r hq hr => ?_
  rw [h4'] at hr
  split at hr
  · obtain ⟨r0, hr0, rfl⟩ := Option.map_eq_some_iff.1 hr
    exact hres q r0 hq hr0
  exact hres q r hq hr

/-! ## Ranges -/

/-- The block at the start of a range: a nonempty range starts with an aligned block inside it, and
the largest one is found. -/
theorem rangeOrder_spec (p n k : Nat) (hn : 0 < n) :
    ∃ o, pmmRangeOrder p n k = some o ∧ o ≤ k ∧ 2 ^ o ≤ n ∧ p % 2 ^ o = 0 ∧
      ∀ o' ≤ k, 2 ^ o' ≤ n → p % 2 ^ o' = 0 → o' ≤ o := by
  induction k with
  | zero =>
    refine ⟨0, if_neg ?_, le_rfl, hn, Nat.mod_one p, fun _ h _ _ => h⟩
    rw [order2Count, pow_zero]
    omega
  | succ k ih => ?_
  rw [pmmRangeOrder]
  by_cases h : n < order2Count (k + 1) ∨ p % order2Count (k + 1) ≠ 0
  · obtain ⟨o, h1, h2, h3, h4, hmax⟩ := ih
    refine ⟨o, by rw [if_pos h, h1], by omega, h3, h4, fun o' ho hn' hp => ?_⟩
    rcases ho.eq_or_lt with rfl | ho
    · exact absurd h (by rw [not_or, not_lt, not_not]; exact ⟨hn', hp⟩)
    exact hmax o' (by omega) hn' hp
  rw [not_or, not_lt, not_not] at h
  exact ⟨k + 1, if_neg (by rw [not_or, not_lt, not_not]; exact h), le_rfl, h.1, h.2,
    fun _ ho _ _ => ho⟩

end Inv

end Pmm

end Stanix
