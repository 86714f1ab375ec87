import Stanix.Klib.Xarray.Write
import Mathlib.Data.Nat.Find

/-!
# `xarray_set`

The loops of `xarray_raw_set`, each with what it does to the map and to the masks. Assignment
updates the map whatever the masks are. It keeps the masks right unless it adds two nodes or more
below a NULL entry: then a bit is set over a node that holds one value only.
-/

namespace Stanix

open Exec Function BitVec

/-- What the slab of nodes promises: a new object is not in use, and is aligned. -/
structure SlabFresh (fresh : Finset Nat → Nat) : Prop where
  notMem : ∀ S, fresh S ∉ S
  even : ∀ S, fresh S % 2 = 0

variable {fresh : Finset Nat → Nat} {L : XarrayLayout} {f : Nat → Nat}
  {k K a index v fuel : Nat} {x : Xarray} {slot : XarraySlot}

/-- The nodes over an index from the level `k` on, the lowest one first. -/
def OnPath (L : XarrayLayout) (index : Nat) : Nat → List Nat → Prop
  | _, [] => True
  | k, a :: parents => L k (index / 64 ^ (k + 1)) = some a ∧ OnPath L index (k + 1) parents

/-- The mask bits over an index are clear from the level `k` on. -/
def Xarray.ClearFrom (x : Xarray) (L : XarrayLayout) (index k : Nat) : Prop :=
  ∀ k' a, k ≤ k' → L k' (index / 64 ^ (k' + 1)) = some a →
    (x.node a).fullMask.getLsbD (index / 64 ^ k' % 64) = false

/-- The path stands at the slot of the block of an index at level `k`. -/
structure XarrayPath.At (path : XarrayPath) (x : Xarray) (L : XarrayLayout) (K index k : Nat) :
    Prop where
  slot : path.slot.At L K k (index / 64 ^ k)
  entry : path.entry = x.fetch path.slot
  shift : path.entry = 0 ∨ k = 0 → path.shift = 6 * k

namespace Xarray.Rep

theorem at_root (h : x.Rep f L K) (hi : index < 64 ^ K) :
    XarrayPath.At ⟨.root, x.root, 0, []⟩ x L K index K := by
  refine ⟨⟨rfl, Nat.div_eq_of_lt hi⟩, rfl, fun hor => ?_⟩
  rcases hor with h0 | rfl
  · have hK : K = 0 := Nat.eq_zero_of_not_pos fun hK => h.root_ne hK h0
    rw [hK]
  rfl

theorem at_next (h : x.Rep f L K) (ha : L k (index / 64 ^ (k + 1)) = some a) (parents : List Nat) :
    XarrayPath.At ⟨.entry a (xarrayNodeGetLocalIndex (x.node a) index),
      (x.node a).entries (xarrayNodeGetLocalIndex (x.node a) index), (x.node a).shift, parents⟩
      x L K index k := by
  rw [h.localIndex ha]
  exact ⟨at_child ha rfl, rfl, fun _ => h.shift ha⟩

variable {path : XarrayPath}

section

variable (h : x.Rep f L K)
include h

theorem descend_cases (hp : path.At x L K index k) :
    (xarrayDescend index v (fuel + 1) x path = .ok (path, x) ∧ (path.entry = 0 ∨ k = 0)) ∨
      ∃ k' a, k = k' + 1 ∧ L k' (index / 64 ^ k) = some a ∧ path.entry = xarrayEntryFromNode a := by
  by_cases h0 : path.entry = 0
  · exact .inl ⟨by rw [xarrayDescend, if_pos h0], .inl h0⟩
  have he := h.fetch hp.slot
  rw [← hp.entry] at he
  cases k with
  | zero =>
    have hval := xarrayEntryIsValue_of_even (e := path.entry) (by rw [he]; exact h.value _)
    exact .inl ⟨by rw [xarrayDescend, if_neg h0, if_pos hval], .inr rfl⟩
  | succ k =>
    obtain ⟨a, ha, hea⟩ := he.exists_node h0
    exact .inr ⟨k, a, rfl, ha, hea⟩

theorem entry_of_at (hp : path.At x L K index 0) : path.entry = f index := by
  have he := h.fetch hp.slot
  rw [← hp.entry, pow_zero, Nat.div_one] at he
  exact he

theorem descend_node {p : Nat} (ha : L k p = some a) (hea : path.entry = xarrayEntryFromNode a) :
    xarrayDescend index v (fuel + 1) x path =
      let i := xarrayNodeGetLocalIndex (x.node a) index
      let next : List Nat → XarrayPath := fun parents =>
        ⟨.entry a i, (x.node a).entries i, (x.node a).shift, parents⟩
      if v ≠ 0 then
        if path.parents.length < 12 then xarrayDescend index v fuel x (next (a :: path.parents))
        else .error .bounds
      else
        xarrayDescend index v fuel
          (x.setMask a ((x.node a).fullMask &&& ~~~BitVec.twoPow 64 i)) (next path.parents) := by
  rw [xarrayDescend, if_neg (by rw [hea]; exact xarrayEntryFromNode_ne_zero a), hea,
    if_neg (by rw [xarrayEntryIsValue_fromNode (h.even ha)]; simp)]
  simp only [xarrayEntryGetNode_fromNode (h.even ha), h.deref ha, ok_bind]

theorem descend_value (hv : v ≠ 0) (hp : path.At x L K index k)
    (hpar : OnPath L index k path.parents) (hlen : path.parents.length + k ≤ K) (hf : k < fuel) :
    ∃ path' k', xarrayDescend index v fuel x path = .ok (path', x) ∧ path'.At x L K index k' ∧
      OnPath L index k' path'.parents ∧ (path'.entry = 0 ∨ k' = 0) := by
  induction fuel generalizing k path with
  | zero => exact absurd hf (Nat.not_lt_zero k)
  | succ fuel ih => ?_
  obtain ⟨hstop, hend⟩ | ⟨k, a, rfl, ha, hea⟩ := h.descend_cases hp
  · exact ⟨path, k, hstop, hp, hpar, hend⟩
  have hroom : path.parents.length < 12 := by
    have := h.levels
    omega
  simp only [h.descend_node ha hea, if_pos hv, if_pos hroom]
  exact ih (h.at_next ha _) ⟨ha, hpar⟩ (by simp only [List.length_cons]; omega) (by omega)

/-- The way down of a NULL: to a NULL entry or to the value of the index, with the mask bits over it
cleared. -/
theorem descend_null (hp : path.At x L K index k) (hclear : x.ClearFrom L index k) (hf : k < fuel) :
    ∃ path' k' x', xarrayDescend index 0 fuel x path = .ok (path', x') ∧ x'.Rep f L K ∧
      path'.At x' L K index k' ∧ (path'.entry = 0 ∨ k' = 0) ∧ x'.ClearFrom L index k' ∧
      (x.MaskOk f L → x'.MaskOk f L) := by
  induction fuel generalizing k path x with
  | zero => exact absurd hf (Nat.not_lt_zero k)
  | succ fuel ih => ?_
  obtain ⟨hstop, hend⟩ | ⟨k, a, rfl, ha, hea⟩ := h.descend_cases hp
  · exact ⟨path, k, x, hstop, h, hp, hend, hclear, id⟩
  simp only [h.descend_node ha hea, ne_eq]
  let m := (x.node a).fullMask &&& ~~~twoPow 64 (index / 64 ^ k % 64)
  have hbit (i : Nat) (hb : m.getLsbD i = true) : (x.node a).fullMask.getLsbD i = true := by
    grind
  have hclear' : (x.setMask a m).ClearFrom L index k := by
    intro k' b hk' hb
    rw [setMask_node]
    split
    case isTrue hba =>
      subst hba
      obtain ⟨rfl, -⟩ := h.disjoint hb ha
      simp [m, Nat.mod_lt]
    case isFalse hba =>
      refine hclear k' b (Nat.lt_of_le_of_ne hk' ?_) hb
      rintro rfl
      rw [ha, Option.some.injEq] at hb
      exact hba hb.symm
  have hmask : x.MaskOk f L → (x.setMask a m).MaskOk f L := by
    intro hm
    exact hm.setMask h.toNodes ha fun i hi hbit' => hm.full ha hi (hbit i hbit')
  have hnext := (h.setMask a m).at_next ha path.parents
  rw [setMask_shift, setMask_entries, (h.setMask a m).localIndex ha] at hnext
  obtain ⟨path', k', x', h1, h2, h3, h4, h5, h6⟩ := ih (h.setMask a m) hnext hclear' (by omega)
  rw [h.localIndex ha]
  exact ⟨path', k', x', h1, h2, h3, h4, h5, fun hm => h6 (hmask hm)⟩

/-- The way back up sets mask bits, of blocks without a NULL if the lowest one is. -/
theorem backtrack {parents : List Nat} (hpar : OnPath L index k parents) :
    ∃ x', xarrayBacktrack index parents x = .ok x' ∧ x'.Rep f L K ∧
      (x.MaskOk f L → (∀ j, j / 64 ^ k = index / 64 ^ k → f j ≠ 0) → x'.MaskOk f L) := by
  induction parents generalizing k x with
  | nil => exact ⟨x, rfl, h, fun hm _ => hm⟩
  | cons a parents ih => ?_
  obtain ⟨ha, hpar⟩ := hpar
  let m := (x.node a).fullMask ||| twoPow 64 (index / 64 ^ k % 64)
  have hset : x.MaskOk f L → (∀ j, j / 64 ^ k = index / 64 ^ k → f j ≠ 0) →
      (x.setMask a m).MaskOk f L := by
    intro hm hfull
    refine hm.setBit h.toNodes ha ?_
    rw [← Radix.div_of_div_succ rfl]
    exact hfull
  rw [xarrayBacktrack, h.deref ha, ok_bind, h.localIndex ha]
  by_cases hones : m = allOnes 64
  · obtain ⟨x', h1, h2, h3⟩ := ih (h.setMask a m) hpar
    refine ⟨x', ?_, h2, fun hm hfull => h3 (hset hm hfull) fun j hj => ?_⟩
    · rw [if_neg (not_not.2 hones)]
      exact h1
    refine (hset hm hfull).ne_zero_of_allOnes ha ?_ hj
    rw [setMask_node, if_pos rfl]
    exact hones
  refine ⟨x.setMask a m, ?_, h.setMask a m, hset⟩
  rw [if_pos hones]
  rfl

end

/-- New nodes below a NULL entry, and the value under them. One new node at most keeps the masks
right. -/
theorem fill (hfresh : SlabFresh fresh) (h : x.Rep f L K) (hs : slot.At L K k (index / 64 ^ k))
    (h0 : x.fetch slot = 0) (hv : v % 2 = 0) (hf : k < fuel) :
    ∃ x' L', xarrayFill fresh index v fuel x slot (6 * k) = .ok x' ∧
      x'.Rep (update f index v) L' K ∧
      (v ≠ 0 → k ≤ 1 → x.MaskOk (update f index v) L →
        x'.MaskOk (update f index v) L') := by
  induction k generalizing x L slot fuel with
  | zero =>
    obtain ⟨fuel, rfl⟩ := Nat.exists_eq_add_one.2 hf.pos
    rw [pow_zero, Nat.div_one] at hs
    exact ⟨x.store slot v, L, rfl, h.store_value hs hv, fun _ _ hm => hm.store slot v⟩
  | succ k ih => ?_
  obtain ⟨fuel, rfl⟩ := Nat.exists_eq_add_one.2 hf.pos
  let a := fresh x.live
  let i := index / 64 ^ k % 64
  let nd : XarrayNode := ⟨6 * k, 0 ||| twoPow 64 i, fun _ => 0⟩
  have hrep := h.link hs h0 (hfresh.notMem _) (hfresh.even _) (rfl : nd.shift = 6 * k) rfl
  have hstep : xarrayFill fresh index v (fuel + 1) x slot (6 * (k + 1)) =
      xarrayFill fresh index v fuel ((x.alloc a nd).store slot (xarrayEntryFromNode a))
        (.entry a i) (6 * k) := by
    rw [xarrayFill]
    have hi := xarrayNodeGetLocalIndex_eq
      (rfl : (⟨6 * k, 0, fun _ => 0⟩ : XarrayNode).shift = 6 * k) index
    simp only [slabAlloc, update_self, XarrayNode.zero, setNode, update_idem,
      show 6 * (k + 1) - 6 = 6 * k by omega, hi]
    rfl
  have hnull := h.fetch_link hs h0 (hfresh.notMem x.live) nd i
  have hat : (XarraySlot.entry a i).At (L.add k (index / 64 ^ (k + 1)) a) K k (index / 64 ^ k) :=
    at_child (XarrayLayout.add_same ..) rfl
  obtain ⟨x', L', h1, h2, h3⟩ := ih hrep hat hnull (Nat.lt_of_succ_lt_succ hf)
  refine ⟨x', L', by rw [hstep, h1], h2, fun hv0 hk hm => h3 hv0 (by omega) ?_⟩
  refine (hm.add h.toNodes (hfresh.notMem _) ?_).store _ _
  intro i' hi' hbit j hj
  have hji : j = index := by grind
  rw [hji, update_self]
  exact hv0

theorem maskOk_clear (hm : x.MaskOk f L) (hclear : x.ClearFrom L index 0) :
    x.MaskOk (update f index 0) L := by
  refine ⟨fun {k p a i} ha hi hbit j hj => ?_⟩
  by_cases hji : j = index
  · subst hji
    obtain rfl : j / 64 ^ (k + 1) = p := Radix.div_succ_of_div hi hj
    have hdigit : j / 64 ^ k % 64 = i := by omega
    rw [← hdigit, hclear k a (Nat.zero_le k) ha] at hbit
    cases hbit
  rw [update_of_ne hji]
  exact hm.full ha hi hbit j hj

/-- **Assignment below the bound.** The masks stay right if there is a node over the 4096 indices
around the index, or the value is NULL. -/
theorem setInBound (hfresh : SlabFresh fresh) (h : x.Rep f L K) (hi : index < 64 ^ K)
    (hv : v % 2 = 0) (hf : 10 < fuel) :
    ∃ x' L', xarraySetInBound fresh fuel x index v = .ok (f index, x') ∧
      x'.Rep (update f index v) L' K ∧
      (x.MaskOk f L → (v ≠ 0 → f index = 0 → 1 < K → ∃ a, L 1 (index / 64 ^ 2) = some a) →
        x'.MaskOk (update f index v) L') := by
  have hK := h.levels
  by_cases hv0 : v = 0
  · subst hv0
    have hclear : x.ClearFrom L index K := by
      intro k' a hk' ha
      exact absurd (h.level_lt ha) (not_lt.2 hk')
    obtain ⟨path, k, x', h1, h2, h3, h4, h5, h6⟩ :=
      h.descend_null (h.at_root hi) hclear (by omega : K < fuel)
    simp only [xarraySetInBound, h1, ok_bind]
    by_cases h0 : path.entry = 0
    · -- nothing is stored there
      have hnull : f index = 0 := by
        have he := h2.fetch h3.slot
        rw [← h3.entry, h0] at he
        exact he.of_zero.2 index rfl
      rw [if_neg (not_not.2 h0), hnull, update_eq_self_iff.2 hnull.symm]
      exact ⟨x', L, rfl, h2, fun hm _ => h6 hm⟩
    obtain rfl : k = 0 := h4.resolve_left h0
    have hs := h3.slot
    rw [pow_zero, Nat.div_one] at hs
    rw [if_pos h0, if_pos trivial, h2.entry_of_at h3]
    refine ⟨x'.store path.slot 0, L, rfl, h2.store_value hs rfl, fun hm _ => ?_⟩
    exact (maskOk_clear (h6 hm) h5).store _ _
  obtain ⟨path, k, h1, h2, h3, h4⟩ :=
    h.descend_value hv0 (h.at_root hi) trivial (by simp) (by omega : K < fuel)
  simp only [xarraySetInBound, h1, ok_bind]
  by_cases h0 : path.entry = 0
  · have he := h.fetch h2.slot
    rw [← h2.entry, h0] at he
    have hnull : f index = 0 := he.of_zero.2 index rfl
    have hlevel : k ≤ K := by
      have hs := h2.slot
      cases hslot : path.slot with
      | root => rw [hslot] at hs; exact hs.1.le
      | entry a i =>
        rw [hslot] at hs
        obtain ⟨-, p, ha, -⟩ := hs
        exact (h.level_lt ha).le
    obtain ⟨x', L', h5, h6, h7⟩ := h.fill hfresh h2.slot (by rw [← h2.entry, h0]) hv
      (by omega : k < fuel)
    rw [if_neg (not_not.2 h0), if_neg hv0, h2.shift (.inl h0), Nat.mul_mod_right,
      assert_of rfl, ok_bind, h5, hnull]
    refine ⟨x', L', rfl, h6, fun hm hnode => h7 hv0 ?_ (hm.update hv0 index)⟩
    -- a NULL entry over 4096 indices or more contradicts the node there
    by_contra hk
    obtain ⟨k, rfl⟩ : ∃ d, k = 1 + d + 1 := ⟨k - 2, by omega⟩
    obtain ⟨a, ha⟩ := hnode hv0 rfl (by omega)
    refine h.ne_of_above ha (d := k) (by omega) (he.of_zero.1 (1 + k) rfl) ?_
    rw [← Radix.div_pow_add]
    congr 2
    omega
  obtain rfl : k = 0 := h4.resolve_left h0
  have hs := h2.slot
  rw [pow_zero, Nat.div_one] at hs
  obtain ⟨x', h5, h6, h7⟩ := (h.store_value hs hv).backtrack h3
  rw [if_pos h0, if_neg hv0, h.entry_of_at h2, h5]
  refine ⟨x', L, rfl, h6, fun hm _ => h7 ((hm.update hv0 index).store _ _) fun j hj => ?_⟩
  rw [pow_zero, Nat.div_one, Nat.div_one] at hj
  rw [hj, update_self]
  exact hv0

/-! ## Growth -/

theorem targetShift {T : Nat} (hi : index < 64 ^ T) (hmin : ∀ t < T, 64 ^ t ≤ index) (hT : T ≤ 10)
    (hk : k ≤ T) (hf : T < fuel + k) : xarrayTargetShift index fuel (6 * k) = .ok (6 * T) := by
  induction fuel generalizing k with
  | zero => omega
  | succ fuel ih => ?_
  have hsize : 2 ^ (6 * k) % 2 ^ 64 = 64 ^ k := by
    rw [Nat.mod_eq_of_lt (Nat.pow_lt_pow_right (by decide) (by omega)), two_pow_six_mul]
  rw [xarrayTargetShift, hsize]
  by_cases hkT : k = T
  · rw [if_neg (by rw [hkT]; omega), hkT]
  rw [if_pos (hmin k (by omega)), show 6 * k + 6 = 6 * (k + 1) from rfl]
  exact ih (by omega) (by omega)

/-- What `xarray_raw_set` finds out about the root before it grows the array. -/
theorem rootShift (h : x.Rep f L K) :
    ∃ full, xarrayRootShift x = .ok (6 * K, full) ∧
      (full = true → x.MaskOk f L → ∀ j < 64 ^ K, f j ≠ 0) := by
  unfold xarrayRootShift
  cases K with
  | zero =>
    have hr : x.root = f 0 := h.root
    by_cases h0 : x.root = 0
    · exact ⟨false, by rw [if_pos h0], nofun⟩
    refine ⟨true, ?_, fun _ _ j hj => ?_⟩
    · rw [if_neg h0, if_pos (xarrayEntryIsValue_of_even (by rw [hr]; exact h.value 0))]
    grind
  | succ K => ?_
  obtain ⟨a, ha, hr⟩ := h.root_node
  refine ⟨(x.node a).fullMask = allOnes 64, ?_, fun hfull hm j hj => ?_⟩
  · rw [if_neg (h.root_ne (Nat.succ_pos K)), hr, xarrayEntryIsValue_fromNode (h.even ha),
      xarrayEntryGetNode_fromNode (h.even ha), h.deref ha, ok_bind,
      h.shift ha]
    rfl
  exact hm.ne_zero_of_allOnes ha (by simpa using hfull) (Nat.div_eq_of_lt hj)

/-- Nodes put over the root until the array has `T` levels. -/
theorem grow (hfresh : SlabFresh fresh) {e T : Nat} (full : Bool)
    (h : Rep { x with root := e } f L K) (hK : K ≤ T) (hT : T ≤ 10) (hf : T < fuel + K) :
    ∃ e' x' L', xarrayGrow fresh (6 * T) fuel x e (6 * K) full = .ok (e', x') ∧
      Rep { x' with root := e' } f L' T ∧
      (x.MaskOk f L → (full = true → ∀ j < 64 ^ K, f j ≠ 0) → x'.MaskOk f L') := by
  induction fuel generalizing x e L K full with
  | zero => omega
  | succ fuel ih => ?_
  by_cases hKT : K = T
  · subst hKT
    refine ⟨e, x, L, ?_, h, fun hm _ => hm⟩
    rw [xarrayGrow, if_neg (lt_irrefl _)]
  let a := fresh x.live
  let nd : XarrayNode := ⟨6 * K, if full then 1 else 0, update (fun _ => 0) 0 e⟩
  have hrep := h.push (by omega) (hfresh.notMem _) (hfresh.even _) (rfl : nd.shift = 6 * K) rfl
  obtain ⟨e', x', L', h1, h2, h3⟩ := ih (x := x.alloc a nd)
    false hrep (by omega) (by omega)
  refine ⟨e', x', L', ?_, h2, fun hm hfull => h3 ?_ nofun⟩
  · rw [xarrayGrow, if_pos (by omega), ← h1]
    simp only [slabAlloc, update_self, XarrayNode.zero, setNode, update_idem,
      show 6 * K + 6 = 6 * (K + 1) from rfl]
    rfl
  exact hm.push ({ h with } : x.Nodes L) (hfresh.notMem _) rfl hfull

/-- **`xarray_set`** updates the map and answers the value before. The masks stay right if the value
is NULL or replaces another one, if there is a node over the 4096 indices around the index, or if
the index is out of bound but below 4096. -/
theorem set (hfresh : SlabFresh fresh) (h : x.Rep f L K) (hi : index < 2 ^ 60) (hv : v % 2 = 0)
    (hf : 10 < fuel) :
    ∃ x' L' K', xarraySet fresh fuel x index v = .ok (f index, x') ∧
      x'.Rep (update f index v) L' K' ∧
      (x.MaskOk f L →
        (v ≠ 0 → f index = 0 →
          if index < 64 ^ K then 1 < K → ∃ a, L 1 (index / 64 ^ 2) = some a else index < 64 ^ 2) →
        x'.MaskOk (update f index v) L') := by
  simp only [xarraySet, Nat.and_one_is_mod, assert_of hv, h.inBound, ok_bind]
  by_cases hin : index < 64 ^ K
  · obtain ⟨x', L', h1, h2, h3⟩ := h.setInBound hfresh hin hv hf
    refine ⟨x', L', K, ?_, h2, fun hm hnode => h3 hm ?_⟩
    · rw [decide_eq_true hin, if_pos rfl, h1]
    simpa only [if_pos hin] using hnode
  rw [decide_eq_false hin]
  have hnull : f index = 0 := h.bound index (not_lt.1 hin)
  by_cases hv0 : v = 0
  · subst hv0
    rw [hnull, update_eq_self_iff.2 hnull.symm]
    exact ⟨x, L, K, rfl, h, fun hm _ => hm⟩
  -- the least number of levels that reaches the index
  have hex : ∃ T, index < 64 ^ T := ⟨10, hi⟩
  let T := Nat.find hex
  have hT : index < 64 ^ T := Nat.find_spec hex
  have hT10 : T ≤ 10 := Nat.find_le hi
  have hKT : K < T := by
    refine Nat.lt_of_not_le fun hle => hin (hT.trans_le ?_)
    exact Nat.pow_le_pow_right (by decide) hle
  have htarget : xarrayTargetShift index fuel 0 = .ok (6 * T) :=
    targetShift (k := 0) hT (fun t ht => not_lt.1 (Nat.find_min hex ht)) hT10
      (Nat.zero_le _) (by omega)
  obtain ⟨full, hroot, hfull⟩ := h.rootShift
  obtain ⟨e, x1, L1, h1, h2, h3⟩ := grow hfresh (x := x)
    full h hKT.le hT10 (by omega : T < fuel + K)
  obtain ⟨x', L', h4, h5, h6⟩ := h2.setInBound hfresh hT hv hf
  simp only [if_neg hv0, hroot, htarget, ok_bind, assert_of (show 6 * K < 6 * T by omega), h1, h4]
  refine ⟨x', L', T, rfl, h5, fun hm hlt => h6 ?_ fun _ _ hT1 => ?_⟩
  · exact ⟨(h3 hm fun hf => hfull hf hm).full⟩
  -- an index below 4096 takes two levels
  have hlt := hlt hv0 hnull
  rw [if_neg hin] at hlt
  obtain hT2 : T = 2 := le_antisymm (Nat.find_le hlt) hT1
  rw [hT2] at h2
  obtain ⟨a, ha, -⟩ := h2.root_node
  exact ⟨a, by rw [Nat.div_eq_of_lt hlt]; exact ha⟩

end Xarray.Rep

end Stanix
