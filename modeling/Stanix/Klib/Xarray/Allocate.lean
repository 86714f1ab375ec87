import Stanix.Klib.Xarray.Set

/-!
# `xarray_allocate_from`

The search for the first NULL entry from an index on. It is right as long as the masks are
(`Xarray.MaskOk`) and the way to the start does not end at a NULL entry over several indices in the
middle of that block (`StartOk`): there the value is stored at the start, and the first index of the
block is answered.
-/

namespace Stanix

open Exec Function XarrayLayout XarrayNode

variable {fresh : Finset Nat → Nat} {L : XarrayLayout} {f : Nat → Nat}
  {k p q K a min v fuel : Nat} {x : Xarray} {slot : XarraySlot}

/-- Where the way to `min` ends at a NULL entry, `min` is the first index of the block. -/
def StartOk (L : XarrayLayout) (min : Nat) : Nat → Nat → Prop
  | 0, _ => True
  | k + 1, q =>
    match L k q with
    | none => min % 64 ^ (k + 1) = 0
    | some _ => StartOk L min k (64 * q + min / 64 ^ k % 64)

theorem startOk_zero (L : XarrayLayout) (k q : Nat) : StartOk L 0 k q := by
  induction k generalizing q with
  | zero => trivial
  | succ k ih =>
    rw [StartOk]
    split
    · exact Nat.zero_mod _
    exact ih _

/-- What the search below the word of the block `q` of `64 ^ k` indices answers, from the offset `m`
on: nothing where there is no NULL, and the offset of the first NULL otherwise, where `v` is stored
then. -/
def AllocSpec (x : Xarray) (f : Nat → Nat) (L : XarrayLayout) (K v k q m : Nat) :
    Option (Nat × Bool) × Xarray → Prop
  | (none, x') => x' = x ∧ ∀ d < 64 ^ k, m ≤ d → f (q * 64 ^ k + d) ≠ 0
  | (some (idx, full), x') => idx < 64 ^ k ∧ m ≤ idx ∧ f (q * 64 ^ k + idx) = 0 ∧
      (∀ d, m ≤ d → d < idx → f (q * 64 ^ k + d) ≠ 0) ∧
      ∃ L' : XarrayLayout, XarrayLayout.Le L L' ∧
        x'.Rep (update f (q * 64 ^ k + idx) v) L' K ∧
        x'.MaskOk (update f (q * 64 ^ k + idx) v) L' ∧
        (full = true → ∀ j, j / 64 ^ k = q → update f (q * 64 ^ k + idx) v j ≠ 0)

namespace Xarray.Rep

/-- New nodes below a NULL entry, without any mask bit, and the value under them. -/
theorem allocateFill (hfresh : SlabFresh fresh) {r : Nat} (h : x.Rep f L K)
    (hs : slot.At L K k (r / 64 ^ k)) (h0 : x.fetch slot = 0) (hmin : min % 64 ^ k = r % 64 ^ k)
    (hv : v % 2 = 0) (hf : k < fuel) (full : Bool) :
    ∃ x' L', xarrayAllocateFill fresh min v fuel x slot (6 * k) full =
        .ok (if k = 0 then full else false, x') ∧
      x'.Rep (update f r v) L' K ∧ L.Le L' ∧
      (x.MaskOk (update f r v) L → x'.MaskOk (update f r v) L') := by
  induction k generalizing x L slot fuel full with
  | zero =>
    obtain ⟨fuel, rfl⟩ := Nat.exists_eq_add_one.2 hf.pos
    rw [pow_zero, Nat.div_one] at hs
    exact ⟨x.store slot v, L, rfl, h.store_value hs hv, id, fun hm => hm.store slot v⟩
  | succ k ih => ?_
  obtain ⟨fuel, rfl⟩ := Nat.exists_eq_add_one.2 hf.pos
  let a := fresh x.live
  let i := r / 64 ^ k % 64
  let nd : XarrayNode := ⟨6 * k, 0, fun _ => 0⟩
  have hrep := h.link hs h0 (hfresh.notMem _) (hfresh.even _) (rfl : nd.shift = 6 * k) rfl
  have hnone : L k (r / 64 ^ (k + 1)) = none := by
    have he := h.fetch hs
    rw [h0] at he
    exact he.of_zero.1 k rfl
  have hstep : xarrayAllocateFill fresh min v (fuel + 1) x slot (6 * (k + 1)) full =
      xarrayAllocateFill fresh min v fuel ((x.alloc a nd).store slot (xarrayEntryFromNode a))
        (.entry a i) (6 * k) false := by
    have hi := xarrayNodeGetLocalIndex_eq (rfl : nd.shift = 6 * k) min
    rw [Radix.digit_congr hmin (Nat.lt_succ_self k)] at hi
    rw [xarrayAllocateFill]
    simp only [slabAlloc, update_self, zero, setNode, update_idem,
      show 6 * (k + 1) - 6 = 6 * k by omega]
    rw [show xarrayNodeGetLocalIndex ⟨6 * k, 0, fun _ => 0⟩ min = i from hi]
    rfl
  have hnull := h.fetch_link hs h0 (hfresh.notMem x.live) nd i
  have hat : (XarraySlot.entry a i).At (L.add k (r / 64 ^ (k + 1)) a) K k (r / 64 ^ k) :=
    at_child (add_same ..) rfl
  have hmin' : min % 64 ^ k = r % 64 ^ k := by
    have hdvd : 64 ^ k ∣ 64 ^ (k + 1) := pow_dvd_pow 64 (Nat.le_succ k)
    rw [← Nat.mod_mod_of_dvd min hdvd, hmin, Nat.mod_mod_of_dvd r hdvd]
  obtain ⟨x', L', h1, h2, h3, h4⟩ := ih hrep hat hnull hmin' (Nat.lt_of_succ_lt_succ hf) false
  refine ⟨x', L', ?_, h2, fun hb => h3 (le_add hnone a hb), fun hm => h4 ?_⟩
  · rw [hstep, h1, ite_self, if_neg (Nat.succ_ne_zero k)]
  refine (hm.add h.toNodes (hfresh.notMem _) fun i' hi' hbit => ?_).store _ _
  simp [nd] at hbit

/-- An offset from `min` on is in the child of `min`, from `min` on, or in a child after it. -/
theorem offset_of_le {B start m d : Nat} (hB : 0 < B) (h : start * B + m ≤ d) :
    start ≤ d / B ∧ (d / B = start → m ≤ d % B) := by
  have hd : start ≤ d / B := (Nat.le_div_iff_mul_le hB).2 (by omega)
  refine ⟨hd, fun heq => ?_⟩
  have := Nat.div_add_mod' d B
  rw [heq] at this
  omega

theorem index_child (p d B b : Nat) : p * (B * b) + d = (b * p + d / B) * B + d % B := by
  have := Nat.div_add_mod' d B
  rw [add_mul, add_assoc, this]
  ac_rfl

theorem childIndex (h : x.Rep f L K) (ha : L k p = some a) {i idx : Nat} (hi : i < 64)
    (hidx : idx < 64 ^ k) :
    (idx + i <<< (x.node a).shift) % 2 ^ 64 = i * 64 ^ k + idx ∧ i * 64 ^ k + idx < 64 ^ (k + 1) := by
  have hlt : i * 64 ^ k + idx < 64 ^ (k + 1) := by
    have : (i + 1) * 64 ^ k ≤ 64 * 64 ^ k := Nat.mul_le_mul_right _ hi
    rw [Nat.succ_mul] at this
    omega
  have hK : 64 ^ (k + 1) ≤ 64 ^ 10 :=
    Nat.pow_le_pow_right (by decide) ((h.level_lt ha).trans_le h.levels)
  refine ⟨?_, hlt⟩
  rw [h.shift ha, Nat.shiftLeft_eq, two_pow_six_mul, add_comm, Nat.mod_eq_of_lt]
  omega

theorem setChildBit (h : x.Rep f L K) (hm : x.MaskOk f L) (ha : L k p = some a) {i : Nat} {full : Bool}
    (hfull : full = true → ∀ j, j / 64 ^ k = 64 * p + i → f j ≠ 0) {m : BitVec 64}
    (hmask : m = if full then (x.node a).fullMask ||| BitVec.twoPow 64 i else (x.node a).fullMask) :
    (x.setMask a m).MaskOk f L ∧
      (m = BitVec.allOnes 64 → ∀ j, j / 64 ^ (k + 1) = p → f j ≠ 0) := by
  have hok : (x.setMask a m).MaskOk f L := by
    cases full with
    | true => rw [hmask]; exact hm.setBit h.toNodes ha (hfull rfl)
    | false =>
      rw [hmask]
      exact hm.setMask h.toNodes ha fun i hi hbit => hm.full ha hi hbit
  refine ⟨hok, fun hones j hj => hok.ne_zero_of_allOnes ha ?_ hj⟩
  rw [setMask_node, if_pos rfl]
  exact hones

/-- The loop over the entries of a node, from the entry `i` on, where the children before `i` have
no room. -/
theorem scan (h : x.Rep f L K) (hm : x.MaskOk f L) (ha : L k p = some a)
    {child : Xarray → Nat → Nat → Exec (Option (Nat × Bool) × Xarray)} {start : Nat}
    (hstart : start = min / 64 ^ k % 64) {minOf : Nat → Nat}
    (hminOf : minOf = fun i => if i = start then min else 0)
    (hchild : ∀ i, start ≤ i → i < 64 → ∃ res, child x i (minOf i) = .ok res ∧
      AllocSpec x f L K v k (64 * p + i) (minOf i % 64 ^ k) res)
    {rest i : Nat} (hi : i + rest = 64) (hle : start ≤ i)
    (hskip : ∀ i', start ≤ i' → i' < i → ∀ d < 64 ^ k, minOf i' % 64 ^ k ≤ d →
      f ((64 * p + i') * 64 ^ k + d) ≠ 0) :
    ∃ res, xarrayScan child a start min rest i x = .ok res ∧
      AllocSpec x f L K v (k + 1) p (min % 64 ^ (k + 1)) res := by
  have hB : 0 < 64 ^ k := Nat.pow_pos (by decide)
  have hoff {d : Nat} (hd : min % 64 ^ (k + 1) ≤ d) :
      start ≤ d / 64 ^ k ∧ minOf (d / 64 ^ k) % 64 ^ k ≤ d % 64 ^ k := by
    rw [Radix.mod_pow_succ, ← hstart] at hd
    obtain ⟨h1, h2⟩ := offset_of_le hB hd
    refine ⟨h1, ?_⟩
    subst hminOf
    by_cases heq : d / 64 ^ k = start
    · simpa only [if_pos heq] using h2 heq
    simp only [if_neg heq, Nat.zero_mod, Nat.zero_le]
  -- what is known of the offsets in the children before an entry
  have hbefore {i0 d : Nat} (hskip : ∀ i', start ≤ i' → i' < i0 → ∀ d < 64 ^ k,
      minOf i' % 64 ^ k ≤ d → f ((64 * p + i') * 64 ^ k + d) ≠ 0)
      (hd : min % 64 ^ (k + 1) ≤ d) (hlt : d / 64 ^ k < i0) : f (p * 64 ^ (k + 1) + d) ≠ 0 := by
    obtain ⟨h1, h2⟩ := hoff hd
    rw [pow_succ, index_child]
    exact hskip _ h1 hlt _ (Nat.mod_lt _ hB) h2
  induction rest generalizing i with
  | zero =>
    refine ⟨(none, x), rfl, rfl, fun d hd hmd => hbefore hskip hmd ?_⟩
    rw [add_zero] at hi
    rw [hi]
    exact Nat.div_lt_of_lt_mul hd
  | succ rest ih => ?_
  -- the next entry has no room either
  have hnext (hfull : ∀ d < 64 ^ k, minOf i % 64 ^ k ≤ d → f ((64 * p + i) * 64 ^ k + d) ≠ 0) :
      ∃ res, xarrayScan child a start min rest (i + 1) x = .ok res ∧
        AllocSpec x f L K v (k + 1) p (min % 64 ^ (k + 1)) res := by
    refine ih (by omega) (by omega) fun i' h1 h2 => ?_
    rcases Nat.lt_succ_iff_lt_or_eq.1 h2 with h2 | rfl
    · exact hskip i' h1 h2
    exact hfull
  rw [xarrayScan]
  cases hbit : (x.node a).fullMask.getLsbD i with
  | true =>
    refine hnext fun d hd _ => hm.full ha (by omega) hbit _ ?_
    rw [mul_comm, Nat.mul_add_div hB, Nat.div_eq_of_lt hd, add_zero]
  | false => ?_
  obtain ⟨⟨res, x1⟩, h1, h2⟩ := hchild i hle (by omega)
  subst hminOf
  rw [h1]
  cases res with
  | none =>
    obtain ⟨rfl, hfull⟩ := h2
    exact hnext hfull
  | some found => ?_
  obtain ⟨idx, full⟩ := found
  obtain ⟨hidx, hmidx, hnull, hfirst, L1, hle1, hrep, hmask, hchildFull⟩ := h2
  have ha1 := hle1 ha
  obtain ⟨hindex, hlt⟩ := hrep.childIndex ha1 (i := i) (by omega) hidx
  have hr : (64 * p + i) * 64 ^ k + idx = p * 64 ^ (k + 1) + (i * 64 ^ k + idx) := by
    rw [pow_succ, add_mul]
    ac_rfl
  obtain ⟨hmask2, hones⟩ := hrep.setChildBit hmask ha1 hchildFull rfl
  refine ⟨_, rfl, ?_⟩
  rw [hindex]
  refine ⟨hlt, ?_, by rw [← hr]; exact hnull, fun d hmd hd => ?_, L1, hle1, ?_, ?_, ?_⟩
  · rw [Radix.mod_pow_succ, ← hstart]
    by_cases hieq : i = start
    · grind
    have : (start + 1) * 64 ^ k ≤ i * 64 ^ k := Nat.mul_le_mul_right _ (by omega)
    rw [Nat.succ_mul] at *
    omega
  · rcases lt_or_ge (d / 64 ^ k) i with hdi | hdi
    · exact hbefore hskip hmd hdi
    have heq : d / 64 ^ k = i := by
      refine le_antisymm (Nat.lt_succ_iff.1 ?_) hdi
      exact Nat.div_lt_of_lt_mul (by rw [mul_comm, Nat.succ_mul]; omega)
    obtain ⟨-, hmin⟩ := hoff hmd
    have hsum := Nat.div_add_mod' d (64 ^ k)
    rw [heq] at hmin hsum
    rw [pow_succ, index_child, heq]
    exact hfirst _ hmin (by omega)
  · rw [← hr]
    exact hrep.setMask _ _
  · rw [← hr]
    exact hmask2
  rw [← hr]
  intro hfull
  exact hones (by simpa using hfull)

section

variable (hfresh : SlabFresh fresh) (h : x.Rep f L K)
include hfresh h

theorem entryAllocate_null (hm : x.MaskOk f L) (hv : v % 2 = 0) (hv0 : v ≠ 0) (hs : slot.At L K k q)
    (h0 : x.fetch slot = 0) (hmin : min % 64 ^ k = 0) (hf : k < fuel + 1) :
    ∃ res, xarrayEntryAllocate fresh v (fuel + 1) x slot min (6 * k) = .ok res ∧
      AllocSpec x f L K v k q (min % 64 ^ k) res := by
  have hB : 0 < 64 ^ k := Nat.pow_pos (by decide)
  have hq := Nat.mul_div_cancel q hB
  have hnull : f (q * 64 ^ k) = 0 := by
    have he := h.fetch hs
    rw [h0] at he
    exact he.of_zero.2 _ hq
  obtain ⟨x', L', h1, h2, h3, h4⟩ := h.allocateFill hfresh
    (by rw [hq]; exact hs) h0 (hmin.trans (Nat.mul_mod_left q _).symm) hv hf true
  refine ⟨(some (0, if k = 0 then true else false), x'), ?_, hB, by rw [hmin], hnull,
    fun d _ hd => absurd hd (Nat.not_lt_zero d), L', h3, h2, h4 (hm.update hv0 _), fun hfull => ?_⟩
  · simp only [xarrayEntryAllocate, h0, if_true, h1, ok_bind]
    rfl
  grind

/-- **`xarray_entry_allocate`** finds the first NULL below an entry. -/
theorem entryAllocate (hm : x.MaskOk f L) (hv : v % 2 = 0) (hv0 : v ≠ 0) {shift : Nat}
    (hs : slot.At L K k q) (hshift : x.fetch slot = 0 → shift = 6 * k) (hok : StartOk L min k q)
    (hf : k < fuel) :
    ∃ res, xarrayEntryAllocate fresh v fuel x slot min shift = .ok res ∧
      AllocSpec x f L K v k q (min % 64 ^ k) res := by
  induction k generalizing slot q min shift fuel with
  | zero =>
    obtain ⟨fuel, rfl⟩ := Nat.exists_eq_add_one.2 hf.pos
    by_cases h0 : x.fetch slot = 0
    · rw [hshift h0]
      exact h.entryAllocate_null hfresh hm hv hv0 hs h0 (Nat.mod_one min) hf
    have he : x.fetch slot = f q := h.fetch hs
    have hval := xarrayEntryIsValue_of_even (e := x.fetch slot) (by rw [he]; exact h.value q)
    refine ⟨(none, x), ?_, rfl, fun d hd _ => ?_⟩
    · simp only [xarrayEntryAllocate, h0, if_false, hval, if_true]
    grind
  | succ k ih => ?_
  obtain ⟨fuel, rfl⟩ := Nat.exists_eq_add_one.2 hf.pos
  have he := h.fetch hs
  by_cases h0 : x.fetch slot = 0
  · rw [hshift h0]
    refine h.entryAllocate_null hfresh hm hv hv0 hs h0 ?_ hf
    rw [h0] at he
    rw [StartOk, he.of_zero.1 k rfl] at hok
    exact hok
  obtain ⟨a, ha, hea⟩ := he.exists_node h0
  rw [StartOk, ha] at hok
  simp only [xarrayEntryAllocate, hea, xarrayEntryFromNode_ne_zero, if_false,
    xarrayEntryIsValue_fromNode (h.even ha), Bool.false_eq_true,
    xarrayEntryGetNode_fromNode (h.even ha), h.deref ha, ok_bind]
  by_cases hones : (x.node a).fullMask = BitVec.allOnes 64
  · rw [if_pos hones]
    refine ⟨(none, x), rfl, rfl, fun d hd _ => hm.ne_zero_of_allOnes ha hones ?_⟩
    rw [mul_comm, Nat.mul_add_div (Nat.pow_pos (by decide)), Nat.div_eq_of_lt hd, add_zero]
  rw [if_neg hones, h.localIndex ha]
  refine h.scan hm ha rfl rfl (fun i hle hi => ?_) (by omega) le_rfl
    fun i' h1 h2 => absurd h2 (not_lt.2 h1)
  refine ih ⟨hi, q, ha, rfl⟩ (fun _ => h.shift ha) ?_ (Nat.lt_of_succ_lt_succ hf)
  by_cases hieq : i = min / 64 ^ k % 64
  · rw [if_pos hieq, hieq]
    exact hok
  rw [if_neg hieq]
  exact startOk_zero L k _

/-- A new root over an array without room. What happened to be in `child_is_full` becomes the mask
bit of the old root. -/
theorem reroot (hK : K < 10) (stale : Bool) :
    ∃ a x', xarrayReroot fresh x stale = .ok (a, x') ∧ L.add K 0 a K 0 = some a ∧
      x'.Rep f (L.add K 0 a) (K + 1) ∧ x'.fetch (.entry a 1) = 0 ∧ (x'.node a).shift = 6 * K ∧
      (x.MaskOk f L → (stale = true → ∀ j < 64 ^ K, f j ≠ 0) → x'.MaskOk f (L.add K 0 a)) := by
  let a := fresh x.live
  let nd : XarrayNode := ⟨6 * K, if stale then 1 else 0, update (fun _ => 0) 0 x.root⟩
  have hrep := h.push hK (hfresh.notMem _) (hfresh.even _) (rfl : nd.shift = 6 * K) rfl
  refine ⟨a, { x.alloc a nd with root := xarrayEntryFromNode a }, ?_, add_same .., hrep,
    ?_, ?_, fun hm hfull => ?_⟩
  · cases K with
    | zero =>
      have hval := xarrayEntryIsValue_of_even (e := x.root) (by
        rw [show x.root = f 0 from h.root]; exact h.value 0)
      simp only [xarrayReroot, slabAlloc, hval, if_true, pure_eq, ok_bind,
        update_self, zero, setNode, update_idem]
      rfl
    | succ K =>
      obtain ⟨b, hb, hr⟩ := h.root_node
      have hba := h.ne_of_notMem (hfresh.notMem x.live) hb
      have hlive : b ∈ insert (fresh x.live) x.live := Finset.mem_insert_of_mem (h.live hb)
      simp only [xarrayReroot, slabAlloc, hr, xarrayEntryIsValue_fromNode (h.even hb),
        Bool.false_eq_true, if_false, xarrayEntryGetNode_fromNode (h.even hb), Xarray.deref, hlive,
        if_true, Except.map, ok_bind, update_of_ne hba, h.shift hb,
        update_self, zero, setNode, update_idem, pure_eq]
      rw [← hr]
      rfl
  · show ((x.alloc a nd).node a).entries 1 = 0
    rw [alloc_node]
    rfl
  · rw [alloc_node]
  exact ⟨(hm.push h.toNodes (hfresh.notMem _) (rfl : nd.fullMask = _) hfull).full⟩

/-- **`xarray_allocate_from`** stores the value at the first NULL from `start` on and answers that
index, if the search starts well. The masks stay right if a start out of bound is below 4096, and
`child_is_full` is zero where a root that is not full gets a node over it. -/
theorem allocateFrom (hm : x.MaskOk f L) (hv : v % 2 = 0) (hv0 : v ≠ 0) {start : Nat}
    (hroom : ∃ j, start ≤ j ∧ j < 2 ^ 60 ∧ f j = 0) (hok : start < 64 ^ K → StartOk L start K 0)
    (hf : 10 < fuel) (stale : Bool) :
    ∃ r x' L' K', xarrayAllocateFrom fresh fuel x start v stale = .ok (r, x') ∧ start ≤ r ∧
      f r = 0 ∧ (∀ j, start ≤ j → j < r → f j ≠ 0) ∧ x'.Rep (update f r v) L' K' ∧
      ((64 ^ K ≤ start → start < 64 ^ 2) →
        (stale = true → (∃ j, start ≤ j ∧ j < 64 ^ K ∧ f j = 0) ∨ ∀ j < 64 ^ K, f j ≠ 0) →
        x'.MaskOk (update f r v) L') := by
  have hK := h.levels
  simp only [xarrayAllocateFrom, Nat.and_one_is_mod, assert_of hv, h.inBound, ok_bind]
  by_cases hin : start < 64 ^ K
  · rw [decide_eq_true hin]
    have hroot : XarraySlot.root.At L K K 0 := ⟨rfl, rfl⟩
    have hshift : x.fetch .root = 0 → 0 = 6 * K := by
      intro h0
      have : K = 0 := Nat.eq_zero_of_not_pos fun hK => h.root_ne hK h0
      rw [this]
    obtain ⟨⟨res, x1⟩, h1, h2⟩ := h.entryAllocate hfresh hm hv hv0 hroot hshift (hok hin) (by omega : K < fuel)
    rw [h1]
    rw [Nat.mod_eq_of_lt hin] at h2
    cases res with
    | some found =>
      obtain ⟨idx, full⟩ := found
      simp only [AllocSpec, zero_mul, zero_add] at h2
      obtain ⟨-, hle, hnull, hfirst, L', -, hrep, hmask, -⟩ := h2
      exact ⟨idx, x1, L', K, rfl, hle, hnull, hfirst, hrep, fun _ _ => hmask⟩
    | none => ?_
    obtain ⟨rfl, hfull⟩ := h2
    simp only [zero_mul, zero_add] at hfull
    -- the room is beyond the bound
    have hK9 : K < 10 := by grind
    obtain ⟨a, x2, h3, ha, hrep, hnull, hshift, hmask⟩ := h.reroot hfresh hK9 stale
    have hmod : 2 ^ (6 * K) % 2 ^ 64 = 64 ^ K := by
      rw [Nat.mod_eq_of_lt (Nat.pow_lt_pow_right (by decide) (by omega)), two_pow_six_mul]
    have hlt : 64 ^ K < 2 ^ 64 := by grind
    have hat : (XarraySlot.entry a 1).At (L.add K 0 a) (K + 1) K (64 ^ K / 64 ^ K) :=
      ⟨by decide, 0, ha, Nat.div_self (Nat.pow_pos (by decide))⟩
    obtain ⟨x', L', h4, h5, -, h6⟩ := hrep.allocateFill hfresh hat hnull
      (by rw [Nat.zero_mod, Nat.mod_self] : 0 % 64 ^ K = 64 ^ K % 64 ^ K) hv
      (by omega : K < fuel) true
    have h7 : xarrayEntryAllocate fresh v fuel x2 (.entry a 1) 0 (6 * K) =
        .ok (some (0, if K = 0 then true else false), x') := by
      obtain ⟨fuel, rfl⟩ := Nat.exists_eq_add_one.2 hf.pos
      simp only [xarrayEntryAllocate, hnull, if_true, h4, ok_bind]
      rfl
    refine ⟨64 ^ K, x', L', K + 1, ?_, hin.le, h.bound _ le_rfl, fun j hj hlt => hfull j hlt hj, h5,
      fun _ hstale => h6 ((hmask hm fun hs => ?_).update hv0 _)⟩
    · simp only [h3, ok_bind, hshift, h7, hmod, zero_add, Nat.mod_eq_of_lt hlt]
      rfl
    grind
  rw [decide_eq_false hin]
  have hnull : f start = 0 := h.bound start (not_lt.1 hin)
  obtain ⟨x', L', K', h1, h2, h3⟩ := h.set hfresh (by omega : start < 2 ^ 60) hv hf
  refine ⟨start, x', L', K', by rw [h1]; rfl, le_rfl, hnull, fun j h4 h5 => absurd h5 (by omega), h2,
    fun hlow _ => h3 hm fun _ _ => ?_⟩
  rw [if_neg hin]
  exact hlow (not_lt.1 hin)

end

end Xarray.Rep

end Stanix
