import Stanix.Klib.Xarray.Allocate
import Mathlib.Order.Lattice.Nat

/-!
# Runs on an array

Calls of `xarray_get`, `xarray_set`, `xarray_clear` and `xarray_cmpxchg`, in any order and number,
from an empty array refine a map from indices to values (`xarray_run_refines`). With
`xarray_allocate_from` among the calls, every allocation answers the first NULL index from its start
on, as long as no call meets one of three slips of the code (`xarray_run_allocates_first`).
-/

namespace Stanix

open Function Except

variable {fresh : Finset Nat → Nat} {L : XarrayLayout} {f : Nat → Nat}
  {k q e K index fuel : Nat} {x : Xarray}

theorem Xarray.Rep.empty (h : x.root = 0) : x.Rep (fun _ => 0) (fun _ _ => none) 0 where
  live := nofun
  even := nofun
  shift := nofun
  disjoint := nofun
  root := h
  root_ne := fun h0 => absurd h0 (lt_irrefl 0)
  levels := Nat.zero_le 10
  entry := nofun
  inside := nofun
  parent := nofun
  bound := fun _ _ => rfl
  value := fun _ => rfl

/-! ## Assignment and lookup refine a map -/

/-- One call. -/
inductive XarrayCall
  | get (index : Nat)
  | set (index value : Nat)
  | clear (index : Nat)
  | cmpxchg (index expected value : Nat)

/-- The effect and the answer of a call. -/
def xarrayCall (fresh : Finset Nat → Nat) (fuel : Nat) (x : Xarray) :
    XarrayCall → Exec (Nat × Xarray)
  | .get index => do return (← xarrayGet fuel x index, x)
  | .set index value => xarraySet fresh fuel x index value
  | .clear index => xarrayClear fresh fuel x index
  | .cmpxchg index expected value => xarrayCmpxchg fresh fuel x index expected value

namespace XarrayCall

/-- What a call does to a map, and what it answers. -/
def spec (f : Nat → Nat) : XarrayCall → Nat × (Nat → Nat)
  | .get index => (f index, f)
  | .set index value => (f index, update f index value)
  | .clear index => (f index, update f index 0)
  | .cmpxchg index expected value =>
    (f index, if f index = expected then update f index value else f)

/-- The indices are below `2 ^ 60` and the values are even. -/
def Ok : XarrayCall → Prop
  | .get index => index < 2 ^ 60
  | .set index value => index < 2 ^ 60 ∧ value % 2 = 0
  | .clear index => index < 2 ^ 60
  | .cmpxchg index _ value => index < 2 ^ 60 ∧ value % 2 = 0

end XarrayCall

/-- **One call** refines its effect on the map. -/
theorem Xarray.Rep.call (hfresh : SlabFresh fresh) (h : x.Rep f L K) (hf : 10 < fuel)
    {c : XarrayCall} (hc : c.Ok) :
    ∃ x' L' K', xarrayCall fresh fuel x c = .ok ((c.spec f).1, x') ∧ x'.Rep (c.spec f).2 L' K' := by
  cases c with
  | get index => exact ⟨x, L, K, by rw [xarrayCall, h.get hf]; rfl, h⟩
  | set index value =>
    obtain ⟨x', L', K', h1, h2, -⟩ := h.set hfresh hc.1 hc.2 hf
    exact ⟨x', L', K', h1, h2⟩
  | clear index =>
    obtain ⟨x', L', K', h1, h2, -⟩ := h.set hfresh (v := 0) hc rfl hf
    exact ⟨x', L', K', h1, h2⟩
  | cmpxchg index expected value => ?_
  simp only [xarrayCall, xarrayCmpxchg, Nat.and_one_is_mod, Exec.assert_of hc.2, h.get hf,
    Exec.ok_bind, XarrayCall.spec]
  by_cases hexp : f index = expected
  · obtain ⟨x', L', K', h1, h2, -⟩ := h.set hfresh hc.1 hc.2 hf
    rw [if_neg (not_not.2 hexp), if_pos hexp]
    exact ⟨x', L', K', h1, h2⟩
  rw [if_pos hexp, if_neg hexp]
  exact ⟨x, L, K, rfl, h⟩

/-- **Every run refines a map.** From an empty array, every run of lookups, assignments, clears and
conditional assignments on indices below `2 ^ 60`, with even values, returns; each call answers the
value before it, and each lookup afterwards answers the map. -/
theorem xarray_run_refines (hfresh : SlabFresh fresh) (hf : 10 < fuel) {x₀ : Xarray}
    (h₀ : x₀.root = 0) {calls : List XarrayCall} (hcalls : ∀ c ∈ calls, c.Ok) :
    ∃ x, runOps (xarrayCall fresh fuel) x₀ calls =
        .ok ((specOps XarrayCall.spec (fun _ => 0) calls).1, x) ∧
      ∀ index, xarrayGet fuel x index =
        .ok ((specOps XarrayCall.spec (fun _ => 0) calls).2 index) := by
  have hadm (f : Nat → Nat) : Admissible XarrayCall.spec (fun _ c => c.Ok) f calls := by
    induction calls generalizing f with
    | nil => trivial
    | cons c calls ih =>
      exact ⟨hcalls c List.mem_cons_self, ih (fun c hc => hcalls c (List.mem_cons_of_mem _ hc)) _⟩
  have hstep (x : Xarray) (f : Nat → Nat) (c : XarrayCall) (h : ∃ L K, x.Rep f L K) (hc : c.Ok) :
      ∃ x', xarrayCall fresh fuel x c = .ok ((c.spec f).1, x') ∧ ∃ L K, x'.Rep (c.spec f).2 L K := by
    obtain ⟨L, K, h⟩ := h
    obtain ⟨x', L', K', h1, h2⟩ := h.call hfresh hf hc
    exact ⟨x', h1, L', K', h2⟩
  have hempty : ∃ L K, x₀.Rep (fun _ => 0) L K := ⟨_, _, .empty h₀⟩
  obtain ⟨x, h1, L, K, h2⟩ := runOps_refines hstep hempty (hadm _)
  exact ⟨x, h1, h2.get hf⟩

/-- A slab that hands out the first even address after those in use. -/
def natFresh (S : Finset Nat) : Nat := 2 * (S.sup id + 1)

theorem natFresh_slabFresh : SlabFresh natFresh where
  notMem S h := by
    have h1 : natFresh S ≤ S.sup id := Finset.le_sup (f := id) h
    unfold natFresh at h1
    omega
  even S := Nat.mul_mod_right 2 _

/-- An empty array. -/
def xarrayEmpty : Xarray where
  root := 0
  live := ∅
  node _ := .zero

/-- A run on the indices `5` and `70`. -/
theorem xarray_run_refines_nat :
    ∃ x, runOps (xarrayCall natFresh 12) xarrayEmpty
        [.set 5 2, .set 70 4, .cmpxchg 5 6 8, .cmpxchg 70 4 10, .get 70, .clear 5] =
        .ok ([0, 0, 2, 4, 10, 2], x) ∧
      xarrayGet 12 x 70 = .ok 10 ∧ xarrayGet 12 x 5 = .ok 0 := by
  have hrun : ∃ x, runOps (xarrayCall natFresh 12) xarrayEmpty
        [.set 5 2, .set 70 4, .cmpxchg 5 6 8, .cmpxchg 70 4 10, .get 70, .clear 5] = .ok (_, x) ∧
      ∀ index, xarrayGet 12 x index = .ok _ :=
    xarray_run_refines natFresh_slabFresh (by decide) rfl (by simp [XarrayCall.Ok])
  obtain ⟨x, h1, h2⟩ := hrun
  exact ⟨x, h1, h2 70, h2 5⟩

/-! ## Allocation answers the first NULL index -/

/-- The shift of the node at whose NULL entry the way to an index ends, `none` where it ends at a
value: the walk of `xarray_raw_get` (`xarray.c:101`). -/
def xarrayNullShift (x : Xarray) (index : Nat) : Nat → Nat → Nat → Option Nat
  | 0, _, _ => none
  | fuel + 1, entry, shift =>
    if entry = 0 then some shift
    else if xarrayEntryIsValue entry then none
    else
      let nd := x.node (xarrayEntryGetNode entry)
      xarrayNullShift x index fuel (nd.entries (xarrayNodeGetLocalIndex nd index)) nd.shift

namespace Xarray.Rep

variable (h : x.Rep f L K) {shift : Nat}

include h

theorem nullShift_node (ha : L k q = some a) (h0 : xarrayEntryFromNode a ≠ 0) :
    xarrayNullShift x index (fuel + 1) (xarrayEntryFromNode a) shift = xarrayNullShift x index fuel
      (x.fetch (.entry a (index / 64 ^ k % 64))) (x.node a).shift := by
  simp only [xarrayNullShift, h0, if_false, xarrayEntryIsValue_fromNode (h.even ha),
    Bool.false_eq_true, xarrayEntryGetNode_fromNode (h.even ha), h.localIndex ha]
  rfl

/-- Where the way to a start ends at a NULL entry only at the first index of its block, the search
starts well. -/
theorem startOk_of_nullShift (he : XarrayEntry L f k q e) (hq : index / 64 ^ k = q)
    (hshift : e = 0 → shift = 6 * k) (hf : k < fuel)
    (hnull : ∀ s, xarrayNullShift x index fuel e shift = some s → index % 2 ^ s = 0) :
    StartOk L index k q := by
  induction k generalizing q e shift fuel with
  | zero => trivial
  | succ k ih => ?_
  obtain ⟨fuel, rfl⟩ := Nat.exists_eq_add_one.2 hf.pos
  rw [StartOk]
  by_cases h0 : e = 0
  · subst h0
    rw [he.of_zero.1 k rfl, ← two_pow_six_mul, ← hshift rfl]
    exact hnull shift (by rw [xarrayNullShift, if_pos rfl])
  obtain ⟨a, ha, rfl⟩ := he.exists_node h0
  rw [ha]
  have hs := at_child (K := K) ha hq
  rw [← Radix.div_of_div_succ hq]
  refine ih (h.fetch hs) rfl (fun _ => h.shift ha) (Nat.lt_of_succ_lt_succ hf) fun s hs' => ?_
  exact hnull s ((h.nullShift_node ha h0).trans hs')

/-- Where the way to a NULL index ends at a node of a shift below 12, there is a node over the 4096
indices around it. -/
theorem node_of_nullShift (he : XarrayEntry L f k q e) (hq : index / 64 ^ k = q)
    (hshift : e = 0 → shift = 6 * k) (hf : k < fuel) (hk : 1 < k)
    (hnull : ∀ s, xarrayNullShift x index fuel e shift = some s → s < 12) :
    ∃ a, L 1 (index / 64 ^ 2) = some a := by
  induction k generalizing q e shift fuel with
  | zero => omega
  | succ k ih => ?_
  obtain ⟨fuel, rfl⟩ := Nat.exists_eq_add_one.2 hf.pos
  by_cases h0 : e = 0
  · have := hnull shift (by rw [xarrayNullShift, if_pos h0])
    omega
  obtain ⟨a, ha, rfl⟩ := he.exists_node h0
  by_cases hk1 : k = 1
  · subst hk1
    exact ⟨a, by rw [hq]; exact ha⟩
  have hs := at_child (K := K) ha hq
  refine ih (h.fetch hs) rfl (fun _ => h.shift ha) (Nat.lt_of_succ_lt_succ hf) (by omega)
    fun s hs' => ?_
  exact hnull s ((h.nullShift_node ha h0).trans hs')

end Xarray.Rep

/-- The call on `start` is below the array's bound. -/
def Xarray.InBound (x : Xarray) (index : Nat) : Prop :=
  xarrayIsInBound x x.root index = .ok true

/-- The way to the start of a search does not end at a NULL entry in the middle of its block. -/
def Xarray.StartsWell (fuel : Nat) (x : Xarray) (start : Nat) : Prop :=
  x.InBound start → ∀ s, xarrayNullShift x start fuel x.root 0 = some s → start % 2 ^ s = 0

/-- **An allocation is right**: `xarray_allocate_from` answers the least index from `start` on whose
value was NULL; afterwards the value there is `value`, and every other index keeps its value. -/
def Xarray.AllocatesFirst (fresh : Finset Nat → Nat) (fuel : Nat) (x : Xarray) (start value : Nat)
    (stale : Bool) : Prop :=
  ∃ r x', xarrayAllocateFrom fresh fuel x start value stale = .ok (r, x') ∧ start ≤ r ∧
    xarrayGet fuel x r = .ok 0 ∧
    (∀ j, start ≤ j → j < r → ∃ w, w ≠ 0 ∧ xarrayGet fuel x j = .ok w) ∧
    xarrayGet fuel x' r = .ok value ∧ ∀ j, j ≠ r → xarrayGet fuel x' j = xarrayGet fuel x j

/-- One call: an assignment (a clear, where the value is NULL), or an allocation with what happens
to be in the variable `child_is_full`. -/
inductive XarrayWrite
  | set (index value : Nat)
  | allocate (start value : Nat) (stale : Bool)

/-- The effect and the answer of a call. -/
def xarrayWrite (fresh : Finset Nat → Nat) (fuel : Nat) (x : Xarray) :
    XarrayWrite → Exec (Nat × Xarray)
  | .set index value => xarraySet fresh fuel x index value
  | .allocate start value stale => xarrayAllocateFrom fresh fuel x start value stale

/-- The indices of a call are below `2 ^ 59`, the one an allocation is to answer too, and values are
even, those of allocations not NULL. -/
def XarrayWrite.Ok (fuel : Nat) (x : Xarray) : XarrayWrite → Prop
  | .set index value => index < 2 ^ 59 ∧ value % 2 = 0
  | .allocate start value _ => value % 2 = 0 ∧ value ≠ 0 ∧
      ∃ j, start ≤ j ∧ j < 2 ^ 59 ∧ xarrayGet fuel x j = .ok 0

/-- The call meets none of the slips of the code. An assignment adds one node at most below a NULL
entry. An allocation starts well; it adds no chain of nodes out of bound; and where it puts a node
over a root that is not full, `child_is_full` happens to be zero. -/
def XarrayWrite.Avoids (fuel : Nat) (x : Xarray) : XarrayWrite → Prop
  | .set index value => value ≠ 0 →
      (x.InBound index → ∀ s, xarrayNullShift x index fuel x.root 0 = some s → s < 12) ∧
      (¬ x.InBound index → index < 2 ^ 12)
  | .allocate start _ stale => x.StartsWell fuel start ∧ (¬ x.InBound start → start < 2 ^ 12) ∧
      (stale = true → (∃ j, start ≤ j ∧ x.InBound j ∧ xarrayGet fuel x j = .ok 0) ∨
        ∀ j, x.InBound j → xarrayGet fuel x j ≠ .ok 0)

/-- What every state of a run without slips satisfies. -/
def Xarray.Sound (x : Xarray) : Prop :=
  ∃ f L K, x.Rep f L K ∧ x.MaskOk f L ∧ ∀ j, f j ≠ 0 → j < 2 ^ 59

namespace Xarray.Rep

theorem inBound_iff (h : x.Rep f L K) : x.InBound index ↔ index < 64 ^ K := by
  rw [Xarray.InBound, h.inBound, ok.injEq, decide_eq_true_eq]

/-- What `StartsWell` says of the layout. -/
theorem startOk (h : x.Rep f L K) (hf : 10 < fuel) (hs : x.StartsWell fuel index)
    (hi : index < 64 ^ K) : StartOk L index K 0 := by
  have hK := h.levels
  refine h.startOk_of_nullShift h.root (Nat.div_eq_of_lt hi) (fun h0 => ?_) (by omega)
    (hs (h.inBound_iff.2 hi))
  have : K = 0 := Nat.eq_zero_of_not_pos fun hK => h.root_ne hK h0
  rw [this]

end Xarray.Rep

theorem Xarray.Sound.allocatesFirst (hfresh : SlabFresh fresh) (hf : 10 < fuel) (h : x.Sound)
    {start value : Nat} (hstart : start < 2 ^ 59) (hv : value % 2 = 0) (hv0 : value ≠ 0)
    (hwell : x.StartsWell fuel start) (stale : Bool) :
    x.AllocatesFirst fresh fuel start value stale := by
  obtain ⟨f, L, K, hrep, hm, hbound⟩ := h
  have hroom : ∃ j, start ≤ j ∧ j < 2 ^ 60 ∧ f j = 0 := by grind
  obtain ⟨r, x', L', K', h1, h2, h3, h4, h5, -⟩ :=
    hrep.allocateFrom hfresh hm hv hv0 hroom (hrep.startOk hf hwell) hf stale
  refine ⟨r, x', h1, h2, by rw [hrep.get hf, h3], fun j hj hlt => ⟨f j, h4 j hj hlt, hrep.get hf j⟩,
    ?_, fun j hj => ?_⟩
  · rw [h5.get hf, update_self]
  rw [h5.get hf, hrep.get hf, update_of_ne hj]

/-- **One call** without a slip keeps a state sound. -/
theorem Xarray.Sound.write (hfresh : SlabFresh fresh) (hf : 10 < fuel) (h : x.Sound)
    {c : XarrayWrite} (hc : c.Ok fuel x) (ha : c.Avoids fuel x) :
    ∃ r x', xarrayWrite fresh fuel x c = .ok (r, x') ∧ x'.Sound := by
  obtain ⟨f, L, K, hrep, hm, hbound⟩ := h
  have bound {r value : Nat} (hr : r < 2 ^ 59) :
      ∀ j, update f r value j ≠ 0 → j < 2 ^ 59 := by
    intro j hj
    by_cases hjr : j = r
    · rw [hjr]
      exact hr
    rw [update_of_ne hjr] at hj
    exact hbound j hj
  cases c with
  | set index value =>
    obtain ⟨hi, hv⟩ := hc
    obtain ⟨x', L', K', h1, h2, h3⟩ := hrep.set hfresh (hi.trans (by decide)) hv hf
    refine ⟨_, x', h1, _, L', K', h2, h3 hm fun hv0 _ => ?_, bound hi⟩
    obtain ⟨hin, hout⟩ := ha hv0
    rw [hrep.inBound_iff] at hin hout
    split
    case isTrue hlt =>
      intro hK
      have := hrep.levels
      refine hrep.node_of_nullShift hrep.root (Nat.div_eq_of_lt hlt) (fun h0 => ?_) (by omega) hK
        (hin hlt)
      exact absurd h0 (hrep.root_ne (by omega))
    case isFalse hlt => exact hout hlt
  | allocate start value stale => ?_
  obtain ⟨hv, hv0, j, hj, hlt, hnull⟩ := hc
  obtain ⟨hwell, hout, hstale⟩ := ha
  rw [hrep.get hf, ok.injEq] at hnull
  rw [hrep.inBound_iff] at hout
  simp only [hrep.inBound_iff, hrep.get hf, ok.injEq, ne_eq] at hstale
  obtain ⟨r, x', L', K', h1, h2, h3, h4, h5, h6⟩ :=
    hrep.allocateFrom hfresh hm hv hv0 ⟨j, hj, by omega, hnull⟩ (hrep.startOk hf hwell) hf stale
  have hr : r < 2 ^ 59 := by grind
  exact ⟨r, x', h1, _, L', K', h5, h6 (fun hge => hout (by omega)) hstale, bound hr⟩

/-- **Allocation answers the first NULL index.** In every state of a run of assignments, clears and
allocations on indices below `2 ^ 59` from an empty array, whose calls meet none of the slips of the
code, every allocation that starts well is right. -/
theorem xarray_run_allocates_first (hfresh : SlabFresh fresh) (hf : 10 < fuel) {x₀ : Xarray}
    (h₀ : x₀.root = 0) {calls : List XarrayWrite}
    (hok : CallsAll (xarrayWrite fresh fuel)
      (fun x c => c.Ok fuel x ∧ c.Avoids fuel x) x₀ calls) :
    RunAll (xarrayWrite fresh fuel)
      (fun x => ∀ start value stale, start < 2 ^ 59 → value % 2 = 0 → value ≠ 0 →
        x.StartsWell fuel start → x.AllocatesFirst fresh fuel start value stale) x₀ calls := by
  have hempty : x₀.Sound := by
    refine ⟨_, _, _, .empty h₀, ⟨?_⟩, fun j hj => absurd rfl hj⟩
    intro k p a i ha
    cases ha
  refine runAll_of_invariant (I := fun _ x => x.Sound) (fun _ x h => ?_) (fun _ x c h hc => ?_) hempty
    hok
  · intro start value stale hstart hv hv0 hwell
    exact h.allocatesFirst hfresh hf hstart hv hv0 hwell stale
  exact h.write hfresh hf hc.1 hc.2

/-- A value at `0`, and the index `1` allocated after it. -/
theorem xarray_run_allocates_first_nat :
    RunAll (xarrayWrite natFresh 12)
      (fun x => ∀ start value stale, start < 2 ^ 59 → value % 2 = 0 → value ≠ 0 →
        x.StartsWell 12 start → x.AllocatesFirst natFresh 12 start value stale) xarrayEmpty
      [.set 0 2, .allocate 0 4 false] := by
  refine xarray_run_allocates_first natFresh_slabFresh (by decide) rfl ?_
  refine .cons rfl ⟨⟨by decide, rfl⟩, fun _ => ⟨fun _ s hs => ?_, fun _ => by decide⟩⟩
    (.cons rfl ⟨⟨rfl, by decide, 1, by decide, by decide, rfl⟩, fun _ s hs => ?_, fun _ => by decide,
      nofun⟩ trivial)
  · cases hs
    decide
  cases hs

/-- Three runs after which an allocation is not right. With a value at `64`, the search from `129`
on stores at `129` and answers `128`. With a value at `4096`, the search from `4096` on takes the
entries up to `4159` for full. With a value at `63` and one allocated after it, while
`child_is_full` was not zero, the search from `0` on takes the entries up to `63` for full. -/
theorem xarray_allocate_slips :
    (∃ x, runOps (xarrayWrite natFresh 12) xarrayEmpty [.set 64 2] = .ok ([0], x) ∧
      ¬ x.AllocatesFirst natFresh 12 129 4 false) ∧
    (∃ x, runOps (xarrayWrite natFresh 12) xarrayEmpty [.set 4096 2] = .ok ([0], x) ∧
      ¬ x.AllocatesFirst natFresh 12 4096 4 false) ∧
    (∃ x, runOps (xarrayWrite natFresh 12) xarrayEmpty [.set 63 2, .allocate 63 4 true] =
        .ok ([0, 64], x) ∧ ¬ x.AllocatesFirst natFresh 12 0 6 false) := by
  refine ⟨⟨_, rfl, fun h => ?_⟩, ⟨_, rfl, fun h => ?_⟩, ⟨_, rfl, fun h => ?_⟩⟩
  · obtain ⟨r, x', h1, h2, -⟩ := h
    have hr : r = 128 := by cases h1; rfl
    omega
  · obtain ⟨r, x', h1, -, -, h2, -⟩ := h
    have hr : r = 4160 := by cases h1; rfl
    obtain ⟨w, hw, h3⟩ := h2 4097 (by decide) (by omega)
    cases h3
    exact hw rfl
  obtain ⟨r, x', h1, -, -, h2, -⟩ := h
  have hr : r = 65 := by cases h1; rfl
  obtain ⟨w, hw, h3⟩ := h2 0 (by decide) (by omega)
  cases h3
  exact hw rfl

end Stanix
