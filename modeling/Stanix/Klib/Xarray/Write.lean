import Stanix.Klib.Xarray.Rep

/-!
# Writes to an array

The three writes that `xarray.c` is made of: a value stored in the slot of one index
(`Rep.store_value`), a new node without entries linked in a NULL slot (`Rep.link`), and a new node
put over the root (`Rep.push`). The last two keep the map. A mask may change at any time without a
change to the map (`Rep.setMask`); `MaskOk` has a lemma for each change of a mask.
-/

namespace Stanix

open Radix XarrayLayout Function BitVec

namespace Xarray

/-- A new live node. -/
def alloc (x : Xarray) (a : Nat) (nd : XarrayNode) : Xarray :=
  { x with live := insert a x.live, node := update x.node a nd }

section

variable (x : Xarray)
include x

@[simp] theorem alloc_node (a : Nat) (nd : XarrayNode) : (x.alloc a nd).node a = nd :=
  update_self ..

theorem alloc_node_of_ne {a b : Nat} (nd : XarrayNode) (h : b ≠ a) :
    (x.alloc a nd).node b = x.node b :=
  update_of_ne h ..

theorem setMask_node (a b : Nat) (m : BitVec 64) :
    (x.setMask a m).node b = if b = a then { x.node a with fullMask := m } else x.node b :=
  update_apply ..

@[simp] theorem setMask_shift (a b : Nat) (m : BitVec 64) :
    ((x.setMask a m).node b).shift = (x.node b).shift := by
  rw [setMask_node]; split <;> simp_all

@[simp] theorem setMask_entries (a b : Nat) (m : BitVec 64) :
    ((x.setMask a m).node b).entries = (x.node b).entries := by
  rw [setMask_node]; split <;> simp_all

@[simp] theorem store_live (slot : XarraySlot) (w : Nat) : (x.store slot w).live = x.live := by
  cases slot <;> rfl

theorem store_entry_node (a i w b : Nat) :
    (x.store (.entry a i) w).node b =
      if b = a then { x.node a with entries := update (x.node a).entries i w }
      else x.node b :=
  update_apply ..

@[simp] theorem store_shift (slot : XarraySlot) (w b : Nat) :
    ((x.store slot w).node b).shift = (x.node b).shift := by
  cases slot with
  | root => rfl
  | entry a i => rw [store_entry_node]; split <;> simp_all

@[simp] theorem store_fullMask (slot : XarraySlot) (w b : Nat) :
    ((x.store slot w).node b).fullMask = (x.node b).fullMask := by
  cases slot with
  | root => rfl
  | entry a i => rw [store_entry_node]; split <;> simp_all

theorem store_entries_of_ne {a i w b : Nat} (h : b ≠ a) :
    ((x.store (.entry a i) w).node b).entries = (x.node b).entries := by
  rw [store_entry_node, if_neg h]

theorem store_entries_same (a i w : Nat) :
    ((x.store (.entry a i) w).node a).entries = update (x.node a).entries i w := by
  rw [store_entry_node, if_pos rfl]

end

end Xarray

variable {L : XarrayLayout} {f g : Nat → Nat} {k p q K a i : Nat} {x x' : Xarray}
  {slot : XarraySlot} {nd : XarrayNode}

namespace Xarray.Nodes

variable (h : x.Nodes L)

include h

/-- Of the nodes only the shifts matter. -/
theorem congr (hlive : x.live ⊆ x'.live)
    (hshift : ∀ b, (x'.node b).shift = (x.node b).shift) : x'.Nodes L :=
  { h with
    live := fun ha => hlive (h.live ha)
    shift := fun ha => by rw [hshift, h.shift ha] }

/-- A new node is none of the old ones. -/
theorem ne_of_notMem (ha : a ∉ x.live) {c : Nat} (hc : L k p = some c) : c ≠ a := by
  intro hca
  rw [hca] at hc
  exact ha (h.live hc)

/-- One more node, with the shift of its level. -/
theorem add (ha : a ∉ x.live) (heven : a % 2 = 0) (hshift : nd.shift = 6 * k) :
    (x.alloc a nd).Nodes (L.add k q a) := by
  refine ⟨forall_add (Finset.mem_insert_self ..) fun hc => Finset.mem_insert_of_mem (h.live hc),
    forall_add heven h.even,
    forall_add (P := fun k' _ c => ((x.alloc a nd).node c).shift = 6 * k') ?_ fun hc => ?_, ?_⟩
  · rw [alloc_node, hshift]
  · rw [alloc_node_of_ne x nd (h.ne_of_notMem ha hc), h.shift hc]
  intro k1 p1 k2 p2 c hadd1 hadd2
  rcases add_eq_some hadd1 with ⟨rfl, rfl, rfl⟩ | ⟨-, h1⟩
  · rcases add_eq_some hadd2 with ⟨rfl, rfl, -⟩ | ⟨-, h2⟩
    · exact ⟨rfl, rfl⟩
    exact absurd rfl (h.ne_of_notMem ha h2)
  rcases add_eq_some hadd2 with ⟨rfl, rfl, rfl⟩ | ⟨-, h2⟩
  · exact absurd rfl (h.ne_of_notMem ha h1)
  exact h.disjoint h1 h2

end Xarray.Nodes

namespace Xarray.Rep

section

variable (h : x.Rep f L K)
include h

/-- Lookups do not depend on masks. -/
theorem setMask (a : Nat) (m : BitVec 64) : (x.setMask a m).Rep f L K :=
  { h with
    toNodes := h.toNodes.congr (Finset.Subset.refl _) (setMask_shift x a · m)
    entry := fun ha => by rw [setMask_entries]; exact h.entry ha }

/-- A block with a node in or below it is not a block without a node. -/
theorem ne_of_above (ha : L k p = some a) {d : Nat} (hd : k + d < K) {r : Nat}
    (hr : L (k + d) r = none) : p / 64 ^ d ≠ r := by
  intro hpr
  obtain ⟨b, hb⟩ := h.ancestor ha hd
  rw [hpr, hr] at hb
  cases hb

/-- **A value is stored** in the slot of one index. -/
theorem store_value (hs : slot.At L K 0 q) {v : Nat} (hv : v % 2 = 0) :
    (x.store slot v).Rep (update f q v) L K := by
  have heven : ∀ j, update f q v j % 2 = 0 := by
    intro j
    rw [update_apply]
    split
    · exact hv
    exact h.value j
  cases slot with
  | root =>
    obtain ⟨rfl, rfl⟩ := hs
    have hnone := h.layout_zero
    refine { h with root := ?_, root_ne := fun h0 => absurd h0 (Nat.lt_irrefl 0), entry := ?_,
                    bound := ?_, value := heven }
    · rfl
    · intro k p a ha
      rw [hnone] at ha
      cases ha
    intro j hj
    rw [update_of_ne (by omega)]
    exact h.bound j (by simpa using hj)
  | entry a i => ?_
  obtain ⟨hi, p, ha, rfl⟩ := hs
  -- the map changes below the leaf only
  have hroot : XarrayEntry L (update f (64 * p + i) v) K 0 x.root := by
    obtain ⟨K, rfl⟩ := Nat.exists_eq_succ_of_ne_zero (Nat.ne_zero_of_lt (h.level_lt ha))
    obtain ⟨b, hb, hr⟩ := h.root_node
    rw [XarrayEntry, hb]
    exact hr
  refine { h with toNodes := ?_, root := hroot, entry := ?_, bound := ?_, value := heven }
  · exact h.toNodes.congr (by rw [store_live]) fun b => store_shift ..
  · intro k' p' b hb i' hi'
    have hent := h.entry hb i' hi'
    cases k' with
    | zero =>
      rw [XarrayEntry] at hent ⊢
      by_cases hba : b = a
      · subst hba
        obtain ⟨-, rfl⟩ := h.disjoint hb ha
        rw [store_entries_same, update_apply, update_apply, hent]
        simp only [Nat.add_left_cancel_iff]
      rw [store_entries_of_ne x hba, hent, update_of_ne]
      intro heq
      obtain ⟨rfl, rfl⟩ := mul_add_inj hi' hi heq
      rw [ha, Option.some.injEq] at hb
      exact hba hb.symm
    | succ k' => ?_
    have hba : b ≠ a := by
      rintro rfl
      exact absurd (h.disjoint hb ha).1 (Nat.succ_ne_zero k')
    rw [store_entries_of_ne x hba]
    rw [XarrayEntry] at hent ⊢
    cases hq : L k' (64 * p' + i') with
    | some c => rw [hq] at hent; exact hent
    | none => ?_
    rw [hq] at hent
    refine ⟨hent.1, fun j hj => ?_⟩
    rw [update_of_ne, hent.2 j hj]
    -- the index lies below an ancestor of the leaf, and this block has no node
    rintro rfl
    have hlt := h.level_lt hb
    refine h.ne_of_above ha (d := k') (by omega) (by rw [Nat.zero_add]; exact hq) ?_
    rw [Nat.add_comm k', div_pow_add, pow_one, mul_add_div_base hi] at hj
    exact hj
  intro j hj
  rw [update_of_ne, h.bound j hj]
  have := h.inside ha
  omega

/-- **A node is linked** in a NULL slot: it has no entries yet. -/
theorem link (hs : slot.At L K (k + 1) q) (h0 : x.fetch slot = 0) (ha : a ∉ x.live)
    (heven : a % 2 = 0) (hshift : nd.shift = 6 * k) (hentries : nd.entries = fun _ => 0) :
    ((x.alloc a nd).store slot (xarrayEntryFromNode a)).Rep f (L.add k q a) K := by
  have hnull := h.fetch hs
  rw [h0] at hnull
  obtain ⟨hnone, hzero⟩ := hnull.of_zero
  have hnone := hnone k rfl
  cases slot with
  | root =>
    -- the root of an array of some levels is not NULL
    obtain ⟨rfl, rfl⟩ := hs
    exact absurd h0 (h.root_ne (Nat.succ_pos k))
  | entry b i => ?_
  obtain ⟨hi, p, hb, rfl⟩ := hs
  have hlt := h.level_lt hb
  have hba := h.ne_of_notMem ha hb
  refine { h with toNodes := ?_, root := ?_, entry := ?_, inside := ?_, parent := ?_ }
  · exact (h.toNodes.add ha heven hshift).congr (by rw [store_live]) fun b => store_shift ..
  · refine h.root.congr (fun k' hk' => L.add_of_ne a ?_) (fun _ _ => rfl)
    omega
  · intro k' p' c hadd i' hi'
    rcases add_eq_some hadd with ⟨rfl, rfl, rfl⟩ | ⟨hkp, hc⟩
    · -- the new node: nothing is below it
      rw [store_entries_of_ne _ hba.symm, alloc_node, hentries]
      cases k' with
      | zero => exact (hzero _ (by rw [pow_one, mul_add_div_base hi'])).symm
      | succ k' => ?_
      rw [XarrayEntry, add_of_ne _ _ (by omega)]
      have hbelow : L k' (64 * (64 * p + i) + i') = none := by
        cases hq : L k' (64 * (64 * p + i) + i') with
        | none => rfl
        | some d =>
          obtain ⟨d', hd'⟩ := h.parent hq (by omega)
          rw [mul_add_div_base hi', hnone] at hd'
          cases hd'
      rw [hbelow]
      exact ⟨rfl, fun j hj => hzero j (div_succ_of_div hi' hj)⟩
    by_cases hcb : c = b
    · subst hcb
      obtain ⟨rfl, rfl⟩ := h.disjoint hc hb
      rw [store_entries_same, alloc_node_of_ne x nd hba, update_apply]
      split
      case isTrue hii =>
        subst hii
        rw [XarrayEntry, add_same]
      case isFalse hii =>
        refine (h.entry hc i' hi').congr (fun k' hk' => L.add_of_ne a ?_) (fun _ _ => rfl)
        omega
    rw [store_entries_of_ne _ hcb, alloc_node_of_ne x nd (h.ne_of_notMem ha hc)]
    refine (h.entry hc i' hi').congr (fun k1 hk1 => L.add_of_ne a ?_) (fun _ _ => rfl)
    -- another node of this level is over another block
    rintro ⟨rfl, heq⟩
    subst hk1
    obtain ⟨rfl, -⟩ := mul_add_inj hi' hi heq
    rw [hb, Option.some.injEq] at hc
    exact hcb hc.symm
  · refine forall_add ?_ h.inside
    calc (64 * p + i + 1) * 64 ^ (k + 1) ≤ (64 * (p + 1)) * 64 ^ (k + 1) :=
          Nat.mul_le_mul_right _ (by omega)
      _ = (p + 1) * 64 ^ (k + 1 + 1) := by rw [pow_succ 64 (k + 1)]; ac_rfl
      _ ≤ 64 ^ K := h.inside hb
  intro k' p' c hadd hK
  rcases add_eq_some hadd with ⟨rfl, rfl, rfl⟩ | ⟨-, hc⟩
  · rw [mul_add_div_base hi, add_of_ne _ _ (by omega)]
    exact ⟨b, hb⟩
  obtain ⟨d, hd⟩ := h.parent hc hK
  by_cases heq : k' + 1 = k ∧ p' / 64 = 64 * p + i
  · exact ⟨a, by rw [add, if_pos heq]⟩
  exact ⟨d, by rw [add_of_ne _ _ heq, hd]⟩

/-- The entries of a node that has been linked are still what they were. -/
theorem fetch_link (hs : slot.At L K (k + 1) q) (h0 : x.fetch slot = 0) (ha : a ∉ x.live)
    (nd : XarrayNode) (i : Nat) :
    ((x.alloc a nd).store slot (xarrayEntryFromNode a)).fetch (.entry a i) = nd.entries i := by
  cases slot with
  | root =>
    obtain ⟨rfl, -⟩ := hs
    exact absurd h0 (h.root_ne (Nat.succ_pos k))
  | entry b i' =>
    obtain ⟨-, p, hb, -⟩ := hs
    have hba : a ≠ b := (h.ne_of_notMem ha hb).symm
    rw [Xarray.fetch, store_entries_of_ne _ hba, alloc_node]

/-- **A node is put over the root**, with the root as its first entry. -/
theorem push (hK : K < 10) (ha : a ∉ x.live) (heven : a % 2 = 0) (hshift : nd.shift = 6 * K)
    (hentries : nd.entries = update (fun _ => 0) 0 x.root) :
    ({ x.alloc a nd with root := xarrayEntryFromNode a }).Rep f (L.add K 0 a) (K + 1) := by
  have hold {k' p' : Nat} (hk' : k' < K) : L.add K 0 a k' p' = L k' p' :=
    L.add_of_ne a fun hkp => absurd hkp.1 hk'.ne
  refine { toNodes := ?_, root := ?_, root_ne := ?_, levels := hK, entry := ?_, inside := ?_,
           parent := ?_, bound := ?_, value := h.value }
  · exact (h.toNodes.add ha heven hshift).congr (Finset.Subset.refl _) fun b => rfl
  · rw [XarrayEntry, add_same]
  · exact fun _ => xarrayEntryFromNode_ne_zero a
  · intro k' p' c hadd i' hi'
    rcases add_eq_some hadd with ⟨rfl, rfl, rfl⟩ | ⟨hkp, hc⟩
    · rw [show ({ x.alloc c nd with root := xarrayEntryFromNode c } : Xarray).node c = nd from
        x.alloc_node c nd, hentries, Nat.zero_add]
      by_cases hi0 : i' = 0
      · subst hi0
        exact h.root.congr (fun k1 hk1 => hold (by omega)) (fun _ _ => rfl)
      -- beyond the old bound there is nothing
      rw [update_of_ne hi0]
      have hbeyond : ∀ j, j / 64 ^ k' = i' → f j = 0 := by
        intro j hj
        refine h.bound j (Nat.le_of_not_lt fun hlt => hi0 ?_)
        rw [← hj, Nat.div_eq_of_lt hlt]
      cases k' with
      | zero => exact (hbeyond i' (by simp)).symm
      | succ k' => ?_
      rw [XarrayEntry, hold (Nat.lt_succ_self k')]
      cases hq : L k' i' with
      | none => exact ⟨rfl, hbeyond⟩
      | some d =>
        have hin := h.inside hq
        have : 64 ^ (k' + 1) * 1 < 64 ^ (k' + 1) * (i' + 1) :=
          Nat.mul_lt_mul_of_pos_left (by omega) (Nat.pow_pos (by decide))
        rw [Nat.mul_comm (i' + 1)] at hin
        omega
    have hlt := h.level_lt hc
    rw [show ({ x.alloc a nd with root := xarrayEntryFromNode a } : Xarray).node c = x.node c from
      x.alloc_node_of_ne nd (h.ne_of_notMem ha hc)]
    exact (h.entry hc i' hi').congr (fun k1 hk1 => hold (by omega)) (fun _ _ => rfl)
  · exact forall_add (Nat.one_mul _).le fun hc =>
      (h.inside hc).trans (Nat.pow_le_pow_right (by decide) (Nat.le_succ K))
  · intro k' p' c hadd hlt
    rcases add_eq_some hadd with ⟨rfl, rfl, rfl⟩ | ⟨-, hc⟩
    · exact absurd hlt (Nat.lt_irrefl _)
    by_cases hk : k' + 1 < K
    · rw [hold hk]
      exact h.parent hc hk
    -- the node was the root
    have hk' : k' + 1 = K := by omega
    have hin := h.inside hc
    have hp : p' = 0 := by
      rw [hk'] at hin
      have hpos := Nat.pow_pos (n := K) (by decide : 0 < 64)
      by_contra hp0
      have : 2 * 64 ^ K ≤ (p' + 1) * 64 ^ K := Nat.mul_le_mul_right _ (by omega)
      omega
    exact ⟨a, by rw [hp, hk', add_same]⟩
  intro j hj
  exact h.bound j ((Nat.pow_le_pow_right (by decide) (Nat.le_succ K)).trans hj)

end

end Xarray.Rep

/-! ## Masks -/

namespace Xarray.MaskOk

section

variable (h : x.MaskOk f L)
include h

/-- Only NULLs spoil a mask. -/
theorem mono (hfg : ∀ j, f j ≠ 0 → g j ≠ 0) : x.MaskOk g L :=
  ⟨fun ha hi hbit j hj => hfg j (h.full ha hi hbit j hj)⟩

/-- A map that gains a value keeps the masks right. -/
theorem update {v : Nat} (hv : v ≠ 0) (q : Nat) : x.MaskOk (update f q v) L := by
  refine h.mono fun j hj => ?_
  rw [update_apply]
  split
  · exact hv
  exact hj

/-- The masks do not depend on the entries. -/
theorem congr (hmask : ∀ {k p a}, L k p = some a → (x'.node a).fullMask = (x.node a).fullMask) :
    x'.MaskOk f L := by
  refine ⟨fun ha hi hbit => ?_⟩
  rw [hmask ha] at hbit
  exact h.full ha hi hbit

theorem store (slot : XarraySlot) (w : Nat) : (x.store slot w).MaskOk f L :=
  h.congr fun _ => store_fullMask ..

/-- Over a full mask there is no NULL. -/
theorem ne_zero_of_allOnes (ha : L k p = some a) (hm : (x.node a).fullMask = BitVec.allOnes 64)
    {j : Nat} (hj : j / 64 ^ (k + 1) = p) : f j ≠ 0 := by
  have hi : j / 64 ^ k % 64 < 64 := Nat.mod_lt _ (by decide)
  refine h.full ha hi ?_ j (div_of_div_succ hj)
  rw [hm, getLsbD_allOnes, decide_eq_true hi]

variable (hx : x.Nodes L)

include hx

/-- A mask may be replaced by one with bits over blocks without a NULL only. -/
theorem setMask (ha : L k p = some a) {m : BitVec 64}
    (hfull : ∀ i < 64, m.getLsbD i = true → ∀ j, j / 64 ^ k = 64 * p + i → f j ≠ 0) :
    (x.setMask a m).MaskOk f L := by
  refine ⟨fun {k' p' b i'} hb hi' hbit => ?_⟩
  rw [setMask_node] at hbit
  split at hbit
  case isTrue hba =>
    subst hba
    obtain ⟨rfl, rfl⟩ := hx.disjoint hb ha
    exact hfull i' hi' hbit
  case isFalse => exact h.full hb hi' hbit

/-- The bit of a block without a NULL may be set. -/
theorem setBit (ha : L k p = some a) (hfull : ∀ j, j / 64 ^ k = 64 * p + i → f j ≠ 0) :
    (x.setMask a ((x.node a).fullMask ||| BitVec.twoPow 64 i)).MaskOk f L := by
  refine h.setMask hx ha fun i' hi' hbit => ?_
  rw [getLsbD_or, getLsbD_twoPow, Bool.or_eq_true, Bool.and_eq_true,
    decide_eq_true_eq, decide_eq_true_eq] at hbit
  rcases hbit with hbit | ⟨-, rfl⟩
  · exact h.full ha hi' hbit
  exact hfull

/-- One more node, with bits set over blocks without a NULL only. -/
theorem add (ha : a ∉ x.live)
    (hfull : ∀ i < 64, nd.fullMask.getLsbD i = true → ∀ j, j / 64 ^ k = 64 * q + i → f j ≠ 0) :
    (x.alloc a nd).MaskOk f (L.add k q a) := by
  refine ⟨fun {k' p' b i'} hadd hi' hbit => ?_⟩
  rcases add_eq_some hadd with ⟨rfl, rfl, rfl⟩ | ⟨-, hb⟩
  · rw [alloc_node] at hbit
    exact hfull i' hi' hbit
  rw [alloc_node_of_ne x nd (hx.ne_of_notMem ha hb)] at hbit
  exact h.full hb hi' hbit

/-- A node over the root; its only bit is that of the old root. -/
theorem push (ha : a ∉ x.live) {full : Bool} (hmask : nd.fullMask = if full then 1 else 0)
    (hfull : full = true → ∀ j < 64 ^ K, f j ≠ 0) : (x.alloc a nd).MaskOk f (L.add K 0 a) := by
  refine h.add hx ha fun i hi hbit j hj => ?_
  rw [hmask] at hbit
  cases full with
  | false => simp at hbit
  | true =>
    obtain rfl : i = 0 := by simpa [getLsbD_one] using hbit
    exact hfull rfl j ((Nat.div_eq_zero_iff_lt (Nat.pow_pos (by decide))).1 hj)

end

end Xarray.MaskOk

end Stanix
