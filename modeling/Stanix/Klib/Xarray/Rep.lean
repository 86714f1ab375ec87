import Stanix.Base.Radix
import Stanix.Klib.Xarray.Basic

/-!
# Arrays laid out in memory

`Xarray.Rep x f L K` says that the tree of `x` holds the map `f` from indices to values. The layout
`L` gives, for a level and a block of indices of that level, the address of the node over that
block: the node of level `k` has the shift `6 * k`, and its entries are the blocks of `64 ^ k`
indices below it. `K` is the number of levels, so the array reaches up to the index `64 ^ K`. The
masks play no role in `Rep`: every write of the code either keeps the map, or stores one value. What
the masks promise is `Xarray.MaskOk`.
-/

namespace Stanix

/-! ## Words -/

theorem xarrayEntryFromNode_eq {a : Nat} (h : a % 2 = 0) : xarrayEntryFromNode a = a + 1 := by
  have h1 : (a ||| 1) / 2 = a / 2 := by rw [Nat.or_div_two]; simp
  have h2 : (a ||| 1) % 2 = 1 := Nat.or_mod_two_eq_one.2 (.inr rfl)
  unfold xarrayEntryFromNode
  omega

theorem xarrayEntryFromNode_ne_zero (a : Nat) : xarrayEntryFromNode a ≠ 0 := by
  have h : (a ||| 1) % 2 = 1 := Nat.or_mod_two_eq_one.2 (.inr rfl)
  intro h0
  unfold xarrayEntryFromNode at h0
  rw [h0] at h
  cases h

theorem xarrayEntryIsValue_of_even {e : Nat} (h : e % 2 = 0) : xarrayEntryIsValue e = true := by
  simp [xarrayEntryIsValue, xarrayEntryIsNode, h]

theorem xarrayEntryIsValue_fromNode {a : Nat} (h : a % 2 = 0) :
    xarrayEntryIsValue (xarrayEntryFromNode a) = false := by
  rw [xarrayEntryFromNode_eq h]
  simp only [xarrayEntryIsValue, xarrayEntryIsNode]
  have : (a + 1) % 2 = 1 := by omega
  simp [this]

theorem xarrayEntryGetNode_fromNode {a : Nat} (h : a % 2 = 0) :
    xarrayEntryGetNode (xarrayEntryFromNode a) = a := by
  rw [xarrayEntryFromNode_eq h, xarrayEntryGetNode, Nat.and_one_is_mod]
  omega

/-- The local index in a node of level `k` is the digit at `k` in base 64. -/
theorem xarrayNodeGetLocalIndex_eq {nd : XarrayNode} {k : Nat} (h : nd.shift = 6 * k)
    (index : Nat) : xarrayNodeGetLocalIndex nd index = index / 64 ^ k % 64 := by
  rw [xarrayNodeGetLocalIndex, h]
  exact Radix.shiftRight_and_mask 6 k index

theorem two_pow_six_mul (k : Nat) : 2 ^ (6 * k) = 64 ^ k := by
  rw [pow_mul]; rfl

/-! ## Layouts -/

/-- For a level and a block, the address of the node over it. -/
abbrev XarrayLayout := Nat → Nat → Option Nat

/-- One more node in a layout. -/
def XarrayLayout.add (L : XarrayLayout) (k p a : Nat) : XarrayLayout :=
  fun k' p' => if k' = k ∧ p' = p then some a else L k' p'

@[simp] theorem XarrayLayout.add_same (L : XarrayLayout) (k p a : Nat) : L.add k p a k p = some a :=
  if_pos ⟨rfl, rfl⟩

theorem XarrayLayout.add_of_ne (L : XarrayLayout) {k p k' p' : Nat} (a : Nat)
    (h : ¬ (k' = k ∧ p' = p)) : L.add k p a k' p' = L k' p' :=
  if_neg h

variable {L : XarrayLayout}

theorem XarrayLayout.add_eq_some {k p a k' p' a' : Nat} (h : L.add k p a k' p' = some a') :
    (k' = k ∧ p' = p ∧ a' = a) ∨ (¬ (k' = k ∧ p' = p) ∧ L k' p' = some a') := by
  by_cases hkp : k' = k ∧ p' = p
  · obtain ⟨rfl, rfl⟩ := hkp
    rw [add_same, Option.some.injEq] at h
    exact .inl ⟨rfl, rfl, h.symm⟩
  rw [add_of_ne _ _ hkp] at h
  exact .inr ⟨hkp, h⟩

theorem XarrayLayout.forall_add {k p a k' p' a' : Nat} {P : Nat → Nat → Nat → Prop} (hnew : P k p a)
    (hold : ∀ {k p a}, L k p = some a → P k p a) (h : L.add k p a k' p' = some a') :
    P k' p' a' := by
  rcases add_eq_some h with ⟨rfl, rfl, rfl⟩ | ⟨-, h⟩
  · exact hnew
  exact hold h

/-- Every node of a layout is in another one. -/
def XarrayLayout.Le (L L' : XarrayLayout) : Prop :=
  ∀ {k p a}, L k p = some a → L' k p = some a

theorem XarrayLayout.le_add {k p : Nat} (h : L k p = none) (a : Nat) : L.Le (L.add k p a) := by
  intro k' p' b hb
  rw [add_of_ne, hb]
  rintro ⟨rfl, rfl⟩
  rw [h] at hb
  cases hb

/-- The word `e` stands for the block `q` of `64 ^ k` indices: a value, the word of the node over
the block, or NULL where there is no node and the map is NULL all over the block. -/
def XarrayEntry (L : XarrayLayout) (f : Nat → Nat) : Nat → Nat → Nat → Prop
  | 0, q, e => e = f q
  | k + 1, q, e =>
    match L k q with
    | some a => e = xarrayEntryFromNode a
    | none => e = 0 ∧ ∀ j, j / 64 ^ (k + 1) = q → f j = 0

variable {L L' : XarrayLayout} {f g : Nat → Nat} {k p q e K : Nat}

theorem XarrayEntry.congr (h : XarrayEntry L f k q e) (hL : ∀ k', k = k' + 1 → L' k' q = L k' q)
    (hf : ∀ j, j / 64 ^ k = q → g j = f j) : XarrayEntry L' g k q e := by
  cases k with
  | zero =>
    rw [XarrayEntry] at h ⊢
    rw [h, hf q (by simp)]
  | succ k => ?_
  rw [XarrayEntry] at h ⊢
  rw [hL k rfl]
  cases hq : L k q with
  | some a => rw [hq] at h; exact h
  | none =>
    rw [hq] at h
    exact ⟨h.1, fun j hj => by rw [hf j hj, h.2 j hj]⟩

theorem XarrayEntry.exists_node (h : XarrayEntry L f (k + 1) q e) (he : e ≠ 0) :
    ∃ a, L k q = some a ∧ e = xarrayEntryFromNode a := by
  rw [XarrayEntry] at h
  cases hq : L k q with
  | some a => rw [hq] at h; exact ⟨a, rfl, h⟩
  | none => rw [hq] at h; exact absurd h.1 he

theorem XarrayEntry.of_zero (h : XarrayEntry L f k q 0) :
    (∀ k', k = k' + 1 → L k' q = none) ∧ ∀ j, j / 64 ^ k = q → f j = 0 := by
  cases k with
  | zero =>
    refine ⟨nofun, fun j hj => ?_⟩
    rw [pow_zero, Nat.div_one] at hj
    rw [hj, ← h]
  | succ k => ?_
  rw [XarrayEntry] at h
  cases hq : L k q with
  | some a => rw [hq] at h; exact absurd h.symm (xarrayEntryFromNode_ne_zero a)
  | none =>
    rw [hq] at h
    refine ⟨fun k' hk' => ?_, h.2⟩
    cases hk'
    exact hq

/-! ## Arrays -/

/-- The nodes of a layout are different live nodes of the shifts of their levels. -/
structure Xarray.Nodes (x : Xarray) (L : XarrayLayout) : Prop where
  live : ∀ {k p a}, L k p = some a → a ∈ x.live
  even : ∀ {k p a}, L k p = some a → a % 2 = 0
  shift : ∀ {k p a}, L k p = some a → (x.node a).shift = 6 * k
  disjoint : ∀ {k p k' p' a}, L k p = some a → L k' p' = some a → k = k' ∧ p = p'

/-- The tree of `x` holds the map `f`, with its nodes where `L` says and with `K` levels. -/
structure Xarray.Rep (x : Xarray) (f : Nat → Nat) (L : XarrayLayout) (K : Nat) : Prop
    extends Xarray.Nodes x L where
  root : XarrayEntry L f K 0 x.root
  root_ne : 0 < K → x.root ≠ 0
  levels : K ≤ 10
  entry : ∀ {k p a}, L k p = some a → ∀ i < 64, XarrayEntry L f k (64 * p + i) ((x.node a).entries i)
  inside : ∀ {k p a}, L k p = some a → (p + 1) * 64 ^ (k + 1) ≤ 64 ^ K
  parent : ∀ {k p a}, L k p = some a → k + 1 < K → ∃ b, L (k + 1) (p / 64) = some b
  bound : ∀ j, 64 ^ K ≤ j → f j = 0
  value : ∀ j, f j % 2 = 0

/-- The slot is the place of the word of the block `q` of `64 ^ k` indices. -/
def XarraySlot.At (L : XarrayLayout) (K : Nat) : XarraySlot → Nat → Nat → Prop
  | .root, k, q => k = K ∧ q = 0
  | .entry a i, k, q => i < 64 ∧ ∃ p, L k p = some a ∧ q = 64 * p + i

/-- A mask bit is set only over a block without a NULL. -/
structure Xarray.MaskOk (x : Xarray) (f : Nat → Nat) (L : XarrayLayout) : Prop where
  full : ∀ {k p a i}, L k p = some a → i < 64 → (x.node a).fullMask.getLsbD i = true →
    ∀ j, j / 64 ^ k = 64 * p + i → f j ≠ 0

namespace Xarray.Rep

variable {x : Xarray} {a i : Nat} {slot : XarraySlot}

theorem level_lt (h : x.Rep f L K) (ha : L k p = some a) : k < K := by
  have h1 := h.inside ha
  have h2 : 64 ^ (k + 1) ≤ 64 ^ K := (Nat.le_mul_of_pos_left _ (Nat.succ_pos p)).trans h1
  exact (Nat.pow_le_pow_iff_right (by decide)).1 h2

theorem ancestor (h : x.Rep f L K) (ha : L k p = some a) {d : Nat} (hd : k + d < K) :
    ∃ b, L (k + d) (p / 64 ^ d) = some b := by
  induction d with
  | zero => exact ⟨a, by simpa using ha⟩
  | succ d ih =>
    obtain ⟨b, hb⟩ := ih (by omega)
    rw [Radix.div_pow_succ]
    exact h.parent hb (by omega)

theorem fetch (h : x.Rep f L K) (hs : slot.At L K k q) : XarrayEntry L f k q (x.fetch slot) := by
  cases slot with
  | root =>
    obtain ⟨rfl, rfl⟩ := hs
    exact h.root
  | entry a i =>
    obtain ⟨hi, p, ha, rfl⟩ := hs
    exact h.entry ha i hi

theorem root_node (h : x.Rep f L (K + 1)) : ∃ a, L K 0 = some a ∧ x.root = xarrayEntryFromNode a :=
  h.root.exists_node (h.root_ne (Nat.succ_pos K))

theorem deref (h : x.Rep f L K) (ha : L k p = some a) : x.deref a = .ok (x.node a) :=
  if_pos (h.live ha)

theorem localIndex (h : x.Rep f L K) (ha : L k p = some a) (index : Nat) :
    xarrayNodeGetLocalIndex (x.node a) index = index / 64 ^ k % 64 :=
  xarrayNodeGetLocalIndex_eq (h.shift ha) index

theorem at_child (ha : L k p = some a) {index : Nat} (hi : index / 64 ^ (k + 1) = p) :
    (XarraySlot.entry a (index / 64 ^ k % 64)).At L K k (index / 64 ^ k) :=
  ⟨Nat.mod_lt _ (by decide), p, ha, Radix.div_of_div_succ hi⟩

theorem layout_zero (h : x.Rep f L 0) (k p : Nat) : L k p = none := by
  cases hq : L k p with
  | none => rfl
  | some a => exact absurd (h.level_lt hq) (Nat.not_lt_zero k)

variable (h : x.Rep f L K)

include h

/-- The first `64 ^ K` indices are below the array's bound. -/
theorem inBound (index : Nat) : xarrayIsInBound x x.root index = .ok (decide (index < 64 ^ K)) := by
  unfold xarrayIsInBound
  cases K with
  | zero =>
    have hv : xarrayEntryIsValue x.root = true := by
      refine xarrayEntryIsValue_of_even ?_
      rw [show x.root = f 0 from h.root]
      exact h.value 0
    rw [if_pos hv, ite_self, pow_zero]
  | succ K => ?_
  obtain ⟨a, ha, hr⟩ := h.root_node
  have hsize : 2 ^ (6 * K + 6) % 2 ^ 64 = 64 ^ (K + 1) := by
    rw [show 6 * K + 6 = 6 * (K + 1) from rfl, Nat.mod_eq_of_lt, two_pow_six_mul]
    have := h.levels
    exact Nat.pow_lt_pow_right (by decide) (by omega)
  rw [if_neg (h.root_ne (Nat.succ_pos K)), hr, xarrayEntryIsValue_fromNode (h.even ha),
    xarrayEntryGetNode_fromNode (h.even ha), h.deref ha, Exec.ok_bind,
    h.shift ha, hsize]
  rfl

/-- **`xarray_raw_get`**, from any word on the way. -/
theorem getLoop {index fuel : Nat} (he : XarrayEntry L f k q e) (hq : index / 64 ^ k = q)
    (hf : k < fuel) : xarrayGetLoop x index fuel e = .ok (f index) := by
  induction k generalizing q e fuel with
  | zero =>
    obtain ⟨fuel, rfl⟩ := Nat.exists_eq_add_one.2 hf.pos
    rw [pow_zero, Nat.div_one] at hq
    rw [← hq] at he
    unfold xarrayGetLoop
    split
    case isTrue h0 => rw [← he, h0]
    case isFalse h0 =>
      rw [if_pos (xarrayEntryIsValue_of_even (by rw [he]; exact h.value index)), he]
  | succ k ih => ?_
  obtain ⟨fuel, rfl⟩ := Nat.exists_eq_add_one.2 hf.pos
  unfold xarrayGetLoop
  by_cases h0 : e = 0
  · subst h0
    rw [if_pos rfl, he.of_zero.2 index hq]
  obtain ⟨a, ha, rfl⟩ := he.exists_node h0
  have hs := at_child (K := K) ha hq
  rw [if_neg h0, xarrayEntryIsValue_fromNode (h.even ha), xarrayEntryGetNode_fromNode (h.even ha), h.deref ha, Exec.ok_bind, h.localIndex ha]
  exact ih (h.fetch hs) rfl (by omega)

/-- **`xarray_get`** answers the map. -/
theorem get {fuel : Nat} (hf : 10 < fuel) (index : Nat) :
    xarrayGet fuel x index = .ok (f index) := by
  unfold xarrayGet
  rw [h.inBound, Exec.ok_bind]
  have hK := h.levels
  by_cases hi : index < 64 ^ K
  · rw [decide_eq_true hi]
    exact h.getLoop h.root (Nat.div_eq_of_lt hi) (by omega)
  rw [decide_eq_false hi, h.bound index (not_lt.1 hi)]
  rfl

end Xarray.Rep

end Stanix
