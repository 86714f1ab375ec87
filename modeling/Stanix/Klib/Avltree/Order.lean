import Stanix.Klib.Avltree.Refine

/-!
# Search trees ordered by their comparison

With a comparison that is a strict total order, the walk of the trees that `Avl.insert` and
`Avl.remove` compute stays ascending, and `Avl.remove` finds every node of the tree, the leftmost
node of a right subtree among them.
-/

namespace Stanix

open List BinaryTree

variable {ν κ δ : Type} {ops : AvltreeOps ν κ δ}

/-- The node `a` comes before the node `b`. -/
def AvltreeOps.Lt (ops : AvltreeOps ν κ δ) (a b : ν) : Prop :=
  ops.compareNodes a b < 0

/-- The comparison of nodes is a strict total order: it answers zero for a node and itself only, and
two nodes compared the other way round compare the other way. -/
structure AvltreeOps.StrictOrder (ops : AvltreeOps ν κ δ) : Prop where
  zero_iff : ∀ a b, ops.compareNodes a b = 0 ↔ a = b
  neg_iff : ∀ a b, ops.compareNodes a b < 0 ↔ 0 < ops.compareNodes b a
  trans : ∀ a b c, ops.compareNodes a b < 0 → ops.compareNodes b c < 0 → ops.compareNodes a c < 0

/-- The comparison of nodes is a strict total order on the nodes of a list. -/
structure AvltreeOps.OrderOn (ops : AvltreeOps ν κ δ) (xs : List ν) : Prop where
  zero_iff : ∀ a ∈ xs, ∀ b ∈ xs, ops.compareNodes a b = 0 ↔ a = b
  neg_iff : ∀ a ∈ xs, ∀ b ∈ xs, ops.compareNodes a b < 0 ↔ 0 < ops.compareNodes b a
  trans : ∀ a ∈ xs, ∀ b ∈ xs, ∀ c ∈ xs, ops.compareNodes a b < 0 → ops.compareNodes b c < 0 →
    ops.compareNodes a c < 0

/-- The comparison of nodes is a total preorder: a node may compare equal to other ones. -/
structure AvltreeOps.TotalPreorder (ops : AvltreeOps ν κ δ) : Prop where
  refl : ∀ a, ops.compareNodes a a = 0
  neg_iff : ∀ a b, ops.compareNodes a b < 0 ↔ 0 < ops.compareNodes b a
  trans : ∀ a b c, ops.compareNodes a b ≤ 0 → ops.compareNodes b c ≤ 0 → ops.compareNodes a c ≤ 0

/-- A comparison that answers `lt` is a negative one. -/
theorem avltreeCompareNodes_lt {a b : ν} : avltreeCompareNodes ops a b = .lt ↔ ops.Lt a b :=
  sign_eq_lt

namespace AvltreeOps.StrictOrder

variable (h : ops.StrictOrder)

include h

theorem irrefl (a : ν) : ¬ ops.Lt a a := by
  rw [Lt, (h.zero_iff a a).2 rfl]; exact lt_irrefl _

theorem nodup {xs : List ν} (hs : xs.Pairwise ops.Lt) : xs.Nodup :=
  hs.imp fun hab => by rintro rfl; exact h.irrefl _ hab

/-- An order of all nodes is one of the nodes of any list. -/
theorem on (xs : List ν) : ops.OrderOn xs :=
  ⟨fun a _ b _ => h.zero_iff a b, fun a _ b _ => h.neg_iff a b, fun a _ b _ c _ => h.trans a b c⟩

/-- A strict order is a total preorder. -/
theorem totalPreorder : ops.TotalPreorder where
  refl a := (h.zero_iff a a).2 rfl
  neg_iff := h.neg_iff
  trans a b c hab hbc := by
    rcases hab.lt_or_eq with hab | hab
    · rcases hbc.lt_or_eq with hbc | hbc
      · exact (h.trans a b c hab hbc).le
      exact (h.zero_iff b c).1 hbc ▸ hab.le
    rwa [(h.zero_iff a b).1 hab]

end AvltreeOps.StrictOrder

theorem AvltreeOps.TotalPreorder.on (h : ops.TotalPreorder) {xs : List ν}
    (hxs : xs.Pairwise fun a b => ops.compareNodes a b ≠ 0) : ops.OrderOn xs where
  zero_iff a ha b hb := by
    refine ⟨?_, by rintro rfl; exact h.refl a⟩
    refine Pairwise.forall_of_forall_of_flip (R := fun a b => ops.compareNodes a b = 0 → a = b)
      (fun _ _ _ => rfl) (hxs.imp fun hne heq => absurd heq hne)
      (hxs.imp fun {a b} hne heq => ?_) ha hb
    have h1 := h.neg_iff a b
    have h2 := h.neg_iff b a
    omega
  neg_iff a _ b _ := h.neg_iff a b
  trans a _ b _ c _ hab hbc := by
    -- were the third node not above the first one, neither would be the second
    by_contra hac
    have hca : ops.compareNodes c a ≤ 0 := not_lt.1 (mt (h.neg_iff a c).2 hac)
    exact absurd (h.trans b c a hbc.le hca) (not_le.2 ((h.neg_iff a b).1 hab))

namespace AvltreeOps.OrderOn

variable {xs ys : List ν} {a b : ν} (h : ops.OrderOn xs)

include h

theorem subset (hs : ys ⊆ xs) : ops.OrderOn ys :=
  ⟨fun a ha b hb => h.zero_iff a (hs ha) b (hs hb), fun a ha b hb => h.neg_iff a (hs ha) b (hs hb),
    fun a ha b hb c hc => h.trans a (hs ha) b (hs hb) c (hs hc)⟩

theorem compare_eq (ha : a ∈ xs) (hb : b ∈ xs) : avltreeCompareNodes ops a b = .eq ↔ a = b :=
  sign_eq_eq.trans (h.zero_iff a ha b hb)

theorem compare_gt (ha : a ∈ xs) (hb : b ∈ xs) : avltreeCompareNodes ops a b = .gt ↔ ops.Lt b a :=
  sign_eq_gt.trans (h.neg_iff b hb a ha).symm

theorem nodup (hs : xs.Pairwise ops.Lt) : xs.Nodup := by
  refine hs.imp_of_mem fun {a b} ha hb hab => ?_
  rintro rfl
  rw [Lt, (h.zero_iff a ha a ha).2 rfl] at hab
  exact lt_irrefl _ hab

end AvltreeOps.OrderOn

namespace Avl

/-- An ascending walk, split at a node. -/
theorem pairwise_node {R : ν → ν → Prop} {a : ν} {l r : BinaryTree ν} :
    (node a l r).inorder.Pairwise R ↔
      l.inorder.Pairwise R ∧ r.inorder.Pairwise R ∧ (∀ x ∈ l.inorder, R x a) ∧
        (∀ y ∈ r.inorder, R a y) ∧ ∀ x ∈ l.inorder, ∀ y ∈ r.inorder, R x y := by
  simp only [inorder_node, pairwise_append, pairwise_cons]
  grind

/-- Insertion of a new node keeps the walk ascending. -/
theorem pairwise_insert_on {x : ν} {t : BinaryTree ν} (h : ops.OrderOn (x :: t.inorder))
    (hx : x ∉ t.inorder) (ht : t.inorder.Pairwise ops.Lt) :
    (insert (avltreeCompareNodes ops) x t).inorder.Pairwise ops.Lt := by
  induction t with
  | nil => exact pairwise_singleton _ _
  | node a l r ihl ihr => ?_
  obtain ⟨hl, hr, hla, har, hlr⟩ := pairwise_node.1 ht
  have hxm : x ∈ x :: (node a l r).inorder := mem_cons_self
  have ham : a ∈ x :: (node a l r).inorder := by simp
  have hlm : l.inorder ⊆ (node a l r).inorder := fun y hy => by simp [hy]
  have hrm : r.inorder ⊆ (node a l r).inorder := fun y hy => by simp [hy]
  have ol := h.subset (cons_subset_cons x hlm)
  have or := h.subset (cons_subset_cons x hrm)
  simp only [inorder_node, mem_append, mem_cons, not_or] at hx
  have mem {s : BinaryTree ν} {y : ν}
      (hy : y ∈ (insert (avltreeCompareNodes ops) x s).inorder) : y = x ∨ y ∈ s.inorder :=
    mem_cons.1 ((inorder_insert_perm _ x s).mem_iff.1 hy)
  have right (hax : ops.Lt a x) :
      (rebalance .right a (insert (avltreeCompareNodes ops) x r) l).inorder.Pairwise ops.Lt := by
    rw [inorder_rebalance, join_right, pairwise_node]
    refine ⟨hl, ihr or hx.2.2 hr, hla, fun y hy => ?_, fun y hy z hz => ?_⟩
    · rcases mem hy with rfl | hy
      exacts [hax, har y hy]
    rcases mem hz with rfl | hz
    exacts [h.trans _ (mem_cons_of_mem _ (hlm hy)) _ ham _ hxm (hla y hy) hax, hlr y hy z hz]
  rw [insert]
  split
  case h_1 hc =>
    have hxa := avltreeCompareNodes_lt.1 hc
    rw [inorder_rebalance, join_left, pairwise_node]
    refine ⟨ihl ol hx.1 hl, hr, fun y hy => ?_, har, fun y hy z hz => ?_⟩
    · rcases mem hy with rfl | hy
      exacts [hxa, hla y hy]
    rcases mem hy with rfl | hy
    exacts [h.trans _ hxm _ ham _ (mem_cons_of_mem _ (hrm hz)) hxa (har z hz), hlr y hy z hz]
  case h_2 hc => exact absurd ((h.compare_eq hxm ham).1 hc) hx.2.1
  case h_3 hc => exact right ((h.compare_gt hxm ham).1 hc)

/-- Removal finds every node of an ordered tree. -/
theorem exists_remove_on [DecidableEq ν] {x : ν} {t : BinaryTree ν} (h : ops.OrderOn t.inorder)
    (hx : x ∈ t.inorder) (ht : t.inorder.Pairwise ops.Lt) :
    ∃ res, remove (avltreeCompareNodes ops) t x = .ok (some res) := by
  induction t generalizing x with
  | nil => cases hx
  | node a l r ihl ihr => ?_
  obtain ⟨hl, hr, hla, har, hlr⟩ := pairwise_node.1 ht
  have ham : a ∈ (node a l r).inorder := by simp
  have hxm := hx
  have ol := h.subset (fun y hy => by simp [hy] : l.inorder ⊆ _)
  have or := h.subset (fun y hy => by simp [hy] : r.inorder ⊆ _)
  rw [inorder_node, mem_append, mem_cons] at hx
  rw [remove]
  rcases hx with hx | rfl | hx
  · obtain ⟨res, hres⟩ := ihl ol hx hl
    rw [avltreeCompareNodes_lt.2 (hla x hx), hres]
    exact ⟨_, rfl⟩
  · rw [(h.compare_eq ham ham).2 rfl]
    simp only [ne_eq, not_true_eq_false, if_false]
    split
    · exact ⟨_, rfl⟩
    split
    · exact ⟨_, rfl⟩
    rename_i hrn _
    have hm : r.leftmostD x ∈ r.inorder := by
      cases r with
      | nil => exact absurd rfl hrn
      | node b rl rr => exact leftmostD_mem b rl rr x
    obtain ⟨res, hres⟩ := ihr or hm hr
    rw [hres]
    exact ⟨_, rfl⟩
  obtain ⟨res, hres⟩ := ihr or hx hr
  rw [(h.compare_gt hxm ham).2 (har x hx), hres]
  exact ⟨_, rfl⟩

theorem remove_eq_none [DecidableEq ν] {cmp : ν → ν → Ordering} {x : ν} {t : BinaryTree ν}
    (hx : x ∉ t.inorder) : remove cmp t x = .ok none := by
  induction t with
  | nil => rfl
  | node a l r ihl ihr =>
    simp only [inorder_node, mem_append, mem_cons, not_or] at hx
    rw [remove, ihl hx.1, ihr hx.2.2, if_pos (Ne.symm hx.2.1)]
    split <;> rfl

end Avl

end Stanix
