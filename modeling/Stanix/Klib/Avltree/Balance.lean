import Stanix.Klib.Avltree.Order

/-!
# Balance

Insertion keeps an AVL tree balanced. Removal does not always: `avltree_rebalance` decides on a
double rotation by the balance of the child that was descended into, while after a removal the heavy
side is the other one. `Avl.removeOk` says, on the tree before the removal, that no single rotation
has to be a double one; it holds exactly when the tree stays balanced.
-/

namespace Stanix.Avl

open BinaryTree

variable {ν : Type} {n f t : BinaryTree ν} {e : Side} {a : ν} {res : BinaryTree ν × Bool}

/-! ## `avltree_rebalance` by the side that is too high -/

theorem rebalance_of_le (h1 : n.height ≤ f.height + 1) (h2 : f.height ≤ n.height + 1) :
    rebalance e a n f = join e a n f ∧ offRange n f = false := by
  have hb : (join e a n f).balanceFactor ≠ -2 ∧ (join e a n f).balanceFactor ≠ 2 := by
    cases e <;> simp only [join, balanceFactor_node] <;> omega
  rw [rebalance, if_neg hb.1, if_neg hb.2]
  exact ⟨rfl, by simp only [offRange, Bool.or_eq_false_iff, decide_eq_false_iff_not]; omega⟩

theorem rebalance_near (h : n.height = f.height + 2) :
    rebalance e a n f =
        rotate e (join e a (if n.Leans e.flip then rotate e.flip n else n) f) ∧
      offRange n f = false := by
  refine ⟨?_, by simp only [offRange, Bool.or_eq_false_iff, decide_eq_false_iff_not]; omega⟩
  cases e with
  | left =>
    have hb : (join .left a n f).balanceFactor = -2 := by
      simp only [join, balanceFactor_node]; omega
    rw [rebalance, if_pos hb]; rfl
  | right =>
    have hb : (join .right a n f).balanceFactor = 2 := by
      simp only [join, balanceFactor_node]; omega
    rw [rebalance, if_neg (by rw [hb]; decide), if_pos hb]; rfl

theorem rebalance_far (h : f.height = n.height + 2) (h0 : n.balanceFactor = 0) :
    rebalance e a n f = rotate e.flip (join e.flip a f n) ∧ offRange n f = false := by
  refine ⟨?_, by simp only [offRange, Bool.or_eq_false_iff, decide_eq_false_iff_not]; omega⟩
  cases e with
  | left =>
    have hb : (join .left a n f).balanceFactor = 2 := by
      simp only [join, balanceFactor_node]; omega
    rw [rebalance, if_neg (by rw [hb]; decide), if_pos hb, if_neg (by rw [h0]; decide)]; rfl
  | right =>
    have hb : (join .right a n f).balanceFactor = -2 := by
      simp only [join, balanceFactor_node]; omega
    rw [rebalance, if_pos hb, if_neg (by rw [h0]; decide)]; rfl

/-- After an insertion into a side that is now two higher, and not even, the node is balanced and
one lower than the higher side would make it. -/
theorem balanced_rebalance_near (h : n.height = f.height + 2) (hn : n.Balanced) (hf : f.Balanced)
    (h0 : n.balanceFactor ≠ 0) :
    (rebalance e a n f).Balanced ∧ (rebalance e a n f).height = n.height := by
  rw [(rebalance_near h).1]
  obtain ⟨b, n1, n2, rfl⟩ : ∃ b n1 n2, n = join e b n1 n2 := by
    cases n with
    | nil => simp at h
    | node b l r => exact ⟨b, node_eq_join e b l r⟩
  simp only [balanced_join, height_join] at hn h ⊢
  rw [ne_eq, balanceFactor_join_eq_zero] at h0
  split
  case isTrue hlean =>
    rw [leans_flip_join] at hlean
    obtain ⟨c, m1, m2, rfl⟩ : ∃ c m1 m2, n2 = join e.flip c m1 m2 := by
      cases n2 with
      | nil => simp at hlean
      | node c l r => exact ⟨c, node_eq_join e.flip c l r⟩
    rw [← join_flip e b, rotate_join, Side.flip_flip, join_flip, rotate_join]
    simp only [balanced_join, height_join] at hn h hlean ⊢
    exact ⟨⟨by omega, ⟨by omega, hn.2.1, hn.2.2.2.2⟩, ⟨by omega, hf, hn.2.2.2.1⟩⟩, by omega⟩
  case isFalse hlean =>
    rw [leans_flip_join] at hlean
    rw [rotate_join]
    simp only [balanced_join, height_join]
    exact ⟨⟨by omega, hn.2.1, ⟨by omega, hf, hn.2.2⟩⟩, by omega⟩

/-- After a removal that leaves the other side two higher, the node is balanced exactly when that
side does not lean back. -/
theorem rebalance_far_cases (h : f.height = n.height + 2) (h0 : n.balanceFactor = 0)
    (hn : n.Balanced) (hf : f.Balanced) :
    (¬ f.Leans e → (rebalance e a n f).Balanced ∧
      (f.balanceFactor = 0 → (rebalance e a n f).height = f.height + 1) ∧
      (f.balanceFactor ≠ 0 → (rebalance e a n f).height = f.height ∧
        (rebalance e a n f).balanceFactor = 0)) ∧
    (f.Leans e → ¬ (rebalance e a n f).Balanced ∧ (rebalance e a n f).height = f.height + 1) := by
  rw [(rebalance_far h h0).1]
  obtain ⟨b, outer, inner, rfl⟩ : ∃ b outer inner, f = join e.flip b outer inner := by
    cases f with
    | nil => simp at h
    | node b l r => exact ⟨b, node_eq_join e.flip b l r⟩
  have hlean : (join e.flip b outer inner).Leans e ↔ outer.height < inner.height := by
    rw [← join_flip, Side.flip_flip, leans_join]
  rw [rotate_join, hlean]
  simp only [balanced_join, height_join, ne_eq, balanceFactor_join_eq_zero] at hf h ⊢
  refine ⟨fun hle => ⟨⟨by omega, hf.2.1, by omega, hn, hf.2.2⟩, fun _ => by omega, fun _ => by omega⟩,
    fun hlt => ⟨fun hb => by omega, by omega⟩⟩

/-! ## Insertion -/

/-- The tree `t'` is balanced and at most one higher than `t`; where it is higher, it leans, unless
`t` was empty. -/
structure Grown (t t' : BinaryTree ν) : Prop where
  balanced : t'.Balanced
  height : t'.height = t.height ∨
    t'.height = t.height + 1 ∧ (t = .nil ∨ t'.balanceFactor ≠ 0)

theorem Grown.rebalance {n' : BinaryTree ν} (hb : (join e a n f).Balanced) (h : Grown n n') :
    Grown (join e a n f) (rebalance e a n' f) ∧ offRange n' f = false := by
  obtain ⟨⟨h1, h2⟩, hn, hf⟩ := (balanced_join ..).1 hb
  by_cases hh : n'.height = f.height + 2
  · have hlean : n'.balanceFactor ≠ 0 := by
      rcases h.height with h3 | ⟨h3, rfl | h4⟩
      · omega
      · rw [BinaryTree.height] at h3; omega
      exact h4
    obtain ⟨h5, h6⟩ := balanced_rebalance_near (e := e) (a := a) hh h.balanced hf hlean
    refine ⟨⟨h5, .inl ?_⟩, (rebalance_near (e := e) (a := a) hh).2⟩
    have := h.height
    rw [height_join]; omega
  have := h.height
  obtain ⟨h3, h4⟩ := rebalance_of_le (e := e) (a := a) (n := n') (f := f) (by omega) (by omega)
  refine ⟨⟨?_, ?_⟩, h4⟩
  · rw [h3, balanced_join]
    exact ⟨by omega, h.balanced, hf⟩
  simp only [h3, height_join, ne_eq, balanceFactor_join_eq_zero]; omega

/-- **Insertion keeps the balance**, and never takes the `default:` branch. -/
theorem grown_insert (cmp : ν → ν → Ordering) (x : ν) (h : t.Balanced) :
    Grown t (insert cmp x t) ∧ insertOffRange cmp x t = false := by
  induction t with
  | nil => exact ⟨⟨by simp [insert], .inr ⟨by simp [insert], .inl rfl⟩⟩, rfl⟩
  | node a l r ihl ihr => ?_
  obtain ⟨hl, hr⟩ := h.2
  have right : Grown (node a l r) (rebalance .right a (insert cmp x r) l) ∧
      (insertOffRange cmp x r || offRange (insert cmp x r) l) = false := by
    obtain ⟨h1, h2⟩ := (ihr hr).1.rebalance (e := .right) (a := a) (f := l) h
    exact ⟨h1, by rw [(ihr hr).2, h2]; rfl⟩
  rw [insert, insertOffRange]
  split
  · obtain ⟨h1, h2⟩ := (ihl hl).1.rebalance (e := .left) (a := a) (f := r) h
    exact ⟨h1, by rw [(ihl hl).2, h2]; rfl⟩
  all_goals exact right

/-! ## Removal -/

/-- One node on the way down of a removal: the side it goes to, the subtree there and the other
one. -/
structure PathStep (ν : Type) where
  side : Side
  near : BinaryTree ν
  far : BinaryTree ν

/-- The way down of a removal, to the node itself or, where that one has two children, on to the
leftmost node of its right subtree. -/
def removalPath (cmp : ν → ν → Ordering) [DecidableEq ν] : BinaryTree ν → ν → List (PathStep ν)
  | .nil, _ => []
  | .node a l r, x =>
    match cmp x a with
    | .lt => ⟨.left, l, r⟩ :: removalPath cmp l x
    | .gt => ⟨.right, r, l⟩ :: removalPath cmp r x
    | .eq =>
      if a ≠ x then ⟨.right, r, l⟩ :: removalPath cmp r x
      else if r = .nil ∨ l = .nil then []
      else ⟨.right, r, l⟩ :: removalPath cmp r (r.leftmostD a)

/-- A balanced tree gets lower by the removal at the end of a path: at every node of the path the
subtree there was the higher one, or the other one was and does not stand even. -/
def shrinks (path : List (PathStep ν)) : Bool :=
  path.all fun s => s.far.height < s.near.height ∨
    (s.near.height < s.far.height ∧ s.far.balanceFactor ≠ 0)

theorem shrinks_cons {s : PathStep ν} {path : List (PathStep ν)} :
    shrinks (s :: path) = true ↔ shrinks path = true ∧ (s.far.height < s.near.height ∨
      (s.near.height < s.far.height ∧ s.far.balanceFactor ≠ 0)) := by
  simp only [shrinks, List.all_cons, Bool.and_eq_true, decide_eq_true_eq]
  exact and_comm

/-- At no node of the path a subtree gets lower next to a higher one that leans back to it. -/
def removeOk : List (PathStep ν) → Bool
  | [] => true
  | s :: path =>
    removeOk path && !(shrinks path && s.near.height < s.far.height && s.far.Leans s.side)

theorem removeOk_cons {s : PathStep ν} {path : List (PathStep ν)} :
    removeOk (s :: path) = true ↔ removeOk path = true ∧
      (shrinks path = true → s.near.height < s.far.height → ¬ s.far.Leans s.side) := by
  simp only [removeOk, Bool.and_eq_true, Bool.not_eq_true', Bool.and_eq_false_iff,
    decide_eq_false_iff_not]
  grind

/-- What a removal leaves of a balanced tree `t`, by its path: when all is well a balanced tree, one
lower and then even if the path shrinks; and otherwise a tree of the same height that is not
balanced. -/
structure Shrunk (t : BinaryTree ν) (path : List (PathStep ν)) (res : BinaryTree ν × Bool) :
    Prop where
  balanced : removeOk path = true → res.1.Balanced ∧ res.2 = false
  lower : removeOk path = true → shrinks path = true →
    res.1.height + 1 = t.height ∧ res.1.balanceFactor = 0
  same : removeOk path = true → shrinks path = false → res.1.height = t.height
  not_balanced : removeOk path = false → ¬ res.1.Balanced ∧ res.1.height = t.height

/-- One level of the way back up of a removal; the value at the node may have been replaced. -/
theorem Shrunk.ascend {b : ν} {path : List (PathStep ν)} (hb : (join e a n f).Balanced)
    (h : Shrunk n path res) : Shrunk (join e a n f) (⟨e, n, f⟩ :: path) (ascend e b f res) := by
  obtain ⟨⟨h1, h2⟩, hn, hf⟩ := (balanced_join ..).1 hb
  cases hok : removeOk path with
  | false =>
    -- further down all is lost already: this subtree keeps its height
    obtain ⟨h3, h4⟩ := h.not_balanced hok
    have hno : removeOk (⟨e, n, f⟩ :: path) = false := by rw [removeOk, hok]; rfl
    refine ⟨by simp [hno], by simp [hno], by simp [hno], fun _ => ?_⟩
    rw [Avl.ascend, (rebalance_of_le (by omega) (by omega)).1, balanced_join, height_join,
      height_join, h4]
    exact ⟨fun h => h3 h.2.1, rfl⟩
  | true => ?_
  obtain ⟨h3, h4⟩ := h.balanced hok
  have level (hh : res.1.height ≤ f.height + 1) (hh' : f.height ≤ res.1.height + 1) :
      Avl.ascend e b f res = (join e b res.1 f, false) := by
    obtain ⟨h5, h6⟩ := rebalance_of_le (e := e) (a := b) hh hh'
    rw [Avl.ascend, h5, h6, h4]; rfl
  cases hsh : shrinks path with
  | false =>
    have h5 := h.same hok hsh
    have hs : shrinks (⟨e, n, f⟩ :: path) = false := by
      rw [Bool.eq_false_iff, ne_eq, shrinks_cons, hsh]; simp
    have ho : removeOk (⟨e, n, f⟩ :: path) = true := by simp [removeOk_cons, hok, hsh]
    rw [level (by omega) (by omega)]
    refine ⟨fun _ => ⟨(balanced_join ..).2 ⟨by omega, h3, hf⟩, rfl⟩, by simp [hs], fun _ _ => ?_,
      by simp [ho]⟩
    rw [height_join, height_join, h5]
  | true => ?_
  obtain ⟨h5, h6⟩ := h.lower hok hsh
  rcases lt_trichotomy n.height f.height with hlt | heq | hgt
  · -- the other side is two higher now, and is rotated up
    have hs : shrinks (⟨e, n, f⟩ :: path) = true ↔ f.balanceFactor ≠ 0 := by
      rw [shrinks_cons]; simp only [hsh, true_and]; omega
    have ho : removeOk (⟨e, n, f⟩ :: path) = true ↔ ¬ f.Leans e := by
      simp [removeOk_cons, hok, hsh, hlt]
    obtain ⟨hgood, hbad⟩ := rebalance_far_cases (e := e) (a := b) (by omega) h6 h3 hf
    have hoff := (rebalance_far (e := e) (a := b) (f := f) (by omega) h6).2
    rw [Avl.ascend, hoff, h4]
    refine ⟨fun hr => ⟨(hgood (ho.1 hr)).1, rfl⟩, fun hr hs' => ?_, fun hr hs' => ?_, fun hr => ?_⟩
    · obtain ⟨h7, h8⟩ := (hgood (ho.1 hr)).2.2 (hs.1 hs')
      refine ⟨?_, h8⟩
      rw [height_join, h7]; omega
    · rw [← Bool.not_eq_true, hs, not_not] at hs'
      rw [(hgood (ho.1 hr)).2.1 hs', height_join]; omega
    rw [← Bool.not_eq_true, ho, not_not] at hr
    refine ⟨(hbad hr).1, ?_⟩
    rw [(hbad hr).2, height_join]; omega
  · have hs : shrinks (⟨e, n, f⟩ :: path) = false := by
      rw [Bool.eq_false_iff, ne_eq, shrinks_cons]; simp only; omega
    have ho : removeOk (⟨e, n, f⟩ :: path) = true := by simp [removeOk_cons, hok, heq]
    rw [level (by omega) (by omega)]
    refine ⟨fun _ => ⟨(balanced_join ..).2 ⟨by omega, h3, hf⟩, rfl⟩, by simp [hs], fun _ _ => ?_,
      by simp [ho]⟩
    rw [height_join, height_join]; omega
  have hs : shrinks (⟨e, n, f⟩ :: path) = true := by simp [shrinks_cons, hsh, hgt]
  have ho : removeOk (⟨e, n, f⟩ :: path) = true := by
    simp only [removeOk_cons, hok, true_and]; omega
  rw [level (by omega) (by omega)]
  refine ⟨fun _ => ⟨(balanced_join ..).2 ⟨by omega, h3, hf⟩, rfl⟩,
    fun _ _ => ⟨?_, balanceFactor_join_eq_zero.2 (by omega)⟩, by simp [hs], by simp [ho]⟩
  rw [height_join, height_join]; omega

/-- **Removal** leaves a balanced tree exactly where `removeOk` says so. -/
theorem shrunk_remove {cmp : ν → ν → Ordering} [DecidableEq ν] {x : ν} (hb : t.Balanced)
    (h : remove cmp t x = .ok (some res)) : Shrunk t (removalPath cmp t x) res := by
  induction t generalizing x res with
  | nil => cases h
  | node a l r ihl ihr => ?_
  have ⟨hlr, hl, hr⟩ := hb
  have here {s : BinaryTree ν} (hs : s.Balanced) (hh : s.height + 1 = (node a l r).height)
      (h0 : s.height ≤ 1) : Shrunk (node a l r) [] (s, false) := by
    refine ⟨fun _ => ⟨hs, rfl⟩, fun _ _ => ⟨hh, ?_⟩, nofun, nofun⟩
    cases s with
    | nil => rfl
    | node b sl sr => simp only [BinaryTree.height, balanceFactor_node] at h0 ⊢; omega
  rw [removalPath]
  cases removedAt_of_remove cmp h with
  | left hc h1 =>
    rw [hc]
    exact (ihl hl h1).ascend (e := .left) hb
  | right hc hne h1 =>
    cases hc' : cmp x a with
    | lt => exact absurd hc' hc
    | gt => exact (ihr hr h1).ascend (e := .right) hb
    | eq =>
      rw [if_pos (hne hc')]
      exact (ihr hr h1).ascend (e := .right) hb
  | noRight hc hax hrn =>
    subst hrn hax
    simp only [hc, ne_eq, true_or, if_true]
    simp only [BinaryTree.height] at hlr here
    exact here hl (by omega) (by omega)
  | noLeft hc hax _ hln =>
    subst hln hax
    simp only [hc, ne_eq, or_true, if_true]
    simp only [BinaryTree.height] at hlr here
    exact here hr (by omega) (by omega)
  | both hc hax hrn hln h1 =>
    subst hax
    simp only [hc, ne_eq, if_false, hrn, hln, or_self]
    exact (ihr hr h1).ascend (e := .right) hb

end Stanix.Avl
