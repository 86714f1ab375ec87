import Stanix.Klib.Avltree.Order
import Mathlib.Data.List.Chain

/-!
# Iteration and lookups

On a memory that holds a tree, `avltree_first` and `avltree_next` follow the in-order walk, and the
two lookups answer as a search through the walk would, for every comparison of a key with the nodes
that is monotone along it.
-/

namespace Stanix

open BinaryTree List

variable {ν κ δ : Type} {ops : AvltreeOps ν κ δ} {t : Avltree ν δ} {tr : BinaryTree ν}
  {m : ν → AvltreeNode ν} {par : Option ν} {fuel : Nat}

/-- The tree a memory spells out below a pointer, as far down as `fuel` goes. -/
def Avltree.treeAt (m : ν → AvltreeNode ν) : Nat → Option ν → BinaryTree ν
  | 0, _ => .nil
  | _ + 1, none => .nil
  | fuel + 1, some n => .node n (treeAt m fuel (m n).left) (treeAt m fuel (m n).right)

/-- The tree a memory spells out below the root pointer. -/
def Avltree.toTree (fuel : Nat) (t : Avltree ν δ) : BinaryTree ν :=
  Avltree.treeAt t.node fuel t.root

theorem Rep.treeAt (h : Rep m par tr) (hf : tr.height ≤ fuel) :
    Avltree.treeAt m fuel tr.root? = tr := by
  induction tr generalizing par fuel with
  | nil => cases fuel <;> rfl
  | node a l r ihl ihr => ?_
  obtain ⟨-, h2, h3, -, h5, h6⟩ := h
  cases fuel with
  | zero => simp at hf
  | succ fuel =>
    have hh : l.height ≤ fuel ∧ r.height ≤ fuel := by
      simp only [BinaryTree.height] at hf; omega
    rw [root?_node, Avltree.treeAt, h2, h3, ihl h5 hh.1, ihr h6 hh.2]

theorem Rep.parent_of_child (h : Rep m par tr) {n c : ν} {d : Side} (hn : n ∈ tr.inorder)
    (hc : (m n).child d = some c) : (m c).parent = some n := by
  induction tr generalizing par with
  | nil => cases hn
  | node a l r ihl ihr => ?_
  obtain ⟨-, h2, h3, -, h5, h6⟩ := h
  have root {s : BinaryTree ν} (hs : Rep m (some a) s) (hr : s.root? = some c) :
      (m c).parent = some a := by
    cases s with
    | nil => cases hr
    | node b sl sr => cases hr; exact hs.1
  rw [inorder_node, mem_append, mem_cons] at hn
  rcases hn with hn | rfl | hn
  · exact ihl h5 hn
  · cases d with
    | left => exact root h5 (h2.symm.trans hc)
    | right => exact root h6 (h3.symm.trans hc)
  exact ihr h6 hn

/-- **`avltree_first`** answers the first node of the walk. -/
theorem Rep.first (h : Rep t.node none tr) (hroot : t.root = tr.root?) (hf : tr.inorder.length < fuel) :
    avltreeFirst fuel t = .ok tr.inorder.head? := by
  rw [avltreeFirst, hroot]
  cases tr with
  | nil =>
    cases fuel with
    | zero => cases hf
    | succ fuel => rfl
  | node a l r =>
    obtain ⟨xs, hxs⟩ := inorder_eq_leftmostD_cons a l r a
    have hh := (node a l r).height_le_length_inorder.trans_lt hf
    rw [root?_node, h.leftestSubnode a hh.le, hxs, head?_cons]

/-! ## `avltree_next` -/

section Next

variable [DecidableEq ν] {tr : BinaryTree ν} {par : Option ν} {fuel : Nat}

/-- From the last node of a subtree, `avltree_next` climbs to the subtree's root. -/
theorem Rep.nextUp_last {a : ν} {l r : BinaryTree ν} (h : Rep t.node par (node a l r)) {z : ν}
    (hz : (node a l r).inorder.getLast? = some z) :
    (t.node z).right = none ∧ ∃ k ≤ r.height, ∀ fuel,
      avltreeNextUp t (fuel + k) z (t.node z).parent = avltreeNextUp t fuel a par := by
  induction r generalizing par a l with
  | nil =>
    obtain ⟨h1, -, h3, -⟩ := h
    simp only [inorder_node, inorder_nil, getLast?_append_cons, getLast?_singleton,
      Option.some.injEq] at hz
    subst hz
    exact ⟨h3, 0, le_rfl, fun fuel => by rw [h1]; rfl⟩
  | node b rl rr _ ihr => ?_
  obtain ⟨h1, -, h3, -, -, h6⟩ := h
  have hz' : (node b rl rr).inorder.getLast? = some z := by
    rw [inorder_node, getLast?_append_cons, getLast?_cons] at hz
    rw [← hz]
    cases hg : (node b rl rr).inorder.getLast? with
    | none => simp at hg
    | some y => rfl
  obtain ⟨hr, k, hk, hup⟩ := ihr h6 hz'
  refine ⟨hr, k + 1, by simp only [BinaryTree.height]; omega, fun fuel => ?_⟩
  rw [show fuel + (k + 1) = fuel + 1 + k by omega, hup, avltreeNextUp, h3, root?_node, if_pos rfl,
    h1]

/-- **`avltree_next`** goes from each node of a subtree to the one after it in the walk. -/
theorem Rep.isChain_next (h : Rep t.node par tr) (hnd : tr.inorder.Nodup) (hf : tr.height < fuel) :
    tr.inorder.IsChain fun x y => avltreeNext fuel t (some x) = .ok (some y) := by
  induction tr generalizing par with
  | nil => exact .nil
  | node a l r ihl ihr => ?_
  obtain ⟨hln, hrn, hal, har, hlr⟩ := nodup_inorder_join (d := .left).1 hnd
  have hh := height_lt_of_node (hf.trans (Nat.lt_succ_self fuel))
  obtain ⟨-, h2, h3, -, h5, h6⟩ := h
  rw [inorder_node, isChain_append, isChain_cons]
  refine ⟨ihl h5 hln hh.1, ⟨fun y hy => ?_, ihr h6 hrn hh.2⟩, fun z hz y hy => ?_⟩
  · -- the first node of the right subtree
    cases r with
    | nil => cases hy
    | node b rl rr =>
      obtain ⟨ys, hys⟩ := inorder_eq_leftmostD_cons b rl rr a
      rw [hys] at hy
      cases hy
      rw [avltreeNext, h3, root?_node]
      exact h6.leftestSubnode a hh.2.le
  -- from the last node of the left subtree up to its parent
  cases hy
  cases l with
  | nil => cases hz
  | node b ll lr => ?_
  obtain ⟨hr, k, hk, hup⟩ := h5.nextUp_last hz
  obtain ⟨f, rfl⟩ : ∃ f, fuel = f + 1 + k := ⟨fuel - (k + 1), by
    simp only [BinaryTree.height] at hh; omega⟩
  have hbr : r.root? ≠ some b := fun hc =>
    hlr b (by simp) (mem_inorder_of_root? hc)
  simp only [avltreeNext, hr, hup, avltreeNextUp, h3, if_neg hbr]

/-- The loop of `avltree_foreach` visits a list of nodes each of which `avltree_next` links to the
next, the last one to none. -/
theorem avltreeForeachFrom_eq {xs : List ν} {rounds : Nat} (hr : xs.length < rounds)
    (hchain : xs.IsChain fun x y => avltreeNext fuel t (some x) = .ok (some y))
    (hlast : ∀ z ∈ xs.getLast?, avltreeNext fuel t (some z) = .ok none) :
    avltreeForeachFrom fuel t rounds xs.head? = .ok xs := by
  induction rounds generalizing xs with
  | zero => cases hr
  | succ rounds ih => ?_
  cases xs with
  | nil => rfl
  | cons x xs => ?_
  have hnext : avltreeNext fuel t (some x) = .ok xs.head? := by
    cases xs with
    | nil => exact hlast x rfl
    | cons y ys => exact isChain_cons_cons.1 hchain |>.1
  have := ih (by simpa using hr) hchain.of_cons fun z hz => hlast z (by
    cases xs with
    | nil => cases hz
    | cons y ys => rwa [getLast?_cons_cons])
  rw [head?_cons, avltreeForeachFrom, hnext, Exec.ok_bind, this]
  rfl

/-- **`avltree_next`** has no answer for the last node. -/
theorem Rep.next_last {z : ν} (h : Rep t.node none tr) (hz : z ∈ tr.inorder.getLast?)
    (hh : tr.height < fuel) : avltreeNext fuel t (some z) = .ok none := by
  cases tr with
  | nil => cases hz
  | node a l r =>
    obtain ⟨hr, k, hk, hup⟩ := h.nextUp_last hz
    obtain ⟨f, rfl⟩ : ∃ f, fuel = f + 1 + k := ⟨fuel - (k + 1), by
      simp only [BinaryTree.height] at hh; omega⟩
    simp only [avltreeNext, hr, hup, avltreeNextUp]

/-- **`avltree_foreach`** visits the in-order walk. -/
theorem Rep.foreach (h : Rep t.node none tr) (hroot : t.root = tr.root?) (hnd : tr.inorder.Nodup)
    (hf : tr.inorder.length < fuel) : avltreeForeach fuel t = .ok tr.inorder := by
  have hh : tr.height < fuel := tr.height_le_length_inorder.trans_lt hf
  rw [avltreeForeach, h.first hroot hf]
  exact avltreeForeachFrom_eq hf (h.isChain_next hnd hh) fun z hz => h.next_last hz hh

end Next

/-! ## Lookups -/

/-- The comparison of a key with the nodes is monotone along a list: after a node that is not below
the key come only such nodes, and after a node above the key only such nodes. -/
def AvltreeOps.MonotoneOn (ops : AvltreeOps ν κ δ) (t : Avltree ν δ) (key : κ) (xs : List ν) : Prop :=
  xs.Pairwise fun a b => (ops.compareKey t key a < 0 → ops.compareKey t key b < 0) ∧
    (ops.compareKey t key a ≤ 0 → ops.compareKey t key b ≤ 0)

/-- **`avltree_lookup`** finds a node that matches the key when the tree has one. -/
theorem Rep.lookupLoop {key : κ} (h : Rep t.node par tr) (hm : ops.MonotoneOn t key tr.inorder)
    (hf : tr.height < fuel) :
    ∃ res, avltreeLookupLoop ops t key fuel tr.root? = .ok res ∧
      (∀ n, res = some n → n ∈ tr.inorder ∧ ops.compareKey t key n = 0) ∧
      (res = none → ∀ n ∈ tr.inorder, ops.compareKey t key n ≠ 0) := by
  induction fuel generalizing par tr with
  | zero => cases hf
  | succ fuel ih => ?_
  cases tr with
  | nil => exact ⟨none, rfl, nofun, nofun⟩
  | node a l r => ?_
  have hh := height_lt_of_node hf
  obtain ⟨-, h2, h3, -, h5, h6⟩ := h
  obtain ⟨hl, hr, hla, har, -⟩ := Avl.pairwise_node.1 hm
  rw [root?_node, avltreeLookupLoop, h2, h3]
  cases hc : avltreeCompareKey ops t key a with
  | lt =>
    obtain ⟨res, h7, h8, h9⟩ := ih h5 hl hh.1
    refine ⟨res, h7, fun n hn => ⟨by simp [(h8 n hn).1], (h8 n hn).2⟩, fun hn y hy => ?_⟩
    rw [inorder_node, mem_append, mem_cons] at hy
    have hneg := sign_eq_lt.1 hc
    rcases hy with hy | rfl | hy
    · exact h9 hn y hy
    · exact hneg.ne
    exact ((har y hy).1 hneg).ne
  | gt =>
    obtain ⟨res, h7, h8, h9⟩ := ih h6 hr hh.2
    refine ⟨res, h7, fun n hn => ⟨by simp [(h8 n hn).1], (h8 n hn).2⟩, fun hn y hy => ?_⟩
    rw [inorder_node, mem_append, mem_cons] at hy
    have hpos := sign_eq_gt.1 hc
    rcases hy with hy | rfl | hy
    · intro h0
      have := (hla y hy).2 h0.le
      omega
    · exact hpos.ne'
    exact h9 hn y hy
  | eq =>
    refine ⟨some a, rfl, ?_, nofun⟩
    rintro _ ⟨⟩
    exact ⟨by simp, sign_eq_eq.1 hc⟩

/-- **`avltree_first_superior_or_equal`** answers the first node of the walk that is not below the
key. -/
theorem Rep.firstSuperiorOrEqualLoop {key : κ} (h : Rep t.node par tr)
    (hm : ops.MonotoneOn t key tr.inorder) (hf : tr.height < fuel) (best : Option ν) :
    avltreeFirstSuperiorOrEqualLoop ops t key fuel tr.root? best =
      .ok ((tr.inorder.find? fun n => ops.compareKey t key n ≤ 0).or best) := by
  induction fuel generalizing par tr best with
  | zero => cases hf
  | succ fuel ih => ?_
  cases tr with
  | nil => rfl
  | node a l r => ?_
  have hh := height_lt_of_node hf
  obtain ⟨-, h2, h3, -, h5, h6⟩ := h
  obtain ⟨hl, hr, hla, har, -⟩ := Avl.pairwise_node.1 hm
  have found (ha : ops.compareKey t key a ≤ 0) :
      avltreeFirstSuperiorOrEqualLoop ops t key fuel (t.node a).left (some a) =
        .ok (((node a l r).inorder.find? fun n => ops.compareKey t key n ≤ 0).or best) := by
    rw [h2, ih h5 hl hh.1, inorder_node, find?_append, find?_cons_of_pos (by simpa)]
    cases l.inorder.find? fun n => ops.compareKey t key n ≤ 0 <;> rfl
  rw [root?_node, avltreeFirstSuperiorOrEqualLoop]
  cases hc : avltreeCompareKey ops t key a with
  | lt => exact found (sign_eq_lt.1 hc).le
  | eq => exact found (sign_eq_eq.1 hc).le
  | gt =>
    have hpos := sign_eq_gt.1 hc
    have hnone : l.inorder.find? (fun n => ops.compareKey t key n ≤ 0) = none := by grind
    simp only [h3, ih h6 hr hh.2, inorder_node, find?_append, hnone, Option.none_or]
    rw [find?_cons_of_neg (by simpa using hpos)]

end Stanix
