import Stanix.Klib.Avltree.Run

/-!
# Trees known by the list of their nodes

What a user of `avltree.c` needs who keeps a list of nodes in a tree and compares them by fields that
change while the tree stands: `Avltree.Walks` says that the tree spells out a list, whatever the
comparison is, and the operations are described by what they do to the list. The comparison has to be
a strict order of the nodes concerned only (`AvltreeOps.OrderOn`), at the time of the call. The other
nodes in the memory are not touched.
-/

namespace Stanix

open BinaryTree List

variable {ν κ δ : Type} {t t' : Avltree ν δ} {xs : List ν} {fuel : Nat}

/-- The tree's nodes are those of a list, in this order. -/
def Avltree.Walks (t : Avltree ν δ) (xs : List ν) : Prop :=
  xs.Nodup ∧ ∃ tr : BinaryTree ν, t.root = tr.root? ∧ Rep t.node none tr ∧ tr.inorder = xs

namespace Avltree.Walks

theorem empty (h : t.root = none) : t.Walks [] :=
  ⟨.nil, .nil, h, trivial, rfl⟩

section

variable (h : t.Walks xs)

include h

theorem nodup : xs.Nodup := h.1

theorem congr (hroot : t'.root = t.root) (hnode : ∀ x ∈ xs, t'.node x = t.node x) :
    t'.Walks xs := by
  obtain ⟨hnd, tr, hr, hrep, rfl⟩ := h
  exact ⟨hnd, tr, hroot.trans hr, hrep.congr hnode, rfl⟩

/-- **The list is what the memory spells out.** -/
theorem toTree (hf : xs.length ≤ fuel) : (t.toTree fuel).inorder = xs := by
  obtain ⟨-, tr, hr, hrep, rfl⟩ := h
  rw [Avltree.toTree, hr, hrep.treeAt (tr.height_le_length_inorder.trans hf)]

/-- **`avltree_first`** is the head of the list. -/
theorem first (hf : xs.length < fuel) : avltreeFirst fuel t = .ok xs.head? := by
  obtain ⟨hnd, tr, hr, hrep, rfl⟩ := h
  exact hrep.first hr hf

end

/-- **`avltree_next`** goes from a node of the list to the one after it. -/
theorem next [DecidableEq ν] {l r : List ν} {x : ν} (h : t.Walks (l ++ x :: r))
    (hf : (l ++ x :: r).length < fuel) : avltreeNext fuel t (some x) = .ok r.head? := by
  obtain ⟨hnd, tr, hr, hrep, htr⟩ := h
  rw [← htr] at hnd hf
  have hh : tr.height < fuel := tr.height_le_length_inorder.trans_lt hf
  cases r with
  | cons y r =>
    have hchain := hrep.isChain_next hnd hh
    rw [htr] at hchain
    exact (isChain_cons_cons.1 (isChain_append.1 hchain).2.1).1
  | nil => exact hrep.next_last (by rw [htr]; simp) hh

variable {ops : AvltreeOps ν κ δ}

/-- **`avltree_first_superior_or_equal`** is the first node of the list that is not below the key. -/
theorem firstSuperiorOrEqual (h : t.Walks xs) {key : κ} (hm : ops.MonotoneOn t key xs)
    (hf : xs.length < fuel) : avltreeFirstSuperiorOrEqual ops fuel t key =
      .ok (xs.find? fun n => ops.compareKey t key n ≤ 0) := by
  obtain ⟨-, tr, hr, hrep, rfl⟩ := h
  rw [avltreeFirstSuperiorOrEqual, hr,
    hrep.firstSuperiorOrEqualLoop hm (tr.height_le_length_inorder.trans_lt hf), Option.or_none]

variable [DecidableEq ν] {n : ν}

/-- **`avltree_insert`** of a new node puts it in its place. -/
theorem insert {l r : List ν} (h : t.Walks (l ++ r)) (ho : ops.OrderOn (n :: (l ++ r)))
    (hs : (l ++ n :: r).Pairwise ops.Lt) (hleft : (t.node n).left = none)
    (hright : (t.node n).right = none) (hf : (l ++ r).length < fuel) :
    ∃ t', avltreeInsert ops fuel t n = .ok t' ∧ t'.Walks (l ++ n :: r) ∧
      ∀ x, x ∉ n :: (l ++ r) → t'.node x = t.node x := by
  obtain ⟨hnd, tr, hr, hrep, htr⟩ := h
  have hperm : (n :: (l ++ r)).Perm (l ++ n :: r) := perm_middle.symm
  have hnd' : (l ++ n :: r).Nodup := (ho.subset hperm.symm.subset).nodup hs
  have hn : n ∉ l ++ r := (nodup_cons.1 (hperm.nodup_iff.2 hnd')).1
  rw [← htr] at ho hf hnd hn
  have hold (x : ν) (hx : x ∈ tr.inorder) : (t.setHeight n 1).node x = t.node x := by
    have hxn : x ≠ n := ne_of_mem_of_not_mem hx hn
    simp [hxn]
  obtain ⟨t', h1, h2, -⟩ := Rep.insertHelper ops (x := n)
    (by simpa [AvltreeNode.setHeight] using hleft) (by simpa [AvltreeNode.setHeight] using hright)
    (by simp) (s := .root) (tr.height_le_length_inorder.trans_lt hf) (hrep.congr hold) hr
    (nodup_cons.2 ⟨hn, hnd⟩) (Slot.outside_root _)
  have hsub : (l ++ r).Sublist (l ++ n :: r) := List.Sublist.append_left (sublist_cons_self ..) l
  have hsorted := Avl.pairwise_insert_on ho hn (by rw [htr]; exact hs.sublist hsub)
  -- two ascending arrangements of the same nodes are equal
  have heq : (Avl.insert (avltreeCompareNodes ops) n tr).inorder = l ++ n :: r := by
    have hp := Avl.inorder_insert_perm (avltreeCompareNodes ops) n tr
    refine List.Perm.eq_of_pairwise (fun a b ha hb hab hba => ?_) hsorted hs ?_
    · have ha' := hp.subset ha
      have hb' : b ∈ n :: tr.inorder := by rw [htr]; exact hperm.symm.subset hb
      have := (ho.neg_iff a ha' b hb').1 hab
      exact absurd hba (not_lt.2 this.le)
    rw [htr] at hp
    exact hp.trans hperm
  refine ⟨t', h1, ⟨hnd', _, ?_, h2.rep, heq⟩, fun x hx => ?_⟩
  · rw [h2.root]; rfl
  rw [← htr] at hx
  have hxn : x ≠ n := fun h => hx (h ▸ mem_cons_self)
  rw [h2.node x hx]
  simp [Avltree.store, hxn]

/-- **`avltree_remove`** of a node of the list. -/
theorem remove (h : t.Walks xs) (ho : ops.OrderOn xs) (hs : xs.Pairwise ops.Lt) (hn : n ∈ xs)
    (hf : xs.length < fuel) :
    ∃ t', avltreeRemove ops fuel t n = .ok (true, t') ∧ t'.Walks (xs.erase n) ∧
      ∀ x, x ∉ xs → t'.node x = t.node x := by
  obtain ⟨hnd, tr, hr, hrep, rfl⟩ := h
  have hspec := Rep.removeHelper ops (x := n) (s := .root)
    (tr.height_le_length_inorder.trans_lt hf) hrep hr hnd (Slot.outside_root _)
  obtain ⟨res, hres⟩ := Avl.exists_remove_on ho hn hs
  rw [hres] at hspec
  obtain ⟨t', h1, h2, -⟩ := hspec
  refine ⟨t', h1, ⟨hnd.erase n, res.1, ?_, h2.rep, (Avl.inorder_of_remove _ hnd hres).2⟩,
    fun x hx => ?_⟩
  · rw [h2.root]; rfl
  rw [h2.node x hx]; rfl

end Avltree.Walks

end Stanix
