import Stanix.Klib.Avltree.Shape

/-!
# The memory of `avltree.c` spells out a tree

`Rep m par t` reads the nodes of the memory `m` as the tree `t` below the parent `par`: child and
parent pointers agree with `t`, and every height field is the height of its subtree. The functions
of `avltree.c` keep it: each of them leaves the tree that `Avl` computes and writes only to the
nodes of that tree and to the slot it was given (`Rep.rebalance`, `Rep.insertHelper`,
`Rep.removeHelper`).
-/

namespace Stanix

open BinaryTree Exec Function Avltree

variable {ν κ δ : Type} {m m' : ν → AvltreeNode ν} {par : Option ν} {n f t tr : BinaryTree ν}

/-- The memory `m` holds the tree `t`, whose root has the parent `par`. -/
def Rep (m : ν → AvltreeNode ν) : Option ν → BinaryTree ν → Prop
  | _, .nil => True
  | par, .node a l r =>
    (m a).parent = par ∧ (m a).left = l.root? ∧ (m a).right = r.root? ∧
      (m a).height = max l.height r.height + 1 ∧ Rep m (some a) l ∧ Rep m (some a) r

/-- The memory `m` holds a tree with root `a`, up to the height field of `a`. -/
structure Linked (m : ν → AvltreeNode ν) (par : Option ν) (d : Side) (a : ν)
    (near far : BinaryTree ν) : Prop where
  parent : (m a).parent = par
  childNear : (m a).child d = near.root?
  childFar : (m a).child d.flip = far.root?
  repNear : Rep m (some a) near
  repFar : Rep m (some a) far

theorem rep_join {d : Side} {a : ν} :
    Rep m par (join d a n f) ↔
      Linked m par d a n f ∧ (m a).height = max n.height f.height + 1 := by
  cases d with
  | left =>
    constructor
    · rintro ⟨h1, h2, h3, h4, h5, h6⟩
      exact ⟨⟨h1, h2, h3, h5, h6⟩, h4⟩
    rintro ⟨⟨h1, h2, h3, h5, h6⟩, h4⟩
    exact ⟨h1, h2, h3, h4, h5, h6⟩
  | right => ?_
  rw [max_comm]
  constructor
  · rintro ⟨h1, h2, h3, h4, h5, h6⟩
    exact ⟨⟨h1, h3, h2, h6, h5⟩, h4⟩
  rintro ⟨⟨h1, h2, h3, h5, h6⟩, h4⟩
  exact ⟨h1, h3, h2, h4, h6, h5⟩

theorem Linked.flip {d : Side} {a : ν} (h : Linked m par d a n f) : Linked m par d.flip a f n :=
  ⟨h.parent, h.childFar, by rw [Side.flip_flip]; exact h.childNear, h.repFar, h.repNear⟩

theorem Rep.congr (h : ∀ x ∈ t.inorder, m' x = m x) (hr : Rep m par t) : Rep m' par t := by
  induction t generalizing par with
  | nil => trivial
  | node a l r ihl ihr =>
    obtain ⟨h1, h2, h3, h4, h5, h6⟩ := hr
    rw [← h a (by simp)] at h1 h2 h3 h4
    exact ⟨h1, h2, h3, h4, ihl (fun x hx => h x (by simp [hx])) h5,
      ihr (fun x hx => h x (by simp [hx])) h6⟩

theorem Rep.reparent {q : Option ν} (hnd : t.inorder.Nodup)
    (hroot : ∀ a, t.root? = some a → m' a = (m a).setParent q)
    (hrest : ∀ x ∈ t.inorder, t.root? ≠ some x → m' x = m x) (hr : Rep m par t) : Rep m' q t := by
  cases t with
  | nil => trivial
  | node a l r => ?_
  obtain ⟨-, h2, h3, h4, h5, h6⟩ := hr
  obtain ⟨-, -, hal, har, -⟩ := nodup_inorder_join (d := .left).1 hnd
  have ha := hroot a rfl
  refine ⟨by rw [ha]; rfl, by rw [ha]; exact h2, by rw [ha]; exact h3, by rw [ha]; exact h4, ?_, ?_⟩
  · exact h5.congr fun x hx => hrest x (by simp [hx]) (by rintro ⟨rfl⟩; exact hal hx)
  exact h6.congr fun x hx => hrest x (by simp [hx]) (by rintro ⟨rfl⟩; exact har hx)

theorem Rep.height {t : Avltree ν δ} (h : Rep t.node par tr) :
    avltreeHeight t tr.root? = tr.height := by
  cases tr with
  | nil => rfl
  | node a l r => exact h.2.2.2.1

theorem Rep.balanceFactor {t : Avltree ν δ} (h : Rep t.node par tr) :
    avltreeBalanceFactor t tr.root? = tr.balanceFactor := by
  cases tr with
  | nil => rfl
  | node a l r =>
    obtain ⟨-, h2, h3, -, h5, h6⟩ := h
    simp only [root?_node, avltreeBalanceFactor, balanceFactor_node, h2, h3, h5.height, h6.height]

/-! ## Writes -/

section Writes

variable [DecidableEq ν] (ops : AvltreeOps ν κ δ) (t : Avltree ν δ)

/-- The node on top of which `avltree_compute_height` writes a height, from either side. -/
theorem avltreeComputeHeight_node (d : Side) (n : ν) :
    (avltreeComputeHeight ops t n).node = Function.update t.node n ((t.node n).setHeight
      (max (avltreeHeight t ((t.node n).child d)) (avltreeHeight t ((t.node n).child d.flip)) + 1)) := by
  have hmax (x y : Nat) : (if x > y then x else y) = max x y := by split <;> omega
  have : max (avltreeHeight t (t.node n).left) (avltreeHeight t (t.node n).right) =
      max (avltreeHeight t ((t.node n).child d)) (avltreeHeight t ((t.node n).child d.flip)) := by
    cases d with
    | left => rfl
    | right => exact max_comm _ _
  unfold avltreeComputeHeight
  split <;> simp only [setHeight, setNode, hmax, this]

@[simp] theorem avltreeComputeHeight_root (n : ν) :
    (avltreeComputeHeight ops t n).root = t.root := by
  unfold avltreeComputeHeight; split <;> rfl

@[simp] theorem avltreeComputeHeight_reachedDefault (n : ν) :
    (avltreeComputeHeight ops t n).reachedDefault = t.reachedDefault := by
  unfold avltreeComputeHeight; split <;> rfl

end Writes

/-! ## Rotations -/

section Rotations

variable [DecidableEq ν] (ops : AvltreeOps ν κ δ) {t : Avltree ν δ} {n f : BinaryTree ν}
  {par : Option ν} {d : Side} {a b : ν}

/-- `avltree_compute_height` completes a linked node. -/
theorem Linked.computeHeight (h : Linked t.node par d a n f) (hn : a ∉ n.inorder)
    (hf : a ∉ f.inorder) : Rep (avltreeComputeHeight ops t a).node par (join d a n f) := by
  have hne {x : ν} {s : BinaryTree ν} (hs : a ∉ s.inorder) (hx : x ∈ s.inorder) : x ≠ a := by
    rintro rfl; exact hs hx
  rw [avltreeComputeHeight_node ops t d, h.childNear, h.childFar, h.repNear.height,
    h.repFar.height, rep_join]
  refine ⟨⟨?_, ?_, ?_, ?_, ?_⟩, ?_⟩
  · simp [h.parent]
  · simp [h.childNear]
  · simp [h.childFar]
  · exact h.repNear.congr fun x hx => update_of_ne (hne hn hx) _ _
  · exact h.repFar.congr fun x hx => update_of_ne (hne hf hx) _ _
  simp

/-- `avltree_compute_height` writes to one node. -/
theorem avltreeComputeHeight_of_ne {x : ν} (h : x ≠ a) :
    (avltreeComputeHeight ops t a).node x = t.node x := by
  rw [avltreeComputeHeight_node ops t .left, update_of_ne h]

/-- What a rotation writes before it computes heights: `c` is the subtree that changes its parent.
-/
theorem avltreeRelink_node (hab : a ≠ b) {c : Option ν} (hc : (t.node b).child d.flip = c)
    (hca : c ≠ some a) (hcb : c ≠ some b) :
    (avltreeRelink d t a b).node a = ((t.node a).setChild d c).setParent (some b) ∧
    (avltreeRelink d t a b).node b =
      ((t.node b).setChild d.flip (some a)).setParent (t.node a).parent ∧
    (∀ x, c = some x → (avltreeRelink d t a b).node x = (t.node x).setParent (some a)) ∧
    (∀ x, x ≠ a → x ≠ b → c ≠ some x → (avltreeRelink d t a b).node x = t.node x) := by
  cases c with
  | none => simp +contextual [avltreeRelink, hc, hab, hab.symm]
  | some c =>
    have hca : c ≠ a := by rintro rfl; exact hca rfl
    have hcb : c ≠ b := by rintro rfl; exact hcb rfl
    simp +contextual [avltreeRelink, hc, hab, hab.symm, hca, hcb, hca.symm, hcb.symm, eq_comm]

@[simp] theorem avltreeRelink_root (d : Side) (a b : ν) :
    (avltreeRelink d t a b).root = t.root := by
  simp only [avltreeRelink, setParent?]; split <;> rfl

@[simp] theorem avltreeRelink_reachedDefault (d : Side) (a b : ν) :
    (avltreeRelink d t a b).reachedDefault = t.reachedDefault := by
  simp only [avltreeRelink, setParent?]; split <;> rfl

/-- `t'` comes from `t` by writes to the nodes `xs` alone. -/
structure SameBut (xs : List ν) (t t' : Avltree ν δ) : Prop where
  node : ∀ x, x ∉ xs → t'.node x = t.node x
  root : t'.root = t.root

/-- **A rotation.** The code brings the child on side `d` up and leaves the rotated tree, with right
heights at the two nodes it moves, whatever the height field of the old root was. -/
theorem Linked.rotate {g : BinaryTree ν} (h : Linked t.node par d a (join d b n f) g)
    (hnd : (join d a (join d b n f) g).inorder.Nodup) :
    ∃ t', avltreeRotate ops d t a = .ok (b, t') ∧
      Rep t'.node par (join d b n (join d.flip a g f)) ∧
      SameBut (join d a (join d b n f) g).inorder t t' ∧
      t'.reachedDefault = t.reachedDefault := by
  obtain ⟨hnd1, hg, ha1, hag, hdg⟩ := nodup_inorder_join.1 hnd
  obtain ⟨hn, hf, hbn, hbf, hnf⟩ := nodup_inorder_join.1 hnd1
  simp only [mem_inorder_join, not_or] at ha1 hdg
  obtain ⟨hab, han, haf⟩ := ha1
  have hba : b ≠ a := Ne.symm hab
  have hbg : b ∉ g.inorder := hdg b (.inl rfl)
  have hb := rep_join.1 h.repNear
  have root_mem {c : ν} (hc : f.root? = some c) : c ∈ f.inorder := mem_inorder_of_root? hc
  have hfa : f.root? ≠ some a := fun hc => haf (root_mem hc)
  have hfb : f.root? ≠ some b := fun hc => hbf (root_mem hc)
  obtain ⟨h1, h2, h3, h4⟩ := avltreeRelink_node hab hb.1.childFar hfa hfb
  have hne {x y : ν} {s : BinaryTree ν} (hy : y ∉ s.inorder) (hx : x ∈ s.inorder) : x ≠ y := by
    rintro rfl; exact hy hx
  -- the subtrees are where they were; the inner one has the new parent `a`
  have hgr := h.repFar.congr fun x hx =>
    h4 x (hne hag hx) (hne hbg hx) fun hc => hdg x (.inr (.inr (root_mem hc))) hx
  have hnr := hb.1.repNear.congr fun x hx =>
    h4 x (hne han hx) (hne hbn hx) fun hc => hnf x hx (root_mem hc)
  have hfr := hb.1.repFar.reparent hf h3
    fun x hx hc => h4 x (hne haf hx) (hne hbf hx) hc
  have hla : Linked (avltreeRelink d t a b).node (some b) d.flip a g f := by
    refine ⟨by simp [h1], ?_, ?_, hgr, hfr⟩
    · rw [h1]; simp [h.childFar]
    rw [h1]; simp
  have hra := hla.computeHeight ops hag haf
  have hlb : Linked (avltreeComputeHeight ops (avltreeRelink d t a b) a).node par d b n
      (join d.flip a g f) := by
    have hcb := avltreeComputeHeight_of_ne ops (t := avltreeRelink d t a b) hba
    refine ⟨by simp [hcb, h2, h.parent], ?_, ?_, ?_, hra⟩
    · rw [hcb, h2]; simp [hb.1.childNear]
    · rw [hcb, h2]; simp
    exact hnr.congr fun x hx => avltreeComputeHeight_of_ne ops (hne han hx)
  refine ⟨_, by rw [avltreeRotate, h.childNear, root?_join]; rfl,
    hlb.computeHeight ops hbn (by simp [hba, hbg, hbf]), ⟨fun x hx => ?_, by simp⟩, by simp⟩
  simp only [mem_inorder_join, not_or] at hx
  obtain ⟨hxa, ⟨hxb, hxn, hxf⟩, hxg⟩ := hx
  rw [avltreeComputeHeight_of_ne ops hxb, avltreeComputeHeight_of_ne ops hxa,
    h4 x hxa hxb fun hc => hxf (root_mem hc)]

end Rotations

/-! ## Subtrees in slots -/

section Slots

variable [DecidableEq ν] (ops : AvltreeOps ν κ δ) {t t₁ t' : Avltree ν δ} {par : Option ν}
  {n f tr : BinaryTree ν} {s : Slot ν} {xs : List ν} {d e : Side} {a x : ν}

/-- The slot is in none of the nodes `xs`. -/
def Slot.Outside (s : Slot ν) (xs : List ν) : Prop :=
  ∀ d n, s = .child d n → n ∉ xs

omit [DecidableEq ν] in
theorem Slot.outside_root (xs : List ν) : (Slot.root : Slot ν).Outside xs := by
  intro d n h
  cases h

/-- The code left the tree `tr` below the parent `par` in the slot `s`, and wrote to no node outside
`xs` but for that slot. -/
structure Leaves (t t' : Avltree ν δ) (s : Slot ν) (par : Option ν) (tr : BinaryTree ν)
    (xs : List ν) : Prop where
  rep : Rep t'.node par tr
  node : ∀ x, x ∉ xs → t'.node x = (t.store s tr.root?).node x
  root : t'.root = (t.store s tr.root?).root

theorem store_node_congr (h : t₁.node x = t.node x) (s : Slot ν) (p : Option ν) :
    (t₁.store s p).node x = (t.store s p).node x := by
  cases s with
  | root => exact h
  | child d n =>
    by_cases hx : x = n
    · subst hx; simp [store, h]
    simp [store, hx, h]

theorem store_node_of_outside (hs : s.Outside xs) (p : Option ν) (hx : x ∈ xs) :
    (t.store s p).node x = t.node x := by
  cases s with
  | root => rfl
  | child d n =>
    have hne : x ≠ n := by rintro rfl; exact hs d x rfl hx
    simp [store, hne]

omit [DecidableEq ν] in
theorem load_congr (hs : s.Outside xs) (hroot : t'.root = t.root)
    (hnode : ∀ x, x ∉ xs → t'.node x = t.node x) : t'.load s = t.load s := by
  cases s with
  | root => exact hroot
  | child d n => rw [load, load, hnode n (hs d n rfl)]

@[simp] theorem load_store (s : Slot ν) (p : Option ν) : (t.store s p).load s = p := by
  cases s <;> simp [store, load]

@[simp] theorem store_reachedDefault (s : Slot ν) (p : Option ν) :
    (t.store s p).reachedDefault = t.reachedDefault := by
  cases s <;> rfl

theorem store_root_congr (h : t₁.root = t.root) (s : Slot ν) (p : Option ν) :
    (t₁.store s p).root = (t.store s p).root := by
  cases s with
  | root => rfl
  | child d n => exact h

/-- A tree computed among the nodes `xs` and then stored in a slot outside of them. -/
theorem SameBut.leaves (h : SameBut xs t t₁) (hr : Rep t₁.node par tr) (hxs : tr.inorder ⊆ xs)
    (hs : s.Outside xs) : Leaves t (t₁.store s tr.root?) s par tr xs :=
  ⟨hr.congr fun _ hx => store_node_of_outside hs _ (hxs hx),
    fun x hx => store_node_congr (h.node x hx) s _, store_root_congr h.root s _⟩

@[simp] theorem store_store (s : Slot ν) (p q : Option ν) : (t.store s p).store s q = t.store s q := by
  cases s with
  | root => rfl
  | child d n => cases d <;> simp [store, setChild, setNode, AvltreeNode.setChild]

theorem store_load (s : Slot ν) : t.store s (t.load s) = t := by
  cases s with
  | root => rfl
  | child d n =>
    have : (t.node n).setChild d ((t.node n).child d) = t.node n := by cases d <;> rfl
    simp [store, load, setChild, setNode, this]

theorem SameBut.leaves_of_load (h : SameBut xs t t') (hr : Rep t'.node par tr)
    (hload : t.load s = tr.root?) : Leaves t t' s par tr xs := by
  refine ⟨hr, fun x hx => ?_, ?_⟩
  · rw [← hload, store_load, h.node x hx]
  rw [← hload, store_load, h.root]

/-- Two steps in a row: the first writes among `xs` only. -/
theorem Leaves.trans {ys : List ν} (h1 : SameBut xs t t₁) (h : Leaves t₁ t' s par tr ys)
    (hys : ys ⊆ xs) : Leaves t t' s par tr xs :=
  ⟨h.rep, fun x hx => (h.node x fun hy => hx (hys hy)).trans (store_node_congr (h1.node x hx) s _),
    h.root.trans (store_root_congr h1.root s _)⟩

/-- A tree left in a child slot of `a` makes `a` linked to it, and leaves the other side alone. -/
theorem Leaves.linked {n' : BinaryTree ν} (h : Leaves t t₁ (.child d a) (some a) n' xs)
    (hl : Linked t.node par d a n f) (ha : a ∉ xs) (haf : a ∉ f.inorder)
    (hf : ∀ x ∈ f.inorder, x ∉ xs) : Linked t₁.node par d a n' f ∧ SameBut (a :: xs) t t₁ := by
  have hn : t₁.node a = (t.node a).setChild d n'.root? := by
    rw [h.node a ha]; simp [store]
  have hrest (x : ν) (hxa : x ≠ a) (hx : x ∉ xs) : t₁.node x = t.node x := by
    rw [h.node x hx]; simp [store, hxa]
  refine ⟨⟨by simp [hn, hl.parent], by simp [hn], by simp [hn, hl.childFar], h.rep, ?_⟩,
    fun x hx => ?_, h.root⟩
  · exact hl.repFar.congr fun x hx => hrest x (by rintro rfl; exact haf hx) (hf x hx)
  simp only [List.mem_cons, not_or] at hx
  exact hrest x hx.1 hx.2

/-- A rotation at the tree in a slot. -/
theorem Linked.rotateSlot (h : Linked t.node par e a n f) (hnd : (join e a n f).inorder.Nodup)
    (hc : HasChild d (join e a n f)) (hs : s.Outside (join e a n f).inorder) :
    ∃ b t', avltreeRotate ops d t a = .ok (b, t') ∧
      Leaves t (t'.store s (some b)) s par (BinaryTree.rotate d (join e a n f))
        (join e a n f).inorder ∧ t'.reachedDefault = t.reachedDefault := by
  have main {n f : BinaryTree ν} (h : Linked t.node par d a n f)
      (hnd : (join d a n f).inorder.Nodup) (hc : HasChild d (join d a n f))
      (hs : s.Outside (join d a n f).inorder) : ∃ b t', avltreeRotate ops d t a = .ok (b, t') ∧
      Leaves t (t'.store s (some b)) s par (BinaryTree.rotate d (join d a n f))
        (join d a n f).inorder ∧ t'.reachedDefault = t.reachedDefault := by
    cases n with
    | nil => exact absurd rfl (hasChild_join.1 hc)
    | node b l r => ?_
    obtain ⟨n', f', hj⟩ := node_eq_join d b l r
    rw [hj] at h hnd hs ⊢
    obtain ⟨t', h1, h2, h3, h4⟩ := h.rotate ops hnd
    refine ⟨b, t', h1, ?_, h4⟩
    rw [rotate_join]
    have := h3.leaves h2 (fun x hx => ?_) hs
    · rwa [root?_join] at this
    rw [← rotate_join, inorder_rotate] at hx; exact hx
  by_cases hde : e = d
  · subst hde; exact main h hnd hc hs
  have hfl : d = e.flip := by cases e <;> cases d <;> simp_all
  have hj : join e a n f = join d a f n := by subst hfl; cases e <;> rfl
  rw [hj] at hnd hc hs ⊢
  exact main (hfl ▸ h.flip) hnd hc hs

/-- The rotations of `avltree_rebalance` where side `d` is the heavy one. -/
def avltreeRotateHeavy (d : Side) (double : Prop) [Decidable double] (t : Avltree ν δ)
    (current child : Slot ν) : Exec (Avltree ν δ) := do
  let t ← if double then do
      let (c, t) ← avltreeRotate ops d.flip t (← Exec.deref (t.load child))
      pure (t.store child (some c))
    else pure t
  let (c, t) ← avltreeRotate ops d t (← Exec.deref (t.load current))
  return t.store current (some c)

/-- `avltree_rebalance` at a slot that is not NULL, with its two heavy cases as one function. -/
theorem avltreeRebalance_eq {current child : Slot ν} (h : t.load current = some a) :
    avltreeRebalance ops t current child =
      (let t := avltreeComputeHeight ops t a
       let factor := avltreeBalanceFactor t (t.load current)
       if factor = -2 then
         avltreeRotateHeavy ops .left (avltreeBalanceFactor t (t.load child) > 0) t current child
       else if factor = -1 ∨ factor = 0 ∨ factor = 1 then .ok t
       else if factor = 2 then
         avltreeRotateHeavy ops .right (avltreeBalanceFactor t (t.load child) < 0) t current child
       else .ok { t with reachedDefault := true }) := by
  rw [avltreeRebalance, h]; rfl

theorem Linked.rotateChild (h : Linked t.node par e a n f) (hnd : (join e a n f).inorder.Nodup)
    (hn : HasChild d n) :
    ∃ b c t₁, t.load (.child e a) = some b ∧ avltreeRotate ops d t b = .ok (c, t₁) ∧
      Linked (t₁.store (.child e a) (some c)).node par e a (BinaryTree.rotate d n) f ∧
      SameBut (join e a n f).inorder t (t₁.store (.child e a) (some c)) ∧
      t₁.reachedDefault = t.reachedDefault := by
  obtain ⟨hnn, -, han, haf, hnf⟩ := nodup_inorder_join.1 hnd
  obtain ⟨b, b', n', f', g, rfl⟩ := id hn
  have hout : Slot.Outside (.child e a) (join d b (join d b' n' f') g).inorder := by
    rintro _ _ ⟨⟩; exact han
  obtain ⟨c, t₁, h1, h2, h3⟩ := (rep_join.1 h.repNear).1.rotateSlot ops hnn hn hout
  obtain ⟨hl, hsb⟩ := h2.linked h han haf fun x hx hx' => hnf x hx' hx
  refine ⟨b, c, t₁, by rw [load, h.childNear, root?_join], h1, hl, ⟨fun x hx => ?_, hsb.root⟩, h3⟩
  rw [mem_inorder_join, not_or, not_or] at hx
  exact hsb.node x (by simp [hx.1, hx.2.1])

/-- The rotations at a slot whose tree has a subtree on the heavy side. -/
theorem Linked.rotateHeavy (double : Prop) [Decidable double] (h : Linked t.node par e a n f)
    (hnd : (join e a n f).inorder.Nodup) (hload : t.load s = some a)
    (hs : s.Outside (join e a n f).inorder) (hd : HasChild d (join e a n f))
    (hn : double → HasChild d.flip n) :
    ∃ t', avltreeRotateHeavy ops d double t s (.child e a) = .ok t' ∧
      Leaves t t' s par
        (BinaryTree.rotate d (join e a (if double then BinaryTree.rotate d.flip n else n) f))
        (join e a n f).inorder ∧ t'.reachedDefault = t.reachedDefault := by
  by_cases hdbl : double
  · obtain ⟨b, c, t₁, h1, h2, hl, hsb, h3⟩ := h.rotateChild ops hnd (hn hdbl)
    have hin : (join e a (BinaryTree.rotate d.flip n) f).inorder = (join e a n f).inorder := by
      cases e <;> simp [join]
    obtain ⟨c', t2, h4, h5, h6⟩ := hl.rotateSlot ops (by rwa [hin])
      (hd.congr rotate_eq_nil) (by rwa [hin])
    have hload1 := load_congr hs hsb.root hsb.node
    refine ⟨t2.store s (some c'), ?_, ?_, ?_⟩
    · simp only [avltreeRotateHeavy, if_pos hdbl, h1, h2, hload1, hload, h4, deref_some,
        ok_bind, pure_eq]
    · rw [if_pos hdbl]
      exact h5.trans hsb (by rw [hin]; exact fun _ hx => hx)
    rw [store_reachedDefault, h6, store_reachedDefault, h3]
  obtain ⟨c, t₁, h1, h2, h3⟩ := h.rotateSlot ops hnd hd hs
  refine ⟨t₁.store s (some c), ?_, ?_, ?_⟩
  · simp only [avltreeRotateHeavy, if_neg hdbl, hload, h1, deref_some, ok_bind, pure_eq]
  · rwa [if_neg hdbl]
  rw [store_reachedDefault, h3]

/-- **`avltree_rebalance`.** At a slot that holds a linked node, with both subtrees held, the code
leaves the tree of `Avl.rebalance`. -/
theorem Linked.rebalance (h : Linked t.node par e a n f) (hnd : (join e a n f).inorder.Nodup)
    (hload : t.load s = some a) (hs : s.Outside (join e a n f).inorder) :
    ∃ t', avltreeRebalance ops t s (.child e a) = .ok t' ∧
      Leaves t t' s par (Avl.rebalance e a n f) (join e a n f).inorder ∧
      t'.reachedDefault = (t.reachedDefault || Avl.offRange n f) := by
  obtain ⟨-, -, han, haf, -⟩ := nodup_inorder_join.1 hnd
  have hr := h.computeHeight ops han haf
  obtain ⟨hl, -⟩ := rep_join.1 hr
  have hsb : SameBut (join e a n f).inorder t (avltreeComputeHeight ops t a) := by
    refine ⟨fun x hx => ?_, by simp⟩
    rw [mem_inorder_join, not_or] at hx
    exact avltreeComputeHeight_of_ne ops hx.1
  have hload1 : (avltreeComputeHeight ops t a).load s = some a := by
    rw [load_congr hs hsb.root hsb.node, hload]
  have hfac := hr.balanceFactor
  rw [root?_join] at hfac
  have hchild : avltreeBalanceFactor (avltreeComputeHeight ops t a)
      ((avltreeComputeHeight ops t a).load (.child e a)) = n.balanceFactor := by
    rw [load, hl.childNear, hl.repNear.balanceFactor]
  have hbf : (join e a n f).balanceFactor = (f.height : Int) - n.height ∨
      (join e a n f).balanceFactor = (n.height : Int) - f.height := by
    cases e
    · exact .inl rfl
    exact .inr rfl
  rw [avltreeRebalance_eq ops hload]
  simp only [hload1, hfac, hchild]
  unfold Avl.rebalance
  split
  case isTrue hm2 =>
    obtain ⟨t', h1, h2, h3⟩ := hl.rotateHeavy ops (n.balanceFactor > 0) hnd hload1 hs
      (hasChild_of_balanceFactor.1 (by omega)) hasChild_of_balanceFactor.2
    refine ⟨t', h1, h2.trans hsb fun _ hx => hx, ?_⟩
    rw [h3, avltreeComputeHeight_reachedDefault, Avl.offRange]
    simp; omega
  case isFalse hm2 =>
    split
    case isTrue hmid =>
      refine ⟨_, rfl, ?_, ?_⟩
      · rw [if_neg (by omega)]
        exact hsb.leaves_of_load hr (by rw [hload, root?_join])
      rw [Avl.offRange]
      simp; omega
    case isFalse hmid =>
      split
      case isTrue h2 =>
        obtain ⟨t', h1, h2, h3⟩ := hl.rotateHeavy ops (n.balanceFactor < 0) hnd hload1 hs
          (hasChild_of_balanceFactor.2 (by omega)) hasChild_of_balanceFactor.1
        refine ⟨t', h1, h2.trans hsb fun _ hx => hx, ?_⟩
        rw [h3, Avl.offRange]
        simp; omega
      case isFalse h2 =>
        refine ⟨_, rfl, ?_, ?_⟩
        · exact SameBut.leaves_of_load ⟨hsb.node, hsb.root⟩ hr (by rw [hload, root?_join])
        rw [Avl.offRange]
        simp; omega

end Slots

end Stanix
