import Stanix.Klib.Avltree.Rep

/-!
# Insertion and removal compute the trees of `Avl`

The recursions of `avltree_insert_helper` and `avltree_remove_helper`, with any comparison
whatsoever: on a memory that holds a tree they leave the tree that `Avl.insert` and `Avl.remove`
compute, and a removal that does not find its node writes nothing. More fuel than the tree is high
is enough.
-/

namespace Stanix

open Avl List BinaryTree AvltreeNode

variable {ν κ δ : Type} [DecidableEq ν] (ops : AvltreeOps ν κ δ) {t : Avltree ν δ} {par : Option ν}
  {n f l n' tr r r' : BinaryTree ν} {s : Slot ν} {t₁ : Avltree ν δ} {xs ys : List ν} {e : Side}
  {a m x : ν} {fuel : Nat}

omit [DecidableEq ν] in
theorem Slot.Outside.mono (h : s.Outside ys) (hs : xs ⊆ ys) : s.Outside xs :=
  fun d n hn hx => h d n hn (hs hx)

/-- The way back up through a node: once the subtree on one side of `a` has been replaced by a tree
over the nodes `xs`, `avltree_rebalance` finishes the work at the slot of `a`. -/
theorem Leaves.ascend (h : Leaves t t₁ (.child e a) (some a) n' xs) (hl : Linked t.node par e a n f)
    (hload : t.load s = some a) (hn' : n'.inorder.Nodup) (hxs : n'.inorder ⊆ xs) (ha : a ∉ xs)
    (haf : a ∉ f.inorder) (hfn : f.inorder.Nodup) (hf : ∀ x ∈ f.inorder, x ∉ xs)
    (hys : ∀ x, x ∈ ys ↔ x = a ∨ x ∈ xs ∨ x ∈ f.inorder) (hs : s.Outside ys) :
    ∃ t', avltreeRebalance ops t₁ s (.child e a) = .ok t' ∧
      Leaves t t' s par (rebalance e a n' f) ys ∧
      t'.reachedDefault = (t₁.reachedDefault || offRange n' f) := by
  obtain ⟨hl1, hsb⟩ := h.linked hl ha haf hf
  have hnd : (join e a n' f).inorder.Nodup :=
    nodup_inorder_join.2 ⟨hn', hfn, fun hx => ha (hxs hx), haf, fun x hx hx' => hf x hx' (hxs hx)⟩
  have hsub : (join e a n' f).inorder ⊆ ys := fun x hx => by
    rw [mem_inorder_join] at hx
    exact (hys x).2 (hx.imp_right (Or.imp_left (hxs ·)))
  have hsb' : SameBut ys t t₁ := by
    refine ⟨fun x hx => hsb.node x fun hx' => hx ((hys x).2 ?_), hsb.root⟩
    rcases mem_cons.1 hx' with h | h
    exacts [.inl h, .inr (.inl h)]
  obtain ⟨t', h1, h2, h3⟩ := hl1.rebalance ops hnd
    ((load_congr hs hsb'.root hsb'.node).trans hload) (hs.mono hsub)
  exact ⟨t', h1, h2.trans hsb' hsub, h3⟩

/-- One level of `avltree_insert_helper`: the recursion on the side `e` of a node has put the tree
`n'` there, and `avltree_rebalance` follows. -/
theorem Rep.insert_step {off : Bool} (hr : Rep t.node par (join e a n f))
    (hload : t.load s = some a) (hnd : (x :: (join e a n f).inorder).Nodup)
    (hs : s.Outside (x :: (join e a n f).inorder)) (hperm : n'.inorder.Perm (x :: n.inorder))
    (ih : ∃ t₁, avltreeInsertHelper ops fuel t (some a) (.child e a) x = .ok t₁ ∧
      Leaves t t₁ (.child e a) (some a) n' (x :: n.inorder) ∧
        t₁.reachedDefault = (t.reachedDefault || off)) :
    ∃ t', (do
        let t ← avltreeInsertHelper ops fuel t (some a) (.child e a) x
        avltreeRebalance ops t s (.child e a)) = .ok t' ∧
      Leaves t t' s par (rebalance e a n' f) (x :: (join e a n f).inorder) ∧
      t'.reachedDefault = (t.reachedDefault || (off || offRange n' f)) := by
  obtain ⟨t₁, h1, h2, h3⟩ := ih
  obtain ⟨hx, hnd⟩ := nodup_cons.1 hnd
  obtain ⟨hn, hf, han, haf, hnf⟩ := nodup_inorder_join.1 hnd
  simp only [mem_inorder_join, not_or] at hx
  obtain ⟨hxa, hxn, hxf⟩ := hx
  have hfx : ∀ y ∈ f.inorder, y ∉ x :: n.inorder := by
    rintro y hy (_ | ⟨_, hy'⟩)
    exacts [hxf hy, hnf y hy' hy]
  have hmem : ∀ y, y ∈ x :: (join e a n f).inorder ↔ y = a ∨ y ∈ x :: n.inorder ∨ y ∈ f.inorder := by
    intro y; simp only [mem_cons, mem_inorder_join]; tauto
  obtain ⟨t', h4, h5, h6⟩ := h2.ascend ops (rep_join.1 hr).1 hload
    (hperm.nodup_iff.2 (nodup_cons.2 ⟨hxn, hn⟩)) hperm.subset (by simp [Ne.symm hxa, han])
    haf hf hfx hmem hs
  exact ⟨t', by rw [h1]; exact h4, h5, by rw [h6, h3, Bool.or_assoc]⟩

/-- **`avltree_insert_helper`.** A node that is not in the tree, with NULL children and the height
`1`, is inserted in the tree of a slot. -/
theorem Rep.insertHelper (hleft : (t.node x).left = none) (hright : (t.node x).right = none)
    (hheight : (t.node x).height = 1) :
    ∀ {fuel : Nat} {par : Option ν} {s : Slot ν}, tr.height < fuel → Rep t.node par tr →
      t.load s = tr.root? → (x :: tr.inorder).Nodup → s.Outside (x :: tr.inorder) →
      ∃ t', avltreeInsertHelper ops fuel t par s x = .ok t' ∧
        Leaves t t' s par (insert (avltreeCompareNodes ops) x tr) (x :: tr.inorder) ∧
        t'.reachedDefault =
          (t.reachedDefault || insertOffRange (avltreeCompareNodes ops) x tr) := by
  induction tr with
  | nil =>
    rintro (_ | fuel) par s hf - hload - hs
    · omega
    simp only [avltreeInsertHelper, hload, root?_nil]
    refine ⟨_, rfl, ?_, by simp [insertOffRange]⟩
    have hsb : SameBut [x] t (t.setParent x par) := ⟨fun y hy => by simp_all, rfl⟩
    have hrep : Rep (t.setParent x par).node par (.node x .nil .nil) := by
      refine ⟨?_, ?_, ?_, ?_, trivial, trivial⟩
      · simp
      · simpa [setParent] using hleft
      · simpa [setParent] using hright
      simpa [setParent] using hheight
    exact hsb.leaves hrep (by simp) hs
  | node a l r ihl ihr => ?_
  rintro (_ | fuel) par s hf hr hload hnd hs
  · omega
  have hh := height_lt_of_node hf
  have out (e : Side) {n f : BinaryTree ν} (hj : (node a l r).inorder = (join e a n f).inorder) :
      (x :: n.inorder).Nodup ∧ (Slot.child e a).Outside (x :: n.inorder) := by
    rw [hj, nodup_cons, nodup_inorder_join, mem_inorder_join, not_or, not_or] at hnd
    obtain ⟨⟨hxa, hxn, -⟩, hn, -, han, -⟩ := hnd
    refine ⟨nodup_cons.2 ⟨hxn, hn⟩, ?_⟩
    rintro _ _ ⟨⟩ (_ | ⟨_, h⟩)
    exacts [hxa rfl, han h]
  have hperm := Avl.inorder_insert_perm (avltreeCompareNodes ops) x
  obtain ⟨hl1, hl2⟩ := out .left rfl
  obtain ⟨hr1, hr2⟩ := out .right rfl
  have hleft := Rep.insert_step ops (e := .left) hr hload hnd hs (hperm l)
    (ihl hh.1 hr.2.2.2.2.1 hr.2.1 hl1 hl2)
  have hright := Rep.insert_step ops (e := .right) hr hload hnd hs (hperm r)
    (ihr hh.2 hr.2.2.2.2.2 hr.2.2.1 hr1 hr2)
  simp only [avltreeInsertHelper, hload, root?_node, Avl.insert, Avl.insertOffRange]
  cases avltreeCompareNodes ops x a
  exacts [hleft, hright, hright]

/-! ## Removal -/

omit [DecidableEq ν] in
/-- `avltree_leftest_subnode` finds the leftmost node. -/
theorem Rep.leftestSubnode (h : Rep t.node par (node a l r)) (d : ν)
    (hf : (node a l r).height ≤ fuel) :
    avltreeLeftestSubnode t fuel (some a) = .ok (some ((node a l r).leftmostD d)) := by
  induction fuel generalizing par a l r d with
  | zero => simp at hf
  | succ fuel ih => ?_
  cases l with
  | nil => simp only [avltreeLeftestSubnode, h.2.1]; rfl
  | node b bl br =>
    have hh : (node b bl br).height ≤ fuel := by
      simp only [BinaryTree.height] at hf ⊢; omega
    simp only [avltreeLeftestSubnode, h.2.1, root?_node]
    exact ih h.2.2.2.2.1 a hh

/-- What `avltree_remove_helper` does at a slot that holds `tr`, in terms of the tree `Avl.remove`
computes. -/
def RemoveSpec (t : Avltree ν δ) (s : Slot ν) (par : Option ν) (tr : BinaryTree ν)
    (code : Exec (Bool × Avltree ν δ)) : Exec (Option (BinaryTree ν × Bool)) → Prop
  | .error e => code = .error e
  | .ok none => code = .ok (false, t)
  | .ok (some res) => ∃ t', code = .ok (true, t') ∧ Leaves t t' s par res.1 tr.inorder ∧
      t'.reachedDefault = (t.reachedDefault || res.2)

/-- One level of `avltree_remove_helper` that goes on to the side `e`. -/
theorem RemoveSpec.descend {code : Exec (Bool × Avltree ν δ)}
    {res : Exec (Option (BinaryTree ν × Bool))} (hr : Rep t.node par (join e a n f))
    (hload : t.load s = some a) (hnd : (join e a n f).inorder.Nodup)
    (hs : s.Outside (join e a n f).inorder)
    (hres : ∀ r, res = .ok (some r) → r.1.inorder.Nodup ∧ r.1.inorder ⊆ n.inorder)
    (ih : RemoveSpec t (.child e a) (some a) n code res) :
    RemoveSpec t s par (join e a n f)
      (do
        let (found, t) ← code
        if !found then return (false, t)
        let t ← avltreeRebalance ops t s (.child e a)
        return (true, t))
      (do return (← res).map (ascend e a f)) := by
  obtain ⟨hn, hf, han, haf, hnf⟩ := nodup_inorder_join.1 hnd
  rcases res with err | (_ | r)
  · rw [ih]; rfl
  · rw [ih]; rfl
  obtain ⟨t₁, rfl, h2, h3⟩ := ih
  obtain ⟨hn', hsub⟩ := hres r rfl
  obtain ⟨t', h4, h5, h6⟩ := h2.ascend ops (rep_join.1 hr).1 hload hn' hsub han haf hf
    (fun y hy hy' => hnf y hy' hy) (fun y => mem_inorder_join) hs
  refine ⟨t', ?_, h5, by rw [h6, h3, ascend, Bool.or_assoc]⟩
  simp [h4]

/-- What the splice writes, at a node `m` with the children `lc` and `rc` of the node `a`. -/
theorem avltreeSplice_node (ham : a ≠ m) {lc rc : Option ν} (hl : (t.node a).left = lc)
    (hr : (t.node a).right = rc) (hlm : lc ≠ some m) (hrm : rc ≠ some m)
    (hlr : ∀ x, lc = some x → rc ≠ some x) :
    (avltreeSplice t a m).node m =
      (((t.node m).setChild .left lc).setChild .right rc).setParent (t.node a).parent ∧
    (∀ x, lc = some x ∨ rc = some x → (avltreeSplice t a m).node x =
      (t.node x).setParent (some m)) ∧
    (∀ x, x ≠ m → lc ≠ some x → rc ≠ some x → (avltreeSplice t a m).node x = t.node x) := by
  cases lc with
  | none =>
    cases rc with
    | none => simp +contextual [avltreeSplice, hl, hr, ham]
    | some rc =>
      have hrm : rc ≠ m := by rintro rfl; exact hrm rfl
      simp +contextual [avltreeSplice, hl, hr, ham, hrm, hrm.symm, eq_comm]
  | some lc => ?_
  have hlm : lc ≠ m := by rintro rfl; exact hlm rfl
  cases rc with
  | none => simp +contextual [avltreeSplice, hl, hr, ham, hlm, hlm.symm, eq_comm]
  | some rc =>
    have hrm : rc ≠ m := by rintro rfl; exact hrm rfl
    have hlr : lc ≠ rc := by rintro rfl; exact hlr _ rfl rfl
    simp +contextual [avltreeSplice, hl, hr, ham, hlm, hlm.symm, hrm, hrm.symm, hlr, hlr.symm,
      eq_comm, or_imp]

@[simp] theorem avltreeSplice_root (a m : ν) : (avltreeSplice t a m).root = t.root := by
  simp only [avltreeSplice, Avltree.setParent?]; split <;> split <;> rfl

@[simp] theorem avltreeSplice_reachedDefault (a m : ν) :
    (avltreeSplice t a m).reachedDefault = t.reachedDefault := by
  simp only [avltreeSplice, Avltree.setParent?]; split <;> split <;> rfl

/-- The splice puts the node `m`, taken out of the right subtree of `a`, in the place of `a`, up to
its height. -/
theorem Linked.splice (h : Linked t₁.node par .right a r' l)
    (hnd : (join .right a r' l).inorder.Nodup) (ham : a ≠ m) (hml : m ∉ l.inorder)
    (hmr : m ∉ r'.inorder) :
    Linked (avltreeSplice t₁ a m).node par .right m r' l ∧
      SameBut (m :: (join .right a r' l).inorder) t₁ (avltreeSplice t₁ a m) := by
  obtain ⟨hrn, hln, -, -, hrl⟩ := nodup_inorder_join.1 hnd
  have root_mem {u : BinaryTree ν} {c : ν} (hc : u.root? = some c) : c ∈ u.inorder :=
    mem_inorder_of_root? hc
  obtain ⟨h1, h2, h3⟩ := avltreeSplice_node ham h.childFar h.childNear
    (fun hc => hml (root_mem hc)) (fun hc => hmr (root_mem hc))
    fun x hx hx' => hrl x (root_mem hx') (root_mem hx)
  have hne {x y : ν} {u : BinaryTree ν} (hy : y ∉ u.inorder) (hx : x ∈ u.inorder) : x ≠ y := by
    rintro rfl; exact hy hx
  refine ⟨⟨?_, ?_, ?_, ?_, ?_⟩, ⟨fun x hx => ?_, by simp⟩⟩
  · rw [h1, parent_setParent, h.parent]
  · rw [h1]; rfl
  · rw [h1]; rfl
  · exact h.repNear.reparent hrn (fun x hx => h2 x (.inr hx)) fun x hx hc =>
      h3 x (hne hmr hx) (fun hc' => hrl x hx (root_mem hc')) hc
  · exact h.repFar.reparent hln (fun x hx => h2 x (.inl hx)) fun x hx hc =>
      h3 x (hne hml hx) hc fun hc' => hrl x (root_mem hc') hx
  simp only [mem_cons, mem_inorder_join, not_or] at hx
  exact h3 x hx.1 (fun hc => hx.2.2.2 (root_mem hc)) fun hc => hx.2.2.1 (root_mem hc)

/-- `avltree_remove_helper` at a node with two children, once the leftmost node `m` of its right
subtree has been removed from there. -/
theorem Leaves.removeBoth (h : Leaves t t₁ (.child .right a) (some a) r' r.inorder)
    (hl : Linked t.node par .right a r l) (hnd : (join .right a r l).inorder.Nodup)
    (hs : s.Outside (join .right a r l).inorder) (hm : m ∈ r.inorder)
    (hr' : r'.inorder = r.inorder.erase m) :
    ∃ t', avltreeRebalance ops ((avltreeSplice t₁ a m).store s (some m)) s (.child .right m) =
        .ok t' ∧
      Leaves t t' s par (rebalance .right m r' l) (join .right a r l).inorder ∧
      t'.reachedDefault = (t₁.reachedDefault || offRange r' l) := by
  obtain ⟨hrn, hln, har, hal, hrl⟩ := nodup_inorder_join.1 hnd
  have ham : a ≠ m := by rintro rfl; exact har hm
  have hml : m ∉ l.inorder := hrl m hm
  have hmr : m ∉ r'.inorder := by rw [hr']; exact hrn.not_mem_erase
  have hsub : r'.inorder ⊆ r.inorder := by rw [hr']; exact erase_subset
  have hrl' : ∀ x ∈ r'.inorder, x ∉ l.inorder := fun x hx => hrl x (hsub hx)
  have hrn' : r'.inorder.Nodup := by rw [hr']; exact hrn.erase m
  obtain ⟨hl1, hsb1⟩ := h.linked hl har hal fun x hx hx' => hrl x hx' hx
  obtain ⟨hl2, hsb2⟩ := hl1.splice
    (nodup_inorder_join.2 ⟨hrn', hln, fun hx => har (hsub hx), hal, hrl'⟩) ham hml hmr
  -- all the writes so far are to nodes of the tree
  have hsb : SameBut (join .right a r l).inorder t (avltreeSplice t₁ a m) := by
    refine ⟨fun x hx => ?_, by rw [hsb2.root, hsb1.root]⟩
    simp only [mem_inorder_join, not_or] at hx
    rw [hsb2.node x, hsb1.node x]
    · simp [hx.1, hx.2.1]
    simp only [mem_cons, mem_inorder_join, not_or]
    exact ⟨fun hxm => hx.2.1 (hxm ▸ hm), hx.1, fun hx' => hx.2.1 (hsub hx'), hx.2.2⟩
  have hin : (join .right m r' l).inorder ⊆ (join .right a r l).inorder := by
    intro x hx
    simp only [mem_inorder_join] at hx ⊢
    rcases hx with rfl | hx | hx
    exacts [.inr (.inl hm), .inr (.inl (hsub hx)), .inr (.inr hx)]
  have hs' : s.Outside (join .right m r' l).inorder := hs.mono hin
  have keep {x : ν} (hx : x ∈ (join .right m r' l).inorder) :
      ((avltreeSplice t₁ a m).store s (some m)).node x = (avltreeSplice t₁ a m).node x :=
    store_node_of_outside hs' _ hx
  have hl3 : Linked ((avltreeSplice t₁ a m).store s (some m)).node par .right m r' l := by
    have hmm := keep (x := m) (by simp)
    refine ⟨by rw [hmm, hl2.parent], by rw [hmm, hl2.childNear], by rw [hmm, hl2.childFar],
      hl2.repNear.congr fun x hx => keep ?_, hl2.repFar.congr fun x hx => keep ?_⟩
    · exact mem_inorder_join.2 (.inr (.inl hx))
    exact mem_inorder_join.2 (.inr (.inr hx))
  obtain ⟨t', h1, h2, h3⟩ := hl3.rebalance ops
    (nodup_inorder_join.2 ⟨hrn', hln, hmr, hml, hrl'⟩) (load_store s _) hs'
  refine ⟨t', h1, ⟨h2.rep, fun x hx => ?_, ?_⟩, by rw [h3]; simp⟩
  · rw [h2.node x fun hx' => hx (hin hx'), store_store, store_node_congr (hsb.node x hx)]
  rw [h2.root, store_store, store_root_congr hsb.root]

/-- `avltree_remove_helper` at a node with at most one child, which takes the node's place. -/
theorem Linked.removeSingle {d : Side} (h : Linked t.node par d a n .nil)
    (hnd : (join d a n .nil).inorder.Nodup) (hs : s.Outside (join d a n .nil).inorder) :
    Leaves t ((t.store s n.root?).setParent? n.root? par) s par n (join d a n .nil).inorder := by
  have mem {x : ν} (hx : x ∈ n.inorder) : x ∈ (join d a n .nil).inorder :=
    mem_inorder_join.2 (.inr (.inl hx))
  have keep {x : ν} (hx : x ∈ n.inorder) : (t.store s n.root?).node x = t.node x :=
    store_node_of_outside hs _ (mem hx)
  cases hn : n.root? with
  | none =>
    rw [root?_eq_none] at hn
    subst hn
    exact ⟨trivial, fun _ _ => rfl, rfl⟩
  | some c => ?_
  rw [hn] at keep
  have hc := mem_inorder_of_root? hn
  refine ⟨?_, fun x hx => ?_, ?_⟩
  · refine h.repNear.reparent (nodup_inorder_join.1 hnd).1 (fun x hx => ?_) fun x hx hxc => ?_
    · rw [hn] at hx; cases hx
      simp [keep hc]
    have hxc : x ≠ c := by rintro rfl; exact hxc hn
    simp [keep hx, hxc]
  · have hxc : x ≠ c := by rintro rfl; exact hx (mem hc)
    simp [hn, hxc]
  simp [hn]

/-- **`avltree_remove_helper`.** At a slot that holds a tree the code computes `Avl.remove`. -/
theorem Rep.removeHelper :
    ∀ {t : Avltree ν δ} {x : ν} {fuel : Nat} {par : Option ν} {s : Slot ν}, tr.height < fuel →
      Rep t.node par tr → t.load s = tr.root? → tr.inorder.Nodup → s.Outside tr.inorder →
      RemoveSpec t s par tr (avltreeRemoveHelper ops fuel t s x)
        (remove (avltreeCompareNodes ops) tr x) := by
  induction tr with
  | nil =>
    rintro t x (_ | fuel) par s hf - hload - -
    · omega
    simp [avltreeRemoveHelper, hload, remove, RemoveSpec]
  | node a l r ihl ihr => ?_
  rintro t x (_ | fuel) par s hf hr hload hnd hs
  · omega
  have hh := height_lt_of_node hf
  obtain ⟨hln, hrn, hal, har, hlr⟩ := nodup_inorder_join (d := .left).1 hnd
  have hlout : (Slot.child .left a).Outside l.inorder := by rintro _ _ ⟨⟩; exact hal
  have hrout : (Slot.child .right a).Outside r.inorder := by rintro _ _ ⟨⟩; exact har
  have removed {n : BinaryTree ν} {y : ν} (hn : n.inorder.Nodup) (res : BinaryTree ν × Bool)
      (h : remove (avltreeCompareNodes ops) n y = .ok (some res)) :
      res.1.inorder.Nodup ∧ res.1.inorder ⊆ n.inorder := by
    rw [(inorder_of_remove _ hn h).2]
    exact ⟨hn.erase y, erase_subset⟩
  have hright {y : ν} := ihr (x := y) (s := .child .right a) hh.2 hr.2.2.2.2.2 hr.2.2.1 hrn hrout
  have hdl := RemoveSpec.descend ops (e := .left) (f := r) hr hload hnd hs (removed hln)
    (ihl (x := x) hh.1 hr.2.2.2.2.1 hr.2.1 hln hlout)
  have hdr := RemoveSpec.descend ops (e := .right) (f := l) hr hload hnd hs (removed hrn)
    (hright (y := x))
  simp only [avltreeRemoveHelper, hload, root?_node, remove]
  cases avltreeCompareNodes ops x a with
  | lt => exact hdl
  | gt => exact hdr
  | eq => ?_
  dsimp only
  split
  case isTrue hne => exact hdr
  case isFalse hax =>
    have keep (p : Option ν) : (t.store s p).node a = t.node a :=
      store_node_of_outside hs p (by simp)
    have hlr' : (t.node a).left = l.root? ∧ (t.node a).right = r.root? := ⟨hr.2.1, hr.2.2.1⟩
    simp only [hlr'.1, hlr'.2, hr.1, root?_eq_none, keep]
    split
    case isTrue hrn' =>
      subst hrn'
      exact ⟨_, rfl, Linked.removeSingle (rep_join (d := .left).1 hr).1 hnd hs, by simp⟩
    case isFalse hrn' =>
      split
      case isTrue hln' =>
        subst hln'
        exact ⟨_, rfl, Linked.removeSingle (rep_join (d := .right).1 hr).1 hnd hs, by simp⟩
      case isFalse hln' =>
        have hm : avltreeLeftestSubnode t fuel r.root? = .ok (some (r.leftmostD a)) := by
          cases r with
          | nil => exact absurd rfl hrn'
          | node b rl rr => exact hr.2.2.2.2.2.leftestSubnode a hh.2.le
        specialize hright (y := r.leftmostD a)
        rcases hres : remove (avltreeCompareNodes ops) r (r.leftmostD a) with err | _ | res
        iterate 2
          · rw [hres, RemoveSpec] at hright
            simp [hm, hright, RemoveSpec]
        rw [hres] at hright
        obtain ⟨t₁, h1, h2, h3⟩ := hright
        obtain ⟨hmem, her⟩ := inorder_of_remove _ hrn hres
        obtain ⟨t', h4, h5, h6⟩ := h2.removeBoth ops (rep_join.1 hr).1 hnd hs hmem her
        refine ⟨t', ?_, h5, by rw [h6, h3, ascend, Bool.or_assoc]⟩
        simp [hm, h1, h4]

end Stanix
