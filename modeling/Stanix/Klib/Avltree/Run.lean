import Stanix.Klib.Avltree.Walk
import Stanix.Klib.Avltree.Balance
import Mathlib.Data.Finset.Card

/-!
# Runs of insertions and removals

Calls of `avltree_insert` and `avltree_remove`, in any order and number, from an empty tree. A run
refines a finite set of nodes (`avltree_run_refines`), whatever the balance. It keeps every height
and every balance factor right exactly as long as no removal needs the double rotation that
`avltree_rebalance` does not make (`avltree_balanced_iff`).
-/

namespace Stanix

open Avl List BinaryTree Avltree

variable {ν κ δ : Type} [DecidableEq ν] {ops : AvltreeOps ν κ δ} {t : Avltree ν δ}
  {tr : BinaryTree ν} {fuel : Nat} {S : Finset ν} {par : Option ν}

/-- One call. The caller of an insertion hands over a node with NULL children and with anything in
its other fields. -/
inductive AvltreeCall (ν δ : Type)
  | insert (n : ν) (parent : Option ν) (height : Nat) (data : δ)
  | remove (n : ν)

/-- The effect of a call, with the result of a removal. -/
def avltreeCall (ops : AvltreeOps ν κ δ) (fuel : Nat) (t : Avltree ν δ) :
    AvltreeCall ν δ → Exec (Option Bool × Avltree ν δ)
  | .insert n parent height data => do
    let t := { t.setNode n ⟨parent, none, none, height⟩ with data := Function.update t.data n data }
    return (none, ← avltreeInsert ops fuel t n)
  | .remove n => do
    let (found, t) ← avltreeRemove ops fuel t n
    return (some found, t)

/-- A memory whose root pointer leads to a search tree. -/
structure Avltree.Holds (ops : AvltreeOps ν κ δ) (t : Avltree ν δ) (tr : BinaryTree ν) : Prop where
  root : t.root = tr.root?
  rep : Rep t.node none tr
  sorted : tr.inorder.Pairwise ops.Lt

namespace Avltree.Holds

omit [DecidableEq ν] in
theorem empty (h : t.root = none) : t.Holds ops .nil :=
  ⟨h, trivial, .nil⟩

omit [DecidableEq ν] in
theorem toTree (h : t.Holds ops tr) (hf : tr.height ≤ fuel) : t.toTree fuel = tr := by
  rw [Avltree.toTree, h.root, h.rep.treeAt hf]

/-- **`avltree_insert`** of a new node. -/
theorem insert {n : ν} (ho : ops.OrderOn (n :: tr.inorder)) (h : t.Holds ops tr)
    (hn : n ∉ tr.inorder) (hf : tr.height < fuel) (parent : Option ν) (height : Nat) (data : δ) :
    ∃ t', avltreeCall ops fuel t (.insert n parent height data) = .ok (none, t') ∧
      t'.Holds ops (insert (avltreeCompareNodes ops) n tr) ∧
      t'.reachedDefault =
        (t.reachedDefault || insertOffRange (avltreeCompareNodes ops) n tr) := by
  let t1 := { t.setNode n ⟨parent, none, none, height⟩ with data := Function.update t.data n data }
  have hold (x : ν) (hx : x ∈ tr.inorder) : (t1.setHeight n 1).node x = t.node x := by
    have hxn : x ≠ n := by rintro rfl; exact hn hx
    simp [t1, hxn, setNode]
  obtain ⟨t', h1, h2, h3⟩ := Rep.insertHelper ops (t := t1.setHeight n 1) (x := n)
    (by simp [t1, setNode, AvltreeNode.setHeight])
    (by simp [t1, setNode, AvltreeNode.setHeight]) (by simp) (s := .root) hf
    (h.rep.congr hold) h.root
    (nodup_cons.2 ⟨hn, (ho.subset (subset_cons_self ..)).nodup h.sorted⟩) (Slot.outside_root _)
  refine ⟨t', ?_, ⟨?_, h2.rep, pairwise_insert_on ho hn h.sorted⟩, h3⟩
  · rw [avltreeCall, avltreeInsert, h1]; rfl
  rw [h2.root]; rfl

/-- **`avltree_remove`** of any node. -/
theorem remove (ho : ops.OrderOn tr.inorder) (h : t.Holds ops tr) (n : ν) (hf : tr.height < fuel) :
    (n ∉ tr.inorder ∧ avltreeCall ops fuel t (.remove n) = .ok (some false, t)) ∨
    (n ∈ tr.inorder ∧ ∃ res t', remove (avltreeCompareNodes ops) tr n = .ok (some res) ∧
      avltreeCall ops fuel t (.remove n) = .ok (some true, t') ∧ t'.Holds ops res.1 ∧
      res.1.inorder = tr.inorder.erase n ∧
      t'.reachedDefault = (t.reachedDefault || res.2)) := by
  have hspec := Rep.removeHelper ops (x := n) (s := .root) hf h.rep h.root
    (ho.nodup h.sorted) (Slot.outside_root _)
  by_cases hn : n ∈ tr.inorder
  · obtain ⟨res, hres⟩ := exists_remove_on ho hn h.sorted
    rw [hres] at hspec
    obtain ⟨t', h1, h2, h3⟩ := hspec
    have he := (inorder_of_remove _ (ho.nodup h.sorted) hres).2
    refine .inr ⟨hn, res, t', hres, ?_, ⟨?_, h2.rep, ?_⟩, he, h3⟩
    · rw [avltreeCall, avltreeRemove, h1]; rfl
    · rw [h2.root]; rfl
    rw [he]; exact h.sorted.sublist erase_sublist
  rw [remove_eq_none hn] at hspec
  refine .inl ⟨hn, ?_⟩
  rw [avltreeCall, avltreeRemove, show avltreeRemoveHelper ops fuel t .root n = _ from hspec]
  rfl

end Avltree.Holds

/-! ## Runs refine a set of nodes -/

/-- What a call does to the set of nodes in the tree. -/
def AvltreeCall.spec (S : Finset ν) : AvltreeCall ν δ → Option Bool × Finset ν
  | .insert n .. => (none, Insert.insert n S)
  | .remove n => (some (n ∈ S), S.erase n)

/-- Only nodes that are not in the tree are inserted. -/
def AvltreeCall.Fresh (S : Finset ν) : AvltreeCall ν δ → Prop
  | .insert n .. => n ∉ S
  | .remove _ => True

/-- The tree in memory is the ordered set `S`, for all that is read from it: its walk, its parent
pointers, its iteration and its lookups. -/
structure Avltree.Implements (ops : AvltreeOps ν κ δ) (fuel : Nat) (t : Avltree ν δ)
    (S : Finset ν) : Prop where
  sorted : (t.toTree fuel).inorder.Pairwise ops.Lt
  mem : ∀ n, n ∈ (t.toTree fuel).inorder ↔ n ∈ S
  parent : ∀ n ∈ S, ∀ d c, (t.node n).child d = some c → (t.node c).parent = some n
  root : ∀ n, t.root = some n → (t.node n).parent = none
  foreach : avltreeForeach fuel t = .ok (t.toTree fuel).inorder
  lookup : ∀ key, (∀ a ∈ S, ∀ b ∈ S, ops.Lt a b →
      (ops.compareKey t key a < 0 → ops.compareKey t key b < 0) ∧
      (ops.compareKey t key a ≤ 0 → ops.compareKey t key b ≤ 0)) →
    ∃ res, avltreeLookup ops fuel t key = .ok res ∧
      (∀ n, res = some n → n ∈ S ∧ ops.compareKey t key n = 0) ∧
      (res = none → ∀ n ∈ S, ops.compareKey t key n ≠ 0)
  firstSuperiorOrEqual : ∀ key, (∀ a ∈ S, ∀ b ∈ S, ops.Lt a b →
      (ops.compareKey t key a < 0 → ops.compareKey t key b < 0) ∧
      (ops.compareKey t key a ≤ 0 → ops.compareKey t key b ≤ 0)) →
    ∃ res, avltreeFirstSuperiorOrEqual ops fuel t key = .ok res ∧
      (∀ n, res = some n → n ∈ S ∧ ops.compareKey t key n ≤ 0 ∧
        ∀ m ∈ S, ops.compareKey t key m ≤ 0 → m = n ∨ ops.Lt n m) ∧
      (res = none → ∀ n ∈ S, 0 < ops.compareKey t key n)

/-- A memory that holds a search tree implements the set of its nodes. -/
theorem Avltree.Holds.implements (ho : ops.StrictOrder) (h : t.Holds ops tr)
    (hS : ∀ n, n ∈ tr.inorder ↔ n ∈ S) (hf : tr.inorder.length < fuel) :
    t.Implements ops fuel S := by
  have hh : tr.height < fuel := tr.height_le_length_inorder.trans_lt hf
  have htr : t.toTree fuel = tr := h.toTree hh.le
  have monotone {key : κ} (hm : ∀ a ∈ S, ∀ b ∈ S, ops.Lt a b →
      (ops.compareKey t key a < 0 → ops.compareKey t key b < 0) ∧
      (ops.compareKey t key a ≤ 0 → ops.compareKey t key b ≤ 0)) :
      ops.MonotoneOn t key tr.inorder :=
    h.sorted.imp_of_mem fun ha hb hab => hm _ ((hS _).1 ha) _ ((hS _).1 hb) hab
  constructor
  case sorted => rw [htr]; exact h.sorted
  case mem => rw [htr]; exact hS
  case parent => exact fun n hn d c hc => h.rep.parent_of_child ((hS n).2 hn) hc
  case root =>
    intro n hn
    rw [h.root] at hn
    cases tr with
    | nil => cases hn
    | node a l r => cases hn; exact h.rep.1
  case foreach => rw [htr]; exact h.rep.foreach h.root (ho.nodup h.sorted) hf
  case lookup =>
    intro key hm
    obtain ⟨res, h1, h2, h3⟩ := h.rep.lookupLoop (monotone hm) hh
    refine ⟨res, by rw [avltreeLookup, h.root, h1], fun n hn => ?_, fun hn n hnS => ?_⟩
    · exact ⟨(hS n).1 (h2 n hn).1, (h2 n hn).2⟩
    exact h3 hn n ((hS n).2 hnS)
  case firstSuperiorOrEqual =>
    intro key hm
    refine ⟨tr.inorder.find? fun n => ops.compareKey t key n ≤ 0, ?_, fun n hn => ?_,
      fun hn n hnS => ?_⟩
    · rw [avltreeFirstSuperiorOrEqual, h.root, h.rep.firstSuperiorOrEqualLoop (monotone hm) hh,
        Option.or_none]
    · obtain ⟨hle, xs, ys, hsplit, hxs⟩ := List.find?_eq_some_iff_append.1 hn
      refine ⟨(hS n).1 (by simp [hsplit]), by simpa using hle, fun m hm' hmle => ?_⟩
      have hsorted := h.sorted
      rw [hsplit, pairwise_append, pairwise_cons] at hsorted
      have hmem := (hS m).2 hm'
      rw [hsplit, mem_append, mem_cons] at hmem
      rcases hmem with hmx | rfl | hmy
      · grind
      · exact .inl rfl
      exact .inr (hsorted.2.1.1 m hmy)
    grind

/-- A node that is inserted compares equal to none in the tree. -/
def AvltreeCall.Apart (ops : AvltreeOps ν κ δ) (S : Finset ν) : AvltreeCall ν δ → Prop
  | .insert n .. => ∀ a ∈ S, ops.compareNodes n a ≠ 0
  | .remove _ => True

theorem AvltreeCall.admissible_fuel {P Q : Finset ν → AvltreeCall ν δ → Prop}
    {calls : List (AvltreeCall ν δ)} (h : Admissible spec P S calls) (hPQ : ∀ S c, P S c → Q S c)
    (hf : S.card + calls.length < fuel) :
    Admissible spec (fun S c => Q S c ∧ S.card + 1 < fuel) S calls := by
  induction calls generalizing S with
  | nil => trivial
  | cons c calls ih => ?_
  rw [length_cons] at hf
  refine ⟨⟨hPQ _ _ h.1, by omega⟩, ih h.2 ?_⟩
  have : (spec S c).2.card ≤ S.card + 1 := by
    cases c with
    | insert n parent height data => exact Finset.card_insert_le n S
    | remove n => exact (Finset.card_erase_le).trans (Nat.le_succ _)
  omega

/-- The memory holds a search tree of exactly the nodes in `S`, and the fuel is enough for it. -/
def Avltree.Refines (ops : AvltreeOps ν κ δ) (fuel : Nat) (t : Avltree ν δ) (S : Finset ν) : Prop :=
  ∃ tr, t.Holds ops tr ∧ (∀ n, n ∈ tr.inorder ↔ n ∈ S) ∧ tr.inorder.length = S.card ∧ S.card < fuel

open AvltreeCall

/-- **One call** refines its effect on the set of nodes. -/
theorem Avltree.Refines.call (ho : ops.TotalPreorder) {c : AvltreeCall ν δ}
    (h : t.Refines ops fuel S) (hc : c.Apart ops S) (hf : S.card + 1 < fuel) :
    ∃ t', avltreeCall ops fuel t c = .ok ((c.spec S).1, t') ∧ t'.Refines ops fuel (c.spec S).2 := by
  obtain ⟨tr, h, hS, hlen, hcard⟩ := h
  have hh : tr.height < fuel := (tr.height_le_length_inorder.trans hlen.le).trans_lt hcard
  have hapart : tr.inorder.Pairwise fun a b => ops.compareNodes a b ≠ 0 :=
    h.sorted.imp fun hab => ne_of_lt hab
  have hon := ho.on hapart
  cases c with
  | insert n parent height data =>
    have hn : n ∉ tr.inorder := fun hn => hc n ((hS n).1 hn) (ho.refl n)
    have ho := ho.on (pairwise_cons.2 ⟨fun a ha => hc a ((hS a).1 ha), hapart⟩)
    have hperm := inorder_insert_perm (avltreeCompareNodes ops) n tr
    obtain ⟨t', h1, h2, -⟩ := h.insert ho hn hh parent height data
    refine ⟨t', h1, _, h2, fun m => ?_, ?_, (Finset.card_insert_le n S).trans_lt hf⟩
    · rw [hperm.mem_iff, mem_cons, hS, spec, Finset.mem_insert]
    rw [hperm.length_eq, length_cons, hlen, spec,
      Finset.card_insert_of_notMem (mt (hS n).2 hn)]
  | remove n => ?_
  rcases h.remove hon n hh with ⟨hn, h1⟩ | ⟨hn, res, t', -, h1, h2, h3, -⟩
  · have hnS : n ∉ S := fun hn' => hn ((hS n).2 hn')
    simp only [spec, hnS, not_false_eq_true, Finset.erase_eq_of_notMem]
    exact ⟨t, h1, tr, h, hS, hlen, hcard⟩
  have hnS : n ∈ S := (hS n).1 hn
  simp only [spec, hnS]
  refine ⟨t', h1, res.1, h2, fun m => ?_, ?_, Finset.card_erase_le.trans_lt hcard⟩
  · rw [h3, (hon.nodup h.sorted).mem_erase_iff, Finset.mem_erase, hS]
  rw [h3, length_erase_of_mem hn, hlen, Finset.card_erase_of_mem hnS]

/-- A run in which no node is inserted that compares equal to one in the tree refines the set of
nodes. -/
theorem Avltree.Refines.run (ho : ops.TotalPreorder) {P : Finset ν → AvltreeCall ν δ → Prop}
    (hP : ∀ S c, P S c → c.Apart ops S) {t₀ : Avltree ν δ} (h₀ : t₀.root = none)
    {calls : List (AvltreeCall ν δ)} (hcalls : Admissible spec P ∅ calls)
    (hf : calls.length < fuel) :
    ∃ t, runOps (avltreeCall ops fuel) t₀ calls = .ok ((specOps spec ∅ calls).1, t) ∧
      t.Refines ops fuel (specOps spec ∅ calls).2 := by
  have hR₀ : t₀.Refines ops fuel ∅ :=
    ⟨.nil, .empty h₀, by simp, rfl, by simpa using Nat.zero_lt_of_lt hf⟩
  exact runOps_refines (fun _ S c hR (hc : c.Apart ops S ∧ _) => hR.call ho hc.1 hc.2) hR₀
    (admissible_fuel hcalls hP (by simpa using hf))

/-- **Every run refines a finite set.** From an empty tree, with a strict total order of the nodes,
every run of insertions of new nodes and of removals returns; each removal answers whether the node
was in the tree; and the memory implements the set of nodes inserted and not removed. -/
theorem avltree_run_refines (ho : ops.StrictOrder) {t₀ : Avltree ν δ} (h₀ : t₀.root = none)
    {calls : List (AvltreeCall ν δ)}
    (hcalls : Admissible AvltreeCall.spec AvltreeCall.Fresh ∅ calls)
    (hf : calls.length < fuel) :
    ∃ t, runOps (avltreeCall ops fuel) t₀ calls = .ok ((specOps AvltreeCall.spec ∅ calls).1, t) ∧
      t.Implements ops fuel (specOps AvltreeCall.spec ∅ calls).2 := by
  have hapart (S : Finset ν) (c : AvltreeCall ν δ) (hc : c.Fresh S) : c.Apart ops S := by
    cases c with
    | insert n _ _ _ => exact fun a ha heq => hc ((ho.zero_iff n a).1 heq ▸ ha)
    | remove _ => trivial
  obtain ⟨t, h1, tr, h, hS, hlen, hcard⟩ := Avltree.Refines.run ho.totalPreorder hapart h₀ hcalls hf
  exact ⟨t, h1, h.implements ho hS (by rw [hlen]; exact hcard)⟩

/-- Nodes and keys that are numbers, in their usual order. -/
def natOps : AvltreeOps Nat Nat Unit where
  compareNodes a b := a - b
  compareKey _ key n := key - n
  recalculate := none

/-- The empty tree over numbers. -/
def natEmpty : Avltree Nat Unit where
  root := none
  node _ := ⟨none, none, none, 0⟩
  data _ := ()

theorem natOps_strictOrder : natOps.StrictOrder where
  zero_iff a b := by simp only [natOps]; omega
  neg_iff a b := by simp only [natOps]; omega
  trans a b c := by simp only [natOps]; omega

/-- A run that inserts `2`, `1` and `3`, removes `2` and asks for `5` in vain. -/
theorem avltree_run_refines_nat :
    ∃ t, runOps (avltreeCall natOps 8) natEmpty
        [.insert 2 none 0 (), .insert 1 none 0 (), .insert 3 none 0 (), .remove 2, .remove 5] =
        .ok ([none, none, none, some true, some false], t) ∧ t.Implements natOps 8 {1, 3} := by
  have hS : (specOps spec (∅ : Finset Nat)
      ([.insert 2 none 0 (), .insert 1 none 0 (), .insert 3 none 0 (), .remove 2, .remove 5] :
        List (AvltreeCall Nat Unit))).2 = {1, 3} := by decide
  rw [← hS]
  exact avltree_run_refines natOps_strictOrder rfl
    (by simp [Admissible, spec, AvltreeCall.Fresh]) (by decide)

/-! ## Nodes that compare equal -/

/-- **When removals find their node.** With any total preorder of the nodes, in a run that inserts
no node which compares equal to one in the tree, every removal of a node of the tree returns 1 and
removes that node and no other. -/
theorem avltree_remove_exact (ho : ops.TotalPreorder) {t₀ : Avltree ν δ} (h₀ : t₀.root = none)
    {calls : List (AvltreeCall ν δ)}
    (hcalls : Admissible AvltreeCall.spec (AvltreeCall.Apart ops) ∅ calls)
    (hf : calls.length < fuel) :
    ∃ t, runOps (avltreeCall ops fuel) t₀ calls = .ok ((specOps AvltreeCall.spec ∅ calls).1, t) ∧
      ∀ n, n ∈ (t.toTree fuel).inorder ↔ n ∈ (specOps AvltreeCall.spec ∅ calls).2 := by
  obtain ⟨t, h1, tr, h, hS, hlen, hcard⟩ := Avltree.Refines.run ho (fun _ _ => id) h₀ hcalls hf
  have hh : tr.height ≤ fuel := (tr.height_le_length_inorder.trans hlen.le).trans hcard.le
  exact ⟨t, h1, fun n => by rw [h.toTree hh, hS]⟩

/-- Numbers compared by their tens. -/
def tensOps : AvltreeOps Nat Nat Unit := { natOps with compareNodes a b := a / 10 - b / 10 }

theorem tensOps_totalPreorder : tensOps.TotalPreorder := by
  constructor <;> simp only [tensOps] <;> omega

/-- The removal of `11` leaves `1` and `21`. -/
theorem avltree_remove_exact_tens : ∃ t, runOps (avltreeCall tensOps 8) natEmpty
    [.insert 1 none 0 (), .insert 11 none 0 (), .insert 21 none 0 (), .remove 11] =
      .ok ([none, none, none, some true], t) ∧
    ∀ n, n ∈ (t.toTree 8).inorder ↔ n ∈ ({1, 21} : Finset Nat) := by
  have hS : (specOps spec (∅ : Finset Nat) ([.insert 1 none 0 (), .insert 11 none 0 (),
      .insert 21 none 0 (), .remove 11] : List (AvltreeCall Nat Unit))).2 = {1, 21} := by decide
  rw [← hS]
  exact avltree_remove_exact tensOps_totalPreorder rfl
    (by simp [Admissible, spec, AvltreeCall.Apart, tensOps]) (by decide)

/-- `1`, `2` and `3` compare equal. The third one is inserted behind the second, which a rotation
puts over the first; then the first one is searched on the right. -/
theorem avltree_remove_misses : tensOps.TotalPreorder ∧ ∃ t,
    runOps (avltreeCall tensOps 8) natEmpty
        [.insert 1 none 0 (), .insert 2 none 0 (), .insert 3 none 0 (), .remove 1] =
      .ok ([none, none, none, some false], t) ∧ (t.toTree 8).inorder = [1, 2, 3] :=
  ⟨tensOps_totalPreorder, _, rfl, rfl⟩

/-! ## Runs that stay balanced -/

/-- Every height field is the height of the subtree below its node, every balance factor is `-1`,
`0` or `1`, and `avltree_rebalance` has not taken its `default:` branch. -/
structure Avltree.WellBalanced (fuel : Nat) (t : Avltree ν δ) : Prop where
  height : ∀ n ∈ (t.toTree fuel).inorder,
    (t.node n).height = (Avltree.treeAt t.node fuel (some n)).height
  factor : ∀ n ∈ (t.toTree fuel).inorder,
    -1 ≤ avltreeBalanceFactor t (some n) ∧ avltreeBalanceFactor t (some n) ≤ 1
  reachedDefault : t.reachedDefault = false

/-- Only nodes that are not in the tree are inserted. -/
def Avltree.Admits (fuel : Nat) (t : Avltree ν δ) : AvltreeCall ν δ → Prop
  | .insert n .. => n ∉ (t.toTree fuel).inorder
  | .remove _ => True

instance (fuel : Nat) (t : Avltree ν δ) (c : AvltreeCall ν δ) : Decidable (t.Admits fuel c) :=
  match c with
  | .insert .. => inferInstanceAs (Decidable (_ ∉ _))
  | .remove _ => .isTrue trivial

/-- No removal makes a subtree lower next to a higher one that leans back to it. -/
def Avltree.RotatesOnce (ops : AvltreeOps ν κ δ) (fuel : Nat) (t : Avltree ν δ) :
    AvltreeCall ν δ → Prop
  | .insert .. => True
  | .remove n => n ∈ (t.toTree fuel).inorder →
    removeOk (removalPath (avltreeCompareNodes ops) (t.toTree fuel) n) = true

instance (fuel : Nat) (t : Avltree ν δ) (c : AvltreeCall ν δ) :
    Decidable (t.RotatesOnce ops fuel c) :=
  match c with
  | .insert .. => .isTrue trivial
  | .remove _ => inferInstanceAs (Decidable (_ → _))

omit [DecidableEq ν] in
theorem Rep.height_treeAt {m : ν → AvltreeNode ν} (h : Rep m par tr) {n : ν} (hn : n ∈ tr.inorder)
    (hf : tr.height ≤ fuel) : (m n).height = (Avltree.treeAt m fuel (some n)).height := by
  induction tr generalizing par with
  | nil => cases hn
  | node a l r ihl ihr => ?_
  have hh : l.height ≤ fuel ∧ r.height ≤ fuel := by
    simp only [BinaryTree.height] at hf; omega
  have ⟨_, _, _, h4, h5, h6⟩ := h
  rw [inorder_node, mem_append, mem_cons] at hn
  rcases hn with hn | rfl | hn
  · exact ihl h5 hn hh.1
  · rw [h4, ← root?_node n l r, h.treeAt hf]; rfl
  exact ihr h6 hn hh.2

omit [DecidableEq ν] in
/-- A held tree is balanced when the balance factors the code computes are `-1`, `0` and `1`. -/
theorem Rep.balanced_iff (h : Rep t.node par tr) :
    tr.Balanced ↔ ∀ n ∈ tr.inorder,
      -1 ≤ avltreeBalanceFactor t (some n) ∧ avltreeBalanceFactor t (some n) ≤ 1 := by
  induction tr generalizing par with
  | nil => simp
  | node a l r ihl ihr => ?_
  have hb := h.balanceFactor
  obtain ⟨-, -, -, -, h5, h6⟩ := h
  rw [root?_node, balanceFactor_node] at hb
  simp only [balanced_node, ihl h5, ihr h6, inorder_node, mem_append, mem_cons, or_imp,
    forall_and, forall_eq, hb]
  constructor
  · grind
  grind

omit [DecidableEq ν] in
/-- What `WellBalanced` says of a held tree. -/
theorem Avltree.Holds.wellBalanced_iff (h : t.Holds ops tr) (hf : tr.height ≤ fuel) :
    t.WellBalanced fuel ↔ tr.Balanced ∧ t.reachedDefault = false := by
  have htr := h.toTree hf
  constructor
  · rintro ⟨-, h2, h3⟩
    rw [htr] at h2
    exact ⟨h.rep.balanced_iff.2 h2, h3⟩
  rintro ⟨h2, h3⟩
  refine ⟨fun n hn => ?_, ?_, h3⟩
  · rw [htr] at hn
    exact h.rep.height_treeAt hn hf
  rw [htr]
  exact h.rep.balanced_iff.1 h2

/-- **One call** keeps a well balanced tree so exactly if it needs no double rotation on the way
back up of a removal. -/
theorem Avltree.Holds.call_wellBalanced (ho : ops.StrictOrder) {k : Nat} {c : AvltreeCall ν δ}
    (h : t.Holds ops tr) (hf : tr.inorder.length + (k + 1) < fuel) (hc : t.Admits fuel c) :
    ∃ r t', avltreeCall ops fuel t c = .ok (r, t') ∧
      (∃ tr', t'.Holds ops tr' ∧ tr'.inorder.length + k < fuel) ∧
      (t.WellBalanced fuel → (t'.WellBalanced fuel ↔ t.RotatesOnce ops fuel c)) := by
  have height {s : BinaryTree ν} (hs : s.inorder.length < fuel) : s.height ≤ fuel :=
    s.height_le_length_inorder.trans hs.le
  have hh : tr.height < fuel := tr.height_le_length_inorder.trans_lt (by omega)
  rw [h.wellBalanced_iff hh.le]
  cases c with
  | insert n parent height' data =>
    rw [Avltree.Admits, h.toTree hh.le] at hc
    obtain ⟨t', h1, h2, h3⟩ := h.insert (ho.on _) hc hh parent height' data
    have hlen := (inorder_insert_perm (avltreeCompareNodes ops) n tr).length_eq
    rw [length_cons] at hlen
    refine ⟨none, t', h1, ⟨_, h2, by omega⟩, fun ⟨hb, hd⟩ => ?_⟩
    obtain ⟨h4, h5⟩ := grown_insert (avltreeCompareNodes ops) n hb
    rw [h2.wellBalanced_iff (height (by omega)), h3, hd, h5]
    exact ⟨fun _ => trivial, fun _ => ⟨h4.balanced, rfl⟩⟩
  | remove n => ?_
  rcases h.remove (ho.on _) n hh with ⟨hn, h1⟩ | ⟨hn, res, t', hres, h1, h2, h3, h4⟩
  · refine ⟨_, t, h1, ⟨tr, h, by omega⟩, fun hb => ?_⟩
    rw [h.wellBalanced_iff hh.le, Avltree.RotatesOnce, h.toTree hh.le]
    exact ⟨fun _ hn' => absurd hn' hn, fun _ => hb⟩
  have hlen := length_erase_of_mem hn
  rw [← h3] at hlen
  refine ⟨_, t', h1, ⟨_, h2, by omega⟩, fun ⟨hb, hd⟩ => ?_⟩
  have hs := shrunk_remove hb hres
  rw [h2.wellBalanced_iff (height (by omega)), Avltree.RotatesOnce, h.toTree hh.le, h4, hd]
  constructor
  · rintro ⟨hb', -⟩ -
    by_contra hok
    exact (hs.not_balanced (Bool.eq_false_iff.2 hok)).1 hb'
  exact fun hok => hs.balanced (hok hn)

/-- **When a run stays balanced.** From an empty tree, with a strict total order of the nodes, every
state of a run of insertions of new nodes and of removals is well balanced exactly if no removal of
it makes a subtree lower next to a higher one that leans back to it. -/
theorem avltree_balanced_iff (ho : ops.StrictOrder) {t₀ : Avltree ν δ} (h₀ : t₀.root = none)
    (hd : t₀.reachedDefault = false) {calls : List (AvltreeCall ν δ)}
    (hcalls : CallsAll (avltreeCall ops fuel) (Avltree.Admits fuel) t₀ calls)
    (hf : calls.length < fuel) :
    RunAll (avltreeCall ops fuel) (Avltree.WellBalanced fuel) t₀ calls ↔
      CallsAll (avltreeCall ops fuel) (Avltree.RotatesOnce ops fuel) t₀ calls := by
  have hempty : t₀.Holds ops .nil := .empty h₀
  refine runAll_iff
    (I := fun k t => ∃ tr, t.Holds ops tr ∧ tr.inorder.length + k < fuel)
    (fun k t c ⟨tr, h, hk⟩ hc => h.call_wellBalanced ho hk hc)
    ⟨.nil, hempty, by simpa using hf⟩ ?_ hcalls
  exact (hempty.wellBalanced_iff (Nat.zero_le _)).2 ⟨trivial, hd⟩

/-- With `2`, `1` and `3` inserted, the removal of `1` leaves `2` over `3`. -/
theorem avltree_balanced_nat :
    RunAll (avltreeCall natOps 8) (Avltree.WellBalanced 8) natEmpty
      [.insert 2 none 0 (), .insert 1 none 0 (), .insert 3 none 0 (), .remove 1] := by
  exact (avltree_balanced_iff natOps_strictOrder rfl rfl (by decide) (by decide)).2 (by decide)

/-- With `2`, `1`, `4` and `3` inserted, the removal of `1` leaves `4` over `2` over `3`: the
balance factor of the root `4` is `-2`. -/
theorem avltree_remove_unbalances :
    CallsAll (avltreeCall natOps 8) (Avltree.Admits 8) natEmpty
        [.insert 2 none 0 (), .insert 1 none 0 (), .insert 4 none 0 (), .insert 3 none 0 (),
          .remove 1] ∧
      ¬ RunAll (avltreeCall natOps 8) (Avltree.WellBalanced 8) natEmpty
        [.insert 2 none 0 (), .insert 1 none 0 (), .insert 4 none 0 (), .insert 3 none 0 (),
          .remove 1] := by
  refine ⟨by decide, fun h => ?_⟩
  obtain ⟨h1, -⟩ := (h.final rfl).factor 4 (by decide)
  exact absurd h1 (by decide)

/-- Within `k` rounds `avltree_lookup` answers in a tree of fewer than `fib (k + 2) - 1` nodes. -/
def Avltree.LogLookups (ops : AvltreeOps ν κ δ) (fuel : Nat) (t : Avltree ν δ) : Prop :=
  ∀ key rounds, ops.MonotoneOn t key (t.toTree fuel).inorder →
    (t.toTree fuel).inorder.length + 1 < Nat.fib (rounds + 2) →
    ∃ res, avltreeLookup ops rounds t key = .ok res ∧
      (∀ n, res = some n → n ∈ (t.toTree fuel).inorder ∧ ops.compareKey t key n = 0) ∧
      (res = none → ∀ n ∈ (t.toTree fuel).inorder, ops.compareKey t key n ≠ 0)

/-- **Lookups are logarithmic** in every state of a run in which no removal makes a subtree lower next to
a higher one that leans back to it. -/
theorem avltree_lookup_log (ho : ops.StrictOrder) {t₀ : Avltree ν δ} (h₀ : t₀.root = none)
    (hd : t₀.reachedDefault = false) {calls : List (AvltreeCall ν δ)}
    (hcalls : CallsAll (avltreeCall ops fuel)
      (fun t c => t.Admits fuel c ∧ t.RotatesOnce ops fuel c) t₀ calls) (hf : calls.length < fuel) :
    RunAll (avltreeCall ops fuel) (Avltree.LogLookups ops fuel) t₀ calls := by
  have hempty : t₀.Holds ops .nil := .empty h₀
  refine runAll_of_invariant
    (I := fun k t => ∃ tr, t.Holds ops tr ∧ tr.inorder.length + k < fuel ∧ t.WellBalanced fuel)
    (fun k t ⟨tr, h, hk, hb⟩ key rounds hm hr => ?_) (fun k t c ⟨tr, h, hk, hb⟩ hc => ?_)
    ⟨.nil, hempty, by simpa using hf, ?_⟩ hcalls
  · have hh : tr.height ≤ fuel := tr.height_le_length_inorder.trans (by omega)
    rw [h.toTree hh] at hm hr ⊢
    rw [avltreeLookup, h.root]
    -- a tree of that height has more nodes
    refine h.rep.lookupLoop hm (not_le.1 fun hle => hr.not_ge ?_)
    exact (Nat.fib_mono (Nat.add_le_add_right hle 2)).trans
      ((h.wellBalanced_iff hh).1 hb).1.fib_height_le
  · obtain ⟨r, t', hrun, ⟨tr', h', hk'⟩, hiff⟩ := h.call_wellBalanced ho hk hc.1
    exact ⟨r, t', hrun, tr', h', hk', (hiff hb).2 hc.2⟩
  exact (hempty.wellBalanced_iff (Nat.zero_le _)).2 ⟨trivial, hd⟩

/-- Three nodes are inserted and one of them is removed. -/
theorem avltree_lookup_log_nat : RunAll (avltreeCall natOps 8) (Avltree.LogLookups natOps 8) natEmpty
    [.insert 2 none 0 (), .insert 1 none 0 (), .insert 3 none 0 (), .remove 1] :=
  avltree_lookup_log natOps_strictOrder rfl rfl (by decide) (by decide)

end Stanix
