import Stanix.Mem.Vmm.Clone
import Stanix.Klib.Avltree.Local
import Mathlib.Data.List.Find

/-!
# The segments of a space

`Vmm.Holds` says what the tree of a space is for: a list of segments that are allocated, none of them
empty, each one ending where the next begins or before. On such a list `vmm_tree_compare_nodes` is a
strict order, so that the operations on the tree do what they should (`treeInsert_spec`,
`treeRemove_spec`, `treeNext_spec`, `treeFrom_spec`). `Vmm.Frame` says that a call has touched the
segments of one space only.
-/

namespace Stanix

open Function List

variable {σ Sp E : Type}

/-- The fields of a segment other than its links and its mutex. -/
def VmmSeg.core (seg : VmmSeg) : VmmSeg := { seg with node := VmmSeg.zero.node, lock := 0 }

namespace VmmSeg

variable {a b : VmmSeg} (h : a.core = b.core)

include h

theorem core_start : a.start = b.start := (congrArg start h : a.core.start = b.core.start)

theorem core_stop : a.stop = b.stop := (congrArg stop h : a.core.stop = b.core.stop)

theorem core_prot : a.prot = b.prot := (congrArg prot h : a.core.prot = b.core.prot)

theorem core_flags : a.flags = b.flags := (congrArg flags h : a.core.flags = b.core.flags)

end VmmSeg

namespace Vmm

variable {s s' s'' : Vmm σ Sp} {sp v : Nat} {xs ys zs l r : List Nat}

/-! ## Order -/

/-- Segments that are not empty and follow one another. -/
structure Sorted (seg : Nat → VmmSeg) (xs : List Nat) : Prop where
  nonempty : ∀ v ∈ xs, (seg v).start < (seg v).stop
  sorted : xs.Pairwise fun a b => (seg a).stop ≤ (seg b).start

section Compare

variable {seg : Nat → VmmSeg} {a b : Nat}

theorem compare_neg : vmmTreeCompareNodes seg a b < 0 ↔ (seg a).stop ≤ (seg b).start := by
  unfold vmmTreeCompareNodes
  split
  · simp_all
  split <;> simp_all

theorem compare_pos : 0 < vmmTreeCompareNodes seg a b ↔
    (seg b).start < (seg a).stop ∧ (seg b).stop ≤ (seg a).start := by
  unfold vmmTreeCompareNodes
  split
  · omega
  split
  · omega
  omega

theorem compare_zero : vmmTreeCompareNodes seg a b = 0 ↔
    (seg b).start < (seg a).stop ∧ (seg a).start < (seg b).stop := by
  unfold vmmTreeCompareNodes
  split
  · omega
  split
  · omega
  omega

theorem compareKey_le {addr v : Nat} (h : (seg v).start < (seg v).stop) :
    vmmTreeCompareKey seg addr v ≤ 0 ↔ addr < (seg v).stop := by
  unfold vmmTreeCompareKey
  split
  · omega
  split
  · omega
  omega

theorem compareKey_lt {addr v : Nat} : vmmTreeCompareKey seg addr v < 0 ↔ addr < (seg v).start := by
  unfold vmmTreeCompareKey
  split
  · simp_all
  split <;> simp_all

end Compare

namespace Sorted

variable {seg seg' : Nat → VmmSeg}

theorem sublist (h : Sorted seg xs) (hs : ys.Sublist xs) : Sorted seg ys :=
  ⟨fun v hv => h.nonempty v (hs.subset hv), h.sorted.sublist hs⟩

/-- Segments that got smaller. -/
theorem within (h : Sorted seg xs) (hseg : ∀ v ∈ xs, (seg v).start ≤ (seg' v).start ∧
    (seg' v).stop ≤ (seg v).stop ∧ (seg' v).start < (seg' v).stop) : Sorted seg' xs :=
  ⟨fun v hv => (hseg v hv).2.2, h.sorted.imp_of_mem fun ha hb hab =>
    ((hseg _ ha).2.1.trans hab).trans (hseg _ hb).1⟩

theorem congr (h : Sorted seg xs)
    (hseg : ∀ v ∈ xs, (seg' v).start = (seg v).start ∧ (seg' v).stop = (seg v).stop) :
    Sorted seg' xs := by
  refine h.within fun v hv => ?_
  rw [(hseg v hv).1, (hseg v hv).2]
  exact ⟨le_rfl, le_rfl, h.nonempty v hv⟩

/-- A new segment between two parts of a list. -/
theorem insert {new : Nat} (h : Sorted seg (l ++ r))
    (hother : ∀ x ∈ l ++ r, (seg' x).start = (seg x).start ∧ (seg' x).stop = (seg x).stop)
    (hl : ∀ x ∈ l, (seg x).stop ≤ (seg' new).start) (hr : ∀ x ∈ r, (seg' new).stop ≤ (seg x).start)
    (hne : (seg' new).start < (seg' new).stop) : Sorted seg' (l ++ new :: r) := by
  have h' : Sorted seg' (l ++ r) := h.congr hother
  obtain ⟨hpl, hpr, hlr⟩ := pairwise_append.1 h'.sorted
  refine ⟨fun x hx => ?_, pairwise_append.2 ⟨hpl, pairwise_cons.2 ⟨fun x hx => ?_, hpr⟩,
    fun x hx => forall_mem_cons.2 ⟨?_, hlr x hx⟩⟩⟩
  · rcases mem_cons.1 (perm_middle.subset hx) with rfl | hx
    · exact hne
    exact h'.nonempty x hx
  · rw [(hother x (mem_append_right l hx)).1]
    exact hr x hx
  rw [(hother x (mem_append_left r hx)).2]
  exact hl x hx

variable (h : Sorted seg xs)

include h

/-- Two segments of the list are the same or do not overlap. -/
theorem disjoint {a b : Nat} (ha : a ∈ xs) (hb : b ∈ xs) (hne : a ≠ b) :
    (seg a).stop ≤ (seg b).start ∨ (seg b).stop ≤ (seg a).start := by
  have hall : xs.Pairwise fun a b =>
      (seg a).stop ≤ (seg b).start ∨ (seg b).stop ≤ (seg a).start :=
    h.sorted.imp .inl
  have : Std.Symm fun a b => (seg a).stop ≤ (seg b).start ∨ (seg b).stop ≤ (seg a).start :=
    ⟨fun _ _ => Or.symm⟩
  exact hall.forall ha hb hne

/-- `vmm_tree_compare_nodes` is a strict order of the segments. -/
theorem orderOn : (vmmTreeOps seg).OrderOn xs := by
  refine ⟨fun a ha b hb => compare_zero.trans ?_, fun a ha b hb => ?_, fun a ha b hb c hc => ?_⟩
  · have hna := h.nonempty a ha
    constructor
    · intro hov
      by_contra hab
      have := h.disjoint ha hb hab
      omega
    rintro rfl
    exact ⟨hna, hna⟩
  · have hna := h.nonempty a ha
    have hnb := h.nonempty b hb
    refine compare_neg.trans (Iff.trans ?_ compare_pos.symm)
    omega
  have hnb := h.nonempty b hb
  intro hab hbc
  have hab := compare_neg.1 hab
  have hbc := compare_neg.1 hbc
  exact compare_neg.2 (by omega)

/-- A key compared with the segments. -/
theorem monotoneOn (t : Avltree Nat Unit) (addr : Nat) : (vmmTreeOps seg).MonotoneOn t addr xs := by
  refine h.sorted.imp_of_mem fun {a b} ha hb hab => ⟨fun hlt => ?_, fun hle => ?_⟩
  · have hnb := h.nonempty a ha
    have hlt := compareKey_lt.1 hlt
    exact compareKey_lt.2 (by omega)
  have hnb := h.nonempty b hb
  have hle := (compareKey_le (h.nonempty a ha)).1 hle
  exact (compareKey_le hnb).2 (by omega)

end Sorted

/-! ## Fields after a write -/

section Fields

variable (s : Vmm σ Sp) (seg : VmmSeg) (x : Nat) (t : Avltree Nat Unit) (fd : Option Nat)

theorem setSeg_seg : (s.setSeg v seg).seg x = if x = v then seg else s.seg x :=
  update_apply ..

@[simp] theorem setSeg_self : (s.setSeg v seg).seg v = seg := update_self ..

theorem setSeg_of_ne (h : x ≠ v) : (s.setSeg v seg).seg x = s.seg x := update_of_ne h ..

theorem acquire_seg : (s.acquire v).seg x =
    { s.seg x with lock := if x = v then (s.seg x).lock + 1 else (s.seg x).lock } := by
  rw [acquire, setSeg_seg]
  split
  · next h => rw [h]
  rfl

theorem release_seg : (s.release v).seg x =
    { s.seg x with lock := if x = v then (s.seg x).lock - 1 else (s.seg x).lock } := by
  rw [release, setSeg_seg]
  split
  · next h => rw [h]
  rfl

@[simp] theorem setTree_seg : (s.setTree sp t).seg x = { s.seg x with node := t.node x } := rfl

@[simp] theorem vfsDup_seg : (s.vfsDup fd).seg = s.seg := by cases fd <;> rfl

@[simp] theorem vfsDup_space : (s.vfsDup fd).space = s.space := by cases fd <;> rfl

@[simp] theorem vfsDup_live : (s.vfsDup fd).live = s.live := by cases fd <;> rfl

@[simp] theorem vfsDup_mem : (s.vfsDup fd).mem = s.mem := by cases fd <;> rfl

@[simp] theorem vfsClose_seg : (s.vfsClose fd).seg = s.seg := by cases fd <;> rfl

@[simp] theorem vfsClose_space : (s.vfsClose fd).space = s.space := by cases fd <;> rfl

@[simp] theorem vfsClose_live : (s.vfsClose fd).live = s.live := by cases fd <;> rfl

end Fields

/-! ## The list of a space -/

/-- The tree of a space holds a list of segments that are allocated and follow one another. -/
structure Holds (s : Vmm σ Sp) (sp : Nat) (xs : List Nat) : Prop extends Sorted s.seg xs where
  walks : (s.tree sp).Walks xs
  live : ∀ v ∈ xs, v ∈ s.live

/-- The list of a space depends on its root and on the links and bounds of its own segments. -/
theorem Holds.congr (h : s.Holds sp xs) (hroot : (s'.space sp).root = (s.space sp).root)
    (hseg : ∀ v ∈ xs, (s'.seg v).node = (s.seg v).node ∧ (s'.seg v).start = (s.seg v).start ∧
      (s'.seg v).stop = (s.seg v).stop)
    (hlive : ∀ v ∈ xs, v ∈ s'.live) : s'.Holds sp xs :=
  ⟨h.toSorted.congr fun v hv => (hseg v hv).2, h.walks.congr hroot fun v hv => (hseg v hv).1, hlive⟩

theorem Holds.length_lt (h : s.Holds sp xs) : xs.length < s.fuel := by
  have hsub : xs.toFinset ⊆ s.live := fun v hv => h.live v (List.mem_toFinset.1 hv)
  have := Finset.card_le_card hsub
  rw [List.toFinset_card_of_nodup h.walks.nodup] at this
  exact Nat.lt_succ_of_le this

/-- The list that a walk over the tree of a space gives. -/
def segments (s : Vmm σ Sp) (sp : Nat) : List Nat := ((s.tree sp).toTree s.fuel).inorder

theorem Holds.segments_eq (h : s.Holds sp xs) : s.segments sp = xs :=
  h.walks.toTree h.length_lt.le

/-- The tree of a space, after a segment was put in. -/
theorem treeInsert_spec (hw : (s.tree sp).Walks (l ++ r)) (hs : Sorted s.seg (l ++ v :: r))
    (hlive : ∀ x ∈ l ++ v :: r, x ∈ s.live) (hleft : (s.seg v).node.left = none)
    (hright : (s.seg v).node.right = none) :
    ∃ t, vmmTreeInsert s sp v = .ok (s.setTree sp t) ∧ (s.setTree sp t).Holds sp (l ++ v :: r) ∧
      ∀ x, x ∉ l ++ v :: r → t.node x = (s.seg x).node := by
  have hperm : (v :: (l ++ r)).Perm (l ++ v :: r) := List.perm_middle.symm
  have hlen : (l ++ r).length < s.fuel := by
    have hsub : (l ++ r).toFinset ⊆ s.live := fun x hx =>
      hlive x (hperm.subset (List.mem_cons_of_mem _ (List.mem_toFinset.1 hx)))
    have := Finset.card_le_card hsub
    rw [List.toFinset_card_of_nodup hw.nodup] at this
    exact Nat.lt_succ_of_le this
  obtain ⟨t, hrun, hwalks, hframe⟩ := hw.insert (hs.orderOn.subset hperm.subset)
    (hs.sorted.imp compare_neg.2) hleft hright hlen
  refine ⟨t, ?_, ⟨hs.congr fun _ _ => ⟨rfl, rfl⟩, ?_, hlive⟩, fun x hx => ?_⟩
  · rw [vmmTreeInsert, hrun]
    rfl
  · refine hwalks.congr ?_ fun x _ => rfl
    show (update s.space sp _ sp).root = _
    rw [update_self]
  exact hframe x fun hx' => hx (hperm.subset hx')

/-- The tree of a space, after a segment was taken out. -/
theorem treeRemove_spec (h : s.Holds sp xs) (hv : v ∈ xs) :
    ∃ t, vmmTreeRemove s sp v = .ok (s.setTree sp t) ∧ (s.setTree sp t).Holds sp (xs.erase v) ∧
      ∀ x, x ∉ xs → t.node x = (s.seg x).node := by
  obtain ⟨t, hrun, hwalks, hframe⟩ := h.walks.remove h.orderOn (h.sorted.imp compare_neg.2) hv
    h.length_lt
  have hsub : (xs.erase v).Sublist xs := List.erase_sublist
  refine ⟨t, ?_, ⟨(h.toSorted.sublist hsub).congr fun _ _ => ⟨rfl, rfl⟩, ?_,
    fun x hx => h.live x (hsub.subset hx)⟩, hframe⟩
  · rw [vmmTreeRemove, hrun]
    rfl
  refine hwalks.congr ?_ fun x _ => rfl
  show (update s.space sp _ sp).root = _
  rw [update_self]

theorem treeNext_spec (h : s.Holds sp (l ++ v :: r)) : vmmTreeNext s sp v = .ok r.head? :=
  h.walks.next h.length_lt

theorem treeFirst_spec (h : s.Holds sp xs) : avltreeFirst s.fuel (s.tree sp) = .ok xs.head? :=
  h.walks.first h.length_lt

/-- The first segment that ends after an address. -/
theorem treeFrom_spec (h : s.Holds sp xs) (addr : Nat) :
    vmmTreeFrom s sp addr = .ok (xs.find? fun v => addr < (s.seg v).stop) := by
  rw [vmmTreeFrom, h.walks.firstSuperiorOrEqual (h.monotoneOn _ addr) h.length_lt]
  congr 1
  refine List.find?_congr fun v hv => ?_
  exact decide_eq_decide.2 (compareKey_le (h.nonempty v hv))

/-! ## Calls on one space -/

/-- A call on a space has touched the segments of a list, and segments that were not allocated before
it, and no other segment and no other space. -/
structure Frame (s s' : Vmm σ Sp) (sp : Nat) (xs : List Nat) : Prop where
  seg : ∀ v ∈ s.live, v ∉ xs → s'.seg v = s.seg v ∧ v ∈ s'.live
  space : ∀ sp', sp' ≠ sp → s'.space sp' = s.space sp'
  addrspace : (s'.space sp).addrspace = (s.space sp).addrspace

theorem Frame.refl (s : Vmm σ Sp) (sp : Nat) (xs : List Nat) : Frame s s sp xs :=
  ⟨fun _ hv _ => ⟨rfl, hv⟩, fun _ _ => rfl, rfl⟩

theorem Frame.trans (h : Frame s s' sp xs) (h' : Frame s' s'' sp ys)
    (hys : ∀ v ∈ ys, v ∈ xs ∨ v ∉ s.live) : Frame s s'' sp xs := by
  refine ⟨fun v hv hx => ?_, fun sp' hsp => ?_, h'.addrspace.trans h.addrspace⟩
  · obtain ⟨h1, h2⟩ := h.seg v hv hx
    have hy : v ∉ ys := fun hy => (hys v hy).elim hx (fun hnl => hnl hv)
    obtain ⟨h3, h4⟩ := h'.seg v h2 hy
    exact ⟨h3.trans h1, h4⟩
  rw [h'.space sp' hsp, h.space sp' hsp]

/-- The list of another space is as before. -/
theorem Frame.holds {sp' : Nat} (h : Frame s s' sp xs) (hne : sp' ≠ sp) (hold : s.Holds sp' ys)
    (hdisj : ys.Disjoint xs) : s'.Holds sp' ys := by
  have hseg (v : Nat) (hv : v ∈ ys) := h.seg v (hold.live v hv) (hdisj hv)
  refine hold.congr (by rw [h.space sp' hne]) (fun v hv => ?_) fun v hv => (hseg v hv).2
  rw [(hseg v hv).1]
  exact ⟨rfl, rfl, rfl⟩

/-- A call that takes a space from one list of segments to another, and adds no address to it: what is
a segment afterwards is a part of a segment before, with the same flags. -/
structure Changes (s s' : Vmm σ Sp) (sp : Nat) (xs ys : List Nat) : Prop
    extends Frame s s' sp xs where
  holds : s'.Holds sp ys
  fresh : ∀ v ∈ ys, v ∈ xs ∨ v ∉ s.live
  within : ∀ v ∈ ys, ∃ u ∈ xs, (s.seg u).start ≤ (s'.seg v).start ∧
    (s'.seg v).stop ≤ (s.seg u).stop ∧ (s'.seg v).flags = (s.seg u).flags

theorem Changes.refl (h : s.Holds sp xs) : Changes s s sp xs xs :=
  ⟨.refl s sp xs, h, fun _ hv => .inl hv, fun v hv => ⟨v, hv, le_rfl, le_rfl, rfl⟩⟩

theorem Changes.trans (h : Changes s s' sp xs ys) (h' : Changes s' s'' sp ys zs) :
    Changes s s'' sp xs zs := by
  refine ⟨h.toFrame.trans h'.toFrame h.fresh, h'.holds, fun v hv => ?_, fun v hv => ?_⟩
  · rcases h'.fresh v hv with hy | hnl
    · exact h.fresh v hy
    by_cases hx : v ∈ xs
    · exact .inl hx
    exact .inr fun hl => hnl (h.seg v hl hx).2
  obtain ⟨u, hu, h1, h2, h3⟩ := h'.within v hv
  obtain ⟨w, hw, h4, h5, h6⟩ := h.within u hu
  exact ⟨w, hw, h4.trans h1, h2.trans h5, h3.trans h6⟩

/-- A call that keeps the list, the links and the bounds of the segments. -/
theorem Changes.of_core (h : s.Holds sp xs) (hspace : s'.space = s.space)
    (hseg : ∀ v ∈ xs, (s'.seg v).node = (s.seg v).node ∧ (s'.seg v).start = (s.seg v).start ∧
      (s'.seg v).stop = (s.seg v).stop ∧ (s'.seg v).flags = (s.seg v).flags)
    (hother : ∀ v ∈ s.live, v ∉ xs → s'.seg v = s.seg v) (hlive : s.live ⊆ s'.live) :
    Changes s s' sp xs xs := by
  refine ⟨⟨fun v hv hx => ⟨hother v hv hx, hlive hv⟩, fun sp' _ => by rw [hspace],
    by rw [hspace]⟩, ?_, fun _ hv => .inl hv, fun v hv => ⟨v, hv, ?_⟩⟩
  · refine h.congr (by rw [hspace]) (fun v hv => ?_) fun v hv => hlive (h.live v hv)
    obtain ⟨h1, h2, h3, -⟩ := hseg v hv
    exact ⟨h1, h2, h3⟩
  grind

/-- The list of a space while one of its segments gets another protection or mutex, and the answers of
the slab and the memory change. -/
theorem Changes.of_setSeg (h : s.Holds sp xs) (hv : v ∈ xs) (seg : VmmSeg) (slab : List (Option Nat))
    (mem : σ) (hcore : seg.node = (s.seg v).node ∧ seg.start = (s.seg v).start ∧
      seg.stop = (s.seg v).stop ∧ seg.flags = (s.seg v).flags) :
    Changes s { s.setSeg v seg with slab := slab, mem := mem } sp xs xs := by
  refine .of_core h rfl (fun x _ => ?_) (fun x _ hx => ?_) fun _ hx => hx
  · rw [setSeg_seg]
    split
    · next hxv => rw [hxv]; exact hcore
    exact ⟨rfl, rfl, rfl, rfl⟩
  exact setSeg_of_ne _ _ _ fun hxv => hx (hxv ▸ hv)

end Vmm

end Stanix
