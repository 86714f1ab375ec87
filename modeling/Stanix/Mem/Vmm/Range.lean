import Stanix.Mem.Vmm.Split
import Mathlib.Data.List.TakeWhile

/-!
# Calls on ranges of a space

What `vmm_space_unmap_range` and `vmm_space_chprot_range` can do to the segments of a space is said
once: a step (`SegStep`) splits a segment, takes one out, sets the protection of one, or does nothing
to the segments; a call is a sequence of such steps (`SegRun`). When `vmm_space_unmap_range` succeeds,
no segment meets the range (`unmapRange_spec`); `chprotRange_spec` is its counterpart.
-/

namespace Stanix

open VmmSeg Exec List

/-- What there is at an address of a space: the file and the position in it, the rights and the
driver. -/
structure SegView where
  fd : Option Nat
  position : Nat
  prot : BitVec 64
  flags : BitVec 64
  ops : Option Nat

/-- A segment as it is seen at an address. -/
def VmmSeg.view (seg : VmmSeg) (a : Nat) : Option SegView :=
  if seg.start ≤ a ∧ a < seg.stop then
    some ⟨seg.fd, wrap (seg.offset + (a - seg.start)), seg.prot, seg.flags, seg.ops⟩
  else none

namespace Vmm

/-- What there is at an address, among the segments of a list. -/
def view (seg : Nat → VmmSeg) (xs : List Nat) (a : Nat) : Option SegView :=
  xs.findSome? fun x => (seg x).view a

variable {σ Sp E : Type} {M : Mmu σ Sp E} {D : VmmDrivers σ Sp}
  {s s' s'' : Vmm σ Sp} {sp v cut start stop : Nat} {l r xs ys zs : List Nat} {ret : Option Errno}
  {prot : BitVec 64} {seg : Nat → VmmSeg} {new rounds : Nat}

/-! ## Steps -/

/-- What a step of a call on a space does. -/
inductive SegCase (sp : Nat) (s s' : Vmm σ Sp) :
    List Nat → List Nat → Prop
  /-- No segment has changed but in its mutex. -/
  | quiet {xs : List Nat} (hcore : ∀ x, (s'.seg x).core = (s.seg x).core) : SegCase sp s s' xs xs
  /-- A segment was split. -/
  | split {l r : List Nat} {v cut new : Nat} (h : SplitAt s s' sp v cut new) :
      SegCase sp s s' (l ++ v :: r) (l ++ v :: new :: r)
  /-- A segment was taken out. -/
  | unmap {xs : List Nat} {v : Nat} (hcore : ∀ x, x ≠ v → (s'.seg x).core = (s.seg x).core) :
      SegCase sp s s' xs (xs.erase v)
  /-- A segment got another protection. -/
  | protect {xs : List Nat} {v : Nat} (prot : BitVec 64)
      (hcore : ∀ x, x ≠ v → (s'.seg x).core = (s.seg x).core)
      (hseg : (s'.seg v).core = { (s.seg v).core with prot := prot }) :
      SegCase sp s s' xs xs

/-- A step of a call on a space. -/
structure SegStep (sp : Nat) (s : Vmm σ Sp) (xs : List Nat) (s' : Vmm σ Sp) (ys : List Nat) : Prop where
  before : s.Holds sp xs
  changes : Changes s s' sp xs ys
  kind : SegCase sp s s' xs ys

/-- A sequence of steps. -/
def SegRun (sp : Nat) (s : Vmm σ Sp) (xs : List Nat) (s' : Vmm σ Sp) (ys : List Nat) : Prop :=
  Relation.ReflTransGen (fun p q => SegStep sp p.1 p.2 q.1 q.2) (s, xs) (s', ys)

namespace SegRun

theorem refl (sp : Nat) (s : Vmm σ Sp) (xs : List Nat) : SegRun sp s xs s xs :=
  Relation.ReflTransGen.refl

theorem trans (h : SegRun sp s xs s' ys) (h' : SegRun sp s' ys s'' zs) :
    SegRun sp s xs s'' zs :=
  Relation.ReflTransGen.trans h h'

theorem single (h : SegStep sp s xs s' ys) : SegRun sp s xs s' ys :=
  Relation.ReflTransGen.single h

theorem invariant {P : Vmm σ Sp → List Nat → Prop}
    (hstep : ∀ s xs s' ys, SegStep sp s xs s' ys → P s xs → P s' ys)
    (h : SegRun sp s xs s' ys) (hP : P s xs) : P s' ys := by
  have : ∀ q, Relation.ReflTransGen (fun p q => SegStep sp p.1 p.2 q.1 q.2) (s, xs) q →
      P q.1 q.2 := by
    intro q hq
    induction hq with
    | refl => exact hP
    | tail _ hlast ih => exact hstep _ _ _ _ hlast ih
  exact this _ h

theorem changes (h : SegRun sp s xs s' ys) (hold : s.Holds sp xs) : Changes s s' sp xs ys :=
  h.invariant (P := fun s' ys => Changes s s' sp xs ys)
    (fun _ _ _ _ hstep hc => hc.trans hstep.changes) (.refl hold)

end SegRun

section

variable (h : SplitAt s s' sp v cut new)

include h

theorem SplitAt.stop_of_ne {x : Nat} (hxv : x ≠ v)
    (hxn : x ≠ new) : (s'.seg x).start = (s.seg x).start ∧ (s'.seg x).stop = (s.seg x).stop :=
  ⟨core_start (h.other x hxv hxn), core_stop (h.other x hxv hxn)⟩

theorem SplitAt.old_bounds : (s'.seg v).start = (s.seg v).start ∧ (s'.seg v).stop = cut := by
  have hstart := congrArg start h.old
  have hstop := congrArg stop h.old
  exact ⟨hstart, hstop⟩

theorem SplitAt.new_bounds : (s'.seg new).start = cut ∧ (s'.seg new).stop = (s.seg v).stop := by
  have hstart := congrArg start h.part
  have hstop := congrArg stop h.part
  exact ⟨hstart, hstop⟩

end

/-! ## What an address is mapped to -/

section View

variable {seg' : Nat → VmmSeg} {a : Nat}

theorem view_append : view seg (xs ++ ys) a = (view seg xs a).or (view seg ys a) :=
  findSome?_append

theorem view_cons : view seg (v :: xs) a = ((seg v).view a).or (view seg xs a) := by
  rw [view, findSome?_cons]
  cases (seg v).view a <;> rfl

theorem view_map_congr {f g : SegView → SegView}
    (h : ∀ x ∈ xs, ((seg' x).view a).map f = ((seg x).view a).map g) :
    (view seg' xs a).map f = (view seg xs a).map g := by
  induction xs with
  | nil => rfl
  | cons x xs ih =>
    rw [view_cons, view_cons, Option.map_or, Option.map_or, h x mem_cons_self,
      ih fun y hy => h y (mem_cons_of_mem x hy)]

theorem view_congr (h : ∀ x ∈ xs, (seg' x).view a = (seg x).view a) :
    view seg' xs a = view seg xs a := by
  simpa using view_map_congr (f := id) (g := id) fun x hx => by rw [h x hx]

theorem core_view {b c : VmmSeg} (h : b.core = c.core) (a : Nat) : b.view a = c.view a :=
  (congrArg (VmmSeg.view · a) h : b.core.view a = c.core.view a)

/-- A split changes nothing at any address. -/
theorem SplitAt.view_eq (hat : SplitAt s s' sp v cut new) (h : s.Holds sp (l ++ v :: r)) :
    view s'.seg (l ++ v :: new :: r) = view s.seg (l ++ v :: r) := by
  funext a
  have hother (x : Nat) (hx : x ∈ l ++ r) : (s'.seg x).view a = (s.seg x).view a :=
    core_view (hat.other x (h.ne_of_mem hat.fresh hx).1 (h.ne_of_mem hat.fresh hx).2) a
  have hparts : ((s'.seg v).view a).or ((s'.seg new).view a) = (s.seg v).view a := by
    have hlo := hat.lo
    have hhi := hat.hi
    have hold : (s'.seg v).view a = ({ s.seg v with stop := cut } : VmmSeg).view a :=
      core_view hat.old a
    have hpart : (s'.seg new).view a = ({ s.seg v with
        start := cut, offset := wrap ((s.seg v).offset + (cut - (s.seg v).start)) } : VmmSeg).view a :=
      (congrArg (VmmSeg.view · a) hat.part : (s'.seg new).core.view a = _)
    rw [hold, hpart]
    by_cases ha : a < cut
    · simp only [VmmSeg.view, ha, ha.trans hhi, not_le.2 ha, false_and, if_false, Option.or_none]
    have hposition : wrap (wrap ((s.seg v).offset + (cut - (s.seg v).start)) + (a - cut)) =
        wrap ((s.seg v).offset + (a - (s.seg v).start)) := by
      simp only [wrap]
      omega
    simp only [VmmSeg.view, ha, not_lt.1 ha, hlo.le.trans (not_lt.1 ha), hposition, and_false,
      if_false, Option.none_or]
  simp only [view_append, view_cons, ← hparts, Option.or_assoc]
  rw [view_congr fun x hx => hother x (mem_append_left r hx),
    view_congr fun x hx => hother x (mem_append_right l hx)]

end View

/-- **A split that may be made.** The segments `mid` are what comes behind the old one. -/
theorem splitIf_spec {c : Prop} [Decidable c] {ret : Except Errno Nat} (h : s.Holds sp (l ++ v :: r))
    (hrun : vmmSpaceSplitIf D c s sp v cut = .ok (ret, s')) :
    (∃ err, ret = .error err ∧ SegRun sp s (l ++ v :: r) s' (l ++ v :: r)) ∨
    ∃ u mid, ret = .ok u ∧ SegRun sp s (l ++ v :: r) s' (l ++ v :: (mid ++ r)) ∧
      view s'.seg (l ++ v :: (mid ++ r)) = view s.seg (l ++ v :: r) ∧
      (∀ x ∈ l ++ r, (s'.seg x).core = (s.seg x).core) ∧
      (s'.seg v).start = (s.seg v).start ∧
      (¬ c ∧ u = v ∧ mid = [] ∧ s' = s ∨
        c ∧ mid = [u] ∧ (s'.seg v).stop = cut ∧ (s'.seg u).start = cut) := by
  unfold vmmSpaceSplitIf at hrun
  split at hrun
  · next hc =>
    rcases split_spec h hrun with ⟨err, rfl, hch, hcore⟩ | ⟨new, rfl, hch, hat⟩
    · exact .inl ⟨err, rfl, .single ⟨h, hch, .quiet hcore⟩⟩
    refine .inr ⟨new, [new], rfl, .single ⟨h, hch, .split hat⟩, hat.view_eq h, fun x hx => ?_,
      hat.old_bounds.1, .inr ⟨hc, rfl, hat.old_bounds.2, hat.new_bounds.1⟩⟩
    obtain ⟨hxv, hxn⟩ := h.ne_of_mem hat.fresh hx
    exact hat.other x hxv hxn
  next hc =>
  cases hrun
  exact .inr ⟨v, [], rfl, .refl .., rfl, fun _ _ => rfl, rfl, .inl ⟨hc, rfl, rfl, rfl⟩⟩

/-- The bounds of the segments of a space are bounds of pages, and addresses. -/
structure Paged (seg : Nat → VmmSeg) (xs : List Nat) : Prop where
  start : ∀ x ∈ xs, (seg x).start % pageSize = 0
  stop : ∀ x ∈ xs, (seg x).stop % pageSize = 0
  bounded : ∀ x ∈ xs, (seg x).stop < 2 ^ 64

theorem Paged.pages {v : Nat} (hp : Paged seg xs) (hv : v ∈ xs) :
    (seg v).start = (seg v).start / pageSize * pageSize ∧
      (seg v).stop = (seg v).stop / pageSize * pageSize ∧
      (seg v).stop / pageSize * pageSize < 2 ^ 64 := by
  have h1 := Nat.div_mul_cancel (Nat.dvd_of_mod_eq_zero (hp.start v hv))
  have h2 := Nat.div_mul_cancel (Nat.dvd_of_mod_eq_zero (hp.stop v hv))
  refine ⟨h1.symm, h2.symm, ?_⟩
  rw [h2]
  exact hp.bounded v hv

theorem paged_iff : Paged seg xs ↔ ∀ x ∈ xs, (seg x).start % pageSize = 0 ∧
    (seg x).stop % pageSize = 0 ∧ (seg x).stop < 2 ^ 64 :=
  ⟨fun h x hx => ⟨h.start x hx, h.stop x hx, h.bounded x hx⟩,
    fun h => ⟨fun x hx => (h x hx).1, fun x hx => (h x hx).2.1, fun x hx => (h x hx).2.2⟩⟩

theorem Paged.congr {seg' : Nat → VmmSeg} (h : Paged seg xs) (hsub : ∀ x ∈ ys, x ∈ xs)
    (hseg : ∀ x ∈ ys, (seg' x).start = (seg x).start ∧ (seg' x).stop = (seg x).stop) :
    Paged seg' ys := by
  refine paged_iff.2 fun x hx => ?_
  rw [(hseg x hx).1, (hseg x hx).2]
  exact paged_iff.1 h x (hsub x hx)

/-- Every step keeps the bounds of segments at bounds of pages. -/
theorem SegStep.paged (h : SegStep sp s xs s' ys) (hp : Paged s.seg xs) : Paged s'.seg ys := by
  have hcore {x : Nat} (hx : (s'.seg x).core = (s.seg x).core) :
      (s'.seg x).start = (s.seg x).start ∧ (s'.seg x).stop = (s.seg x).stop :=
    ⟨core_start hx, core_stop hx⟩
  obtain ⟨hold, hch, hkind⟩ := h
  cases hkind with
  | quiet hsame => exact hp.congr (fun x hx => hx) fun x _ => hcore (hsame x)
  | @split l r v cut new hat =>
    have hvx : v ∈ l ++ v :: r := by simp
    have hcases (x : Nat) (hx : x ∈ l ++ v :: new :: r) : x = v ∨ x = new ∨
        (x ∈ l ++ v :: r ∧ (s'.seg x).start = (s.seg x).start ∧
          (s'.seg x).stop = (s.seg x).stop) := by
      by_cases hxv : x = v
      · exact .inl hxv
      by_cases hxn : x = new
      · exact .inr (.inl hxn)
      refine .inr (.inr ⟨?_, hat.stop_of_ne hxv hxn⟩)
      simpa [hxn] using hx
    obtain ⟨hv1, hv2⟩ := hat.old_bounds
    obtain ⟨hn1, hn2⟩ := hat.new_bounds
    have hbv := hp.bounded v hvx
    refine paged_iff.2 fun x hx => ?_
    rcases hcases x hx with rfl | rfl | ⟨hm, h1, h2⟩
    · rw [hv1, hv2]
      exact ⟨hp.start _ hvx, hat.aligned, hat.hi.trans hbv⟩
    · rw [hn1, hn2]
      exact ⟨hat.aligned, hp.stop v hvx, hbv⟩
    rw [h1, h2]
    exact paged_iff.1 hp x hm
  | unmap hsame =>
    refine hp.congr (fun x hx => mem_of_mem_erase hx) fun x hx => hcore (hsame x ?_)
    rintro rfl
    exact hold.walks.nodup.not_mem_erase hx
  | @protect xs v prot hsame hseg => ?_
  refine hp.congr (fun x hx => hx) fun x hx => ?_
  by_cases hxv : x = v
  · have h1 := congrArg start hseg
    have h2 := congrArg stop hseg
    rw [hxv]
    exact ⟨h1, h2⟩
  exact hcore (hsame x hxv)

theorem SegRun.paged (h : SegRun sp s xs s' ys) (hp : Paged s.seg xs) : Paged s'.seg ys :=
  h.invariant (fun _ _ _ _ hstep => hstep.paged) hp

theorem rawUnmap_step (h : s.Holds sp xs) (hv : v ∈ xs)
    (hrun : vmmSpaceRawUnmap M D s sp v = .ok s') : SegStep sp s xs s' (xs.erase v) := by
  obtain ⟨hch, hcore⟩ := rawUnmap_spec h hv hrun
  exact ⟨h, hch, .unmap hcore⟩

/-! ## Unmapping a range -/

theorem treeFrom_append (h : s.Holds sp xs) (start : Nat) :
    ∃ l r, xs = l ++ r ∧ vmmTreeFrom s sp start = .ok r.head? ∧ ∀ x ∈ l, (s.seg x).stop ≤ start := by
  refine ⟨xs.takeWhile fun v => !decide (start < (s.seg v).stop), _,
    takeWhile_append_dropWhile.symm, ?_, fun x hx => ?_⟩
  · rw [treeFrom_spec h, List.find?_eq_head?_dropWhile_not]
  simpa using mem_takeWhile_imp hx

theorem Holds.behind (h : s.Holds sp (l ++ v :: r)) (hge : stop ≤ (s.seg v).start) :
    ∀ x ∈ v :: r, stop ≤ (s.seg x).start := by
  refine forall_mem_cons.2 ⟨hge, fun x hx => ?_⟩
  have := (pairwise_cons.1 (pairwise_append.1 h.sorted).2.1).1 x hx
  have := h.nonempty v (by simp)
  omega

/-- **The loop of `vmm_space_raw_unmap_range`.** The segments `l` are before the range or behind it;
the loop goes on with the others. -/
theorem unmapRangeLoop_spec :
    ∀ {s : Vmm σ Sp} {l r : List Nat}, s.Holds sp (l ++ r) →
      (∀ x ∈ l, (s.seg x).stop ≤ start ∨ stop ≤ (s.seg x).start) →
      vmmUnmapRangeLoop M D sp start stop rounds r.head? s = .ok (ret, s') →
      ∃ ys, SegRun sp s (l ++ r) s' ys ∧ s'.Holds sp ys ∧
        (ret = none → (∀ x ∈ ys, (s'.seg x).stop ≤ start ∨ stop ≤ (s'.seg x).start) ∧
          ∀ a, a < start ∨ stop ≤ a → view s'.seg ys a = view s.seg (l ++ r) a) := by
  induction rounds with
  | zero =>
    intro s l r _ _ hrun
    cases hrun
  | succ rounds ih => ?_
  intro s l r h hl hrun
  cases r with
  | nil =>
    cases hrun
    exact ⟨_, .refl .., h, fun _ => ⟨by rwa [append_nil], fun _ _ => rfl⟩⟩
  | cons v r => ?_
  rw [List.head?_cons, vmmUnmapRangeLoop] at hrun
  split at hrun
  · next hge =>
    cases hrun
    exact ⟨_, .refl .., h, fun _ => ⟨forall_mem_append.2 ⟨hl, fun x hx => .inr (h.behind hge x hx)⟩,
      fun _ _ => rfl⟩⟩
  obtain ⟨node, hnode, hrun⟩ := bind_eq_ok.1 hrun
  cases hnode.symm.trans (treeNext_spec h)
  obtain ⟨⟨ret1, s1⟩, hfront, hrun⟩ := bind_eq_ok.1 hrun
  rcases splitIf_spec h hfront with
    ⟨err, rfl, hrun1⟩ | ⟨u, mid1, rfl, hrun1, hview1, hcore1, -, hcase1⟩
  · cases hrun
    exact ⟨_, hrun1, (hrun1.changes h).holds, nofun⟩
  -- the segment to remove is the new one, if there is one
  obtain ⟨l', hlist, hl1, hu⟩ : ∃ l', l ++ v :: (mid1 ++ r) = l' ++ u :: r ∧
      (∀ x ∈ l', (s1.seg x).stop ≤ start ∨ stop ≤ (s1.seg x).start) ∧ start ≤ (s1.seg u).start := by
    rcases hcase1 with ⟨hc, rfl, rfl, rfl⟩ | ⟨-, rfl, hstop, hstart⟩
    · exact ⟨l, rfl, hl, not_lt.1 hc⟩
    refine ⟨l ++ [v], by simp, forall_mem_append.2 ⟨fun x hx => ?_, fun x hx => ?_⟩, hstart.ge⟩
    · have hcore := hcore1 x (mem_append_left r hx)
      rw [core_start hcore, core_stop hcore]
      exact hl x hx
    rw [mem_singleton.1 hx]
    exact .inl hstop.le
  rw [hlist] at hrun1 hview1
  have h1 := (hrun1.changes h).holds
  obtain ⟨⟨ret2, s2⟩, hback, hrun⟩ := bind_eq_ok.1 hrun
  rcases splitIf_spec h1 hback with
    ⟨err, rfl, hrun2⟩ | ⟨w, mid, rfl, hrun2, hview2, hcore2, hstart2, hcase2⟩
  · cases hrun
    exact ⟨_, hrun1.trans hrun2, (hrun2.changes h1).holds, nofun⟩
  have h2 := (hrun2.changes h1).holds
  obtain ⟨hend2, hmid2⟩ : (s2.seg u).stop ≤ stop ∧ ∀ x ∈ mid, stop ≤ (s2.seg x).start := by
    grind
  obtain ⟨s3, hunmap, hrun⟩ := bind_eq_ok.1 hrun
  have hstep := rawUnmap_step h2 (by simp) hunmap
  have hnodup := (nodup_middle.1 h2.walks.nodup).notMem
  rw [erase_append_right _ fun hul => hnodup (mem_append_left _ hul), erase_cons_head,
    ← append_assoc] at hstep
  have hcore3 : ∀ x ∈ l' ++ mid ++ r, (s3.seg x).core = (s2.seg x).core := by
    intro x hx
    refine (rawUnmap_spec h2 (by simp) hunmap).2 x ?_
    rintro rfl
    exact hnodup (append_assoc l' mid r ▸ hx)
  have hl3 : ∀ x ∈ l' ++ mid, (s3.seg x).stop ≤ start ∨ stop ≤ (s3.seg x).start := by
    intro x hx
    have hcore := hcore3 x (mem_append_left r hx)
    rw [core_start hcore, core_stop hcore]
    rcases mem_append.1 hx with hx | hx
    · have hcore := hcore2 x (mem_append_left r hx)
      rw [core_start hcore, core_stop hcore]
      exact hl1 x hx
    exact .inr (hmid2 x hx)
  obtain ⟨ys, hrun3, hys, hend⟩ := ih hstep.changes.holds hl3 hrun
  refine ⟨ys, hrun1.trans (hrun2.trans ((SegRun.single hstep).trans hrun3)), hys, fun hret => ?_⟩
  obtain ⟨hclear, hview3⟩ := hend hret
  refine ⟨hclear, fun a ha => ?_⟩
  have hnone : (s2.seg u).view a = none := if_neg (by omega)
  rw [hview3 a ha, view_congr fun x hx => core_view (hcore3 x hx) a, ← hview1, ← hview2]
  simp only [view_append, view_cons, hnone, Option.none_or, Option.or_assoc]

/-- **`vmm_space_unmap_range`** is a sequence of steps, and if it succeeds no segment meets the range,
and outside it nothing has changed. -/
theorem unmapRange_spec (h : s.Holds sp xs)
    (hrun : vmmSpaceUnmapRange M D s sp start stop = .ok (ret, s')) :
    start % pageSize = 0 ∧ ∃ ys, SegRun sp s xs s' ys ∧ s'.Holds sp ys ∧
      (ret = none → (∀ x ∈ ys, (s'.seg x).stop ≤ start ∨ stop ≤ (s'.seg x).start) ∧
        ∀ a, a < start ∨ stop ≤ a → view s'.seg ys a = view s.seg xs a) := by
  obtain ⟨_, hstart, hrun⟩ := bind_eq_ok.1 hrun
  obtain ⟨_, _, hrun⟩ := bind_eq_ok.1 hrun
  obtain ⟨l, r, rfl, hfrom, hl⟩ := treeFrom_append h start
  obtain ⟨node, hnode, hrun⟩ := bind_eq_ok.1 hrun
  cases hnode.symm.trans hfrom
  exact ⟨assert_eq_ok.1 hstart, unmapRangeLoop_spec h (fun x hx => .inl (hl x hx)) hrun⟩

/-! ## Unmapping everything -/

/-- The loop of `vmm_space_unmap_all` goes through the segments. -/
theorem unmapAllLoop_spec : ∀ {s : Vmm σ Sp} {xs : List Nat}, s.Holds sp xs →
    vmmUnmapAllLoop M D sp rounds xs.head? s = .ok s' →
    SegRun sp s xs s' [] ∧ s'.Holds sp [] := by
  induction rounds with
  | zero =>
    intro s xs _ hrun
    cases hrun
  | succ rounds ih => ?_
  intro s xs h hrun
  cases xs with
  | nil =>
    cases hrun
    exact ⟨.refl .., h⟩
  | cons v r => ?_
  obtain ⟨node, hnode, hrun⟩ := bind_eq_ok.1 hrun
  cases hnode.symm.trans (treeNext_spec (l := []) h)
  obtain ⟨s1, hunmap, hrun⟩ := bind_eq_ok.1 hrun
  have hstep := rawUnmap_step h mem_cons_self hunmap
  rw [erase_cons_head] at hstep
  obtain ⟨hrun1, hend⟩ := ih hstep.changes.holds hrun
  exact ⟨(SegRun.single hstep).trans hrun1, hend⟩

/-- **`vmm_space_unmap_all`** leaves no segment. -/
theorem unmapAll_spec (h : s.Holds sp xs) (hrun : vmmSpaceUnmapAll M D s sp = .ok s') :
    SegRun sp s xs s' [] ∧ s'.Holds sp [] := by
  obtain ⟨node, hnode, hrun⟩ := bind_eq_ok.1 hrun
  cases hnode.symm.trans (treeFirst_spec h)
  exact unmapAllLoop_spec h hrun

/-! ## Protection -/

/-- **`vmm_space_chprot`** is a step. -/
theorem chprot_step (h : s.Holds sp xs) (hv : v ∈ xs)
    (hrun : vmmSpaceChprot M D s sp v prot = .ok (ret, s')) : SegStep sp s xs s' xs ∧
      (∀ x, x ≠ v → (s'.seg x).core = (s.seg x).core) ∧
      (ret = none → (s'.seg v).core = { (s.seg v).core with prot := prot }) := by
  have hquiet : SegStep sp s xs ((s.acquire v).release v) xs ∧
      ∀ x, (((s.acquire v).release v).seg x).core = (s.seg x).core := by
    rw [release_acquire]
    exact ⟨⟨h, .refl h, .quiet fun _ => rfl⟩, fun _ => rfl⟩
  obtain ⟨perm, _, hrun⟩ := bind_eq_ok.1 hrun
  iterate 2
    split at hrun
    · cases hrun
      exact ⟨hquiet.1, fun x _ => hquiet.2 x, nofun⟩
  split at hrun
  · next hprot =>
    cases hrun
    refine ⟨hquiet.1, fun x _ => hquiet.2 x, fun _ => ?_⟩
    rw [hquiet.2, ← hprot, acquire_seg]
    rfl
  obtain ⟨⟨mem, _⟩, -, hrun⟩ := bind_eq_ok.1 hrun
  cases hrun
  have hstate : release { (s.acquire v).setSeg v { (s.acquire v).seg v with prot := prot } with
      mem := mem } v = { s.setSeg v { s.seg v with prot := prot } with mem := mem } := by
    simp only [release, acquire, setSeg, Function.update_self, Function.update_idem,
      Nat.add_sub_cancel]
  rw [hstate]
  have hother (x : Nat) (hx : x ≠ v) := congrArg core (setSeg_of_ne s { s.seg v with prot := prot } x hx)
  have hself := congrArg core (setSeg_self (v := v) s { s.seg v with prot := prot })
  refine ⟨⟨h, .of_setSeg h hv _ _ mem ⟨rfl, rfl, rfl, rfl⟩, .protect prot hother hself⟩, hother,
    fun _ => hself⟩

/-- What there is at an address once the protection of a range was set. -/
def SegView.protect (start stop : Nat) (prot : BitVec 64) (a : Nat) (w : SegView) : SegView :=
  if start ≤ a ∧ a < stop then { w with prot } else w

theorem protect_view {b : VmmSeg} {a : Nat} (hlo : start ≤ b.start) (hhi : b.stop ≤ stop) :
    (({ b with prot } : VmmSeg).view a).map (SegView.protect start stop prot a) =
      (b.view a).map (SegView.protect start stop prot a) := by
  by_cases ha : b.start ≤ a ∧ a < b.stop
  · have hin : start ≤ a ∧ a < stop := ⟨hlo.trans ha.1, ha.2.trans_le hhi⟩
    simp only [VmmSeg.view, if_pos ha, Option.map_some, SegView.protect, if_pos hin]
  simp only [VmmSeg.view, if_neg ha]

/-- The loop of `vmm_space_raw_chprot_range` is a sequence of steps. The segments `l` are before the
range or have the protection already. -/
theorem chprotRangeLoop_spec :
    ∀ {s : Vmm σ Sp} {l r : List Nat}, s.Holds sp (l ++ r) →
      (∀ x ∈ l, (s.seg x).stop ≤ start ∨ (s.seg x).prot = prot) →
      vmmChprotRangeLoop M D sp start stop prot rounds r.head? s = .ok (ret, s') →
      ∃ ys, SegRun sp s (l ++ r) s' ys ∧ s'.Holds sp ys ∧
        (ret = none → ∀ a, view s'.seg ys a =
          (view s.seg (l ++ r) a).map (SegView.protect start stop prot a)) := by
  induction rounds with
  | zero =>
    intro s l r _ _ hrun
    cases hrun
  | succ rounds ih => ?_
  intro s l r h hl hrun
  -- nothing is left to do when the other segments are behind the range
  have hdone (hr : ∀ x ∈ r, stop ≤ (s.seg x).start) (a : Nat) :
      view s.seg (l ++ r) a = (view s.seg (l ++ r) a).map (SegView.protect start stop prot a) := by
    have hall : ∀ x ∈ l ++ r, ((s.seg x).view a).map id =
        ((s.seg x).view a).map (SegView.protect start stop prot a) := by
      intro x hx
      unfold VmmSeg.view SegView.protect
      split
      · next ha =>
        split
        · grind
        rfl
      rfl
    simpa using view_map_congr hall
  cases r with
  | nil =>
    cases hrun
    exact ⟨_, .refl .., h, fun _ => hdone nofun⟩
  | cons v r => ?_
  rw [List.head?_cons, vmmChprotRangeLoop] at hrun
  split at hrun
  · next hge =>
    cases hrun
    exact ⟨_, .refl .., h, fun _ => hdone (h.behind hge)⟩
  have hlist (mid : List Nat) : l ++ v :: (mid ++ r) = (l ++ [v]) ++ (mid ++ r) := by simp
  have hl' {t : Vmm σ Sp} (hcore : ∀ x ∈ l, (t.seg x).core = (s.seg x).core)
      (hv : (t.seg v).stop ≤ start ∨ (t.seg v).prot = prot) :
      ∀ x ∈ l ++ [v], (t.seg x).stop ≤ start ∨ (t.seg x).prot = prot := by
    intro x hx
    rcases mem_append.1 hx with hx | hx
    · rw [core_stop (hcore x hx), core_prot (hcore x hx)]
      exact hl x hx
    rw [mem_singleton.1 hx]
    exact hv
  split at hrun
  · -- the part before the range is split off
    next hlt =>
    obtain ⟨⟨ret1, s1⟩, hsplit, hrun⟩ := bind_eq_ok.1 hrun
    have hsplit : vmmSpaceSplitIf D (start > (s.seg v).start) s sp v start = .ok (ret1, s1) := by
      rw [vmmSpaceSplitIf, if_pos hlt, hsplit]
    rcases splitIf_spec h hsplit with
      ⟨err, rfl, hrun1⟩ | ⟨u, mid, rfl, hrun1, hview1, hcore1, -, hcase⟩
    · cases hrun
      exact ⟨_, hrun1, (hrun1.changes h).holds, nofun⟩
    obtain ⟨node, hnext, hrun⟩ := bind_eq_ok.1 hrun
    have h1 := (hrun1.changes h).holds
    cases hnext.symm.trans (treeNext_spec h1)
    rw [hlist] at hrun1 h1 hview1
    obtain ⟨ys, hrun2, hys, hend⟩ :=
      ih h1 (hl' (fun x hx => hcore1 x (mem_append_left r hx)) (by grind)) hrun
    exact ⟨ys, hrun1.trans hrun2, hys, fun hret a => by rw [hend hret, hview1]⟩
  next hge =>
  obtain ⟨⟨ret1, s1⟩, hsplit, hrun⟩ := bind_eq_ok.1 hrun
  rcases splitIf_spec h hsplit with
    ⟨err, rfl, hrun1⟩ | ⟨u, mid, rfl, hrun1, hview1, hcore1, hstart1, hcase⟩
  · cases hrun
    exact ⟨_, hrun1, (hrun1.changes h).holds, nofun⟩
  have h1 := (hrun1.changes h).holds
  have hv : v ∈ l ++ v :: (mid ++ r) := by simp
  have hstop1 : (s1.seg v).stop ≤ stop := by grind
  obtain ⟨⟨ret2, s2⟩, hprot, hrun⟩ := bind_eq_ok.1 hrun
  obtain ⟨hstep, hcore2, hself⟩ := chprot_step h1 hv hprot
  rcases ret2 with _ | err
  · obtain ⟨node, hnext, hrun⟩ := bind_eq_ok.1 hrun
    have h2 := hstep.changes.holds
    cases hnext.symm.trans (treeNext_spec h2)
    have hview2 (a : Nat) : (view s2.seg (l ++ v :: (mid ++ r)) a).map
        (SegView.protect start stop prot a) = (view s1.seg (l ++ v :: (mid ++ r)) a).map
        (SegView.protect start stop prot a) := by
      refine view_map_congr fun x _ => ?_
      by_cases hx : x = v
      · have hnew : (s2.seg v).view a = ({ s1.seg v with prot } : VmmSeg).view a :=
          core_view (hself rfl) a
        rw [hx, hnew, protect_view (by omega) hstop1]
      rw [core_view (hcore2 x hx)]
    have hl2 := hl' (t := s2) (fun x hx => by
      have hxv : x ≠ v := fun he =>
        (nodup_middle.1 h1.walks.nodup).notMem (mem_append_left _ (he ▸ hx))
      exact (hcore2 x hxv).trans (hcore1 x (mem_append_left r hx)))
      (.inr (congrArg VmmSeg.prot (hself rfl)))
    rw [hlist] at hrun1 h2 hstep hview1 hview2
    obtain ⟨ys, hrun2, hys, hend⟩ := ih h2 hl2 hrun
    refine ⟨ys, hrun1.trans ((SegRun.single hstep).trans hrun2), hys, fun hret a => ?_⟩
    rw [hend hret, hview2, hview1]
  cases hrun
  exact ⟨_, hrun1.trans (.single hstep), hstep.changes.holds, nofun⟩

/-- **`vmm_space_chprot_range`** is a sequence of steps, and if it succeeds it sets the protection of
the range and nothing else. -/
theorem chprotRange_spec (h : s.Holds sp xs)
    (hrun : vmmSpaceChprotRange M D s sp start stop prot = .ok (ret, s')) :
    ∃ ys, SegRun sp s xs s' ys ∧ s'.Holds sp ys ∧ (ret = none → ∀ a, view s'.seg ys a =
      (view s.seg xs a).map (SegView.protect start stop prot a)) := by
  obtain ⟨_, _, hrun⟩ := bind_eq_ok.1 hrun
  obtain ⟨_, _, hrun⟩ := bind_eq_ok.1 hrun
  obtain ⟨l, r, rfl, hfrom, hl⟩ := treeFrom_append h start
  obtain ⟨node, hnode, hrun⟩ := bind_eq_ok.1 hrun
  cases hnode.symm.trans hfrom
  exact chprotRangeLoop_spec h (fun x hx => .inl (hl x hx)) hrun

end Vmm

end Stanix
