import Stanix.Mem.Vmm.Map

/-!
# Cloning a space, segment by segment

What `vmm_clone` does to the lists of segments of the two spaces. A step (`CloneStep`) copies one
segment of the parent to the end of the list of the child and its pages to the page tables of the
child (`ClonesPages`); the loop of `vmm_clone` is a sequence of such steps (`CloneRun`), which ends
early when there is no memory for a segment, or for a table. In the last case the segment of the parent
is freed while it is in the tree, so `clone_spec` says which step that was.
-/

namespace Stanix

open Exec List Function VmmSeg

namespace Vmm

variable {σ Sp E : Type} {M : Mmu σ Sp E} {D : VmmDrivers σ Sp}
  {s s' s'' : Vmm σ Sp} {parent child v new : Nat} {ps cs cs' vs : List Nat}
  {I : Vmm σ Sp → List Nat → Prop} {ret : Option Errno} {rounds : Nat}

/-! ## One segment -/

/-- The protection that the pages of a segment get in the child. -/
def cloneProt (seg : VmmSeg) : BitVec 64 :=
  if HasFlag seg.flags vmmFlagPrivate then seg.prot &&& ~~~mmuFlagWrite else seg.prot

/-- The pages of a segment are copied to the page tables of the child. -/
def ClonesPages (M : Mmu σ Sp E) (D : VmmDrivers σ Sp) (parent child : Sp) (seg newSeg : VmmSeg)
    (mem mem' : σ) : Prop :=
  ∃ entry mem₁ mem₂ mem₃,
    vmmCloneLoop M parent child seg (cloneProt seg) mmuRounds seg.start none 0 mem =
      .ok (.ok entry, mem₁) ∧
    vmmEntryRelease M entry mem₁ = .ok mem₂ ∧ vmmCloneProtect M parent seg mem₂ = .ok mem₃ ∧
    vmmCall seg.ops (D.dup · newSeg) mem₃ = .ok mem'

/-- A segment of the parent was copied to the child, whose list it now ends. -/
structure CloneStep (M : Mmu σ Sp E) (D : VmmDrivers σ Sp) (parent child : Nat) (ps : List Nat)
    (v new : Nat) (s : Vmm σ Sp) (cs : List Nat) (s' : Vmm σ Sp) : Prop where
  mem : v ∈ ps
  fresh : new ∉ s.live
  parentHolds : s'.Holds parent ps
  childHolds : s'.Holds child (cs ++ [new])
  live : s'.live = insert new s.live
  core : ∀ x, x ≠ new → (s'.seg x).core = (s.seg x).core
  copy : (s'.seg new).core = ((s.seg v).copy child .zero).core
  pages : ∃ seg newSeg : VmmSeg, seg.core = (s.seg v).core ∧
    ClonesPages M D (s.space parent).addrspace (s.space child).addrspace seg newSeg s.mem s'.mem
  other : ∀ x ∈ s.live, x ∉ ps → x ∉ cs → s'.seg x = s.seg x
  space : ∀ sp, sp ≠ child → s'.space sp = s.space sp
  addrspace : (s'.space child).addrspace = (s.space child).addrspace

theorem setSeg_vfsDup (seg : VmmSeg) (fd : Option Nat) :
    (s.setSeg v seg).vfsDup fd = (s.vfsDup fd).setSeg v seg := by
  cases fd <;> rfl

/-- The clone of a segment stops for want of a table. -/
def NoTable (M : Mmu σ Sp E) (parent child v : Nat) (s : Vmm σ Sp) (err : Errno) : Prop :=
  ∃ seg mem, seg.core = (s.seg v).core ∧
    vmmCloneLoop M (s.space parent).addrspace (s.space child).addrspace seg (cloneProt seg)
      mmuRounds seg.start none 0 s.mem = .ok (.error err, mem)

section

variable (hP : s.Holds parent ps) (hC : s.Holds child cs)
include hP hC

/-- The copy of a segment, once it is allocated, can be put in the tree of the child. At this point the
segment of the parent is locked and its file has another reference. -/
theorem cloneSeg_insert {s1 s2 : Vmm σ Sp} {seg : VmmSeg} (hv : v ∈ ps)
    (hlast : ∀ c ∈ cs, (s.seg c).stop ≤ (s.seg v).start) (halloc : s.slabAlloc = (some new, s1))
    (hseg : seg = (s1.acquire v).seg v) (hs2 : s2 = (s1.acquire v).vfsDup seg.fd) :
    seg.core = (s.seg v).core ∧ s2.space = s.space ∧ s2.mem = s.mem ∧ s2.live = insert new s.live ∧
      (∀ x, x ≠ new → s2.seg x = (s.acquire v).seg x) ∧
      ∀ mem, ∃ s4, vmmTreeInsert (({ s2 with mem := mem } : Vmm σ Sp).setSeg new
          (seg.copy child .zero)) child new = .ok s4 ∧ s4.slab = s1.slab ∧
        Inserted { s2 with mem := mem } s4 child new cs [] (seg.copy child .zero) := by
  obtain ⟨-, hnp, -, hlive1, -, hsame1, hspace1, hmem1⟩ := hP.alloc halloc
  obtain ⟨-, hnc, -⟩ := hC.alloc halloc
  have hsegv : seg.core = (s.seg v).core := by
    rw [hseg, acquire_core, hsame1 v (ne_of_mem_of_not_mem hv hnp)]
  have hspace2 : s2.space = s.space := hs2 ▸ (vfsDup_space ..).trans hspace1
  have hlive2 : s2.live = insert new s.live := hs2 ▸ (vfsDup_live ..).trans hlive1
  have hseg2 (x : Nat) (hx : x ≠ new) : s2.seg x = (s.acquire v).seg x := by
    rw [hs2, vfsDup_seg, acquire_seg, acquire_seg, hsame1 x hx]
  refine ⟨hsegv, hspace2, hs2 ▸ (vfsDup_mem ..).trans hmem1, hlive2, hseg2, fun mem => ?_⟩
  have hlinks (x : Nat) (hx : x ∈ cs) : (s2.seg x).node = (s.seg x).node ∧
      (s2.seg x).start = (s.seg x).start ∧ (s2.seg x).stop = (s.seg x).stop := by
    rw [hseg2 x (ne_of_mem_of_not_mem hx hnc), acquire_seg]
    exact ⟨rfl, rfl, rfl⟩
  have hC2 : ({ s2 with mem := mem } : Vmm σ Sp).Holds child (cs ++ []) := by
    rw [append_nil]
    refine hC.congr (congrArg (fun f => (f child).root) hspace2) hlinks fun x hx => ?_
    rw [hlive2]
    exact Finset.mem_insert_of_mem (hC.live x hx)
  have hstart := core_start hsegv
  have hstop := core_stop hsegv
  have hbefore (x : Nat) (hx : x ∈ cs) : (s2.seg x).stop ≤ seg.start := by
    rw [(hlinks x hx).2.2, hstart]
    exact hlast x hx
  have hnonempty : seg.start < seg.stop := by
    rw [hstart, hstop]
    exact hP.nonempty v hv
  obtain ⟨s4, hins, hslab, hinserted⟩ := exists_inserted hC2
    (hlive2 ▸ Finset.mem_insert_self new s.live) (rfl : (seg.copy child .zero).node.left = none) rfl
    hbefore nofun hnonempty (by rwa [append_nil])
  refine ⟨s4, hins, hslab.trans ?_, hinserted⟩
  rw [hs2]
  cases seg.fd <;> rfl

/-- **`vmm_clone_seg`**: there is no memory for the segment, or for a table, or it is copied. -/
theorem cloneSeg_spec (hdisj : ps.Disjoint cs) (hne : parent ≠ child) (hv : v ∈ ps)
    (hlast : ∀ c ∈ cs, (s.seg c).stop ≤ (s.seg v).start)
    (hrun : vmmCloneSeg M D s parent child v = .ok (ret, s')) :
    (∃ err slab, ret = some err ∧ s' = { s with slab := slab }) ∨
    (∃ err, ret = some err ∧ NoTable M parent child v s err) ∨
    ret = none ∧ ∃ new, CloneStep M D parent child ps v new s cs s' := by
  unfold vmmCloneSeg at hrun
  split at hrun
  · next s1 halloc =>
    cases hrun
    rcases slabAlloc_cases halloc with ⟨-, slab, rfl⟩ | ⟨_, _, hnone, -⟩
    · exact .inl ⟨_, slab, rfl, rfl⟩
    cases hnone
  next new s1 halloc =>
  obtain ⟨-, hnp, hfresh, -, hzero, -⟩ := hP.alloc halloc
  have hvn : v ≠ new := ne_of_mem_of_not_mem hv hnp
  dsimp only at hrun
  have hnew2 : (s1.acquire v).seg new = .zero := by
    rw [acquire_seg, if_neg hvn.symm, hzero]
  rw [hnew2, setSeg_vfsDup] at hrun
  set seg : VmmSeg := (s1.acquire v).seg v with hseg
  set s2 : Vmm σ Sp := (s1.acquire v).vfsDup seg.fd with hs2
  obtain ⟨hsegv, hspace2, hmem2, hlive2, hseg2, hinsert⟩ :=
    cloneSeg_insert hP hC hv hlast halloc hseg hs2
  clear_value s2
  obtain ⟨⟨ret1, mem₁⟩, hloop, hrun⟩ := bind_eq_ok.1 hrun
  have hloop : vmmCloneLoop M (s.space parent).addrspace (s.space child).addrspace seg (cloneProt seg)
      mmuRounds seg.start none 0 s.mem = .ok (ret1, mem₁) := by
    rw [← hspace2, ← hmem2]
    exact hloop
  rcases ret1 with err | entry
  · cases hrun
    exact .inr (.inl ⟨err, rfl, seg, mem₁, hsegv, hloop⟩)
  obtain ⟨mem₂, hrelease, hrun⟩ := bind_eq_ok.1 hrun
  obtain ⟨mem₃, hprotect, hrun⟩ := bind_eq_ok.1 hrun
  obtain ⟨s4, hins, hrun⟩ := bind_eq_ok.1 hrun
  obtain ⟨mem4, hdup, hrun⟩ := bind_eq_ok.1 hrun
  simp only [pure_eq, Except.ok.injEq, Prod.mk.injEq] at hrun
  obtain ⟨rfl, hs'⟩ := hrun
  obtain ⟨s5, hins', -, hinserted⟩ := hinsert mem₃
  cases hins'.symm.trans hins
  have hpn (x : Nat) (hx : x ∈ ps) : x ≠ new := ne_of_mem_of_not_mem hx hnp
  have hout (x : Nat) (hx : x ∉ cs) (hxn : x ≠ new) : s4.seg x = s2.seg x :=
    hinserted.other x (by simp [hx, hxn])
  have hseg' (x : Nat) : s'.seg x =
      { s4.seg x with lock := if x = v then (s4.seg x).lock - 1 else (s4.seg x).lock } := by
    rw [← hs']
    exact release_seg ({ s4 with mem := mem4 } : Vmm σ Sp) x
  have hspace' : s'.space = s4.space := by rw [← hs']; rfl
  have hlive' : s'.live = insert new s.live := by
    rw [← hlive2, ← hs']
    exact hinserted.live
  have hspace4 (sp : Nat) (hsp : sp ≠ child) : s'.space sp = s.space sp := by
    rw [hspace', hinserted.space sp hsp]
    exact congrFun hspace2 sp
  refine .inr (.inr ⟨rfl, new, hv, hfresh, ?_, ?_, hlive', fun x hx => ?_, ?_, ?_, fun x hx hxp hxc => ?_,
    hspace4, ?_⟩)
  · refine hP.congr (by rw [hspace4 parent hne]) (fun x hx => ?_) fun x hx => ?_
    · rw [hseg', hout x (fun hxc => hdisj hx hxc) (hpn x hx), hseg2 x (hpn x hx), acquire_seg]
      exact ⟨rfl, rfl, rfl⟩
    rw [hlive']
    exact Finset.mem_insert_of_mem (hP.live x hx)
  · refine hinserted.holds.congr (by rw [hspace']) (fun x _ => ?_) fun x hx => ?_
    · rw [hseg']
      exact ⟨rfl, rfl, rfl⟩
    rw [← hs']
    exact hinserted.holds.live x hx
  · rw [hseg']
    refine (hinserted.core x hx).trans ?_
    rw [hseg2 x hx, acquire_core]
  · rw [hseg']
    refine hinserted.new.trans ?_
    show (seg.core.copy child .zero).core = ((s.seg v).core.copy child .zero).core
    rw [hsegv]
  · refine ⟨seg, seg.copy child .zero, hsegv, entry, mem₁, mem₂, mem₃, hloop, hrelease, ?_, ?_⟩
    · rw [← hspace2]
      exact hprotect
    rw [← show s4.mem = mem₃ from hinserted.mem, hdup, ← hs']
    rfl
  · have hxn : x ≠ new := ne_of_mem_of_not_mem hx hfresh
    have hxv : x ≠ v := fun hxv => hxp (hxv ▸ hv)
    rw [hseg', if_neg hxv, hout x hxc hxn, hseg2 x hxn, acquire_seg, if_neg hxv]
  rw [hspace', hinserted.addrspace]
  exact congrArg (fun f => (f child).addrspace) hspace2

/-- With an object of the slab, and page tables that can be copied, `vmm_clone_seg` succeeds. -/
theorem cloneSeg_total {slab : List (Option Nat)} {Q : σ → Prop} (hv : v ∈ ps)
    (hlast : ∀ c ∈ cs, (s.seg c).stop ≤ (s.seg v).start) (hslab : s.slab = some new :: slab)
    (hfresh : new ∉ s.live)
    (hpages : ∀ seg newSeg : VmmSeg, seg.core = (s.seg v).core → ∃ mem',
      ClonesPages M D (s.space parent).addrspace (s.space child).addrspace seg newSeg s.mem mem' ∧
        Q mem') :
    ∃ s', vmmCloneSeg M D s parent child v = .ok (none, s') ∧ s'.slab = slab ∧
      s'.live = insert new s.live ∧ Q s'.mem := by
  set s1 : Vmm σ Sp := { s with
    slab := slab, live := insert new s.live, seg := update s.seg new .zero } with hs1
  have halloc : s.slabAlloc = (some new, s1) := by
    rw [slabAlloc, hslab]
    exact if_neg hfresh
  obtain ⟨-, hnp, -, -, hzero, -⟩ := hP.alloc halloc
  have hvn : v ≠ new := ne_of_mem_of_not_mem hv hnp
  have hnew2 : (s1.acquire v).seg new = .zero := by
    rw [acquire_seg, if_neg hvn.symm, hzero]
  unfold vmmCloneSeg
  rw [halloc]
  dsimp only
  rw [hnew2, setSeg_vfsDup]
  set seg : VmmSeg := (s1.acquire v).seg v with hseg
  set s2 : Vmm σ Sp := (s1.acquire v).vfsDup seg.fd with hs2
  obtain ⟨hsegv, hspace2, hmem2, hlive2, -, hinsert⟩ := cloneSeg_insert hP hC hv hlast halloc hseg hs2
  obtain ⟨mem', ⟨entry, mem₁, mem₂, mem₃, hloop, hrelease, hprotect, hcall⟩, hQ⟩ :=
    hpages seg (seg.copy child .zero) hsegv
  obtain ⟨s4, hins, hslab4, hinserted⟩ := hinsert mem₃
  rw [← hspace2] at hloop hprotect
  rw [← hmem2] at hloop
  have hmem4 : s4.mem = mem₃ := hinserted.mem
  refine ⟨({ s4 with mem := mem' } : Vmm σ Sp).release v, ?_, hslab4, hinserted.live.trans hlive2, hQ⟩
  refine bind_eq_ok.2 ⟨(.ok entry, mem₁), hloop, bind_eq_ok.2 ⟨mem₂, hrelease,
    bind_eq_ok.2 ⟨mem₃, hprotect, bind_eq_ok.2 ⟨s4, hins, bind_eq_ok.2 ⟨mem', ?_, rfl⟩⟩⟩⟩⟩
  rw [hmem4]
  exact hcall

end

/-! ## The loop -/

/-- The two spaces between two rounds of the loop: the child's list ends where the segments that are
left begin, or before. -/
structure CloneLists (s : Vmm σ Sp) (parent child : Nat) (ps cs vs : List Nat) : Prop where
  parent : s.Holds parent ps
  child : s.Holds child cs
  disjoint : ps.Disjoint cs
  rest : ∃ done, ps = done ++ vs
  last : ∀ c ∈ cs, ∀ v ∈ vs, (s.seg c).stop ≤ (s.seg v).start

/-- A sequence of steps, for the segments of a list. -/
inductive CloneRun (M : Mmu σ Sp E) (D : VmmDrivers σ Sp) (parent child : Nat) (ps : List Nat) :
    List Nat → Vmm σ Sp → List Nat → Vmm σ Sp → List Nat → Prop
  | nil (s : Vmm σ Sp) (cs : List Nat) : CloneRun M D parent child ps [] s cs s cs
  | cons {v new : Nat} {vs cs cs' : List Nat} {s s₁ s' : Vmm σ Sp}
      (hstep : CloneStep M D parent child ps v new s cs s₁)
      (hrun : CloneRun M D parent child ps vs s₁ (cs ++ [new]) s' cs') :
      CloneRun M D parent child ps (v :: vs) s cs s' cs'

theorem CloneStep.lists (h : CloneLists s parent child ps cs (v :: vs))
    (hstep : CloneStep M D parent child ps v new s cs s') :
    CloneLists s' parent child ps (cs ++ [new]) vs := by
  obtain ⟨done, hps⟩ := h.rest
  have hnp : new ∉ ps := fun hn => hstep.fresh (h.parent.live new hn)
  have hnc : new ∉ cs := fun hn => hstep.fresh (h.child.live new hn)
  have hvs (x : Nat) (hx : x ∈ vs) : x ∈ ps := by rw [hps]; simp [hx]
  have hcore {x : Nat} (hx : x ≠ new) := hstep.core x hx
  refine ⟨hstep.parentHolds, hstep.childHolds, ?_, ⟨done ++ [v], by rw [hps]; simp⟩,
    fun c hc x hx => ?_⟩
  · refine disjoint_append_right.2 ⟨h.disjoint, disjoint_singleton.2 hnp⟩
  rw [core_start (hcore (ne_of_mem_of_not_mem (hvs x hx) hnp))]
  rcases mem_append.1 hc with hc | hc
  · rw [core_stop (hcore (ne_of_mem_of_not_mem hc hnc))]
    exact h.last c hc x (mem_cons_of_mem v hx)
  have hstop := core_stop hstep.copy
  have hsorted := h.parent.sorted
  rw [hps] at hsorted
  rw [mem_singleton.1 hc, hstop]
  exact (pairwise_cons.1 (pairwise_append.1 hsorted).2.1).1 x hx

theorem CloneRun.lists {vs' : List Nat} (h : CloneRun M D parent child ps vs s cs s' cs') :
    CloneLists s parent child ps cs (vs ++ vs') → CloneLists s' parent child ps cs' vs' := by
  induction h with
  | nil => exact id
  | cons hstep _ ih => exact fun hl => ih (hstep.lists hl)

/-- **The loop of `vmm_clone`.** -/
theorem cloneSegsLoop_spec (hne : parent ≠ child) :
    ∀ {s : Vmm σ Sp} {cs vs : List Nat}, CloneLists s parent child ps cs vs →
      vmmCloneSegsLoop M D parent child rounds vs.head? s = .ok (ret, s') →
      ∃ vs1 vs2 s1 cs1, vs = vs1 ++ vs2 ∧ CloneRun M D parent child ps vs1 s cs s1 cs1 ∧
        (ret = none ∧ vs2 = [] ∧ s' = s1 ∨
        ∃ err v vs3, ret = some err ∧ vs2 = v :: vs3 ∧
          ((∃ slab, s' = { s1 with slab := slab }) ∨ NoTable M parent child v s1 err)) := by
  induction rounds with
  | zero =>
    intro s cs vs _ hrun
    cases hrun
  | succ rounds ih => ?_
  intro s cs vs h hrun
  rcases vs with _ | ⟨v, vs⟩
  · cases hrun
    exact ⟨[], [], _, cs, rfl, .nil .., .inl ⟨rfl, rfl, rfl⟩⟩
  obtain ⟨⟨ret1, s1⟩, hseg, hrun⟩ := bind_eq_ok.1 hrun
  obtain ⟨done, hps⟩ := h.rest
  have hv : v ∈ ps := by rw [hps]; simp
  rcases cloneSeg_spec h.parent h.child h.disjoint hne hv
    (fun c hc => h.last c hc v mem_cons_self) hseg with
    ⟨err, slab, rfl, rfl⟩ | ⟨err, rfl, hnone⟩ | ⟨rfl, new, hstep⟩
  · cases hrun
    exact ⟨[], v :: vs, s, cs, rfl, .nil .., .inr ⟨err, v, vs, rfl, rfl, .inl ⟨slab, rfl⟩⟩⟩
  · cases hrun
    exact ⟨[], v :: vs, s, cs, rfl, .nil .., .inr ⟨err, v, vs, rfl, rfl, .inr hnone⟩⟩
  obtain ⟨node, hnode, hrun⟩ := bind_eq_ok.1 hrun
  have hp := hstep.parentHolds
  rw [hps] at hp
  cases hnode.symm.trans (treeNext_spec hp)
  obtain ⟨vs1, vs2, s2, cs2, hvs, hrun1, hend⟩ := ih (hstep.lists h) hrun
  exact ⟨v :: vs1, vs2, s2, cs2, by rw [hvs]; rfl, .cons hstep hrun1, hend⟩

/-- Every round of the loop of `vmm_clone` succeeds, and keeps what this depends on. -/
def RoundsSucceed (M : Mmu σ Sp E) (D : VmmDrivers σ Sp) (parent child : Nat) (ps : List Nat)
    (I : Vmm σ Sp → List Nat → Prop) : Prop :=
  ∀ s cs v vs, CloneLists s parent child ps cs (v :: vs) → I s (v :: vs) →
    ∃ s', vmmCloneSeg M D s parent child v = .ok (none, s') ∧
      ∀ new, CloneStep M D parent child ps v new s cs s' → I s' vs

/-- The loop of `vmm_clone` comes to its end when every round succeeds. -/
theorem cloneSegsLoop_total (hne : parent ≠ child) (hseg : RoundsSucceed M D parent child ps I) :
    ∀ {s : Vmm σ Sp} {cs vs : List Nat}, vs.length < rounds →
      CloneLists s parent child ps cs vs → I s vs →
      ∃ s', vmmCloneSegsLoop M D parent child rounds vs.head? s = .ok (none, s') := by
  induction rounds with
  | zero => exact fun h => absurd h (Nat.not_lt_zero _)
  | succ rounds ih => ?_
  intro s cs vs hlen h hI
  rcases vs with _ | ⟨v, vs⟩
  · exact ⟨s, rfl⟩
  obtain ⟨s1, hrun, hnext⟩ := hseg s cs v vs h hI
  obtain ⟨done, hps⟩ := h.rest
  have hv : v ∈ ps := by rw [hps]; simp
  rcases cloneSeg_spec h.parent h.child h.disjoint hne hv
    (fun c hc => h.last c hc v mem_cons_self) hrun with
    ⟨err, slab, herr, -⟩ | ⟨err, herr, -⟩ | ⟨-, new, hstep⟩
  · cases herr
  · cases herr
  have hp := hstep.parentHolds
  rw [hps] at hp
  obtain ⟨s', hrest⟩ := ih (Nat.lt_of_succ_lt_succ hlen) (hstep.lists h) (hnext new hstep)
  refine ⟨s', ?_⟩
  rw [List.head?_cons, vmmCloneSegsLoop, hrun, ok_bind]
  exact bind_eq_ok.2 ⟨_, treeNext_spec hp, hrest⟩

/-- The space of the child once it has the sizes of the parent. -/
def sized (s : Vmm σ Sp) (parent child : Nat) : Vmm σ Sp :=
  s.setSpace child ((s.space child).copySizes (s.space parent))

theorem Holds.sized {sp : Nat} {xs : List Nat} (h : s.Holds sp xs) (parent child : Nat) :
    (s.sized parent child).Holds sp xs := by
  refine h.congr ?_ (fun _ _ => ⟨rfl, rfl, rfl⟩) h.live
  show (update s.space child _ sp).root = _
  rw [update_apply]
  split
  · next hsp => rw [hsp]; rfl
  rfl

theorem sized_addrspace (parent child sp : Nat) :
    ((s.sized parent child).space sp).addrspace = (s.space sp).addrspace := by
  show (update s.space child _ sp).addrspace = _
  rw [update_apply]
  split
  · next hsp => rw [hsp]; rfl
  rfl

section

variable (hP : s.Holds parent ps)

include hP

variable (hC : s.Holds child [])

include hC

/-- The lists at the start of the loop of `vmm_clone`. -/
theorem CloneLists.start : CloneLists (s.sized parent child) parent child ps [] ps :=
  ⟨hP.sized parent child, hC.sized parent child, fun _ _ => nofun, ⟨[], rfl⟩, nofun⟩

/-- **`vmm_clone`** into a space without segments copies segments of the parent one by one; if it
stops for want of a segment, the copies are unmapped again, and if for want of a table, that was at
the segment it says. -/
theorem clone_spec (hne : parent ≠ child) (hrun : vmmClone M D s parent child = .ok (ret, s')) :
    ∃ vs1 vs2 s1 cs1, ps = vs1 ++ vs2 ∧
      CloneRun M D parent child ps vs1 (s.sized parent child) [] s1 cs1 ∧
      CloneLists s1 parent child ps cs1 vs2 ∧
      (ret = none ∧ vs2 = [] ∧ s' = s1 ∨
      ∃ err v vs3, ret = some err ∧ vs2 = v :: vs3 ∧
        ((∃ slab, SegRun child { s1 with slab := slab } cs1 s' []) ∨
          NoTable M parent child v s1 err)) := by
  have hlists := CloneLists.start hP hC
  obtain ⟨node, hnode, hrun⟩ := bind_eq_ok.1 hrun
  cases hnode.symm.trans (treeFirst_spec hlists.parent)
  obtain ⟨⟨ret1, s2⟩, hloop, hrun⟩ := bind_eq_ok.1 hrun
  obtain ⟨vs1, vs2, s1, cs1, hps, hclone, hend⟩ := cloneSegsLoop_spec hne hlists hloop
  have hlists1 : CloneLists s1 parent child ps cs1 vs2 := hclone.lists (hps ▸ hlists)
  refine ⟨vs1, vs2, s1, cs1, hps, hclone, hlists1, ?_⟩
  rcases hend with ⟨rfl, hvs, rfl⟩ | ⟨err, v, vs3, rfl, hvs, hend⟩
  · cases hrun
    exact .inl ⟨rfl, hvs, rfl⟩
  obtain ⟨s3, hunmap, hrun⟩ := bind_eq_ok.1 hrun
  cases hrun
  refine .inr ⟨err, v, vs3, rfl, hvs, hend.imp_left fun ⟨slab, hs⟩ => ⟨slab, ?_⟩⟩
  subst hs
  have hC1 : ({ s1 with slab := slab } : Vmm σ Sp).Holds child cs1 :=
    hlists1.child.congr rfl (fun _ _ => ⟨rfl, rfl, rfl⟩) hlists1.child.live
  exact (unmapAll_spec hC1 hunmap).1

/-- **`vmm_clone`** into a space without segments succeeds when every round of its loop does. -/
theorem clone_total (hne : parent ≠ child) (hI : I (s.sized parent child) ps)
    (hseg : RoundsSucceed M D parent child ps I) :
    ∃ s', vmmClone M D s parent child = .ok (none, s') := by
  have hlists := CloneLists.start hP hC
  obtain ⟨s', hloop⟩ := cloneSegsLoop_total hne hseg hlists.parent.length_lt hlists hI
  refine ⟨s', ?_⟩
  exact bind_eq_ok.2 ⟨_, treeFirst_spec hlists.parent, bind_eq_ok.2 ⟨(none, s'), hloop, rfl⟩⟩

end

/-- The loop leaves alone what is no segment of the two spaces. -/
theorem CloneRun.frame (h : CloneRun M D parent child ps vs s cs s' cs') :
    s.live ⊆ s'.live ∧ (∀ x ∈ s.live, x ∉ ps → x ∉ cs → s'.seg x = s.seg x) ∧
      (∀ sp, sp ≠ child → s'.space sp = s.space sp) ∧
      (s'.space child).addrspace = (s.space child).addrspace ∧
      ∀ c ∈ cs', c ∈ cs ∨ c ∉ s.live := by
  induction h with
  | nil => exact ⟨fun _ hx => hx, fun _ _ _ _ => rfl, fun _ _ => rfl, rfl, fun _ hc => .inl hc⟩
  | @cons v new vs cs cs' s s1 s' hstep hrun ih => ?_
  obtain ⟨hlive, hseg, hspace, haddr, hfresh⟩ := ih
  have hsub : s.live ⊆ s1.live := hstep.live ▸ Finset.subset_insert new s.live
  refine ⟨hsub.trans hlive, fun x hx hxp hxc => ?_, fun sp hsp => ?_, haddr.trans hstep.addrspace,
    fun c hc => ?_⟩
  · have hxn : x ∉ cs ++ [new] := by
      simp only [mem_append, mem_singleton, not_or]
      exact ⟨hxc, ne_of_mem_of_not_mem hx hstep.fresh⟩
    rw [hseg x (hsub hx) hxp hxn, hstep.other x hx hxp hxc]
  · rw [hspace sp hsp, hstep.space sp hsp]
  rcases hfresh c hc with hc | hc
  · rcases mem_append.1 hc with hc | hc
    · exact .inl hc
    rw [mem_singleton.1 hc]
    exact .inr hstep.fresh
  exact .inr fun hl => hc (hsub hl)

end Vmm

end Stanix
