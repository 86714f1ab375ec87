import Stanix.Mem.Vmm.CloneMap

/-!
# Runs of calls on address spaces

Any sequence of `vmm_space_map`, `vmm_space_unmap_range`, `vmm_space_chprot_range` and `vmm_clone`
calls on any number of spaces. When every call is `Safe`, no segment is empty and no two segments of a
space overlap, in every state (`vmm_segs_sound`). The code does not make sure of it: sizes and ends
wrap around, the search for an address is led astray by a segment below its start, and a clone for
which there is no table frees a segment of the parent.
-/

namespace Stanix

open VmmSeg Vmm

/-! ## Calls -/

/-- A call on address spaces, with any arguments that the machine can pass. -/
inductive VmmOp
  | map (sp : Nat) (address size prot flags : BitVec 64) (fd : Option Nat) (offset : BitVec 64)
  | unmapRange (sp : Nat) (start stop : BitVec 64)
  | chprotRange (sp : Nat) (start stop prot : BitVec 64)
  | clone (parent child : Nat)

/-- A call, with the error it answers. -/
def vmmStep {σ Sp E : Type} (M : Mmu σ Sp E) (D : VmmDrivers σ Sp) (s : Vmm σ Sp) :
    VmmOp → Exec (Option Errno × Vmm σ Sp)
  | .map sp address size prot flags fd offset => do
    let (ret, s) ← vmmSpaceMap M D s sp address.toNat size.toNat prot flags fd offset.toNat
    return (match ret with | .error err => some err | .ok _ => none, s)
  | .unmapRange sp start stop => vmmSpaceUnmapRange M D s sp start.toNat stop.toNat
  | .chprotRange sp start stop prot => vmmSpaceChprotRange M D s sp start.toNat stop.toNat prot
  | .clone parent child => vmmClone M D s parent child

namespace Vmm

variable {σ Sp E : Type} {M : Mmu σ Sp E} {D : VmmDrivers σ Sp} {s s' : Vmm σ Sp} {sp : Nat}
  {xs ys : List Nat} {vs cs : List Nat} {parent child : Nat}

/-- The segments of a space are not empty and do not overlap. -/
def SegsSound (s : Vmm σ Sp) (sp : Nat) : Prop :=
  (∀ v ∈ s.segments sp, (s.seg v).start < (s.seg v).stop) ∧
    (s.segments sp).Pairwise fun v u =>
      (s.seg v).stop ≤ (s.seg u).start ∨ (s.seg u).stop ≤ (s.seg v).start
  deriving Decidable

/-! ## All spaces -/

/-- Every space has its list of segments, and no segment is in two spaces; every space has page tables
of its own. -/
structure Spaces (s : Vmm σ Sp) : Prop where
  holds : ∀ sp, s.Holds sp (s.segments sp)
  paged : ∀ sp, Paged s.seg (s.segments sp)
  apart : ∀ sp sp', sp ≠ sp' → (s.segments sp).Disjoint (s.segments sp')
  addrspace : Function.Injective fun sp => (s.space sp).addrspace

theorem Spaces.segsSound (h : Spaces s) (sp : Nat) : s.SegsSound sp :=
  ⟨(h.holds sp).nonempty, (h.holds sp).sorted.imp .inl⟩

theorem Spaces.of_lists (f : Nat → List Nat) (hholds : ∀ sp, s.Holds sp (f sp))
    (hpaged : ∀ sp, Paged s.seg (f sp)) (hapart : ∀ sp sp', sp ≠ sp' → (f sp).Disjoint (f sp'))
    (haddr : Function.Injective fun sp => (s.space sp).addrspace) : Spaces s := by
  have hf : s.segments = f := funext fun sp => (hholds sp).segments_eq
  exact ⟨fun sp => by rw [hf]; exact hholds sp, fun sp => by rw [hf]; exact hpaged sp,
    fun sp sp' hne => by rw [hf]; exact hapart sp sp' hne, haddr⟩

/-- **A call on one space** keeps the lists of all of them. -/
theorem Spaces.of_moves (h : Spaces s) (hm : Moves s s' sp (s.segments sp) ys) : Spaces s' := by
  have hother (sp' : Nat) (hne : sp' ≠ sp) : s'.Holds sp' (s.segments sp') :=
    hm.toFrame.holds hne (h.holds sp') (h.apart sp' sp hne)
  have hdisj (sp' : Nat) (hne : sp' ≠ sp) : ys.Disjoint (s.segments sp') := by
    intro v hv hv'
    rcases hm.fresh v hv with hx | hnl
    · exact h.apart sp' sp hne hv' hx
    exact hnl ((h.holds sp').live v hv')
  refine .of_lists (fun sp' => if sp' = sp then ys else s.segments sp') (fun sp' => ?_) (fun sp' => ?_)
    (fun a b hab => ?_) ?_
  · split
    · next he => rw [he]; exact hm.holds
    next hne => exact hother sp' hne
  · split
    · exact hm.paged
    next hne =>
    refine (h.paged sp').congr (fun _ hx => hx) fun v hv => ?_
    rw [(hm.seg v ((h.holds sp').live v hv) (h.apart sp' sp hne hv)).1]
    exact ⟨rfl, rfl⟩
  · split
    · next ha => rw [if_neg (ha ▸ hab.symm)]; exact hdisj b (ha ▸ hab.symm)
    next ha =>
    split
    · exact (hdisj a ha).symm
    exact h.apart a b hab
  refine fun a b hab => h.addrspace ?_
  have haddr (a : Nat) : (s'.space a).addrspace = (s.space a).addrspace := by
    by_cases ha : a = sp
    · rw [ha, hm.addrspace]
    rw [hm.space a ha]
  dsimp only at hab ⊢
  rw [← haddr a, ← haddr b, hab]

/-! ## Cloning -/

/-- The copies of segments have the bounds of segments. -/
theorem CloneRun.paged {ps cs' : List Nat} (h : CloneRun M D parent child ps vs s cs s' cs') :
    s.Holds parent ps → s.Holds child cs → Paged s.seg ps → Paged s.seg cs →
      Paged s'.seg ps ∧ Paged s'.seg cs' := by
  induction h with
  | nil => exact fun _ _ hp hc => ⟨hp, hc⟩
  | @cons v new vs cs cs' s s1 s' hstep _ ih => ?_
  intro hP hC hp hc
  have hbounds (x : Nat) (hx : x ∈ s.live) :
      (s1.seg x).start = (s.seg x).start ∧ (s1.seg x).stop = (s.seg x).stop :=
    have hcore := hstep.core x (ne_of_mem_of_not_mem hx hstep.fresh)
    ⟨core_start hcore, core_stop hcore⟩
  have hnew : (s1.seg new).start = (s.seg v).start ∧ (s1.seg new).stop = (s.seg v).stop := by
    have hstart := core_start hstep.copy
    have hstop := core_stop hstep.copy
    exact ⟨hstart, hstop⟩
  have hcases (x : Nat) (hx : x ∈ cs ++ [new]) : ∃ y, (y ∈ cs ∨ y ∈ ps) ∧
      (s1.seg x).start = (s.seg y).start ∧ (s1.seg x).stop = (s.seg y).stop := by
    rcases List.mem_append.1 hx with hx | hx
    · exact ⟨x, .inl hx, hbounds x (hC.live x hx)⟩
    rw [List.mem_singleton.1 hx]
    exact ⟨v, .inr hstep.mem, hnew⟩
  refine ih hstep.parentHolds hstep.childHolds
    (hp.congr (fun _ hx => hx) fun x hx => hbounds x (hP.live x hx)) ⟨?_, ?_, ?_⟩ <;>
    intro x hx <;> obtain ⟨y, hy, h1, h2⟩ := hcases x hx
  · rw [h1]; exact hy.elim (hc.start y) (hp.start y)
  · rw [h2]; exact hy.elim (hc.stop y) (hp.stop y)
  rw [h2]; exact hy.elim (hc.bounded y) (hp.bounded y)

/-- The spaces once segments of one have been copied to another. -/
theorem Spaces.of_cloneRun (h : Spaces s) (hempty : s.segments child = [])
    (hclone : CloneRun M D parent child (s.segments parent) vs (s.sized parent child) [] s' cs)
    (hP : s'.Holds parent (s.segments parent)) (hC : s'.Holds child cs) : Spaces s' := by
  obtain ⟨hlive, hseg, hspace, haddr, hfresh⟩ := hclone.frame
  have hold := h.holds child
  rw [hempty] at hold
  obtain ⟨hpp, hpc⟩ := hclone.paged ((h.holds parent).sized ..) (hold.sized ..) (h.paged parent)
    ⟨nofun, nofun, nofun⟩
  have hother (sp : Nat) (h1 : sp ≠ parent) (v : Nat) (hv : v ∈ s.segments sp) :
      s'.seg v = s.seg v :=
    hseg v ((h.holds sp).live v hv) (h.apart sp parent h1 hv) nofun
  have haddr' (sp : Nat) : (s'.space sp).addrspace = (s.space sp).addrspace := by
    by_cases hsp : sp = child
    · rw [hsp, haddr, sized_addrspace]
    rw [hspace sp hsp, sized_addrspace]
  have hdisj (sp : Nat) : cs.Disjoint (s.segments sp) := fun c hc hc' =>
    (hfresh c hc).elim nofun fun hnl => hnl ((h.holds sp).live c hc')
  refine .of_lists (fun sp => if sp = child then cs else s.segments sp) (fun sp => ?_) (fun sp => ?_)
    (fun a b hab => ?_) fun a b hab => h.addrspace ?_
  · split
    · next hsp => rw [hsp]; exact hC
    next hsp =>
    by_cases hpar : sp = parent
    · rw [hpar]; exact hP
    refine (h.holds sp).congr ?_ (fun v hv => ?_) fun v hv => hlive ((h.holds sp).live v hv)
    · rw [hspace sp hsp]
      exact congrArg VmmSpace.root (Function.update_of_ne hsp ..)
    rw [hother sp hpar v hv]
    exact ⟨rfl, rfl, rfl⟩
  · split
    · exact hpc
    by_cases hpar : sp = parent
    · rw [hpar]; exact hpp
    exact (h.paged sp).congr (fun _ hx => hx) fun v hv => by
      rw [hother sp hpar v hv]; exact ⟨rfl, rfl⟩
  · split
    · next ha => rw [if_neg (ha ▸ hab.symm)]; exact hdisj b
    split
    · exact (hdisj a).symm
    exact h.apart a b hab
  dsimp only at hab ⊢
  rw [← haddr' a, ← haddr' b, hab]

/-- **`vmm_clone`** keeps the lists of the spaces when there are enough tables. -/
theorem Spaces.of_clone {D : VmmDrivers MapMem Nat} {s s' : Vmm MapMem Nat} {ret : Option Errno}
    (hdup : ∀ ops seg mem, D.dup ops seg mem = .ok mem) (h : Spaces s) (hne : parent ≠ child)
    (hempty : s.segments child = []) (hready : s.mem.Ready (s.tablesFor parent (s.segments parent)))
    (hrun : vmmClone pageMap D s parent child = .ok (ret, s')) : Spaces s' := by
  have hC := h.holds child
  rw [hempty] at hC
  have haddr : (s.space parent).addrspace ≠ (s.space child).addrspace := fun he =>
    hne (h.addrspace he)
  obtain ⟨vs1, vs2, s1, cs1, hps, hclone, hlists, hend⟩ := clone_spec (h.holds parent) hC hne hrun
  have hs1 : Spaces s1 := h.of_cloneRun hempty hclone hlists.parent hlists.child
  rcases hend with ⟨-, -, rfl⟩ | ⟨err, v, vs3, -, rfl, ⟨slab, hunmap⟩ | ⟨seg, mem, hcore, hloop⟩⟩
  · exact hs1
  · have hslab : Spaces ({ s1 with slab := slab } : Vmm MapMem Nat) :=
      .of_lists s1.segments (fun sp => (hs1.holds sp).congr rfl (fun _ _ => ⟨rfl, rfl, rfl⟩)
        (hs1.holds sp).live) hs1.paged hs1.apart hs1.addrspace
    have hcs := hlists.child.segments_eq.symm
    rw [hcs] at hunmap
    exact hslab.of_moves (hunmap.moves (hslab.holds child) (hslab.paged child))
  -- a segment cannot be left without a table
  have hsized : s.mem.Ready ((s.sized parent child).tablesFor parent (vs1 ++ v :: vs3)) := by
    rw [← hps]
    have : (s.sized parent child).tablesFor parent = s.tablesFor parent := by
      funext vs
      unfold tablesFor pagesOf
      rw [sized_addrspace]
      rfl
    rw [this]
    exact hready
  obtain ⟨hready1, hp1⟩ := cloneRun_ready hdup hclone
    (by rw [sized_addrspace, sized_addrspace]; exact haddr) hne
    ⟨(h.holds parent).sized .., hC.sized .., fun _ _ => nofun, ⟨[], hps⟩, nofun⟩ (h.paged parent)
    hsized
  have hv : v ∈ s.segments parent := by rw [hps]; simp
  obtain ⟨⟨_, hok⟩, -⟩ := cloneLoop_ok hlists.parent hp1 hv
    (fun he => hne (hs1.addrspace he)) hcore hready1 hloop
  cases hok

end Vmm

/-! ## Runs -/

/-- What a call must meet: the size of a mapping is not zero and can be rounded up, and its bounds do
not wrap around (`Fits`); a clone is into another space, which is empty, and there is memory for the
tables it needs. -/
def VmmOp.Safe (s : Vmm MapMem Nat) : VmmOp → Prop
  | .map sp address size _ _ _ _ =>
    0 < size.toNat ∧ size.toNat ≤ 2 ^ 64 - pageSize ∧
      s.Fits (s.segments sp) address.toNat (pageAlignUp size.toNat)
  | .clone parent child =>
    parent ≠ child ∧ s.segments child = [] ∧
      s.mem.Ready (s.tablesFor parent (s.segments parent))
  | _ => True

instance VmmOp.Safe.instDecidable (s : Vmm MapMem Nat) : (op : VmmOp) → Decidable (op.Safe s)
  | .map .. => inferInstanceAs (Decidable (_ ∧ _))
  | .clone .. => inferInstanceAs (Decidable (_ ∧ _))
  | .unmapRange .. => inferInstanceAs (Decidable True)
  | .chprotRange .. => inferInstanceAs (Decidable True)

theorem pageAlignUp_pos {n : Nat} (h : 0 < n) (hn : n ≤ 2 ^ 64 - pageSize) : 0 < pageAlignUp n := by
  unfold pageAlignUp wrap
  simp only [pageSize] at *
  omega

theorem vmmStep_spaces {D : VmmDrivers MapMem Nat} {s s' : Vmm MapMem Nat} {ret : Option Errno}
    (hdup : ∀ ops seg mem, D.dup ops seg mem = .ok mem) (op : VmmOp) (h : s.Spaces) (hsafe : op.Safe s)
    (hrun : vmmStep pageMap D s op = .ok (ret, s')) : s'.Spaces := by
  cases op with
  | map sp address size prot flags fd offset =>
    obtain ⟨hpos, hle, hfit⟩ := hsafe
    obtain ⟨⟨ret1, s1⟩, hmap, hrun⟩ := Exec.bind_eq_ok.1 hrun
    cases hrun
    obtain ⟨ys, hcase⟩ := map_spec (h.holds sp) (h.paged sp).bounded (pageAlignUp_pos hpos hle)
      hfit hmap
    exact h.of_moves (hcase.moves (h.holds sp) (h.paged sp) (pageAlignUp_mod _))
  | unmapRange sp start stop =>
    obtain ⟨-, ys, hys, -, -⟩ := unmapRange_spec (h.holds sp) hrun
    exact h.of_moves (hys.moves (h.holds sp) (h.paged sp))
  | chprotRange sp start stop prot =>
    obtain ⟨ys, hys, -⟩ := chprotRange_spec (h.holds sp) hrun
    exact h.of_moves (hys.moves (h.holds sp) (h.paged sp))
  | clone parent child =>
    obtain ⟨hne, hempty, hready⟩ := hsafe
    exact h.of_clone hdup hne hempty hready hrun

/-- No space has a segment yet, and every space has page tables of its own. -/
structure Vmm.Fresh {σ Sp : Type} (s : Vmm σ Sp) : Prop where
  root : ∀ sp, (s.space sp).root = none
  addrspace : Function.Injective fun sp => (s.space sp).addrspace

theorem Vmm.Fresh.spaces {σ Sp : Type} {s : Vmm σ Sp} (h : s.Fresh) : s.Spaces :=
  .of_lists (fun _ => []) (fun sp => ⟨⟨nofun, .nil⟩, .empty (h.root sp), nofun⟩)
    (fun _ => ⟨nofun, nofun, nofun⟩) (fun _ _ _ _ => nofun) h.addrspace

/-- **Segments are sound.** From spaces without segments, in every state of a run of safe calls, the
segments of every space are not empty, end after they start, and do not overlap; the drivers have
nothing to do when a segment is copied, as the only one of the kernel. -/
theorem vmm_segs_sound (D : VmmDrivers MapMem Nat)
    (hdup : ∀ ops seg mem, D.dup ops seg mem = .ok mem) (s : Vmm MapMem Nat) (hs : s.Fresh)
    (ops : List VmmOp) (hsafe : CallsAll (vmmStep pageMap D) (fun s op => op.Safe s) s ops) :
    StatesAll (vmmStep pageMap D) (fun s => ∀ sp, s.SegsSound sp) s ops :=
  statesAll_of_invariant (fun _ h => h.segsSound)
    (fun _ op _ _ h hq hrun => vmmStep_spaces hdup op h hq hrun) hs.spaces hsafe

/-! ## Two runs -/

/-- Spaces after boot, with the answers of the slab and of the memory for tables; the page of zeros is at
address `0x1000` and has one reference. -/
def vmmBoot (slab : List (Option Nat)) (tables : List Bool) : Vmm MapMem Nat where
  mem :=
    { entry := fun _ _ => 0, pages := fun _ => ∅, present := fun _ _ h => absurd h (by decide)
      refCount := fun page => if page = 0x1000 then 1 else 0, byte := fun _ _ => 0, frames := []
      tables := tables, zeroFrame := 0x1000 }
  seg _ := .zero
  live := ∅
  slab := slab
  space sp := { addrspace := sp, root := none }
  fdRef _ := 0

/-- A mapping of anonymous private memory that can be read and written. -/
def mapAnonymous (sp : Nat) (address size : BitVec 64) : VmmOp :=
  .map sp address size (mmuFlagPresent ||| mmuFlagRead ||| mmuFlagWrite ||| mmuFlagUser)
    (vmmFlagAnonymous ||| vmmFlagPrivate) none 0

theorem vmmBoot_fresh (slab : List (Option Nat)) (tables : List Bool) :
    (vmmBoot slab tables).Fresh :=
  ⟨fun _ => rfl, fun _ _ h => h⟩

/-- A program is mapped, part of it is protected, the process is forked, and the child unmaps a page. -/
theorem vmm_segs_sound_fork :
    StatesAll (vmmStep pageMap noDrivers) (fun s => ∀ sp, s.SegsSound sp)
      (vmmBoot [some 1, some 2, some 3, some 4, some 5, some 6, some 7] (List.replicate 8 true))
      [mapAnonymous 0 0x400000 0x2000, mapAnonymous 0 0 0x1800,
        .chprotRange 0 0x400000 0x401000 (mmuFlagPresent ||| mmuFlagRead ||| mmuFlagUser), .clone 0 1,
        .unmapRange 1 0x401000 0x402000] :=
  vmm_segs_sound noDrivers (fun _ _ _ => rfl) _ (vmmBoot_fresh _ _) _ (by decide +kernel)

/-- A page is mapped at `0x1000`, and then two pages wherever there is room: both come to `0x80000`. -/
theorem vmm_segs_overlap :
    ¬ ∀ ops, StatesAll (vmmStep pageMap noDrivers) (fun s => ∀ sp, s.SegsSound sp)
      (vmmBoot [some 1, some 2, some 3] (List.replicate 8 true)) ops := by
  intro h
  have hbad : (match runOps (vmmStep pageMap noDrivers)
      (vmmBoot [some 1, some 2, some 3] (List.replicate 8 true))
      [mapAnonymous 0 0x1000 0x1000, mapAnonymous 0 0 0x1000, mapAnonymous 0 0 0x1000] with
      | .ok (_, s) => decide (¬ s.SegsSound 0)
      | .error _ => false) = true := by
    decide +kernel
  split at hbad
  · next rs s' hrun => exact of_decide_eq_true hbad ((h _).final hrun 0)
  cases hbad

/-! ## Calls on a range -/

section Range

variable {σ Sp E : Type} (M : Mmu σ Sp E) (D : VmmDrivers σ Sp) {s s' : Vmm σ Sp} {sp : Nat}
  {xs : List Nat} (hold : s.Holds sp xs) {start stop : Nat}

include hold

/-- **`vmm_space_unmap_range` is exact.** Once it has succeeded, no segment meets the range, and at every
address outside it there is the same file, at the same position, with the same rights as before. -/
theorem vmm_unmap_range_exact (hrun : vmmSpaceUnmapRange M D s sp start stop = .ok (none, s')) :
    ∃ ys, s'.Holds sp ys ∧ (∀ x ∈ ys, (s'.seg x).stop ≤ start ∨ stop ≤ (s'.seg x).start) ∧
      ∀ a, a < start ∨ stop ≤ a → Vmm.view s'.seg ys a = Vmm.view s.seg xs a := by
  obtain ⟨-, ys, -, hys, hend⟩ := unmapRange_spec hold hrun
  exact ⟨ys, hys, hend rfl⟩

/-- **`vmm_space_chprot_range` is exact.** Once it has succeeded, every address of the range that was in
a segment is in one with the new protection; nothing else has changed at any address. -/
theorem vmm_chprot_range_exact {prot : BitVec 64}
    (hrun : vmmSpaceChprotRange M D s sp start stop prot = .ok (none, s')) :
    ∃ ys, s'.Holds sp ys ∧ ∀ a, Vmm.view s'.seg ys a =
      (Vmm.view s.seg xs a).map fun w => if start ≤ a ∧ a < stop then { w with prot } else w := by
  obtain ⟨ys, -, hys, hend⟩ := chprotRange_spec hold hrun
  exact ⟨ys, hys, hend rfl⟩

end Range

theorem exists_mapped {call : Vmm MapMem Nat → Exec (Option Errno × Vmm MapMem Nat)}
    (h : (runOps (vmmStep pageMap noDrivers) (vmmBoot [some 1, some 2, some 3] [true, true, true])
      [mapAnonymous 0 0x400000 0x3000]).okAnd (fun r => (call r.2).okAnd fun r => r.1 = none) = true) :
    ∃ s s', s.Spaces ∧ call s = .ok (none, s') := by
  obtain ⟨⟨rs, s⟩, hrun, hcall⟩ := Exec.okAnd_eq_true.1 h
  obtain ⟨⟨ret, s'⟩, hcall, hret⟩ := Exec.okAnd_eq_true.1 hcall
  obtain rfl : ret = none := of_decide_eq_true hret
  refine ⟨s, s', (statesAll_of_invariant (fun _ h => h) (fun _ op _ _ h hq hrun =>
    vmmStep_spaces (fun _ _ _ => rfl) op h hq hrun) (vmmBoot_fresh _ _).spaces ?_).final hrun, hcall⟩
  decide +kernel

/-- The page in the middle is unmapped. -/
theorem vmm_unmap_range_hole : ∃ s s' : Vmm MapMem Nat,
    vmmSpaceUnmapRange pageMap noDrivers s 0 0x401000 0x402000 = .ok (none, s') ∧
      ∃ ys, s'.Holds 0 ys ∧ (∀ x ∈ ys, (s'.seg x).stop ≤ 0x401000 ∨ 0x402000 ≤ (s'.seg x).start) ∧
        ∀ a, a < 0x401000 ∨ 0x402000 ≤ a →
          Vmm.view s'.seg ys a = Vmm.view s.seg (s.segments 0) a := by
  obtain ⟨s, s', hs, hrun⟩ := @exists_mapped
    (fun s => vmmSpaceUnmapRange pageMap noDrivers s 0 0x401000 0x402000) (by decide +kernel)
  exact ⟨s, s', hrun, vmm_unmap_range_exact pageMap noDrivers (hs.holds 0) hrun⟩

/-- The page in the middle can be read only. -/
theorem vmm_chprot_range_hole : ∃ s s' : Vmm MapMem Nat,
    vmmSpaceChprotRange pageMap noDrivers s 0 0x401000 0x402000 mmuFlagRead = .ok (none, s') ∧
      ∃ ys, s'.Holds 0 ys ∧ ∀ a, Vmm.view s'.seg ys a = (Vmm.view s.seg (s.segments 0) a).map fun w =>
        if 0x401000 ≤ a ∧ a < 0x402000 then { w with prot := mmuFlagRead } else w := by
  obtain ⟨s, s', hs, hrun⟩ := @exists_mapped (fun s =>
    vmmSpaceChprotRange pageMap noDrivers s 0 0x401000 0x402000 mmuFlagRead) (by decide +kernel)
  exact ⟨s, s', hrun, vmm_chprot_range_exact pageMap noDrivers (hs.holds 0) hrun⟩

end Stanix
