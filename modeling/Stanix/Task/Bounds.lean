import Stanix.Task.Exec
import Stanix.Mem.Vmm.Run

/-!
# The bounds of user space

Whatever a process does with `sys_mmap`, `sys_munmap`, `sys_mprotect`, `sys_sbrk` and `exec`, its
segments should be below `MEM_USERSPACE_END`. Only `sys_munmap` and `sys_mprotect` check it; the others
pass addresses and sizes from registers and from file headers on to `vmm_space_map`. `UserFits` and
`ElfFits` say what they would have to check, and then no segment leaves user space (`user_bounded`).
-/

namespace Stanix

open Exec List BitVec

/-! ## Sizes -/

theorem pageAlignUp_of_mod {n : Nat} (h : n % pageSize = 0) (hn : n < 2 ^ 64) : pageAlignUp n = n := by
  unfold pageAlignUp wrap
  simp only [pageSize] at *
  omega

theorem pageAlignUp_lt (n : Nat) : pageAlignUp n < 2 ^ 64 := by
  unfold pageAlignUp wrap
  simp only [pageSize]
  omega

theorem pageAlignUp_idem (n : Nat) : pageAlignUp (pageAlignUp n) = pageAlignUp n :=
  pageAlignUp_of_mod (Vmm.pageAlignUp_mod n) (pageAlignUp_lt n)

/-! ## A space in user space -/

namespace Vmm

variable {σ Sp E : Type} {M : Mmu σ Sp E} {D : VmmDrivers σ Sp} {s s' : Vmm σ Sp}
  {sp address size : Nat} {xs ys : List Nat}

/-- The segments of a space are not empty and end in user space. -/
def UserBounded (s : Vmm σ Sp) (sp : Nat) : Prop :=
  ∀ v ∈ s.segments sp, (s.seg v).start < (s.seg v).stop ∧ (s.seg v).stop ≤ memUserspaceEnd + 1
  deriving Decidable

/-- The list of a space whose segments end in user space. -/
structure UserSpace (s : Vmm σ Sp) (sp : Nat) : Prop where
  holds : s.Holds sp (s.segments sp)
  paged : Paged s.seg (s.segments sp)
  bound : ∀ v ∈ s.segments sp, (s.seg v).stop ≤ memUserspaceEnd + 1

theorem UserSpace.userBounded (h : s.UserSpace sp) : s.UserBounded sp :=
  fun v hv => ⟨h.holds.nonempty v hv, h.bound v hv⟩

theorem UserSpace.of_list (hold : s.Holds sp xs) (hp : Paged s.seg xs)
    (hb : ∀ v ∈ xs, (s.seg v).stop ≤ memUserspaceEnd + 1) : s.UserSpace sp := by
  have hxs := hold.segments_eq
  exact ⟨hxs ▸ hold, hxs ▸ hp, hxs ▸ hb⟩

section

variable (h : s.UserSpace sp)

include h

theorem UserSpace.of_run (hrun : SegRun sp s (s.segments sp) s' ys) : s'.UserSpace sp := by
  have hch := hrun.changes h.holds
  refine .of_list hch.holds (hrun.paged h.paged) fun v hv => ?_
  obtain ⟨u, hu, -, hstop, -⟩ := hch.within v hv
  exact hstop.trans (h.bound u hu)

theorem UserSpace.of_fdRef {fdRef : Nat → Nat} :
    ({ s with fdRef := fdRef } : Vmm σ Sp).UserSpace sp :=
  .of_list (h.holds.congr rfl (fun _ _ => ⟨rfl, rfl, rfl⟩) h.holds.live) h.paged h.bound

theorem UserSpace.vfsDup (fd : Option Nat) : (s.vfsDup fd).UserSpace sp := by
  cases fd with
  | none => exact h
  | some fd => exact h.of_fdRef

theorem UserSpace.vfsClose (fd : Option Nat) : (s.vfsClose fd).UserSpace sp := by
  cases fd with
  | none => exact h
  | some fd => exact h.of_fdRef

end

/-- A new segment comes to user space: at its address, or wherever the search finds room. The search
must not find a place that overlaps a segment either (`Fits`), or the tree is no longer sorted. -/
def UserFits (s : Vmm σ Sp) (xs : List Nat) (address size : Nat) : Prop :=
  (address ≠ 0 → address + size ≤ memUserspaceEnd + 1) ∧
  (address = 0 → vmmMapBase + size ≤ memUserspaceEnd + 1 ∧
    (∀ x ∈ xs, (s.seg x).stop + size ≤ memUserspaceEnd + 1) ∧
    ((∀ x ∈ xs, vmmMapBase ≤ (s.seg x).start) ∨ Clear s.seg xs vmmMapBase (vmmMapBase + size)))
  deriving Decidable

theorem UserFits.fits (h : s.UserFits xs address size) : s.Fits xs address size := by
  have hend : memUserspaceEnd + 1 < 2 ^ 64 := by decide
  refine ⟨fun h0 => (h.1 h0).trans_lt hend, fun h0 => ?_⟩
  obtain ⟨h1, h2, h3⟩ := h.2 h0
  exact ⟨h1.trans_lt hend, fun x hx => (h2 x hx).trans_lt hend, h3⟩

theorem SegRun.bound {s1 s2 : Vmm σ Sp} {new : Nat} (h : s.UserSpace sp)
    (halloc : s.slabAlloc = (some new, s1)) (hrun : SegRun sp s1 (s.segments sp) s2 ys) :
    ∀ v ∈ ys, (s2.seg v).stop ≤ memUserspaceEnd + 1 := by
  obtain ⟨h1, hnx, -, -, -, hsame, -, -⟩ := h.holds.alloc halloc
  intro v hv
  obtain ⟨u, hu, -, hstop, -⟩ := (hrun.changes h1).within v hv
  rw [hsame u (ne_of_mem_of_not_mem hu hnx)] at hstop
  exact hstop.trans (h.bound u hu)

/-- **A mapping that fits** leaves the space in user space, and the segment it answers is in it. -/
theorem UserSpace.map {prot flags : BitVec 64} {fd : Option Nat} {offset : Nat}
    {ret : Except Errno Nat} (h : s.UserSpace sp) (hsize : 0 < pageAlignUp size)
    (hfit : s.UserFits (s.segments sp) address (pageAlignUp size))
    (hrun : vmmSpaceMap M D s sp address size prot flags fd offset = .ok (ret, s')) :
    s'.UserSpace sp ∧ ∀ new, ret = .ok new → new ∈ s'.segments sp := by
  obtain ⟨ys, hcase⟩ := map_spec h.holds h.paged.bounded hsize hfit.fits hrun
  have hm := hcase.moves h.holds h.paged (pageAlignUp_mod size)
  rw [hm.holds.segments_eq]
  refine ⟨.of_list hm.holds hm.paged ?_, ?_⟩
  · cases hcase with
    | refused slab hs => subst hs; exact h.bound
    | @unplaced _ new s1 s2 ys halloc hys hs =>
      obtain ⟨h₁, hnx, -, hlive, -, -, -, -⟩ := h.holds.alloc halloc
      have hny := ((hys.changes h₁).spare (hlive ▸ Finset.mem_insert_self new s.live) hnx).2.2
      intro v hv
      rw [hs, show (s2.slabFree new).seg v = s2.seg v from
        Function.update_of_ne (ne_of_mem_of_not_mem hv hny) ..]
      exact hys.bound h halloc v hv
    | @unfilled _ new a s1 s2 s3 l r halloc hys hins _ core _ _ _ _ =>
      intro v hv
      have hvn := ne_of_mem_of_not_mem hv (created_spec h.holds h.paged halloc hys hins).2.2.2.2
      rw [VmmSeg.core_stop (core v hvn), (hins.bounds hvn).2]
      exact hys.bound h halloc v hv
    | @filled new a s1 s2 s3 l r mseg halloc hys _ _ hfixed hfound hins _ core hnew _ _ _ =>
      intro v hv
      rcases mem_cons.1 (perm_middle.subset hv) with rfl | hv
      · rw [show (s'.seg v).stop = a + pageAlignUp size from congrArg VmmSeg.stop hnew]
        by_cases h0 : address = 0
        · obtain ⟨h1, h2, -⟩ := hfit.2 h0
          rcases hfound h0 with rfl | ⟨x, hx, rfl⟩
          · exact h1
          exact h2 x hx
        rw [(hfixed h0).1]
        exact hfit.1 h0
      have hvn := ne_of_mem_of_not_mem hv (created_spec h.holds h.paged halloc hys hins).2.2.2.2
      rw [core v hvn, (hins.bounds hvn).2]
      exact hys.bound h halloc v hv
  intro new hnew
  subst hnew
  cases hcase with
  | filled => simp

end Vmm

/-! ## Programs -/

/-- A segment can be mapped: its offset and its address agree within the page. -/
def ElfPhdr.Mappable (h : ElfPhdr) : Prop := h.offset.toNat % pageSize = h.vaddr.toNat % pageSize
  deriving Decidable

/-- A segment of a file is in user space, not at address zero, once the base is added. A segment that
is read and not mapped comes to its own address, and is not empty. -/
def ElfPhdr.Fits (h : ElfPhdr) (base : Nat) : Prop :=
  (h.Mappable → 0 < pageAlignDown h.vaddr.toNat + base ∧
    h.vaddr.toNat + base + h.filesz.toNat ≤ memUserspaceEnd + 1 ∧
    h.vaddr.toNat + base + h.memsz.toNat ≤ memUserspaceEnd + 1) ∧
  (¬ h.Mappable → 0 < h.vaddr.toNat ∧ 0 < h.memsz.toNat ∧ h.memsz.toNat ≤ 2 ^ 64 - pageSize ∧
    h.vaddr.toNat + pageAlignUp h.memsz.toNat ≤ memUserspaceEnd + 1)
  deriving Decidable

/-- The interpreter that a program header names. -/
def PhdrType.interpreter : PhdrType → Option Nat
  | .interp path => some path
  | _ => none

/-- The segments of a file, and of the interpreters it leads to, are in user space. -/
def ElfFits (files : Nat → Except Errno ElfFile) : Nat → Nat → Nat → Prop
  | 0, _, _ => True
  | fuel + 1, path, base =>
    ∀ file, files path = .ok file → ∀ h ∈ file.phdrs,
      (h.type = .load → h.Fits (file.base base)) ∧
        ∀ path, h.type.interpreter = some path → ElfFits files fuel path execBase

instance ElfFits.instDecidable (files : Nat → Except Errno ElfFile) :
    ∀ fuel path base, Decidable (ElfFits files fuel path base)
  | 0, _, _ => .isTrue trivial
  | fuel + 1, path, base =>
    match hf : files path with
    | .error _ => .isTrue fun file hfile => by cases hf.symm.trans hfile
    | .ok file =>
      have := fun path => ElfFits.instDecidable files fuel path execBase
      decidable_of_iff (∀ h ∈ file.phdrs, (h.type = .load → h.Fits (file.base base)) ∧
          ∀ path, h.type.interpreter = some path → ElfFits files fuel path execBase)
        ⟨fun h file' hfile => by cases hf.symm.trans hfile; exact h, fun h => h file hf⟩

section Exec

variable {σ Sp E : Type} {M : Mmu σ Sp E} {D : VmmDrivers σ Sp} {s s' : Vmm σ Sp} {sp : Nat}
  {p' : UserProc σ Sp} {h : ElfPhdr} {base size fd : Nat} {ok : Bool}

open Vmm

theorem ElfPhdr.Fits.bounds (hf : h.Fits base) (hoff : h.Mappable) (hbase : base % pageSize = 0)
    (size : BitVec 64) (hsize : h.vaddr.toNat + base + size.toNat ≤ memUserspaceEnd + 1) :
    wrap (pageAlignDown h.vaddr.toNat + base) = pageAlignDown h.vaddr.toNat + base ∧
    0 < pageAlignDown h.vaddr.toNat + base ∧
    pageAlignDown h.vaddr.toNat + base +
      pageAlignUp (wrap (size.toNat + h.vaddr.toNat % pageSize)) ≤ memUserspaceEnd + 1 := by
  obtain ⟨hpos, -, -⟩ := hf.1 hoff
  refine ⟨?_, hpos, ?_⟩
  · unfold pageAlignDown wrap
    simp only [pageSize, memUserspaceEnd] at *
    omega
  unfold pageAlignDown pageAlignUp wrap at *
  simp only [pageSize, memUserspaceEnd] at *
  omega

theorem execMapProt_spec {vaddr : Nat} {flags prot : BitVec 64} {fd : Option Nat} {offset : Nat}
    (h : s.UserSpace sp) (hsize : 0 < pageAlignUp size)
    (hfit : s.UserFits (s.segments sp) vaddr (pageAlignUp size))
    (hrun : execMapProt M D sp s vaddr size flags fd offset prot = .ok (ok, s')) :
    s'.UserSpace sp := by
  obtain ⟨⟨ret, s1⟩, hmap, hrun⟩ := bind_eq_ok.1 hrun
  obtain ⟨h1, hmem⟩ := h.map hsize hfit hmap
  rcases ret with err | new
  · cases hrun
    exact h1
  obtain ⟨⟨ret2, s2⟩, hprot, hrun⟩ := bind_eq_ok.1 hrun
  cases hrun
  exact h1.of_run (.single (chprot_step h1.holds (hmem new rfl) hprot).1)

theorem userFits_fixed {xs : List Nat} {address : Nat} (h0 : 0 < address)
    (h : address + size ≤ memUserspaceEnd + 1) : s.UserFits xs address size :=
  ⟨fun _ => h, fun he => absurd he h0.ne'⟩

/-- **Loading a segment** that fits. -/
theorem execLoad_spec (hs : s.UserSpace sp) (hf : h.Fits base) (hbase : base % pageSize = 0)
    (hrun : execLoad M D sp s fd base h = .ok (ok, s')) : s'.UserSpace sp := by
  unfold execLoad at hrun
  split at hrun
  · next hoff =>
    dsimp only at hrun
    obtain ⟨-, hfile, hmem⟩ := hf.1 hoff
    obtain ⟨hv, hpos, hfile⟩ := hf.bounds hoff hbase h.filesz hfile
    obtain ⟨-, -, hmem⟩ := hf.bounds hoff hbase h.memsz hmem
    rw [hv] at hrun
    set vaddr := pageAlignDown h.vaddr.toNat + base with hvaddr
    set filesz := pageAlignUp (wrap (h.filesz.toNat + h.vaddr.toNat % pageSize)) with hfilesz
    set memsz := pageAlignUp (wrap (h.memsz.toNat + h.vaddr.toNat % pageSize)) with hmemsz
    have hfilemod : filesz % pageSize = 0 := pageAlignUp_mod _
    have hmemmod : memsz % pageSize = 0 := pageAlignUp_mod _
    have hfileeq : pageAlignUp filesz = filesz := pageAlignUp_idem _
    have hend : memUserspaceEnd + 1 < 2 ^ 64 := by decide
    clear_value vaddr filesz memsz
    obtain ⟨⟨ok1, s1⟩, hfilerun, hrun⟩ := bind_eq_ok.1 hrun
    have h1 : s1.UserSpace sp := by
      unfold execMapFile at hfilerun
      split at hfilerun
      · next hgt =>
        refine execMapProt_spec hs ?_ ?_ hfilerun
        · rw [hfileeq]
          exact hgt
        rw [hfileeq]
        exact userFits_fixed hpos hfile
      cases hfilerun
      exact hs
    split at hrun
    · cases hrun
      exact h1
    unfold execMapRest at hrun
    split at hrun
    · next hgt =>
      have hwrap : wrap (vaddr + filesz) = vaddr + filesz := wrap_of_lt (by omega)
      have hrest : pageAlignUp (memsz - filesz) = memsz - filesz := by
        refine pageAlignUp_of_mod ?_ (by omega)
        simp only [pageSize] at *
        omega
      obtain ⟨⟨ret, s2⟩, hmap, hrun⟩ := bind_eq_ok.1 hrun
      have h2 := (h1.map (by omega)
        (userFits_fixed (by omega) (by omega)) hmap).1
      rcases ret with err | new <;> cases hrun <;> exact h2
    cases hrun
    exact h1
  next hoff =>
  obtain ⟨hpos, hmempos, hle, hmem⟩ := hf.2 hoff
  obtain ⟨⟨ret, s1⟩, hmap, hrun⟩ := bind_eq_ok.1 hrun
  have hsize : 0 < pageAlignUp (pageAlignUp h.memsz.toNat) := by
    rw [pageAlignUp_idem]
    exact pageAlignUp_pos hmempos hle
  have hfits : s.UserFits (s.segments sp) h.vaddr.toNat (pageAlignUp (pageAlignUp h.memsz.toNat)) := by
    rw [pageAlignUp_idem]
    exact userFits_fixed hpos hmem
  obtain ⟨h1, hnew⟩ := hs.map hsize hfits hmap
  rcases ret with err | new
  · cases hrun
    exact h1
  dsimp only at hrun
  split at hrun
  · cases hrun
    exact h1
  obtain ⟨⟨ret2, s2⟩, hprot, hrun⟩ := bind_eq_ok.1 hrun
  cases hrun
  exact h1.of_run (.single (chprot_step h1.holds (hnew new rfl) hprot).1)

/-- The loop over the program headers, when every segment fits. -/
theorem execPhdrs_spec {ret : ExecEnd} (hbase : base % pageSize = 0) :
    ∀ {hs : List ElfPhdr} {p : UserProc σ Sp}, p.vmm.UserSpace sp →
      (∀ h ∈ hs, h.type = .load → h.Fits base) →
      execPhdrs M D sp fd base hs p = .ok (ret, p') →
      p'.vmm.UserSpace sp ∧ ∀ path, ret = .interp path → ∃ h ∈ hs, h.type = .interp path := by
  intro hs
  induction hs with
  | nil =>
    intro p hp _ hrun
    cases hrun
    exact ⟨hp, nofun⟩
  | cons h hs ih => ?_
  intro p hp hf hrun
  rw [execPhdrs] at hrun
  have hrest : ∀ h ∈ hs, h.type = .load → h.Fits base := fun h' hh' =>
    hf h' (mem_cons_of_mem h hh')
  have hfound {path : Nat} (hex : ∃ h ∈ hs, h.type = .interp path) :
      ∃ h' ∈ h :: hs, h'.type = .interp path := by
    obtain ⟨h', hh', he⟩ := hex
    exact ⟨h', mem_cons_of_mem h hh', he⟩
  split at hrun
  · next path htype =>
    cases hrun
    refine ⟨hp, fun path' he => ⟨h, mem_cons_self, ?_⟩⟩
    cases he
    exact htype
  · obtain ⟨h1, h2⟩ := ih hp hrest hrun
    exact ⟨h1, fun path he => hfound (h2 path he)⟩
  next htype =>
  have hbehind : (p.heapBehind h).vmm = p.vmm := by
    unfold UserProc.heapBehind
    dsimp only
    split <;> rfl
  obtain ⟨⟨ok, s1⟩, hload, hrun⟩ := bind_eq_ok.1 hrun
  rw [hbehind] at hload
  have h₁ := execLoad_spec hp (hf h mem_cons_self htype) hbase hload
  dsimp only at hrun
  split at hrun
  · cases hrun
    exact ⟨h₁, nofun⟩
  obtain ⟨h2, h3⟩ := ih h₁ hrest hrun
  exact ⟨h2, fun path he => hfound (h3 path he)⟩

/-- **`exec_elf`**, when the files it loads fit. -/
theorem execElf_spec {files : Nat → Except Errno ElfFile} {fuel : Nat} {ret : Option Errno} :
    ∀ {path base depth : Nat} {p : UserProc σ Sp}, p.vmm.UserSpace sp →
      base % pageSize = 0 → ElfFits files fuel path base →
      execElf M D sp files fuel path base depth p = .ok (ret, p') → p'.vmm.UserSpace sp := by
  induction fuel with
  | zero =>
    intro path base depth p _ _ _ hrun
    cases hrun
  | succ fuel ih => ?_
  intro path base depth p hp hbase hfits hrun
  rw [execElf] at hrun
  split at hrun
  · cases hrun
    exact hp
  next file hfile =>
  have hfits := hfits file hfile
  split at hrun
  · cases hrun
    exact hp
  split at hrun
  · cases hrun
    exact hp
  obtain ⟨s1, hclear, hrun⟩ := bind_eq_ok.1 hrun
  have h1 : s1.UserSpace sp := by
    unfold execClear at hclear
    split at hclear
    · exact hp.of_run (unmapAll_spec hp.holds hclear).1
    cases hclear
    exact hp
  have hbase' : file.base base % pageSize = 0 := by
    unfold ElfFile.base
    split
    · rfl
    exact hbase
  obtain ⟨⟨ret2, p2⟩, hphdrs, hrun⟩ := bind_eq_ok.1 hrun
  have hstart := h1
  obtain ⟨h2, hinterp⟩ := execPhdrs_spec hbase' hstart (fun h hh => (hfits h hh).1) hphdrs
  dsimp only at hrun
  split at hrun
  · cases hrun
    exact h2
  · next path' =>
    obtain ⟨h, hh, htype⟩ := hinterp path' rfl
    exact ih h2 rfl ((hfits h hh).2 path' (by rw [htype]; rfl)) hrun
  obtain ⟨p3, hfinish, hrun⟩ := bind_eq_ok.1 hrun
  cases hrun
  obtain ⟨⟨ret3, s3⟩, hmap, hfinish⟩ := bind_eq_ok.1 hfinish
  cases hfinish
  exact (h2.map (by decide) (userFits_fixed (by decide) (by decide)) hmap).1

end Exec

/-! ## Runs -/

/-- What a process does with its memory. -/
inductive UserOp
  | mmap (addr length : BitVec 64) (prot : ProtFlags) (flags : MmapFlags) (fd : Option Nat)
      (offset : BitVec 64)
  | munmap (addr length : BitVec 64)
  | mprotect (addr length : BitVec 64) (prot : ProtFlags)
  | sbrk (incr : BitVec 64)
  | exec (path : Nat)

/-- What it gets for an answer. -/
inductive UserRet
  | error (err : Errno)
  | value (value : Nat)

/-- The answer of a call that returns zero or an error. -/
def UserRet.ofErrno : Option Errno → UserRet
  | none => .value 0
  | some err => .error err

section Run

variable {σ Sp E : Type} (M : Mmu σ Sp E) (D : VmmDrivers σ Sp) (sp : Nat)
  (files : Nat → Except Errno ElfFile) (fuel : Nat)

/-- A call of a process. -/
def userStep (p : UserProc σ Sp) : UserOp → Exec (UserRet × UserProc σ Sp)
  | .mmap addr length prot flags fd offset => do
    let (ret, p) ← sysMmap M D sp p addr.toNat length.toNat prot flags fd offset.toNat
    return (match ret with | .error err => .error err | .ok addr => .value addr, p)
  | .munmap addr length => do
    let (ret, p) ← sysMunmap M D sp p addr.toNat length.toNat
    return (.ofErrno ret, p)
  | .mprotect addr length prot => do
    let (ret, p) ← sysMprotect M D sp p addr.toNat length.toNat prot
    return (.ofErrno ret, p)
  | .sbrk incr => do
    let (ret, p) ← sysSbrk M D sp p incr
    return (.value ret, p)
  | .exec path => do
    let (ret, p) ← execElf M D sp files fuel path execBase 0 p
    return (.ofErrno ret, p)

/-- The arguments that `sys_mmap` does not refuse. -/
def MmapFlags.Accepts (flags : MmapFlags) (addr length : Nat) (fd : Option Nat) : Prop :=
  ¬(flags.shared = false ∧ flags.priv = false) ∧ length ≠ 0 ∧
    ¬(flags.fixed = true ∧ (addr % pageSize ≠ 0 ∨ length % pageSize ≠ 0)) ∧
    (flags.anonymous = true ∨ fd ≠ none)
  deriving Decidable

/-- What the calls do not check. -/
def UserOp.Safe (p : UserProc σ Sp) : UserOp → Prop
  | .mmap addr length _ flags fd _ =>
    flags.Accepts addr.toNat length.toNat fd → length.toNat ≤ 2 ^ 64 - pageSize ∧
      p.vmm.UserFits (p.vmm.segments sp) (if flags.fixed then addr.toNat else 0)
        (pageAlignUp length.toNat)
  | .sbrk incr =>
    0 < incr.toInt → incr.toInt < 2 ^ 63 - 4096 ∧
      p.vmm.UserFits (p.vmm.segments sp) p.heapEnd (pageAlignUp incr.toNat)
  | .exec path => ElfFits files fuel path execBase
  | _ => True

instance UserOp.Safe.instDecidable (p : UserProc σ Sp) :
    (op : UserOp) → Decidable (op.Safe sp files fuel p)
  | .mmap .. => inferInstanceAs (Decidable (_ → _ ∧ _))
  | .sbrk incr => inferInstanceAs (Decidable (0 < incr.toInt → _ ∧ _))
  | .exec path => inferInstanceAs (Decidable (ElfFits files fuel path execBase))
  | .munmap .. => inferInstanceAs (Decidable True)
  | .mprotect .. => inferInstanceAs (Decidable True)

variable {M D sp files fuel} {p p' : UserProc σ Sp} {incr : BitVec 64}

open Vmm

theorem sysMmap_spec {addr length offset : Nat} {prot : ProtFlags} {flags : MmapFlags}
    {fd : Option Nat} {ret : Except Errno Nat} (h : p.vmm.UserSpace sp)
    (hsafe : flags.Accepts addr length fd → length ≤ 2 ^ 64 - pageSize ∧
      p.vmm.UserFits (p.vmm.segments sp) (if flags.fixed then addr else 0) (pageAlignUp length))
    (hrun : sysMmap M D sp p addr length prot flags fd offset = .ok (ret, p')) :
    p'.vmm.UserSpace sp := by
  have hmap {fd' : Option Nat} (haccepts : flags.Accepts addr length fd)
      (hrun : sysMmapMap M D sp p (if flags.fixed then addr else 0) length prot flags fd' offset =
        .ok (ret, p')) : p'.vmm.UserSpace sp := by
    obtain ⟨hle, hfit⟩ := hsafe haccepts
    obtain ⟨⟨ret1, s1⟩, hmap, hrun⟩ := bind_eq_ok.1 hrun
    have hseg : (p.vmm.vfsDup fd').segments sp = p.vmm.segments sp := by cases fd' <;> rfl
    have hfit' : (p.vmm.vfsDup fd').UserFits ((p.vmm.vfsDup fd').segments sp)
        (if flags.fixed then addr else 0) (pageAlignUp (pageAlignUp length)) := by
      rw [hseg, pageAlignUp_idem]
      unfold UserFits
      rw [vfsDup_seg]
      exact hfit
    have hpos' : 0 < pageAlignUp (pageAlignUp length) := by
      rw [pageAlignUp_idem]
      exact pageAlignUp_pos (Nat.pos_of_ne_zero haccepts.2.1) hle
    have h1 := ((h.vfsDup fd').map hpos' hfit' hmap).1.vfsClose fd'
    rcases ret1 with err | new <;> cases hrun <;> exact h1
  unfold sysMmap at hrun
  iterate 3
    split at hrun
    · cases hrun
      exact h
  next hkind hpos hfixed =>
  split at hrun
  · next hanonymous => exact hmap ⟨hkind, hpos, hfixed, .inl hanonymous⟩ hrun
  split at hrun
  · cases hrun
    exact h
  exact hmap ⟨hkind, hpos, hfixed, .inr nofun⟩ hrun

/-- The size that `sys_sbrk` asks for. -/
theorem incrPages_size (hpos : 0 < incr.toInt) (hlt : incr.toInt < 2 ^ 63 - 4096) :
    (BitVec.ofInt 64 (4096 * incrPages incr)).toNat = pageAlignUp incr.toNat := by
  have hnat : incr.toInt = incr.toNat := by
    rw [toInt_eq_toNat_cond] at hpos ⊢
    split at hpos <;> omega
  have hadd : (incr + 4095#64).toNat = incr.toNat + 4095 := by grind
  have hsum : (incr + 4095#64).toInt = ((incr.toNat + 4095 : Nat) : Int) := by
    rw [toInt_eq_toNat_of_lt (by omega), hadd]
  have hpages : incrPages incr = (((incr.toNat + 4095) / 4096 : Nat) : Int) := by
    rw [incrPages, hsum]
    exact (Int.ofNat_tdiv _ _).symm
  rw [hpages, toNat_ofInt]
  unfold pageAlignUp wrap
  simp only [pageSize]
  omega

theorem sysSbrk_spec {ret : Nat} (h : p.vmm.UserSpace sp)
    (hsafe : (UserOp.sbrk incr).Safe sp files fuel p)
    (hrun : sysSbrk M D sp p incr = .ok (ret, p')) : p'.vmm.UserSpace sp := by
  unfold sysSbrk at hrun
  split at hrun
  · cases hrun
    exact h
  next hne =>
  split at hrun
  · obtain ⟨⟨ret1, s1⟩, hunmap, hrun⟩ := bind_eq_ok.1 hrun
    simp only [pure_eq, Except.ok.injEq, Prod.mk.injEq] at hrun
    rw [← hrun.2]
    obtain ⟨-, ys, hys, -, -⟩ := unmapRange_spec h.holds hunmap
    exact h.of_run hys
  next hneg =>
  have hpos : 0 < incr.toInt := by
    have : incr.toInt ≠ 0 := fun h0 => hne (toInt_inj.1 h0)
    omega
  obtain ⟨hlt, hfit⟩ := hsafe hpos
  obtain ⟨⟨ret1, s1⟩, hmap, hrun⟩ := bind_eq_ok.1 hrun
  simp only [pure_eq, Except.ok.injEq, Prod.mk.injEq] at hrun
  rw [← hrun.2]
  rw [incrPages_size hpos hlt] at hmap
  have hnat : 0 < incr.toNat ∧ incr.toNat ≤ 2 ^ 64 - pageSize := by
    rw [toInt_eq_toNat_cond] at hpos hlt
    simp only [pageSize]
    split at hpos <;> omega
  refine (h.map ?_ ?_ hmap).1
  · rw [pageAlignUp_idem]
    exact pageAlignUp_pos hnat.1 hnat.2
  rw [pageAlignUp_idem]
  exact hfit

/-- **A call that is safe** leaves the segments of the process in user space. -/
theorem userStep_spec {ret : UserRet} (op : UserOp) (h : p.vmm.UserSpace sp)
    (hsafe : op.Safe sp files fuel p) (hrun : userStep M D sp files fuel p op = .ok (ret, p')) :
    p'.vmm.UserSpace sp := by
  cases op
  all_goals
    obtain ⟨⟨ret1, p1⟩, hcall, hrun⟩ := bind_eq_ok.1 hrun
    cases hrun
  case mmap => exact sysMmap_spec h hsafe hcall
  case munmap =>
    unfold sysMunmap at hcall
    split_ifs at hcall
    iterate 3
      cases hcall
      exact h
    obtain ⟨⟨ret2, s2⟩, hunmap, hcall⟩ := bind_eq_ok.1 hcall
    cases hcall
    obtain ⟨-, ys, hys, -, -⟩ := unmapRange_spec h.holds hunmap
    exact h.of_run hys
  case mprotect =>
    unfold sysMprotect at hcall
    split_ifs at hcall
    iterate 3
      cases hcall
      exact h
    obtain ⟨⟨ret2, s2⟩, hprot, hcall⟩ := bind_eq_ok.1 hcall
    cases hcall
    obtain ⟨ys, hys, -⟩ := chprotRange_spec h.holds hprot
    exact h.of_run hys
  case sbrk => exact sysSbrk_spec h hsafe hcall
  case exec => exact execElf_spec h rfl hsafe hcall

end Run

/-- **Segments stay in user space.** Whatever a process does, from a space without segments on, as long
as each call is safe, every segment of its space is not empty and ends at `MEM_USERSPACE_END` or
before. -/
theorem user_bounded {σ Sp E : Type} (M : Mmu σ Sp E) (D : VmmDrivers σ Sp) (sp : Nat)
    (files : Nat → Except Errno ElfFile) (fuel : Nat) (p : UserProc σ Sp)
    (hp : (p.vmm.space sp).root = none) (ops : List UserOp)
    (hsafe : CallsAll (userStep M D sp files fuel) (fun p op => op.Safe sp files fuel p) p ops) :
    StatesAll (userStep M D sp files fuel) (fun p => p.vmm.UserBounded sp) p ops := by
  have hnil : p.vmm.Holds sp [] := ⟨⟨nofun, .nil⟩, .empty hp, nofun⟩
  have hstart : p.vmm.UserSpace sp := .of_list hnil ⟨nofun, nofun, nofun⟩ nofun
  exact statesAll_of_invariant (fun _ h => h.userBounded)
    (fun _ op _ _ h hq hrun => userStep_spec op h hq hrun) hstart hsafe

/-! ## Two processes -/

/-- Drivers of files whose pages are not in memory yet. -/
def fileDrivers : VmmDrivers MapMem Nat :=
  { noDrivers with
    mmap := fun _ _ _ seg mem => .ok (none, ⟨seg.prot, seg.flags, seg.ops, seg.privateData⟩, mem) }

/-- A program of one segment, the last pages of which are not in the file. -/
def smallProgram : ElfFile where
  fd := 1
  executable := true
  noexec := false
  headerReadable := true
  verified := true
  type := .exec
  entry := 0x400100
  phdrsReadable := true
  phdrs := [⟨.load, true, true, false, 0x100, 0x400100, 0x1800, 0x3000, true⟩]

/-- A process after boot, with memory for so many tables. -/
def bootProc (tables : Nat) : UserProc MapMem Nat where
  vmm := vmmBoot [some 1, some 2, some 3, some 4, some 5, some 6] (List.replicate tables true)
  heapStart := 0
  heapEnd := 0

/-- A program is loaded, its heap grows, and it maps a page at an address and one anywhere. -/
theorem user_bounded_program :
    StatesAll (userStep pageMap fileDrivers 0 (fun _ => .ok smallProgram) 1)
      (fun p => p.vmm.UserBounded 0) (bootProc 300)
      [.exec 0, .sbrk 0x1000,
        .mmap 0x10000000 0x1000 ⟨true, true, false⟩ ⟨false, true, true, true⟩ none 0,
        .mmap 0 0x800 ⟨true, false, false⟩ ⟨false, true, false, true⟩ none 0] :=
  user_bounded pageMap fileDrivers 0 _ 1 (bootProc 300) rfl _ (by decide +kernel)

/-- A process maps a page at the start of the heap of the kernel. -/
theorem mmap_fixed_leaves_user_space :
    ¬ ∀ ops, StatesAll (userStep pageMap noDrivers 0 (fun _ => .ok smallProgram) 1)
      (fun p => p.vmm.UserBounded 0) (bootProc 8) ops := by
  intro h
  have hbad : (match runOps (userStep pageMap noDrivers 0 (fun _ => .ok smallProgram) 1) (bootProc 8)
      [.mmap 0xfffffe8000000000 0x1000 ⟨true, true, false⟩ ⟨false, true, true, true⟩ none 0] with
      | .ok (_, p) => decide (¬ p.vmm.UserBounded 0)
      | .error _ => false) = true := by
    decide +kernel
  split at hbad
  · next rs p' hrun => exact of_decide_eq_true hbad ((h _).final hrun)
  cases hbad

end Stanix
