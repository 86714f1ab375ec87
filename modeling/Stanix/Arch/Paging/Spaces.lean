import Stanix.Arch.Paging.Refine

/-!
# Address spaces apart

The address spaces share the memory, the page allocator and the tables of the upper half. Calls of
`mmu_map_pages` and `mmu_unmap_pages` for the lower half of one space leave the tables of the others
as they are (`Contained`), also when they fail. So the spaces do not interfere, whatever the order of
their calls: `paging_spaces_isolated`.
-/

namespace Stanix

open Exec PageTable List PhysMem

variable {s s' : PhysMem} {n root root' v : Nat} {entry : Option Nat}

/-! ## Calls on one space -/

/-- What a call on a space does: outside of its tables, pages in use and their locks are as before,
and no lock is left taken. -/
structure Contained (s s' : PhysMem) (n root : Nat) : Prop extends Extends s s' n 3 root where
  locks : SameLocks s s' n root
  space : s'.Space n root

theorem Unmapped.contained {v v' : Nat} (h : Unmapped s s' n root v v') (hs : s.Space n root) :
    Contained s s' n root := by
  refine ⟨h.tree, fun f _ _ => congrFun h.locked f, h.tree.owns, fun f hf => ?_, fun p hp => ?_⟩
  · have hmem : f ∈ tables s.word n 3 root :=
      (h.tree.new f hf).resolve_right (h.refCount ▸ h.tree.owns.used f hf)
    rw [h.locked, hs.unlocked hmem]
    simp
  rw [h.locked]
  exact hs.free p (h.refCount ▸ hp)

/-- The loop of `mmu_map_pages` in the lower half returns, whether there is memory for the tables or
not. -/
theorem mapPagesLoop_contained {i left : Nat} (flags : BitVec 64) (paddr : Nat)
    (h : s.Holding n root entry) (hn : v + i + left ≤ n * 512 ^ 3) (hlow : v + i + left < 512 ^ 4)
    (hold : ∀ e, entry = some e → ∃ u, i = u + 1 ∧ walk s.word 3 root (v + u) = some e) :
    ∃ r s', mmuMapPagesLoop paging root flags (v * pageSize) left ((v + i) * pageSize) paddr entry s =
      .ok (r, s') ∧ Contained s s' n root := by
  have hpage (u : Nat) : u * pageSize / pageSize = u := Nat.mul_div_cancel _ (by decide)
  induction left generalizing i paddr entry s with
  | zero =>
    cases entry with
    | none => exact ⟨none, s, rfl, .of_eq h.owns rfl rfl, fun _ _ _ => rfl, h⟩
    | some e => ?_
    obtain ⟨u, rfl, hwalk⟩ := hold e rfl
    obtain ⟨s1, hrun, hw, hc, -, hspace, hlocks⟩ :=
      releaseLock_spec h (walk_mem h.owns.aligned (by omega) hwalk)
    refine ⟨none, s1, ?_, .of_eq h.owns hw hc, hlocks, hspace⟩
    rw [mmuMapPagesLoop, paging_entryReleaseLock, hrun]
    rfl
  | succ left ih => ?_
  have hdigit : (v + i) * pageSize / pageSize / 512 ^ 3 % 512 < n := by
    rw [hpage]
    omega
  obtain ⟨r, s1, hrun, hg, hhold, hlocks, hr, -⟩ :=
    createNext_spec (b := wrapSub ((v + i) * pageSize) pageSize) h (Nat.mul_mod_left ..) hdigit
      fun e he => by
        obtain ⟨u, rfl, hwalk⟩ := hold e he
        have hb : wrapSub ((v + (u + 1)) * pageSize) pageSize = (v + u) * pageSize := by
          rw [wrapSub_of_le] <;> simp only [pageSize] at * <;> omega
        have hau : (v + (u + 1)) * pageSize = (v + u) * pageSize + pageSize := by
          simp only [pageSize]; omega
        rw [hb, hpage, hau]
        exact ⟨Nat.mul_mod_left .., by omega, hwalk, sameTableTest_succ (Nat.mul_mod_left ..)⟩
  cases r with
  | none =>
    -- The pages mapped so far are unmapped again.
    have hsub : wrapSub ((v + i) * pageSize) (v * pageSize) = i * pageSize := by
      rw [wrapSub_of_le] <;> simp only [pageSize] at * <;> omega
    have hcount : v + i ≤ n * 512 ^ 3 := by omega
    obtain ⟨s2, hunmap, hun⟩ := mmuUnmapPages_low hhold.owns hcount (by omega)
    obtain ⟨he, hl, hspace⟩ := hun.contained hhold
    refine ⟨some .nomem, s2, ?_, hg.toExtends.trans he, hlocks.trans hg.toExtends hl, hspace⟩
    rw [mapPagesLoop_none hrun, hsub, hunmap]
    rfl
  | some e => ?_
  have hwalk := hr e rfl
  rw [hpage] at hwalk hdigit
  obtain ⟨-, hwalk2, -⟩ := hhold.store hdigit hwalk (mapValue paddr flags)
  have hnext : wrap ((v + i) * pageSize + pageSize) = (v + (i + 1)) * pageSize := by
    rw [wrap_of_lt] <;> simp only [pageSize] at * <;> omega
  obtain ⟨r, s2, hrun2, he, hl, hspace⟩ := ih (i := i + 1) (wrap (paddr + pageSize))
    (hhold.setWord hdigit hwalk (mapValue paddr flags))
    (by omega) (by omega) fun e' he' => ⟨i, rfl, Option.some.inj he' ▸ hwalk2⟩
  have hset := hg.toExtends.trans (.setWord hhold.owns hdigit hwalk (mapValue paddr flags))
  have hlocks : SameLocks s (s1.setWord e (mapValue paddr flags)) n root := hlocks
  refine ⟨r, s2, ?_, hset.trans he, hlocks.trans hset hl, hspace⟩
  rw [mapPagesLoop_some hrun, hnext]
  exact hrun2

/-- A call of `mmu_map_pages`, with the frame and the flags, or of `mmu_unmap_pages`. -/
structure PagingCall where
  root : Nat
  v : Nat
  size : Nat
  map : Option (Nat × BitVec 64)

/-- One call, with the error of `mmu_map_pages`. -/
def pagingCall (s : PhysMem) (call : PagingCall) : Exec (Option Errno × PhysMem) :=
  match call.map with
  | some (paddr, flags) => mmuMapPages paging s call.root call.v paddr call.size flags
  | none => do return (none, ← mmuUnmapPages paging s call.root call.v call.size)

/-- The call is about whole pages of the lower half of one of the spaces. -/
structure PagingCall.Proper (roots : Set Nat) (call : PagingCall) : Prop where
  root : call.root ∈ roots
  aligned : call.v % pageSize = 0
  pages : call.size % pageSize = 0
  low : call.v + call.size ≤ 2 ^ 47

theorem pagingCall_contained {roots : Set Nat} {call : PagingCall} (hcall : call.Proper roots)
    (h : s.Space 256 call.root) :
    ∃ err s', pagingCall s call = .ok (err, s') ∧ Contained s s' 256 call.root := by
  obtain ⟨root, v, size, map⟩ := call
  obtain ⟨-, hv, hsize, hlow⟩ := hcall
  obtain ⟨u, rfl⟩ := Nat.dvd_of_mod_eq_zero hv
  obtain ⟨k, rfl⟩ := Nat.dvd_of_mod_eq_zero hsize
  have hn : u + k ≤ 256 * 512 ^ 3 := by simp only [pageSize] at hlow; omega
  rw [mul_comm pageSize, mul_comm pageSize] at *
  cases map with
  | none =>
    obtain ⟨s', hrun, hs'⟩ := mmuUnmapPages_low h.owns hn (by omega)
    exact ⟨none, s', bind_eq_ok.2 ⟨s', hrun, rfl⟩, hs'.contained h⟩
  | some m =>
    obtain ⟨err, s', hrun, hs'⟩ := mapPagesLoop_contained (v := u) (i := 0) m.2 m.1 h hn
      (by omega) fun _ he => by cases he
    refine ⟨err, s', ?_, hs'⟩
    simp only [pagingCall]
    rw [mmuMapPages, assert_of hv, assert_of hsize, Nat.mul_div_cancel _ (by decide)]
    exact hrun

/-! ## The other spaces -/

/-- A call on a space keeps the tables and the pages of a space that has no table in common with
it. -/
theorem Contained.other (h : Contained s s' n root) (hs : s.Space n root')
    (hnot : ∀ f ∈ tables s.word n 3 root', f ∉ tables s.word n 3 root) :
    tables s'.word n 3 root' = tables s.word n 3 root' ∧ s'.Space n root' ∧
      ∀ u, u / 512 ^ 3 % 512 < n → leaf s'.word 3 root' u = leaf s.word 3 root' u := by
  obtain ⟨haligned, hentries, hapart, hused⟩ := id hs.owns
  have hagree : AgreeOn s.word s'.word (tables s.word n 3 root') :=
    fun a ha => h.frame a (hnot _ ha) (hused _ ha)
  have hsame := SameShape.of_agree haligned hentries hagree
  refine ⟨hsame.tables, ⟨⟨haligned, hentries, hsame.apart hapart, fun f hf => ?_⟩, fun f hf => ?_,
    h.space.free⟩, fun u hu => leaf_of_agree haligned hentries hagree hu⟩
  · rw [hsame.tables] at hf
    rw [h.count f (hused f hf)]
    exact hused f hf
  rw [hsame.tables] at hf
  rw [h.locks f (hused f hf) (hnot f hf)]
  exact hs.lock f hf

/-- The memory holds some spaces that have no table in common for the lower half. -/
structure PhysMem.Spaces (s : PhysMem) (roots : Set Nat) : Prop where
  space : ∀ root ∈ roots, s.Space 256 root
  apart : ∀ root ∈ roots, ∀ root' ∈ roots, root ≠ root' →
    ∀ f ∈ tables s.word 256 3 root', f ∉ tables s.word 256 3 root

variable {roots : Set Nat} {calls : List PagingCall}

/-- A call on one of the spaces keeps them apart and the pages of the others. -/
theorem PhysMem.Spaces.step (h : s.Spaces roots) (hroot : root ∈ roots) (hc : Contained s s' 256 root) :
    s'.Spaces roots ∧ ∀ root' ∈ roots, root ≠ root' → ∀ a < 2 ^ 47,
      s'.mapping root' a = s.mapping root' a := by
  have hother {root' : Nat} (hroot' : root' ∈ roots) (hne : root ≠ root') :=
    hc.other (h.space root' hroot') (h.apart root hroot root' hroot' hne)
  have hnew {root' : Nat} (hroot' : root' ∈ roots) (hne : root ≠ root') :
      ∀ f ∈ tables s'.word 256 3 root', f ∉ tables s'.word 256 3 root := by
    rw [(hother hroot' hne).1]
    intro f hf' hf
    rcases hc.new f hf with hold | hfree
    · exact h.apart root hroot root' hroot' hne f hf' hold
    exact (h.space root' hroot').owns.used f hf' hfree
  refine ⟨⟨fun root' hroot' => ?_, fun r₁ h₁ r₂ h₂ hne => ?_⟩, fun root' hroot' hne a ha => ?_⟩
  · rcases eq_or_ne root root' with rfl | hne
    · exact hc.space
    exact (hother hroot' hne).2.1
  · rcases eq_or_ne root r₁ with rfl | hne₁
    · exact hnew h₂ hne
    rcases eq_or_ne root r₂ with rfl | hne₂
    · exact fun f hf hf' => hnew h₁ hne₁ f hf' hf
    rw [(hother h₁ hne₁).1, (hother h₂ hne₂).1]
    exact h.apart r₁ h₁ r₂ h₂ hne
  rw [mapping_eq, (hother hroot' hne).2.2 _ (by simp only [pageSize]; omega), mapping_eq]

/-- **Address spaces do not interfere.** All calls return, with no lock left taken, and the lower half
of a space that no call is about is mapped as before. -/
theorem paging_spaces_isolated (h : s.Spaces roots) (hcalls : ∀ call ∈ calls, call.Proper roots) :
    ∃ errs s', runOps pagingCall s calls = .ok (errs, s') ∧ s'.Spaces roots ∧
      ∀ root ∈ roots, (∀ call ∈ calls, call.root ≠ root) → ∀ a < 2 ^ 47,
        s'.mapping root a = s.mapping root a := by
  induction calls generalizing s with
  | nil => exact ⟨[], s, rfl, h, fun _ _ _ _ _ => rfl⟩
  | cons call calls ih => ?_
  obtain ⟨hcall, hrest⟩ := forall_mem_cons.1 hcalls
  obtain ⟨err, s₁, h₁, hc⟩ := pagingCall_contained hcall (h.space _ hcall.root)
  obtain ⟨hspaces, hkept⟩ := h.step hcall.root hc
  obtain ⟨errs, s₂, h₂, hspaces₂, hkept₂⟩ := ih hspaces hrest
  refine ⟨err :: errs, s₂, runOps_cons_eq_ok.2 ⟨err, s₁, errs, h₁, h₂, rfl⟩, hspaces₂,
    fun root hroot hnot a ha => ?_⟩
  obtain ⟨hne, hnot⟩ := forall_mem_cons.1 hnot
  rw [hkept₂ root hroot hnot a ha, hkept root hroot hne a ha]

/-- Two empty spaces. -/
def twoSpaces : PhysMem :=
  { kernelMem with refCount := fun page => if page = 0x1000 ∨ page = 0x5000 then 1 else 0 }

theorem twoSpaces_spaces : twoSpaces.Spaces {0x1000, 0x5000} := by
  have hzero (root : Nat) := zero_table (w := twoSpaces.word) (p := root) (l := 3) (n := 256)
    (fun _ _ => rfl) (by decide)
  refine ⟨fun root hroot => ⟨⟨?_, by decide, (hzero root).2.1, fun f hf => ?_⟩, fun f _ => ?_,
    fun _ _ => rfl⟩, fun r₁ _ r₂ _ hne => ?_⟩
  · rcases hroot with rfl | rfl <;> rfl
  · rw [(hzero root).1] at hf
    rcases hroot with rfl | rfl <;> cases hf <;> decide
  · exact ⟨nofun, fun ⟨_, he, _⟩ => nomatch he⟩
  rw [(hzero r₁).1, (hzero r₂).1]
  rintro f rfl heq
  exact hne heq.symm

/-- One of two spaces maps two pages and unmaps one. -/
theorem paging_spaces_isolated_two : ∃ errs s',
    runOps pagingCall twoSpaces [⟨0x1000, 0x400000, 0x2000, some (0x10000, 0x7)⟩,
      ⟨0x1000, 0x400000, 0x1000, none⟩] = .ok (errs, s') ∧
    ∀ a < 2 ^ 47, s'.mapping 0x5000 a = twoSpaces.mapping 0x5000 a := by
  have hmap : PagingCall.Proper {0x1000, 0x5000} ⟨0x1000, 0x400000, 0x2000, some (0x10000, 0x7)⟩ :=
    ⟨.inl rfl, rfl, rfl, by decide⟩
  have hunmap : PagingCall.Proper {0x1000, 0x5000} ⟨0x1000, 0x400000, 0x1000, none⟩ :=
    ⟨.inl rfl, rfl, rfl, by decide⟩
  obtain ⟨errs, s', hrun, -, hkept⟩ := paging_spaces_isolated twoSpaces_spaces
    (forall_mem_cons.2 ⟨hmap, forall_mem_singleton.2 hunmap⟩)
  exact ⟨errs, s', hrun, hkept 0x5000 (.inr rfl) (by simp)⟩

end Stanix
