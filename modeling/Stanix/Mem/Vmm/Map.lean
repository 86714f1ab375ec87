import Stanix.Mem.Vmm.Range

/-!
# Mapping

`vmm_space_map` puts a new segment in a space: at the address asked for, once the range is unmapped,
or in the first gap that is large enough. Both sums and the difference in the search wrap around;
`Fits` says when they do not, and then the new segment is not empty and meets no other
(`create_spec`). `map_spec` is the result for the whole call.
-/

namespace Stanix

open VmmSeg Exec List Function Finset

namespace Vmm

variable {σ Sp E : Type} {M : Mmu σ Sp E} {D : VmmDrivers σ Sp}
  {s s' s2 : Vmm σ Sp} {sp new address size a : Nat} {l r xs ys : List Nat} {ret : Except Errno Nat}
  {seg : VmmSeg} {fd : Option Nat} {prot flags : BitVec 64} {s₁ : Vmm σ Sp} {v offset rounds : Nat}

/-! ## Looking for an address -/

/-- No segment of a list meets the addresses from `a` up to `b`. -/
def Clear (seg : Nat → VmmSeg) (xs : List Nat) (a b : Nat) : Prop :=
  ∀ x ∈ xs, (seg x).stop ≤ a ∨ b ≤ (seg x).start
  deriving Decidable

/-- The sums and differences of addresses that place a segment do not wrap around: the end of the
segment is an address, and the search, which starts at `vmmMapBase`, has no segment below its start
or finds nothing at its start. -/
def Fits (s : Vmm σ Sp) (xs : List Nat) (address size : Nat) : Prop :=
  (address ≠ 0 → address + size < 2 ^ 64) ∧
  (address = 0 → vmmMapBase + size < 2 ^ 64 ∧ (∀ x ∈ xs, (s.seg x).stop + size < 2 ^ 64) ∧
    ((∀ x ∈ xs, vmmMapBase ≤ (s.seg x).start) ∨ Clear s.seg xs vmmMapBase (vmmMapBase + size)))
  deriving Decidable

/-- The search, at a segment that starts where the search is or later: the place it finds is the one
it has, or the end of a segment. -/
theorem firstFit_spec : ∀ {l r : List Nat} {a : Nat}, s.Holds sp (l ++ r) →
    (∀ x ∈ l ++ r, (s.seg x).stop < 2 ^ 64) → (∀ x ∈ l, (s.seg x).stop ≤ a) →
    (∀ x ∈ r, a ≤ (s.seg x).start) → vmmFirstFit s sp size rounds r.head? a = .ok address →
    Clear s.seg (l ++ r) address (address + size) ∧
      (address = a ∨ ∃ x ∈ r, address = (s.seg x).stop) := by
  induction rounds with
  | zero =>
    intro l r a _ _ _ _ hrun
    cases hrun
  | succ rounds ih => ?_
  intro l r a h hb hl hr hrun
  cases r with
  | nil =>
    cases hrun
    refine ⟨fun x hx => .inl (hl x ?_), .inl rfl⟩
    rwa [append_nil] at hx
  | cons v r => ?_
  have hne := h.nonempty v (by simp)
  have hvb := hb v (by simp)
  have hva := hr v mem_cons_self
  have hvr := (pairwise_cons.1 (pairwise_append.1 h.sorted).2.1).1
  rw [List.head?_cons, vmmFirstFit, wrapSub_of_le hva (hne.trans hvb)] at hrun
  split at hrun
  · next hge =>
    cases hrun
    refine ⟨fun x hx => ?_, .inl rfl⟩
    rcases mem_append.1 hx with hx | hx
    · exact .inl (hl x hx)
    grind
  obtain ⟨node, hnode, hrun⟩ := bind_eq_ok.1 hrun
  cases hnode.symm.trans (treeNext_spec h)
  rw [append_cons] at h hb
  have hl' : ∀ x ∈ l ++ [v], (s.seg x).stop ≤ (s.seg v).stop := by grind
  obtain ⟨hclear, hfound⟩ := ih h hb hl' hvr hrun
  rw [← append_cons] at hclear
  refine ⟨hclear, .inr ?_⟩
  rcases hfound with rfl | ⟨x, hx, rfl⟩
  · exact ⟨v, mem_cons_self, rfl⟩
  exact ⟨x, mem_cons_of_mem v hx, rfl⟩

/-- The search from its start. -/
theorem firstFit_start (h : s.Holds sp xs) (hb : ∀ x ∈ xs, (s.seg x).stop < 2 ^ 64)
    (hfit : s.Fits xs 0 size) (hrun : vmmFirstFit s sp size rounds xs.head? vmmMapBase = .ok a) :
    Clear s.seg xs a (a + size) ∧ (a = vmmMapBase ∨ ∃ x ∈ xs, a = (s.seg x).stop) := by
  obtain ⟨hbase, -, hlow⟩ := hfit.2 rfl
  rcases hlow with hlow | hclear
  · exact firstFit_spec (l := []) h hb nofun hlow hrun
  rcases rounds with _ | rounds
  · cases hrun
  rcases xs with _ | ⟨v, r⟩
  · cases hrun
    exact ⟨nofun, .inl rfl⟩
  by_cases hv : vmmMapBase ≤ (s.seg v).start
  · refine firstFit_spec (l := []) h hb nofun (fun x hx => ?_) hrun
    rcases mem_cons.1 hx with rfl | hx
    · exact hv
    have := (pairwise_cons.1 h.sorted).1 x hx
    have := h.nonempty v mem_cons_self
    omega
  -- the difference wraps around, and the start is taken
  have hwrap : wrapSub (s.seg v).start vmmMapBase ≥ size := by
    unfold wrapSub wrap
    omega
  rw [List.head?_cons, vmmFirstFit, if_pos hwrap] at hrun
  cases hrun
  exact ⟨hclear, .inl rfl⟩

/-- **The place of a new segment.** -/
theorem place_spec (h : s.Holds sp xs) (hb : ∀ x ∈ xs, (s.seg x).stop < 2 ^ 64)
    (hfit : s.Fits xs address size) (hrun : vmmSpacePlace M D s sp address size = .ok (ret, s')) :
    ∃ ys, SegRun sp s xs s' ys ∧ s'.Holds sp ys ∧ ∀ a, ret = .ok a →
      a + size < 2 ^ 64 ∧ Clear s'.seg ys a (a + size) ∧
      (address ≠ 0 → a = address ∧ a % pageSize = 0) ∧
      (address = 0 → a = vmmMapBase ∨ ∃ x ∈ xs, a = (s.seg x).stop) := by
  unfold vmmSpacePlace at hrun
  split at hrun
  · next hne =>
    have hfit := hfit.1 hne
    obtain ⟨⟨ret1, s₁⟩, hunmap, hrun⟩ := bind_eq_ok.1 hrun
    obtain ⟨haligned, ys, hys, hold, hclear⟩ := unmapRange_spec h hunmap
    rcases ret1 with _ | err
    · cases hrun
      refine ⟨ys, hys, hold, fun a ha => ?_⟩
      cases ha
      rw [wrap_of_lt hfit] at hclear
      exact ⟨hfit, (hclear rfl).1, fun _ => ⟨rfl, haligned⟩, fun h0 => absurd h0 hne⟩
    cases hrun
    exact ⟨ys, hys, hold, nofun⟩
  next hz =>
  obtain rfl : address = 0 := not_not.1 hz
  obtain ⟨node, hnode, hrun⟩ := bind_eq_ok.1 hrun
  cases hnode.symm.trans (treeFirst_spec h)
  obtain ⟨a, hfirst, hrun⟩ := bind_eq_ok.1 hrun
  obtain ⟨hclear, hfound⟩ := firstFit_start h hb hfit hfirst
  split at hrun
  · cases hrun
    exact ⟨xs, .refl .., h, nofun⟩
  cases hrun
  refine ⟨xs, .refl .., h, fun a' ha => ?_⟩
  cases ha
  obtain ⟨hbase, hstop, -⟩ := hfit.2 rfl
  refine ⟨?_, hclear, fun h0 => absurd rfl h0, fun _ => hfound⟩
  rcases hfound with rfl | ⟨x, hx, rfl⟩
  · exact hbase
  exact hstop x hx

/-! ## A segment at its place -/

theorem Clear.split {seg : Nat → VmmSeg} {b : Nat} (h : Sorted seg xs) (hclear : Clear seg xs a b) :
    ∃ l r, xs = l ++ r ∧ (∀ x ∈ l, (seg x).stop ≤ a) ∧ ∀ x ∈ r, b ≤ (seg x).start := by
  induction xs with
  | nil => exact ⟨[], [], rfl, nofun, nofun⟩
  | cons v xs ih => ?_
  rcases hclear v mem_cons_self with hv | hv
  · obtain ⟨l, r, rfl, hl, hr⟩ := ih (h.sublist (sublist_cons_self v xs))
      fun x hx => hclear x (mem_cons_of_mem v hx)
    refine ⟨v :: l, r, rfl, fun x hx => ?_, hr⟩
    rcases mem_cons.1 hx with rfl | hx
    · exact hv
    exact hl x hx
  refine ⟨[], v :: xs, rfl, nofun, fun x hx => ?_⟩
  rcases mem_cons.1 hx with rfl | hx
  · exact hv
  have := (pairwise_cons.1 h.sorted).1 x hx
  have := h.nonempty v mem_cons_self
  omega

/-- A segment was put in a space; nothing else changed but links and the new segment's mutex. -/
structure Inserted (s s' : Vmm σ Sp) (sp new : Nat) (l r : List Nat) (seg : VmmSeg) : Prop where
  holds : s'.Holds sp (l ++ new :: r)
  core : ∀ x, x ≠ new → (s'.seg x).core = (s.seg x).core
  other : ∀ x, x ∉ l ++ new :: r → s'.seg x = s.seg x
  new : (s'.seg new).core = seg.core
  live : s'.live = s.live
  mem : s'.mem = s.mem
  space : ∀ sp', sp' ≠ sp → s'.space sp' = s.space sp'
  addrspace : (s'.space sp).addrspace = (s.space sp).addrspace

section

variable (h : s.Holds sp (l ++ r)) (hnew : new ∈ s.live) (hleft : seg.node.left = none)
  (hright : seg.node.right = none) (hl : ∀ x ∈ l, (s.seg x).stop ≤ seg.start)
  (hr : ∀ x ∈ r, seg.stop ≤ (s.seg x).start) (hne : seg.start < seg.stop) (hfresh : new ∉ l ++ r)
include h hnew hleft hright hl hr hne hfresh

/-- A segment that has been set up outside of a space can be put in. -/
theorem exists_inserted :
    ∃ s', vmmTreeInsert (s.setSeg new seg) sp new = .ok s' ∧ s'.slab = s.slab ∧
      Inserted s s' sp new l r seg := by
  have hxn (x : Nat) (hx : x ∈ l ++ r) : x ≠ new := ne_of_mem_of_not_mem hx hfresh
  have hsame (x : Nat) (hx : x ≠ new) : (s.setSeg new seg).seg x = s.seg x := setSeg_of_ne _ _ _ hx
  have hself : (s.setSeg new seg).seg new = seg := setSeg_self ..
  have hwalks : ((s.setSeg new seg).tree sp).Walks (l ++ r) := by
    refine h.walks.congr rfl fun x hx => ?_
    show ((s.setSeg new seg).seg x).node = _
    rw [hsame x (hxn x hx)]
    rfl
  have hsorted : Sorted (s.setSeg new seg).seg (l ++ new :: r) := by
    refine h.toSorted.insert (fun x hx => ?_) ?_ ?_ ?_
    · rw [hsame x (hxn x hx)]
      exact ⟨rfl, rfl⟩
    · rw [hself]; exact hl
    · rw [hself]; exact hr
    rw [hself]; exact hne
  have hlive : ∀ x ∈ l ++ new :: r, x ∈ (s.setSeg new seg).live := by
    intro x hx
    rcases mem_cons.1 (perm_middle.subset hx) with rfl | hx
    · exact hnew
    exact h.live x hx
  obtain ⟨t, hins, hholds, hframe⟩ := treeInsert_spec hwalks hsorted hlive (by rw [hself, hleft])
    (by rw [hself, hright])
  refine ⟨_, hins, rfl, hholds, fun x hx => ?_, fun x hx => ?_, ?_, rfl, rfl, fun sp' hsp => ?_, ?_⟩
  · rw [setTree_seg, hsame x hx]
    rfl
  · have hx' : x ≠ new := fun hx' => hx (hx' ▸ by simp)
    rw [setTree_seg, hframe x hx, hsame x hx']
  · rw [setTree_seg, hself]
    rfl
  · exact update_of_ne hsp ..
  show (update s.space sp _ sp).addrspace = _
  rw [update_self]
  rfl

theorem inserted_of_insert (hrun : vmmTreeInsert (s.setSeg new seg) sp new = .ok s') :
    Inserted s s' sp new l r seg := by
  obtain ⟨s₁, hins, -, hinserted⟩ := exists_inserted h hnew hleft hright hl hr hne hfresh
  cases hrun.symm.trans hins
  exact hinserted

end

/-- A new segment as `vmm_space_raw_create_seg` sets it up. -/
def placedSeg (sp address size : Nat) (prot flags : BitVec 64) : VmmSeg :=
  { zero with
    space := sp, start := address, stop := address + size, prot := prot, flags := flags }

theorem Holds.alloc (h : s.Holds sp xs) (halloc : s.slabAlloc = (some new, s₁)) :
    s₁.Holds sp xs ∧ new ∉ xs ∧ new ∉ s.live ∧ s₁.live = insert new s.live ∧ s₁.seg new = .zero ∧
      (∀ x, x ≠ new → s₁.seg x = s.seg x) ∧ s₁.space = s.space ∧ s₁.mem = s.mem := by
  rcases slabAlloc_cases halloc with ⟨hnone, -⟩ | ⟨new, slab, hnew, hfresh, rfl⟩
  · cases hnone
  cases hnew
  have hxn (x : Nat) (hx : x ∈ xs) : x ≠ new := ne_of_mem_of_not_mem (h.live x hx) hfresh
  refine ⟨h.congr rfl (fun x hx => ?_) (fun x hx => mem_insert_of_mem (h.live x hx)),
    fun hx => hxn new hx rfl, hfresh, rfl, update_self .., fun x hx => ?_, rfl, rfl⟩
  · grind
  exact update_of_ne hx ..

theorem Changes.spare (h : Changes s s' sp xs ys) (hnew : new ∈ s.live) (hx : new ∉ xs) :
    s'.seg new = s.seg new ∧ new ∈ s'.live ∧ new ∉ ys :=
  ⟨(h.seg new hnew hx).1, (h.seg new hnew hx).2,
    fun hy => (h.fresh new hy).elim hx fun hnl => hnl hnew⟩

/-- **`vmm_space_raw_create_seg`**: it fails, after it has unmapped part of the range or nothing, or a
new segment is in the space. -/
theorem create_spec (h : s.Holds sp xs) (hb : ∀ x ∈ xs, (s.seg x).stop < 2 ^ 64) (hsize : 0 < size)
    (hfit : s.Fits xs address size)
    (hrun : vmmSpaceRawCreateSeg M D s sp address size prot flags = .ok (ret, s')) :
    (∃ err slab, ret = .error err ∧ s' = { s with slab := slab }) ∨
    (∃ err new s₁ s2 ys, ret = .error err ∧ s.slabAlloc = (some new, s₁) ∧
      SegRun sp s₁ xs s2 ys ∧ s' = s2.slabFree new) ∨
    ∃ new s₁ s2 l r a, ret = .ok new ∧ s.slabAlloc = (some new, s₁) ∧
      SegRun sp s₁ xs s2 (l ++ r) ∧ Clear s2.seg (l ++ r) a (a + size) ∧ a + size < 2 ^ 64 ∧
      (address ≠ 0 → a = address ∧ a % pageSize = 0) ∧
      (address = 0 → a = vmmMapBase ∨ ∃ x ∈ xs, a = (s.seg x).stop) ∧
      Inserted s2 s' sp new l r (placedSeg sp a size prot flags) := by
  unfold vmmSpaceRawCreateSeg at hrun
  split at hrun
  · next s₁ halloc =>
    cases hrun
    rcases slabAlloc_cases halloc with ⟨-, slab, rfl⟩ | ⟨_, _, hnone, -⟩
    · exact .inl ⟨_, slab, rfl, rfl⟩
    cases hnone
  next new s₁ halloc =>
  obtain ⟨h1, hnx, -, hlive1, hzero, hsame, -, -⟩ := h.alloc halloc
  have hnew1 : new ∈ s₁.live := hlive1 ▸ mem_insert_self new s.live
  have hseg1 (x : Nat) (hx : x ∈ xs) : s₁.seg x = s.seg x := hsame x (ne_of_mem_of_not_mem hx hnx)
  have hb1 : ∀ x ∈ xs, (s₁.seg x).stop < 2 ^ 64 := fun x hx => by rw [hseg1 x hx]; exact hb x hx
  have hfit1 : s₁.Fits xs address size := by
    refine ⟨hfit.1, fun h0 => ?_⟩
    obtain ⟨hbase, hstop, hlow⟩ := hfit.2 h0
    refine ⟨hbase, fun x hx => by rw [hseg1 x hx]; exact hstop x hx, ?_⟩
    refine hlow.imp (fun hl x hx => ?_) fun hc x hx => ?_
    · rw [hseg1 x hx]
      exact hl x hx
    rw [hseg1 x hx]
    exact hc x hx
  obtain ⟨⟨ret2, s2⟩, hplace, hrun⟩ := bind_eq_ok.1 hrun
  obtain ⟨ys, hys, h2, hok⟩ := place_spec h1 hb1 hfit1 hplace
  rcases ret2 with err | a
  · cases hrun
    exact .inr (.inl ⟨err, new, s₁, s2, ys, rfl, halloc, hys, rfl⟩)
  obtain ⟨hend, hclear, hfixed, hfound⟩ := hok a rfl
  obtain ⟨hseg2, hnew2, hny⟩ := (hys.changes h1).spare hnew1 hnx
  obtain ⟨l, r, rfl, hl, hr⟩ := hclear.split h2.toSorted
  obtain ⟨s3, hins, hrun⟩ := bind_eq_ok.1 hrun
  cases hrun
  have hstate : acquire (s2.setSeg new { s2.seg new with
      space := sp, start := a, stop := wrap (a + size), prot := prot, flags := flags }) new =
      s2.setSeg new { placedSeg sp a size prot flags with lock := 1 } := by
    rw [wrap_of_lt hend, hseg2, hzero]
    simp only [acquire, setSeg, update_self, update_idem]
    rfl
  rw [hstate] at hins
  have hinserted := inserted_of_insert h2 hnew2 rfl rfl hl hr (Nat.lt_add_of_pos_right hsize) hny hins
  refine .inr (.inr ⟨new, s₁, s2, l, r, a, rfl, halloc, hys, hclear, hend, hfixed, fun h0 => ?_,
    { hinserted with new := hinserted.new }⟩)
  rcases hfound h0 with ha | ⟨x, hx, ha⟩
  · exact .inl ha
  rw [hseg1 x hx] at ha
  exact .inr ⟨x, hx, ha⟩

/-! ## The whole call -/

/-- What `vmm_space_map` has done to a space. -/
inductive MapCase (sp address size : Nat) (prot flags : BitVec 64) (fd : Option Nat) (offset : Nat)
    (s : Vmm σ Sp) (xs : List Nat) (s' : Vmm σ Sp) : Except Errno Nat → List Nat → Prop
  /-- Nothing: the file does not permit it, or there is no memory for a segment. -/
  | refused {err : Errno} (slab : List (Option Nat)) (hs : s' = { s with slab := slab }) :
      MapCase sp address size prot flags fd offset s xs s' (.error err) xs
  /-- The range could not be unmapped. -/
  | unplaced {err : Errno} {new : Nat} {s₁ s₂ : Vmm σ Sp} {ys : List Nat}
      (halloc : s.slabAlloc = (some new, s₁)) (hrun : SegRun sp s₁ xs s₂ ys)
      (hs : s' = s₂.slabFree new) :
      MapCase sp address size prot flags fd offset s xs s' (.error err) ys
  /-- The new segment could not be filled, and was taken out again. -/
  | unfilled {err : Errno} {new a : Nat} {s₁ s₂ s₃ : Vmm σ Sp} {l r : List Nat}
      (halloc : s.slabAlloc = (some new, s₁)) (hrun : SegRun sp s₁ xs s₂ (l ++ r))
      (hins : Inserted s₂ s₃ sp new l r (placedSeg sp a size prot flags))
      (holds : s'.Holds sp (l ++ r)) (core : ∀ x, x ≠ new → (s'.seg x).core = (s₃.seg x).core)
      (other : ∀ x, x ∉ l ++ new :: r → s'.seg x = s₃.seg x) (live : s'.live = s₃.live.erase new)
      (space : ∀ sp', sp' ≠ sp → s'.space sp' = s₃.space sp')
      (addrspace : (s'.space sp).addrspace = (s₃.space sp).addrspace) :
      MapCase sp address size prot flags fd offset s xs s' (.error err) (l ++ r)
  /-- The new segment is in the space. -/
  | filled {new a : Nat} {s₁ s₂ s₃ : Vmm σ Sp} {l r : List Nat} (mseg : MmapSeg)
      (halloc : s.slabAlloc = (some new, s₁)) (hrun : SegRun sp s₁ xs s₂ (l ++ r))
      (hclear : Clear s₂.seg (l ++ r) a (a + size)) (hend : a + size < 2 ^ 64)
      (hfixed : address ≠ 0 → a = address ∧ a % pageSize = 0)
      (hfound : address = 0 → a = vmmMapBase ∨ ∃ x ∈ xs, a = (s.seg x).stop)
      (hins : Inserted s₂ s₃ sp new l r (placedSeg sp a size prot flags))
      (holds : s'.Holds sp (l ++ new :: r)) (core : ∀ x, x ≠ new → s'.seg x = s₃.seg x)
      (hnew : (s'.seg new).core = { (placedSeg sp a size prot flags).core with
        prot := mseg.prot, flags := mseg.flags, ops := mseg.ops, privateData := mseg.privateData
        fd := fd, offset := if fd.isSome then offset else 0 })
      (live : s'.live = s₃.live) (space : ∀ sp', sp' ≠ sp → s'.space sp' = s₃.space sp')
      (addrspace : (s'.space sp).addrspace = (s₃.space sp).addrspace) :
      MapCase sp address size prot flags fd offset s xs s' (.ok new) (l ++ new :: r)

theorem addSizes_root (space : VmmSpace Sp) (seg : VmmSeg) (file : Bool) (flags : BitVec 64) :
    (space.addSizes seg file flags).root = space.root ∧
      (space.addSizes seg file flags).addrspace = space.addrspace := by
  unfold VmmSpace.addSizes
  split <;> split <;> exact ⟨rfl, rfl⟩

theorem Holds.setSeg (h : s.Holds sp xs) (mem : σ) (hnode : seg.node = (s.seg v).node)
    (hstart : seg.start = (s.seg v).start) (hstop : seg.stop = (s.seg v).stop) :
    ({ s with mem := mem }.setSeg v seg).Holds sp xs := by
  refine h.congr rfl (fun x _ => ?_) h.live
  rw [setSeg_seg]
  split
  · next hxv => rw [hxv]; exact ⟨hnode, hstart, hstop⟩
  exact ⟨rfl, rfl, rfl⟩

/-- A segment that is taken out of the tree of a space and freed. -/
theorem unlink_spec (h : s.Holds sp (l ++ v :: r)) (hrun : vmmTreeRemove s sp v = .ok s') :
    ((s'.release v).slabFree v).Holds sp (l ++ r) ∧ s'.live = s.live ∧
      (∀ x, x ≠ v → (((s'.release v).slabFree v).seg x).core = (s.seg x).core) ∧
      (∀ x, x ∉ l ++ v :: r → ((s'.release v).slabFree v).seg x = s.seg x) ∧
      (∀ sp', sp' ≠ sp → s'.space sp' = s.space sp') ∧
      (s'.space sp).addrspace = (s.space sp).addrspace := by
  have hv : v ∈ l ++ v :: r := by simp
  have hnd := nodup_middle.1 h.walks.nodup
  have hvl : v ∉ l := fun hvl => hnd.notMem (mem_append_left r hvl)
  obtain ⟨t, hrem, hholds, hframe⟩ := treeRemove_spec h hv
  cases hrun.symm.trans hrem
  rw [erase_append_right _ hvl, erase_cons_head] at hholds
  have hseg (x : Nat) (hx : x ≠ v) :
      (((s.setTree sp t).release v).slabFree v).seg x = { s.seg x with node := t.node x } := by
    show update ((s.setTree sp t).release v).seg v _ x = _
    rw [update_of_ne hx, release_seg, if_neg hx]
    rfl
  refine ⟨hholds.congr rfl (fun x hx => ?_) fun x hx => ?_, rfl, fun x hx => ?_, fun x hx => ?_,
    fun sp' hsp => update_of_ne hsp .., ?_⟩
  · rw [hseg x (ne_of_mem_of_not_mem hx hnd.notMem)]
    exact ⟨rfl, rfl, rfl⟩
  · exact mem_erase.2 ⟨ne_of_mem_of_not_mem hx hnd.notMem, hholds.live x hx⟩
  · rw [hseg x hx]
    rfl
  · rw [hseg x fun hxv => hx (hxv ▸ hv), hframe x hx]
  show (update s.space sp _ sp).addrspace = _
  rw [update_self]

theorem fileSeg_spec
    (hs : s' = if fd.isSome then (s.vfsDup fd).setSeg v { s.seg v with fd := fd, offset := offset } else s)
    (hfd : (s.seg v).fd = none) (hoffset : (s.seg v).offset = 0) :
    s'.seg = update s.seg v { s.seg v with
      fd := fd, offset := if fd.isSome then offset else 0 } ∧
    s'.live = s.live ∧ s'.space = s.space := by
  rw [hs]
  cases fd with
  | none =>
    refine ⟨?_, rfl, rfl⟩
    refine (update_eq_self v s.seg).symm.trans (congrArg _ ?_)
    show s.seg v = { s.seg v with fd := none, offset := 0 }
    rw [← hfd, ← hoffset]
  | some fd => exact ⟨rfl, rfl, rfl⟩

/-- **`vmm_space_map`**, for a size that is not zero once it is rounded up and fits. -/
theorem map_spec (h : s.Holds sp xs) (hb : ∀ x ∈ xs, (s.seg x).stop < 2 ^ 64)
    (hsize : 0 < pageAlignUp size) (hfit : s.Fits xs address (pageAlignUp size))
    (hrun : vmmSpaceMap M D s sp address size prot flags fd offset = .ok (ret, s')) :
    ∃ ys, MapCase sp address (pageAlignUp size) prot flags
      (if HasFlag flags vmmFlagAnonymous then none else fd) offset s xs s' ret ys := by
  obtain ⟨perm, _, hrun⟩ := bind_eq_ok.1 hrun
  split at hrun
  · cases hrun
    exact ⟨xs, .refused _ rfl⟩
  obtain ⟨⟨ret1, s3⟩, hcreate, hrun⟩ := bind_eq_ok.1 hrun
  rcases create_spec h hb hsize hfit hcreate with ⟨err, slab, rfl, rfl⟩ |
    ⟨err, new, s₁, s2, ys, rfl, halloc, hys, rfl⟩ |
    ⟨new, s₁, s2, l, r, a, rfl, halloc, hys, hclear, hend, hfixed, hfound, hins⟩
  · cases hrun
    exact ⟨xs, .refused slab rfl⟩
  · cases hrun
    exact ⟨ys, .unplaced halloc hys rfl⟩
  set fd' := if HasFlag flags vmmFlagAnonymous then none else fd with hfd'
  obtain ⟨⟨ret2, mseg, mem⟩, -, hend'⟩ := bind_eq_ok.1 hrun
  set seg4 : VmmSeg := { s3.seg new with
    prot := mseg.prot, flags := mseg.flags, ops := mseg.ops, privateData := mseg.privateData }
    with hseg4
  set s4 : Vmm σ Sp := { s3 with mem := mem }.setSeg new seg4 with hs4
  have h4 : s4.Holds sp (l ++ new :: r) := hins.holds.setSeg mem rfl rfl rfl
  have hsame (x : Nat) (hx : x ≠ new) : s4.seg x = s3.seg x :=
    setSeg_of_ne { s3 with mem := mem } seg4 x hx
  have hself : s4.seg new = seg4 := setSeg_self ..
  rcases ret2 with _ | err
  · simp only [pure_eq, Except.ok.injEq, Prod.mk.injEq] at hend'
    obtain ⟨rfl, hs'⟩ := hend'
    obtain ⟨s5, hs5⟩ : ∃ s5, s5 = if fd'.isSome then
      (s4.vfsDup fd').setSeg new { s4.seg new with fd := fd', offset := offset } else s4 := ⟨_, rfl⟩
    rw [← hs5] at hs'
    have hfd : (s4.seg new).fd = none := by
      rw [hself]
      exact congrArg VmmSeg.fd hins.new
    have hoffset : (s4.seg new).offset = 0 := by
      rw [hself]
      exact congrArg VmmSeg.offset hins.new
    obtain ⟨hseg5, hlive5, hspace5⟩ := fileSeg_spec hs5 hfd hoffset
    replace hspace5 : s5.space = s3.space := hspace5
    obtain ⟨hroot, haddr⟩ := addSizes_root (s5.space sp) (s5.seg new) fd'.isSome flags
    have hspace' : s'.space = update s3.space sp ((s5.space sp).addSizes (s5.seg new)
        fd'.isSome flags) := by
      rw [← hs', ← hspace5]
      rfl
    have hseg' (x : Nat) (hx : x ≠ new) : s'.seg x = s3.seg x := by
      rw [← hs', release_seg, if_neg hx]
      show s5.seg x = _
      rw [hseg5, update_of_ne hx, hsame x hx]
    have hnew' : s'.seg new = { seg4 with
        lock := seg4.lock - 1, fd := fd', offset := if fd'.isSome then offset else 0 } := by
      rw [← hs', release_seg, if_pos rfl]
      show { s5.seg new with lock := (s5.seg new).lock - 1 } = _
      rw [hseg5, update_self, hself]
    have hlive' : s'.live = s3.live := by
      rw [← hs']
      exact hlive5
    refine ⟨l ++ new :: r, .filled mseg halloc hys hclear hend hfixed hfound hins ?_ hseg' ?_
      hlive' (fun sp' hsp => ?_) ?_⟩
    · refine hins.holds.congr ?_ (fun x hx => ?_) fun x hx => ?_
      · rw [hspace', update_self, hroot, hspace5]
      · grind
      rw [hlive']
      exact hins.holds.live x hx
    · rw [hnew', ← hins.new]
      rfl
    · rw [hspace', update_of_ne hsp]
    rw [hspace', update_self, haddr, hspace5]
  obtain ⟨s5, hrem, hend'⟩ := bind_eq_ok.1 hend'
  cases hend'
  obtain ⟨hholds, hlive, hcore, hother, hspace, haddr⟩ := unlink_spec h4 hrem
  refine ⟨l ++ r, .unfilled halloc hys hins hholds (fun x hx => ?_) (fun x hx => ?_) ?_ hspace haddr⟩
  · rw [hcore x hx, hsame x hx]
  · rw [hother x hx, hsame x fun hxn => hx (hxn ▸ by simp)]
  show s5.live.erase new = _
  rw [hlive]
  rfl

/-! ## The list after the call -/

/-- A call takes a space from one list of segments to another. -/
structure Moves (s s' : Vmm σ Sp) (sp : Nat) (xs ys : List Nat) : Prop extends Frame s s' sp xs where
  holds : s'.Holds sp ys
  fresh : ∀ v ∈ ys, v ∈ xs ∨ v ∉ s.live
  paged : Paged s'.seg ys

theorem SegRun.moves (h : SegRun sp s xs s' ys) (hold : s.Holds sp xs) (hp : Paged s.seg xs) :
    Moves s s' sp xs ys :=
  { h.changes hold with paged := h.paged hp }

theorem Frame.slabFree (h : Frame s s' sp xs) (hnew : new ∉ s.live) :
    Frame s (s'.slabFree new) sp xs := by
  refine ⟨fun v hv hx => ?_, h.space, h.addrspace⟩
  have hvn : v ≠ new := ne_of_mem_of_not_mem hv hnew
  obtain ⟨hseg, hlive⟩ := h.seg v hv hx
  exact ⟨(update_of_ne hvn ..).trans hseg, mem_erase.2 ⟨hvn, hlive⟩⟩

theorem Frame.of_alloc (hold : s.Holds sp xs) (halloc : s.slabAlloc = (some new, s₁))
    (h : Frame s₁ s' sp xs) : Frame s s' sp xs := by
  obtain ⟨-, -, hfresh, hlive, -, hsame, hspace, -⟩ := hold.alloc halloc
  refine ⟨fun v hv hx => ?_, fun sp' hsp => ?_, ?_⟩
  · obtain ⟨h1, h2⟩ := h.seg v (hlive ▸ mem_insert_of_mem hv) hx
    exact ⟨h1.trans (hsame v (ne_of_mem_of_not_mem hv hfresh)), h2⟩
  · rw [h.space sp' hsp, hspace]
  rw [h.addrspace, hspace]

theorem Inserted.frame (h : Inserted s s' sp new l r seg) : Frame s s' sp (l ++ new :: r) :=
  ⟨fun v hv hx => ⟨h.other v hx, h.live ▸ hv⟩, h.space, h.addrspace⟩

theorem Inserted.bounds (h : Inserted s s' sp new l r seg) {x : Nat} (hx : x ≠ new) :
    (s'.seg x).start = (s.seg x).start ∧ (s'.seg x).stop = (s.seg x).stop :=
  ⟨core_start (h.core x hx), core_stop (h.core x hx)⟩

theorem pageAlignUp_mod (n : Nat) : pageAlignUp n % pageSize = 0 := Nat.mul_mod_left ..

variable (h : s.Holds sp xs)

include h

variable (hp : Paged s.seg xs)

include hp

theorem cleared_spec (halloc : s.slabAlloc = (some new, s₁)) (hrun : SegRun sp s₁ xs s2 ys) :
    Frame s s2 sp xs ∧ (∀ v ∈ ys, v ∈ xs ∨ v ∉ s.live) ∧ s2.Holds sp ys ∧ Paged s2.seg ys ∧
      new ∉ s.live ∧ new ∉ ys := by
  obtain ⟨h1, hnx, hfresh, hlive, -, hsame, -, -⟩ := h.alloc halloc
  have hp1 : Paged s₁.seg xs := hp.congr (fun _ hx => hx) fun x hx => by
    rw [hsame x (ne_of_mem_of_not_mem hx hnx)]; exact ⟨rfl, rfl⟩
  have hm := hrun.moves h1 hp1
  exact ⟨.of_alloc h halloc hm.toFrame, fun v hv => (hm.fresh v hv).imp_right fun hnl hl =>
    hnl (hlive ▸ mem_insert_of_mem hl), hm.holds, hm.paged, hfresh,
    ((hrun.changes h1).spare (hlive ▸ mem_insert_self new s.live) hnx).2.2⟩

theorem created_spec (halloc : s.slabAlloc = (some new, s₁))
    (hrun : SegRun sp s₁ xs s2 (l ++ r)) (hins : Inserted s2 s' sp new l r seg) :
    Frame s s' sp xs ∧ (∀ v ∈ l ++ new :: r, v ∈ xs ∨ v ∉ s.live) ∧ Paged s2.seg (l ++ r) ∧
      new ∉ s.live ∧ new ∉ l ++ r := by
  obtain ⟨hframe, hfr, -, hpaged, hfresh, hny⟩ := cleared_spec h hp halloc hrun
  have hfr : ∀ v ∈ l ++ new :: r, v ∈ xs ∨ v ∉ s.live := by grind
  exact ⟨hframe.trans hins.frame hfr, hfr, hpaged, hfresh, hny⟩

/-- **A mapping moves the space.** -/
theorem MapCase.moves (hsize : size % pageSize = 0)
    (hcase : MapCase sp address size prot flags fd offset s xs s' ret ys) :
    Moves s s' sp xs ys := by
  cases hcase with
  | refused slab hs =>
    subst hs
    have hch : Changes s { s with slab := slab } sp xs xs :=
      .of_core h rfl (fun _ _ => ⟨rfl, rfl, rfl, rfl⟩) (fun _ _ _ => rfl) fun _ hv => hv
    exact { hch with paged := hp }
  | @unplaced _ new s₁ s2 ys halloc hrun hs =>
    obtain ⟨hframe, hfr, holds, hpaged, hfresh, hny⟩ := cleared_spec h hp halloc hrun
    have hyn (x : Nat) (hx : x ∈ ys) : x ≠ new := ne_of_mem_of_not_mem hx hny
    have hseg (x : Nat) (hx : x ∈ ys) : (s2.slabFree new).seg x = s2.seg x :=
      update_of_ne (hyn x hx) ..
    subst hs
    refine ⟨hframe.slabFree hfresh, ?_, hfr, ?_⟩
    · refine holds.congr rfl (fun x hx => by rw [hseg x hx]; exact ⟨rfl, rfl, rfl⟩) fun x hx => ?_
      exact mem_erase.2 ⟨hyn x hx, holds.live x hx⟩
    exact hpaged.congr (fun _ hx => hx) fun x hx => by rw [hseg x hx]; exact ⟨rfl, rfl⟩
  | @unfilled _ new a s₁ s2 s3 l r halloc hrun hins holds core other live space addrspace =>
    obtain ⟨hframe, hfr, hpaged, hfresh, hny⟩ := created_spec h hp halloc hrun hins
    refine ⟨⟨fun v hv hx => ?_, fun sp' hsp => ?_, ?_⟩, holds, fun v hv => ?_, ?_⟩
    · have hvn : v ∉ l ++ new :: r := fun hvn => (hfr v hvn).elim hx fun hnl => hnl hv
      obtain ⟨hseg, hl⟩ := hframe.seg v hv hx
      rw [other v hvn, live, mem_erase]
      exact ⟨hseg, ne_of_mem_of_not_mem hv hfresh, hl⟩
    · rw [space sp' hsp, hframe.space sp' hsp]
    · rw [addrspace, hframe.addrspace]
    · exact hfr v (perm_middle.symm.subset (mem_cons_of_mem new hv))
    refine hpaged.congr (fun _ hx => hx) fun x hx => ?_
    have hxn : x ≠ new := ne_of_mem_of_not_mem hx hny
    rw [core_start (core x hxn), core_stop (core x hxn)]
    exact hins.bounds hxn
  | @filled new a s₁ s2 s3 l r mseg halloc hrun hclear hend hfixed hfound hins holds core hnew live
      space addrspace =>
    obtain ⟨hframe, hfr, hpaged, hfresh, hny⟩ := created_spec h hp halloc hrun hins
    have hstart : (s'.seg new).start = a := congrArg start hnew
    have hstop : (s'.seg new).stop = a + size := congrArg stop hnew
    have ha : a % pageSize = 0 := by
      by_cases h0 : address = 0
      · rcases hfound h0 with rfl | ⟨x, hx, rfl⟩
        · rfl
        exact hp.stop x hx
      exact (hfixed h0).2
    have hcases (x : Nat) (hx : x ∈ l ++ new :: r) : x = new ∨ (x ∈ l ++ r ∧
        (s'.seg x).start = (s2.seg x).start ∧ (s'.seg x).stop = (s2.seg x).stop) := by
      rcases mem_cons.1 (perm_middle.subset hx) with hx | hx
      · exact .inl hx
      have hxn : x ≠ new := ne_of_mem_of_not_mem hx hny
      rw [core x hxn]
      exact .inr ⟨hx, hins.bounds hxn⟩
    refine ⟨⟨fun v hv hx => ?_, fun sp' hsp => ?_, ?_⟩, holds, hfr, ?_⟩
    · rw [core v (ne_of_mem_of_not_mem hv hfresh), live]
      exact hframe.seg v hv hx
    · rw [space sp' hsp, hframe.space sp' hsp]
    · rw [addrspace, hframe.addrspace]
    refine paged_iff.2 fun x hx => ?_
    rcases hcases x hx with rfl | ⟨hm, h1, h2⟩
    · rw [hstart, hstop, Nat.add_mod, ha, hsize]
      exact ⟨rfl, rfl, hend⟩
    rw [h1, h2]
    exact paged_iff.1 hpaged x hm

end Vmm

end Stanix
