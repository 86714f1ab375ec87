import Stanix.Mem.Vmm.Fork
import Stanix.Arch.PageMap
import Mathlib.Algebra.Order.Interval.Finset.SuccPred
import Mathlib.Data.Nat.SuccPred
import Mathlib.Order.Interval.Finset.Nat

/-!
# Cloning page tables that are maps

The loop of `vmm_clone_seg` over page tables that are maps goes through the pages of the segment in
order (`cloneLoop_rule`), and makes an entry of the child for each page that is present. So a clone
asks for tables as often as the parent has pages in its segments (`tablesFor`), and when so many
answers are favourable it does not fail for want of a table (`cloneRun_ready`).
-/

namespace Stanix

open VmmSeg Exec Finset Except

namespace MapMem

variable {m m' : MapMem} {parent child a b k : Nat} {seg : VmmSeg} {prot : BitVec 64}

/-! ## The loop -/

/-- An entry of the child is made for a page, which has a reference more. -/
def Copied (seg : VmmSeg) (prot : BitVec 64) (parent child v : Nat) (m m' : MapMem) : Prop :=
  ∃ m₁ tables, vmmCloneRetain pageMap seg (entryAddress (m.entry parent v)) m = .ok m₁ ∧
    m₁.tables = true :: tables ∧
    m' = ({ m₁ with tables := tables } : MapMem).store (child, v)
      (mapValue (entryAddress (m.entry parent v)) prot)

/-- The loop has come to a page, and there is no memory for a table. -/
def Stuck (seg : VmmSeg) (parent v : Nat) (m : MapMem) : Prop :=
  Present (m.entry parent v) ∧
    ∃ m₁, vmmCloneRetain pageMap seg (entryAddress (m.entry parent v)) m = .ok m₁ ∧
      ∀ tables, m₁.tables ≠ true :: tables

/-- **The loop of `vmm_clone_seg`.** An invariant that goes from a page to the next holds at the end, or
the loop is stuck at a page. -/
theorem cloneLoop_rule (I : Nat → MapMem → Prop) (hstop : seg.stop = b * pageSize)
    (hb : b * pageSize < 2 ^ 64)
    (hskip : ∀ v m, I v m → v < b → ¬ Present (m.entry parent v) → I (v + 1) m)
    (hcopy : ∀ v m m', I v m → v < b → Present (m.entry parent v) →
      Copied seg prot parent child v m m' → I (v + 1) m') :
    ∀ {rounds a : Nat} {entry : Option (Nat × Nat)} {old : Nat} {m m' : MapMem}
      {ret : Except Errno (Option (Nat × Nat))}, a ≤ b → I a m →
      vmmCloneLoop pageMap parent child seg prot rounds (a * pageSize) entry old m = .ok (ret, m') →
      (∃ entry, ret = .ok entry ∧ I b m') ∨
        ∃ err v m0, ret = .error err ∧ v < b ∧ I v m0 ∧ Stuck seg parent v m0 := by
  intro rounds
  induction rounds with
  | zero =>
    intro a entry old m m' ret _ _ hrun
    cases hrun
  | succ rounds ih => ?_
  intro a entry old m m' ret hab hI hrun
  rw [vmmCloneLoop, getNextEntry_page] at hrun
  rcases hnext : m.next parent a with _ | u
  · rw [hnext] at hrun
    cases hrun
    exact .inl ⟨entry, rfl, skip_to (fun w hw hlt hp => hskip w m hw hlt hp)
      (fun w hw _ => next_eq_none hnext w hw) hab hI⟩
  rw [hnext, Option.map_some] at hrun
  obtain ⟨hau, hpu, hnot⟩ := next_eq_some hnext
  dsimp only at hrun
  split at hrun
  · next hlt =>
    rw [hstop] at hlt
    have hub : u < b := lt_of_mul_lt_mul_right hlt (Nat.zero_le pageSize)
    have hIu : I u m := skip_to
      (fun w hw hlt hp => hskip w m hw (hlt.trans hub) hp) hnot hau hI
    rw [show mmuEntryValGetPage (pageMap.fetch m (parent, u)) =
      some (entryAddress (m.entry parent u)) from if_pos hpu] at hrun
    obtain ⟨m₁, hretain, hrun⟩ := bind_eq_ok.1 hrun
    obtain ⟨⟨made, m2⟩, hcreate, hrun⟩ := bind_eq_ok.1 hrun
    have hcreate := ok.inj hcreate
    unfold createEntry at hcreate
    split at hcreate
    -- no table is left, or the next one is refused
    iterate 2
      · next htables =>
        cases hcreate
        obtain ⟨m3, -, hrun⟩ := bind_eq_ok.1 hrun
        cases hrun
        exact .inr ⟨_, u, m, rfl, hub, hIu, hpu, m₁, hretain, by rw [htables]; exact nofun⟩
    next tables htables =>
    cases hcreate
    rw [Nat.mul_div_cancel u (by decide)] at hrun
    rw [wrap_succ_page hub hb] at hrun
    exact ih hub (hcopy u m _ hIu hub hpu ⟨m₁, tables, hretain, htables, rfl⟩) hrun
  next hge =>
  cases hrun
  have hbu : b ≤ u := by
    by_contra hlt
    refine hge ?_
    rw [hstop]
    exact Nat.mul_lt_mul_of_pos_right (not_le.1 hlt) (by decide)
  exact .inl ⟨entry, rfl, skip_to (fun w hw hlt hp => hskip w m hw hlt hp)
    (fun w hw hlt => hnot w hw (hlt.trans_le hbu)) hab hI⟩

/-! ## Tables -/

/-- The next answers are that there is memory for tables. -/
def Ready (k : Nat) (m : MapMem) : Prop := m.tables.take k = List.replicate k true
  deriving Decidable

/-- How many pages of a range are present. -/
def presentIn (m : MapMem) (sp a b : Nat) : Nat :=
  ((Finset.Ico a b).filter fun v => Present (m.entry sp v)).card

theorem presentIn_self (m : MapMem) (sp a : Nat) : m.presentIn sp a a = 0 := by
  simp [presentIn]

theorem presentIn_succ {sp v : Nat} (h : v < b) : m.presentIn sp v b =
    m.presentIn sp (v + 1) b + if Present (m.entry sp v) then 1 else 0 := by
  unfold presentIn
  rw [← insert_Ico_add_one_left_eq_Ico h, filter_insert]
  split
  · rw [card_insert_of_notMem (by simp)]
  rfl

theorem presentIn_congr {sp : Nat} (h : ∀ v, Present (m'.entry sp v) ↔ Present (m.entry sp v)) :
    m'.presentIn sp a b = m.presentIn sp a b := by
  unfold presentIn
  simp only [h]

theorem Ready.succ {tables : List Bool} (h : m.Ready (k + 1))
    (ht : m.tables = true :: tables) : tables.take k = List.replicate k true := by
  rw [Ready, ht] at h
  exact (List.cons.inj h).2

theorem Ready.exists (h : m.Ready (k + 1)) : ∃ tables, m.tables = true :: tables := by
  rw [Ready] at h
  rcases hm : m.tables with _ | ⟨t, tables⟩
  · rw [hm] at h
    cases h
  grind

theorem cloneRetain_spec {page : Nat} (h : vmmCloneRetain pageMap seg page m = .ok m') :
    ∃ refCount, m' = { m with refCount := refCount } := by
  unfold vmmCloneRetain at h
  split at h
  · cases h
    exact ⟨_, rfl⟩
  obtain ⟨⟨_, m₁⟩, hretain, h⟩ := bind_eq_ok.1 h
  cases h
  obtain ⟨_, _, hretain⟩ := bind_eq_ok.1 hretain
  dsimp only at hretain
  split at hretain
  · cases hretain
    exact ⟨_, rfl⟩
  cases hretain
  exact ⟨_, rfl⟩

/-- With enough tables the loop comes to its end. -/
theorem cloneLoop_ready {rounds old : Nat} {entry : Option (Nat × Nat)}
    {ret : Except Errno (Option (Nat × Nat))} (hstop : seg.stop = b * pageSize)
    (hb : b * pageSize < 2 ^ 64) (hne : parent ≠ child) (hab : a ≤ b)
    (hready : m.Ready (m.presentIn parent a b + k))
    (hrun : vmmCloneLoop pageMap parent child seg prot rounds (a * pageSize) entry old m =
      .ok (ret, m')) :
    (∃ entry, ret = .ok entry) ∧ m'.Ready k ∧ ∀ v, m'.entry parent v = m.entry parent v := by
  have hrule := cloneLoop_rule
    (fun v m' => m'.Ready (m.presentIn parent v b + k) ∧ ∀ v, m'.entry parent v = m.entry parent v)
    hstop hb ?_ ?_ hab ⟨hready, fun _ => rfl⟩ hrun
  · rcases hrule with ⟨entry, rfl, hI, hsame⟩ | ⟨err, v, m0, rfl, hv, ⟨hI, hsame⟩, hp, m₁, hretain, hno⟩
    · rw [presentIn_self, zero_add] at hI
      exact ⟨⟨entry, rfl⟩, hI, hsame⟩
    obtain ⟨refCount, rfl⟩ := cloneRetain_spec hretain
    rw [hsame] at hp
    rw [presentIn_succ hv, if_pos hp, add_right_comm] at hI
    obtain ⟨tables, ht⟩ := hI.exists
    exact absurd ht (hno tables)
  · rintro v m₁ ⟨hI, hsame⟩ hv hp
    rw [hsame] at hp
    rw [presentIn_succ hv, if_neg hp, add_zero] at hI
    exact ⟨hI, hsame⟩
  rintro v m₁ m2 ⟨hI, hsame⟩ hv hp ⟨m3, tables, hretain, ht, rfl⟩
  obtain ⟨refCount, rfl⟩ := cloneRetain_spec hretain
  rw [hsame] at hp
  rw [presentIn_succ hv, if_pos hp, add_right_comm] at hI
  refine ⟨hI.succ ht, fun w => ?_⟩
  rw [store_entry, if_neg fun h => hne (congrArg Prod.fst h)]
  exact hsame w

/-- The parent keeps its pages when they lose the right to be written. -/
theorem cloneProtect_ready (hstart : seg.start = a * pageSize) (hstop : seg.stop = b * pageSize)
    (hb : b * pageSize < 2 ^ 64) (hab : a ≤ b)
    (hrun : vmmCloneProtect pageMap parent seg m = .ok m') :
    m'.tables = m.tables ∧ ∀ v, Present (m'.entry parent v) ↔ Present (m.entry parent v) := by
  unfold vmmCloneProtect at hrun
  split at hrun
  · obtain ⟨⟨m₁, _⟩, hloop, hrun⟩ := bind_eq_ok.1 hrun
    cases hrun
    rw [hstart, hstop] at hloop
    refine foreach_rule _ (fun _ s => s.1.tables = m.tables ∧
      ∀ v, Present (s.1.entry parent v) ↔ Present (m.entry parent v)) hb (fun _ _ h _ _ => h) ?_ hab
      ⟨rfl, fun _ => Iff.rfl⟩ hloop
    rintro v ⟨m₁, _⟩ s' ⟨ht, hsame⟩ _ _ hbody
    cases hbody
    refine ⟨ht, fun w => ?_⟩
    show Present ((m₁.store (parent, v) (clearFlagsValue mmuFlagWrite (m₁.entry parent v))).entry
      parent w) ↔ _
    rw [store_entry]
    split
    · next hw =>
      obtain rfl : w = v := congrArg Prod.snd hw
      rw [present_clearWrite]
      exact hsame w
    exact hsame w
  cases hrun
  exact ⟨rfl, fun _ => Iff.rfl⟩

end MapMem

namespace Vmm

open MapMem

variable {D : VmmDrivers MapMem Nat} {s s' : Vmm MapMem Nat} {parent child : Nat}
  {ps vs vs' cs cs' : List Nat}

/-- How many pages of a segment of a space are present. -/
def pagesOf (s : Vmm MapMem Nat) (sp v : Nat) : Nat :=
  s.mem.presentIn (s.space sp).addrspace ((s.seg v).start / pageSize) ((s.seg v).stop / pageSize)

/-- How often a clone of segments asks for a table. -/
def tablesFor (s : Vmm MapMem Nat) (sp : Nat) (vs : List Nat) : Nat := (vs.map (s.pagesOf sp)).sum

theorem cloneLoop_ok {v k : Nat} {seg : VmmSeg} {mem : MapMem}
    {ret : Except Errno (Option (Nat × Nat))} (hP : s.Holds parent ps) (hp : Paged s.seg ps)
    (hv : v ∈ ps) (hne : (s.space parent).addrspace ≠ (s.space child).addrspace)
    (hcore : seg.core = (s.seg v).core) (hready : s.mem.Ready (s.pagesOf parent v + k))
    (hrun : vmmCloneLoop pageMap (s.space parent).addrspace (s.space child).addrspace seg
      (cloneProt seg) mmuRounds seg.start none 0 s.mem = .ok (ret, mem)) :
    (∃ entry, ret = .ok entry) ∧ mem.Ready k ∧
      ∀ u, mem.entry (s.space parent).addrspace u = s.mem.entry (s.space parent).addrspace u := by
  obtain ⟨hstart, hstop, hb⟩ := hp.pages hv
  rw [core_start hcore, hstart] at hrun
  exact cloneLoop_ready ((core_stop hcore).trans hstop) hb hne
    (Nat.div_le_div_right (hP.nonempty v hv).le) hready hrun

/-- **Enough tables.** While segments are cloned, the answers that are left are enough for the segments
that are left. -/
theorem cloneRun_ready (hdup : ∀ ops seg mem, D.dup ops seg mem = .ok mem)
    (h : CloneRun pageMap D parent child ps vs s cs s' cs') :
    (s.space parent).addrspace ≠ (s.space child).addrspace → parent ≠ child →
      CloneLists s parent child ps cs (vs ++ vs') → Paged s.seg ps →
      s.mem.Ready (s.tablesFor parent (vs ++ vs')) →
      s'.mem.Ready (s'.tablesFor parent vs') ∧ Paged s'.seg ps := by
  induction h with
  | nil => exact fun _ _ _ hp hr => ⟨hr, hp⟩
  | @cons v new vs cs cs' s s1 s' hstep hrun ih => ?_
  intro hne hpc hl hp hready
  have hspace := hstep.space parent hpc
  have hps (x : Nat) (hx : x ∈ ps) : (s1.seg x).core = (s.seg x).core :=
    hstep.core x (ne_of_mem_of_not_mem (hl.parent.live x hx) hstep.fresh)
  have hp1 : Paged s1.seg ps := hp.congr (fun _ hx => hx) fun x hx =>
    ⟨core_start (hps x hx), core_stop (hps x hx)⟩
  obtain ⟨seg, newSeg, hcore, entry, mem1, mem2, mem3, hloop, hrelease, hprotect, hcall⟩ := hstep.pages
  obtain ⟨-, hready1, hsame1⟩ := cloneLoop_ok hl.parent hp hstep.mem hne hcore hready hloop
  obtain rfl : mem1 = mem2 := by
    rcases entry with _ | entry <;> exact ok.inj hrelease
  obtain ⟨hstart, hstop, hb⟩ := hp.pages hstep.mem
  obtain ⟨ht, hpresent⟩ := cloneProtect_ready ((core_start hcore).trans hstart)
    ((core_stop hcore).trans hstop) hb
    (Nat.div_le_div_right (hl.parent.nonempty v hstep.mem).le) hprotect
  obtain rfl : mem3 = s1.mem := by
    unfold vmmCall at hcall
    split at hcall
    · exact ok.inj ((hdup _ _ _).symm.trans hcall)
    exact ok.inj hcall
  refine ih (by rw [hspace, hstep.addrspace]; exact hne) hpc (hstep.lists hl) hp1 ?_
  have hrest : s1.tablesFor parent (vs ++ vs') = s.tablesFor parent (vs ++ vs') := by
    obtain ⟨done, hdone⟩ := hl.rest
    unfold tablesFor
    congr 1
    refine List.map_congr_left fun x hx => ?_
    have hxp : x ∈ ps := by grind
    unfold pagesOf
    rw [core_start (hps x hxp), core_stop (hps x hxp), hspace]
    refine presentIn_congr fun u => ?_
    rw [hpresent, hsame1]
  rw [hrest, Ready, ht]
  exact hready1

end Vmm

end Stanix
