import Stanix.Mem.Vmm.Fork
import Stanix.Arch.Paging.Range
import Mathlib.Order.Interval.Finset.Nat

/-!
# Cloning page tables

What `vmm_clone_seg` does to the page tables of the two spaces, over the tables of `paging.c`. The
loop keeps the lock of a table of the child and goes through the pages of the parent that are present
(`Pair`). A round makes an entry of the child (`Pair.copy`), as long as the test by which
`mmu_create_next_entry_and_acquire_lock` recognises two pages of one table is right about the page
and the one before it (`Chained`). Where it is wrong, the loop never comes back to the table whose lock
it holds, so that the release of the lock fails (`cloneLoop_lost`).
-/

namespace Stanix

open Exec Function PageTable Option Finset SameShape

/-- How many pages the lower half of an address space has. -/
def lowPages : Nat := 256 * 512 ^ 3

theorem digit_of_lowPages {v : Nat} (h : v < lowPages) : v / 512 ^ 3 % 512 < 256 := by
  unfold lowPages at h
  omega

theorem mod_of_lowPages {v : Nat} (h : v < lowPages) : v % 512 ^ 4 = v :=
  Nat.mod_eq_of_lt (h.trans (by decide))

namespace PhysMem

variable {m m' m'' : PhysMem} {n p c t e v w k lo hi old page : Nat} {entry : Option Nat}
  {seg : VmmSeg}
  {prot : BitVec 64}

/-! ## Two spaces -/

/-- **Frames.** A space is as before when the tables of another one have changed. -/
theorem Holding.frame {n' q : Nat} (h : m.Holding n q entry) (he : Extends m m' n' 3 t)
    (hl : SameLocks m m' n' t) (hfree : m'.FreeUnlocked)
    (hd : ∀ f ∈ tables m.word n 3 q, f ∉ tables m.word n' 3 t) :
    m'.Holding n q entry ∧ AgreeOn m.word m'.word (tables m.word n 3 q) ∧
      tables m'.word n 3 q = tables m.word n 3 q ∧
      ∀ f ∈ tables m'.word n 3 q, f ∉ tables m'.word n' 3 t := by
  have hagree : AgreeOn m.word m'.word (tables m.word n 3 q) :=
    fun a ha => he.frame a (hd _ ha) (h.owns.used _ ha)
  have hsame := of_agree h.owns.aligned h.owns.entries hagree
  refine ⟨⟨⟨h.owns.aligned, h.owns.entries, hsame.apart h.owns.apart, fun f hf => ?_⟩,
    fun f hf => ?_, hfree⟩, hagree, hsame.tables, fun f hf hf' => ?_⟩
  · rw [hsame.tables] at hf
    rw [he.count f (h.owns.used f hf)]
    exact h.owns.used f hf
  · rw [hsame.tables] at hf
    rw [hl f (h.owns.used f hf) (hd f hf)]
    exact h.lock f hf
  rw [hsame.tables] at hf
  exact (he.new f hf').elim (hd f hf) (h.owns.used f hf)

/-- No reference count of a page in use is within `k` of the largest one. -/
def Room (m : PhysMem) (k : Nat) : Prop :=
  ∀ f, m.refCount f ≠ 0 → (m.refCount f).toNat + k < 2 ^ 32

theorem Room.mono (h : m.Room k) {k' : Nat} (hk : k' ≤ k) : m.Room k' := by
  intro f hf
  have := h f hf
  omega

/-- The memory holds the lower halves of two spaces, which share no table. The only lock that is taken
is that of the table of the entry given, a table of the child. -/
structure Pair (m : PhysMem) (p c : Nat) (entry : Option Nat) : Prop where
  parent : m.Space 256 p
  child : m.Holding 256 c entry
  apart : ∀ f ∈ tables m.word 256 3 p, f ∉ tables m.word 256 3 c
  only : ∀ f, m.locked f = true → ∃ e, entry = some e ∧ f = pageAlignDown e

theorem Holding.congr_used (h : m.Holding n t entry) (hw : m'.word = m.word)
    (hl : m'.locked = m.locked) (hc : ∀ f, m'.refCount f = 0 ↔ m.refCount f = 0) :
    m'.Holding n t entry := by
  refine ⟨⟨h.owns.aligned, h.owns.entries, by rw [hw]; exact h.owns.apart, fun f hf => ?_⟩,
    fun f hf => ?_, fun f hf => ?_⟩
  · rw [hw] at hf
    rw [Ne, hc]
    exact h.owns.used f hf
  · rw [hw] at hf
    rw [hl]
    exact h.lock f hf
  rw [hl]
  exact h.free f ((hc f).1 hf)

theorem Pair.congr_used (h : m.Pair p c entry) (hw : m'.word = m.word) (hl : m'.locked = m.locked)
    (hc : ∀ f, m'.refCount f = 0 ↔ m.refCount f = 0) : m'.Pair p c entry :=
  ⟨h.parent.congr_used hw hl hc, h.child.congr_used hw hl hc, by rw [hw]; exact h.apart,
    by rw [hl]; exact h.only⟩

theorem Supplies.congr_used (h : m.Supplies k) (hp : m'.pages = m.pages)
    (hc : ∀ f, m'.refCount f = 0 ↔ m.refCount f = 0) : m'.Supplies k := by
  obtain ⟨ps, rest, h1, h2, h3, h4⟩ := h
  refine ⟨ps, rest, hp.trans h1, h2, h3, fun f hf => ?_⟩
  obtain ⟨g1, g2, g3⟩ := h4 f hf
  exact ⟨g1, g2, (hc f).2 g3⟩

/-- The reference that a clone takes to a page leaves all pages in use that are. -/
theorem cloneRetain_spec (seg : VmmSeg) (hpage : page % pageSize = 0) (hroom : m.Room (k + 1)) :
    ∃ m', vmmCloneRetain paging seg page m = .ok m' ∧ m'.word = m.word ∧ m'.locked = m.locked ∧
      m'.pages = m.pages ∧ (∀ f, m'.refCount f = 0 ↔ m.refCount f = 0) ∧ m'.Room k := by
  have hsame : ∃ m', (.ok m : Exec PhysMem) = .ok m' ∧ m'.word = m.word ∧ m'.locked = m.locked ∧
      m'.pages = m.pages ∧ (∀ f, m'.refCount f = 0 ↔ m.refCount f = 0) ∧ m'.Room k :=
    ⟨m, rfl, rfl, rfl, rfl, fun _ => Iff.rfl, hroom.mono (Nat.le_succ k)⟩
  unfold vmmCloneRetain
  split
  · exact hsame
  show ∃ m', (do let (_, mem) ← pmmRetainPage m page; return mem) = .ok m' ∧ _
  rw [pmmRetainPage, assert_of hpage]
  by_cases h0 : m.refCount page = 0
  · rw [if_pos h0]
    exact hsame
  rw [if_neg h0]
  have hmax := hroom page h0
  have hval : (m.refCount page + 1).toNat = (m.refCount page).toNat + 1 := by
    exact Nat.mod_eq_of_lt (by simpa using (by omega))
  refine ⟨_, rfl, rfl, rfl, rfl, fun f => ?_, fun f hf => ?_⟩
  · grind
  replace hf : update m.refCount page (m.refCount page + 1) f ≠ 0 := hf
  show (update m.refCount page (m.refCount page + 1) f).toNat + k < 2 ^ 32
  by_cases hfp : f = page
  · rw [hfp, update_self, hval]
    omega
  rw [update_of_ne hfp] at hf ⊢
  have := hroom f hf
  omega

/-! ## One page -/

/-- The page whose entry is given, and for which the test is right about the page to come. -/
def Held (m : PhysMem) (c : Nat) (entry : Option Nat) (old w : Nat) : Prop :=
  ∀ e, entry = some e → ∃ u, old = u * pageSize ∧ u < lowPages ∧ walk m.word 3 c u = some e ∧
    SameTableTest old (w * pageSize)

/-- The next entry of the child. -/
theorem Pair.createNext (h : m.Pair p c entry) (hw : w < lowPages) (hold : m.Held c entry old w) :
    ∃ r m', mmuCreateNextEntryAndAcquireLock m c (w * pageSize) entry old = .ok (r, m') ∧
      m'.Pair p c r ∧ Grows m m' 256 3 c ∧ AgreeOn m.word m'.word (tables m.word 256 3 p) ∧
      (∀ e, r = some e → walk m'.word 3 c w = some e) ∧
      ∀ k, m.Supplies (k + 3) → r ≠ none ∧ m'.Supplies k := by
  have hpage (x : Nat) : x * pageSize / pageSize = x := Nat.mul_div_cancel _ (by decide)
  have hdigit : w * pageSize / pageSize / 512 ^ 3 % 512 < 256 := by
    rw [hpage]
    exact digit_of_lowPages hw
  have hold' : ∀ e, entry = some e → old % pageSize = 0 ∧ old / pageSize / 512 ^ 3 % 512 < 256 ∧
      walk m.word 3 c (old / pageSize) = some e ∧ SameTableTest old (w * pageSize) := by
    intro e he
    obtain ⟨u, rfl, hu, hwalk, htest⟩ := hold e he
    rw [hpage]
    exact ⟨Nat.mul_mod_left .., digit_of_lowPages hu, hwalk, htest⟩
  obtain ⟨r, m', hrun, hg, hchild, hlocks, hr, hsup⟩ :=
    createNext_spec h.child (Nat.mul_mod_left ..) hdigit hold'
  obtain ⟨hparent, hagree, -, hd⟩ := h.parent.frame hg.toExtends hlocks hchild.free h.apart
  refine ⟨r, m', hrun, ⟨hparent, hchild, hd, fun f hf => ?_⟩, hg, hagree, fun e he => ?_, hsup⟩
  · rcases createNext_locked h.child (Nat.mul_mod_left ..) hdigit hold' hrun hf with he | ⟨hl, hne⟩
    · exact he
    obtain ⟨e, he, hfe⟩ := h.only f hl
    exact absurd hfe (hne e he)
  rw [← hpage w]
  exact hr e he

theorem Pair.setWord (h : m.Pair p c entry) (hw : w < lowPages) (he : walk m.word 3 c w = some e)
    (x : BitVec 64) :
    (m.setWord e x).Pair p c entry ∧ AgreeOn m.word (m.setWord e x).word (tables m.word 256 3 p) := by
  have hdigit := digit_of_lowPages hw
  have hchild := h.child.setWord hdigit he x
  obtain ⟨hparent, hagree, -, hd⟩ := h.parent.frame (.setWord h.child.owns hdigit he x)
    (fun _ _ _ => rfl) hchild.free h.apart
  exact ⟨⟨hparent, hchild, hd, h.only⟩, hagree⟩

theorem Pair.release (h : m.Pair p c (some e)) (hw : w < lowPages)
    (he : walk m.word 3 c w = some e) :
    ∃ m', mmuEntryReleaseLock m e = .ok m' ∧ m'.Pair p c none ∧ m'.word = m.word ∧
      m'.refCount = m.refCount ∧ m'.pages = m.pages := by
  have hmem := walk_mem h.child.owns.aligned (digit_of_lowPages hw) he
  obtain ⟨m', hrun, hword, hcount, hpages, hchild, hlocks⟩ := releaseLock_spec h.child hmem
  obtain ⟨hparent, -, -, hd⟩ := h.parent.frame (.of_eq h.child.owns hword hcount) hlocks
    hchild.free h.apart
  refine ⟨m', hrun, ⟨hparent, hchild, hd, fun f hf => ?_⟩, hword, hcount, hpages⟩
  cases (pmmReleasePageLock_of ((h.child.lock _ hmem).2 ⟨e, rfl, rfl⟩)).symm.trans hrun
  have hf : update m.locked (pageAlignDown e) false f = true := hf
  rw [update_apply] at hf
  split at hf
  · cases hf
  next hne =>
  obtain ⟨e', he', hfe⟩ := h.only f hf
  exact absurd (some.inj he' ▸ hfe) hne

/-- The pages of the parent from `lo` to before `hi` have been copied to the child, and nothing else
was written but new tables of the child. -/
structure Copies (m m' : PhysMem) (p c : Nat) (prot : BitVec 64) (lo hi : Nat) : Prop where
  parent : ∀ u < lowPages, leaf m'.word 3 p u = leaf m.word 3 p u
  child : ∀ u < lowPages, leaf m'.word 3 c u =
    if lo ≤ u ∧ u < hi ∧ Present (leaf m.word 3 p u) then
      mapValue (entryAddress (leaf m.word 3 p u)) prot
    else leaf m.word 3 c u
  tables : tables m'.word 256 3 p = tables m.word 256 3 p
  new : ∀ f ∈ PageTable.tables m'.word 256 3 c, f ∈ PageTable.tables m.word 256 3 c ∨ m.refCount f = 0
  used : ∀ f, m.refCount f ≠ 0 → m'.refCount f ≠ 0
  word : ∀ a, m.refCount (pageAlignDown a) ≠ 0 →
    pageAlignDown a ∉ PageTable.tables m.word 256 3 c → m'.word a = m.word a

namespace Copies

theorem of_eq (hw : m'.word = m.word) (hc : m'.refCount = m.refCount)
    (hnone : ∀ u, lo ≤ u → u < hi → ¬ Present (leaf m.word 3 p u)) : Copies m m' p c prot lo hi := by
  refine ⟨fun u _ => by rw [hw], fun u _ => ?_, by rw [hw], fun f hf => .inl (by rwa [hw] at hf),
    fun f hf => by rwa [hc], fun a _ _ => by rw [hw]⟩
  rw [if_neg fun hu => hnone u hu.1 hu.2.1 hu.2.2, hw]

theorem present (h : Copies m m' p c prot lo hi) (u : Nat) (hu : u < lowPages) :
    Present (leaf m'.word 3 p u) ↔ Present (leaf m.word 3 p u) := by
  rw [h.parent u hu]

theorem trans {mid : Nat} (h : Copies m m' p c prot lo mid) (h' : Copies m' m'' p c prot mid hi)
    (hlo : lo ≤ mid) (hhi : mid ≤ hi) : Copies m m'' p c prot lo hi := by
  refine ⟨fun u hu => (h'.parent u hu).trans (h.parent u hu), fun u hu => ?_,
    h'.tables.trans h.tables, fun f hf => ?_, fun f hf => h'.used f (h.used f hf), fun a ha hn => ?_⟩
  · rw [h'.child u hu, h.parent u hu, h.child u hu]
    grind
  · rcases h'.new f hf with hf | hf
    · exact h.new f hf
    exact .inr (by_contra fun h0 => h.used f h0 hf)
  rw [h'.word a (h.used _ ha) fun hf => (h.new _ hf).elim hn ha, h.word a ha hn]

end Copies

/-- **One page.** A round of the loop of `vmm_clone_seg` on a page of the parent that is present, where
the test is right. -/
theorem Pair.copy (h : m.Pair p c entry) (hvw : v ≤ w) (hw : w < lowPages)
    (hp : Present (leaf m.word 3 p w)) (hbetween : ∀ u, v ≤ u → u < w → ¬ Present (leaf m.word 3 p u))
    (hold : m.Held c entry old w) (hroom : m.Room (k + 1)) (seg : VmmSeg) (prot : BitVec 64) :
    ∃ m1 r m2, vmmCloneRetain paging seg (entryAddress (leaf m.word 3 p w)) m = .ok m1 ∧
      mmuCreateNextEntryAndAcquireLock m1 c (w * pageSize) entry old = .ok (r, m2) ∧
      (∀ k, m.Supplies (k + 3) → r ≠ none ∧ m2.Supplies k) ∧
      ∀ e, r = some e →
        let m' := m2.setWord e (mapValue (entryAddress (leaf m.word 3 p w)) prot)
        m'.Pair p c (some e) ∧ walk m'.word 3 c w = some e ∧ Copies m m' p c prot v (w + 1) ∧
          m'.Room k := by
  obtain ⟨m1, hretain, hw1, hl1, hp1, hc1, hroom1⟩ :=
    cloneRetain_spec seg (entryAddress_spec (leaf m.word 3 p w)).1 hroom
  have h1 := h.congr_used hw1 hl1 hc1
  obtain ⟨r, m2, hrun, hpair, hg, hagree, hr, hsup⟩ :=
    h1.createNext hw (show m1.Held c entry old w by rw [Held, hw1]; exact hold)
  refine ⟨m1, r, m2, hretain, hrun, fun k hk => hsup k (hk.congr_used hp1 hc1), fun e he => ?_⟩
  subst he
  set value := mapValue (entryAddress (leaf m.word 3 p w)) prot with hvalue
  have hwalk := hr e rfl
  obtain ⟨hpair', hagree'⟩ := hpair.setWord hw hwalk value
  obtain ⟨hext, hwalk', hleaf⟩ := hpair.child.store (digit_of_lowPages hw) hwalk value
  have hne (f : Nat) (hf : m.refCount f ≠ 0) : m1.refCount f ≠ 0 := mt (hc1 f).1 hf
  have hsame1 := of_agree h1.parent.owns.aligned h1.parent.owns.entries hagree
  have hsame2 := of_agree hpair.parent.owns.aligned hpair.parent.owns.entries hagree'
  refine ⟨hpair', hwalk', ⟨fun u hu => ?_, fun u hu => ?_, ?_, fun f hf => ?_, fun f hf => ?_,
    fun a ha hn => ?_⟩, fun f hf => ?_⟩
  · have hdigit := digit_of_lowPages hu
    rw [leaf_of_agree hpair.parent.owns.aligned hpair.parent.owns.entries hagree' hdigit,
      leaf_of_agree h1.parent.owns.aligned h1.parent.owns.entries hagree hdigit, hw1]
  · rw [hleaf u (digit_of_lowPages hu), hg.leaf u (digit_of_lowPages hu), hw1]
    rw [mod_of_lowPages hu, mod_of_lowPages hw]
    grind
  · rw [hsame2.tables, hsame1.tables, hw1]
  · rcases hext.new f hf with hf | hf
    · rcases hg.new f hf with hf | hf
      · rw [hw1] at hf
        exact .inl hf
      exact .inr ((hc1 f).1 hf)
    exact .inr ((hc1 f).1 (hg.free_of_free hf))
  · show m2.refCount f ≠ 0
    rw [hg.count f (hne f hf)]
    exact hne f hf
  · rw [← hw1] at hn ⊢
    have hn2 := hg.not_mem (hne _ ha) hn
    rw [hext.frame a hn2 (by rw [hg.count _ (hne _ ha)]; exact hne _ ha), hg.frame a hn (hne _ ha)]
  replace hf : m2.refCount f ≠ 0 := hf
  show (m2.refCount f).toNat + k < 2 ^ 32
  rcases createNext_count hrun f with hsame | hone
  · rw [hsame] at hf ⊢
    exact hroom1 f hf
  have := hroom1 p (h1.parent.owns.used p mem_tables_self)
  have hpos :=
    Nat.pos_of_ne_zero fun h0 => h1.parent.owns.used p mem_tables_self (BitVec.eq_of_toNat_eq h0)
  rw [hone, show (1 : BitVec 32).toNat = 1 from rfl]
  omega

/-! ## The loop -/

theorem cloneRetain_locked (h : vmmCloneRetain paging seg page m = .ok m') :
    m'.locked = m.locked := by
  unfold vmmCloneRetain at h
  split at h
  · cases h
    rfl
  obtain ⟨⟨_, m1⟩, hretain, h⟩ := bind_eq_ok.1 h
  cases h
  obtain ⟨_, _, hretain⟩ := bind_eq_ok.1 hretain
  dsimp only at hretain
  split at hretain <;> cases hretain <;> rfl

/-- How many pages of a range are present. -/
def presentIn (m : PhysMem) (root lo hi : Nat) : Nat :=
  ((Finset.Ico lo hi).filter fun v => Present (leaf m.word 3 root v)).card

theorem presentIn_next (hvw : v ≤ w) (hw : w < hi) (hp : Present (leaf m.word 3 p w))
    (hbetween : ∀ u, v ≤ u → u < w → ¬ Present (leaf m.word 3 p u)) :
    m.presentIn p v hi = m.presentIn p (w + 1) hi + 1 := by
  unfold presentIn
  rw [← card_insert_of_notMem (a := w) (by simp)]
  congr 1
  ext u
  constructor
  · grind
  grind

theorem presentIn_congr (hhi : hi ≤ lowPages)
    (h : ∀ u < lowPages, Present (leaf m'.word 3 p u) ↔ Present (leaf m.word 3 p u)) :
    m'.presentIn p lo hi = m.presentIn p lo hi := by
  unfold presentIn
  congr 1
  exact filter_congr fun u hu => h u ((mem_Ico.1 hu).2.trans_le hhi)

/-- The test by which two pages of one table are recognised is right about any two pages of a range
that are present with no page between them. -/
def Chained (m : PhysMem) (root lo hi : Nat) : Prop :=
  ∀ a b, lo ≤ a → a < b → b < hi → Present (leaf m.word 3 root a) →
    Present (leaf m.word 3 root b) → (∀ u, a < u → u < b → ¬ Present (leaf m.word 3 root u)) →
    SameTableTest (a * pageSize) (b * pageSize)

theorem Chained.congr (h : m.Chained p lo hi) (hhi : hi ≤ lowPages)
    (hp : ∀ u < lowPages, Present (leaf m'.word 3 p u) ↔ Present (leaf m.word 3 p u)) :
    m'.Chained p lo hi := by
  intro a b hlo hab hb hpa hpb hbetween
  have hlow (u : Nat) (hu : u ≤ b) := hp u (by omega)
  exact h a b hlo hab hb ((hlow a hab.le).1 hpa) ((hlow b le_rfl).1 hpb) fun u hau hub =>
    mt (hlow u hub.le).2 (hbetween u hau hub)

section Loop

variable {rounds : Nat}

/-- A round of the loop comes to an end, or to the first page of the parent that is present. -/
theorem cloneLoop_cases (hstop : seg.stop = hi * pageSize) (hhi : hi ≤ lowPages) (hv : v ≤ hi) :
    (∀ u, v ≤ u → u < hi → ¬ Present (leaf m.word 3 p u)) ∧
      vmmCloneLoop paging p c seg prot (rounds + 1) (v * pageSize) entry old m = .ok (.ok entry, m) ∨
    ∃ w, v ≤ w ∧ w < hi ∧ Present (leaf m.word 3 p w) ∧
      (∀ u, v ≤ u → u < w → ¬ Present (leaf m.word 3 p u)) ∧
      vmmCloneLoop paging p c seg prot (rounds + 1) (v * pageSize) entry old m = (do
        let m1 ← vmmCloneRetain paging seg (entryAddress (leaf m.word 3 p w)) m
        let (r, m2) ← mmuCreateNextEntryAndAcquireLock m1 c (w * pageSize) entry old
        match r with
        | none =>
          let m3 ← vmmCloneUndo paging c seg (w * pageSize) m2
          return (.error .nomem, m3)
        | some e =>
          vmmCloneLoop paging p c seg prot rounds ((w + 1) * pageSize) (some e) (w * pageSize)
            (m2.setWord e (mapValue (entryAddress (leaf m.word 3 p w)) prot))) := by
  have hlow : lowPages < 512 ^ 4 := by decide
  have hnum : v * pageSize / pageSize % 512 ^ (3 + 1) = v := by
    rw [Nat.mul_div_cancel _ (by decide), Nat.mod_eq_of_lt (by omega)]
  have hnext := mmuGetNextEntry_spec m p (v * pageSize)
  rw [vmmCloneLoop, paging_getNextEntry]
  cases hfound : mmuGetNextEntry m p (v * pageSize) with
  | none =>
    rw [hfound, NextSpec, hnum] at hnext
    exact .inl ⟨fun u h1 h2 => hnext u h1 (by omega), rfl⟩
  | some found => ?_
  obtain ⟨e, a⟩ := found
  rw [hfound, NextSpec, hnum] at hnext
  obtain ⟨w, rfl, hvw, hw, hwalk, hp, hbetween⟩ := hnext
  by_cases hlt : w < hi
  · have hin : w * pageSize < seg.stop := by
      rw [hstop]
      exact Nat.mul_lt_mul_of_pos_right hlt (by decide)
    have hsucc : wrap (w * pageSize + pageSize) = (w + 1) * pageSize := by
      rw [wrap_of_lt, add_mul, one_mul]
      simp only [pageSize]
      omega
    rw [← leaf_of_walk hwalk] at hp
    refine .inr ⟨w, hvw, hlt, hp, hbetween, ?_⟩
    have hpage : mmuEntryValGetPage (paging.fetch m e) =
        some (entryAddress (leaf m.word 3 p w)) := by
      rw [paging_fetch, ← leaf_of_walk hwalk, mmuEntryValGetPage, if_pos hp]
    simp only [if_pos hin, hpage, hsucc]
    refine bind_congr fun m1 => bind_congr fun x => ?_
    rcases x with ⟨_ | e, m2⟩ <;> rfl
  have hout : ¬ w * pageSize < seg.stop := by
    rw [hstop]
    simp only [pageSize]
    omega
  exact .inl ⟨fun u h1 h2 => hbetween u h1 (by omega), by simp only [if_neg hout]⟩

/-- **A lost entry.** When the entry at hand is behind the one table that is locked, the loop does not
come back to this table. -/
theorem cloneLoop_lost {ret : Except Errno (Option Nat)} (hstop : seg.stop = hi * pageSize)
    (hhi : hi ≤ lowPages) (ht : t % pageSize = 0) :
    ∀ {v u e : Nat} {m : PhysMem}, v ≤ hi → u < v → t + pageSize ≤ e →
      (∀ f, m.locked f = true → f = t) →
      vmmCloneLoop paging p c seg prot rounds (v * pageSize) (some e) (u * pageSize) m =
        .ok (ret, m') →
      ∃ e', ret = .ok (some e') ∧ t + pageSize ≤ e' ∧ ∀ f, m'.locked f = true → f = t := by
  induction rounds with
  | zero =>
    intro v u e m _ _ _ _ hrun
    cases hrun
  | succ rounds ih => ?_
  intro v u e m hv huv he honly hrun
  rcases cloneLoop_cases hstop hhi hv with ⟨-, hend⟩ | ⟨w, hvw, hw, -, -, hround⟩
  · rw [hend] at hrun
    cases hrun
    exact ⟨e, rfl, he, honly⟩
  rw [hround] at hrun
  obtain ⟨m1, hretain, hrun⟩ := bind_eq_ok.1 hrun
  obtain ⟨⟨r, m2⟩, hcreate, hrun⟩ := bind_eq_ok.1 hrun
  have hlocked : m1.locked = m.locked := cloneRetain_locked hretain
  unfold mmuCreateNextEntryAndAcquireLock at hcreate
  dsimp only at hcreate
  split at hcreate
  · have hlt : w * pageSize > u * pageSize :=
      Nat.mul_lt_mul_of_pos_right (huv.trans_le hvw) (by decide)
    rw [if_pos hlt] at hcreate
    cases hcreate
    refine ih hw (Nat.lt_succ_self w) (he.trans (Nat.le_add_right ..)) (fun f hf => honly f ?_) hrun
    rw [← hlocked]
    exact hf
  obtain ⟨m3, hrelease, -⟩ := bind_eq_ok.1 hcreate
  obtain ⟨_, hassert, -⟩ := bind_eq_ok.1 hrelease
  have hpage := honly _ (hlocked ▸ assert_eq_ok.1 hassert)
  simp only [pageAlignDown, pageSize] at *
  omega

/-- Where the test is wrong, the entry that is returned is behind the table that is locked. -/
theorem Pair.lost {u page : Nat} {m1 m2 : PhysMem} {r : Option Nat} (h : m.Pair p c (some e))
    (hwalk : walk m.word 3 c u = some e) (huw : u < w)
    (htest : ¬ SameTableTest (u * pageSize) (w * pageSize))
    (hretain : vmmCloneRetain paging seg page m = .ok m1)
    (hcreate : mmuCreateNextEntryAndAcquireLock m1 c (w * pageSize) (some e) (u * pageSize) =
      .ok (r, m2)) :
    ∃ t e', r = some e' ∧ t % pageSize = 0 ∧ t + pageSize ≤ e' ∧
      ∀ f, m2.locked f = true → f = t := by
  obtain ⟨t, ht, rfl, -⟩ := walk_same_table h.child.owns.aligned (rfl : u / 512 = u / 512) hwalk
  obtain ⟨htable, hbit⟩ := not_or.1 htest
  rw [not_not] at hbit
  have hlt : w * pageSize > u * pageSize := Nat.mul_lt_mul_of_pos_right huw (by decide)
  simp only [mmuCreateNextEntryAndAcquireLock, and_table_size_eq_iff, if_pos hbit, if_pos hlt] at hcreate
  cases hcreate
  refine ⟨t, _, rfl, ht, ?_, fun f hf => ?_⟩
  · have hindex : 512 ≤ u % 512 + (w - u) := by
      simp only [pageSize] at htable
      omega
    rw [tableEntry]
    simp only [pageSize]
    omega
  rw [cloneRetain_locked hretain] at hf
  obtain ⟨e, he, hfe⟩ := h.only f hf
  rw [hfe, ← some.inj he, pageAlignDown_tableEntry ht (Nat.mod_lt _ (by decide))]

/-- Where the loop is: the entry at hand is that of the page `last`, and the pages between that one and
`v` are not present. -/
def Reached (m : PhysMem) (p c : Nat) (entry : Option Nat) (old last v : Nat) : Prop :=
  entry = none ∧ last = v ∨
    ∃ e, entry = some e ∧ old = last * pageSize ∧ last < v ∧ walk m.word 3 c last = some e ∧
      ∀ u, last < u → u < v → ¬ Present (leaf m.word 3 p u)

theorem Reached.between {last : Nat} (h : m.Reached p c entry old last v)
    (hbetween : ∀ u, v ≤ u → u < w → ¬ Present (leaf m.word 3 p u)) {a : Nat} (hla : last ≤ a)
    (haw : a < w) (hp : Present (leaf m.word 3 p a)) : a = last ∧ last < v := by
  rcases h with ⟨-, rfl⟩ | ⟨e, -, -, hlv, -, hgap⟩
  · exact absurd hp (hbetween a hla haw)
  grind

variable (hstop : seg.stop = hi * pageSize)

include hstop

/-- **The loop of `vmm_clone_seg`**, with the release of the lock. When it succeeds, the test was right
about all pages, and the pages are copied. -/
theorem cloneLoop_spec (hhi : hi ≤ lowPages) {entry' : Option Nat} {m1 : PhysMem}
    (hrelease : vmmEntryRelease paging entry' m1 = .ok m') :
    ∀ {v last old : Nat} {entry : Option Nat} {m : PhysMem}, v ≤ hi → m.Pair p c entry →
      m.Reached p c entry old last v → m.Room (k + m.presentIn p v hi) →
      vmmCloneLoop paging p c seg prot rounds (v * pageSize) entry old m = .ok (.ok entry', m1) →
      m.Chained p last hi ∧ m'.Pair p c none ∧ Copies m m' p c prot v hi ∧ m'.Room k := by
  induction rounds with
  | zero =>
    intro v last old entry m _ _ _ _ hrun
    cases hrun
  | succ rounds ih => ?_
  intro v last old entry m hv h hreach hroom hrun
  rcases cloneLoop_cases hstop hhi hv with ⟨hnone, hend⟩ | ⟨w, hvw, hw, hp, hbetween, hround⟩
  · have hchained : m.Chained p last hi := by
      intro a b hla hab hb hpa hpb _
      have := (hreach.between hnone (hla.trans hab.le) hb hpb).1
      omega
    replace hroom : m.Room k := hroom.mono (Nat.le_add_right ..)
    rw [hend] at hrun
    cases hrun
    rcases hreach with ⟨rfl, -⟩ | ⟨e, rfl, -, hlv, hwalk, -⟩
    · cases hrelease
      exact ⟨hchained, h, .of_eq rfl rfl hnone, hroom⟩
    obtain ⟨m2, hrun, hpair, hword, hcount, -⟩ := h.release (by omega) hwalk
    cases hrun.symm.trans hrelease
    refine ⟨hchained, hpair, .of_eq hword hcount hnone, ?_⟩
    rw [Room, hcount]
    exact hroom
  rw [hround] at hrun
  rw [presentIn_next hvw hw hp hbetween] at hroom
  have htest : last < w → ∀ e, entry = some e → SameTableTest (last * pageSize) (w * pageSize) := by
    intro hlw e he
    rcases hreach with ⟨rfl, -⟩ | ⟨e', rfl, rfl, -, hwalk, -⟩
    · cases he
    by_contra htest
    obtain ⟨m2, hretain, hrun⟩ := bind_eq_ok.1 hrun
    obtain ⟨⟨r, m3⟩, hcreate, hrun⟩ := bind_eq_ok.1 hrun
    obtain ⟨t, e'', rfl, ht, hge, honly⟩ := h.lost hwalk hlw htest hretain hcreate
    replace honly : ∀ f, (m3.setWord e'' (mapValue (entryAddress (leaf m.word 3 p w)) prot)).locked f =
        true → f = t := honly
    obtain ⟨e3, hret, hge', honly'⟩ :=
      cloneLoop_lost hstop hhi ht hw (Nat.lt_succ_self w) hge honly hrun
    cases hret
    obtain ⟨_, hassert, -⟩ := bind_eq_ok.1 hrelease
    have hpage := honly' _ (assert_eq_ok.1 hassert)
    simp only [pageAlignDown, pageSize] at *
    omega
  have hlast : entry ≠ none → last < w := by
    intro hne
    rcases hreach with ⟨rfl, -⟩ | ⟨e, rfl, -, hlv, -⟩
    · exact absurd rfl hne
    omega
  have hheld : m.Held c entry old w := by
    intro e he
    have := htest (hlast (he ▸ some_ne_none e)) e he
    rcases hreach with ⟨rfl, -⟩ | ⟨e', rfl, rfl, hlv, hwalk, -⟩
    · cases he
    exact ⟨last, rfl, by omega, some.inj he ▸ hwalk, this⟩
  obtain ⟨m2, r, m3, hretain, hcreate, -, hcopy⟩ := h.copy hvw (hw.trans_le hhi) hp hbetween hheld
      (by rwa [add_assoc]) seg prot
  rw [hretain, ok_bind, hcreate, ok_bind] at hrun
  cases r with
  | none =>
    obtain ⟨m4, -, hrun⟩ := bind_eq_ok.1 hrun
    cases hrun
  | some e => ?_
  obtain ⟨hpair, hwalk, hcopies, hroom'⟩ := hcopy e rfl
  rw [← presentIn_congr hhi hcopies.present] at hroom'
  obtain ⟨hchained, hpair', hcopies', hroom''⟩ := ih hw hpair
    (.inr ⟨e, rfl, rfl, Nat.lt_succ_self w, hwalk, fun u _ _ => by omega⟩) hroom' hrun
  refine ⟨fun a b hla hab hb hpa hpb hgap => ?_, hpair', hcopies.trans hcopies' (by omega) hw, hroom''⟩
  by_cases haw : w ≤ a
  · exact (hchained.congr hhi fun u hu => (hcopies.present u hu).symm) a b haw hab hb hpa hpb hgap
  obtain ⟨rfl, hlv⟩ := hreach.between hbetween hla (by omega) hpa
  have hbw : b = w := by
    rcases lt_trichotomy b w with hlt | heq | hgt
    · have := (hreach.between hbetween (by omega) hlt hpb).1
      omega
    · exact heq
    exact absurd hp (hgap w (by omega) hgt)
  rw [hbw]
  rcases hreach with ⟨rfl, hav⟩ | ⟨e', rfl, -⟩
  · omega
  exact htest (by omega) e' rfl

/-- With memory for the tables, and where the test is right about all pages, the loop succeeds. -/
theorem cloneLoop_total (hhi : hi ≤ lowPages) :
    ∀ {v last old : Nat} {entry : Option Nat} {m : PhysMem}, v ≤ hi → hi - v < rounds →
      m.Pair p c entry → m.Reached p c entry old last v →
      (entry ≠ none → Present (leaf m.word 3 p last)) → m.Chained p last hi →
      m.Room (m.presentIn p v hi) → m.Supplies (k + 3 * m.presentIn p v hi) →
      ∃ entry' m1 m', vmmCloneLoop paging p c seg prot rounds (v * pageSize) entry old m =
          .ok (.ok entry', m1) ∧
        vmmEntryRelease paging entry' m1 = .ok m' ∧ m'.Supplies k := by
  induction rounds with
  | zero => exact fun _ h => absurd h (Nat.not_lt_zero _)
  | succ rounds ih => ?_
  intro v last old entry m hv hrounds h hreach hlast hchained hroom hsup
  rcases cloneLoop_cases hstop hhi hv with ⟨hnone, hend⟩ | ⟨w, hvw, hw, hp, hbetween, hround⟩
  · rw [hend]
    replace hsup : m.Supplies k := hsup.congr (Nat.le_add_right ..) rfl rfl
    rcases hreach with ⟨rfl, -⟩ | ⟨e, rfl, -, hlv, hwalk, -⟩
    · exact ⟨none, m, m, rfl, rfl, hsup⟩
    obtain ⟨m', hrun, -, -, hcount, hpages⟩ := h.release (by omega) hwalk
    exact ⟨some e, m, m', rfl, hrun, hsup.congr le_rfl hpages hcount⟩
  rw [presentIn_next hvw hw hp hbetween] at hroom hsup
  have hheld : m.Held c entry old w := by
    rcases hreach with ⟨rfl, -⟩ | ⟨e', rfl, rfl, hlv, hwalk, hgap⟩
    · exact nofun
    intro e he
    refine ⟨last, rfl, by omega, some.inj he ▸ hwalk, hchained last w le_rfl (by omega) hw (hlast (some_ne_none e')) hp
      fun u hlu huw => ?_⟩
    by_cases huv : u < v
    · exact hgap u hlu huv
    exact hbetween u (by omega) huw
  obtain ⟨m2, r, m3, hretain, hcreate, hmem, hcopy⟩ :=
    h.copy hvw (hw.trans_le hhi) hp hbetween hheld hroom seg prot
  obtain ⟨hr, hsup3⟩ := hmem (k + 3 * m.presentIn p (w + 1) hi) (hsup.congr (by omega) rfl rfl)
  obtain ⟨e, rfl⟩ := ne_none_iff_exists'.1 hr
  obtain ⟨hpair, hwalk, hcopies, hroom'⟩ := hcopy e rfl
  rw [hround, hretain, ok_bind, hcreate]
  rw [← presentIn_congr hhi hcopies.present] at hroom' hsup3
  have hw' : last ≤ w := by
    rcases hreach with ⟨-, rfl⟩ | ⟨-, -, -, hlv, -⟩ <;> omega
  refine ih hw (by omega) hpair
    (.inr ⟨e, rfl, rfl, Nat.lt_succ_self w, hwalk, fun u _ _ => by omega⟩) (fun _ => ?_) ?_ hroom' hsup3
  · rw [hcopies.parent w (hw.trans_le hhi)]
    exact hp
  exact Chained.congr (fun a b ha => hchained a b (hw'.trans ha)) hhi hcopies.present

end Loop

/-! ## The right to write -/

/-- The pages of the parent from `lo` to before `hi` have lost the right to be written, and nothing else
has changed. -/
structure Protected (m m' : PhysMem) (p lo hi : Nat) : Prop where
  locked : m'.locked = m.locked
  refCount : m'.refCount = m.refCount
  pages : m'.pages = m.pages
  tree : Extends m m' 256 3 p
  tables : tables m'.word 256 3 p = tables m.word 256 3 p
  leaf : ∀ u < lowPages, leaf m'.word 3 p u =
    if lo ≤ u ∧ u < hi ∧ Present (leaf m.word 3 p u) then
      clearFlagsValue mmuFlagWrite (leaf m.word 3 p u)
    else leaf m.word 3 p u

namespace Protected

theorem skip (h : Protected m m' p lo v) (hv : v < lowPages)
    (hp : ¬ Present (PageTable.leaf m'.word 3 p v)) : Protected m m' p lo (v + 1) := by
  refine ⟨h.locked, h.refCount, h.pages, h.tree, h.tables, fun u hu => ?_⟩
  rw [h.leaf v hv, if_neg (by omega)] at hp
  rw [h.leaf u hu]
  grind

theorem clear (h : Protected m m' p lo v) (hlo : lo ≤ v) (hv : v < lowPages)
    (he : walk m'.word 3 p v = some e) (hp : Present (m'.word e)) :
    Protected m (m'.setWord e (clearFlagsValue mmuFlagWrite (m'.word e))) p lo (v + 1) := by
  have howns := h.tree.owns
  have hdigit := digit_of_lowPages hv
  have hvalue : m'.word e = PageTable.leaf m.word 3 p v := by
    rw [← leaf_of_walk he, h.leaf v hv, if_neg (by omega)]
  have hsame := howns.apart.sameShape_update howns.aligned howns.entries hdigit he
    (clearFlagsValue mmuFlagWrite (m'.word e))
  refine ⟨h.locked, h.refCount, h.pages, h.tree.trans (.setWord howns hdigit he _),
    hsame.tables.trans h.tables, fun u hu => ?_⟩
  refine (howns.apart.leaf_update howns.aligned howns.entries hdigit he _
    (digit_of_lowPages hu)).trans ?_
  rw [h.leaf u hu, mod_of_lowPages hu, mod_of_lowPages hv]
  grind

end Protected

/-- **The pages of the parent lose the right to be written**, if the segment is private. -/
theorem cloneProtect_spec (h : m.Pair p c none) (hstart : seg.start = lo * pageSize)
    (hstop : seg.stop = hi * pageSize) (hlo : lo ≤ hi) (hhi : hi ≤ lowPages) :
    ∃ m', vmmCloneProtect paging p seg m = .ok m' ∧
      Protected m m' p lo (if HasFlag seg.flags vmmFlagPrivate then hi else lo) := by
  have hnone : Protected m m p lo lo :=
    ⟨rfl, rfl, rfl, .of_eq h.parent.owns rfl rfl, rfl, fun u _ => (if_neg (by omega)).symm⟩
  unfold vmmCloneProtect
  split
  · have hlow : lowPages < 512 ^ 4 := by decide
    obtain ⟨⟨m', _⟩, hrun, -, hend⟩ := foreach_low
      (fun _ entry (s, ()) =>
        .ok (paging.store s entry (clearFlagsValue mmuFlagWrite (paging.fetch s entry)), ()))
      (fun v r => lo ≤ v ∧ Protected m r.1 p lo v) (hhi.trans_lt hlow)
      (by
        rintro v r hv ⟨hle, hr⟩ hp
        exact ⟨by omega, hr.skip (by omega) hp⟩)
      (by
        rintro v r e hv ⟨hle, hr⟩ hwalk hp
        exact ⟨_, rfl, by omega, hr.clear hle (by omega) hwalk hp⟩)
      mmuRounds lo (m, ()) hlo (by rw [mmuRounds]; omega) ⟨le_rfl, hnone⟩
    refine ⟨m', ?_, hend⟩
    rw [hstart, hstop, hrun]
    rfl
  exact ⟨m, rfl, hnone⟩

/-! ## A segment -/

/-- What a clone leaves of an entry of the parent. -/
def clonedParent (seg : VmmSeg) (value : BitVec 64) : BitVec 64 :=
  if Present value ∧ HasFlag seg.flags vmmFlagPrivate then clearFlagsValue mmuFlagWrite value else value

/-- What a clone makes of an entry of the child, from that of the parent. -/
def clonedChild (seg : VmmSeg) (value old : BitVec 64) : BitVec 64 :=
  if Present value then mapValue (entryAddress value) (Vmm.cloneProt seg) else old

/-- The pages of some segments are cloned: where a page has a segment, its entries are those that a clone
makes, other pages have the entries they had, and of the pages in use no other is written than the
tables of the two spaces. -/
structure Clones (m m' : PhysMem) (p c : Nat) (segAt : Nat → Option VmmSeg) : Prop where
  pair : m'.Pair p c none
  parent : ∀ u < lowPages, leaf m'.word 3 p u =
    (segAt u).elim (leaf m.word 3 p u) fun seg => clonedParent seg (leaf m.word 3 p u)
  child : ∀ u < lowPages, leaf m'.word 3 c u = (segAt u).elim (leaf m.word 3 c u) fun seg =>
    clonedChild seg (leaf m.word 3 p u) (leaf m.word 3 c u)
  tables : tables m'.word 256 3 p = tables m.word 256 3 p
  new : ∀ f ∈ PageTable.tables m'.word 256 3 c, f ∈ PageTable.tables m.word 256 3 c ∨ m.refCount f = 0
  used : ∀ f, m.refCount f ≠ 0 → m'.refCount f ≠ 0
  word : ∀ a, m.refCount (pageAlignDown a) ≠ 0 → pageAlignDown a ∉ PageTable.tables m.word 256 3 p →
    pageAlignDown a ∉ PageTable.tables m.word 256 3 c → m'.word a = m.word a

namespace Clones

variable {segAt segAt' : Nat → Option VmmSeg}

theorem refl (h : m.Pair p c none) : Clones m m p c fun _ => none :=
  ⟨h, fun _ _ => rfl, fun _ _ => rfl, rfl, fun _ hf => .inl hf, fun _ hf => hf, fun _ _ _ _ => rfl⟩

theorem present (h : Clones m m' p c segAt) (u : Nat) (hu : u < lowPages) :
    Present (leaf m'.word 3 p u) ↔ Present (leaf m.word 3 p u) := by
  rw [h.parent u hu]
  cases segAt u with
  | none => exact Iff.rfl
  | some seg =>
    rw [elim_some, clonedParent]
    split
    · exact present_clearWrite _
    exact Iff.rfl

theorem trans (h : Clones m m' p c segAt) (h' : Clones m' m'' p c segAt')
    (hd : ∀ u, segAt u = none ∨ segAt' u = none) :
    Clones m m'' p c fun u => (segAt u).or (segAt' u) := by
  refine ⟨h'.pair, fun u hu => ?_, fun u hu => ?_, h'.tables.trans h.tables, fun f hf => ?_,
    fun f hf => h'.used f (h.used f hf), fun a ha hp hc => ?_⟩
  · rw [h'.parent u hu, h.parent u hu]
    rcases hd u with hu | hu <;> rw [hu]
    · rfl
    rw [or_none]
    rfl
  · rw [h'.child u hu, h.child u hu, h.parent u hu]
    rcases hd u with hu | hu <;> rw [hu]
    · rfl
    rw [or_none]
    rfl
  · rcases h'.new f hf with hf | hf
    · exact h.new f hf
    exact .inr (by_contra fun h0 => h.used f h0 hf)
  rw [h'.word a (h.used _ ha) (by rwa [h.tables]) fun hf => (h.new _ hf).elim hc ha,
    h.word a ha hp hc]

end Clones

section Segment

variable {D : VmmDrivers PhysMem Nat} {newSeg : VmmSeg}

/-- The pages of one segment as a set of pages with their segment. -/
def pagesOf (seg : VmmSeg) (u : Nat) : Option VmmSeg :=
  if seg.start ≤ u * pageSize ∧ u * pageSize < seg.stop then some seg.core else none

theorem pagesOf_eq (hstart : seg.start = lo * pageSize) (hstop : seg.stop = hi * pageSize) (u : Nat) :
    pagesOf seg u = if lo ≤ u ∧ u < hi then some seg.core else none := by
  refine if_congr ?_ rfl rfl
  rw [hstart, hstop, Nat.mul_le_mul_right_iff (by decide), Nat.mul_lt_mul_right (by decide)]

section

variable (h : m.Pair p c none) (hstart : seg.start = lo * pageSize)
  (hstop : seg.stop = hi * pageSize) (hlo : lo ≤ hi) (hhi : hi ≤ lowPages)
include h hstart hstop hlo hhi

/-- **`vmm_clone_seg`** on the page tables of a segment of the lower half. When it returns, the test of
`mmu_create_next_entry_and_acquire_lock` was right about all pages, and the pages are cloned. -/
theorem clonePages_spec (hroom : m.Room (k + m.presentIn p lo hi))
    (hdup : ∀ ops seg mem, D.dup ops seg mem = .ok mem)
    (hrun : Vmm.ClonesPages paging D p c seg newSeg m m') :
    m.Chained p lo hi ∧ Clones m m' p c (pagesOf seg) ∧ m'.Room k := by
  obtain ⟨entry, m1, m2, m3, hloop, hrelease, hprotect, hcall⟩ := hrun
  rw [hstart] at hloop
  obtain ⟨hchained, hpair, hcopies, hroom'⟩ :=
    cloneLoop_spec hstop hhi hrelease hlo h (.inl ⟨rfl, rfl⟩) hroom hloop
  obtain ⟨m4, hprotect', hprot⟩ := cloneProtect_spec hpair hstart hstop hlo hhi
  cases hprotect'.symm.trans hprotect
  obtain rfl : m3 = m' := by
    unfold vmmCall at hcall
    split at hcall
    · exact Except.ok.inj ((hdup _ _ _).symm.trans hcall)
    exact Except.ok.inj hcall
  have hlocks : SameLocks m2 m3 256 p := fun _ _ _ => by rw [hprot.locked]
  have hfree : m3.FreeUnlocked := by
    rw [FreeUnlocked, hprot.refCount, hprot.locked]
    exact hpair.child.free
  obtain ⟨hchild, hagree, htables, hd⟩ := hpair.child.frame hprot.tree hlocks hfree
    fun f hf hf' => hpair.apart f hf' hf
  have hparent : m3.Space 256 p := by
    refine ⟨hprot.tree.owns, fun f hf => ?_, hfree⟩
    rw [hprot.tables] at hf
    rw [hprot.locked]
    exact hpair.parent.lock f hf
  refine ⟨hchained, ⟨⟨hparent, hchild, fun f hf hf' => hd f hf' hf, by rw [hprot.locked]; exact hpair.only⟩,
    fun u hu => ?_, fun u hu => ?_, hprot.tables.trans hcopies.tables, fun f hf => ?_, fun f hf => ?_,
    fun a ha hp hc => ?_⟩, ?_⟩
  · rw [hprot.leaf u hu, hcopies.parent u hu, pagesOf_eq hstart hstop]
    by_cases hin : lo ≤ u ∧ u < hi
    · rw [if_pos hin, elim_some, show clonedParent seg.core = clonedParent seg from rfl,
        clonedParent]
      by_cases hprivate : HasFlag seg.flags vmmFlagPrivate
      · exact if_congr (by simp [hprivate, hin]) rfl rfl
      rw [if_neg hprivate, if_neg (by omega), if_neg fun hc => hprivate hc.2]
    rw [if_neg hin, elim_none, if_neg]
    split <;> omega
  · rw [leaf_of_agree hpair.child.owns.aligned hpair.child.owns.entries hagree (digit_of_lowPages hu),
      hcopies.child u hu, pagesOf_eq hstart hstop]
    by_cases hin : lo ≤ u ∧ u < hi
    · rw [if_pos hin, elim_some]
      exact if_congr (by simp [hin]) rfl rfl
    rw [if_neg hin, elim_none, if_neg (by omega)]
  · rw [htables] at hf
    exact hcopies.new f hf
  · rw [hprot.refCount]
    exact hcopies.used f hf
  · rw [hprot.tree.frame a (by rwa [hcopies.tables]) (hcopies.used _ ha), hcopies.word a ha hc]
  rw [Room, hprot.refCount]
  exact hroom'

/-- **`vmm_clone_seg`** succeeds on the page tables of a segment of the lower half, if there is memory
for the tables and the test is right about all pages. -/
theorem clonePages_total (hchained : m.Chained p lo hi) (hroom : m.Room (m.presentIn p lo hi))
    (hsup : m.Supplies (k + 3 * m.presentIn p lo hi))
    (hdup : ∀ ops seg mem, D.dup ops seg mem = .ok mem) (newSeg : VmmSeg) :
    ∃ m', Vmm.ClonesPages paging D p c seg newSeg m m' ∧ m'.Supplies k := by
  have hlow : lowPages < 512 ^ 4 := by decide
  obtain ⟨entry, m1, m2, hloop, hrelease, hsup2⟩ : ∃ entry m1 m2,
      vmmCloneLoop paging p c seg (Vmm.cloneProt seg) mmuRounds (lo * pageSize) none 0 m =
        .ok (.ok entry, m1) ∧ vmmEntryRelease paging entry m1 = .ok m2 ∧ m2.Supplies k :=
    cloneLoop_total hstop hhi hlo (by rw [mmuRounds]; omega) h (.inl ⟨rfl, rfl⟩)
      (fun hne => absurd rfl hne) hchained hroom hsup
  have hroom' : m.Room (0 + m.presentIn p lo hi) := by rwa [zero_add]
  obtain ⟨-, hpair, -⟩ := cloneLoop_spec hstop hhi hrelease hlo h (.inl ⟨rfl, rfl⟩) hroom' hloop
  obtain ⟨m3, hprotect, hprot⟩ := cloneProtect_spec hpair hstart hstop hlo hhi
  refine ⟨m3, ⟨entry, m1, m2, m3, by rw [hstart]; exact hloop, hrelease, hprotect, ?_⟩,
    hsup2.congr le_rfl hprot.pages hprot.refCount⟩
  unfold vmmCall
  split
  · exact hdup ..
  rfl

end

end Segment

end PhysMem

end Stanix
