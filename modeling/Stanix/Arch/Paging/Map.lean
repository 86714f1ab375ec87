import Stanix.Arch.Paging.Search

/-!
# Entries one after the other

The loops that map pages ask for the entry of one page after the other and keep the lock of the table
they are in. `mmu_create_next_entry_and_acquire_lock` moves from the entry of one page to that of a
later one (`createNext_spec`), provided that the two addresses are in one table or differ in the bit
it looks at (`SameTableTest`); for consecutive pages that is always so. `mmu_map_pages` then maps the
pages of its range and no other (`mapPagesLoop_spec`).
-/

namespace Stanix

open Function PageTable Exec Option

variable {s s' : PhysMem} {n root a b e v : Nat} {entry : Option Nat} {f l t : Nat}

/-! ## The lock that a loop keeps -/

/-- The memory holds a space, and of its tables the one of the given entry is locked and no other. -/
structure PhysMem.Holding (s : PhysMem) (n root : Nat) (entry : Option Nat) : Prop where
  owns : s.Owns n 3 root
  lock : ∀ f ∈ tables s.word n 3 root, s.locked f = true ↔ ∃ e, entry = some e ∧ f = pageAlignDown e
  free : s.FreeUnlocked

/-- The memory holds a space with no table locked. -/
abbrev PhysMem.Space (s : PhysMem) (n root : Nat) : Prop := s.Holding n root none

/-- Of the pages in use, only the tables have changed their locks. -/
def SameLocks (s s' : PhysMem) (n root : Nat) : Prop :=
  ∀ f, s.refCount f ≠ 0 → f ∉ tables s.word n 3 root → s'.locked f = s.locked f

theorem PhysMem.Holding.unlocked (h : s.Space n root) (hf : f ∈ tables s.word n 3 root) :
    s.locked f = false := by
  rw [← Bool.not_eq_true, h.lock f hf]
  rintro ⟨e, he, -⟩
  cases he

theorem Extends.free_of_free (h : Extends s s' n l t) {p : Nat} (hp : s'.refCount p = 0) :
    s.refCount p = 0 := by
  by_contra h0
  rw [h.count p h0] at hp
  exact h0 hp

theorem Extends.not_mem (h : Extends s s' n l t) (hc : s.refCount f ≠ 0)
    (hf : f ∉ tables s.word n l t) : f ∉ tables s'.word n l t :=
  fun hf' => (h.new f hf').elim hf hc

theorem SameLocks.trans {s'' : PhysMem} (h : SameLocks s s' n root) (he : Extends s s' n 3 root)
    (h' : SameLocks s' s'' n root) : SameLocks s s'' n root := by
  intro f hc hf
  rw [h' f (by rw [he.count f hc]; exact hc) (he.not_mem hc hf), h f hc hf]

/-- `mmu_create_entry_and_acquire_lock` from a space without locks: of all pages it locks the table of
the entry that it returns, and no other. -/
theorem createEntry_locks (h : s.Space n root) (hv : a / pageSize / 512 ^ 3 % 512 < n) :
    ∃ r s', mmuCreateEntryAndAcquireLock s root a = .ok (r, s') ∧ Grows s s' n 3 root ∧
      (∀ e, r = some e → walk s'.word 3 root (a / pageSize) = some e ∧
        s'.locked = update s.locked (pageAlignDown e) true) ∧
      (r = none → s'.locked = s.locked) ∧
      ∀ k, s.Supplies (k + 3) → r ≠ none ∧ s'.Supplies k := by
  have hroot : root ∈ tables s.word n 3 root := mem_tables_self
  have hunlocked := h.unlocked hroot
  set s1 : PhysMem := { s with locked := update s.locked root true } with hs1
  have ho1 : s1.Owns n 3 root := h.owns.congr rfl rfl
  have hlock1 : s1.LockedAt n 3 root := by
    refine ⟨update_self .., fun f hf hne => ?_, fun p hp => ?_⟩
    · exact (update_of_ne hne _ _).trans (h.unlocked hf)
    have hne : p ≠ root := by rintro rfl; exact h.owns.used p hroot hp
    exact (update_of_ne hne _ _).trans (h.free p hp)
  obtain ⟨r, s', hrun, hg, hsome, hnone, hsup⟩ := createFrom_spec ho1 hv hlock1
  have hback : update s1.locked root false = s.locked := by
    rw [update_idem, update_eq_self_iff.2 hunlocked.symm]
  rw [hback] at hsome hnone
  have hgrows1 : Grows s s1 n 3 root := .of_eq h.owns rfl rfl
  refine ⟨r, s', ?_, hgrows1.trans hg, hsome, hnone, hsup⟩
  rw [mmuCreateEntryAndAcquireLock, pmmAcquirePageLock_of hunlocked]
  exact hrun

/-- **`mmu_create_entry_and_acquire_lock`** -/
theorem createEntry_spec (h : s.Space n root) (hv : a / pageSize / 512 ^ 3 % 512 < n) :
    ∃ r s', mmuCreateEntryAndAcquireLock s root a = .ok (r, s') ∧ Grows s s' n 3 root ∧
      s'.Holding n root r ∧ SameLocks s s' n root ∧
      (∀ e, r = some e → walk s'.word 3 root (a / pageSize) = some e) ∧
      ∀ k, s.Supplies (k + 3) → r ≠ none ∧ s'.Supplies k := by
  obtain ⟨r, s', hrun, hg, hsome, hnone, hsup⟩ := createEntry_locks h hv
  refine ⟨r, s', hrun, hg, ⟨hg.owns, fun f hf => ?_, fun p hp => ?_⟩,
    fun f hc hf => ?_, fun e he => (hsome e he).1, hsup⟩
  · have hold : s.locked f = false := (hg.new f hf).elim h.unlocked (h.free f)
    cases r with
    | none => rw [hnone rfl, hold]; simp
    | some e =>
      rw [(hsome e rfl).2]
      by_cases hfe : f = pageAlignDown e <;> simp [hfe, hold]
  · have hfree := hg.free_of_free hp
    cases r with
    | none => rw [hnone rfl]; exact h.free p hfree
    | some e =>
      have hne : p ≠ pageAlignDown e := by
        rintro rfl
        exact hg.owns.used _ (walk_mem hg.owns.aligned hv (hsome e rfl).1) hp
      rw [(hsome e rfl).2, update_of_ne hne]
      exact h.free p hfree
  cases r with
  | none => rw [hnone rfl]
  | some e =>
    rw [(hsome e rfl).2, update_of_ne]
    rintro rfl
    exact hg.not_mem hc hf (walk_mem hg.owns.aligned hv (hsome e rfl).1)

/-- **`mmu_entry_release_lock`** -/
theorem releaseLock_spec (h : s.Holding n root (some e))
    (he : pageAlignDown e ∈ tables s.word n 3 root) :
    ∃ s', mmuEntryReleaseLock s e = .ok s' ∧ s'.word = s.word ∧ s'.refCount = s.refCount ∧
      s'.pages = s.pages ∧ s'.Space n root ∧ SameLocks s s' n root := by
  have hlocked := (h.lock _ he).2 ⟨e, rfl, rfl⟩
  refine ⟨_, pmmReleasePageLock_of hlocked, rfl, rfl, rfl,
    ⟨h.owns.congr rfl rfl, fun f hf => ?_, fun p hp => ?_⟩, fun f _ hf => ?_⟩
  · show update s.locked (pageAlignDown e) false f = true ↔ _
    rw [update_apply]
    split
    · simp
    next hne =>
    rw [h.lock f hf]
    simp [hne]
  · show update s.locked (pageAlignDown e) false p = false
    rw [update_apply]
    split
    · rfl
    exact h.free p hp
  refine update_of_ne ?_ _ _
  rintro rfl
  exact hf he

theorem PhysMem.Holding.setWord (h : s.Holding n root entry) (hv : v / 512 ^ 3 % 512 < n)
    (he : walk s.word 3 root v = some e) (x : BitVec 64) : (s.setWord e x).Holding n root entry := by
  have hsame := h.owns.apart.sameShape_update h.owns.aligned h.owns.entries hv he x
  refine ⟨(Extends.setWord h.owns hv he x).owns, fun f hf => h.lock f ?_, h.free⟩
  rw [← hsame.tables]
  exact hf

/-! ## From one entry to the next -/

/-- The test of `mmu_create_next_entry_and_acquire_lock` is right about two addresses: they agree in
bit 21 only if they are in one table. -/
def SameTableTest (b a : Nat) : Prop := a / 2 ^ 21 = b / 2 ^ 21 ∨ a / 2 ^ 21 % 2 ≠ b / 2 ^ 21 % 2
  deriving Decidable

theorem and_table_size_eq_iff (a b : Nat) :
    a &&& (pagingEntriesPerLevel * pageSize) = b &&& (pagingEntriesPerLevel * pageSize) ↔
      a / 2 ^ 21 % 2 = b / 2 ^ 21 % 2 := by
  have hsize : pagingEntriesPerLevel * pageSize = 2 ^ 21 := by decide
  rw [hsize, Nat.and_two_pow, Nat.and_two_pow, Nat.testBit_eq_decide_div_mod_eq, Nat.testBit_eq_decide_div_mod_eq]
  have ha := Nat.mod_two_eq_zero_or_one (a / 2 ^ 21)
  have hb := Nat.mod_two_eq_zero_or_one (b / 2 ^ 21)
  rcases ha with ha | ha <;> rcases hb with hb | hb <;> rw [ha, hb] <;> decide

theorem PageTable.walk_same_table {w : Nat → BitVec 64} {v v' : Nat} (ht : t % pageSize = 0)
    (hv : v' / 512 = v / 512) (h : walk w l t v = some e) :
    ∃ table, table % pageSize = 0 ∧ e = tableEntry table (v % 512) ∧
      walk w l t v' = some (tableEntry table (v' % 512)) := by
  induction l generalizing t with
  | zero =>
    exact ⟨t, ht, (some.inj h).symm, rfl⟩
  | succ l ih => ?_
  have hdigit : v' / 512 ^ (l + 1) = v / 512 ^ (l + 1) := by
    rw [pow_succ', ← Nat.div_div_eq_div_mul, ← Nat.div_div_eq_div_mul, hv]
  simp only [walk, hdigit] at h ⊢
  split at h
  · next hp =>
    rw [if_pos hp]
    exact ih (entryAddress_spec _).1 h
  cases h

section

variable (h : s.Holding n root entry) (ha : a % pageSize = 0)
  (hv : a / pageSize / 512 ^ 3 % 512 < n)
  (hold : ∀ e, entry = some e → b % pageSize = 0 ∧ b / pageSize / 512 ^ 3 % 512 < n ∧ walk s.word 3 root (b / pageSize) = some e ∧ SameTableTest b a)
include h ha hv hold

/-- **`mmu_create_next_entry_and_acquire_lock`**, where its test is right. -/
theorem createNext_spec :
    ∃ r s', mmuCreateNextEntryAndAcquireLock s root a entry b = .ok (r, s') ∧
      Grows s s' n 3 root ∧ s'.Holding n root r ∧ SameLocks s s' n root ∧
      (∀ e, r = some e → walk s'.word 3 root (a / pageSize) = some e) ∧
      ∀ k, s.Supplies (k + 3) → r ≠ none ∧ s'.Supplies k := by
  cases entry with
  | none => exact createEntry_spec h hv
  | some e => ?_
  obtain ⟨hb, hvb, hwalk, htest⟩ := hold e rfl
  simp only [mmuCreateNextEntryAndAcquireLock, and_table_size_eq_iff]
  by_cases hbit : a / 2 ^ 21 % 2 = b / 2 ^ 21 % 2
  · have htable : a / pageSize / 512 = b / pageSize / 512 := by
      have := htest.resolve_right (not_not.2 hbit)
      simp only [Nat.div_div_eq_div_mul]
      exact this
    obtain ⟨table, haligned, rfl, hwalk'⟩ := walk_same_table h.owns.aligned htable hwalk
    have hentry : (if a > b then tableEntry table (b / pageSize % 512) + 8 * ((a - b) / pageSize)
        else tableEntry table (b / pageSize % 512) - 8 * ((b - a) / pageSize)) =
        tableEntry table (a / pageSize % 512) := by
      simp only [tableEntry, pageSize] at *
      split <;> omega
    have hlock : s.Holding n root (some (tableEntry table (a / pageSize % 512))) := by
      refine ⟨h.owns, fun f hf => ?_, h.free⟩
      rw [h.lock f hf]
      simp only [some.injEq, exists_eq_left',
        pageAlignDown_tableEntry haligned (Nat.mod_lt _ (by decide))]
    refine ⟨some (tableEntry table (a / pageSize % 512)), s, ?_, .of_eq h.owns rfl rfl, hlock,
      fun _ _ _ => rfl, fun e he => ?_, fun k hk => ⟨by simp, ?_⟩⟩
    · rw [if_pos hbit, ← hentry]
      split <;> rfl
    · rw [← some.inj he]
      exact hwalk'
    exact hk.congr (by omega) rfl rfl
  rw [if_neg hbit]
  obtain ⟨s1, hrun1, hw, hc, hp, hspace, hsame⟩ :=
    releaseLock_spec h (walk_mem h.owns.aligned hvb hwalk)
  obtain ⟨r, s', hrun, hg, hhold, hlocks, hr, hsup⟩ := createEntry_spec hspace hv
  have hg1 : Grows s s1 n 3 root := .of_eq h.owns hw hc
  refine ⟨r, s', ?_, hg1.trans hg, hhold, hsame.trans hg1.toExtends hlocks, hr,
    fun k hk => hsup k (hk.congr le_rfl hp hc)⟩
  rw [hrun1]
  exact hrun

/-- Of all pages, `mmu_create_next_entry_and_acquire_lock` leaves the table of its entry locked, where
its test is right, and pages that were locked and are not the table of the old entry. -/
theorem createNext_locked {r : Option Nat}
    (hrun : mmuCreateNextEntryAndAcquireLock s root a entry b = .ok (r, s'))
    (hf : s'.locked f = true) : (∃ e, r = some e ∧ f = pageAlignDown e) ∨
      s.locked f = true ∧ ∀ e, entry = some e → f ≠ pageAlignDown e := by
  have hcreate {s1 : PhysMem} (h1 : s1.Space n root)
      (hrun : mmuCreateEntryAndAcquireLock s1 root a = .ok (r, s')) :
      (∃ e, r = some e ∧ f = pageAlignDown e) ∨ s1.locked f = true := by
    obtain ⟨r', s2, hrun', -, hsome, hnone, -⟩ := createEntry_locks h1 hv
    cases hrun'.symm.trans hrun
    cases r with
    | none => rw [hnone rfl] at hf; exact .inr hf
    | some e =>
      rw [(hsome e rfl).2, update_apply] at hf
      split at hf
      · next hfe => exact .inl ⟨e, rfl, hfe⟩
      exact .inr hf
  cases entry with
  | none => exact (hcreate h hrun).imp_right fun hl => ⟨hl, nofun⟩
  | some e => ?_
  obtain ⟨hb, hvb, hwalk, htest⟩ := hold e rfl
  have hmem := walk_mem h.owns.aligned hvb hwalk
  simp only [mmuCreateNextEntryAndAcquireLock, and_table_size_eq_iff] at hrun
  split at hrun
  · next hbit =>
    obtain rfl : s = s' := by split at hrun <;> cases hrun <;> rfl
    obtain ⟨r', s1, hrun', hg, hhold, -⟩ := createNext_spec h ha hv hold
    obtain ⟨rfl, rfl⟩ : r = r' ∧ s = s1 := by
      simp only [mmuCreateNextEntryAndAcquireLock, and_table_size_eq_iff, if_pos hbit] at hrun'
      cases hrun.symm.trans hrun'
      exact ⟨rfl, rfl⟩
    by_cases hfe : f = pageAlignDown e
    · rw [hfe] at hf ⊢
      exact .inl ((hhold.lock _ hmem).1 hf)
    exact .inr ⟨hf, fun e' he' => some.inj he' ▸ hfe⟩
  obtain ⟨s1, hrelease, hrun⟩ := bind_eq_ok.1 hrun
  obtain ⟨s2, hrelease', -, -, -, hspace, -⟩ := releaseLock_spec h hmem
  cases hrelease.symm.trans hrelease'
  refine (hcreate hspace hrun).imp_right fun hl => ?_
  have hs1 := pmmReleasePageLock_of ((h.lock _ hmem).2 ⟨e, rfl, rfl⟩)
  cases hs1.symm.trans hrelease
  have hl : update s.locked (pageAlignDown e) false f = true := hl
  rw [update_apply] at hl
  split at hl
  · cases hl
  next hne => exact ⟨hl, fun e' he' => some.inj he' ▸ hne⟩

end

/-- The test is right about consecutive pages: they are in two tables exactly where the bit
changes. -/
theorem sameTableTest_succ (hb : b % pageSize = 0) : SameTableTest b (b + pageSize) := by
  simp only [SameTableTest, pageSize] at *
  omega

/-! ## Reference counts of new tables -/

section Count

variable {r : Option Nat} {l t : Nat} {page : Nat}

theorem mmuNextTable_count (h : mmuNextTable s e = (r, s')) (f : Nat) :
    s'.refCount f = s.refCount f ∨ s'.refCount f = 1 := by
  unfold mmuNextTable at h
  by_cases hp : Present (s.word e)
  · simp only [if_pos hp] at h
    cases h
    exact .inl rfl
  simp only [if_neg hp] at h
  obtain ⟨-, pages, ⟨-, halloc⟩ | ⟨page, -, -, halloc⟩, -⟩ := pmmAllocatePage_spec s
  · rw [halloc] at h
    cases h
    exact .inl rfl
  rw [halloc] at h
  cases h
  by_cases hf : f = page
  · exact .inr (hf ▸ update_self ..)
  exact .inl (update_of_ne hf ..)

theorem pmmAcquirePageLock_count (h : pmmAcquirePageLock s page = .ok s') :
    s'.refCount = s.refCount := by
  unfold pmmAcquirePageLock at h
  split at h <;> cases h
  rfl

theorem pmmReleasePageLock_count (h : pmmReleasePageLock s page = .ok s') :
    s'.refCount = s.refCount := by
  obtain ⟨_, _, h⟩ := bind_eq_ok.1 h
  cases h
  rfl

theorem createFrom_count (h : mmuCreateEntryFrom a l t s = .ok (r, s')) (f : Nat) :
    s'.refCount f = s.refCount f ∨ s'.refCount f = 1 := by
  induction l generalizing t s with
  | zero =>
    cases h
    exact .inl rfl
  | succ l ih => ?_
  rw [mmuCreateEntryFrom] at h
  rcases hnext : mmuNextTable s (tableEntry t (pagingLevelIndex (l + 1) a)) with ⟨sub, s1⟩
  rw [hnext] at h
  have hcount := mmuNextTable_count hnext f
  cases sub with
  | none =>
    obtain ⟨s2, hrelease, h⟩ := bind_eq_ok.1 h
    cases h
    rw [pmmReleasePageLock_count hrelease]
    exact hcount
  | some sub => ?_
  obtain ⟨s2, hacquire, h⟩ := bind_eq_ok.1 h
  obtain ⟨s3, hrelease, h⟩ := bind_eq_ok.1 h
  have hsame := (pmmReleasePageLock_count hrelease).trans (pmmAcquirePageLock_count hacquire)
  rcases ih h with ih | ih
  · rw [ih, hsame]
    exact hcount
  exact .inr ih

theorem createNext_count (h : mmuCreateNextEntryAndAcquireLock s root a entry b = .ok (r, s'))
    (f : Nat) : s'.refCount f = s.refCount f ∨ s'.refCount f = 1 := by
  have hcreate {s1 : PhysMem} (h : mmuCreateEntryAndAcquireLock s1 root a = .ok (r, s')) :
      s'.refCount f = s1.refCount f ∨ s'.refCount f = 1 := by
    obtain ⟨s2, hacquire, h⟩ := bind_eq_ok.1 h
    rw [← pmmAcquirePageLock_count hacquire]
    exact createFrom_count h f
  unfold mmuCreateNextEntryAndAcquireLock at h
  cases entry with
  | none => exact hcreate h
  | some e => ?_
  dsimp only at h
  split at h
  · split at h <;> cases h <;> exact .inl rfl
  obtain ⟨s1, hrelease, h⟩ := bind_eq_ok.1 h
  rw [← pmmReleasePageLock_count hrelease]
  exact hcreate h

end Count

/-! ## Consecutive pages mapped -/

theorem PhysMem.Holding.store (h : s.Holding n root entry) (hv : v / 512 ^ 3 % 512 < n)
    (he : walk s.word 3 root v = some e) (x : BitVec 64) :
    Extends s (s.setWord e x) n 3 root ∧ walk (s.setWord e x).word 3 root v = some e ∧
      ∀ v', v' / 512 ^ 3 % 512 < n → leaf (s.setWord e x).word 3 root v' =
        if v' % 512 ^ 4 = v % 512 ^ 4 then x else leaf s.word 3 root v' :=
  ⟨.setWord h.owns hv he x,
    ((h.owns.apart.sameShape_update h.owns.aligned h.owns.entries hv he x).walk v hv).trans he,
    fun _ hv' => h.owns.apart.leaf_update h.owns.aligned h.owns.entries hv he x hv'⟩

section Round

variable {flags : BitVec 64} {start left paddr : Nat}

/-- A round of the loop of `mmu_map_pages` that has no memory for a table. -/
theorem mapPagesLoop_none
    (h : mmuCreateNextEntryAndAcquireLock s root a entry (wrapSub a pageSize) = .ok (none, s')) :
    mmuMapPagesLoop paging root flags start (left + 1) a paddr entry s =
      (do
        let s ← mmuUnmapPages paging s' root start (wrapSub a start)
        return (some .nomem, s)) := by
  rw [mmuMapPagesLoop, paging_createNext, h]
  rfl

/-- A round of the loop of `mmu_map_pages` that maps its page. -/
theorem mapPagesLoop_some
    (h : mmuCreateNextEntryAndAcquireLock s root a entry (wrapSub a pageSize) = .ok (some e, s')) :
    mmuMapPagesLoop paging root flags start (left + 1) a paddr entry s =
      mmuMapPagesLoop paging root flags start left (wrap (a + pageSize))
        (wrap (paddr + pageSize)) (some e) (s'.setWord e (mapValue paddr flags)) := by
  rw [mmuMapPagesLoop, paging_createNext, h]
  rfl

end Round

/-- **The loop of `mmu_map_pages`** from a page on. When it succeeds, the pages that were left have
the values they should have and no other page has changed; it succeeds if there is memory for the
tables. -/
theorem mapPagesLoop_spec {flags : BitVec 64} {start left paddr : Nat}
    (h : s.Holding n root entry) (ha : a % pageSize = 0) (hlt : a + left * pageSize ≤ 2 ^ 64)
    (hn : a / pageSize % 512 ^ 4 + left ≤ n * 512 ^ 3) (hp : paddr + left * pageSize ≤ 2 ^ 52)
    (hold : ∀ e, entry = some e → ∃ u, u / 512 ^ 3 % 512 < n ∧ walk s.word 3 root u = some e ∧
      (left = 0 ∨ a / pageSize = u + 1)) :
    (∀ s', mmuMapPagesLoop paging root flags start left a paddr entry s = .ok (none, s') →
      s'.Space n root ∧ ∀ v, v / 512 ^ 3 % 512 < n → leaf s'.word 3 root v =
        if a / pageSize % 512 ^ 4 ≤ v % 512 ^ 4 ∧ v % 512 ^ 4 < a / pageSize % 512 ^ 4 + left then
          mapValue (paddr + (v % 512 ^ 4 - a / pageSize % 512 ^ 4) * pageSize) flags
        else leaf s.word 3 root v) ∧
    ∀ k, s.Supplies (k + 3 * left) → ∃ s',
      mmuMapPagesLoop paging root flags start left a paddr entry s = .ok (none, s') ∧
        s'.Supplies k := by
  induction left generalizing a paddr entry s with
  | zero =>
    have hnone (v : Nat) : ¬ (a / pageSize % 512 ^ 4 ≤ v % 512 ^ 4 ∧
        v % 512 ^ 4 < a / pageSize % 512 ^ 4 + 0) := by omega
    cases entry with
    | none =>
      refine ⟨fun s' hrun => ?_, fun k hk => ⟨s, rfl, hk⟩⟩
      obtain ⟨-, rfl⟩ := hrun
      exact ⟨h, fun v _ => (if_neg (hnone v)).symm⟩
    | some e => ?_
    obtain ⟨u, hdigit, hwalk, -⟩ := hold e rfl
    obtain ⟨s1, hrun1, hw, hc, hpg, hspace, -⟩ :=
      releaseLock_spec h (walk_mem h.owns.aligned hdigit hwalk)
    have hloop : mmuMapPagesLoop paging root flags start 0 a paddr (some e) s = .ok (none, s1) := by
      rw [mmuMapPagesLoop, paging_entryReleaseLock, hrun1]
      rfl
    rw [hloop]
    refine ⟨fun s' hrun => ?_, fun k hk => ⟨s1, rfl, hk.congr le_rfl hpg hc⟩⟩
    obtain ⟨-, rfl⟩ := hrun
    refine ⟨hspace, fun v _ => ?_⟩
    rw [if_neg (hnone v), hw]
  | succ left ih => ?_
  set q := a / pageSize % 512 ^ 4 with hq
  have hn512 := h.owns.entries
  have hdigit : a / pageSize / 512 ^ 3 % 512 < n := by omega
  obtain ⟨r, s1, hrun, hg, hhold, -, hr, hsup⟩ :=
    createNext_spec (b := wrapSub a pageSize) h ha hdigit fun e he => by
      obtain ⟨u, hu, hwalk, hleft⟩ := hold e he
      have hb : wrapSub a pageSize = u * pageSize := by
        rw [wrapSub_of_le] <;> simp only [pageSize] at * <;> omega
      have hau : a = u * pageSize + pageSize := by simp only [pageSize] at *; omega
      have hpage : u * pageSize / pageSize = u := Nat.mul_div_cancel _ (by decide)
      refine ⟨by rw [hb, Nat.mul_mod_left], by rw [hb, hpage]; exact hu,
        by rw [hb, hpage]; exact hwalk, ?_⟩
      rw [hb, hau]
      exact sameTableTest_succ (Nat.mul_mod_left ..)
  cases r with
  | none =>
    rw [mapPagesLoop_none hrun]
    refine ⟨fun s' hs' => ?_, fun k hk => ?_⟩
    · obtain ⟨s2, -, hret⟩ := bind_eq_ok.1 hs'
      cases hret
    exact absurd rfl (hsup (k + 3 * left) (hk.congr (by omega) rfl rfl)).1
  | some e => ?_
  rw [mapPagesLoop_some hrun]
  have hwalk := hr e rfl
  obtain ⟨-, hwalk2, hleaf⟩ := hhold.store hdigit hwalk (mapValue paddr flags)
  have hpaddr : wrap (paddr + pageSize) = paddr + pageSize :=
    wrap_of_lt (by simp only [pageSize] at *; omega)
  have hnext : left = 0 ∨ wrap (a + pageSize) = a + pageSize ∧
      wrap (a + pageSize) / pageSize % 512 ^ 4 = q + 1 := by
    rcases Nat.eq_zero_or_pos left with h0 | hpos
    · exact .inl h0
    have : wrap (a + pageSize) = a + pageSize := wrap_of_lt (by simp only [pageSize] at *; omega)
    refine .inr ⟨this, ?_⟩
    simp only [pageSize] at *
    omega
  have hend : wrap (a + pageSize) + left * pageSize ≤ 2 ^ 64 ∧
      wrap (a + pageSize) / pageSize % 512 ^ 4 + left ≤ n * 512 ^ 3 := by
    rcases hnext with rfl | ⟨h1, h2⟩
    · simp only [wrap, pageSize] at *
      omega
    simp only [pageSize] at *
    omega
  have hpend : paddr + pageSize + left * pageSize ≤ 2 ^ 52 := by
    simp only [pageSize] at *
    omega
  obtain ⟨hmap, hmem⟩ := ih (hhold.setWord hdigit hwalk (mapValue paddr flags))
    (by simp only [wrap, pageSize] at *; omega) hend.1 hend.2 hpend fun e' he' => by
      cases he'
      refine ⟨a / pageSize, hdigit, hwalk2, ?_⟩
      rcases hnext with h0 | ⟨h1, -⟩
      · exact .inl h0
      rw [h1, Nat.add_div_right _ (by decide)]
      exact .inr rfl
  rw [hpaddr]
  refine ⟨fun s' hs' => ?_, fun k hk => ?_⟩
  · obtain ⟨hspace, hleaf'⟩ := hmap s' hs'
    refine ⟨hspace, fun v hv => ?_⟩
    rw [hleaf' v hv, hleaf v hv, hg.leaf v hv]
    by_cases hvq : v % 512 ^ 4 = q
    · grind
    rw [if_neg hvq]
    by_cases hin : q ≤ v % 512 ^ 4 ∧ v % 512 ^ 4 < q + (left + 1)
    · have hq' := (hnext.resolve_left (by omega)).2
      have hsplit : v % 512 ^ 4 - q = v % 512 ^ 4 - (q + 1) + 1 := by omega
      rw [if_pos hin, hq', if_pos (by omega), hsplit, add_mul, one_mul,
        add_assoc, add_comm pageSize]
    rw [if_neg hin, if_neg]
    omega
  obtain ⟨-, hs1⟩ := hsup (k + 3 * left) (hk.congr (by omega) rfl rfl)
  exact hmem k (hs1.congr le_rfl rfl rfl)

end Stanix
