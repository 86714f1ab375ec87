import Stanix.Arch.Paging.Table

/-!
# Creation of page tables

`mmu_create_entry_and_acquire_lock` walks down to the entry of a page, hand over hand through the
locks of the tables, and allocates the tables that are missing. It changes no value of a page
(`Grows`), and it leaves the last table locked and no other (`createFrom_spec`).
-/

namespace Stanix

open Function PageTable List Option

variable {s s' s'' : PhysMem} {n l t v i e a page : Nat}

/-! ## Memories with a tree of tables -/

/-- The memory holds a tree of tables, all different pages in use, below the first `n` entries of
the table `t`. -/
structure PhysMem.Owns (s : PhysMem) (n l t : Nat) : Prop where
  aligned : t % pageSize = 0
  entries : n ≤ 512
  apart : Apart s.word n l t
  used : ∀ f ∈ tables s.word n l t, s.refCount f ≠ 0

/-- Free pages are not locked. -/
def PhysMem.FreeUnlocked (s : PhysMem) : Prop := ∀ p, s.refCount p = 0 → s.locked p = false

/-- The page allocator will answer with at least `k` free pages, one after the other. -/
def PhysMem.Supplies (s : PhysMem) (k : Nat) : Prop :=
  ∃ (ps : List Nat) (rest : List (Option Nat)), s.pages = ps.map some ++ rest ∧ k ≤ ps.length ∧
    ps.Nodup ∧ ∀ p ∈ ps, s.Free p

theorem PhysMem.Supplies.congr {s s' : PhysMem} {k k' : Nat} (h : s.Supplies k) (hk : k' ≤ k)
    (hp : s'.pages = s.pages) (hc : s'.refCount = s.refCount) : s'.Supplies k' := by
  obtain ⟨ps, rest, h1, h2, h3, h4⟩ := h
  refine ⟨ps, rest, hp.trans h1, hk.trans h2, h3, fun p hp' => ?_⟩
  obtain ⟨g1, g2, g3⟩ := h4 p hp'
  exact ⟨g1, g2, by rw [hc, g3]⟩

/-- What is not below the table `t` is as before: no page in use that is not one of the tables has
changed, nor has a reference count of a page in use, and the tables that are new were free. -/
structure Extends (s s' : PhysMem) (n l t : Nat) : Prop where
  owns : s'.Owns n l t
  new : ∀ f ∈ tables s'.word n l t, f ∈ tables s.word n l t ∨ s.refCount f = 0
  count : ∀ f, s.refCount f ≠ 0 → s'.refCount f = s.refCount f
  frame : ∀ a, pageAlignDown a ∉ tables s.word n l t → s.refCount (pageAlignDown a) ≠ 0 →
    s'.word a = s.word a

/-- The tree has grown by empty tables: no page has another value. -/
structure Grows (s s' : PhysMem) (n l t : Nat) : Prop extends Extends s s' n l t where
  leaf : ∀ v, v / 512 ^ l % 512 < n → leaf s'.word l t v = leaf s.word l t v

namespace PhysMem.Owns

theorem child (h : s.Owns n (l + 1) t) (hi : i < n) (hp : Present (s.word (tableEntry t i))) :
    s.Owns 512 l (entryAddress (s.word (tableEntry t i))) :=
  ⟨(entryAddress_spec _).1, le_rfl, (h.apart.1 i hi hp).1,
    fun f hf => h.used f (mem_tables_of_entry hi hp hf)⟩

theorem child_ne (h : s.Owns n (l + 1) t) (hi : i < n) (hp : Present (s.word (tableEntry t i))) :
    entryAddress (s.word (tableEntry t i)) ≠ t := by
  intro heq
  apply (h.apart.1 i hi hp).2
  rw [heq]
  exact mem_tables_self

theorem congr (h : s.Owns n l t) (hw : s'.word = s.word) (hc : s'.refCount = s.refCount) :
    s'.Owns n l t :=
  ⟨h.aligned, h.entries, by rw [hw]; exact h.apart, by rw [hw, hc]; exact h.used⟩

end PhysMem.Owns

namespace Extends

theorem of_eq (h : s.Owns n l t) (hw : s'.word = s.word) (hc : s'.refCount = s.refCount) :
    Extends s s' n l t where
  owns := h.congr hw hc
  new f hf := .inl (by rw [hw] at hf; exact hf)
  count f _ := by rw [hc]
  frame a _ _ := by rw [hw]

theorem trans (h : Extends s s' n l t) (h' : Extends s' s'' n l t) : Extends s s'' n l t where
  owns := h'.owns
  new f hf := by
    rcases h'.new f hf with hf | hf
    · exact h.new f hf
    by_cases h0 : s.refCount f = 0
    · exact .inr h0
    rw [h.count f h0] at hf
    exact absurd hf h0
  count f hf := by
    rw [h'.count f (by rw [h.count f hf]; exact hf), h.count f hf]
  frame a ha hu := by
    have hnot : pageAlignDown a ∉ tables s'.word n l t := fun hf =>
      (h.new _ hf).elim ha hu
    rw [h'.frame a hnot (by rw [h.count _ hu]; exact hu), h.frame a ha hu]

theorem setWord (h : s.Owns n l t) (hv : v / 512 ^ l % 512 < n) (he : walk s.word l t v = some e)
    (x : BitVec 64) : Extends s (s.setWord e x) n l t := by
  have hsame := h.apart.sameShape_update h.aligned h.entries hv he x
  refine ⟨⟨h.aligned, h.entries, hsame.apart h.apart, fun f hf => h.used f ?_⟩,
    fun f hf => .inl ?_, fun _ _ => rfl, fun a ha _ => update_of_ne ?_ _ _⟩
  · rw [← hsame.tables]; exact hf
  · rw [← hsame.tables]; exact hf
  rintro rfl
  exact ha (walk_mem h.aligned hv he)

end Extends

namespace Grows

theorem of_eq (h : s.Owns n l t) (hw : s'.word = s.word) (hc : s'.refCount = s.refCount) :
    Grows s s' n l t :=
  ⟨.of_eq h hw hc, fun v _ => by rw [hw]⟩

theorem trans (h : Grows s s' n l t) (h' : Grows s' s'' n l t) : Grows s s'' n l t :=
  ⟨h.toExtends.trans h'.toExtends, fun v hv => (h'.leaf v hv).trans (h.leaf v hv)⟩

/-- **One entry.** A tree grows when one of its entries gets another tree below it, made of tables that
were there and of free pages, and the trees below the other entries stay. -/
theorem of_entry (ho : s.Owns n (l + 1) t) (hi : i < n)
    (hother : ∀ j < n, i ≠ j → s'.word (tableEntry t j) = s.word (tableEntry t j))
    (hagree : ∀ j < n, i ≠ j → Present (s.word (tableEntry t j)) →
      AgreeOn s.word s'.word (tables s.word 512 l (entryAddress (s.word (tableEntry t j)))))
    (hown : s'.Owns 512 l (entryAddress (s'.word (tableEntry t i))))
    (hnew : ∀ f ∈ tables s'.word 512 l (entryAddress (s'.word (tableEntry t i))), s.refCount f = 0 ∨
      Present (s.word (tableEntry t i)) ∧
        f ∈ tables s.word 512 l (entryAddress (s.word (tableEntry t i))))
    (hcount : ∀ f, s.refCount f ≠ 0 → s'.refCount f = s.refCount f)
    (hframe : ∀ a, pageAlignDown a ∉ tables s.word n (l + 1) t → s.refCount (pageAlignDown a) ≠ 0 →
      s'.word a = s.word a)
    (hleaf : ∀ v, i = v / 512 ^ (l + 1) % 512 →
      PageTable.leaf s'.word (l + 1) t v = PageTable.leaf s.word (l + 1) t v) :
    Grows s s' n (l + 1) t := by
  have hsame (j : Nat) (hj : j < n) (hij : i ≠ j) (hpj : Present (s.word (tableEntry t j))) :
      SameShape s.word s'.word 512 l (entryAddress (s.word (tableEntry t j))) :=
    .of_agree (entryAddress_spec _).1 le_rfl (hagree j hj hij hpj)
  -- a table below the entry is not one of another subtree
  have hapart (j : Nat) (hj : j < n) (hij : i ≠ j) (hpj : Present (s.word (tableEntry t j))) :
      Disjoint (tables s'.word 512 l (entryAddress (s'.word (tableEntry t i))))
        (tables s.word 512 l (entryAddress (s.word (tableEntry t j)))) :=
    Set.disjoint_left.2 fun f hf hf' => (hnew f hf).elim ((ho.child hj hpj).used f hf')
      fun h => (ho.apart.2 i hi j hj hij h.1 hpj).ne_of_mem h.2 hf' rfl
  have hmem (f : Nat) (hf : f ∈ tables s'.word n (l + 1) t) : f ∈ tables s.word n (l + 1) t ∨
      f ∈ tables s'.word 512 l (entryAddress (s'.word (tableEntry t i))) := by
    rcases hf with hf | ⟨j, hj, hpj, hf⟩
    · exact .inl (.inl hf)
    by_cases hij : i = j
    · exact .inr (hij ▸ hf)
    rw [hother j hj hij] at hpj hf
    rw [(hsame j hj hij hpj).tables] at hf
    exact .inl (mem_tables_of_entry hj hpj hf)
  refine ⟨⟨⟨ho.aligned, ho.entries, ⟨fun j hj hpj => ?_, fun j hj k hk hjk hpj hpk => ?_⟩,
    fun f hf => ?_⟩, fun f hf => ?_, hcount, hframe⟩, fun v hv => ?_⟩
  · by_cases hij : i = j
    · subst hij
      exact ⟨hown.apart, fun hf => (hnew t hf).elim (ho.used t mem_tables_self)
        fun h => (ho.apart.1 i hi h.1).2 h.2⟩
    rw [hother j hj hij] at hpj ⊢
    rw [(hsame j hj hij hpj).tables]
    exact ⟨(hsame j hj hij hpj).apart (ho.apart.1 j hj hpj).1, (ho.apart.1 j hj hpj).2⟩
  · by_cases hij : i = j
    · subst hij
      rw [hother k hk hjk] at hpk ⊢
      rw [(hsame k hk hjk hpk).tables]
      exact hapart k hk hjk hpk
    rw [hother j hj hij] at hpj ⊢
    rw [(hsame j hj hij hpj).tables]
    by_cases hik : i = k
    · subst hik
      exact (hapart j hj hij hpj).symm
    rw [hother k hk hik] at hpk ⊢
    rw [(hsame k hk hik hpk).tables]
    exact ho.apart.2 j hj k hk hjk hpj hpk
  · rcases hmem f hf with hf | hf
    · rw [hcount f (ho.used f hf)]
      exact ho.used f hf
    exact hown.used f hf
  · rcases hmem f hf with hf | hf
    · exact .inl hf
    exact (hnew f hf).symm.imp_left fun h => mem_tables_of_entry hi h.1 h.2
  by_cases hij : i = v / 512 ^ (l + 1) % 512
  · exact hleaf v hij
  rw [leaf_succ, hother _ hv hij, leaf_succ]
  split
  · next hpv =>
    exact leaf_of_agree (entryAddress_spec _).1 le_rfl (hagree _ hv hij hpv)
      (Nat.mod_lt _ (by decide))
  rfl

/-- **One level up.** A tree whose subtree below one entry has grown has grown. -/
theorem lift (ho : s.Owns n (l + 1) t) (hi : i < n) (hp : Present (s.word (tableEntry t i)))
    (h : Grows s s' 512 l (entryAddress (s.word (tableEntry t i)))) : Grows s s' n (l + 1) t := by
  have hentry (j : Nat) (hj : j < n) : s'.word (tableEntry t j) = s.word (tableEntry t j) := by
    have hpage := pageAlignDown_tableEntry ho.aligned (hj.trans_le ho.entries)
    exact h.frame _ (by rw [hpage]; exact (ho.apart.1 i hi hp).2)
      (by rw [hpage]; exact ho.used t mem_tables_self)
  refine of_entry ho hi (fun j hj _ => hentry j hj) (fun j hj hij hpj a ha => ?_) ?_ (fun f hf => ?_)
    h.count (fun a ha => h.frame a fun hf => ha (mem_tables_of_entry hi hp hf)) fun v hv => ?_
  · exact h.frame a (fun ha' => (ho.apart.2 i hi j hj hij hp hpj).ne_of_mem ha' ha rfl)
      ((ho.child hj hpj).used _ ha)
  · rw [hentry i hi]
    exact h.owns
  · rw [hentry i hi] at hf
    exact (h.new f hf).symm.imp_right (.intro hp)
  rw [leaf_succ, leaf_succ, ← hv, hentry i hi, if_pos hp, if_pos hp]
  exact h.leaf v (Nat.mod_lt _ (by decide))

end Grows

/-! ## A new table -/

theorem PageTable.zero_table {w : Nat → BitVec 64} {p : Nat} (h : ∀ j < 512, w (tableEntry p j) = 0)
    (hn : n ≤ 512) : tables w n l p = {p} ∧ Apart w n l p ∧ ∀ v, leaf w l p v = 0 := by
  have hp (j : Nat) (hj : j < 512) : ¬ Present (w (tableEntry p j)) := by
    rw [h j hj]; exact not_hasFlag_zero
  have hlt (x : Nat) : x % 512 < 512 := Nat.mod_lt _ (by decide)
  cases l with
  | zero => exact ⟨rfl, trivial, fun v => by rw [leaf_of_walk rfl, h _ (hlt v)]⟩
  | succ l => ?_
  refine ⟨?_, ⟨fun i hi hpi => absurd hpi (hp i (hi.trans_le hn)),
    fun i hi j _ _ hpi => absurd hpi (hp i (hi.trans_le hn))⟩, fun v => ?_⟩
  · ext f
    constructor
    · rintro (hf | ⟨i, hi, hpi, -⟩)
      · exact hf
      exact absurd hpi (hp i (hi.trans_le hn))
    exact .inl
  rw [leaf_succ, if_neg (hp _ (hlt _))]

/-- What `pmm_allocate_page` does. -/
theorem pmmAllocatePage_spec (s : PhysMem) :
    ∃ r pages, (r = none ∧ pmmAllocatePage s = (none, { s with pages := pages }) ∨
      ∃ p, r = some p ∧ s.Free p ∧ pmmAllocatePage s =
        (some p, { s with refCount := update s.refCount p 1, pages := pages })) ∧
      ∀ k, s.Supplies (k + 1) → ∃ p, r = some p ∧
        PhysMem.Supplies { s with refCount := update s.refCount p 1, pages := pages } k := by
  have hnone {pages : List (Option Nat)} (hp : s.pages = pages) (hs : pages = [] ∨ ∃ rest, pages = none :: rest)
      {k : Nat} : ¬ s.Supplies (k + 1) := by
    rintro ⟨ps, rest, hps, hlen, -⟩
    cases ps with
    | nil => simp at hlen
    | cons p ps => rcases hs with rfl | ⟨rest', rfl⟩ <;> simp [hp] at hps
  unfold pmmAllocatePage
  cases hpages : s.pages with
  | nil => exact ⟨none, [], .inl ⟨rfl, by simp [← hpages]⟩, fun k hk => absurd hk (hnone hpages (.inl rfl))⟩
  | cons head pages => ?_
  cases head with
  | none =>
    exact ⟨none, pages, .inl ⟨rfl, rfl⟩, fun k hk => absurd hk (hnone hpages (.inr ⟨_, rfl⟩))⟩
  | some p => ?_
  by_cases hfree : s.Free p
  · refine ⟨some p, pages, .inr ⟨p, rfl, hfree, by simp [hfree]⟩, fun k hk => ⟨p, rfl, ?_⟩⟩
    obtain ⟨ps, rest, hps, hlen, hnd, hall⟩ := hk
    cases ps with
    | nil => simp at hlen
    | cons q ps => ?_
    rw [hpages, map_cons, cons_append, cons.injEq, some.injEq] at hps
    obtain ⟨rfl, rfl⟩ := hps
    obtain ⟨hq, hnd⟩ := nodup_cons.1 hnd
    refine ⟨ps, rest, rfl, by simpa using hlen, hnd, fun x hx => ?_⟩
    obtain ⟨h1, h2, h3⟩ := hall x (mem_cons_of_mem _ hx)
    exact ⟨h1, h2, (update_of_ne (fun h : x = p => hq (h ▸ hx)) _ _).trans h3⟩
  refine ⟨none, pages, .inl ⟨rfl, by simp [hfree]⟩, fun k hk => ?_⟩
  obtain ⟨ps, rest, hps, hlen, -, hall⟩ := hk
  cases ps with
  | nil => simp at hlen
  | cons q ps =>
    rw [hpages, map_cons, cons_append, cons.injEq, some.injEq] at hps
    exact absurd (hps.1 ▸ hall q (.head _)) hfree

/-- A new table, linked at an entry that points nowhere. -/
theorem Grows.install (ho : s.Owns n (l + 1) t) (hi : i < n)
    (hp : ¬ Present (s.word (tableEntry t i))) {p : Nat} (hfree : s.Free p)
    (hword : s'.word = update (fun a => if pageAlignDown a = p then 0 else s.word a)
      (tableEntry t i) (tableValue p))
    (hcount : s'.refCount = update s.refCount p 1) : Grows s s' n (l + 1) t := by
  obtain ⟨hpa, hplt, hpfree⟩ := hfree
  have hpt : p ≠ t := fun h => ho.used t mem_tables_self (h ▸ hpfree)
  have hpage (j : Nat) (hj : j < n) : pageAlignDown (tableEntry t j) = t :=
    pageAlignDown_tableEntry ho.aligned (hj.trans_le ho.entries)
  have haddr : entryAddress (s'.word (tableEntry t i)) = p := by
    rw [hword, update_self, entryAddress_tableValue hpa hplt]
  obtain ⟨htables, hzero, hleaf⟩ := zero_table (w := s'.word)
    (fun j hj => by
      have hpj := pageAlignDown_tableEntry hpa hj
      rw [hword, update_of_ne, if_pos hpj]
      intro h
      rw [h, hpage i hi] at hpj
      exact hpt hpj.symm) le_rfl
  -- nothing else was on the page, and of the table only the entry is written
  have hkept (a : Nat) (ha : pageAlignDown a ≠ p) (hne : a ≠ tableEntry t i) : s'.word a = s.word a := by
    rw [hword, update_of_ne hne, if_neg ha]
  have hnot (a : Nat) (hu : s.refCount (pageAlignDown a) ≠ 0) : pageAlignDown a ≠ p := by
    rintro rfl
    exact hu hpfree
  refine .of_entry ho hi (fun j hj hij => ?_) (fun j hj _ hpj a ha => ?_) ?_ (fun f hf => .inl ?_)
    (fun f hf => ?_) (fun a ha hu => hkept a (hnot a hu) ?_) fun v hv => ?_
  · exact hkept _ (by rw [hpage j hj]; exact hpt.symm) fun h => hij (tableEntry_inj h).symm
  · refine hkept a (hnot a ((ho.child hj hpj).used _ ha)) ?_
    rintro rfl
    rw [hpage i hi] at ha
    exact (ho.apart.1 j hj hpj).2 ha
  · rw [haddr]
    refine ⟨hpa, le_rfl, hzero, fun f hf => ?_⟩
    rw [htables] at hf
    rw [hf, hcount, update_self]
    decide
  · rw [haddr, htables] at hf
    rwa [hf]
  · rw [hcount, update_of_ne]
    rintro rfl
    exact hf hpfree
  · rintro rfl
    rw [hpage i hi] at ha
    exact ha mem_tables_self
  rw [leaf_succ, ← hv, haddr, hleaf, ite_self, leaf_succ, ← hv, if_neg hp]

/-- The entry of a table for the next level: it points to a table, unless there is no memory. -/
theorem mmuNextTable_spec (ho : s.Owns n (l + 1) t) (hi : i < n) :
    ∃ r s', mmuNextTable s (tableEntry t i) = (r, s') ∧ Grows s s' n (l + 1) t ∧
      s'.locked = s.locked ∧
      (∀ sub, r = some sub → Present (s'.word (tableEntry t i)) ∧
        sub = entryAddress (s'.word (tableEntry t i))) ∧
      ∀ k, s.Supplies (k + 1) → r ≠ none ∧ s'.Supplies k := by
  unfold mmuNextTable
  by_cases hp : Present (s.word (tableEntry t i))
  · refine ⟨_, s, by simp only [if_pos hp]; rfl, .of_eq ho rfl rfl, rfl, fun sub hsub => ?_,
      fun k hk => ⟨by simp, ?_⟩⟩
    · exact ⟨hp, (some.inj hsub).symm⟩
    obtain ⟨ps, rest, h1, h2, h3, h4⟩ := hk
    exact ⟨ps, rest, h1, by omega, h3, h4⟩
  simp only [if_neg hp]
  obtain ⟨r, pages, hres, hsup⟩ := pmmAllocatePage_spec s
  rcases hres with ⟨rfl, halloc⟩ | ⟨p, rfl, hfree, halloc⟩
  · refine ⟨none, { s with pages := pages }, by rw [halloc], .of_eq ho rfl rfl, rfl,
      nofun, fun k hk => ?_⟩
    obtain ⟨p, hp', -⟩ := hsup k hk
    cases hp'
  set s1 : PhysMem := { s with refCount := update s.refCount p 1, pages := pages } with hs1
  refine ⟨_, (s1.zeroPage p).setWord (tableEntry t i) (tableValue p), by rw [halloc],
    .install ho hi hp hfree rfl rfl, rfl, fun sub hsub => ?_, fun k hk => ⟨by simp, ?_⟩⟩
  · have hval : ((s1.zeroPage p).setWord (tableEntry t i) (tableValue p)).word (tableEntry t i) =
        tableValue p := update_self ..
    rw [hval]
    exact ⟨present_tableValue, (some.inj hsub).symm⟩
  obtain ⟨q, hq, hsupplies⟩ := hsup k hk
  cases hq
  exact hsupplies

/-! ## The walk that creates -/

theorem pmmAcquirePageLock_of (h : s.locked page = false) :
    pmmAcquirePageLock s page =
      .ok { s with locked := update s.locked page true } := by
  rw [pmmAcquirePageLock, if_neg (by simp [h])]

theorem pmmReleasePageLock_of (h : s.locked page = true) :
    pmmReleasePageLock s page =
      .ok { s with locked := update s.locked page false } := by
  rw [pmmReleasePageLock, Exec.assert_of h]
  rfl

/-- The locks while the code is in the table `t`: this table is locked, and no other one is. -/
structure PhysMem.LockedAt (s : PhysMem) (n l t : Nat) : Prop where
  here : s.locked t = true
  below : ∀ f ∈ tables s.word n l t, f ≠ t → s.locked f = false
  free : s.FreeUnlocked

theorem PhysMem.LockedAt.descend (ho : s.Owns n (l + 1) t) (h : s.LockedAt n (l + 1) t) (hi : i < n)
    (hp : Present (s.word (tableEntry t i))) :
    let sub := entryAddress (s.word (tableEntry t i))
    s.locked sub = false ∧
      PhysMem.LockedAt { s with locked := update (update s.locked sub true) t false }
        512 l sub := by
  intro sub
  have hsub : sub ∈ tables s.word n (l + 1) t := mem_tables_of_entry hi hp mem_tables_self
  have hst : sub ≠ t := ho.child_ne hi hp
  refine ⟨h.below sub hsub hst, ?_, fun f hf hne => ?_, fun p hp' => ?_⟩
  · grind
  · have hft : f ≠ t := ne_of_mem_of_not_mem hf (ho.apart.1 i hi hp).2
    show update (update s.locked sub true) t false f = false
    rw [update_of_ne hft, update_of_ne hne]
    exact h.below f (mem_tables_of_entry hi hp hf) hft
  have hps : p ≠ sub := fun h' => ho.used sub hsub (h' ▸ hp')
  show update (update s.locked sub true) t false p = false
  rw [update_apply]
  split
  · rfl
  rw [update_of_ne hps]
  exact h.free p hp'

/-- **Creation.** From a locked table, the walk returns the entry of the page, with its table locked
and no other, unless there is no memory; the tree has grown by empty tables. -/
theorem createFrom_spec (ho : s.Owns n l t) (hv : a / pageSize / 512 ^ l % 512 < n)
    (hlock : s.LockedAt n l t) :
    ∃ r s', mmuCreateEntryFrom a l t s = .ok (r, s') ∧ Grows s s' n l t ∧
      (∀ e, r = some e → walk s'.word l t (a / pageSize) = some e ∧
        s'.locked = update (update s.locked t false) (pageAlignDown e) true) ∧
      (r = none → s'.locked = update s.locked t false) ∧
      ∀ k, s.Supplies (k + l) → r ≠ none ∧ s'.Supplies k := by
  induction l generalizing n t s with
  | zero =>
    refine ⟨_, s, rfl, .of_eq ho rfl rfl, fun e he => ?_, nofun, fun k hk => ⟨by simp, hk⟩⟩
    cases he
    rw [pagingLevelIndex_eq, pow_zero, Nat.div_one]
    refine ⟨rfl, ?_⟩
    rw [pageAlignDown_tableEntry ho.aligned (Nat.mod_lt _ (by decide)), update_idem,
      update_eq_self_iff.2 hlock.here.symm]
  | succ l ih => ?_
  rw [mmuCreateEntryFrom, pagingLevelIndex_eq]
  obtain ⟨r, s1, hnext, hg, hl, hsome, hsup⟩ := mmuNextTable_spec ho hv
  rw [hnext]
  have hlock1 : s1.LockedAt n (l + 1) t := by
    refine ⟨by rw [hl]; exact hlock.here, fun f hf hne => ?_, fun p hp => ?_⟩
    · rw [hl]
      exact (hg.new f hf).elim (fun hf => hlock.below f hf hne) (hlock.free f)
    rw [hl]
    refine hlock.free p ?_
    by_contra h0
    rw [hg.count p h0] at hp
    exact h0 hp
  cases r with
  | none =>
    refine ⟨none, { s1 with locked := update s1.locked t false }, ?_,
      hg.trans (.of_eq hg.owns rfl rfl), nofun, fun _ => by rw [hl],
      fun k hk => absurd rfl (hsup (k + l) hk).1⟩
    show (do let s ← pmmReleasePageLock s1 t; pure (none, s)) = _
    rw [pmmReleasePageLock_of hlock1.here]
    rfl
  | some sub => ?_
  obtain ⟨hp, rfl⟩ := hsome sub rfl
  obtain ⟨hunlocked, hlock2⟩ := hlock1.descend hg.owns hv hp
  set sub := entryAddress (s1.word (tableEntry t (a / pageSize / 512 ^ (l + 1) % 512)))
  have hst : sub ≠ t := hg.owns.child_ne hv hp
  set s2 : PhysMem := { s1 with locked := update (update s1.locked sub true) t false }
  have ho2 : s2.Owns 512 l sub := (hg.owns.child hv hp).congr rfl rfl
  obtain ⟨r, s', hrun, hg', hsome', hnone', hsup'⟩ := ih ho2 (Nat.mod_lt _ (by decide)) hlock2
  have hlift : Grows s2 s' n (l + 1) t := .lift (hg.owns.congr rfl rfl) hv hp hg'
  have hlocked (x : Nat) :
      update s2.locked sub false x = update s.locked t false x := by
    grind
  have hlocks : Grows s1 s2 n (l + 1) t := .of_eq hg.owns rfl rfl
  refine ⟨r, s', ?_, (hg.trans hlocks).trans hlift, fun e he => ?_, fun h => ?_, fun k hk => ?_⟩
  · show (do
      let s ← pmmAcquirePageLock s1 sub
      let s ← pmmReleasePageLock s t
      mmuCreateEntryFrom a l sub s) = _
    rw [pmmAcquirePageLock_of hunlocked, Exec.ok_bind,
      pmmReleasePageLock_of ((update_of_ne hst.symm _ _).trans hlock1.here)]
    exact hrun
  · obtain ⟨h1, h2⟩ := hsome' e he
    refine ⟨?_, ?_⟩
    · have hentry : s'.word (tableEntry t (a / pageSize / 512 ^ (l + 1) % 512)) =
          s1.word (tableEntry t (a / pageSize / 512 ^ (l + 1) % 512)) := by
        have hpage := pageAlignDown_tableEntry ho.aligned (hv.trans_le ho.entries)
        refine hg'.frame _ ?_ ?_
        · rw [hpage]; exact (hg.owns.apart.1 _ hv hp).2
        rw [hpage]; exact hg.owns.used t mem_tables_self
      simp only [walk, hentry, if_pos hp]
      exact h1
    rw [h2, funext hlocked]
  · rw [hnone' h, funext hlocked]
  have h1 := hsup (k + l) hk
  exact hsup' k h1.2

end Stanix
