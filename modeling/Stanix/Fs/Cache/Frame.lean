import Stanix.Fs.Cache.Calls

/-!
# What the functions of the page cache leave alone

`Quiet` says that a piece of code has changed nothing but references, locks, I/O flags and errors of
some pages, and what it has handed to write operations. Everything `cache_raw_flush_async` does
between clearing a dirty flag and writing a batch is quiet, as long as the I/O it waits for ends
without an error.
-/

namespace Stanix

open List Function CacheState Exec

/-- Two states of a page agree in its cache and its dirty flag. -/
structure CachedPage.Kept (i' i : CachedPage) : Prop where
  cache : i'.cache = i.cache
  dirty : i'.dirty = i.dirty

theorem CachedPage.Kept.refl (i : CachedPage) : i.Kept i := ⟨rfl, rfl⟩

theorem CachedPage.Kept.trans {i i' i'' : CachedPage} (h : i'.Kept i) (h' : i''.Kept i') :
    i''.Kept i :=
  ⟨h'.cache.trans h.cache, h'.dirty.trans h.dirty⟩

namespace CacheState

variable {s s' s'' : CacheState} {P P' : Nat → Prop} {new new' : List Nat} {cache page q : Nat}
  {r : Except Errno Unit} {waits : CachedPage → Bool} {batch : List Nat}

/-! ## Updates -/

@[simp] theorem modifyPage_self (f : CachedPage → CachedPage) :
    (s.modifyPage page f).page page = f (s.page page) := update_self ..

theorem modifyPage_of_ne (f : CachedPage → CachedPage) (h : q ≠ page) :
    (s.modifyPage page f).page q = s.page q := update_of_ne h ..

section

variable (f : PageCache → PageCache)

include f

@[simp] theorem modifyCache_self :
    (s.modifyCache cache f).cache cache = f (s.cache cache) := update_self ..

theorem modifyCache_of_ne (h : q ≠ cache) :
    (s.modifyCache cache f).cache q = s.cache q := update_of_ne h ..

@[simp] theorem modifyCache_page :
    (s.modifyCache cache f).page = s.page := rfl

end

/-- A change of a cache that keeps a part of it. -/
theorem modifyCache_field {β : Type} {g : PageCache → β} {f : PageCache → PageCache}
    (h : ∀ c, g (f c) = g c) (q : Nat) : g ((s.modifyCache cache f).cache q) = g (s.cache q) := by
  by_cases hq : q = cache
  · subst hq
    rw [modifyCache_self]
    exact h _
  rw [modifyCache_of_ne f hq]

/-! ## Quiet changes -/

/-- Nothing has changed in the caches and pages but references, locks, I/O flags and errors of pages in
`P`, and the pages `new` were handed to write operations. -/
structure Quiet (P : Nat → Prop) (new : List Nat) (s s' : CacheState) : Prop where
  page : ∀ q, ¬ P q → s'.page q = s.page q
  kept : ∀ q, (s'.page q).Kept (s.page q)
  cache : s'.cache = s.cache
  passed : s'.passed = s.passed ++ new
  writes : s'.input.writes <:+ s.input.writes
  ends : ∀ q, s'.input.ends q <:+ s.input.ends q

namespace Quiet

theorem refl (P : Nat → Prop) (s : CacheState) : Quiet P [] s s where
  page _ _ := rfl
  kept _ := .refl _
  cache := rfl
  passed := (append_nil _).symm
  writes := suffix_refl _
  ends _ := suffix_refl _

theorem trans (h : Quiet P new s s') (h' : Quiet P new' s' s'') : Quiet P (new ++ new') s s'' where
  page q hq := (h'.page q hq).trans (h.page q hq)
  kept q := (h.kept q).trans (h'.kept q)
  cache := h'.cache.trans h.cache
  passed := by rw [h'.passed, h.passed, append_assoc]
  writes := h'.writes.trans h.writes
  ends q := (h'.ends q).trans (h.ends q)

/-- A quiet change that hands nothing to a write operation, after another one. -/
theorem andThen (h : Quiet P new s s') (h' : Quiet P [] s' s'') : Quiet P new s s'' :=
  append_nil new ▸ h.trans h'

end Quiet

/-! ## One page -/

theorem quiet_fill (ret : Except Errno Unit) : Quiet P [] s (s.fill cache page ret) := by
  cases ret with
  | error e => exact .refl P s
  | ok _ => exact { Quiet.refl P s with }

theorem quiet_endIo (io : Io) : Quiet P [] s (s.endIo io page) := { Quiet.refl P s with }

section Page

variable (hp : P page) {f : CachedPage → CachedPage}

include hp

/-- A page that is not among those that may change is another one. -/
theorem ne_of_not (hq : ¬ P q) : q ≠ page := ne_of_apply_ne P (by simpa [hp] using hq)

/-- A change of a page that keeps its cache and its dirty flag. -/
theorem quiet_modifyPage (hf : ∀ i, (f i).Kept i) : Quiet P [] s (s.modifyPage page f) :=
  { Quiet.refl P s with
    page := fun q hq => modifyPage_of_ne f (ne_of_not hp hq)
    kept := fun q => by
      by_cases hq : q = page
      · subst hq
        rw [modifyPage_self]
        exact hf _
      rw [modifyPage_of_ne f hq]
      exact .refl _ }

theorem quiet_retain : Quiet P [] s (s.pmmRetain page) := by
  unfold pmmRetain
  split
  · exact .refl P s
  exact quiet_modifyPage hp fun _ => ⟨rfl, rfl⟩

theorem quiet_release : Quiet P [] s (s.pmmReleasePage page) :=
  quiet_modifyPage hp fun _ => ⟨rfl, rfl⟩

theorem quiet_acquireLock (h : s.pmmAcquirePageLock page = .ok s') : Quiet P [] s s' := by
  unfold pmmAcquirePageLock at h
  split at h
  · cases h
  cases h
  exact quiet_modifyPage hp fun _ => ⟨rfl, rfl⟩

theorem quiet_releaseLock (h : s.pmmReleasePageLock page = .ok s') : Quiet P [] s s' := by
  unfold pmmReleasePageLock at h
  split at h
  · cases h
    exact quiet_modifyPage hp fun _ => ⟨rfl, rfl⟩
  cases h

theorem quiet_setError (ret : Except Errno Unit) : Quiet P [] s (s.cachedPageSetError page ret) :=
  quiet_modifyPage hp fun _ => ⟨rfl, rfl⟩

/-- The end of I/O without an error clears a flag and gives a reference back. -/
theorem quiet_ended (hf : ∀ i, (f i).Kept i) :
    Quiet P [] s (((s.cachedPageSetError page (.ok ())).modifyPage page f).pmmReleasePage page) := by
  have herror : Quiet P [] s (s.cachedPageSetError page (.ok ())) := quiet_setError hp _
  exact (herror.andThen (quiet_modifyPage hp hf)).andThen (quiet_release hp)

theorem quiet_readEnded (h : s.readEnded page (.ok ()) = .ok s') : Quiet P [] s s' := by
  obtain ⟨s1, h1, hs'⟩ := bind_eq_ok.1 h
  cases h1
  cases hs'
  exact quiet_ended hp fun _ => ⟨rfl, rfl⟩

theorem quiet_writeEnded : Quiet P [] s (s.writeEnded cache page (.ok ())) := by
  exact quiet_ended hp fun _ => ⟨rfl, rfl⟩

theorem quiet_finishRead (h : s.finishRead page (.ok ()) = .ok s') : Quiet P [] s s' := by
  unfold finishRead at h
  split at h
  · cases h
    exact .refl P _
  obtain ⟨s1, h1, hs1⟩ := bind_eq_ok.1 h
  cases hs1
  exact (quiet_endIo _).andThen ((quiet_fill _).andThen (quiet_readEnded hp h1))

theorem quiet_finishWrite : Quiet P [] s (s.finishWrite page (.ok ())) := by
  unfold finishWrite
  split
  · exact .refl P s
  exact (quiet_endIo _).andThen (quiet_writeEnded hp)

end Page

/-! ## Waiting -/

theorem quiet_popEnd (hp : P page) : Quiet P [] s (s.popEnd page) :=
  { Quiet.refl P s with
    ends := fun q => by
      show update s.input.ends page (s.input.ends page).tail q <:+ s.input.ends q
      by_cases hq : q = page
      · subst hq
        rw [update_self]
        exact tail_suffix _
      exact ⟨[], update_of_ne hq ..⟩ }

/-- Waits for a page end at once, or without an error of the I/O in progress. -/
def Harmless (s : CacheState) (page : Nat) : Prop :=
  cachedPageIsDoingIo (s.page page) = false ∨
    ∀ e ∈ s.input.ends page, e = .interrupted ∨ e = .done (.ok ())

/-- The wait that comes next ends without an error of the I/O. -/
theorem nextEnd_of_harmless (h : ∀ e ∈ s.input.ends page, e = .interrupted ∨ e = .done (.ok ())) :
    s.nextEnd page = .interrupted ∨ s.nextEnd page = .done (.ok ()) := by
  unfold nextEnd
  cases hends : s.input.ends page with
  | nil => exact .inr rfl
  | cons e es => exact h e (by rw [hends]; exact mem_cons_self)

/-- **A wait** for flags among the I/O flags. -/
theorem quiet_waitGet (hp : P page) (hwaits : ∀ i, waits i = true → cachedPageIsDoingIo i = true)
    (hs : s.Harmless page) (h : s.pmmWaitGet waits page = .ok (r, s')) : Quiet P [] s s' := by
  unfold pmmWaitGet at h
  split at h
  · next hw =>
    have hends := hs.resolve_left (by rw [hwaits _ hw]; exact Bool.noConfusion)
    rcases nextEnd_of_harmless hends with hend | hend
    · rw [hend] at h
      cases h
      exact quiet_popEnd hp
    rw [hend] at h
    obtain ⟨s1, h1, hrest⟩ := bind_eq_ok.1 h
    have hquiet := (quiet_popEnd hp).andThen (quiet_finishRead hp h1)
    unfold awake at hrest
    split at hrest
    · cases hrest
    cases hrest
    exact hquiet.andThen (quiet_finishWrite hp)
  cases h
  exact .refl P _

theorem harmless_of_waitGet (hwaits : ∀ i, waits i = true → cachedPageIsDoingIo i = true)
    (hs : s.Harmless page) (h : s.pmmWaitGet waits page = .ok (r, s')) : s'.Harmless page := by
  rcases hs with hidle | hends
  · have hw : waits (s.page page) = false := by grind
    rw [pmmWaitGet, if_neg (by simp [hw])] at h
    cases h
    exact .inl hidle
  have hquiet : Quiet (fun _ => True) [] s s' := quiet_waitGet trivial hwaits (.inr hends) h
  exact .inr fun e he => hends e ((hquiet.ends page).subset he)

theorem waited_eq {r1 : Except Errno Unit × CacheState} (h : waited page r1 = (r, s')) :
    r1.2 = s' := by
  unfold waited at h
  split at h <;> cases h <;> rfl

/-- The wait under one of the functions that wait for a page. -/
theorem waited_map (h : waited page <$> s.pmmWaitGet waits page = .ok (r, s')) :
    ∃ r1, s.pmmWaitGet waits page = .ok (r1, s') := by
  cases hw : s.pmmWaitGet waits page with
  | error e =>
    rw [hw] at h
    cases h
  | ok r1 =>
    rw [hw] at h
    exact ⟨r1.1, by rw [← waited_eq (Except.ok.inj h)]⟩

theorem quiet_waitNoIo (hp : P page) (hs : s.Harmless page)
    (h : s.cacheWaitPageNoIo page = .ok (r, s')) : Quiet P [] s s' ∧ s'.Harmless page := by
  obtain ⟨r1, h1⟩ := waited_map h
  exact ⟨quiet_waitGet hp (fun _ h => h) hs h1, harmless_of_waitGet (fun _ h => h) hs h1⟩

theorem quiet_waitWritten (hp : P page) (hs : s.Harmless page)
    (h : s.cacheWaitPageWritten page = .ok (r, s')) : Quiet P [] s s' := by
  obtain ⟨r1, h1⟩ := waited_map h
  exact quiet_waitGet hp (fun i hi => by simp [cachedPageIsDoingIo, hi]) hs h1

/-- The loop that waits until nobody writes a page. -/
theorem quiet_acquireWriting (hp : P page) {fuel : Nat} (hs : s.Harmless page)
    (h : acquireWriting (fun s => s.cacheWaitPageNoIo page) page fuel s = .ok s') :
    Quiet P [] s s' := by
  induction fuel generalizing s with
  | zero => cases h
  | succ fuel ih => ?_
  unfold acquireWriting at h
  split at h
  · obtain ⟨⟨r, s1⟩, h1, hrest⟩ := bind_eq_ok.1 h
    obtain ⟨hquiet, hs1⟩ := quiet_waitNoIo hp hs h1
    exact hquiet.andThen (ih hs1 hrest)
  cases h
  exact quiet_modifyPage hp fun _ => ⟨rfl, rfl⟩

/-! ## The dirty flag -/

/-- The dirty flag of a page has changed, and nothing else of caches and pages but counts of dirty
pages. -/
structure Recounted (dirty : Bool) (page : Nat) (s s' : CacheState) : Prop where
  self : s'.page page = { s.page page with dirty }
  others : ∀ q, q ≠ page → s'.page q = s.page q
  field : ∀ {β : Type} (g : PageCache → β),
    (∀ (c : PageCache) n, g { c with dirtyCount := n } = g c) → ∀ q, g (s'.cache q) = g (s.cache q)
  passed : s'.passed = s.passed
  input : s'.input = s.input

theorem recounted (dirty : Bool) (list stray : List Nat) (cache page : Nat) (s : CacheState)
    (f : BitVec 64 → BitVec 64) :
    Recounted dirty page s (({ s with dirtyCaches := list, strayUnlinks := stray }.modifyPage page
      fun i => { i with dirty }).modifyCache cache fun c => { c with dirtyCount := f c.dirtyCount }) :=
  ⟨by rw [modifyCache_page, modifyPage_self],
    fun q hq => by rw [modifyCache_page, modifyPage_of_ne _ hq],
    fun g hg q => modifyCache_field (fun c => hg c _) q, rfl, rfl⟩

/-- Taking a cache off the list does not look at pages. -/
theorem unlinkLastDirty_modifyPage (s : CacheState) (cache page : Nat)
    (f : CachedPage → CachedPage) : (s.modifyPage page f).unlinkLastDirty cache =
      { s with
        dirtyCaches := (s.unlinkLastDirty cache).dirtyCaches
        strayUnlinks := (s.unlinkLastDirty cache).strayUnlinks }.modifyPage page f := by
  by_cases h : (s.cache cache).dirtyCount = 1
  · have h1 : (s.modifyPage page f).unlinkLastDirty cache = (s.modifyPage page f).unlinkDirty cache :=
      if_pos h
    have h2 : s.unlinkLastDirty cache = s.unlinkDirty cache := if_pos h
    rw [h1, h2]
    by_cases hmem : cache ∈ s.dirtyCaches
    · rw [show s.unlinkDirty cache = _ from if_pos hmem]
      exact if_pos hmem
    rw [show s.unlinkDirty cache = _ from if_neg hmem]
    exact if_neg hmem
  rw [show s.unlinkLastDirty cache = s from if_neg h]
  exact if_neg h

/-- **Clearing** the flag of a dirty page. -/
theorem clear_of_dirty (h : (s.page page).dirty = true) (cache : Nat) :
    ∃ s', s.cacheClearPageDirty cache page = (true, s') ∧
      Recounted false page s s' := by
  refine ⟨_, if_pos h, ?_⟩
  rw [unlinkLastDirty_modifyPage]
  exact recounted false _ _ cache page s (· - 1)

theorem clear_of_clean (h : (s.page page).dirty = false) (cache : Nat) :
    s.cacheClearPageDirty cache page = (false, s) := if_neg (by simp [h])

/-! ## Batches -/

theorem quiet_writeTerminate (h : ∀ q ∈ batch, P q) :
    Quiet P [] s (cacheWriteTerminate cache batch (.ok ()) s) := by
  induction batch generalizing s with
  | nil => exact .refl P s
  | cons q batch ih =>
    exact (quiet_writeEnded (h q mem_cons_self)).andThen
      (ih fun q' hq' => h q' (mem_cons_of_mem q hq'))

theorem quiet_startIo (io : Io) : Quiet P [] s (s.startIo io cache batch) := { Quiet.refl P s with }

/-- The write operation takes a batch. -/
def IoAnswer.Succeeds (a : IoAnswer) : Prop := a = .pending ∨ a = .completes (.ok ())

theorem quiet_writePages {r : Except Errno Unit × CacheState} (hP : ∀ q ∈ batch, P q)
    (hwrite : (s.cache cache).hasWrite = true) (hok : ∀ a ∈ s.input.writes, IoAnswer.Succeeds a)
    (h : s.cacheWritePages cache batch = r) : r.1 = .ok () ∧ Quiet P batch s r.2 := by
  rw [cacheWritePages, if_pos hwrite] at h
  have hpass : Quiet P batch s { s with
      passed := s.passed ++ batch
      input := { s.input with writes := s.input.writes.tail } } :=
    { Quiet.refl P s with passed := rfl, writes := tail_suffix _ }
  have hanswer : IoAnswer.Succeeds (s.input.writes.headD (.completes (.ok ()))) := by
    cases hw : s.input.writes with
    | nil => exact .inr rfl
    | cons a as => exact hok a (by rw [hw]; exact mem_cons_self)
  rcases hanswer with ha | ha
  · rw [ha] at h
    subst h
    exact ⟨rfl, hpass.andThen (quiet_startIo _)⟩
  rw [ha] at h
  subst h
  exact ⟨rfl, hpass.andThen (quiet_writeTerminate hP)⟩

end CacheState

end Stanix
