import Stanix.Mem.Pmm.Run

/-!
# Tasks that free blocks at the same time

`pmm_set_free_pages` marks the pages of a block as free, one atomic store for each, before it takes
the lock of the zone and merges and links the block. Here several tasks do so at once: a step begins
to free a block, marks one page of it, or is the locked section. Between the first store and the
locked section the pages pass the test of the merge loop of any other task, on the grounds of
whatever order was left in them.

`pmm_tasks_safe` says that this window is all there is to fear; `pmm_tasks_race` is a run that hits it.
-/

namespace Stanix

open Function Buddy List Option Pmm

/-- A task inside `pmm_set_free_pages`: its block, and how many of its pages it has marked. -/
structure PmmFreeing where
  start : Nat
  order : Nat
  marked : Nat

/-- Tasks that free blocks: the blocks nobody is freeing, what each task is doing, and the pages
that were taken off lists by merging. -/
structure PmmTasks where
  pmm : Pmm
  live : List (Nat × Nat)
  task : Nat → Option PmmFreeing := fun _ => none
  unlinks : List PmmUnlink := []

/-- A step of a task: it enters `pmm_set_free_pages`, stores to the reference count of the next page
of its block, or goes through the locked section and returns. -/
inductive PmmTaskStep
  | begin (task start order : Nat)
  | mark (task : Nat)
  | link (task : Nat)

/-- Source: `pmm_set_free_pages` (`pmm.c:314`), cut at its atomic stores and at its lock. -/
def pmmTaskStep (c : PmmTasks) : PmmTaskStep → Exec (Unit × PmmTasks)
  | .begin t start order => do
    Exec.assert (start ≠ pageInvalid)
    Exec.assert (start % order2Count order = 0)
    return ((), { c with
      live := c.live.erase (start, order)
      task := update c.task t (some ⟨start, order, 0⟩) })
  | .mark t =>
    match c.task t with
    | none => return ((), c)
    | some f => do
      let s ← pmmMarkPage c.pmm (f.start + f.marked)
      return ((), { c with
        pmm := s
        task := update c.task t (some { f with marked := f.marked + 1 }) })
  | .link t =>
    match c.task t with
    | none => return ((), c)
    | some f => do
      let (unlinks, s) ← pmmZoneSetFreePages c.pmm (pmmGetZone f.start) f.start f.order
      return ((), { c with
        pmm := s
        task := update c.task t none
        unlinks := unlinks ++ c.unlinks })

namespace PmmTasks

/-- The page was marked by the task, which has not linked it yet. -/
def MarkedBy (c : PmmTasks) (t q : Nat) : Prop :=
  ∃ f, c.task t = some f ∧ f.start ≤ q ∧ q < f.start + f.marked

/-- The page was marked by a task other than `t`, which has not linked it yet. -/
def MarkedByOther (c : PmmTasks) (t q : Nat) : Prop := ∃ t', t' ≠ t ∧ c.MarkedBy t' q

/-- Merging has taken pages only off the lists they were on, and no page is in two free blocks. -/
structure Safe (c : PmmTasks) : Prop where
  linked : ∀ u ∈ c.unlinks, u.Linked
  disjoint : ∀ {z z' o o' n n' p p' q}, c.pmm.FreeAt z o n p → c.pmm.FreeAt z' o' n' p' →
    p ≤ q ∧ q < p + 2 ^ o → p' ≤ q ∧ q < p' + 2 ^ o' → z = z' ∧ o = o' ∧ n = n'

end PmmTasks

/-- The order of the steps of a task: it begins with a block that is outstanding, marks all of its
pages, and then links it. -/
def PmmTaskStep.Allowed (c : PmmTasks) : PmmTaskStep → Prop
  | .begin t start order => c.task t = none ∧ (start, order) ∈ c.live
  | .mark t => ∃ f, c.task t = some f ∧ f.marked < 2 ^ f.order
  | .link t => ∃ f, c.task t = some f ∧ f.marked = 2 ^ f.order

instance (c : PmmTasks) : ∀ step : PmmTaskStep, Decidable (step.Allowed c)
  | .begin t start order =>
      match h : c.task t with
      | none => decidable_of_iff ((start, order) ∈ c.live) ⟨fun h' => ⟨h, h'⟩, And.right⟩
      | some _ => .isFalse fun h' => Option.some_ne_none _ (h.symm.trans h'.1)
  | .mark _ | .link _ => inferInstanceAs (Decidable (∃ f, _ = some f ∧ _))

/-- When the step is a locked section, its merge loop does not come to a page that another task has
marked and not linked. -/
def PmmTaskStep.Undisturbed (c : PmmTasks) : PmmTaskStep → Prop
  | .link t => ∀ f, c.task t = some f → c.pmm.ClearOf (c.MarkedByOther t) f.order f.start
  | _ => True

/-! ## The invariant of interleavings -/

theorem update_task_eq_some {task : Nat → Option PmmFreeing} {t t' : Nat} {x : Option PmmFreeing}
    {f : PmmFreeing} : update task t x t' = some f ↔
      (t' = t ∧ x = some f) ∨ (t' ≠ t ∧ task t' = some f) := by
  rw [update_apply]
  split <;> simp [*]

namespace PmmTasks

/-- The page is in a block that is outstanding or being freed. -/
def Owned (c : PmmTasks) (q : Nat) : Prop :=
  (∃ b ∈ c.live, InBlock b.2 b.1 q) ∨ ∃ t f, c.task t = some f ∧ InBlock f.order f.start q

/-- The invariant: the pages in transit are those that tasks have marked and not linked, and all
blocks of tasks are apart from each other and from the free ones. The first page is none of them. -/
structure Holds (c : PmmTasks) (F : FreeLists Zone ordersCount) : Prop where
  inv : c.pmm.Inv F fun q => ∃ t, c.MarkedBy t q
  within : F.Within pmmGetZone
  gap : ¬ F.Covers 0
  owned : ∀ {q}, c.Owned q → ¬ F.Covers q ∧ q ≠ 0 ∧ ∃ i, c.pmm.info q = some i
  liveBlock : ∀ {b}, b ∈ c.live → b.2 < ordersCount ∧ b.1 % 2 ^ b.2 = 0
  liveDisjoint : c.live.Pairwise fun b b' => ∀ q, InBlock b.2 b.1 q → ¬ InBlock b'.2 b'.1 q
  taskBlock : ∀ {t f}, c.task t = some f →
    f.order < ordersCount ∧ f.start % 2 ^ f.order = 0 ∧ f.marked ≤ 2 ^ f.order
  taskDisjoint : ∀ {t t' f f' q}, c.task t = some f → c.task t' = some f' → t' ≠ t →
    InBlock f.order f.start q → ¬ InBlock f'.order f'.start q
  taskLive : ∀ {t f b q}, c.task t = some f → b ∈ c.live → InBlock f.order f.start q →
    ¬ InBlock b.2 b.1 q
  linked : ∀ u ∈ c.unlinks, u.Linked

/-- Tasks that start with the outstanding blocks of a sequential run. -/
def ofRun (r : PmmRun) : PmmTasks := { pmm := r.pmm, live := r.live }

namespace Holds

variable {c : PmmTasks} {F : FreeLists Zone ordersCount} {t q : Nat} {f : PmmFreeing}

theorem of_run {r : PmmRun} (h : r.Holds 0 F) : (ofRun r).Holds F where
  inv := h.inv.congr fun q => ⟨fun ⟨_, _, hf, _⟩ => absurd hf (by simp [ofRun]), False.elim⟩
  within := h.within
  gap hc := h.gap ((h.covers 0).2 (.inl hc))
  owned := by
    rintro q (⟨b, hb, hq⟩ | ⟨t, f, hf, -⟩)
    · have hlive := h.live_of_mem hb hq
      have hadded := (h.covers q).2 (.inr hlive)
      refine ⟨fun hc => h.apart hc hlive, fun h0 => h.gap (h0 ▸ hadded), h.info_of_added hadded⟩
    cases hf
  liveBlock hb := h.block hb
  liveDisjoint := h.disjoint
  taskBlock hf := by cases hf
  taskDisjoint hf := by cases hf
  taskLive hf := by cases hf
  linked u hu := by cases hu

variable (h : c.Holds F)

include h

theorem inBlock_of_marked (hf : c.task t = some f) (hq : f.start ≤ q)
    (hlt : q < f.start + f.marked) : InBlock f.order f.start q := by
  obtain ⟨-, hmod, hle⟩ := h.taskBlock hf
  exact (inBlock_iff hmod).2 ⟨hq, by omega⟩

/-- A task enters `pmm_set_free_pages`. -/
theorem begin {start order : Nat} (ht : c.task t = none) (hb : (start, order) ∈ c.live) :
    ∃ c', pmmTaskStep c (.begin t start order) = .ok ((), c') ∧ c'.Holds F := by
  have hblock := h.liveBlock hb
  obtain ⟨-, -, i, hi⟩ := h.owned (.inl ⟨_, hb, InBlock.refl order start⟩)
  have hperm := perm_cons_erase hb
  have hpair := (hperm.pairwise_iff fun hbc q hq hq' => hbc q hq' hq).1 h.liveDisjoint
  obtain ⟨hhead, htail⟩ := pairwise_cons.1 hpair
  have hsub : ∀ {b}, b ∈ c.live.erase (start, order) → b ∈ c.live := fun hb => mem_of_mem_erase hb
  let c' : PmmTasks := { c with
    live := c.live.erase (start, order)
    task := update c.task t (some ⟨start, order, 0⟩) }
  have htask : ∀ {t' f}, c'.task t' = some f →
      (t' = t ∧ f = ⟨start, order, 0⟩) ∨ (t' ≠ t ∧ c.task t' = some f) := fun hf =>
    (update_task_eq_some.1 hf).imp_left (And.imp_right fun h => (some.inj h).symm)
  have hne : ∀ {t' f}, c.task t' = some f → t' ≠ t := by
    rintro t' f hf rfl
    rw [ht] at hf
    cases hf
  refine ⟨c', ?_, h.inv.congr fun q => ?_, h.within, h.gap, fun {q} hq => h.owned ?_,
    fun hb => h.liveBlock (hsub hb), htail, fun {t' f} hf => ?_, fun {t1 t2 f1 f2 q} h1 h2 hne' hq => ?_,
    fun {t' f b q} hf hb' hq => ?_, h.linked⟩
  · rw [pmmTaskStep, Exec.assert_of (h.inv.ne_invalid hi), Exec.ok_bind,
      Exec.assert_of (show start % order2Count order = 0 from hblock.2)]
    rfl
  · constructor
    · rintro ⟨t', f, hf, hq⟩
      rcases htask hf with ⟨-, rfl⟩ | ⟨-, hf⟩
      · exact absurd hq.2 (by simpa using hq.1)
      exact ⟨t', f, hf, hq⟩
    rintro ⟨t', f, hf, hq⟩
    exact ⟨t', f, update_task_eq_some.2 (.inr ⟨hne hf, hf⟩), hq⟩
  · rcases hq with ⟨b, hb', hq⟩ | ⟨t', f, hf, hq⟩
    · exact .inl ⟨b, hsub hb', hq⟩
    rcases htask hf with ⟨-, rfl⟩ | ⟨-, hf⟩
    · exact .inl ⟨_, hb, hq⟩
    exact .inr ⟨t', f, hf, hq⟩
  · rcases htask hf with ⟨-, rfl⟩ | ⟨-, hf⟩
    · exact ⟨hblock.1, hblock.2, Nat.zero_le _⟩
    exact h.taskBlock hf
  · rcases htask h1 with ⟨ht1, rfl⟩ | ⟨-, h1⟩
    · rcases htask h2 with ⟨ht2, -⟩ | ⟨-, h2⟩
      · exact absurd (ht2.trans ht1.symm) hne'
      exact fun hq' => h.taskLive h2 hb hq' hq
    rcases htask h2 with ⟨-, rfl⟩ | ⟨-, h2⟩
    · exact h.taskLive h1 hb hq
    exact h.taskDisjoint h1 h2 hne' hq
  rcases htask hf with ⟨-, rfl⟩ | ⟨-, hf⟩
  · exact hhead b hb' q hq
  exact h.taskLive hf (hsub hb') hq

/-- A task marks the next page of its block. -/
theorem mark (hf : c.task t = some f) (hlt : f.marked < 2 ^ f.order) :
    ∃ c', pmmTaskStep c (.mark t) = .ok ((), c') ∧ c'.Holds F := by
  have hblock := h.taskBlock hf
  have hin : InBlock f.order f.start (f.start + f.marked) :=
    (inBlock_iff hblock.2.1).2 ⟨by omega, by omega⟩
  obtain ⟨hcov, -, i, hi⟩ := h.owned (.inr ⟨t, f, hf, hin⟩)
  let f' : PmmFreeing := { f with marked := f.marked + 1 }
  let c' : PmmTasks := { c with
    pmm := c.pmm.setPage (f.start + f.marked) { i with refCount := 0 }
    task := update c.task t (some f') }
  have htask : ∀ {t' f1}, c'.task t' = some f1 →
      ∃ f0, c.task t' = some f0 ∧ f1.start = f0.start ∧ f1.order = f0.order := by
    intro t' f1 hf1
    rcases update_task_eq_some.1 hf1 with ⟨rfl, hx⟩ | ⟨-, hf1⟩
    · cases hx
      exact ⟨f, hf, rfl, rfl⟩
    exact ⟨f1, hf1, rfl, rfl⟩
  refine ⟨c', ?_, (h.inv.mark hcov hi).congr fun q => ?_, h.within, h.gap, fun {q} hq => ?_,
    h.liveBlock, h.liveDisjoint, fun {t' f1} hf1 => ?_, fun {t1 t2 f1 f2 q} h₁ h₂ hne hq => ?_,
    fun {t' f1 b q} hf1 hb hq => ?_, h.linked⟩
  · rw [pmmTaskStep, hf]
    simp only [pmmMarkPage, h.inv.pageInfo hi]
    rfl
  · constructor
    · rintro ⟨t', f1, hf1, hq⟩
      rcases update_task_eq_some.1 hf1 with ⟨rfl, hx⟩ | ⟨-, hf1⟩
      · cases hx
        by_cases hlast : q = f.start + f.marked
        · exact .inr hlast
        refine .inl ⟨t', f, hf, hq.1, ?_⟩
        have : q < f.start + (f.marked + 1) := hq.2
        omega
      exact .inl ⟨t', f1, hf1, hq⟩
    rintro (⟨t', f1, hf1, hq⟩ | rfl)
    · by_cases htt : t' = t
      · subst htt
        cases hf.symm.trans hf1
        exact ⟨t', f', update_task_eq_some.2 (.inl ⟨rfl, rfl⟩), hq.1, Nat.lt_succ_of_lt hq.2⟩
      exact ⟨t', f1, update_task_eq_some.2 (.inr ⟨htt, hf1⟩), hq⟩
    exact ⟨t, f', update_task_eq_some.2 (.inl ⟨rfl, rfl⟩), Nat.le_add_right .., Nat.lt_succ_self _⟩
  · have hold : c.Owned q := by
      rcases hq with hq | ⟨t', f1, hf1, hq⟩
      · exact .inl hq
      obtain ⟨f0, hf0, hs, ho⟩ := htask hf1
      rw [hs, ho] at hq
      exact .inr ⟨t', f0, hf0, hq⟩
    obtain ⟨h1, h2, j, hj⟩ := h.owned hold
    refine ⟨h1, h2, ?_⟩
    rw [setPage_info]
    split
    · exact ⟨_, rfl⟩
    exact ⟨j, hj⟩
  · rcases update_task_eq_some.1 hf1 with ⟨-, hx⟩ | ⟨-, hf1⟩
    · cases hx
      exact ⟨hblock.1, hblock.2.1, hlt⟩
    exact h.taskBlock hf1
  · obtain ⟨g1, hg1, hs1, ho1⟩ := htask h₁
    obtain ⟨g2, hg2, hs2, ho2⟩ := htask h₂
    rw [hs1, ho1] at hq
    rw [hs2, ho2]
    exact h.taskDisjoint hg1 hg2 hne hq
  obtain ⟨f0, hf0, hs, ho⟩ := htask hf1
  rw [hs, ho] at hq
  exact h.taskLive hf0 hb hq

/-- A task goes through the locked section, which no page that another task has marked disturbs. -/
theorem link (hf : c.task t = some f) (hall : f.marked = 2 ^ f.order)
    (hclear : c.pmm.ClearOf (c.MarkedByOther t) f.order f.start) :
    ∃ c' F', pmmTaskStep c (.link t) = .ok ((), c') ∧ c'.Holds F' := by
  obtain ⟨ho, hmod, -⟩ := h.taskBlock hf
  have hin : ∀ {q}, InBlock f.order f.start q ↔ f.start ≤ q ∧ q < f.start + f.marked := by
    intro q
    rw [inBlock_iff hmod, hall]
  have hinv : c.pmm.Inv F fun q => c.MarkedByOther t q ∨ InBlock f.order f.start q := by
    refine h.inv.congr fun q => ⟨?_, ?_⟩
    · rintro (⟨t', -, hm⟩ | hq)
      · exact ⟨t', hm⟩
      exact ⟨t, f, hf, hin.1 hq⟩
    rintro ⟨t', hm⟩
    by_cases htt : t' = t
    · subst htt
      obtain ⟨f1, hf1, hq⟩ := hm
      cases hf.symm.trans hf1
      exact .inr (hin.2 hq)
    exact .inl ⟨t', htt, hm⟩
  have hapart : ∀ {q}, c.MarkedByOther t q → ¬ InBlock f.order f.start q := by
    rintro q ⟨t', htt, f1, hf1, hq⟩ hq'
    exact h.taskDisjoint hf hf1 htt hq' (h.inBlock_of_marked hf1 hq.1 hq.2)
  have hgap : ¬ InBlock f.order f.start 0 := fun h0 => (h.owned (.inr ⟨t, f, hf, h0⟩)).2.1 rfl
  obtain ⟨us, s, F', h1, h2, h3, h4, h5, -, -⟩ := hinv.zoneSetFreePages hapart hmod ho hclear
    (zoneClosed_of_gap h.within (by decide) h.gap hgap)
  let c' : PmmTasks := { c with
    pmm := s, task := update c.task t none, unlinks := us ++ c.unlinks }
  have htask : ∀ {t' f1}, c'.task t' = some f1 → t' ≠ t ∧ c.task t' = some f1 := by grind
  refine ⟨c', F', ?_, h2.congr fun q => ?_, within_of_gap h3 h.within ho (by decide) hgap,
    fun hc => (h3.covers.1 hc).elim h.gap hgap, fun {q} hq => ?_, h.liveBlock, h.liveDisjoint,
    fun hf1 => h.taskBlock (htask hf1).2,
    fun h₁ h₂ => h.taskDisjoint (htask h₁).2 (htask h₂).2, fun hf1 => h.taskLive (htask hf1).2, ?_⟩
  · rw [pmmTaskStep, hf]
    simp only [h1]
    rfl
  · constructor
    · rintro ⟨t', f1, hf1, hq⟩
      exact ⟨t', (htask hf1).1, f1, (htask hf1).2, hq⟩
    rintro ⟨t', htt, f1, hf1, hq⟩
    exact ⟨t', f1, update_task_eq_some.2 (.inr ⟨htt, hf1⟩), hq⟩
  · -- what the other tasks own is apart from the block that was freed
    have hold : c.Owned q ∧ ¬ InBlock f.order f.start q := by
      rcases hq with ⟨b, hb, hq⟩ | ⟨t', f1, hf1, hq⟩
      · exact ⟨.inl ⟨b, hb, hq⟩, fun hq' => h.taskLive hf hb hq' hq⟩
      obtain ⟨htt, hf1⟩ := htask hf1
      exact ⟨.inr ⟨t', f1, hf1, hq⟩, fun hq' => h.taskDisjoint hf hf1 htt hq' hq⟩
    obtain ⟨h6, h7, i, hi⟩ := h.owned hold.1
    refine ⟨fun hc => (h3.covers.1 hc).elim h6 hold.2, h7, ?_⟩
    have hr := congrFun h5 q
    rw [refs_of_info hi] at hr
    obtain ⟨j, hj, -⟩ := map_eq_some_iff.1 hr
    exact ⟨j, hj⟩
  intro u hu
  exact (mem_append.1 hu).elim (h4 u) (h.linked u)

end Holds

end PmmTasks

/-- **Undisturbed tasks are safe.** After any sequential run on the pages of one zone, let any number
of tasks free outstanding blocks, interleaved in any way. As long as no merge loop comes to a page
that another task has marked and not linked, merging takes only blocks off a list that are on it, and
no page is in two free blocks. -/
theorem pmm_tasks_safe {z : Zone} {lo hi : Nat} (hlo : lo % 64 = 0) (hhi : hi % 64 = 0)
    (hzone : ∀ q, lo ≤ q → q < hi → pmmGetZone q = z) {s : Pmm} (hs : s.Fresh) {ops : List PmmCall}
    (hops : CallsAll pmmCall (fun r op => op.Fits z lo hi r) { pmm := s } ops) {rs : List Unit}
    {r : PmmRun} (hrun : runOps pmmCall { pmm := s } ops = .ok (rs, r)) {steps : List PmmTaskStep}
    (hsteps : CallsAll pmmTaskStep (fun c step => step.Allowed c ∧ step.Undisturbed c)
      (PmmTasks.ofRun r) steps) :
    RunAll pmmTaskStep PmmTasks.Safe (PmmTasks.ofRun r) steps := by
  obtain ⟨F, h⟩ := (holds_of_fits hlo hhi hzone hs hops).final hrun
  refine runAll_of_invariant (I := fun _ c => ∃ F, c.Holds F)
    (fun _ c ⟨F, h⟩ => ⟨h.linked, fun hp hp' => h.inv.freeAt_disjoint hp hp'⟩) ?_
    ⟨F, .of_run h⟩ hsteps
  rintro - c step ⟨F, h⟩ ⟨hallowed, hclear⟩
  cases step with
  | begin t start order =>
    obtain ⟨c', h1, h2⟩ := h.begin hallowed.1 hallowed.2
    exact ⟨(), c', h1, F, h2⟩
  | mark t =>
    obtain ⟨f, hf, hlt⟩ := hallowed
    obtain ⟨c', h1, h2⟩ := h.mark hf hlt
    exact ⟨(), c', h1, F, h2⟩
  | link t =>
    obtain ⟨f, hf, hall⟩ := hallowed
    obtain ⟨c', F', h1, h2⟩ := h.link hf hall (hclear f hf)
    exact ⟨(), c', h1, F', h2⟩

/-- The calls before two tasks hold the pages 64 and 65, cut from one block. -/
def buddyCalls : List PmmCall :=
  [.addRange 64 2, .helperAllocate .dma32 0, .helperAllocate .dma32 0]

theorem undisturbed_of_unmarked {c : PmmTasks} {t : Nat}
    (h : ∀ t' f, t' ≠ t → c.task t' = some f → f.marked = 0) :
    PmmTaskStep.Undisturbed c (.link t) := by
  rintro f - k - - - ⟨t', htt, f', hf', hq⟩
  have := h t' f' htt hf'
  omega

theorem pmm_tasks_safe_boot :
    ∃ rs r, runOps pmmCall { pmm := bootPmm } buddyCalls = .ok (rs, r) ∧
      RunAll pmmTaskStep PmmTasks.Safe (PmmTasks.ofRun r)
        [.begin 0 64 0, .begin 1 65 0, .mark 0, .link 0, .mark 1, .link 1] := by
  have hcalls : CallsAll pmmCall (fun r op => op.Fits .dma32 64 128 r) { pmm := bootPmm } buddyCalls :=
    by decide +kernel
  refine ⟨_, _, rfl, pmm_tasks_safe (by decide) (by decide) pmmGetZone_boot bootPmm_fresh hcalls rfl ?_⟩
  refine .cons rfl ⟨by decide +kernel, trivial⟩ (.cons rfl ⟨by decide +kernel, trivial⟩
    (.cons rfl ⟨by decide +kernel, trivial⟩ (.cons rfl ⟨by decide +kernel, ?_⟩
    (.cons rfl ⟨by decide +kernel, trivial⟩ (.cons rfl ⟨by decide +kernel, ?_⟩ trivial)))))
  · refine undisturbed_of_unmarked fun t' f htt hf => ?_
    change update (update (update (fun _ => none) 0 (some ⟨64, 0, 0⟩)) 1 (some ⟨65, 0, 0⟩)) 0
      (some ⟨64, 0, 1⟩) t' = some f at hf
    grind [update_apply]
  refine undisturbed_of_unmarked fun t' f htt hf => ?_
  change update (update (update (update (update (fun _ => none) 0 (some ⟨64, 0, 0⟩)) 1
    (some ⟨65, 0, 0⟩)) 0 (some ⟨64, 0, 1⟩)) 0 none) 1 (some ⟨65, 0, 1⟩) t' = some f at hf
  grind [update_apply]

/-- **The race.** Two tasks free the pages 64 and 65. Both have marked their page when the first one
takes page 65 off a list on which it is not, and links the block of both pages; the second one links
page 65 once more. -/
theorem pmm_tasks_race :
    bootPmm.Fresh ∧
      CallsAll pmmCall (fun r op => op.Fits .dma32 64 128 r) { pmm := bootPmm } buddyCalls ∧
      ∃ rs r, runOps pmmCall { pmm := bootPmm } buddyCalls = .ok (rs, r) ∧
        CallsAll pmmTaskStep (fun c step => step.Allowed c) (PmmTasks.ofRun r)
          [.begin 0 64 0, .begin 1 65 0, .mark 0, .mark 1, .link 0, .link 1] ∧
        ∃ us c, runOps pmmTaskStep (PmmTasks.ofRun r)
            [.begin 0 64 0, .begin 1 65 0, .mark 0, .mark 1, .link 0, .link 1] = .ok (us, c) ∧
          (∃ u ∈ c.unlinks, ¬ u.Linked) ∧
          c.pmm.FreeAt .dma32 1 0 64 ∧ c.pmm.FreeAt .dma32 0 0 65 ∧ ¬ c.Safe := by
  refine ⟨bootPmm_fresh, by decide +kernel, _, _, rfl, by decide +kernel, _, _, rfl,
    ⟨_, mem_cons_self, ?_⟩, rfl, rfl, fun h => ?_⟩
  · rintro ⟨n, hn⟩
    exact some_ne_none _ (hn.symm.trans (Dll.nth_none _ n))
  have hsame := @PmmTasks.Safe.disjoint _ h .dma32 .dma32 1 0 0 0 64 65 65 rfl rfl (by decide)
    (by decide)
  exact absurd hsame.2.1 (by decide)

end Stanix
