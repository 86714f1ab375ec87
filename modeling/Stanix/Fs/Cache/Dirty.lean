import Stanix.Base.Tasks
import Stanix.Klib.List
import Mathlib.Algebra.Order.BigOperators.Group.Finset

/-!
# Marking and clearing dirty pages

`cache_mark_page_dirty` and `cache_clear_page_dirty` (`kernel/fs/cache.c`), run by any number of
tasks at once on the pages of one cache. Every atomic operation is a step of its own: the operation
on the flags of the page, the one on `dirty_pages`, the load and the compare-and-exchange of the fast
path, and in the slow path taking `dirty_lock`, the operation on `dirty_count`, the operation on the
list `dirty_caches` and giving the lock back. A compare-and-exchange may fail for no reason.

`DirtyOp` is what the two functions differ in.

The fast paths never take `dirty_count` across the border between `0` and `1`, and the slow path does
so under the lock (`cache_dirty_sound`). The count may be negative for a while: a page can be cleared
before the task that marked it has counted it.
-/

namespace Stanix

open Function Finset BitVec

/-! ## The functions, step by step -/

/-- Source: `PAGE_FLAG_DIRTY` (`pmm.h:47`). -/
def pageFlagDirty : BitVec 32 := 0x01

/-- The dirty flag of a page is set. -/
def FlagDirty (flags : BitVec 32) : Prop := flags &&& pageFlagDirty ≠ 0
  deriving Decidable

/-- The call of a task: `cache_mark_page_dirty` or `cache_clear_page_dirty`. -/
inductive DirtyOp
  | mark
  | clear
  deriving DecidableEq

namespace DirtyOp

/-- `atomic_fetch_or` with the dirty flag, or `atomic_fetch_and` with its complement. -/
def setFlags : DirtyOp → BitVec 32 → BitVec 32
  | mark, flags => flags ||| pageFlagDirty
  | clear, flags => flags &&& ~~~pageFlagDirty

/-- The condition under which the call goes on after its flag operation, on the previous flags. -/
def Changes : DirtyOp → BitVec 32 → Prop
  | mark, flags => ¬ FlagDirty flags
  | clear, flags => FlagDirty flags

instance instDecidableChanges (op : DirtyOp) (flags : BitVec 32) : Decidable (op.Changes flags) :=
  match op with
  | mark => inferInstanceAs (Decidable (¬ _))
  | clear => inferInstanceAs (Decidable (FlagDirty _))

/-- What the call does to the counters `dirty_pages` and `dirty_count`. -/
def count : DirtyOp → BitVec 64 → BitVec 64
  | mark, n => n + 1
  | clear, n => n - 1

/-- The value of `dirty_count` that the fast path does not touch. Source:
`ref_count_inc_if_not_zero` and `ref_count_dec_if_not_one` (`refcount.h:23`, `:46`). -/
def slowAt : DirtyOp → BitVec 64
  | mark => 0
  | clear => 1

end DirtyOp

/-- Where a task is in its call. -/
inductive DirtyPhase (π : Type)
  /-- In no call. -/
  | idle
  /-- Before the operation on the flags of the page. -/
  | flag (op : DirtyOp) (page : π)
  /-- The flag has changed; before the operation on `dirty_pages`. -/
  | pages (op : DirtyOp)
  /-- Before the load of the fast path. -/
  | load (op : DirtyOp)
  /-- Before the compare-and-exchange of the fast path, which expects `old`. -/
  | exchange (op : DirtyOp) (old : BitVec 64)
  /-- Before taking `dirty_lock`. -/
  | acquire (op : DirtyOp)
  /-- Under the lock, before `ref_count_inc` or `ref_count_dec`. -/
  | count (op : DirtyOp)
  /-- Under the lock, before `list_append` or `list_remove`. -/
  | link (op : DirtyOp)
  /-- Under the lock, before giving it back. -/
  | release (op : DirtyOp)

/-- A cache whose pages are marked and cleared by tasks: the flags of its pages, its counter, the
list of dirty caches and the tasks. -/
structure DirtySystem (τ π γ : Type) where
  flags : π → BitVec 32
  dirtyCount : BitVec 64
  dirtyPages : BitVec 64
  dirtyLock : Option τ
  dirtyCaches : ListHead γ
  node : γ → ListNode γ
  phase : τ → DirtyPhase π

/-- A step: which task makes it, and what it is free to choose. -/
inductive DirtyStep (τ π : Type)
  /-- A task that is in no call enters one. -/
  | call (t : τ) (op : DirtyOp) (page : π)
  /-- A task goes on with its call. -/
  | go (t : τ)
  /-- A task whose next operation is a weak compare-and-exchange sees it fail. -/
  | spurious (t : τ)

variable {τ π γ : Type} [DecidableEq τ] [DecidableEq π] [DecidableEq γ]

/-- A task moves to another phase. -/
def DirtySystem.move (s : DirtySystem τ π γ) (t : τ) (x : DirtyPhase π) : DirtySystem τ π γ :=
  { s with phase := update s.phase t x }

omit [DecidableEq π] [DecidableEq γ] in
@[simp] theorem DirtySystem.move_phase (s : DirtySystem τ π γ) (t : τ) (x : DirtyPhase π) :
    (s.move t x).phase = update s.phase t x := rfl

/-- The loop condition of the fast path, on the value it has just read. -/
def dirtyLooks (op : DirtyOp) (old : BitVec 64) : DirtyPhase π :=
  if old = op.slowAt then .acquire op else .exchange op old

/-- The list operation of the slow path on the node of the cache. -/
def dirtyLink (op : DirtyOp) (node : γ → ListNode γ) (list : ListHead γ) (cache : γ) :
    (γ → ListNode γ) × ListHead γ :=
  match op with
  | .mark => listAppend node list cache
  | .clear => listRemove node list cache

/-- The next operation of a task. Source: `cache_mark_page_dirty` (`cache.c:128`) and
`cache_clear_page_dirty` (`cache.c:153`), cut at their atomic operations and at their lock. -/
def dirtyGo (cache : γ) (s : DirtySystem τ π γ) (t : τ) : DirtySystem τ π γ :=
  match s.phase t with
  | .idle => s
  | .flag op page =>
    let old := s.flags page
    let s := { s with flags := update s.flags page (op.setFlags old) }
    s.move t (if op.Changes old then .pages op else .idle)
  | .pages op => { s with dirtyPages := op.count s.dirtyPages }.move t (.load op)
  | .load op => s.move t (dirtyLooks op s.dirtyCount)
  | .exchange op old =>
    if s.dirtyCount = old then { s with dirtyCount := op.count old }.move t .idle
    else s.move t (dirtyLooks op s.dirtyCount)
  | .acquire op =>
    match s.dirtyLock with
    | some _ => s
    | none => { s with dirtyLock := some t }.move t (.count op)
  | .count op =>
    let old := s.dirtyCount
    { s with dirtyCount := op.count old }.move t (if old = op.slowAt then .link op else .release op)
  | .link op =>
    let (node, list) := dirtyLink op s.node s.dirtyCaches cache
    { s with node := node, dirtyCaches := list }.move t (.release op)
  | .release _ => { s with dirtyLock := none }.move t .idle

/-- One step of the system. -/
def dirtyStep (cache : γ) (s : DirtySystem τ π γ) : DirtyStep τ π → DirtySystem τ π γ
  | .call t op page =>
    match s.phase t with
    | .idle => s.move t (.flag op page)
    | _ => s
  | .go t => dirtyGo cache s t
  | .spurious t =>
    match s.phase t with
    | .exchange op _ => s.move t (dirtyLooks op s.dirtyCount)
    | _ => s

/-! ## Flags and counters -/

theorem flagDirty_iff {flags : BitVec 32} : FlagDirty flags ↔ flags.getLsbD 0 = true := by
  rw [FlagDirty, pageFlagDirty, show (0x01 : BitVec 32) = 1#32 from rfl,
    and_one_eq_setWidth_ofBool_getLsbD]
  cases flags.getLsbD 0 <;> decide

namespace DirtyOp

/-- The change of a counter, as a number. -/
def delta : DirtyOp → Int
  | mark => 1
  | clear => -1

/-- The side of the border between `0` and `1` that the call moves `dirty_count` to. -/
def Above : DirtyOp → Prop
  | mark => True
  | clear => False

theorem flagDirty_setFlags (op : DirtyOp) (flags : BitVec 32) :
    FlagDirty (op.setFlags flags) ↔ op.Above := by
  cases op <;> simp [setFlags, Above, flagDirty_iff, pageFlagDirty]

variable {op : DirtyOp} {n : BitVec 64}

theorem toInt_count (hlo : -2 ^ 63 < n.toInt) (hhi : n.toInt < 2 ^ 63 - 1) :
    (op.count n).toInt = n.toInt + op.delta := by
  cases op with
  | mark =>
    rw [count, toInt_add, show (1 : BitVec 64).toInt = 1 from rfl]
    exact Int.bmod_eq_of_le (by omega) (by omega)
  | clear =>
    rw [count, toInt_sub, delta, show (1 : BitVec 64).toInt = 1 from rfl]
    exact Int.bmod_eq_of_le (by omega) (by omega)

/-- A value of `dirty_count` is the one left to the slow path when it is that number. -/
theorem eq_slowAt_iff : n = op.slowAt ↔ n.toInt = (match op with | mark => 0 | clear => 1) := by
  rw [← toInt_inj]
  cases op <;> rfl

/-- **The border.** Counting crosses the border between `0` and `1` exactly from the value that is
left to the slow path, and then to the side of the call. -/
theorem count_border (op : DirtyOp) (hlo : -2 ^ 63 < n.toInt) (hhi : n.toInt < 2 ^ 63 - 1) :
    (n ≠ op.slowAt → (1 ≤ (op.count n).toInt ↔ 1 ≤ n.toInt)) ∧
    (n = op.slowAt → (1 ≤ (op.count n).toInt ↔ op.Above) ∧ (1 ≤ n.toInt ↔ ¬ op.Above)) := by
  rw [toInt_count hlo hhi, Ne, eq_slowAt_iff]
  cases op with
  | mark => simp only [delta, Above, iff_true, not_true, iff_false]; omega
  | clear => simp only [delta, Above, iff_false, not_false_iff, iff_true]; omega

end DirtyOp

namespace DirtyPhase

variable (x : DirtyPhase π)

/-- The task holds `dirty_lock`. -/
def Locked : DirtyPhase π → Prop
  | count _ | link _ | release _ => True
  | _ => False

/-- What the task will still add to `dirty_count`, with the sign changed: its flag operation is done
and its count is not. -/
def pending : DirtyPhase π → Int
  | pages op | load op | exchange op _ | acquire op | count op => -op.delta
  | _ => 0

omit [DecidableEq π] in
theorem pending_bounds : -1 ≤ x.pending ∧ x.pending ≤ 1 := by
  cases x with
  | idle | flag | link | release => simp [pending]
  | pages op | load op | exchange op | acquire op | count op => cases op <;> simp [pending, DirtyOp.delta]

omit [DecidableEq π] in
/-- The phase after a look at `dirty_count`. -/
theorem looks (op : DirtyOp) (n : BitVec 64) :
    (dirtyLooks op n : DirtyPhase π).pending = -op.delta ∧
      ¬ (dirtyLooks op n : DirtyPhase π).Locked ∧
      (∀ op', (dirtyLooks op n : DirtyPhase π) ≠ .link op') ∧
      ∀ op' old, (dirtyLooks op n : DirtyPhase π) = .exchange op' old → old ≠ op'.slowAt := by
  unfold dirtyLooks
  split
  · refine ⟨rfl, id, nofun, nofun⟩
  refine ⟨rfl, id, nofun, fun op' old h => ?_⟩
  cases h
  assumption

end DirtyPhase
/-! ## The invariant of interleavings -/

namespace DirtySystem

variable [Fintype τ] [Fintype π] {cache : γ} {s : DirtySystem τ π γ} {t : τ} {x : DirtyPhase π}

/-- The number of pages with the dirty flag. -/
def dirtyTotal (s : DirtySystem τ π γ) : Nat := (Finset.univ.filter fun p => FlagDirty (s.flags p)).card

/-- The invariant. Only the holder of the lock is in the locked section; the count is what the flags
say, but for the tasks between their flag operation and their count; and the cache is on the list
when the count is at least `1`, but for a task about to make it so. -/
structure Inv (cache : γ) (s : DirtySystem τ π γ) : Prop where
  lock : ∀ t, (s.phase t).Locked ↔ s.dirtyLock = some t
  exchange : ∀ t op old, s.phase t = .exchange op old → old ≠ op.slowAt
  balance : s.dirtyCount.toInt = s.dirtyTotal + ∑ t, (s.phase t).pending
  list : ∃ xs, s.dirtyCaches.Rep s.node xs ∧
    ((∀ t op, s.phase t ≠ .link op) → (cache ∈ xs ↔ 1 ≤ s.dirtyCount.toInt)) ∧
    ∀ t op, s.phase t = .link op →
      (cache ∈ xs ↔ ¬ op.Above) ∧ (1 ≤ s.dirtyCount.toInt ↔ op.Above)

/-- Tasks and pages are fewer than half of the numbers of a counter. -/
abbrev Fits (τ π : Type) [Fintype τ] [Fintype π] : Prop :=
  Fintype.card τ + Fintype.card π + 1 < 2 ^ 63

namespace Inv

omit [DecidableEq τ] [DecidableEq π] [DecidableEq γ] in
theorem range (hfits : Fits τ π) (h : s.Inv cache) :
    -2 ^ 63 < s.dirtyCount.toInt ∧ s.dirtyCount.toInt < 2 ^ 63 - 1 := by
  have hpages : s.dirtyTotal ≤ Fintype.card π := card_le_univ _
  have hhi : ∑ t, (s.phase t).pending ≤ Fintype.card τ := by
    simpa using sum_le_card_nsmul univ _ 1 fun t _ => (s.phase t).pending_bounds.2
  have hlo : -(Fintype.card τ : Int) ≤ ∑ t, (s.phase t).pending := by
    simpa using card_nsmul_le_sum univ _ (-1) fun t _ => (s.phase t).pending_bounds.1
  have hb := h.balance
  omega

section Step

variable {s' : DirtySystem τ π γ} (h : s.Inv cache)

include h
omit [DecidableEq π] [DecidableEq γ]

/-- **One task moves.** What is to be shown of the state after a step of the task `t` that takes it
to the phase `x`. -/
theorem of_update (hphase : s'.phase = update s.phase t x)
    (hexchange : ∀ op old, x = .exchange op old → old ≠ op.slowAt)
    (hlock : x.Locked ↔ s'.dirtyLock = some t)
    (hothers : ∀ t', t' ≠ t → (s'.dirtyLock = some t' ↔ s.dirtyLock = some t'))
    (hbalance : s'.dirtyCount.toInt - s'.dirtyTotal - x.pending =
      s.dirtyCount.toInt - s.dirtyTotal - (s.phase t).pending)
    (hlist : ∃ xs, s'.dirtyCaches.Rep s'.node xs ∧
      ((∀ t op, s'.phase t ≠ .link op) → (cache ∈ xs ↔ 1 ≤ s'.dirtyCount.toInt)) ∧
      ∀ t op, s'.phase t = .link op →
        (cache ∈ xs ↔ ¬ op.Above) ∧ (1 ≤ s'.dirtyCount.toInt ↔ op.Above)) :
    s'.Inv cache := by
  refine ⟨fun t' => ?_, fun t' op old h' => ?_, ?_, hlist⟩
  · rw [hphase, update_apply]
    split
    · next heq => rw [heq]; exact hlock
    next hne => rw [hothers t' hne]; exact h.lock t'
  · rw [hphase, update_apply] at h'
    split at h'
    · exact hexchange op old h'
    exact h.exchange t' op old h'
  rw [hphase, Tasks.sum_phase_update]
  have := h.balance
  omega

theorem list_of_same (hphase : s'.phase = update s.phase t x)
    (ht : ∀ op, s.phase t ≠ .link op) (hx : ∀ op, x ≠ .link op)
    (hrep : ∀ xs, s.dirtyCaches.Rep s.node xs → s'.dirtyCaches.Rep s'.node xs)
    (hside : 1 ≤ s'.dirtyCount.toInt ↔ 1 ≤ s.dirtyCount.toInt) :
    ∃ xs, s'.dirtyCaches.Rep s'.node xs ∧
      ((∀ t op, s'.phase t ≠ .link op) → (cache ∈ xs ↔ 1 ≤ s'.dirtyCount.toInt)) ∧
      ∀ t op, s'.phase t = .link op →
        (cache ∈ xs ↔ ¬ op.Above) ∧ (1 ≤ s'.dirtyCount.toInt ↔ op.Above) := by
  obtain ⟨xs, hxs, hout, hin⟩ := h.list
  have hiff (t' : τ) (op : DirtyOp) : s'.phase t' = .link op ↔ s.phase t' = .link op := by
    rw [hphase, update_apply]
    split
    · next heq => rw [heq]; exact ⟨fun h' => absurd h' (hx op), fun h' => absurd h' (ht op)⟩
    rfl
  refine ⟨xs, hrep xs hxs, fun hno => ?_, fun t' op h' => ?_⟩
  · rw [hside]
    exact hout fun t' op h' => hno t' op ((hiff t' op).2 h')
  rw [hside]
  exact hin t' op ((hiff t' op).1 h')

theorem move (hp : x.pending = (s.phase t).pending) (hl : x.Locked ↔ (s.phase t).Locked)
    (ht : ∀ op, s.phase t ≠ .link op) (hx : ∀ op, x ≠ .link op)
    (he : ∀ op old, x = .exchange op old → old ≠ op.slowAt) : (s.move t x).Inv cache :=
  h.of_update rfl he (hl.trans (h.lock t)) (fun _ _ => Iff.rfl) (by rw [hp]; rfl)
    (h.list_of_same rfl ht hx (fun _ => id) Iff.rfl)

omit [DecidableEq τ] in
theorem no_link (ht : (s.phase t).Locked) {t' : τ} (hne : t' ≠ t) (op : DirtyOp) :
    s.phase t' ≠ .link op := by
  intro h'
  have h1 := (h.lock t').1 (by rw [h']; trivial)
  rw [(h.lock t).1 ht] at h1
  exact hne (Option.some.inj h1).symm

end Step

omit [DecidableEq τ] [DecidableEq γ] [Fintype τ] in
theorem dirtyTotal_update (s s' : DirtySystem τ π γ) (page : π) (flags : BitVec 32)
    (hflags : s'.flags = update s.flags page flags) :
    (s'.dirtyTotal : Int) = s.dirtyTotal - (if FlagDirty (s.flags page) then 1 else 0) +
      if FlagDirty flags then 1 else 0 := by
  have hsum (s : DirtySystem τ π γ) :
      (s.dirtyTotal : Int) = ∑ p, if FlagDirty (s.flags p) then 1 else 0 := by
    rw [dirtyTotal, card_filter]
    push_cast
    rfl
  rw [hsum s', hsum s, hflags]
  exact Tasks.sum_phase_update (fun w => if FlagDirty w then (1 : Int) else 0) s.flags page flags

variable (h : s.Inv cache) {op : DirtyOp}

include h

theorem flag {page : π} (ht : s.phase t = .flag op page) : (dirtyGo cache s t).Inv cache := by
  set x : DirtyPhase π := if op.Changes (s.flags page) then .pages op else .idle with hx
  have hgo : dirtyGo cache s t =
      { s with flags := update s.flags page (op.setFlags (s.flags page)) }.move t x := by
    rw [dirtyGo, ht]
  have hcases : x = .pages op ∨ x = .idle := by rw [hx]; split <;> simp
  have hlink : ∀ op', x ≠ .link op' := by rcases hcases with h' | h' <;> simp [h']
  have htotal := dirtyTotal_update s (dirtyGo cache s t) page (op.setFlags (s.flags page))
    (by rw [hgo]; rfl)
  rw [hgo] at htotal ⊢
  refine h.of_update rfl ?_ ?_ (fun _ _ => Iff.rfl) ?_
    (h.list_of_same rfl (by simp [ht]) hlink (fun _ => id) Iff.rfl)
  · rcases hcases with h' | h' <;> simp [h']
  · have hl : ¬ (s.phase t).Locked := by rw [ht]; exact id
    have hx : ¬ x.Locked := by rcases hcases with h' | h' <;> rw [h'] <;> exact id
    exact iff_of_false hx (mt (h.lock t).2 hl)
  show s.dirtyCount.toInt - _ - x.pending = s.dirtyCount.toInt - s.dirtyTotal - (s.phase t).pending
  rw [htotal, ht, hx]
  cases op <;> by_cases hd : FlagDirty (s.flags page) <;>
    simp [hd, DirtyOp.flagDirty_setFlags, DirtyOp.Changes, DirtyOp.Above, DirtyPhase.pending,
      DirtyOp.delta] <;> omega

omit [DecidableEq π] [DecidableEq γ] in
theorem exchanged (hfits : Fits τ π) {old : BitVec 64} (ht : s.phase t = .exchange op old)
    (hold : s.dirtyCount = old) :
    ({ s with dirtyCount := op.count old }.move t .idle).Inv cache := by
  subst hold
  have hrange := h.range hfits
  refine h.of_update rfl (by simp) ?_ (fun _ _ => Iff.rfl) ?_
    (h.list_of_same rfl (by simp [ht]) (by simp) (fun _ => id) ?_)
  · exact iff_of_false id (mt (h.lock t).2 (by rw [ht]; exact id))
  · show (op.count s.dirtyCount).toInt - s.dirtyTotal - 0 = _
    rw [DirtyOp.toInt_count hrange.1 hrange.2, ht, DirtyPhase.pending]
    omega
  exact (DirtyOp.count_border _ hrange.1 hrange.2).1 (h.exchange t op _ ht)

omit [DecidableEq π] [DecidableEq γ] in
theorem acquired (ht : s.phase t = .acquire op) (hlock : s.dirtyLock = none) :
    ({ s with dirtyLock := some t }.move t (.count op)).Inv cache := by
  refine h.of_update rfl (by simp) ⟨fun _ => rfl, fun _ => trivial⟩ (fun t' hne => ?_) ?_
    (h.list_of_same rfl (by simp [ht]) (by simp) (fun _ => id) Iff.rfl)
  · show some t = some t' ↔ s.dirtyLock = some t'
    rw [hlock]
    simp [Ne.symm hne]
  rw [ht]; rfl

omit [DecidableEq π] [DecidableEq γ] in
/-- The operation on `dirty_count` under the lock. -/
theorem counted (hfits : Fits τ π) (ht : s.phase t = .count op) :
    ({ s with dirtyCount := op.count s.dirtyCount }.move t
      (if s.dirtyCount = op.slowAt then .link op else .release op)).Inv cache := by
  have hrange := h.range hfits
  have hlocked : (s.phase t).Locked := by rw [ht]; trivial
  obtain ⟨hsame, hcross⟩ := op.count_border hrange.1 hrange.2
  have hbalance : (op.count s.dirtyCount).toInt - s.dirtyTotal - 0 =
      s.dirtyCount.toInt - s.dirtyTotal - (s.phase t).pending := by
    rw [DirtyOp.toInt_count hrange.1 hrange.2, ht, DirtyPhase.pending]
    omega
  split
  · -- the count crosses the border, and the list operation is still to come
    next hslow =>
    refine h.of_update rfl (by simp) ⟨fun _ => (h.lock t).1 hlocked, fun _ => trivial⟩
      (fun _ _ => Iff.rfl) hbalance ?_
    obtain ⟨xs, hxs, hout, -⟩ := h.list
    refine ⟨xs, hxs, fun hno => ?_, fun t' op' h' => ?_⟩
    · exact absurd (update_self t _ _) (hno t op)
    have hop : op' = op := by
      rw [move_phase, update_apply] at h'
      split at h'
      · cases h'; rfl
      next hne => exact absurd h' (h.no_link hlocked hne op')
    subst hop
    refine ⟨?_, (hcross hslow).1⟩
    rw [hout fun t1 op1 h1 => ?_]
    · exact (hcross hslow).2
    by_cases hne : t1 = t
    · rw [hne, ht] at h1; cases h1
    exact h.no_link hlocked hne op1 h1
  next hslow =>
  exact h.of_update rfl (by simp) ⟨fun _ => (h.lock t).1 hlocked, fun _ => trivial⟩
    (fun _ _ => Iff.rfl) hbalance
    (h.list_of_same rfl (by simp [ht]) (by simp) (fun _ => id) (hsame hslow))

/-- The list operation. -/
theorem linked (ht : s.phase t = .link op) : (dirtyGo cache s t).Inv cache := by
  have hlocked : (s.phase t).Locked := by rw [ht]; trivial
  obtain ⟨xs, hxs, -, hin⟩ := h.list
  obtain ⟨hmem, hside⟩ := hin t op ht
  have hgo : dirtyGo cache s t = { s with
        node := (dirtyLink op s.node s.dirtyCaches cache).1
        dirtyCaches := (dirtyLink op s.node s.dirtyCaches cache).2 }.move t (.release op) := by
    rw [dirtyGo, ht]
  have hrep : ∃ ys, (dirtyLink op s.node s.dirtyCaches cache).2.Rep
      (dirtyLink op s.node s.dirtyCaches cache).1 ys ∧ (cache ∈ ys ↔ op.Above) := by
    cases op with
    | mark =>
      exact ⟨_, hxs.append fun hc => (hmem.1 hc) trivial, by simp [DirtyOp.Above]⟩
    | clear =>
      have hc : cache ∈ xs := hmem.2 id
      exact ⟨_, hxs.remove hc, by simp [DirtyOp.Above, (hxs.nodup).mem_erase_iff]⟩
  obtain ⟨ys, hys, hmem'⟩ := hrep
  rw [hgo]
  refine h.of_update rfl (by simp) ⟨fun _ => (h.lock t).1 hlocked, fun _ => trivial⟩
    (fun _ _ => Iff.rfl) (by rw [ht]; rfl) ⟨ys, hys, fun _ => hmem'.trans hside.symm, ?_⟩
  intro t' op' h'
  rw [move_phase, update_apply] at h'
  split at h'
  · cases h'
  next hne => exact absurd h' (h.no_link hlocked hne op')

omit [DecidableEq π] [DecidableEq γ] in
theorem released (ht : s.phase t = .release op) :
    ({ s with dirtyLock := none }.move t .idle).Inv cache := by
  have hheld := (h.lock t).1 (by rw [ht]; trivial)
  refine h.of_update rfl (by simp) ⟨False.elim, fun h' => by cases h'⟩ (fun t' hne => ?_)
    (by rw [ht]; rfl) (h.list_of_same rfl (by simp [ht]) (by simp) (fun _ => id) Iff.rfl)
  rw [hheld]
  exact ⟨fun h' => (by cases h'), fun h' => absurd (Option.some.inj h').symm hne⟩

omit [DecidableEq π] [DecidableEq γ] in
/-- A look at `dirty_count`, from the load or from a compare-and-exchange that has failed. -/
theorem look (ht : s.phase t = .load op ∨ ∃ old, s.phase t = .exchange op old) :
    (s.move t (dirtyLooks op s.dirtyCount)).Inv cache := by
  obtain ⟨h1, h2, h3, h4⟩ := @DirtyPhase.looks π op s.dirtyCount
  rcases ht with ht | ⟨old, ht⟩
  all_goals
    exact h.move (by rw [h1, ht]; rfl) (iff_of_false h2 (by rw [ht]; exact id)) (by simp [ht]) h3 h4

/-- A task goes on with its call. -/
theorem go (hfits : Fits τ π) (t : τ) : (dirtyGo cache s t).Inv cache := by
  cases ht : s.phase t with
  | idle => rw [dirtyGo, ht]; exact h
  | flag op page => exact h.flag ht
  | pages op =>
    rw [dirtyGo, ht]
    exact h.of_update rfl (by simp) (iff_of_false id (mt (h.lock t).2 (by rw [ht]; exact id)))
      (fun _ _ => Iff.rfl) (by rw [ht]; rfl)
      (h.list_of_same rfl (by simp [ht]) (by simp) (fun _ => id) Iff.rfl)
  | load op => rw [dirtyGo, ht]; exact h.look (.inl ht)
  | exchange op old =>
    rw [dirtyGo, ht]
    dsimp only
    split
    · next hold => exact h.exchanged hfits ht hold
    exact h.look (.inr ⟨old, ht⟩)
  | acquire op =>
    rw [dirtyGo, ht]
    dsimp only
    split
    · exact h
    next hlock => exact h.acquired ht hlock
  | count op => rw [dirtyGo, ht]; exact h.counted hfits ht
  | link op => exact h.linked ht
  | release op => rw [dirtyGo, ht]; exact h.released ht

/-- **Every step keeps the invariant.** -/
theorem step (hfits : Fits τ π) (i : DirtyStep τ π) : (dirtyStep cache s i).Inv cache := by
  cases i with
  | call t op page =>
    rw [dirtyStep]
    split
    · next ht =>
      exact h.move (by rw [ht]; rfl) (iff_of_false id (by rw [ht]; exact id)) (by simp [ht])
        (by simp) (by simp)
    exact h
  | go t => exact h.go hfits t
  | spurious t =>
    rw [dirtyStep]
    split
    · next op old ht => exact h.look (.inr ⟨old, ht⟩)
    exact h

end Inv

/-- A state in which no call is in progress: the count is that of the dirty pages, and the cache is on
the list of dirty caches when it has one. A new cache is in such a state. -/
structure Quiet (cache : γ) (s : DirtySystem τ π γ) : Prop where
  idle : ∀ t, s.phase t = .idle
  lock : s.dirtyLock = none
  count : s.dirtyCount.toInt = s.dirtyTotal
  list : ∃ xs, s.dirtyCaches.Rep s.node xs ∧ (cache ∈ xs ↔ 1 ≤ s.dirtyCount.toInt)

/-- No node is on the list twice; the cache is on it exactly when its count is at least `1`, whenever
the lock is free; it is appended only while it is absent and removed only while it is present; and
between calls the count is that of the dirty pages. -/
structure Sound (cache : γ) (s : DirtySystem τ π γ) : Prop where
  wellFormed : ∃ xs, s.dirtyCaches.Rep s.node xs
  onList : s.dirtyLock = none → (s.dirtyCaches.On s.node cache ↔ 1 ≤ s.dirtyCount.toInt)
  appendAbsent : ∀ t, s.phase t = .link .mark → ¬ s.dirtyCaches.On s.node cache
  removePresent : ∀ t, s.phase t = .link .clear → s.dirtyCaches.On s.node cache
  count : (∀ t, s.phase t = .idle) → s.dirtyCount.toInt = s.dirtyTotal

omit [DecidableEq τ] [DecidableEq π] [DecidableEq γ] in
theorem Quiet.inv (h : s.Quiet cache) : s.Inv cache := by
  obtain ⟨xs, hxs, hmem⟩ := h.list
  refine ⟨fun t => ?_, fun t op old h' => ?_, ?_, xs, hxs, fun _ => hmem, fun t op h' => ?_⟩
  · rw [h.idle t, h.lock]
    exact iff_of_false id (by simp)
  · rw [h.idle t] at h'; cases h'
  · rw [h.count, sum_eq_zero fun t _ => by rw [h.idle t]; rfl, add_zero]
  rw [h.idle t] at h'; cases h'

omit [DecidableEq τ] [DecidableEq π] [DecidableEq γ] in
theorem Inv.sound (h : s.Inv cache) : s.Sound cache := by
  obtain ⟨xs, hxs, hout, hin⟩ := h.list
  refine ⟨⟨xs, hxs⟩, fun hlock => ?_, fun t ht => ?_, fun t ht => ?_, fun hidle => ?_⟩
  · rw [hxs.on_iff]
    refine hout fun t op ht => ?_
    have := (h.lock t).1 (by rw [ht]; trivial)
    rw [hlock] at this
    cases this
  · rw [hxs.on_iff, (hin t _ ht).1]
    exact not_not_intro trivial
  · rw [hxs.on_iff, (hin t _ ht).1]
    exact id
  rw [h.balance, sum_eq_zero fun t _ => by rw [hidle t]; rfl, add_zero]

end DirtySystem

/-! ## Every interleaving -/

/-- A task, by the address of its `task_t`, which is a multiple of eight. -/
abbrev TaskAddr := Fin (2 ^ 61)

/-- A page, by its page frame number. Source: the bit fields of `page_t` (`pmm.h:29`). -/
abbrev PageFrame := Fin (2 ^ 42)

/-- **The list of dirty caches.** However the operations of tasks follow each other,
`cache_mark_page_dirty` and `cache_clear_page_dirty` keep the cache on `dirty_caches` exactly as long
as its `dirty_count` is at least `1`. -/
theorem cache_dirty_sound {cache : γ} {s₀ : DirtySystem TaskAddr PageFrame γ}
    (h₀ : s₀.Quiet cache) (steps : List (DirtyStep TaskAddr PageFrame)) :
    (Tasks.run (dirtyStep cache) s₀ steps).Sound cache := by
  have hfits : DirtySystem.Fits TaskAddr PageFrame := by
    simp only [DirtySystem.Fits, Fintype.card_fin]
    decide
  exact (Tasks.run_invariant (fun _ i h => h.step hfits i) h₀.inv steps).sound

/-- A cache without dirty pages, alone. -/
def dirtyInit : DirtySystem TaskAddr PageFrame Nat where
  flags _ := 0
  dirtyCount := 0
  dirtyPages := 0
  dirtyLock := none
  dirtyCaches := {}
  node _ := ⟨none, none⟩
  phase _ := .idle

/-- A page is cleared by a second task before the first one, which has marked it, has counted it. -/
theorem cache_dirty_sound_init :
    (Tasks.run (dirtyStep 0) dirtyInit
      [.call 0 .mark 7, .go 0, .call 1 .clear 7, .go 1, .go 1, .go 1, .go 1, .go 0]).Sound 0 := by
  have hflag : ¬ FlagDirty 0 := by decide
  have hclean : dirtyInit.dirtyTotal = 0 := card_eq_zero.2 (filter_eq_empty_iff.2 fun _ _ => hflag)
  have hquiet : dirtyInit.Quiet 0 :=
    ⟨fun _ => rfl, rfl, by rw [hclean]; rfl, [], Dll.Rep.nil _, by decide⟩
  exact cache_dirty_sound hquiet _

end Stanix
