import Stanix.Base.Tasks
import Mathlib.Algebra.Order.BigOperators.Group.Finset
import Mathlib.Tactic.Linarith

/-!
# References to a cached dentry

`kernel/fs/vfs/vdentry.c`: a dentry without references stays in the cache and is put on a list of
dentries that may be evicted (the LRU); the lookup that finds it there takes it off. Tasks drop
references (`vfs_dentry_release`) and take them (the fast path of `vfs_lookup`) in any order, one
operation on the reference count or one section under `lru_lock` at a time.

A release counts down to zero before it takes the lock of the list. A lookup in between takes the dentry
off a list on which it is not (`dentry_lru_race`); `dentry_lru_sound` is about the other runs.

The dentry is one that may be cached: populated, linked, on a file system with a dentry cache.
-/

namespace Stanix

open Function

/-- What happens to the dentry on the LRU. -/
inductive LruEvent
  | insert
  | remove
  deriving DecidableEq

/-- Where a task is in its call. -/
inductive LruPhase
  /-- In no call. -/
  | idle
  /-- In `vfs_dentry_release`, before `ref_count_dec_if_not_one`. -/
  | release
  /-- The reference may be the last one; before taking the lock of the parent's children. -/
  | acquire
  /-- Under that lock, before `ref_count_dec`. -/
  | decrement
  /-- The count went down to zero; before the section that puts the dentry on the LRU. -/
  | insert
  /-- Before giving back the lock of the parent's children. -/
  | unlock
  /-- In `vfs_lookup`, before `vfs_dentry_ref_if_not_zero`. -/
  | lookup
  /-- The count was zero; before the section that takes the dentry off the LRU. -/
  | take
  deriving DecidableEq

/-- A dentry and the tasks that use it: its count, the references that are held and not being
dropped, whether it has a parent and which task has the lock of the parent's children, and what
happened on the LRU, the last event first. -/
structure DentrySystem (τ : Type) where
  refCount : Nat
  held : Nat
  hasParent : Bool
  childrenLock : Option τ
  events : List LruEvent
  phase : τ → LruPhase

/-- A step of a task: it enters a call, or goes on with the one it is in. -/
inductive DentryStep (τ : Type)
  | release (t : τ)
  | lookup (t : τ)
  | go (t : τ)

variable {τ : Type} [DecidableEq τ]

namespace DentrySystem

/-- A task moves to another phase. -/
def move (s : DentrySystem τ) (t : τ) (x : LruPhase) : DentrySystem τ :=
  { s with phase := update s.phase t x }

/-- A task leaves its lookup with a reference. -/
def hold (s : DentrySystem τ) (t : τ) : DentrySystem τ :=
  { s with refCount := s.refCount + 1, held := s.held + 1 }.move t .idle

/-- The next operation of a task. Source: `vfs_dentry_release` (`vdentry.c:72`) and the fast path of
`vfs_lookup` (`vdentry.c:176`). -/
def go (s : DentrySystem τ) (t : τ) : DentrySystem τ :=
  match s.phase t with
  | .idle => s
  | .release =>
    if s.refCount ≠ 1 then { s with refCount := s.refCount - 1 }.move t .idle else s.move t .acquire
  | .acquire =>
    if s.hasParent then
      match s.childrenLock with
      | some _ => s
      | none => { s with childrenLock := some t }.move t .decrement
    else s.move t .decrement
  | .decrement =>
    { s with refCount := s.refCount - 1 }.move t (if s.refCount = 1 then .insert else .unlock)
  | .insert => { s with events := .insert :: s.events }.move t .unlock
  | .unlock =>
    { s with childrenLock := if s.hasParent then none else s.childrenLock }.move t .idle
  | .lookup => if s.refCount ≠ 0 then s.hold t else s.move t .take
  | .take =>
    if s.refCount ≠ 0 then s.hold t else { s with events := .remove :: s.events }.hold t

/-- One step of the system. A reference that is dropped is one that is held. -/
def step (s : DentrySystem τ) : DentryStep τ → DentrySystem τ
  | .release t =>
    if s.phase t = .idle ∧ 0 < s.held then { s with held := s.held - 1 }.move t .release else s
  | .lookup t => if s.phase t = .idle then s.move t .lookup else s
  | .go t => s.go t

end DentrySystem

/-! ## What should hold -/

/-- Whether the dentry is on the LRU, by what happened to it last. -/
def OnLru (events : List LruEvent) : Prop := events.head? = some .insert
  deriving Decidable

/-- Insertions and removals alternate, an insertion first. -/
def Alternates : List LruEvent → Prop
  | [] => True
  | .insert :: events => ¬ OnLru events ∧ Alternates events
  | .remove :: events => OnLru events ∧ Alternates events

/-- A task is between an operation on the count and the section under `lru_lock` that belongs to
it. -/
def LruPhase.Between (x : LruPhase) : Prop := x = .insert ∨ x = .take

/-- Insertions and removals alternate, and while no call is between its operation on the count and
its section, the dentry is on the LRU exactly if its count is zero. -/
structure DentrySystem.Sound (s : DentrySystem τ) : Prop where
  alternates : Alternates s.events
  onLru_iff : (∀ t, ¬ (s.phase t).Between) → (OnLru s.events ↔ s.refCount = 0)

/-- No lookup takes the dentry off the LRU while a release is about to put it there. -/
def LookupWaits (s : DentrySystem τ) : DentryStep τ → Prop
  | .go t => s.phase t = .take → s.refCount = 0 → ∀ t', s.phase t' ≠ .insert
  | _ => True

instance LookupWaits.instDecidable [Fintype τ] (s : DentrySystem τ) :
    ∀ i, Decidable (LookupWaits s i)
  | .go t => inferInstanceAs
      (Decidable (s.phase t = .take → s.refCount = 0 → ∀ t', s.phase t' ≠ .insert))
  | .release _ | .lookup _ => .isTrue trivial

/-! ## The invariant -/

/-- The references that a task has and has not yet counted down. -/
def LruPhase.refs : LruPhase → Int
  | .release | .acquire | .decrement => 1
  | _ => 0

theorem LruPhase.refs_nonneg (x : LruPhase) : 0 ≤ x.refs := by cases x <;> decide

namespace DentrySystem

variable [Fintype τ] {s : DentrySystem τ}

/-- The invariant: the count is the number of references; a task that is about to put the dentry on
the LRU is the only one, and the count is zero and the dentry off the list; without such a task it is
on the list exactly if the count is zero. -/
structure Inv (s : DentrySystem τ) : Prop where
  count : (s.refCount : Int) = s.held + ∑ t, (s.phase t).refs
  pending : ∀ t, s.phase t = .insert →
    s.refCount = 0 ∧ ¬ OnLru s.events ∧ ∀ t', s.phase t' = .insert → t' = t
  listed : (∀ t, s.phase t ≠ .insert) → (OnLru s.events ↔ s.refCount = 0)
  alternates : Alternates s.events

section

omit [DecidableEq τ]

theorem Inv.sound (h : s.Inv) : s.Sound :=
  ⟨h.alternates, fun hq => h.listed fun t ht => hq t (.inl ht)⟩

theorem Inv.refCount_pos (h : s.Inv) {t : τ} (ht : (s.phase t).refs = 1) : 0 < s.refCount := by
  have hle := Finset.single_le_sum (fun t _ => (s.phase t).refs_nonneg) (Finset.mem_univ t)
  have := h.count
  omega

theorem Inv.of_pos (h : s.Inv) (hpos : 0 < s.refCount) :
    (∀ t, s.phase t ≠ .insert) ∧ ¬ OnLru s.events := by
  have hno : ∀ t, s.phase t ≠ .insert := fun t ht => by
    have := (h.pending t ht).1
    omega
  exact ⟨hno, fun hon => by have := (h.listed hno).1 hon; omega⟩

end

open LruPhase

theorem sum_move (s : DentrySystem τ) (t : τ) (x : LruPhase) :
    ∑ t', ((s.move t x).phase t').refs = ∑ t', (s.phase t').refs - (s.phase t).refs + x.refs :=
  Tasks.sum_phase_update refs s.phase t x

omit [Fintype τ] in
theorem phase_move_insert {t t' : τ} {x : LruPhase} (hx : x ≠ .insert)
    (h : (s.move t x).phase t' = .insert) : t' ≠ t ∧ s.phase t' = .insert := by
  by_cases ht : t' = t
  · subst ht
    exact absurd ((update_self ..).symm.trans h) hx
  exact ⟨ht, (update_of_ne ht ..).symm.trans h⟩

section

variable (h : s.Inv) {t : τ}

include h

/-- A task moves on without touching the LRU, with the references accounted for and the count zero
before exactly if it is after. -/
theorem Inv.of_move {x y : LruPhase} (ht : s.phase t = y) (n held : Nat) (lock : Option τ)
    (hx : x ≠ .insert) (hy : y ≠ .insert)
    (hcount : (n : Int) - s.refCount = held - s.held + x.refs - y.refs)
    (hzero : n = 0 ↔ s.refCount = 0) :
    ({ s with refCount := n, held := held, childrenLock := lock }.move t x).Inv := by
  subst ht
  refine ⟨?_, fun t' ht' => ?_, fun hno => ?_, h.alternates⟩
  · have := h.count
    rw [sum_move]
    simp only [move]
    linarith
  · obtain ⟨-, ht'⟩ := phase_move_insert hx ht'
    obtain ⟨h0, hoff, huniq⟩ := h.pending t' ht'
    exact ⟨hzero.2 h0, hoff, fun t'' ht'' => huniq t'' (phase_move_insert hx ht'').2⟩
  refine (h.listed fun t' ht' => ?_).trans hzero.symm
  by_cases heq : t' = t
  · exact hy (heq ▸ ht')
  exact hno t' ((update_of_ne heq ..).trans ht')

theorem Inv.held (ht : s.phase t = .lookup ∨ s.phase t = .take)
    (hpos : s.refCount ≠ 0) : (s.hold t).Inv := by
  have hrefs : s.phase t ≠ .insert ∧ (s.phase t).refs = 0 := by
    rcases ht with ht | ht <;> rw [ht] <;> decide
  refine h.of_move rfl _ _ s.childrenLock (by decide) hrefs.1 ?_ (by omega)
  rw [hrefs.2]
  push_cast
  simp [refs]

/-- **The last reference goes.** The count is zero from here on, the dentry not yet on the LRU. -/
theorem Inv.last (ht : s.phase t = .decrement) (hone : s.refCount = 1) :
    ({ s with refCount := s.refCount - 1 }.move t .insert).Inv := by
  obtain ⟨hno, hoff⟩ := h.of_pos (by omega)
  have hwho (t' : τ) (ht' : update s.phase t insert t' = .insert) : t' = t := by
    by_contra hne
    exact hno t' ((update_of_ne hne ..).symm.trans ht')
  refine ⟨?_, fun t' ht' => ⟨by simp [move, hone], hoff, fun t'' ht'' => ?_⟩, fun hall => ?_,
    h.alternates⟩
  · have := h.count
    rw [sum_move]
    show ((s.refCount - 1 : Nat) : Int) = s.held + (∑ t', (s.phase t').refs - (s.phase t).refs + 0)
    rw [ht, show decrement.refs = 1 from rfl]
    omega
  · exact (hwho t'' ht'').trans (hwho t' ht').symm
  exact absurd (update_self ..) (hall t)

/-- **The dentry is put on the LRU** by the one task that is about to. -/
theorem Inv.inserted (ht : s.phase t = .insert) :
    ({ s with events := .insert :: s.events }.move t .unlock).Inv := by
  obtain ⟨hzero, hoff, huniq⟩ := h.pending t ht
  refine ⟨?_, fun t' ht' => ?_, fun _ => iff_of_true rfl hzero, hoff, h.alternates⟩
  · have := h.count
    rw [sum_move]
    show (s.refCount : Int) = s.held + (∑ t', (s.phase t').refs - (s.phase t).refs + 0)
    rw [ht, show insert.refs = 0 from rfl]
    omega
  obtain ⟨hne, ht'⟩ := phase_move_insert
    (by decide) ht'
  exact absurd (huniq t' ht') hne

/-- **The dentry is taken off the LRU**, where no task is about to put it there. -/
theorem Inv.taken (ht : s.phase t = .take) (hzero : s.refCount = 0)
    (hno : ∀ t', s.phase t' ≠ .insert) : ({ s with events := .remove :: s.events }.hold t).Inv := by
  have hon : OnLru s.events := (h.listed hno).2 hzero
  refine ⟨?_, fun t' ht' => ?_, fun _ => iff_of_false (by simp [hold, move, OnLru]) (by simp [hold, move]),
    hon, h.alternates⟩
  · have := h.count
    rw [hold, sum_move]
    show ((s.refCount + 1 : Nat) : Int) = ((s.held + 1 : Nat) : Int) +
      (∑ t', (s.phase t').refs - (s.phase t).refs + 0)
    rw [ht, show take.refs = 0 from rfl]
    omega
  obtain ⟨-, ht'⟩ := phase_move_insert (s := { s with
    events := .remove :: s.events, refCount := s.refCount + 1, held := s.held + 1 }) (by decide) ht'
  exact absurd ht' (hno t')

/-- **One operation** of a task. -/
theorem Inv.go (t : τ) (hw : LookupWaits s (.go t)) : (s.go t).Inv := by
  unfold DentrySystem.go
  cases ht : s.phase t with
  | idle => exact h
  | release =>
    have hpos := h.refCount_pos (t := t) (by rw [ht]; rfl)
    dsimp only
    split
    · next hne =>
      refine h.of_move ht _ s.held s.childrenLock (by decide) (by decide) ?_ (by omega)
      simp only [refs]
      omega
    exact h.of_move ht _ _ _ (by decide) (by decide) (by simp [refs]) Iff.rfl
  | acquire =>
    dsimp only
    split
    · split
      · exact h
      exact h.of_move ht _ _ _ (by decide) (by decide) (by simp [refs]) Iff.rfl
    exact h.of_move ht _ _ _ (by decide) (by decide) (by simp [refs]) Iff.rfl
  | decrement =>
    have hpos := h.refCount_pos (t := t) (by rw [ht]; rfl)
    by_cases hone : s.refCount = 1
    · simp only [hone, if_true]
      have := h.last ht hone
      rwa [hone] at this
    simp only [hone, if_false]
    refine h.of_move ht _ s.held s.childrenLock (by decide) (by decide) ?_ (by omega)
    simp only [refs]
    omega
  | insert => exact h.inserted ht
  | unlock =>
    exact h.of_move ht _ _ _ (by decide) (by decide) (by simp [refs]) Iff.rfl
  | lookup =>
    dsimp only
    split
    · next hpos => exact h.held (.inl ht) hpos
    exact h.of_move ht _ _ _ (by decide) (by decide) (by simp [refs]) Iff.rfl
  | take => ?_
  dsimp only
  split
  · next hpos => exact h.held (.inr ht) hpos
  next hzero =>
  have hzero := not_not.1 hzero
  exact h.taken ht hzero (hw ht hzero)

/-- **One step** of the system. -/
theorem Inv.step (i : DentryStep τ) (hw : LookupWaits s i) : (s.step i).Inv := by
  cases i with
  | release t =>
    simp only [DentrySystem.step]
    split
    · next hidle =>
      refine h.of_move hidle.1 s.refCount _ s.childrenLock (by decide) (by decide) ?_ Iff.rfl
      simp only [refs]
      omega
    exact h
  | lookup t =>
    simp only [DentrySystem.step]
    split
    · next hidle =>
      exact h.of_move hidle _ _ _ (by decide) (by decide) (by simp [refs]) Iff.rfl
    exact h
  | go t => exact h.go t hw

end

/-- A dentry that is in use, with no call under way. -/
def start (n : Nat) (hasParent : Bool) : DentrySystem τ where
  refCount := n + 1
  held := n + 1
  hasParent
  childrenLock := none
  events := []
  phase _ := .idle

omit [DecidableEq τ] in
theorem start_inv (n : Nat) (hasParent : Bool) : (start n hasParent : DentrySystem τ).Inv where
  count := by simp [start, refs]
  pending t ht := by simp [start] at ht
  listed _ := by simp [start, OnLru]
  alternates := trivial

end DentrySystem

/-- **The LRU of dentries.** For every number of tasks, in every run in which no lookup takes the
dentry off the LRU while a release is about to put it there, insertions and removals alternate, and
the dentry is on the LRU exactly if its count is zero whenever no call is between the two. -/
theorem dentry_lru_sound (tasks n : Nat) (hasParent : Bool) (steps : List (DentryStep (Fin tasks)))
    (hwaits : Tasks.StepsAll DentrySystem.step LookupWaits (.start n hasParent) steps) :
    (Tasks.run DentrySystem.step (.start n hasParent) steps).Sound :=
  (Tasks.run_invariant_of (fun _ i h hw => h.step i hw) (DentrySystem.start_inv n hasParent)
    hwaits).sound

/-- One task drops the last reference, and another one finds the dentry on the LRU afterwards. -/
theorem dentry_lru_sound_reuse :
    (Tasks.run DentrySystem.step (.start 0 true)
      [.release (0 : Fin 2), .go 0, .go 0, .go 0, .go 0, .go 0, .lookup 1, .go 1, .go 1]).Sound :=
  dentry_lru_sound 2 0 true _ (by decide)

/-- **A lookup between the count and the list.** The lookup takes the dentry off a list on which it
has never been. -/
theorem dentry_lru_race :
    ¬ ∀ (tasks n : Nat) (hasParent : Bool) (steps : List (DentryStep (Fin tasks))),
      (Tasks.run DentrySystem.step (.start n hasParent) steps).Sound := by
  intro h
  have halt := (h 2 0 true [.release 0, .go 0, .go 0, .go 0, .lookup 1, .go 1, .go 1]).alternates
  exact absurd halt.1 (by decide)

end Stanix
