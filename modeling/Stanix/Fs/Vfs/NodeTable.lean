import Stanix.Base.Tasks
import Mathlib.Algebra.Order.BigOperators.Group.Finset
import Mathlib.Tactic.Linarith

/-!
# The table of inodes of a superblock

`kernel/fs/vfs/vnode.c`: a superblock keeps the inodes in use in an xarray under their numbers.
`vfs_node_get` finds the inode of a number and takes a reference, or creates it; `vfs_node_release`
drops a reference and takes the inode out of the table with the last one. Tasks do this in any order,
one operation on the table or on a reference count at a time; what is local to a task (allocating an
inode, taking the lock of the table) belongs to the operation that follows it.

Of two tasks that miss the same number the second one drops its own inode again, the superblock of
which is still `NULL` (`node_table_race`). `node_table_sound` is about the other runs.

The inode that `vfs_node_get` has created is filled in by the file system that called it, which then
marks it ready or marks an error. The read side of the table is a section without preemption, and
`rcu_sync` waits for these sections.
-/

namespace Stanix

open Function Option Finset

/-- An inode: its number, its count, whether its superblock is set, `VNODE_FLAG_NEW` and
`VNODE_FLAG_ERROR`, and whether its memory was given back. -/
structure TableNode where
  number : Nat
  refCount : Nat
  superblock : Bool
  isNew : Bool
  error : Bool
  freed : Bool
  deriving DecidableEq

/-- What a task does after `vfs_node_release`: it returns, or it goes on to wait for the inode that
it found for a number. -/
abbrev AfterRelease := Option (Nat × Nat)

/-- Where a task is in its call. -/
inductive NodePhase
  /-- In no call. -/
  | idle
  /-- In `vfs_node_get`, before `xarray_get`. -/
  | get (number : Nat)
  /-- In the read section, before `vfs_node_ref_if_not_zero`. -/
  | ref (number node : Nat)
  /-- Before `vfs_node_allocate` and `xarray_raw_cmpxchg`. -/
  | create (number : Nat)
  /-- Under the lock, another inode is in the table; before `vfs_node_ref_if_not_zero`. -/
  | raced (number node old : Nat)
  /-- In `vfs_node_wait_ready_helper`. -/
  | wait (number node : Nat)
  /-- `vfs_node_get` has returned a new inode, which the caller is to fill in. -/
  | fill (node : Nat)
  /-- In `vfs_node_release`, before `ref_count_dec_if_not_one`. -/
  | release (node : Nat) (next : AfterRelease)
  /-- The reference may be the last one; before taking the lock and `ref_count_dec`. -/
  | last (node : Nat) (next : AfterRelease)
  /-- Under the lock, the count is zero; before `xarray_raw_clear`. -/
  | clear (node : Nat) (next : AfterRelease)
  /-- In `rcu_sync`, before the inode is given back. -/
  | sync (node : Nat) (next : AfterRelease)
  deriving DecidableEq

/-- Whether a task is in a read section of the table. -/
def NodePhase.reads : NodePhase → Bool
  | .ref .. => true
  | _ => false

/-- An inode that `vfs_node_get` returned: the number asked for, and the number and the count of the
inode at that moment. -/
structure NodeReturn where
  wanted : Nat
  number : Nat
  refCount : Nat

/-- What stops the kernel. -/
inductive NodeFault
  /-- The superblock of an inode is followed and is `NULL`. -/
  | null
  /-- An inode is used after its memory was given back. -/
  | freed
  deriving DecidableEq

/-- A superblock and the tasks that use it: the inodes created so far, the table and who has its
lock, the references that callers hold and are not dropping, and what `vfs_node_get` returned. -/
structure NodeSystem (τ : Type) where
  node : Nat → TableNode
  next : Nat
  table : Nat → Option Nat
  lock : Option τ
  held : Nat → Nat
  returned : List NodeReturn
  fault : Option NodeFault
  phase : τ → NodePhase

/-- A step of a task: it enters a call, goes on with the one it is in, finds no memory for an inode,
or has filled in the inode it created (with or without an error). -/
inductive NodeStep (τ : Type)
  | get (t : τ) (number : Nat)
  | release (t : τ) (node : Nat)
  | go (t : τ)
  | noMemory (t : τ)
  | filled (t : τ) (error : Bool)

variable {τ : Type} [DecidableEq τ]

namespace NodeSystem

/-- A task moves to another phase. -/
def move (s : NodeSystem τ) (t : τ) (x : NodePhase) : NodeSystem τ :=
  { s with phase := update s.phase t x }

/-- An inode is changed. -/
def setNode (s : NodeSystem τ) (a : Nat) (n : TableNode) : NodeSystem τ :=
  { s with node := update s.node a n }

/-- The count of an inode is changed. -/
def setCount (s : NodeSystem τ) (a count : Nat) : NodeSystem τ :=
  s.setNode a { s.node a with refCount := count }

/-- A task leaves `vfs_node_release`. -/
def after (s : NodeSystem τ) (t : τ) : AfterRelease → NodeSystem τ
  | none => s.move t .idle
  | some (number, node) => s.move t (.wait number node)

/-- `vfs_node_get` returns an inode. -/
def returns (s : NodeSystem τ) (wanted a : Nat) : NodeSystem τ :=
  { s with returned := ⟨wanted, (s.node a).number, (s.node a).refCount⟩ :: s.returned }

/-- An inode fresh from `vfs_node_allocate`, with its number. Source: `vfs_node_allocate`
(`vnode.c:75`). -/
def vfsNodeAllocate (number : Nat) : TableNode where
  number
  refCount := 1
  superblock := false
  isNew := true
  error := false
  freed := false

/-- `vfs_node_allocate`, the lock and `xarray_raw_cmpxchg`. Source: `vfs_node_get`
(`vnode.c:107`). -/
def create (s : NodeSystem τ) (t : τ) (number : Nat) : NodeSystem τ :=
  match s.lock with
  | some _ => s
  | none =>
    let s' := { s.setNode s.next (vfsNodeAllocate number) with next := s.next + 1 }
    match s.table number with
    | none =>
      ({ s' with table := update s.table number (some s.next) }.returns number s.next).move t
        (.fill s.next)
    | some old => { s' with lock := some t }.move t (.raced number s.next old)

/-- `vfs_node_ref_if_not_zero` on the inode that was in the table. Source: `vfs_node_get`
(`vnode.c:113`). -/
def raced (s : NodeSystem τ) (t : τ) (number a old : Nat) : NodeSystem τ :=
  if (s.node old).refCount ≠ 0 then
    { s.setCount old ((s.node old).refCount + 1) with lock := none }.move t
      (.release a (some (number, old)))
  else ({ s with lock := none }.returns number a).move t (.fill a)

/-- The last reference, unless another task took one meanwhile. Source: `vfs_node_release`
(`vnode.c:228`). -/
def last (s : NodeSystem τ) (t : τ) (a : Nat) (k : AfterRelease) : NodeSystem τ :=
  if (s.node a).superblock then
    match s.lock with
    | some _ => s
    | none =>
      if (s.node a).refCount > 1 then (s.setCount a ((s.node a).refCount - 1)).after t k
      else { s.setCount a ((s.node a).refCount - 1) with lock := some t }.move t (.clear a k)
  else { s with fault := some .null }

/-- The inode that the next operation of a task is on, which must not have been given back. -/
def used : NodePhase → Option Nat
  | .ref _ a | .raced _ _ a | .wait _ a | .release a _ | .last a _ | .clear a _ | .sync a _ => some a
  | _ => none

/-- The next operation of a task on an inode that was not given back. Source: `vfs_node_get`
(`vnode.c:96`), `vfs_node_wait_ready_helper` (`vnode.c:85`), `vfs_node_release` (`vnode.c:215`). -/
def operate [Fintype τ] (s : NodeSystem τ) (t : τ) : NodeSystem τ :=
  match s.phase t with
  | .idle | .fill _ => s
  | .get number =>
    match s.table number with
    | none => s.move t (.create number)
    | some a => s.move t (.ref number a)
  | .ref number a =>
    if (s.node a).refCount ≠ 0 then
      (s.setCount a ((s.node a).refCount + 1)).move t (.wait number a)
    else s.move t (.create number)
  | .create number => s.create t number
  | .raced number a old => s.raced t number a old
  | .wait number a =>
    if (s.node a).isNew then s
    else if (s.node a).error then s.move t (.release a none)
    else { s.returns number a with held := update s.held a (s.held a + 1) }.move t .idle
  | .release a k =>
    if (s.node a).refCount ≠ 1 then (s.setCount a ((s.node a).refCount - 1)).after t k
    else s.move t (.last a k)
  | .last a k => s.last t a k
  | .clear a k =>
    { s with table := update s.table (s.node a).number none, lock := none }.move t
      (.sync a k)
  | .sync a k =>
    if ∃ t', (s.phase t').reads then s
    else (s.setNode a { s.node a with freed := true }).after t k

/-- The next operation of a task. -/
def go [Fintype τ] (s : NodeSystem τ) (t : τ) : NodeSystem τ :=
  match used (s.phase t) with
  | none => s.operate t
  | some a => if (s.node a).freed then { s with fault := some .freed } else s.operate t

/-- The file system has filled in the inode that it created, and keeps the reference. -/
def filled (s : NodeSystem τ) (t : τ) (error : Bool) : NodeSystem τ :=
  match s.phase t with
  | .fill a =>
    { s.setNode a { s.node a with superblock := true, isNew := false, error } with
      held := update s.held a (s.held a + 1) }.move t .idle
  | _ => s

/-- One step of the system, which stops at a fault. A reference that is dropped is one that is
held. -/
def step [Fintype τ] (s : NodeSystem τ) (i : NodeStep τ) : NodeSystem τ :=
  if s.fault ≠ none then s
  else
    match i with
    | .get t number => if s.phase t = .idle then s.move t (.get number) else s
    | .release t a =>
      if s.phase t = .idle ∧ 0 < s.held a then
        { s with held := update s.held a (s.held a - 1) }.move t (.release a none)
      else s
    | .go t => s.go t
    | .noMemory t =>
      match s.phase t with
      | .create _ => s.move t .idle
      | _ => s
    | .filled t error => s.filled t error

/-- No inode yet. -/
def start : NodeSystem τ where
  node _ := ⟨0, 0, false, false, false, false⟩
  next := 0
  table _ := none
  lock := none
  held _ := 0
  returned := []
  fault := none
  phase _ := .idle

end NodeSystem

/-! ## What should hold -/

/-- No call has stopped the kernel; an inode with a count other than zero is the one in the table
under its number, hence the only one; every inode that `vfs_node_get` returned was in use and had the
number asked for. -/
structure NodeSystem.Sound (s : NodeSystem τ) : Prop where
  running : s.fault = none
  unique : ∀ a b, (s.node a).refCount ≠ 0 → (s.node b).refCount ≠ 0 →
    (s.node a).number = (s.node b).number → a = b
  stored : ∀ a, (s.node a).refCount ≠ 0 → s.table (s.node a).number = some a
  returned : ∀ r ∈ s.returned, r.number = r.wanted ∧ r.refCount ≠ 0

/-- The number for which a task is about to create an inode. -/
def NodePhase.creates : NodePhase → Option Nat
  | .create number => some number
  | _ => none

/-- No task creates an inode for a number of which an inode in use is in the table. -/
def CreatesFirst (s : NodeSystem τ) : NodeStep τ → Prop
  | .go t => ∀ number ∈ (s.phase t).creates, s.lock = none →
      ∀ old ∈ s.table number, (s.node old).refCount = 0
  | _ => True

instance CreatesFirst.instDecidable (s : NodeSystem τ) : ∀ i, Decidable (CreatesFirst s i)
  | .go t => inferInstanceAs (Decidable (∀ number ∈ (s.phase t).creates, s.lock = none →
      ∀ old ∈ s.table number, (s.node old).refCount = 0))
  | .get .. | .release .. | .noMemory _ | .filled .. => .isTrue trivial

/-! ## The invariant -/

/-- The references to an inode that a task still has to use after `vfs_node_release`. -/
def AfterRelease.refs (a : Nat) : AfterRelease → Int
  | none => 0
  | some (_, b) => if b = a then 1 else 0

/-- The references to an inode that a task has and has not yet counted down. -/
def NodePhase.refs (a : Nat) : NodePhase → Int
  | .wait _ b | .fill b | .raced _ b _ => if b = a then 1 else 0
  | .release b k | .last b k => (if b = a then 1 else 0) + AfterRelease.refs a k
  | .clear _ k | .sync _ k => AfterRelease.refs a k
  | .idle | .get _ | .ref .. | .create _ => 0

theorem AfterRelease.refs_nonneg (a : Nat) (k : AfterRelease) : 0 ≤ AfterRelease.refs a k := by
  rcases k with _ | ⟨_, b⟩
  · exact le_refl _
  simp only [AfterRelease.refs]
  split <;> decide

theorem NodePhase.refs_nonneg (a : Nat) (x : NodePhase) : 0 ≤ x.refs a := by
  have hif (b : Nat) : (0 : Int) ≤ if b = a then 1 else 0 := by split <;> decide
  cases x with
  | wait _ b | fill b | raced _ b _ => exact hif b
  | release b k | last b k => exact add_nonneg (hif b) (AfterRelease.refs_nonneg a k)
  | clear _ k | sync _ k => exact AfterRelease.refs_nonneg a k
  | idle | get _ | ref _ _ | create _ => exact le_refl _

/-- The inode that a task is taking down, its count being zero. -/
def NodePhase.ends : NodePhase → Option Nat
  | .clear a _ | .sync a _ => some a
  | _ => none

namespace NodeSystem

variable {s s' : NodeSystem τ} {t : τ} {x : NodePhase} {a : Nat}

/-- An inode whose last reference is gone and whose memory was not given back. -/
structure Ended (s : NodeSystem τ) (a : Nat) : Prop where
  lt : a < s.next
  refCount : (s.node a).refCount = 0
  freed : (s.node a).freed = false

/-- What a task knows where it is. -/
def PhaseOk (s : NodeSystem τ) (t : τ) : NodePhase → Prop
  | .idle | .get _ | .create _ | .fill _ => True
  | .ref number a => a < s.next ∧ (s.node a).number = number ∧ (s.node a).freed = false
  | .raced .. => False
  | .wait number a => (s.node a).number = number
  | .release a k | .last a k => k = none ∧ (s.node a).superblock = true
  | .clear a k => k = none ∧ s.Ended a ∧ s.table (s.node a).number = some a ∧ s.lock = some t
  | .sync a k => k = none ∧ s.Ended a ∧ s.table (s.node a).number ≠ some a

/-- The invariant: the count of an inode is the number of references to it; an inode in use is in the
table; an inode in the table is in use, or a task that has the lock is taking it out; an inode that
is filled in or referenced by a caller has its superblock. -/
structure Inv [Fintype τ] (s : NodeSystem τ) : Prop where
  running : s.fault = none
  count : ∀ a, ((s.node a).refCount : Int) = s.held a + ∑ t, (s.phase t).refs a
  stored : ∀ a, (s.node a).refCount ≠ 0 → s.table (s.node a).number = some a
  table : ∀ n a, s.table n = some a → a < s.next ∧ (s.node a).number = n ∧
    (s.node a).freed = false ∧ ((s.node a).refCount ≠ 0 ∨ ∃ t k, s.phase t = .clear a k)
  ready : ∀ a, (s.node a).refCount ≠ 0 → (s.node a).isNew = false → (s.node a).superblock = true
  held : ∀ a, s.held a ≠ 0 → (s.node a).superblock = true
  phases : ∀ t, s.PhaseOk t (s.phase t)
  once : ∀ t t' a, (s.phase t).ends = some a → (s.phase t').ends = some a → t = t'
  returned : ∀ r ∈ s.returned, r.number = r.wanted ∧ r.refCount ≠ 0

section

variable [Fintype τ] {a : Nat}
omit [DecidableEq τ]

variable (h : s.Inv)

include h

theorem Inv.phaseOk (ht : s.phase t = x) : s.PhaseOk t x := ht ▸ h.phases t

theorem Inv.sound : s.Sound where
  running := h.running
  unique a b ha hb hab := by
    have hstored := h.stored a ha
    rw [hab, h.stored b hb] at hstored
    exact (some.inj hstored).symm
  stored := h.stored
  returned := h.returned

theorem Inv.of_refCount (ha : (s.node a).refCount ≠ 0) : a < s.next ∧ (s.node a).freed = false := by
  obtain ⟨hlt, -, hfreed, -⟩ := h.table _ _ (h.stored a ha)
  exact ⟨hlt, hfreed⟩

theorem Inv.refCount_pos (ht : 0 < (s.phase t).refs a) : 0 < (s.node a).refCount := by
  have hle := single_le_sum (fun t _ => (s.phase t).refs_nonneg a) (mem_univ t)
  have := h.count a
  omega

theorem Inv.no_refs (ha : (s.node a).refCount = 0) :
    s.held a = 0 ∧ ∑ t, (s.phase t).refs a = 0 := by
  have hsum : 0 ≤ ∑ t, (s.phase t).refs a := sum_nonneg fun t _ => (s.phase t).refs_nonneg a
  have := h.count a
  omega

end

/-! ## Steps that leave the table alone -/

/-- The table, its lock and the identity of the inodes stay; counts stay zero or stay positive. -/
structure Keeps (s s' : NodeSystem τ) : Prop where
  fault : s'.fault = s.fault
  next : s'.next = s.next
  table : s'.table = s.table
  lock : s'.lock = s.lock
  number : ∀ a, (s'.node a).number = (s.node a).number
  freed : ∀ a, (s'.node a).freed = (s.node a).freed
  zero : ∀ a, (s'.node a).refCount = 0 ↔ (s.node a).refCount = 0
  superblock : ∀ a, (s.node a).superblock = true → (s'.node a).superblock = true

section

omit [DecidableEq τ]

theorem Keeps.ended (hk : s.Keeps s') (h : s.Ended a) : s'.Ended a :=
  ⟨hk.next ▸ h.lt, (hk.zero a).2 h.refCount, (hk.freed a).trans h.freed⟩

theorem PhaseOk.ended (h : s.PhaseOk t x) (hx : x.ends = some a) : s.Ended a := by
  cases x with
  | clear b k | sync b k =>
    cases hx
    exact h.2.1
  | idle | get _ | ref _ _ | create _ | raced _ _ _ | wait _ _ | fill _ | release _ _ | last _ _ =>
    cases hx

/-- What a task knows does not change with the steps of others that keep the numbers and superblocks of
the inodes, the memory of those that are being read, and the inodes that are being taken down. -/
theorem PhaseOk.of (h : s.PhaseOk t x) (hnext : s'.next = s.next)
    (hnumber : ∀ a, (s'.node a).number = (s.node a).number)
    (hsuper : ∀ a, (s.node a).superblock = true → (s'.node a).superblock = true)
    (hreads : x.reads = true → ∀ a, (s'.node a).freed = (s.node a).freed)
    (hended : ∀ a, x.ends = some a → s'.Ended a)
    (hclear : ∀ a k, x = .clear a k → s'.table = s.table ∧ s'.lock = s.lock)
    (hout : ∀ n a, s.table n ≠ some a → x.ends = some a → s'.table n ≠ some a) : s'.PhaseOk t x := by
  cases x with
  | idle | get _ | create _ | fill _ => trivial
  | ref number a => exact ⟨hnext ▸ h.1, (hnumber a).trans h.2.1, (hreads rfl a).trans h.2.2⟩
  | raced _ _ _ => exact h
  | wait number a => exact (hnumber a).trans h
  | release a k | last a k => exact ⟨h.1, hsuper a h.2⟩
  | clear a k =>
    obtain ⟨htable, hlock⟩ := hclear a k rfl
    refine ⟨h.1, hended a rfl, ?_, hlock.trans h.2.2.2⟩
    rw [htable, hnumber, h.2.2.1]
  | sync a k =>
    refine ⟨h.1, hended a rfl, ?_⟩
    rw [hnumber]
    exact hout _ a h.2.2 rfl

theorem Keeps.phaseOk (hk : s.Keeps s') (h : s.PhaseOk t x) : s'.PhaseOk t x :=
  h.of hk.next hk.number hk.superblock (fun _ => hk.freed) (fun _ ha => hk.ended (h.ended ha))
    (fun _ _ _ => ⟨hk.table, hk.lock⟩) (fun _ _ ha _ => hk.table ▸ ha)

theorem field_update (s : NodeSystem τ) (a : Nat) (n : TableNode) {β : Type} (f : TableNode → β)
    (hf : f n = f (s.node a)) (b : Nat) : f (update s.node a n b) = f (s.node b) := by
  by_cases hb : b = a
  · rw [hb, update_self, hf]
  rw [update_of_ne hb]

theorem keeps_setCount {n : Nat} (hn : n = 0 ↔ (s.node a).refCount = 0) :
    s.Keeps (s.setCount a n) := by
  refine ⟨rfl, rfl, rfl, rfl, fun b => ?_, fun b => ?_, fun b => ?_, fun b => ?_⟩ <;>
    simp only [setCount, setNode, update_apply] <;> split <;> simp_all

end

section

variable [Fintype τ] {x y : NodePhase} {a n : Nat}

section

variable (h : s.Inv)

include h

open NodePhase

/-- **A step of a task**, with the references accounted for: what it knows afterwards and what the
others know, and that nobody else is taking down the inode that it is taking down. -/
theorem Inv.of_step (ht : s.phase t = y) (hphase : s'.phase = update s.phase t x)
    (hcount : ∀ a, ((s'.node a).refCount : Int) - (s.node a).refCount =
      s'.held a - s.held a + x.refs a - y.refs a)
    (hok : s'.PhaseOk t x) (hothers : ∀ u ≠ t, s'.PhaseOk u (s.phase u))
    (honce : ∀ a, x.ends = some a → ∀ u, (s.phase u).ends = some a → t = u)
    (hfault : s'.fault = none)
    (hstored : ∀ a, (s'.node a).refCount ≠ 0 → s'.table (s'.node a).number = some a)
    (htable : ∀ n a, s'.table n = some a → a < s'.next ∧ (s'.node a).number = n ∧
      (s'.node a).freed = false ∧ ((s'.node a).refCount ≠ 0 ∨ (∃ k, x = .clear a k) ∨
        ∃ u k, s.phase u = .clear a k ∧ y ≠ .clear a k))
    (hready : ∀ a, (s'.node a).refCount ≠ 0 → (s'.node a).isNew = false →
      (s'.node a).superblock = true)
    (hheld : ∀ a, s'.held a ≠ 0 → (s'.node a).superblock = true)
    (hreturned : ∀ r ∈ s'.returned, r.number = r.wanted ∧ r.refCount ≠ 0) : s'.Inv where
  running := hfault
  count a := by
    have hsum := Tasks.sum_phase_update (refs a) s.phase t x
    have := h.count a
    have := hcount a
    rw [ht] at hsum
    rw [hphase]
    omega
  stored := hstored
  table n a ha := by
    obtain ⟨hlt, hn, hfreed, huse⟩ := htable n a ha
    refine ⟨hlt, hn, hfreed, huse.imp_right ?_⟩
    rw [hphase]
    rintro (⟨k, rfl⟩ | ⟨u, k, hu, hne⟩)
    · exact ⟨t, k, update_self ..⟩
    refine ⟨u, k, ?_⟩
    rwa [update_of_ne]
    exact fun heq => hne (ht ▸ heq ▸ hu)
  ready := hready
  held := hheld
  phases u := by
    rw [hphase]
    by_cases heq : u = t
    · rw [heq, update_self]
      exact hok
    rw [update_of_ne heq]
    exact hothers u heq
  once u u' a hu hu' := by
    have hends (v : τ) (hv : (s'.phase v).ends = some a) :
        v = t ∧ x.ends = some a ∨ (s.phase v).ends = some a := by
      rw [hphase] at hv
      by_cases heq : v = t
      · exact .inl ⟨heq, by rwa [heq, update_self] at hv⟩
      exact .inr (by rwa [update_of_ne heq] at hv)
    rcases hends u hu with ⟨rfl, hx⟩ | hu <;> rcases hends u' hu' with ⟨rfl, hx'⟩ | hu'
    · rfl
    · exact honce a hx u' hu'
    · exact (honce a hx' u hu).symm
    exact h.once u u' a hu hu'
  returned := hreturned

/-- **A step that leaves the table alone.** The references are accounted for, and the task that moves
is not taking an inode down. -/
theorem Inv.of_keeps (hk : s.Keeps s') (ht : s.phase t = y)
    (hphase : s'.phase = update s.phase t x)
    (hcount : ∀ a, ((s'.node a).refCount : Int) - (s.node a).refCount =
      s'.held a - s.held a + x.refs a - y.refs a)
    (hready : ∀ a, (s'.node a).isNew = (s.node a).isNew ∨ (s'.node a).superblock = true)
    (hheld : ∀ a, s'.held a ≠ 0 → s.held a ≠ 0 ∨ (s'.node a).superblock = true)
    (hreturned : ∀ r ∈ s'.returned, r.number = r.wanted ∧ r.refCount ≠ 0)
    (hy : y.ends = none) (hx : x.ends = none) (hok : s'.PhaseOk t x) : s'.Inv := by
  refine h.of_step ht hphase hcount hok (fun u _ => hk.phaseOk (h.phases u)) (fun a ha => ?_)
    (hk.fault.trans h.running) (fun a ha => ?_) (fun n a ha => ?_) (fun a ha hnew => ?_)
    (fun a ha => (hheld a ha).elim (fun hr => hk.superblock a (h.held a hr)) id) hreturned
  · rw [hx] at ha
    cases ha
  · rw [hk.table, hk.number]
    exact h.stored a (mt (hk.zero a).2 ha)
  · obtain ⟨hlt, hn, hfreed, huse⟩ := h.table n a (hk.table ▸ ha)
    refine ⟨hk.next ▸ hlt, (hk.number a).trans hn, (hk.freed a).trans hfreed,
      huse.imp (mt (hk.zero a).1) fun ⟨u, k, hu⟩ => .inr ⟨u, k, hu, fun heq => ?_⟩⟩
    rw [heq] at hy
    cases hy
  exact (hready a).elim
    (fun hr => hk.superblock a (h.ready a (mt (hk.zero a).2 ha) (hr ▸ hnew))) id

theorem Inv.moved (ht : s.phase t = y) (hrefs : ∀ a, x.refs a = y.refs a) (hy : y.ends = none)
    (hx : x.ends = none) (hok : s.PhaseOk t x) : (s.move t x).Inv := by
  have hk : s.Keeps (s.move t x) :=
    ⟨rfl, rfl, rfl, rfl, fun _ => rfl, fun _ => rfl, fun _ => Iff.rfl, fun _ hs => hs⟩
  refine h.of_keeps hk ht rfl (fun a => ?_) (fun _ => .inl rfl) (fun _ hs => .inl hs) h.returned hy hx
    (hk.phaseOk hok)
  rw [hrefs]
  simp [move]

open TableNode

theorem Inv.counted (ht : s.phase t = y) (hn : n = 0 ↔ (s.node a).refCount = 0)
    (ha : (n : Int) - (s.node a).refCount = x.refs a - y.refs a)
    (hrest : ∀ b, b ≠ a → x.refs b = y.refs b) (hy : y.ends = none) (hx : x.ends = none)
    (hok : s.PhaseOk t x) : ((s.setCount a n).move t x).Inv := by
  have hkeep := keeps_setCount hn
  have hk : s.Keeps ((s.setCount a n).move t x) := { hkeep with }
  refine h.of_keeps hk ht rfl (fun b => ?_) (fun b => .inl ?_) (fun _ hs => .inl hs) h.returned hy hx
    (hk.phaseOk hok)
  · simp only [move, setCount, setNode]
    grind
  exact field_update s a { s.node a with refCount := n } isNew rfl b

/-! ## Steps that change the table -/

omit [DecidableEq τ] in
/-- With the lock free, what a task knows does not change when an inode is created. -/
theorem Inv.phaseOk_created (hlock : s.lock = none) (hnext : s'.next = s.next + 1)
    (hold : ∀ a < s.next, s'.node a = s.node a)
    (htable : ∀ n, s'.table n = s.table n ∨ s'.table n = some s.next) (t : τ) :
    s'.PhaseOk t (s.phase t) := by
  have hok := h.phases t
  have hpos (a : Nat) (ha : 0 < (s.phase t).refs a) : s'.node a = s.node a :=
    hold a (h.of_refCount (pos_iff_ne_zero.1 (h.refCount_pos ha))).1
  generalize s.phase t = x at hok hpos
  cases x with
  | idle | get _ | create _ | fill _ => trivial
  | ref m a =>
    obtain ⟨hlt, hrest⟩ := hok
    exact ⟨by omega, by rwa [hold a hlt]⟩
  | raced _ _ _ => exact hok
  | wait m a => exact (congrArg number (hpos a (by simp [refs]))).trans hok
  | release a k | last a k =>
    obtain ⟨rfl, hsuper⟩ := hok
    refine ⟨rfl, (congrArg superblock (hpos a ?_)).trans hsuper⟩
    simp [refs, AfterRelease.refs]
  | clear a k => exact nomatch hlock.symm.trans hok.2.2.2
  | sync a k => ?_
  obtain ⟨hk, ⟨hlt, hzero, hfreed⟩, hout⟩ := hok
  refine ⟨hk, ⟨by omega, by rwa [hold a hlt], by rwa [hold a hlt]⟩, ?_⟩
  rw [hold a hlt]
  rcases htable (s.node a).number with heq | heq
  · rwa [heq]
  grind

/-- **An inode is created** for a number that is not in the table. -/
theorem Inv.created (ht : s.phase t = .create n) (hlock : s.lock = none)
    (hn : s.table n = none) : (s.create t n).Inv := by
  have hfresh : (s.node s.next).refCount = 0 := by
    by_contra hne
    exact absurd (h.of_refCount hne).1 (lt_irrefl _)
  -- the inodes that were there stay as they were
  have hold (a : Nat) (ha : a ≠ s.next) :
      update s.node s.next (vfsNodeAllocate n) a = s.node a := update_of_ne ha ..
  have hnew : update s.node s.next (vfsNodeAllocate n) s.next = vfsNodeAllocate n := update_self ..
  unfold create
  rw [hlock, hn]
  simp only [move, returns, setNode]
  refine h.of_step ht rfl (fun a => ?_) trivial (fun u _ => ?_) nofun h.running
    (fun a ha => ?_) (fun m a ha => ?_) (fun a ha hready => ?_) (fun a ha => ?_) (fun r hr => ?_)
  all_goals try dsimp only at *
  · grind [vfsNodeAllocate, refs]
  · refine h.phaseOk_created hlock rfl (fun a ha => hold a (ha.ne)) (fun m => ?_) u
    grind [update_apply]
  · have hstored := h.stored a
    grind [vfsNodeAllocate]
  · rw [update_apply] at ha
    split at ha
    · cases ha
      rw [hnew]
      exact ⟨Nat.lt_succ_self _, by grind [vfsNodeAllocate], rfl, .inl Nat.one_ne_zero⟩
    obtain ⟨hlt, hnum, hfreed, huse⟩ := h.table m a ha
    rw [hold a (hlt.ne)]
    exact ⟨Nat.lt_succ_of_lt hlt, hnum, hfreed,
      huse.imp_right fun ⟨u, k, hu⟩ => .inr ⟨u, k, hu, nofun⟩⟩
  · have hold := h.ready a
    grind [vfsNodeAllocate]
  · have hnone := (h.no_refs hfresh).1
    grind [h.held a ha]
  rcases List.mem_cons.1 hr with rfl | hr
  · rw [hnew]
    exact ⟨rfl, Nat.one_ne_zero⟩
  exact h.returned r hr

/-- **The last reference goes.** The task has the lock, and the inode is still in the table. -/
theorem Inv.ended (ht : s.phase t = .last a none) (hlock : s.lock = none)
    (hone : (s.node a).refCount = 1) :
    ({ s.setCount a 0 with lock := some t }.move t (.clear a none)).Inv := by
  obtain ⟨hlt, hfreed⟩ := h.of_refCount (a := a) (by omega)
  have hself : (update s.node a { s.node a with refCount := 0 } a).refCount = 0 := by
    rw [update_self]
  have hother (b : Nat) (hb : b ≠ a) :
      update s.node a { s.node a with refCount := 0 } b = s.node b :=
    update_of_ne hb ..
  -- an inode that another task is taking down has no count, so it is not this one
  have hends (u : τ) (b : Nat) (hu : (s.phase u).ends = some b) : s.Ended b ∧ b ≠ a := by
    have hended := (h.phases u).ended hu
    exact ⟨hended, fun heq => by have := hended.refCount; rw [heq] at this; omega⟩
  have hnumber := field_update s a { s.node a with refCount := 0 } number rfl
  have hfreed' := field_update s a { s.node a with refCount := 0 } freed rfl
  have hsuper := field_update s a { s.node a with refCount := 0 } superblock rfl
  refine h.of_step ht rfl (fun b => ?_) ⟨rfl, ⟨hlt, hself, (hfreed' a).trans hfreed⟩,
      ?_, rfl⟩ (fun u _ => ?_) (fun b hb u hu => absurd (some.inj hb).symm (hends u b hu).2)
    h.running (fun b hb => ?_) (fun n b hb => ?_) (fun b hb hready => ?_)
    (fun b hb => (hsuper b).trans (h.held b hb)) h.returned
  all_goals dsimp only [move, setCount, setNode] at *
  · grind [refs]
  · rw [hnumber a]
    exact h.stored a (by omega)
  · refine (h.phases u).of rfl hnumber (fun b hb => (hsuper b).trans hb) (fun _ => hfreed')
      (fun b hb => ?_) (fun b k hu => ?_) (fun _ _ hb _ => hb)
    · obtain ⟨hended, hba⟩ := hends u b hb
      have hnode := hother b hba
      exact ⟨hended.lt, (congrArg refCount hnode).trans hended.refCount,
        (congrArg freed hnode).trans hended.freed⟩
    exact nomatch hlock.symm.trans (h.phaseOk hu).2.2.2
  · grind [h.stored b]
  · obtain ⟨hlt', hnum, hkept, huse⟩ := h.table n b hb
    refine ⟨hlt', (hnumber b).trans hnum, (hfreed' b).trans hkept, ?_⟩
    by_cases hba : b = a
    · exact .inr (.inl ⟨none, hba ▸ rfl⟩)
    rw [hother b hba]
    exact huse.imp_right fun ⟨u, k, hu⟩ => .inr ⟨u, k, hu, nofun⟩
  grind [h.ready b]

/-- **The inode leaves the table**, and the lock is given back. -/
theorem Inv.cleared (ht : s.phase t = .clear a none) :
    ({ s with table := update s.table (s.node a).number none, lock := none }.move t
      (.sync a none)).Inv := by
  obtain ⟨-, hended, hin, hlock⟩ := h.phaseOk ht
  have hother (n : Nat) (hn : n ≠ (s.node a).number) :
      update s.table (s.node a).number none n = s.table n := update_of_ne hn ..
  have hout (n b : Nat) (hb : s.table n ≠ some b) :
      update s.table (s.node a).number none n ≠ some b := by
    by_cases hn : n = (s.node a).number
    · rw [hn, update_self]
      exact nofun
    rwa [hother n hn]
  refine h.of_step ht rfl (fun b => ?_) ⟨rfl, { hended with }, ?_⟩ (fun u hu => ?_)
    (fun b hb u hu => h.once t u b (by rw [ht]; exact hb) hu) h.running (fun b hb => ?_)
    (fun n b hb => ?_) h.ready h.held h.returned
  all_goals dsimp only [move] at *
  · simp [refs]
  · rw [update_self]
    exact nofun
  · refine (h.phases u).of rfl (fun _ => rfl) (fun _ => id) (fun _ _ => rfl) (fun b hb => ?_)
      (fun b k hx => ?_) (fun n b hb _ => hout n b hb)
    · obtain ⟨hlt, hzero, hfreed⟩ := (h.phases u).ended hb
      exact ⟨hlt, hzero, hfreed⟩
    exact absurd (some.inj ((h.phaseOk hx).2.2.2.symm.trans hlock)) hu
  · have hstored := h.stored b hb
    rw [hother, hstored]
    intro heq
    rw [heq, hin] at hstored
    cases hstored
    exact hb hended.refCount
  have hn : n ≠ (s.node a).number := by
    rintro rfl
    rw [update_self] at hb
    cases hb
  rw [hother n hn] at hb
  obtain ⟨hlt, hnum, hfreed, huse⟩ := h.table n b hb
  refine ⟨hlt, hnum, hfreed, huse.imp_right fun ⟨u, k, hu⟩ => .inr ⟨u, k, hu, ?_⟩⟩
  rintro ⟨⟩
  exact hn hnum.symm

/-- **The inode is given back**: no task is in a read section, and none but this one is taking the
inode down. -/
theorem Inv.freed (ht : s.phase t = .sync a none) (hreads : ∀ t', (s.phase t').reads = false) :
    ((s.setNode a { s.node a with freed := true }).move t .idle).Inv := by
  obtain ⟨-, hended, hout⟩ := h.phaseOk ht
  have hother (b : Nat) (hb : b ≠ a) :
      update s.node a { s.node a with freed := true } b = s.node b :=
    update_of_ne hb ..
  have hnumber := field_update s a { s.node a with freed := true } number rfl
  have hcount := field_update s a { s.node a with freed := true } refCount rfl
  have hsuper := field_update s a { s.node a with freed := true } superblock rfl
  have hnew := field_update s a { s.node a with freed := true } isNew rfl
  refine h.of_step ht rfl (fun b => ?_) trivial (fun u hu => ?_) nofun h.running
    (fun b hb => ?_) (fun n b hb => ?_) (fun b hb hready => ?_)
    (fun b hb => (hsuper b).trans (h.held b hb)) h.returned
  all_goals dsimp only [move, setNode] at *
  · rw [hcount]
    simp [refs, AfterRelease.refs]
  · refine (h.phases u).of rfl hnumber (fun b hb => (hsuper b).trans hb)
      (fun hread => absurd hread (by simp [hreads u])) (fun b hb => ?_) (fun _ _ _ => ⟨rfl, rfl⟩)
      (fun _ _ hb _ => hb)
    -- whoever takes an inode down takes another one down
    have hba : b ≠ a := by
      rintro rfl
      exact hu (h.once u t b hb (by rw [ht]; rfl))
    obtain ⟨hlt, hzero, hkept⟩ := (h.phases u).ended hb
    exact ⟨hlt, (hcount b).trans hzero, (congrArg TableNode.freed (hother b hba)).trans hkept⟩
  · rw [hcount] at hb
    rw [hnumber]
    exact h.stored b hb
  · obtain ⟨hlt, hnum, hkept, huse⟩ := h.table n b hb
    have hba : b ≠ a := by
      rintro rfl
      exact hout (hnum ▸ hb)
    rw [hother b hba]
    exact ⟨hlt, hnum, hkept, huse.imp_right fun ⟨u, k, hu⟩ => .inr ⟨u, k, hu, nofun⟩⟩
  rw [hcount] at hb
  rw [hnew] at hready
  rw [hsuper]
  exact h.ready b hb hready

/-! ## Runs -/

theorem Inv.dropped (ht : s.phase t = .release a none ∨ s.phase t = .last a none)
    (hcount : (s.node a).refCount ≠ 1) :
    ((s.setCount a ((s.node a).refCount - 1)).after t none).Inv := by
  have hrefs (b : Nat) : (s.phase t).refs b = if a = b then 1 else 0 := by
    rcases ht with ht | ht <;> rw [ht] <;> simp [refs, AfterRelease.refs]
  have hends : (s.phase t).ends = none := by
    rcases ht with ht | ht <;> rw [ht] <;> rfl
  have hpos := h.refCount_pos (by rw [hrefs a, if_pos rfl]; decide)
  refine h.counted rfl (by omega) ?_ (fun b hb => ?_) hends rfl trivial
  · rw [hrefs a, if_pos rfl]
    simp only [refs]
    omega
  rw [hrefs b, if_neg (Ne.symm hb)]
  rfl

/-- **One operation** of a task. -/
theorem Inv.operate (hw : CreatesFirst s (.go t)) : (s.operate t).Inv := by
  unfold NodeSystem.operate
  cases ht : s.phase t with
  | idle | fill a => exact h
  | get n =>
    dsimp only
    cases hn : s.table n with
    | none => exact h.moved ht (fun _ => rfl) rfl rfl trivial
    | some a =>
      obtain ⟨hlt, hnum, hfreed, -⟩ := h.table n a hn
      exact h.moved ht (fun _ => rfl) rfl rfl ⟨hlt, hnum, hfreed⟩
  | ref n a =>
    dsimp only
    split
    · next hpos =>
      refine h.counted ht (by omega) ?_ (fun b hb => ?_) rfl rfl (h.phaseOk ht).2.1
      · simp [refs]
      simp [refs, Ne.symm hb]
    exact h.moved ht (fun _ => rfl) rfl rfl trivial
  | create n =>
    cases hlock : s.lock with
    | some u =>
      simp only [NodeSystem.create, hlock]
      exact h
    | none => ?_
    refine h.created ht hlock ?_
    -- an inode in the table is in use, as nobody has the lock
    cases hn : s.table n with
    | none => rfl
    | some old =>
      obtain ⟨-, -, -, huse | ⟨u, k, hu⟩⟩ := h.table n old hn
      · exact absurd (hw n (by rw [ht]; rfl) hlock old hn) huse
      exact nomatch hlock.symm.trans (h.phaseOk hu).2.2.2
  | raced n a old => exact (h.phaseOk ht).elim
  | wait n a =>
    have hpos := h.refCount_pos (a := a) (by rw [ht]; simp [refs])
    dsimp only
    split
    · exact h
    next hnew =>
    have hsuper := h.ready a (by omega) (by simpa using hnew)
    split
    · refine h.moved ht (fun b => ?_) rfl rfl ⟨rfl, hsuper⟩
      simp [refs, AfterRelease.refs]
    refine h.of_keeps ⟨rfl, rfl, rfl, rfl, fun _ => rfl, fun _ => rfl,
      fun _ => Iff.rfl, fun _ hs => hs⟩ ht rfl (fun b => ?_) (fun _ => .inl rfl) (fun b hb => ?_)
      (fun r hr => ?_) rfl rfl trivial
    · simp only [move, returns, refs]
      grind [update_apply]
    · simp only [move, returns] at hb ⊢
      grind [update_apply]
    rcases List.mem_cons.1 hr with rfl | hr
    · exact ⟨h.phaseOk ht, pos_iff_ne_zero.1 hpos⟩
    exact h.returned r hr
  | release a k =>
    obtain ⟨rfl, hsuper⟩ := h.phaseOk ht
    dsimp only
    split
    · next hcount => exact h.dropped (.inl ht) hcount
    exact h.moved ht (fun _ => rfl) rfl rfl ⟨rfl, hsuper⟩
  | last a k =>
    obtain ⟨rfl, hsuper⟩ := h.phaseOk ht
    have hpos := h.refCount_pos (a := a) (by
      rw [ht]; simp [refs, AfterRelease.refs])
    simp only [NodeSystem.last, hsuper, if_true]
    cases hlock : s.lock with
    | some u => exact h
    | none => ?_
    dsimp only
    split
    · exact h.dropped (.inr ht) (by omega)
    have hone : (s.node a).refCount = 1 := by omega
    have := h.ended ht hlock hone
    rwa [hone]
  | clear a k =>
    obtain ⟨rfl, -⟩ := h.phaseOk ht
    exact h.cleared ht
  | sync a k => ?_
  obtain ⟨rfl, -⟩ := h.phaseOk ht
  dsimp only
  split
  · exact h
  next hreads =>
  refine h.freed ht fun u => ?_
  cases hu : (s.phase u).reads with
  | false => rfl
  | true => exact absurd ⟨u, hu⟩ hreads

omit [DecidableEq τ] in
theorem Inv.used (ha : NodeSystem.used (s.phase t) = some a) : (s.node a).freed = false := by
  have hok := h.phases t
  have hpos (hrefs : 0 < (s.phase t).refs a) : (s.node a).freed = false :=
    (h.of_refCount (pos_iff_ne_zero.1 (h.refCount_pos hrefs))).2
  generalize s.phase t = x at ha hok hpos
  cases x with
  | idle | get _ | create _ | fill _ => cases ha
  | ref n b =>
    cases ha
    exact hok.2.2
  | raced n b old => exact hok.elim
  | wait n b =>
    cases ha
    exact hpos (by simp [refs])
  | release b k | last b k =>
    cases ha
    obtain ⟨rfl, -⟩ := hok
    exact hpos (by simp [refs, AfterRelease.refs])
  | clear b k | sync b k =>
    cases ha
    exact hok.2.1.freed

theorem Inv.filled (error : Bool) : (s.filled t error).Inv := by
  unfold NodeSystem.filled
  cases ht : s.phase t with
  | fill a =>
    have hcount := field_update s a { s.node a with superblock := true, isNew := false, error }
      TableNode.refCount rfl
    refine h.of_keeps ⟨rfl, rfl, rfl, rfl,
      field_update s a _ TableNode.number rfl, field_update s a _ TableNode.freed rfl, fun b => ?_,
      fun b hb => ?_⟩ ht rfl (fun b => ?_) (fun b => ?_) (fun b hb => ?_) h.returned rfl rfl trivial
    all_goals dsimp only [move, setNode]
    · rw [hcount b]
    · grind
    · grind [refs]
    · grind
    dsimp only [move] at hb
    grind [update_apply]
  | idle | get _ | ref _ _ | create _ | raced _ _ _ | wait _ _ | release _ _ | last _ _ | clear _ _
  | sync _ _ => exact h

/-- **One step** of the system. -/
theorem Inv.step (i : NodeStep τ) (hw : CreatesFirst s i) : (s.step i).Inv := by
  unfold NodeSystem.step
  rw [if_neg (not_not.2 h.running)]
  cases i with
  | get t n =>
    dsimp only
    split
    · next ht => exact h.moved ht (fun _ => rfl) rfl rfl trivial
    exact h
  | release t a =>
    dsimp only
    split
    · next hidle =>
      obtain ⟨ht, hheld⟩ := hidle
      refine h.of_keeps ⟨rfl, rfl, rfl, rfl, fun _ => rfl,
        fun _ => rfl, fun _ => Iff.rfl, fun _ hs => hs⟩ ht rfl (fun b => ?_) (fun _ => .inl rfl)
        (fun b hb => .inl ?_) h.returned rfl rfl ⟨rfl, h.held a (by omega)⟩
      · simp only [move, refs, AfterRelease.refs]
        grind [update_apply]
      dsimp only [move] at hb
      grind [update_apply]
    exact h
  | go t =>
    show (s.go t).Inv
    unfold NodeSystem.go
    cases hused : NodeSystem.used (s.phase t) with
    | none => exact h.operate hw
    | some a =>
      simp only [h.used hused]
      exact h.operate hw
  | noMemory t =>
    dsimp only
    split
    · next n ht => exact h.moved ht (fun _ => rfl) rfl rfl trivial
    exact h
  | filled t error => exact h.filled error

end

omit [DecidableEq τ] in
theorem start_inv : (start : NodeSystem τ).Inv where
  running := rfl
  count _ := by simp [start, NodePhase.refs]
  stored _ ha := absurd rfl ha
  table _ _ ha := by cases ha
  ready _ ha := absurd rfl ha
  held _ ha := absurd rfl ha
  phases _ := trivial
  once _ _ _ ha := by cases ha
  returned _ hr := by cases hr

end

end NodeSystem

/-- **The table of inodes.** For every number of tasks, in every run in which no task creates an
inode for a number of which one in use is in the table, an inode with a count other than zero is the
only one of its number and the one in the table, and `vfs_node_get` returns inodes in use with the
number asked for. -/
theorem node_table_sound (tasks : Nat) (steps : List (NodeStep (Fin tasks)))
    (hfirst : Tasks.StepsAll NodeSystem.step CreatesFirst .start steps) :
    (Tasks.run NodeSystem.step .start steps).Sound :=
  (Tasks.run_invariant_of (fun _ i h hw => h.step i hw) NodeSystem.start_inv hfirst).sound

/-- One task creates the inode, another one finds it, and both drop it. -/
theorem node_table_sound_shared :
    (Tasks.run NodeSystem.step .start
      [.get (0 : Fin 2) 5, .go 0, .go 0, .get 1 5, .go 1, .filled 0 false, .go 1, .go 1, .release 0 0,
        .go 0, .release 1 0, .go 1, .go 1, .go 1, .go 1]).Sound :=
  node_table_sound 2 _ (by decide)

/-- **Two tasks create the same inode.** The second one drops its own, whose superblock is `NULL`. -/
theorem node_table_race :
    ¬ ∀ (tasks : Nat) (steps : List (NodeStep (Fin tasks))),
      (Tasks.run NodeSystem.step .start steps).Sound := by
  intro h
  have hrun := (h 2 [.get 0 5, .go 0, .get 1 5, .go 1, .go 0, .filled 0 false, .go 1, .go 1, .go 1,
    .go 1]).running
  exact absurd hrun (by decide)

end Stanix
