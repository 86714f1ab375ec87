import Stanix.Base.Exec
import Stanix.Task.Sleep
import Mathlib.Data.Finset.Card
import Mathlib.Data.Fintype.Basic
import Mathlib.Algebra.Order.Ring.Nat

/-!
# Futexes

`kernel/task/futex.c`: a task waits on the physical address of a word, and another one wakes waiters
of that address. The waiters of all addresses share 128 sleep queues, the queue of an address being
picked by the address modulo 128, and a node of a queue does not say which address its task waits on.
`futex_wake` hands the queue to `wakeup_queue`, which takes nodes off the front.

So a wake-up reaches whatever stands first. `futex_wake_iff` says when that is right. A task that was
woken by a signal has left its sleep but not yet its queue; it uses up a wake-up as well.
-/

namespace Stanix

open List Function Option Finset

/-- Source: `LONG_MAX`. -/
def longMax : Nat := 2 ^ 63 - 1

/-- The futexes and the tasks that wait in `futex_wait`: the queues, the tasks, for each task in
`futex_wait` the physical address it waits on, and the translation of addresses. -/
structure FutexState (τ : Type _) where
  futexes : Fin 128 → List τ
  task : τ → SchedTask
  waits : τ → Option Nat
  virt2phys : Nat → Option Nat

namespace FutexState

variable {τ : Type _} [DecidableEq τ] {s s' : FutexState τ} {p : Nat}

/-- The queue of a physical address (`futex.c:16`). -/
def bucket (phys : Nat) : Fin 128 := Fin.ofNat 128 phys

/-- Source: `futex_from_addr` (`futex.c:11`). -/
def futexFromAddr (s : FutexState τ) (addr : Nat) : Option (Fin 128) :=
  (s.virt2phys addr).map bucket

/-- Source: `futex_wake` (`futex.c:19`). -/
def futexWake (s : FutexState τ) (addr : Nat) (val : BitVec 64) :
    Except Errno Unit × FutexState τ :=
  if val = 0 then (.ok (), s)
  else
    -- LONG_MAX wakes all waiters, which a count of zero does in wakeup_queue
    let count := if val = BitVec.ofNat 64 longMax then 0 else val.toNat
    match s.futexFromAddr addr with
    | none => (.error .fault, s)
    | some i =>
      let (queue, task) := wakeupQueue (s.futexes i) count s.task
      (.ok (), { s with futexes := update s.futexes i queue, task })

/-- The task waits on the physical address. -/
def WaitsOn (s : FutexState τ) (p : Nat) (t : τ) : Prop :=
  s.waits t = some p ∧ (s.task t).Asleep
  deriving Decidable

/-- The task was asleep and is runnable now. -/
def MadeRunnable (s s' : FutexState τ) (t : τ) : Prop :=
  (s.task t).Asleep ∧ ¬ (s'.task t).Asleep
  deriving Decidable

/-- The queues hold the tasks that wait in `futex_wait`: every node is one of a task in that call,
in the queue of the address the task waits on, and every task that still sleeps there has one node.
Each node is an object in memory, so that a queue has fewer than `LONG_MAX` of them. -/
structure Waiting (s : FutexState τ) : Prop where
  node : ∀ {i t}, t ∈ s.futexes i → ∃ p, s.waits t = some p ∧ bucket p = i
  listed : ∀ {p t}, s.WaitsOn p t → t ∈ s.futexes (bucket p)
  nodup : ∀ i, (s.futexes i).Nodup
  short : ∀ i, (s.futexes i).length ≤ longMax

/-! ## Waking -/

/-- **What a call of `futex_wake` does** to the tasks: the first `n` of the queue of the address are
unblocked. -/
theorem futexWake_task (h : s.Waiting) {addr n : Nat} (hp : s.virt2phys addr = some p)
    (hpos : 1 ≤ n) (hmax : n ≤ longMax) (t : τ) :
    (s.futexWake addr (BitVec.ofNat 64 n)).2.task t =
      if t ∈ (s.futexes (bucket p)).take n then (s.task t).unblockTask.2 else s.task t := by
  have hval : (BitVec.ofNat 64 n).toNat = n := by
    rw [BitVec.toNat_ofNat]
    unfold longMax at hmax
    omega
  have hzero : BitVec.ofNat 64 n ≠ 0 := fun heq => by
    have : n = 0 := hval.symm.trans (congrArg BitVec.toNat heq)
    omega
  have htaken : wakeupTaken (s.futexes (bucket p))
      (if BitVec.ofNat 64 n = BitVec.ofNat 64 longMax then 0 else (BitVec.ofNat 64 n).toNat) =
      (s.futexes (bucket p)).take n := by
    split
    · next heq =>
      -- a queue is never longer than the count that stands for all of it
      have hn := congrArg BitVec.toNat heq
      rw [hval, BitVec.toNat_ofNat, Nat.mod_eq_of_lt (by unfold longMax; omega)] at hn
      rw [hn, take_of_length_le (h.short _)]
      rfl
    rw [hval, wakeupTaken, if_neg (by omega)]
  unfold futexWake
  rw [if_neg hzero]
  simp only [futexFromAddr, hp, map_some]
  rw [wakeupQueue_task, htaken]

/-- A call of `futex_wake` makes the sleepers among the first `n` of the queue runnable. -/
theorem madeRunnable_futexWake (h : s.Waiting) {addr n : Nat} (hp : s.virt2phys addr = some p)
    (hpos : 1 ≤ n) (hmax : n ≤ longMax) (t : τ) :
    s.MadeRunnable (s.futexWake addr (BitVec.ofNat 64 n)).2 t ↔
      t ∈ (s.futexes (bucket p)).take n ∧ (s.task t).Asleep := by
  rw [MadeRunnable, futexWake_task h hp hpos hmax]
  split
  · next ht => simp [ht, SchedTask.not_asleep_unblockTask]
  next ht => simp [ht]

end FutexState

/-! ## Counting -/

section Count

variable {α : Type _} [Fintype α] [DecidableEq α]

theorem card_filter_mem {l : List α} (hl : l.Nodup) (P : α → Prop) [DecidablePred P] :
    (Finset.univ.filter fun a => a ∈ l ∧ P a).card = l.countP P := by
  rw [countP_eq_length_filter, ← toFinset_card_of_nodup (hl.filter _)]
  congr 1
  ext a
  simp

/-- The first `n` elements of a list hold as many `A` as there may be exactly if they are all `A` or
all `A` are among them. -/
theorem countP_take_eq_min_iff {β : Type _} (l : List β) (n : Nat) (A : β → Prop)
    [DecidablePred A] :
    (l.take n).countP A = min n (l.countP A) ↔ (∀ a ∈ l.take n, A a) ∨ ∀ a ∈ l.drop n, ¬ A a := by
  have hsplit : l.countP A = (l.take n).countP A + (l.drop n).countP A := by
    rw [← countP_append, take_append_drop]
  have hle : (l.take n).countP A ≤ (l.take n).length := countP_le_length
  have hall : (∀ a ∈ l.take n, A a) ↔ (l.take n).countP A = (l.take n).length := by
    rw [countP_eq_length]
    simp
  have hnone : (∀ a ∈ l.drop n, ¬ A a) ↔ (l.drop n).countP A = 0 := by
    simp
  rw [hall, hnone]
  have hdrop : (l.drop n).countP A ≤ (l.drop n).length := countP_le_length
  rw [length_take] at hle ⊢
  rw [length_drop] at hdrop
  omega

end Count

namespace FutexState

variable {τ : Type _} [DecidableEq τ]

/-- Exactly `min n w` tasks are made runnable, where `w` tasks wait on the physical address, and
none of those that wait on another one. -/
structure WakesExactly [Fintype τ] (s s' : FutexState τ) (p n : Nat) : Prop where
  count : (Finset.univ.filter fun t => s.MadeRunnable s' t).card =
    min n (Finset.univ.filter fun t => s.WaitsOn p t).card
  only : ∀ t p', p' ≠ p → s.WaitsOn p' t → ¬ s.MadeRunnable s' t

/-- The front of the queue of an address is right for a wake-up of `n`: no task that waits on another
address is among the first `n`, and these are all asleep, or nobody behind them waits on the
address. -/
def FrontWaits (s : FutexState τ) (p n : Nat) : Prop :=
  (∀ t ∈ (s.futexes (bucket p)).take n, (s.task t).Asleep → s.waits t = some p) ∧
    ((∀ t ∈ (s.futexes (bucket p)).take n, (s.task t).Asleep) ∨
      ∀ t ∈ (s.futexes (bucket p)).drop n, ¬ s.WaitsOn p t)
  deriving Decidable

end FutexState

open FutexState in
/-- **Wake-ups of a futex.** For every set of tasks in `futex_wait`, `futex_wake` with a count of at
least one wakes as many waiters of the address as there are, up to the count, and no other, exactly
if the front of the queue is right. -/
theorem futex_wake_iff {τ : Type} [DecidableEq τ] [Fintype τ] (s : FutexState τ) (h : s.Waiting)
    (addr p n : Nat) (hp : s.virt2phys addr = some p) (hpos : 1 ≤ n) (hmax : n ≤ longMax) :
    s.WakesExactly (s.futexWake addr (BitVec.ofNat 64 n)).2 p n ↔ s.FrontWaits p n := by
  have hmade := madeRunnable_futexWake h hp hpos hmax
  -- the waiters of the address all stand in its queue
  have hwaiters : (univ.filter fun t => s.WaitsOn p t).card =
      (s.futexes (bucket p)).countP (s.WaitsOn p ·) := by
    rw [← card_filter_mem (h.nodup _)]
    refine congrArg card (filter_congr fun t _ => ?_)
    exact ⟨fun ht => ⟨h.listed ht, ht⟩, And.right⟩
  have hwoken (honly : ∀ t ∈ (s.futexes (bucket p)).take n, (s.task t).Asleep → s.waits t = some p) :
      (univ.filter fun t => s.MadeRunnable (s.futexWake addr (BitVec.ofNat 64 n)).2 t).card =
        ((s.futexes (bucket p)).take n).countP (s.WaitsOn p ·) ∧
      ((∀ t ∈ (s.futexes (bucket p)).take n, s.WaitsOn p t) ↔
        ∀ t ∈ (s.futexes (bucket p)).take n, (s.task t).Asleep) := by
    refine ⟨?_, forall₂_congr fun t ht => ⟨And.right, fun ha => ⟨honly t ht ha, ha⟩⟩⟩
    rw [← card_filter_mem ((h.nodup _).sublist (take_sublist ..))]
    refine congrArg card (filter_congr fun t _ => ?_)
    rw [hmade]
    exact and_congr_right fun ht => ⟨fun ha => ⟨honly t ht ha, ha⟩, And.right⟩
  constructor
  · rintro ⟨hcount, honly⟩
    have honly' : ∀ t ∈ (s.futexes (bucket p)).take n, (s.task t).Asleep → s.waits t = some p := by
      intro t ht ha
      obtain ⟨p', hp', -⟩ := h.node (mem_of_mem_take ht)
      by_contra hne
      have hne' : p' ≠ p := fun heq => hne (heq ▸ hp')
      exact honly t p' hne' ⟨hp', ha⟩ ((hmade t).2 ⟨ht, ha⟩)
    rw [(hwoken honly').1, hwaiters, countP_take_eq_min_iff, (hwoken honly').2] at hcount
    exact ⟨honly', hcount⟩
  rintro ⟨honly, hrest⟩
  refine ⟨?_, fun t p' hne hon hmade' => ?_⟩
  · rw [(hwoken honly).1, hwaiters, countP_take_eq_min_iff, (hwoken honly).2]
    exact hrest
  obtain ⟨ht, ha⟩ := (hmade t).1 hmade'
  exact hne (some.inj (hon.1.symm.trans (honly t ht ha)))

/-- Two tasks that wait on two words, the second of which stands `distance` bytes after the first;
the distance is a multiple of 128. -/
def twoWaiters (distance : Nat) : FutexState (Fin 2) where
  futexes i := if i = 0 then [0, 1] else []
  task _ := { status := .interruptible }
  waits t := some (t * distance)
  virt2phys := some

theorem twoWaiters_waiting (k : Nat) : (twoWaiters (128 * k)).Waiting := by
  have hbucket (t : Fin 2) : FutexState.bucket (t * (128 * k)) = 0 :=
    Fin.ext ((congrArg (· % 128) (mul_left_comm ..)).trans (Nat.mul_mod_right ..))
  refine ⟨fun {i t} ht => ⟨t * (128 * k), rfl, ?_⟩, fun {p t} hon => ?_, fun i => ?_, fun i => ?_⟩
  · rw [hbucket]
    by_contra hi
    simp [twoWaiters, Ne.symm hi] at ht
  · have hp := some.inj hon.1
    rw [← hp, hbucket]
    exact (by decide : ∀ t : Fin 2, t ∈ [0, 1]) t
  · unfold twoWaiters
    dsimp only
    split <;> decide
  unfold twoWaiters longMax
  dsimp only
  split <;> simp

/-- Both tasks wait on one word, and one of them is woken. -/
theorem futex_wake_one_of_two :
    (twoWaiters 0).WakesExactly ((twoWaiters 0).futexWake 0 (BitVec.ofNat 64 1)).2 0 1 :=
  (futex_wake_iff (twoWaiters 0) (twoWaiters_waiting 0) 0 0 1 rfl (by decide) (by decide)).2
    (by decide)

/-- **Words that share a queue.** The wake-up of the one waiter of a word goes to the waiter of the
word 128 bytes before it. -/
theorem futex_wake_collision :
    ¬ ∀ (s : FutexState (Fin 2)) (addr p n : Nat), s.Waiting → s.virt2phys addr = some p →
      1 ≤ n → n ≤ longMax →
      s.WakesExactly (s.futexWake addr (BitVec.ofNat 64 n)).2 p n := by
  intro h
  have honly := (h (twoWaiters (128 * 1)) 128 128 1 (twoWaiters_waiting 1) rfl (by decide)
    (by decide)).only 0 0 (by decide)
  exact absurd honly (by decide)

end Stanix
