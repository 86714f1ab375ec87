import Stanix.Base.Exec

/-!
# Descriptor tables

A slot of the descriptor table of a process is the address of a descriptor with a flag in its low
bits (`kernel/task/process.c`). The flag is stored and handed out as `FDTABLE_CLOEXEC`, while
`fd_add`, `fd_set` and `exec` test for `FD_CLOEXEC`, which is another bit. `fd_cloexec_iff` says
which runs do not notice.

The array is the map that it refines, and the index that an allocation takes is left open. Reference
counts are left out.
-/

namespace Stanix

open Function

/-- The number of the bit `FD_CLOEXEC`, which is 1. -/
def fdCloexec : Nat := 0

/-- The number of the bit `FDTABLE_CLOEXEC`, which is 2 (`process.h:65`). -/
def fdtableCloexec : Nat := 1

/-- A pointer to a descriptor: it leaves the low bits free, which `fd_value2fd` masks out. -/
structure FdPtr where
  addr : BitVec 64
  aligned : ∀ i < 4, addr.getLsbD i = false

/-- The table: what the array has at each index, 0 for NULL. The code has no `given`, which records
whether the slot was last filled with `FD_CLOEXEC`. -/
structure FdTable where
  value : Nat → BitVec 64
  given : Nat → Bool

/-- Source: `fd_value2fd` (`process.h:286`): the descriptor and the flags. -/
def fdValue2fd (value : BitVec 64) : Option (BitVec 64 × BitVec 64) :=
  if value = 0 then none
  else some (value &&& ~~~0xf, if value.getLsbD fdtableCloexec then 2 else 0)

namespace FdTable

/-- The slot takes a descriptor, with the flag if the caller asks for it. -/
def fill (s : FdTable) (index : Nat) (fd flags : BitVec 64) : FdTable where
  value := update s.value index (if flags.getLsbD fdCloexec then fd ||| 2 else fd)
  given := update s.given index (flags.getLsbD fdCloexec)

/-- Source: `fd_set` (`process.c:304`), with the descriptor that was there. -/
def fdSet (s : FdTable) (index : Nat) (fd flags : BitVec 64) : Option (BitVec 64) × FdTable :=
  ((fdValue2fd (s.value index)).map Prod.fst, s.fill index fd flags)

/-- Source: `fd_get_flags` (`process.c:315`). -/
def fdGetFlags (s : FdTable) (fd : Int) : Option (BitVec 64 × BitVec 64) :=
  if fd < 0 then none else fdValue2fd (s.value fd.toNat)

/-- Source: `sys_dup2` (`syscall.c:133`). -/
def sysDup2 (s : FdTable) (oldfd newfd : Int) : Except Errno Int × FdTable :=
  if oldfd = newfd then (.ok newfd, s)
  else if newfd < 0 then (.error .badf, s)
  else
    match s.fdGetFlags oldfd with
    | none => (.error .badf, s)
    | some (fd, flags) => (.ok newfd, (s.fdSet newfd.toNat fd flags).2)

/-- The loop of `exec_elf` (`exec.c:119`) that closes descriptors. -/
def execClose (s : FdTable) : FdTable where
  value index :=
    match fdValue2fd (s.value index) with
    | some (_, flags) => if flags.getLsbD fdCloexec then 0 else s.value index
    | none => s.value index
  given := s.given

/-- What is asked of a table: a slot in use tells the state that it was filled with, a slot filled
with what it tells has the same state, and `exec` closes the slot exactly if the state is set. -/
def Exact (s : FdTable) : Prop :=
  ∀ i : Nat, s.value i ≠ 0 → ∃ fd, ∃ flags : BitVec 64, s.fdGetFlags i = some (fd, flags) ∧
    flags = (if s.given i then 1 else 0) ∧ (∀ j, (s.fill j fd flags).given j = s.given i) ∧
    (s.execClose.value i = 0 ↔ s.given i = true)

variable {s : FdTable} {fd flags : BitVec 64}

/-- **The flag in the table is not the one that is asked for**, so the exact tables are those
without flags. -/
theorem exact_iff : s.Exact ↔
    ∀ i, s.value i ≠ 0 → s.given i = false ∧ (s.value i).getLsbD fdtableCloexec = false := by
  refine forall₂_congr fun i hi => ?_
  have hvalue : fdValue2fd (s.value i) =
      some (s.value i &&& ~~~0xf, if (s.value i).getLsbD fdtableCloexec then 2 else 0) := if_neg hi
  have hget : s.fdGetFlags i = fdValue2fd (s.value i) := if_neg (by omega)
  simp only [hget, execClose, hvalue]
  cases s.given i <;> cases (s.value i).getLsbD fdtableCloexec <;>
    simp [fill, show s.value i ≠ 0#64 from hi]

theorem Exact.fill (h : s.Exact) (hfd : fd.getLsbD fdtableCloexec = false) (i : Nat) :
    (s.fill i fd flags).Exact ↔ flags.getLsbD fdCloexec = false := by
  simp only [exact_iff] at h ⊢
  constructor
  · intro hall
    by_contra hflags
    have hvalue : (s.fill i fd flags).value i = fd ||| 2 := by simp [FdTable.fill, hflags]
    have hbit : (fd ||| 2).getLsbD fdtableCloexec = true := by simp [fdtableCloexec]
    have hclear := (hall i (hvalue ▸ fun h0 => by rw [h0] at hbit; cases hbit)).2
    rw [hvalue, hbit] at hclear
    cases hclear
  intro hflags j hj
  by_cases hji : j = i
  · simp [FdTable.fill, hji, hflags, hfd]
  simp only [FdTable.fill, update_of_ne hji] at hj ⊢
  exact h j hj

end FdTable

/-- The calls on the table. -/
inductive FdCall
  | add (fd : FdPtr) (flags : BitVec 64)
  | set (index : Nat) (fd : FdPtr) (flags : BitVec 64)
  | dup (oldfd : Int)
  | dup2 (oldfd newfd : Int)
  | getFlags (fd : Int)

namespace FdCall

variable (allocate : (Nat → BitVec 64) → Option Nat)

/-- Source: `fd_add` (`process.c:294`); `allocate` is the index of `xarray_allocate`. -/
def fdAdd (s : FdTable) (fd flags : BitVec 64) : Except Errno Nat × FdTable :=
  match allocate s.value with
  | none => (.error .nomem, s)
  | some index => (.ok index, s.fill index fd flags)

/-- Source: `sys_dup` (`syscall.c:121`). -/
def sysDup (s : FdTable) (oldfd : Int) : Except Errno Nat × FdTable :=
  match s.fdGetFlags oldfd with
  | none => (.error .badf, s)
  | some (fd, flags) => fdAdd allocate s fd flags

/-- One call. -/
def step (s : FdTable) : FdCall → Exec (Option (BitVec 64 × BitVec 64) × FdTable)
  | .add fd flags => .ok (none, (fdAdd allocate s fd.addr flags).2)
  | .set index fd flags => .ok (none, (s.fdSet index fd.addr flags).2)
  | .dup oldfd => .ok (none, (sysDup allocate s oldfd).2)
  | .dup2 oldfd newfd => .ok (none, (s.sysDup2 oldfd newfd).2)
  | .getFlags fd => .ok (s.fdGetFlags fd, s)

/-- A call that fills no slot with `FD_CLOEXEC`. -/
def Clear (s : FdTable) : FdCall → Prop
  | .add _ flags => allocate s.value = none ∨ flags.getLsbD fdCloexec = false
  | .set _ _ flags => flags.getLsbD fdCloexec = false
  | _ => True

variable {allocate} {s : FdTable}

/-- What `fd_get_flags` tells fills no slot with `FD_CLOEXEC`. -/
theorem exact_fill_of_get (h : s.Exact) {fd flags : BitVec 64} {i : Int} (j : Nat)
    (hget : s.fdGetFlags i = some (fd, flags)) : (s.fill j fd flags).Exact := by
  simp only [FdTable.fdGetFlags, fdValue2fd, Option.ite_none_left_eq_some, Option.some.injEq,
    Prod.mk.injEq] at hget
  obtain ⟨-, -, rfl, rfl⟩ := hget
  exact (h.fill (by simp [fdtableCloexec]) j).2 (by split <;> rfl)

/-- An exact table is exact after a call if the call fills no slot with `FD_CLOEXEC`. -/
theorem step_exact (call : FdCall) : ∃ r s', step allocate s call = .ok (r, s') ∧ True ∧
    (s.Exact → (s'.Exact ↔ call.Clear allocate s)) := by
  have hptr (fd : FdPtr) : fd.addr.getLsbD fdtableCloexec = false := fd.aligned _ (by decide)
  cases call with
  | add fd flags =>
    refine ⟨_, _, rfl, trivial, fun h => ?_⟩
    unfold fdAdd
    cases halloc : allocate s.value with
    | none => exact iff_of_true h (.inl halloc)
    | some i => simpa [Clear, halloc] using h.fill (hptr fd) i
  | set i fd flags => exact ⟨_, _, rfl, trivial, fun h => h.fill (hptr fd) i⟩
  | dup oldfd =>
    refine ⟨_, _, rfl, trivial, fun h => iff_of_true ?_ trivial⟩
    unfold sysDup fdAdd
    cases hget : s.fdGetFlags oldfd with
    | none => exact h
    | some x =>
      cases allocate s.value with
      | none => exact h
      | some j => exact exact_fill_of_get h j hget
  | dup2 oldfd newfd =>
    refine ⟨_, _, rfl, trivial, fun h => iff_of_true ?_ trivial⟩
    unfold FdTable.sysDup2
    split_ifs with heq hneg
    · exact h
    · exact h
    cases hget : s.fdGetFlags oldfd with
    | none => exact h
    | some x => exact exact_fill_of_get h _ hget
  | getFlags fd => exact ⟨_, _, rfl, trivial, fun h => iff_of_true h trivial⟩

end FdCall

/-- The table of a process that has opened nothing. -/
def fdTableEmpty : FdTable := ⟨fun _ => 0, fun _ => false⟩

/-- **Close-on-exec.** Through a run of calls on an empty table every slot tells its state, passes
it on to its duplicates and is closed by `exec` exactly if it is set, if and only if no call of the
run fills a slot with `FD_CLOEXEC`. -/
theorem fd_cloexec_iff (allocate : (Nat → BitVec 64) → Option Nat) (calls : List FdCall) :
    RunAll (FdCall.step allocate) FdTable.Exact fdTableEmpty calls ↔
      CallsAll (FdCall.step allocate) (FdCall.Clear allocate) fdTableEmpty calls :=
  runAll_iff (fun _ _ call _ _ => FdCall.step_exact call)
    trivial (fun _ h => absurd rfl h) (.of_mem fun _ _ _ => trivial)

/-- A descriptor is added with `FD_CLOEXEC` and duplicated: the first slot tells the flag 2, the
second is filled without it, and `exec` closes neither. -/
theorem fd_cloexec_lost : ∃ s, runOps (FdCall.step fun _ => some 0) fdTableEmpty
      [.add ⟨0x1000, by decide⟩ 1, .getFlags 0, .dup2 0 1] =
      .ok ([none, some (0x1000, 2), none], s) ∧
    s.given 0 = true ∧ s.given 1 = false ∧ s.value 1 = 0x1000 ∧ s.execClose.value 0 ≠ 0 :=
  ⟨_, rfl, by decide⟩

end Stanix
