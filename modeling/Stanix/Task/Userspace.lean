import Stanix.Task.Syscall

/-!
# Pointers of a process

A process hands pointers to its memory to the kernel, which checks them before it copies: the end of
the range must not lie above the memory of processes (`kernel/include/task/userspace.h`). The end is a
sum of machine words, chosen by the process, and so the check sees a range that goes around the end of
the address space as a small one. `user_call_sound_iff` says when that does not happen.
-/

namespace Stanix

/-- Source: `CHECK_MEM` (`userspace.h:33`). -/
def checkMem (ptr count : BitVec 64) : Bool := checkPtr (ptr + count).toNat

/-- `sizeof(struct pollfd)`. -/
def pollfdSize : BitVec 64 := 8

/-- A call that copies from or to the memory of a process, with the pointer and the length that the
process gives: `user_copy_to` and `user_copy_from` (`userspace.h:36`, `:41`), `sys_read`, `sys_write` and
`sys_poll` (`syscall.c:105`, `:93`, `:561`). -/
inductive UserCall
  | copyTo (dest count : BitVec 64)
  | copyFrom (src count : BitVec 64)
  | read (buffer count : BitVec 64)
  | write (buffer count : BitVec 64)
  | poll (fds nfds : BitVec 64)

namespace UserCall

/-- The pointer of a call. -/
def pointer : UserCall → BitVec 64
  | copyTo ptr _ | copyFrom ptr _ | read ptr _ | write ptr _ | poll ptr _ => ptr

/-- The number of bytes behind the pointer that a call is about. -/
def bytes : UserCall → Nat
  | copyTo _ count | copyFrom _ count | read _ count | write _ count => count.toNat
  | poll _ nfds => pollfdSize.toNat * nfds.toNat

/-- The check at the start of a call, which answers `-EFAULT` otherwise. -/
def accepts : UserCall → Bool
  | copyTo ptr count | copyFrom ptr count | read ptr count | write ptr count => checkMem ptr count
  | poll fds nfds => checkMem fds (pollfdSize * nfds)

/-- A call that passes its check is about memory of processes only. -/
def Sound (call : UserCall) : Prop :=
  call.accepts = true → ∀ i < call.bytes, call.pointer.toNat + i ≤ memUserspaceEnd

theorem accepts_iff (call : UserCall) : call.accepts = true ↔
    (call.pointer.toNat + call.bytes) % 2 ^ 64 ≤ memUserspaceEnd := by
  cases call with
  | copyTo | copyFrom | read | write =>
    rw [accepts, checkMem, checkPtr, decide_eq_true_iff]
    rfl
  | poll =>
    rw [accepts, checkMem, checkPtr, decide_eq_true_iff, BitVec.toNat_add, BitVec.toNat_mul,
      Nat.add_mod_mod]
    rfl

/-- **The checks of pointers.** A call is sound exactly if its range ends inside of the address space,
or if it goes around the end far enough to be refused. -/
theorem user_call_sound_iff (call : UserCall) : call.Sound ↔
    call.pointer.toNat + call.bytes < 2 ^ 64 ∨
      memUserspaceEnd < (call.pointer.toNat + call.bytes) % 2 ^ 64 := by
  unfold Sound
  rw [accepts_iff]
  constructor
  · intro h
    by_contra hwrap
    rw [not_or, not_lt, not_lt] at hwrap
    -- the last address of all is in the range
    have hlast := h hwrap.2 (2 ^ 64 - 1 - call.pointer.toNat) (by omega)
    simp only [memUserspaceEnd] at hlast
    omega
  rintro (hend | hrefused) hcheck i hi
  · omega
  omega

/-- A read to the last two gigabytes of the address space, where the kernel is, passes the check, and so
does a poll of so many descriptors that their size is zero. -/
theorem user_call_reaches_kernel :
    ¬ (read 0xFFFFFFFF80000000 0x80000000).Sound ∧ ¬ (poll 0x1000 0x2000000000000000).Sound := by
  refine ⟨fun h => ?_, fun h => ?_⟩
  · exact absurd (h (by decide) 0 (by decide)) (by decide)
  exact absurd (h (by decide) 0xFFFFFFFF80000000 (by decide)) (by decide)

end UserCall

end Stanix
