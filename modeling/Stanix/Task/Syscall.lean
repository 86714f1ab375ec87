import Stanix.Mem.Vmm.Space

/-!
# System calls on memory

`sys_mmap`, `sys_munmap`, `sys_mprotect` and `sys_sbrk` of `kernel/task/syscall.c`, for one process.
The flags of `sys/mman.h` are bits of their own, and come as Booleans. A pointer that is an error code
comes as an error.
-/

namespace Stanix

/-- Source: `MEM_USERSPACE_END` (`page.h:25`). -/
def memUserspaceEnd : Nat := 0x7FFFFFFFFFFFF

/-- Source: `CHECK_PTR` (`userspace.h:32`). -/
def checkPtr (ptr : Nat) : Bool := ptr ≤ memUserspaceEnd

/-- What a process has of its memory: the address spaces, and the heap that `sys_sbrk` moves. Source:
`process_t`. -/
structure UserProc (σ Sp : Type) where
  vmm : Vmm σ Sp
  heapStart : Nat
  heapEnd : Nat

/-- `PROT_READ`, `PROT_WRITE` and `PROT_EXEC`. -/
structure ProtFlags where
  read : Bool
  write : Bool
  exec : Bool

/-- `MAP_SHARED`, `MAP_PRIVATE`, `MAP_FIXED` and `MAP_ANONYMOUS`. -/
structure MmapFlags where
  shared : Bool
  priv : Bool
  fixed : Bool
  anonymous : Bool

/-- Source: `prot2mmu` (`syscall.c:903`). -/
def prot2mmu (prot : ProtFlags) : BitVec 64 :=
  let mmuFlags := mmuFlagUser ||| mmuFlagPresent
  let mmuFlags := orIf (prot.read = true) mmuFlagRead mmuFlags
  let mmuFlags := orIf (prot.write = true) mmuFlagWrite mmuFlags
  orIf (prot.exec = true) mmuFlagExec mmuFlags

/-- The flags of a segment that `sys_mmap` asks for. -/
def MmapFlags.vmmFlags (flags : MmapFlags) : BitVec 64 :=
  let vmmFlags := 0
  let vmmFlags := orIf (flags.priv = true) vmmFlagPrivate vmmFlags
  let vmmFlags := orIf (flags.shared = true) vmmFlagShared vmmFlags
  orIf (flags.anonymous = true) vmmFlagAnonymous vmmFlags

variable {σ Sp E : Type} (M : Mmu σ Sp E) (D : VmmDrivers σ Sp) (sp : Nat)

/-- The mapping that `sys_mmap` makes once its arguments are checked. -/
def sysMmapMap (p : UserProc σ Sp) (addr length : Nat) (prot : ProtFlags) (flags : MmapFlags)
    (fd : Option Nat) (offset : Nat) : Exec (Except Errno Nat × UserProc σ Sp) := do
  let (ret, s) ← vmmSpaceMap M D (p.vmm.vfsDup fd) sp addr (pageAlignUp length) (prot2mmu prot)
    flags.vmmFlags fd offset
  let s := s.vfsClose fd
  match ret with
  | .error err => return (.error err, { p with vmm := s })
  | .ok seg => return (.ok (s.seg seg).start, { p with vmm := s })

/-- Source: `sys_mmap` (`syscall.c:917`). The file is the one that `fd_get` finds, if it finds one. -/
def sysMmap (p : UserProc σ Sp) (addr length : Nat) (prot : ProtFlags) (flags : MmapFlags)
    (fd : Option Nat) (offset : Nat) : Exec (Except Errno Nat × UserProc σ Sp) :=
  if flags.shared = false ∧ flags.priv = false then .ok (.error .inval, p)
  else if length = 0 then .ok (.error .inval, p)
  else if flags.fixed = true ∧ (addr % pageSize ≠ 0 ∨ length % pageSize ≠ 0) then
    .ok (.error .inval, p)
  else if flags.anonymous = true then
    sysMmapMap M D sp p (if flags.fixed then addr else 0) length prot flags none offset
  else
    match fd with
    | none => .ok (.error .badf, p)
    | some fd =>
      sysMmapMap M D sp p (if flags.fixed then addr else 0) length prot flags (some fd) offset

/-- Source: `sys_munmap` (`syscall.c:958`). -/
def sysMunmap (p : UserProc σ Sp) (addr length : Nat) : Exec (Option Errno × UserProc σ Sp) :=
  if length = 0 then .ok (some .inval, p)
  else if checkPtr (wrap (addr + length)) = false then .ok (some .inval, p)
  else if addr % pageSize ≠ 0 then .ok (some .inval, p)
  else do
    let (ret, s) ← vmmSpaceUnmapRange M D p.vmm sp addr (wrap (addr + pageAlignUp length))
    return (ret, { p with vmm := s })

/-- Source: `sys_mprotect` (`syscall.c:967`). -/
def sysMprotect (p : UserProc σ Sp) (addr length : Nat) (prot : ProtFlags) :
    Exec (Option Errno × UserProc σ Sp) :=
  if length = 0 then .ok (some .inval, p)
  else if checkPtr (wrap (addr + length)) = false then .ok (some .nomem, p)
  else if addr % pageSize ≠ 0 then .ok (some .inval, p)
  else do
    let (ret, s) ← vmmSpaceChprotRange M D p.vmm sp addr (wrap (addr + pageAlignUp length))
      (prot2mmu prot)
    return (ret, { p with vmm := s })

/-- `PAGE_ALIGN_UP(incr) / PAGE_SIZE` of a signed number. -/
def incrPages (incr : BitVec 64) : Int := Int.tdiv (incr + 4095#64).toInt 4096

/-- `proc->heap_end += incr_pages * PAGE_SIZE`. -/
def UserProc.moveHeapEnd (p : UserProc σ Sp) (pages : Int) : UserProc σ Sp :=
  { p with heapEnd := (BitVec.ofNat 64 p.heapEnd + BitVec.ofInt 64 (pages * 4096)).toNat }

/-- The flags of the heap. -/
def heapFlags : BitVec 64 := mmuFlagRead ||| mmuFlagWrite ||| mmuFlagUser ||| mmuFlagPresent

/-- Source: `sys_sbrk` (`syscall.c:166`). What the calls on the space answer is not looked at. -/
def sysSbrk (p : UserProc σ Sp) (incr : BitVec 64) : Exec (Nat × UserProc σ Sp) :=
  if incr = 0 then .ok (p.heapEnd, p)
  else if incr.toInt < 0 then do
    let start := pageAlignUp (BitVec.ofNat 64 p.heapEnd + incr).toNat
    let (_, s) ← vmmSpaceUnmapRange M D p.vmm sp start p.heapEnd
    let p := { p with vmm := s }.moveHeapEnd (incrPages incr)
    return (p.heapEnd, p)
  else do
    let size := (BitVec.ofInt 64 (4096 * incrPages incr)).toNat
    let (_, s) ← vmmSpaceMap M D p.vmm sp p.heapEnd size heapFlags
      (vmmFlagPrivate ||| vmmFlagAnonymous) none 0
    let p := { p with vmm := s }.moveHeapEnd (incrPages incr)
    return (p.heapEnd, p)

end Stanix
