import Stanix.Task.Syscall

/-!
# Loading programs

`exec_elf` of `kernel/task/exec.c`, as far as it changes the address space and the heap of the
process: the segments of an ELF file are mapped one by one, and a file that names an interpreter is
left for the interpreter. What is written to the memory of the new program, but for the places on its
stack, and what becomes of credentials, signals and descriptors is left out. What the file system
answers is part of the file: whether it may be executed, and whether its parts can be read.
-/

namespace Stanix

/-- `p_type`. -/
inductive PhdrType
  | load
  | interp (path : Nat)
  | other
  deriving DecidableEq

/-- A program header. Source: `Elf64_Phdr`. -/
structure ElfPhdr where
  type : PhdrType
  read : Bool
  write : Bool
  exec : Bool
  offset : BitVec 64
  vaddr : BitVec 64
  filesz : BitVec 64
  memsz : BitVec 64
  /-- The bytes of the segment can be read. -/
  readable : Bool

/-- `e_type`. -/
inductive ElfType
  | exec
  | dyn
  | other
  deriving DecidableEq

/-- An ELF file, and what the file system says about it. -/
structure ElfFile where
  fd : Nat
  /-- `vfs_perm` has `PERM_EXECUTE`. -/
  executable : Bool
  /-- `MS_NOEXEC` of the mount point. -/
  noexec : Bool
  headerReadable : Bool
  /-- What `verfiy_elf` answers. -/
  verified : Bool
  type : ElfType
  entry : BitVec 64
  phdrsReadable : Bool
  phdrs : List ElfPhdr

/-- Where shared objects are loaded. -/
def execBase : Nat := 0x100000000

/-- Source: `USER_STACK_SIZE` (`page.h:20`). -/
def userStackSize : Nat := 256 * pageSize

/-- Source: `USER_STACK_BOTTOM` (`page.h:21`). -/
def userStackBottom : Nat := 0x80000000000 - userStackSize

/-- The checks of `exec_elf` on a file, with the error they answer. -/
def ElfFile.refused (file : ElfFile) : Option Errno :=
  if file.executable = false then some .acces
  else if file.noexec = true then some .acces
  else if file.headerReadable = false then some .nomem
  else if file.verified = false then some .noexec
  else
    match file.type with
    | .other => some .noexec
    | .exec => none
    | .dyn => if file.entry = 0 then some .noexec else none

/-- The base of a file. -/
def ElfFile.base (file : ElfFile) (base : Nat) : Nat :=
  match file.type with
  | .exec => 0
  | _ => base

/-- The protection of a segment. -/
def ElfPhdr.prot (h : ElfPhdr) : BitVec 64 :=
  let prot := mmuFlagPresent ||| mmuFlagUser
  let prot := orIf (h.read = true) mmuFlagRead prot
  let prot := orIf (h.write = true) mmuFlagWrite prot
  orIf (h.exec = true) mmuFlagExec prot

variable {σ Sp E : Type}

/-- The start of the heap, moved behind a segment. -/
def UserProc.heapBehind (p : UserProc σ Sp) (h : ElfPhdr) : UserProc σ Sp :=
  let stop := pageAlignUp (h.vaddr + h.memsz).toNat
  if p.heapStart < stop then { p with heapStart := stop } else p

variable (M : Mmu σ Sp E) (D : VmmDrivers σ Sp) (sp : Nat)

/-- A mapping whose protection is set once it is filled; `false` if it fails. -/
def execMapProt (s : Vmm σ Sp) (vaddr size : Nat) (flags : BitVec 64) (fd : Option Nat) (offset : Nat)
    (prot : BitVec 64) : Exec (Bool × Vmm σ Sp) := do
  let (ret, s) ← vmmSpaceMap M D s sp vaddr size (mmuFlagWrite ||| mmuFlagPresent) flags fd offset
  match ret with
  | .error _ => return (false, s)
  | .ok seg =>
    let (_, s) ← vmmSpaceChprot M D s sp seg prot
    return (true, s)

/-- The part of a segment that is in the file, if there is one. -/
def execMapFile (s : Vmm σ Sp) (fd : Nat) (h : ElfPhdr) (vaddr filesz : Nat) :
    Exec (Bool × Vmm σ Sp) :=
  if filesz > 0 then
    execMapProt M D sp s vaddr filesz vmmFlagPrivate (some fd) (pageAlignDown h.offset.toNat) h.prot
  else .ok (true, s)

/-- The part of a segment that is not in the file, if there is one. -/
def execMapRest (s : Vmm σ Sp) (h : ElfPhdr) (vaddr filesz memsz : Nat) : Exec (Bool × Vmm σ Sp) :=
  if memsz > filesz then do
    let (ret, s) ← vmmSpaceMap M D s sp (wrap (vaddr + filesz)) (memsz - filesz) h.prot
      (vmmFlagPrivate ||| vmmFlagAnonymous) none 0
    match ret with
    | .error _ => return (false, s)
    | .ok _ => return (true, s)
  else .ok (true, s)

/-- A segment is loaded: mapped from the file where offset and address agree within the page, else
read. -/
def execLoad (s : Vmm σ Sp) (fd base : Nat) (h : ElfPhdr) : Exec (Bool × Vmm σ Sp) :=
  if h.offset.toNat % pageSize = h.vaddr.toNat % pageSize then do
    let vaddr := wrap (pageAlignDown h.vaddr.toNat + base)
    let vaddrOff := h.vaddr.toNat % pageSize
    let filesz := pageAlignUp (wrap (h.filesz.toNat + vaddrOff))
    let memsz := pageAlignUp (wrap (h.memsz.toNat + vaddrOff))
    let (ok, s) ← execMapFile M D sp s fd h vaddr filesz
    if ok = false then return (false, s)
    execMapRest M D sp s h vaddr filesz memsz
  else do
    let (ret, s) ← vmmSpaceMap M D s sp h.vaddr.toNat (pageAlignUp h.memsz.toNat)
      (mmuFlagWrite ||| mmuFlagPresent) (vmmFlagPrivate ||| vmmFlagAnonymous) none 0
    match ret with
    | .error _ => return (false, s)
    | .ok seg =>
      if h.readable = false then return (false, s)
      let (_, s) ← vmmSpaceChprot M D s sp seg h.prot
      return (true, s)

/-- What the loop over the program headers ends with. -/
inductive ExecEnd
  /-- All segments are loaded. -/
  | done
  /-- A segment could not be loaded. -/
  | failed
  /-- The program has an interpreter. -/
  | interp (path : Nat)

/-- The loop of `exec_elf` over the program headers. -/
def execPhdrs (fd base : Nat) : List ElfPhdr → UserProc σ Sp → Exec (ExecEnd × UserProc σ Sp)
  | [], p => .ok (.done, p)
  | h :: hs, p =>
    match h.type with
    | .interp path => .ok (.interp path, p)
    | .other => execPhdrs fd base hs p
    | .load => do
      let p := p.heapBehind h
      let (ok, s) ← execLoad M D sp p.vmm fd base h
      if ok = false then return (.failed, { p with vmm := s })
      execPhdrs fd base hs { p with vmm := s }

/-- The old program is unmapped, when it is a program that is loaded and not its interpreter. -/
def execClear (s : Vmm σ Sp) (depth : Nat) : Exec (Vmm σ Sp) :=
  if depth = 0 then vmmSpaceUnmapAll M D s sp else .ok s

/-- The stack is mapped and the heap is set up. -/
def execFinish (p : UserProc σ Sp) : Exec (UserProc σ Sp) := do
  let (_, s) ← vmmSpaceMap M D p.vmm sp userStackBottom userStackSize heapFlags
    (vmmFlagAnonymous ||| vmmFlagPrivate) none 0
  let heapStart := wrap (p.heapStart + pageSize)
  return { vmm := s, heapStart := heapStart, heapEnd := heapStart }

/-- Source: `exec_elf` (`exec.c:47`), with the calls of itself that are left for interpreters of
interpreters. A part that cannot be loaded or read leaves the error code at zero. -/
def execElf (files : Nat → Except Errno ElfFile) :
    Nat → Nat → Nat → Nat → UserProc σ Sp → Exec (Option Errno × UserProc σ Sp)
  | 0, _, _, _, _ => .error .fuel
  | fuel + 1, path, base, depth, p =>
    match files path with
    | .error err => .ok (some err, p)
    | .ok file =>
      match file.refused with
      | some err => .ok (some err, p)
      | none =>
        if file.phdrsReadable = false then .ok (none, p)
        else do
          let s ← execClear M D sp p.vmm depth
          let (ret, p) ← execPhdrs M D sp file.fd (file.base base) file.phdrs
            { p with vmm := s, heapStart := 0 }
          match ret with
          | .failed => return (none, p)
          | .interp path => execElf files fuel path execBase (depth + 1) p
          | .done =>
            let p ← execFinish M D sp p
            return (none, p)

/-! ## The headers and the stack -/

open List

/-- The fields of a header that `exec_elf` reads, as offsets and sizes in an `Elf64_Phdr`. -/
def phdrFields : PhdrType → List (Nat × Nat)
  | .load => [(0, 4), (4, 4), (8, 8), (16, 8), (32, 8), (40, 8)]
  | .interp _ => [(0, 4), (32, 8), (8, 8)]
  | .other => [(0, 4)]

/-- Whether the loop over the headers goes on behind one: not behind an interpreter, nor behind a
segment that could not be loaded. -/
def phdrGoesOn : PhdrType → Bool → Bool
  | .load, loaded => loaded
  | .interp _, _ => false
  | .other, _ => true

/-- What the loop over the headers (`exec.c:160`) reads of the buffer, as offsets and sizes, when
there are headers of these types from the index on, whose segments can be loaded or not. The array
has the stride of `Elf64_Phdr`. -/
def execPhdrReads : Nat → List (PhdrType × Bool) → List (Nat × Nat)
  | _, [] => []
  | i, (type, loaded) :: phdrs =>
    (phdrFields type).map (fun (offset, size) => (i * 56 + offset, size)) ++
      if phdrGoesOn type loaded then execPhdrReads (i + 1) phdrs else []

/-- Where the last field of a header that is read ends. -/
def phdrEnd : PhdrType → Nat
  | .load => 48
  | .interp _ => 40
  | .other => 4

/-- Where the last field of the last header that the loop comes to ends. -/
def execPhdrEnd : Nat → List (PhdrType × Bool) → Nat
  | _, [] => 0
  | i, (type, loaded) :: phdrs =>
    if phdrGoesOn type loaded ∧ phdrs ≠ [] then execPhdrEnd (i + 1) phdrs else i * 56 + phdrEnd type

/-- How many bytes are read from the file into the buffer (`exec.c:93`), of those that it has there.
The product is an `int`, and negative from `2 ^ 31` on. -/
def execPhdrBytes (phentsize phnum available : Nat) : Nat :=
  let size := phentsize * phnum % 2 ^ 32
  min (if size < 2 ^ 31 then size else 2 ^ 64 - 2 ^ 32 + size) available

/-- What is pushed from an address down, as addresses and sizes. -/
def pushAll : Nat → List Nat → List (Nat × Nat)
  | _, [] => []
  | sp, n :: sizes => (wrapSub sp n, n) :: pushAll (wrapSub sp n) sizes

/-- The strings of `exec.c:270`, in the order in which they are pushed. -/
def execStrings (argv envp : List (List (BitVec 8))) : List Nat :=
  (envp.reverse ++ argv.reverse).map (·.length + 1)

/-- The longs that are pushed below the strings: padding, the auxiliary vector, both arrays of
pointers with their ends, and `argc`. -/
def execLongs (argc envc : Nat) (interpret : Bool) : Nat :=
  (if (argc + envc) % 2 ≠ 1 then 1 else 0) + 12 + (if interpret then 2 else 0) + (envc + 1) +
    (argc + 1) + 1

/-- What `exec_elf` writes to the stack (`exec.c:270`). -/
def execStackWrites (argv envp : List (List (BitVec 8))) (interpret : Bool) : List (Nat × Nat) :=
  let strings := execStrings argv envp
  let top := userStackBottom + userStackSize
  pushAll top strings ++ pushAll (strings.foldl wrapSub top / 16 * 16)
    (replicate (execLongs argv.length envp.length interpret) 8)

theorem foldl_wrapSub (sp : Nat) (sizes : List Nat) (hsp : sp < 2 ^ 64) (h : sizes.sum ≤ sp) :
    sizes.foldl wrapSub sp = sp - sizes.sum := by
  induction sizes generalizing sp with
  | nil => rfl
  | cons n sizes ih =>
    rw [sum_cons] at h ⊢
    rw [foldl_cons, wrapSub_of_le (by omega) hsp, ih _ (by omega) (by omega)]
    omega

/-- **Pushes stay above an address** exactly if there is room for all of them, unless one of them is
so large that it wraps around. -/
theorem pushAll_iff (bottom sp : Nat) (sizes : List Nat) (hsp : sp < 2 ^ 64) (hb : bottom ≤ sp)
    (h : sizes.sum ≤ sp ∨ ∀ n ∈ sizes, n ≤ bottom) :
    (∀ w ∈ pushAll sp sizes, bottom ≤ w.1) ↔ bottom + sizes.sum ≤ sp := by
  induction sizes generalizing sp with
  | nil => exact iff_of_true nofun hb
  | cons n sizes ih => ?_
  rw [sum_cons] at h ⊢
  have hn : n ≤ sp := h.elim (by omega) fun hall => (hall n mem_cons_self).trans hb
  rw [pushAll, wrapSub_of_le hn hsp, forall_mem_cons]
  constructor
  · rintro ⟨hle, hrest⟩
    have hrest := (ih (sp - n) (by omega) hle ?_).1 hrest
    · omega
    exact h.imp (by omega) fun hall m hm => hall m (mem_cons_of_mem _ hm)
  intro hfits
  refine ⟨show bottom ≤ sp - n by omega, (ih (sp - n) (by omega) (by omega) ?_).2 (by omega)⟩
  exact h.imp (by omega) fun hall m hm => hall m (mem_cons_of_mem _ hm)

theorem le_execPhdrEnd (i : Nat) {phdrs : List (PhdrType × Bool)} (h : phdrs ≠ []) :
    i * 56 + 4 ≤ execPhdrEnd i phdrs := by
  induction phdrs generalizing i with
  | nil => exact absurd rfl h
  | cons phdr phdrs ih => ?_
  obtain ⟨type, loaded⟩ := phdr
  rw [execPhdrEnd]
  split
  · next hgo =>
    have := ih (i + 1) hgo.2
    omega
  cases type <;> simp [phdrEnd]

/-- **All reads are inside of the buffer** exactly if those of the last header are. -/
theorem execPhdrReads_iff (n i : Nat) (phdrs : List (PhdrType × Bool)) :
    (∀ r ∈ execPhdrReads i phdrs, r.1 + r.2 ≤ n) ↔ execPhdrEnd i phdrs ≤ n := by
  induction phdrs generalizing i with
  | nil => exact iff_of_true nofun (Nat.zero_le _)
  | cons phdr phdrs ih => ?_
  obtain ⟨type, loaded⟩ := phdr
  have hfields : (∀ r ∈ (phdrFields type).map fun (offset, size) => (i * 56 + offset, size),
      r.1 + r.2 ≤ n) ↔ i * 56 + phdrEnd type ≤ n := by
    cases type <;> simp [phdrFields, phdrEnd] <;> omega
  rw [execPhdrReads, execPhdrEnd, forall_mem_append, hfields]
  by_cases hgo : phdrGoesOn type loaded = true
  · by_cases hne : phdrs = []
    · simp [hgo, hne, execPhdrReads]
    rw [if_pos hgo, if_pos ⟨hgo, hne⟩, ih]
    have hnext := le_execPhdrEnd (i + 1) hne
    have hend : phdrEnd type ≤ 48 := by cases type <;> simp [phdrEnd]
    omega
  rw [if_neg hgo, if_neg fun h => hgo h.1]
  simp

end Stanix
