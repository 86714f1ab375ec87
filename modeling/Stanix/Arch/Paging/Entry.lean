import Stanix.Mem.Page
import Mathlib.Data.Nat.Bitwise

/-!
# Page-table entries

The 64-bit entries of `kernel/include/arch/x86_64/paging.h` and the functions of
`kernel/arch/x86_64/paging.c` that read and write one: an entry holds the address of a page in bits
12 to 51 and flags outside of them. The flags of the kernel's interface (`mmu.h`) are translated to
those of the hardware and back.
-/

namespace Stanix

/-! ## Flags -/

/-- Source: `MMU_FLAG_PRESENT` (`mmu.h:8`). -/
def mmuFlagPresent : BitVec 64 := 0x1

/-- Source: `MMU_FLAG_READ`. -/
def mmuFlagRead : BitVec 64 := 0x2

/-- Source: `MMU_FLAG_WRITE`. -/
def mmuFlagWrite : BitVec 64 := 0x4

/-- Source: `MMU_FLAG_EXEC`. -/
def mmuFlagExec : BitVec 64 := 0x8

/-- Source: `MMU_FLAG_USER`. -/
def mmuFlagUser : BitVec 64 := 0x10

/-- Source: `MMU_FLAG_GLOBAL`. -/
def mmuFlagGlobal : BitVec 64 := 0x20

/-- Source: `MMU_FLAG_ACCESS`. -/
def mmuFlagAccess : BitVec 64 := 0x40

/-- Source: `MMU_FLAG_DIRTY`. -/
def mmuFlagDirty : BitVec 64 := 0x80

/-- Source: `MMU_FLAG_WRITE_COMBINE`. -/
def mmuFlagWriteCombine : BitVec 64 := 0x100

/-- Source: `MMU_FLAG_UNCACHED`. -/
def mmuFlagUncached : BitVec 64 := 0x200

/-- Source: `PAGING_ENTRY_ADDRESS` (`paging.h:12`). -/
def pagingEntryAddress : BitVec 64 := ~~~0xFFF#64 &&& ~~~(0xFFF#64 <<< 52)

/-- Source: `PAGING_ENTRY_FLAGS` (`paging.h:13`). -/
def pagingEntryFlags : BitVec 64 := 0xfff#64 ||| (1#64 <<< 52)

/-- Source: `PAGING_FLAG_PRESENT` (`paging.h:21`). -/
def pagingFlagPresent : BitVec 64 := 0x001

/-- Source: `PAGING_FLAG_WRITE`. -/
def pagingFlagWrite : BitVec 64 := 0x002

/-- Source: `PAGING_FLAG_USER`. -/
def pagingFlagUser : BitVec 64 := 0x004

/-- Source: `PAGING_FLAG_PCD`. -/
def pagingFlagPcd : BitVec 64 := 0x010

/-- Source: `PAGING_FLAG_ACCESS`. -/
def pagingFlagAccess : BitVec 64 := 0x020

/-- Source: `PAGING_FLAG_DIRTY`. -/
def pagingFlagDirty : BitVec 64 := 0x040

/-- Source: `PAGING_FLAG_PAT`. -/
def pagingFlagPat : BitVec 64 := 0x080

/-- Source: `PAGING_FLAG_GLOBAL`. -/
def pagingFlagGlobal : BitVec 64 := 0x100

/-- Source: `PAGING_FLAG_NO_EXE`. -/
def pagingFlagNoExe : BitVec 64 := 1#64 <<< 61

/-- Source: `PAGING_FLAG_RW_CPL3` (`paging.h:35`). -/
def pagingFlagRwCpl3 : BitVec 64 := pagingFlagPresent ||| pagingFlagUser ||| pagingFlagWrite

/-- `flags & mask`, as a condition. -/
def HasFlag (flags mask : BitVec 64) : Prop := flags &&& mask ≠ 0#64
  deriving Decidable

/-- `if (c) flags |= x`. -/
def orIf (c : Prop) [Decidable c] (x flags : BitVec 64) : BitVec 64 :=
  if c then flags ||| x else flags

/-- Source: `mmu2paging_flags` (`paging.c:18`). -/
def mmu2pagingFlags (mmuFlags : BitVec 64) : BitVec 64 :=
  let flags := 0#64
  let flags := orIf (HasFlag mmuFlags mmuFlagPresent) pagingFlagPresent flags
  let flags := orIf (HasFlag mmuFlags mmuFlagWrite) pagingFlagWrite flags
  let flags := orIf (¬ HasFlag mmuFlags mmuFlagExec) pagingFlagNoExe flags
  let flags := orIf (HasFlag mmuFlags mmuFlagUser) pagingFlagUser flags
  let flags := orIf (HasFlag mmuFlags mmuFlagGlobal) pagingFlagGlobal flags
  let flags := orIf (HasFlag mmuFlags mmuFlagWriteCombine) pagingFlagPat flags
  orIf (HasFlag mmuFlags mmuFlagUncached) pagingFlagPcd flags

/-- Source: `paging2mmu_flags` (`paging.c:44`). -/
def paging2mmuFlags (pagingFlags : BitVec 64) : BitVec 64 :=
  let flags := 0#64
  let flags := orIf (HasFlag pagingFlags pagingFlagPresent) (mmuFlagPresent ||| mmuFlagRead) flags
  let flags := orIf (HasFlag pagingFlags pagingFlagWrite) mmuFlagWrite flags
  let flags := orIf (¬ HasFlag pagingFlags pagingFlagNoExe) mmuFlagExec flags
  let flags := orIf (HasFlag pagingFlags pagingFlagUser) mmuFlagUser flags
  let flags := orIf (HasFlag pagingFlags pagingFlagAccess) mmuFlagAccess flags
  let flags := orIf (HasFlag pagingFlags pagingFlagDirty) mmuFlagDirty flags
  let flags := orIf (HasFlag pagingFlags pagingFlagPat) mmuFlagWriteCombine flags
  orIf (HasFlag pagingFlags pagingFlagPcd) mmuFlagUncached flags

/-! ## Values of entries -/

/-- The entry points to a page. -/
abbrev Present (value : BitVec 64) : Prop := HasFlag value pagingFlagPresent

/-- `value & PAGING_ENTRY_ADDRESS`. -/
def entryAddress (value : BitVec 64) : Nat := (value &&& pagingEntryAddress).toNat

/-- The page of an entry, `none` being `PAGE_INVALID`. Source: `mmu_entry_val_get_page`
(`paging.c:503`). -/
def mmuEntryValGetPage (value : BitVec 64) : Option Nat :=
  if Present value then some (entryAddress value) else none

/-- Source: `mmu_entry_val_get_flags` (`paging.c:511`). -/
def mmuEntryValGetFlags (value : BitVec 64) : BitVec 64 :=
  if Present value then paging2mmuFlags value else 0

/-- The value that `mmu_entry_map` stores (`paging.c:447`). -/
def mapValue (paddr : Nat) (flags : BitVec 64) : BitVec 64 :=
  (BitVec.ofNat 64 paddr &&& pagingEntryAddress) ||| mmu2pagingFlags flags

/-- The value that `mmu_entry_map_and_or_flags` stores (`paging.c:453`). -/
def mapOrValue (paddr : Nat) (flags old : BitVec 64) : BitVec 64 :=
  (BitVec.ofNat 64 paddr &&& pagingEntryAddress) ||| (old &&& pagingEntryFlags) |||
    mmu2pagingFlags flags

/-- The value that `mmu_entry_set_flags` stores (`paging.c:480`). -/
def setFlagsValue (flags old : BitVec 64) : BitVec 64 :=
  (old &&& pagingEntryAddress) ||| mmu2pagingFlags flags

/-- The value that `mmu_entry_or_flags` stores (`paging.c:491`). -/
def orFlagsValue (flags old : BitVec 64) : BitVec 64 := old ||| mmu2pagingFlags flags

/-- The value that `mmu_entry_clear_flags` stores (`paging.c:497`). -/
def clearFlagsValue (flags old : BitVec 64) : BitVec 64 := old &&& ~~~mmu2pagingFlags flags

/-- The entry that `mmu_create_entry_and_acquire_lock` makes point to a new table
(`paging.c:313`). -/
def tableValue (page : Nat) : BitVec 64 := BitVec.ofNat 64 page ||| pagingFlagRwCpl3

/-! ## What is read back -/

/-- The address is that of the page number in bits 12 to 51. -/
theorem entryAddress_eq (value : BitVec 64) :
    entryAddress value = pageSize * (value.toNat / pageSize % 2 ^ 40) := by
  have hmask : pagingEntryAddress.toNat = 2 ^ 12 * (2 ^ 40 - 1) := by decide
  rw [entryAddress, BitVec.toNat_and, hmask, show pageSize = 2 ^ 12 from rfl]
  refine Nat.eq_of_testBit_eq fun i => ?_
  rw [Nat.testBit_and, Nat.testBit_two_pow_mul, Nat.testBit_two_pow_mul,
    Nat.testBit_two_pow_sub_one, Nat.testBit_mod_two_pow, Nat.testBit_div_two_pow]
  by_cases hi : 12 ≤ i
  · simp [hi, Bool.and_comm]
  simp [hi]

/-- The address of an entry is that of a page below `2 ^ 52`. -/
theorem entryAddress_spec (value : BitVec 64) :
    entryAddress value % pageSize = 0 ∧ entryAddress value < 2 ^ 52 := by
  have hlt : value.toNat / pageSize % 2 ^ 40 < 2 ^ 40 := Nat.mod_lt _ (by decide)
  rw [entryAddress_eq, Nat.mul_mod_right]
  refine ⟨rfl, ?_⟩
  simp only [pageSize] at hlt ⊢
  omega

/-- The address of a page is its own. -/
theorem entryAddress_ofNat {paddr : Nat} (h : paddr % pageSize = 0) (hlt : paddr < 2 ^ 52) :
    entryAddress (BitVec.ofNat 64 paddr) = paddr := by
  rw [entryAddress_eq, BitVec.toNat_ofNat]
  simp only [pageSize] at h ⊢
  omega

section Masks

variable {x y m : BitVec 64}

/-- A flag of a union is a flag of one of the parts. -/
@[simp] theorem hasFlag_or : HasFlag (x ||| y) m ↔ HasFlag x m ∨ HasFlag y m := by
  simp only [HasFlag, BitVec.and_or_distrib_right, Ne, BitVec.or_eq_zero_iff, not_and_or]

/-- Masking with what holds no part of a flag clears it. -/
theorem not_hasFlag_and (h : y &&& m = 0#64) : ¬ HasFlag (x &&& y) m := by
  simp [HasFlag, BitVec.and_assoc, h]

/-- Masking with what holds all of a flag keeps it. -/
theorem hasFlag_and_of_subset (h : y &&& m = m) : HasFlag (x &&& y) m ↔ HasFlag x m := by
  simp [HasFlag, BitVec.and_assoc, h]

@[simp] theorem not_hasFlag_zero : ¬ HasFlag 0#64 m := by simp [HasFlag]

@[simp] theorem hasFlag_orIf {c : Prop} [Decidable c] :
    HasFlag (orIf c x y) m ↔ HasFlag y m ∨ c ∧ HasFlag x m := by
  unfold orIf
  split <;> simp [*]

/-- Bits outside of the address do not change it. -/
theorem entryAddress_or (h : ¬ HasFlag y pagingEntryAddress) :
    entryAddress (x ||| y) = entryAddress x := by
  rw [entryAddress, BitVec.and_or_distrib_right, not_not.1 h, BitVec.or_zero, entryAddress]

/-- Masking with the address does not change it. -/
theorem entryAddress_and : entryAddress (x &&& pagingEntryAddress) = entryAddress x := by
  rw [entryAddress, BitVec.and_assoc, BitVec.and_self, entryAddress]

end Masks

/-! ## Translated flags -/

section Flags

variable (f : BitVec 64)

/-- The flags of a translation. -/
theorem hasFlag_mmu2pagingFlags (m : BitVec 64) : HasFlag (mmu2pagingFlags f) m ↔
    (HasFlag f mmuFlagPresent ∧ HasFlag pagingFlagPresent m) ∨
    (HasFlag f mmuFlagWrite ∧ HasFlag pagingFlagWrite m) ∨
    (¬ HasFlag f mmuFlagExec ∧ HasFlag pagingFlagNoExe m) ∨
    (HasFlag f mmuFlagUser ∧ HasFlag pagingFlagUser m) ∨
    (HasFlag f mmuFlagGlobal ∧ HasFlag pagingFlagGlobal m) ∨
    (HasFlag f mmuFlagWriteCombine ∧ HasFlag pagingFlagPat m) ∨
    (HasFlag f mmuFlagUncached ∧ HasFlag pagingFlagPcd m) := by
  simp only [mmu2pagingFlags, hasFlag_orIf, not_hasFlag_zero, false_or, or_assoc]

/-- The translated flags have no bit in the address. -/
theorem mmu2pagingFlags_address : ¬ HasFlag (mmu2pagingFlags f) pagingEntryAddress := by
  have h : ¬ HasFlag pagingFlagPresent pagingEntryAddress ∧
      ¬ HasFlag pagingFlagWrite pagingEntryAddress ∧
      ¬ HasFlag pagingFlagNoExe pagingEntryAddress ∧
      ¬ HasFlag pagingFlagUser pagingEntryAddress ∧
      ¬ HasFlag pagingFlagGlobal pagingEntryAddress ∧
      ¬ HasFlag pagingFlagPat pagingEntryAddress ∧ ¬ HasFlag pagingFlagPcd pagingEntryAddress := by
    decide +kernel
  simp [hasFlag_mmu2pagingFlags, h]

@[simp] theorem mmu2pagingFlags_present :
    HasFlag (mmu2pagingFlags f) pagingFlagPresent ↔ HasFlag f mmuFlagPresent := by
  have h : HasFlag pagingFlagPresent pagingFlagPresent ∧
      ¬ HasFlag pagingFlagWrite pagingFlagPresent ∧ ¬ HasFlag pagingFlagNoExe pagingFlagPresent ∧
      ¬ HasFlag pagingFlagUser pagingFlagPresent ∧ ¬ HasFlag pagingFlagGlobal pagingFlagPresent ∧
      ¬ HasFlag pagingFlagPat pagingFlagPresent ∧ ¬ HasFlag pagingFlagPcd pagingFlagPresent := by
    decide +kernel
  simp [hasFlag_mmu2pagingFlags, h]

variable {f} {paddr : Nat}

/-- A mapping is present when its flags are. -/
@[simp] theorem present_mapValue : Present (mapValue paddr f) ↔ HasFlag f mmuFlagPresent := by
  rw [Present, mapValue, hasFlag_or, mmu2pagingFlags_present]
  exact or_iff_right (not_hasFlag_and (by decide))

/-- A mapping is to the page it was made for. -/
theorem entryAddress_mapValue (h : paddr % pageSize = 0) (hlt : paddr < 2 ^ 52) :
    entryAddress (mapValue paddr f) = paddr := by
  rw [mapValue, entryAddress_or (mmu2pagingFlags_address f), entryAddress_and,
    entryAddress_ofNat h hlt]

/-- The entry of a table is present. -/
@[simp] theorem present_tableValue : Present (tableValue paddr) := by
  have h : HasFlag pagingFlagRwCpl3 pagingFlagPresent := by decide
  simp [Present, tableValue, h]

/-- The entry of a table points to it. -/
theorem entryAddress_tableValue (h : paddr % pageSize = 0) (hlt : paddr < 2 ^ 52) :
    entryAddress (tableValue paddr) = paddr := by
  rw [tableValue, entryAddress_or (by decide), entryAddress_ofNat h hlt]

/-- An entry that loses the right to be written stays present. -/
theorem present_clearWrite (value : BitVec 64) :
    Present (clearFlagsValue mmuFlagWrite value) ↔ Present value :=
  hasFlag_and_of_subset (by decide +kernel)

/-- An entry that loses the right to be written is one of the same page. -/
theorem entryAddress_clearWrite (value : BitVec 64) :
    entryAddress (clearFlagsValue mmuFlagWrite value) = entryAddress value := by
  have hmask : ~~~mmu2pagingFlags mmuFlagWrite &&& pagingEntryAddress = pagingEntryAddress := by
    decide +kernel
  rw [entryAddress, clearFlagsValue, BitVec.and_assoc, hmask, entryAddress]

end Flags

end Stanix
