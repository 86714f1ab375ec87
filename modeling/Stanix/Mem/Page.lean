import Mathlib.Algebra.Order.Ring.Nat

/-!
# Addresses and pages

The arithmetic of addresses, and the macros of `kernel/include/mem/page.h`. Addresses and sizes are
numbers below `2 ^ 64`; what the code computes on them wraps around.
-/

namespace Stanix

/-- A sum as the machine computes it. -/
def wrap (n : Nat) : Nat := n % 2 ^ 64

theorem wrap_of_lt {n : Nat} (h : n < 2 ^ 64) : wrap n = n := Nat.mod_eq_of_lt h

/-- A difference as the machine computes it. -/
def wrapSub (m n : Nat) : Nat := wrap (m + (2 ^ 64 - n))

theorem wrapSub_of_le {m n : Nat} (h : n ≤ m) (hm : m < 2 ^ 64) : wrapSub m n = m - n := by
  unfold wrapSub wrap
  omega

/-- Source: `PAGE_SIZE`. -/
def pageSize : Nat := 4096

/-- Source: `PAGES_PER_BATCH` (`pagesbatch.h:6`). -/
def pagesPerBatch : Nat := 31

/-- The page number of `PAGE_INVALID`. Source: `PFN_INVALID` (`page.h:17`). -/
def pageInvalid : Nat := 2 ^ 42 - 1

/-- Source: `PAGE_ALIGN_DOWN` (`page.h:9`). -/
def pageAlignDown (n : Nat) : Nat := n / pageSize * pageSize

/-- Source: `PAGE_ALIGN_UP` (`page.h:10`). -/
def pageAlignUp (n : Nat) : Nat := wrap (n + pageSize - 1) / pageSize * pageSize

end Stanix
