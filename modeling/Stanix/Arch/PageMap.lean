import Stanix.Arch.Mmu
import Mathlib.Data.Finset.Max

/-!
# Page tables as maps

An address space as a map from page numbers to entries, which is what the code above the interface
relies on; `kernel/arch/x86_64/paging.c` is a map in this sense for the ranges that
`Stanix.Arch.Paging.Refine` names. Whether there is memory for the tables of an entry, and which
pages `pmm_allocate_page` hands out, are lists of answers; only a page without references is handed
out. Operations on an entry are atomic, so that entries have no locks.

The loop `mmu_foreach_entry_range` goes through the pages of a range in order, and skips those that
are not present; `foreach_rule` is the induction over it.
-/

namespace Stanix

open Function Finset

/-- Address spaces, the reference counts of pages and what is in them, and what the allocators will
answer. -/
structure MapMem where
  entry : Nat → Nat → BitVec 64
  /-- The pages of a space that have an entry. -/
  pages : Nat → Finset Nat
  present : ∀ sp v, Present (entry sp v) → v ∈ pages sp
  refCount : Nat → BitVec 32
  byte : Nat → Nat → BitVec 8
  frames : List (Option Nat)
  tables : List Bool
  zeroFrame : Nat

namespace MapMem

/-- Write of an entry. -/
def store (m : MapMem) (e : Nat × Nat) (value : BitVec 64) : MapMem :=
  { m with
    entry := update m.entry e.1 (update (m.entry e.1) e.2 value)
    pages := update m.pages e.1 (insert e.2 (m.pages e.1))
    present := fun sp v h => by
      by_cases hsp : sp = e.1
      · subst hsp
        rw [update_self] at h ⊢
        by_cases hv : v = e.2
        · rw [hv]
          exact Finset.mem_insert_self ..
        · rw [update_of_ne hv] at h
          exact Finset.mem_insert_of_mem (m.present _ v h)
      · rw [update_of_ne hsp] at h ⊢
        exact m.present sp v h }

/-- The first page that is present, from a page on. -/
def next (m : MapMem) (sp v : Nat) : Option Nat :=
  ((m.pages sp).filter fun u => v ≤ u ∧ Present (m.entry sp u)).min

/-- A page without references, with an address that an entry can hold. -/
def Free (m : MapMem) (page : Nat) : Prop :=
  page % pageSize = 0 ∧ page < 2 ^ 52 ∧ m.refCount page = 0
  deriving Decidable

/-- Source: `pmm_allocate_page` (`pmm.h:135`). -/
def allocatePage (m : MapMem) : Option Nat × MapMem :=
  match m.frames with
  | [] => (none, m)
  | none :: frames => (none, { m with frames := frames })
  | some page :: frames =>
    if m.Free page then
      (some page, { m with refCount := update m.refCount page 1, frames := frames })
    else (none, { m with frames := frames })

/-- Source: `pmm_retain` (`pmm.c:362`). -/
def retain (m : MapMem) (page : Nat) : Exec (Bool × MapMem) := do
  Exec.assert (page % pageSize = 0)
  let old := m.refCount page
  if old = 0 then return (false, m)
  else return (true, { m with refCount := update m.refCount page (old + 1) })

/-- Source: `pmm_release_page` (`pmm.c:343`). -/
def releasePage (m : MapMem) (page : Nat) : Exec MapMem := do
  Exec.assert (page % pageSize = 0)
  return { m with refCount := update m.refCount page (m.refCount page - 1) }

/-- An entry is made, if there is memory for the tables. -/
def createEntry (m : MapMem) (sp vaddr : Nat) : Option (Nat × Nat) × MapMem :=
  match m.tables with
  | [] => (none, m)
  | false :: tables => (none, { m with tables := tables })
  | true :: tables => (some (sp, vaddr / pageSize), { m with tables := tables })

/-- Source: `mmu_space_virt2phys`. -/
def virt2phys (m : MapMem) (sp vaddr : Nat) : Option Nat :=
  let value := m.entry sp (vaddr / pageSize)
  if Present value then some (entryAddress value + vaddr % pageSize) else none

end MapMem

/-- Page tables that are maps, as an implementation of the interface. -/
def pageMap : Mmu MapMem Nat (Nat × Nat) where
  fetch m e := m.entry e.1 e.2
  store := MapMem.store
  getEntryAndAcquireLock m sp vaddr := .ok (some (sp, vaddr / pageSize), m)
  createEntryAndAcquireLock m sp vaddr := .ok (m.createEntry sp vaddr)
  createNextEntryAndAcquireLock m sp vaddr _ _ := .ok (m.createEntry sp vaddr)
  getNextEntry m sp start := (m.next sp (start / pageSize)).map fun v => ((sp, v), v * pageSize)
  entryReleaseLock m _ := .ok m
  virt2phys := MapMem.virt2phys
  allocatePage := MapMem.allocatePage
  retain := MapMem.retain
  releasePage := MapMem.releasePage
  zeroPage m page := { m with byte := update m.byte page fun _ => 0 }
  copyPage m target page := { m with byte := update m.byte target (m.byte page) }
  refCount m page := m.refCount page
  zeroFrame m := m.zeroFrame

namespace MapMem

variable {m m' : MapMem} {sp v u b : Nat}

/-! ## Reading and writing -/

theorem store_entry (e : Nat × Nat) (value : BitVec 64) (sp v : Nat) :
    (m.store e value).entry sp v = if (sp, v) = e then value else m.entry sp v := by
  obtain ⟨sp', v'⟩ := e
  show update m.entry sp' _ sp v = _
  simp only [update_apply]
  split_ifs <;> grind

/-- The page that `next` finds is the first one. -/
theorem next_eq_some (h : m.next sp v = some u) :
    v ≤ u ∧ Present (m.entry sp u) ∧ ∀ w, v ≤ w → w < u → ¬ Present (m.entry sp w) := by
  have hmem := mem_of_min h
  rw [mem_filter] at hmem
  refine ⟨hmem.2.1, hmem.2.2, fun w hw hlt hp => ?_⟩
  have hw : w ∈ (m.pages sp).filter fun u => v ≤ u ∧ Present (m.entry sp u) :=
    mem_filter.2 ⟨m.present sp w hp, hw, hp⟩
  exact absurd (min_le_of_eq hw h) (by omega)

theorem next_eq_none (h : m.next sp v = none) : ∀ w, v ≤ w → ¬ Present (m.entry sp w) := by
  intro w hw hp
  have hempty := Finset.min_eq_top.1 (h : Finset.min _ = ⊤)
  have hw : w ∈ (m.pages sp).filter fun u => v ≤ u ∧ Present (m.entry sp u) :=
    Finset.mem_filter.2 ⟨m.present sp w hp, hw, hp⟩
  rw [hempty] at hw
  exact absurd hw (Finset.notMem_empty w)

theorem wrap_succ_page (hu : u < b) (hb : b * pageSize < 2 ^ 64) :
    wrap (u * pageSize + pageSize) = (u + 1) * pageSize := by
  rw [show u * pageSize + pageSize = (u + 1) * pageSize from (Nat.succ_mul u pageSize).symm]
  exact wrap_of_lt (lt_of_le_of_lt (Nat.mul_le_mul_right pageSize hu) hb)

theorem getNextEntry_page : pageMap.getNextEntry m sp (v * pageSize) =
    (m.next sp v).map fun u => ((sp, u), u * pageSize) := by
  show (m.next sp (v * pageSize / pageSize)).map _ = _
  rw [Nat.mul_div_cancel v (by decide)]

theorem skip_to {I : Nat → Prop} (hskip : ∀ w, I w → w < u → ¬ Present (m.entry sp w) → I (w + 1))
    (hnot : ∀ w, v ≤ w → w < u → ¬ Present (m.entry sp w)) (hv : v ≤ u) (hI : I v) : I u := by
  obtain ⟨k, rfl⟩ := Nat.exists_eq_add_of_le hv
  induction k with
  | zero => exact hI
  | succ k ih =>
    have hk : I (v + k) := ih (fun w hw hlt => hskip w hw (by omega))
      (fun w hw hlt => hnot w hw (by omega)) (by omega)
    exact hskip (v + k) hk (by omega) (hnot (v + k) (by omega) (by omega))

/-- **The loop over the pages of a range.** An invariant that goes from a page to the next, over pages
that are not present and, by the body of the loop, over those that are. -/
theorem foreach_rule {α : Type} (body : Nat → Nat × Nat → MapMem × α → Exec (MapMem × α))
    (I : Nat → MapMem × α → Prop) (hb : b * pageSize < 2 ^ 64)
    (hskip : ∀ v s, I v s → v < b → ¬ Present (s.1.entry sp v) → I (v + 1) s)
    (hbody : ∀ v s s', I v s → v < b → Present (s.1.entry sp v) →
      body (v * pageSize) (sp, v) s = .ok s' → I (v + 1) s') :
    ∀ {rounds a : Nat} {s s' : MapMem × α}, a ≤ b → I a s →
      mmuForeachEntryRange pageMap sp (b * pageSize) body rounds (a * pageSize) s = .ok s' →
      I b s' := by
  intro rounds
  induction rounds with
  | zero =>
    intro a s s' _ _ hrun
    cases hrun
  | succ rounds ih => ?_
  intro a s s' hab hI hrun
  rw [mmuForeachEntryRange, getNextEntry_page] at hrun
  rcases hnext : s.1.next sp a with _ | u
  · rw [hnext] at hrun
    cases hrun
    refine skip_to (fun w hw hlt hp => hskip w s hw hlt hp)
      (fun w hw _ => next_eq_none hnext w hw) hab hI
  rw [hnext, Option.map_some] at hrun
  obtain ⟨hau, hpu, hnot⟩ := next_eq_some hnext
  dsimp only at hrun
  split at hrun
  · next hlt =>
    have hub : u < b := lt_of_mul_lt_mul_right hlt (Nat.zero_le pageSize)
    have hIu : I u s := skip_to
      (fun w hw hlt hp => hskip w s hw (hlt.trans hub) hp) hnot hau hI
    obtain ⟨s1, hs1, hrun⟩ := Exec.bind_eq_ok.1 hrun
    rw [wrap_succ_page hub hb] at hrun
    exact ih hub (hbody u s s1 hIu hub hpu hs1) hrun
  next hge =>
  cases hrun
  have hbu : b ≤ u := by
    by_contra hlt
    exact hge (Nat.mul_lt_mul_of_pos_right (not_le.1 hlt) (by decide))
  exact skip_to (fun w hw hlt hp => hskip w s hw hlt hp)
    (fun w hw hlt => hnot w hw (hlt.trans_le hbu)) hab hI

end MapMem

end Stanix
