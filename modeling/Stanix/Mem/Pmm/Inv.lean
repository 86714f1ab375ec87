import Stanix.Base.Buddy
import Stanix.Mem.Pmm.Basic

/-!
# The invariant of the physical memory manager

`Pmm.Inv s F H` relates a state to the free lists `F` of a buddy system, whose blocks are disjoint
and aligned by construction. The lists in memory are those of `F`; a page of a free block has no
reference; `PAGE_INVALID` is far from every page there is; the first page of a free block holds its
order; and a page that looks free to the merge loop, by `pmmIsFree`, is in a free block, up to the
pages of `H`. These are the pages of blocks on their way between the lists and their owners: marked
as free and not linked yet, or unlinked and not handed out yet. Nothing is said about the order field
of other pages, which the page cache overwrites.
-/

namespace Stanix

open Buddy FreeLists

namespace Pmm

variable {s : Pmm} {z z' : Zone} {o o' p q : Nat} {i : Page}

@[simp] theorem setPage_info (s : Pmm) (p q : Nat) (i : Page) :
    (s.setPage p i).info q = if q = p then some i else s.info q := Function.update_apply ..

@[simp] theorem append_info (s : Pmm) (z : Zone) (o p : Nat) : (s.append z o p).info = s.info := rfl

theorem setEntry_entries (s : Pmm) (z : Zone) (o : Nat)
    (l : (Nat → ListNode Nat) × ListHead Nat) (z' : Zone) (o' : Nat) :
    (s.setEntry z o l).entries z' o' = if z' = z ∧ o' = o then l.2 else s.entries z' o' := by
  unfold setEntry
  by_cases hz : z' = z
  · subst hz
    by_cases ho : o' = o <;> simp [ho]
  simp [hz]

/-- The state of the memory manager, against free lists and a set of pages in transit. -/
structure Inv (s : Pmm) (F : FreeLists Zone ordersCount) (H : Nat → Prop) : Prop where
  rep : ∀ z o, (s.entries z o).Rep s.mem (F.heads z o)
  bound : ∀ {q i}, s.info q = some i → ¬ InBlock (ordersCount - 1) pageInvalid q
  free : ∀ {q}, F.Covers q ∨ H q → ∃ i, s.info q = some i ∧ i.refCount = 0
  head : ∀ {z o p i}, p ∈ F.heads z o → s.info p = some i → i.order = o
  linked : ∀ {q i}, s.info q = some i → pmmIsFree i → F.Covers q ∨ H q
  hole : ∀ {q}, H q → ¬ F.Covers q

namespace Inv

variable {F : FreeLists Zone ordersCount} {H : Nat → Prop}

theorem congr {H' : Nat → Prop} (h : s.Inv F H) (hH : ∀ q, H' q ↔ H q) : s.Inv F H' := by
  obtain rfl : H' = H := funext fun q => propext (hH q)
  exact h

theorem notMem_of_ne (hne : ¬ (z' = z ∧ o' = o)) (hp : p ∈ F.heads z' o') : p ∉ F.heads z o :=
  fun hp' => hne ⟨(F.disjoint hp hp' rfl rfl).1, (F.disjoint hp hp' rfl rfl).2.1⟩

variable (h : s.Inv F H)

include h

/-- A block is taken off its list: its pages are in transit. -/
theorem remove (hp : p ∈ F.heads z o) :
    (s.remove z o p).Inv (F.erase z o p) fun q => H q ∨ InBlock o p q := by
  refine ⟨fun z' o' => ?_, h.bound, fun {q} hq => h.free ?_, fun {z' o' p' i} hp' hi => ?_,
    fun {q i} hi hf => ?_, ?_⟩
  · show ((s.setEntry z o _).entries z' o').Rep _ (setHeads F.heads z o _ z' o')
    rw [setEntry_entries, setHeads_apply]
    split
    · exact (h.rep z o).remove hp
    refine Dll.Rep.congr (h.rep z' o') fun x hx => ?_
    exact (h.rep z o).remove_frame hp (notMem_of_ne ‹_› hx)
  · rw [covers_erase hp] at hq
    rcases hq with hq | hq | hq
    · exact .inl hq.1
    · exact .inr hq
    exact .inl ⟨z, o, p, hp, hq⟩
  · exact h.head (mem_erase.1 hp').1 hi
  · rw [covers_erase hp]
    rcases h.linked hi hf with hcov | hH
    · grind
    exact .inr (.inl hH)
  rintro q (hH | hq) hcov
  · exact h.hole hH ((covers_erase hp).1 hcov).1
  exact ((covers_erase hp).1 hcov).2 hq

theorem bound_setPage {i' : Page} (hi : s.info p = some i) {q : Nat} {i1 : Page}
    (hq : (s.setPage p i').info q = some i1) : ¬ InBlock (ordersCount - 1) pageInvalid q := by
  rw [setPage_info] at hq
  split at hq
  · subst ‹q = p›
    exact h.bound hi
  exact h.bound hq

/-- A block in transit is put on a list, and its order is stored in its first page. -/
theorem link (ho : o < ordersCount) (hp : p % 2 ^ o = 0) (hH : ∀ {q}, InBlock o p q → H q)
    (hi : s.info p = some i) :
    ((s.setPage p { i with order := o }).append z o p).Inv
      (F.push z o p ho hp fun hq => h.hole (hH hq)) fun q => H q ∧ ¬ InBlock o p q := by
  have hnot : ∀ {z' o'}, p ∉ F.heads z' o' := fun hmem => h.hole (hH rfl) (covers_of_mem hmem)
  refine ⟨fun z' o' => ?_, h.bound_setPage hi, fun {q} hq => ?_, fun {z' o' p' i'} hp' hi' => ?_,
    fun {q i'} hi' hf => ?_, ?_⟩
  · show ((Pmm.setEntry _ z o _).entries z' o').Rep _ (setHeads F.heads z o _ z' o')
    rw [setEntry_entries, setHeads_apply]
    split
    · exact (h.rep z o).append hnot
    refine Dll.Rep.congr (h.rep z' o') fun x hx => ?_
    exact (h.rep z o).append_frame hnot (notMem_of_ne ‹_› hx) fun hxp => hnot (hxp ▸ hx)
  · have hq' : F.Covers q ∨ H q := by
      rcases hq with hq | hq
      · rcases covers_push.1 hq with hq | hq
        · exact .inl hq
        exact .inr (hH hq)
      exact .inr hq.1
    obtain ⟨i', h2, h3⟩ := h.free hq'
    rw [append_info, setPage_info]
    split
    · grind
    exact ⟨i', h2, h3⟩
  · rw [append_info, setPage_info] at hi'
    rcases mem_push.1 hp' with hold | ⟨-, rfl, rfl⟩
    · rw [if_neg fun hpp => hnot (hpp ▸ hold)] at hi'
      exact h.head hold hi'
    rw [if_pos rfl] at hi'
    cases hi'
    rfl
  · rw [covers_push]
    rw [append_info, setPage_info] at hi'
    have hq : F.Covers q ∨ H q := by
      split at hi'
      · exact .inr (hH (by subst ‹q = p›; rfl))
      exact h.linked hi' hf
    by_cases hb : InBlock o p q
    · exact .inl (.inr hb)
    grind
  rintro q ⟨hq, hb⟩ hcov
  rcases covers_push.1 hcov with hcov | hb'
  · exact h.hole hq hcov
  exact hb hb'

theorem acquire (hq : H q) (hi : i.refCount ≠ 0) :
    (s.setPage q i).Inv F fun q' => H q' ∧ q' ≠ q := by
  have hne : ∀ {q'}, F.Covers q' → q' ≠ q := fun hcov hqq => h.hole hq (hqq ▸ hcov)
  obtain ⟨i0, hi0, -⟩ := h.free (.inr hq)
  refine ⟨h.rep, h.bound_setPage hi0, fun {q'} hq' => ?_, fun {z o p i'} hp hi' => ?_, fun {q' i'} hi' hf => ?_,
    fun hq' => h.hole hq'.1⟩
  · have hqq : q' ≠ q := by grind
    rw [setPage_info, if_neg hqq]
    exact h.free (hq'.imp_right And.left)
  · rw [setPage_info, if_neg (hne (covers_of_mem hp))] at hi'
    exact h.head hp hi'
  rw [setPage_info] at hi'
  split at hi'
  · cases hi'
    exact absurd (of_decide_eq_true hf).1 hi
  exact (h.linked hi' hf).imp_right fun hH => ⟨hH, ‹_›⟩

theorem mark (hq : ¬ F.Covers q) (hi : s.info q = some i) :
    (s.setPage q { i with refCount := 0 }).Inv F fun q' => H q' ∨ q' = q := by
  have hne : ∀ {q'}, F.Covers q' → q' ≠ q := fun hcov hqq => hq (hqq ▸ hcov)
  refine ⟨h.rep, h.bound_setPage hi, fun {q'} hq' => ?_, fun {z o p i'} hp hi' => ?_,
    fun {q' i'} hi' hf => ?_, ?_⟩
  · rw [setPage_info]
    split
    · exact ⟨_, rfl, rfl⟩
    exact h.free (hq'.imp_right fun hH => hH.resolve_right ‹_›)
  · rw [setPage_info, if_neg (hne (covers_of_mem hp))] at hi'
    exact h.head hp hi'
  · rw [setPage_info] at hi'
    split at hi'
    · exact .inr (.inr ‹_›)
    exact (h.linked hi' hf).imp_right .inl
  rintro q' (hq' | rfl)
  · exact h.hole hq'
  exact hq

/-- The owner of a page writes to it, and to the union in its information. -/
theorem write (hq : ¬ F.Covers q) (hi : s.info q = some i) (node : ListNode Nat) (order : Nat) :
    ({ s.setPage q { i with order := order } with mem := Function.update s.mem q node } : Pmm).Inv
      F H := by
  have hne : ∀ {q'}, F.Covers q' → q' ≠ q := fun hcov hqq => hq (hqq ▸ hcov)
  have hinfo : ∀ {q' i'}, (s.setPage q { i with order := order }).info q' = some i' →
      ∃ i0, s.info q' = some i0 ∧ i0.refCount = i'.refCount ∧ i0.flags = i'.flags := by
    intro q' i' hi'
    rw [setPage_info] at hi'
    split at hi'
    · grind
    exact ⟨i', hi', rfl, rfl⟩
  refine ⟨fun z o => ?_, h.bound_setPage hi, fun {q'} hq' => ?_, fun {z o p i'} hp hi' => ?_,
    fun {q' i'} hi' hf => ?_, h.hole⟩
  · refine Dll.Rep.congr (h.rep z o) fun x hx => ?_
    exact Function.update_of_ne (hne (covers_of_mem hx)) ..
  · obtain ⟨i', h2, h3⟩ := h.free hq'
    rw [setPage_info]
    split
    · grind
    exact ⟨i', h2, h3⟩
  · have hpq := hne (covers_of_mem hp)
    refine h.head hp ?_
    rw [← hi']
    rw [setPage_info, if_neg hpq]
  obtain ⟨i0, h1, h2, h3⟩ := hinfo hi'
  refine h.linked h1 ?_
  unfold pmmIsFree
  rw [h2, h3]
  exact hf

end Inv

end Pmm

end Stanix
