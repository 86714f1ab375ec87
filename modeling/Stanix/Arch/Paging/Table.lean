import Stanix.Arch.Paging.Basic
import Stanix.Base.Radix

/-!
# Trees of page tables

What a memory holds below a table: the entry of a page number (`PageTable.walk`), its value
(`PageTable.leaf`), the tables that are reached (`PageTable.tables`), and that no two of them are the
same page (`PageTable.Apart`). A page number is a virtual address over the size of a page; a table of
level `l` is indexed by its digit `l` in base 512, and only its digits up to `l` count below that
table. Statements are about the first `n` entries of the table on top, such as the lower half of an
address space.

A new table is full of zeros, and a page without a table has the value zero: so the creation of
tables changes no value (`Grows`), and a write to an entry changes the value of one page
(`PageTable.Apart.write`).
-/

namespace Stanix

open Function

namespace PageTable

variable {w w' : Nat → BitVec 64} {n l t v v' i e a : Nat}

/-- The entry for a page number, walking down from a table of level `l`. -/
def walk (w : Nat → BitVec 64) : Nat → Nat → Nat → Option Nat
  | 0, t, v => some (tableEntry t (v % 512))
  | l + 1, t, v =>
    let current := w (tableEntry t (v / 512 ^ (l + 1) % 512))
    if Present current then walk w l (entryAddress current) v else none

/-- The value of the entry for a page number, zero where there is no table for it. -/
def leaf (w : Nat → BitVec 64) (l t v : Nat) : BitVec 64 :=
  match walk w l t v with
  | some e => w e
  | none => 0

/-- The tables reached through the first `n` entries of a table of level `l`, and the table. -/
def tables (w : Nat → BitVec 64) : Nat → Nat → Nat → Set Nat
  | _, 0, t => {t}
  | n, l + 1, t => {t} ∪ {f | ∃ i < n, Present (w (tableEntry t i)) ∧
      f ∈ tables w 512 l (entryAddress (w (tableEntry t i)))}

/-- The tables reached through the first `n` entries are all different pages. -/
def Apart (w : Nat → BitVec 64) : Nat → Nat → Nat → Prop
  | _, 0, _ => True
  | n, l + 1, t =>
    (∀ i < n, Present (w (tableEntry t i)) → Apart w 512 l (entryAddress (w (tableEntry t i))) ∧
      t ∉ tables w 512 l (entryAddress (w (tableEntry t i)))) ∧
    ∀ i < n, ∀ j < n, i ≠ j → Present (w (tableEntry t i)) → Present (w (tableEntry t j)) →
      Disjoint (tables w 512 l (entryAddress (w (tableEntry t i))))
        (tables w 512 l (entryAddress (w (tableEntry t j))))

/-! ## Indices -/

theorem pagingLevelIndex_eq (l a : Nat) : pagingLevelIndex l a = a / pageSize / 512 ^ l % 512 := by
  rw [pagingLevelIndex, show (0x1ff : Nat) = 2 ^ 9 - 1 from rfl, Nat.and_two_pow_sub_one_eq_mod,
    Nat.shiftRight_eq_div_pow, pagingLevelShift, pow_add, pow_mul, Nat.div_div_eq_div_mul]
  rfl

theorem mmuGetEntryFrom_eq (s : PhysMem) (a l t : Nat) :
    mmuGetEntryFrom s a l t = walk s.word l t (a / pageSize) := by
  induction l generalizing t with
  | zero => rw [mmuGetEntryFrom, walk, pagingLevelIndex_eq, pow_zero, Nat.div_one]
  | succ l ih => simp only [mmuGetEntryFrom, walk, pagingLevelIndex_eq, ih]

theorem pageAlignDown_tableEntry (ht : t % pageSize = 0) (hi : i < 512) :
    pageAlignDown (tableEntry t i) = t := by
  unfold pageAlignDown tableEntry pageSize at *
  omega

theorem tableEntry_inj {j : Nat} (h : tableEntry t i = tableEntry t j) : i = j := by
  unfold tableEntry at h
  omega

theorem walk_congr_digits (h : v % 512 ^ (l + 1) = v' % 512 ^ (l + 1)) :
    walk w l t v = walk w l t v' := by
  induction l generalizing t with
  | zero =>
    rw [pow_one] at h
    rw [walk, walk, h]
  | succ l ih => ?_
  have hdigit := Radix.digit_congr (b := 512) h (Nat.lt_succ_self (l + 1))
  have hrest : v % 512 ^ (l + 1) = v' % 512 ^ (l + 1) := by
    have hdvd : 512 ^ (l + 1) ∣ 512 ^ (l + 1 + 1) := pow_dvd_pow 512 (Nat.le_succ _)
    rw [← Nat.mod_mod_of_dvd v hdvd, h, Nat.mod_mod_of_dvd v' hdvd]
  simp only [walk, hdigit, ih hrest]

/-! ## Tables -/

theorem mem_tables_self : t ∈ tables w n l t := by
  cases l <;> simp [tables]

theorem mem_tables_of_entry {f : Nat} (hi : i < n) (hp : Present (w (tableEntry t i)))
    (hf : f ∈ tables w 512 l (entryAddress (w (tableEntry t i)))) : f ∈ tables w n (l + 1) t :=
  .inr ⟨i, hi, hp, hf⟩

theorem walk_mem (ht : t % pageSize = 0) (hn : v / 512 ^ l % 512 < n) (h : walk w l t v = some e) :
    pageAlignDown e ∈ tables w n l t := by
  induction l generalizing n t with
  | zero =>
    cases h
    rw [pageAlignDown_tableEntry ht (Nat.mod_lt _ (by decide))]
    exact mem_tables_self
  | succ l ih => ?_
  simp only [walk] at h
  split at h
  · next hp =>
    exact mem_tables_of_entry hn hp (ih (entryAddress_spec _).1 (Nat.mod_lt _ (by decide)) h)
  cases h

/-- The memory agrees with another one on some pages. -/
def AgreeOn (w w' : Nat → BitVec 64) (F : Set Nat) : Prop :=
  ∀ a, pageAlignDown a ∈ F → w' a = w a

/-- Two memories hold the same tables below a table, whatever the values of the pages. -/
structure SameShape (w w' : Nat → BitVec 64) (n l t : Nat) : Prop where
  tables : tables w' n l t = tables w n l t
  apart : Apart w n l t → Apart w' n l t
  walk : ∀ v, v / 512 ^ l % 512 < n → walk w' l t v = walk w l t v

/-- The tables are the same when the entries on top and all that is below them are. -/
theorem SameShape.of_entries (hentry : ∀ i < n, w' (tableEntry t i) = w (tableEntry t i))
    (hsub : ∀ i < n, Present (w (tableEntry t i)) →
      SameShape w w' 512 l (entryAddress (w (tableEntry t i)))) : SameShape w w' n (l + 1) t := by
  refine ⟨?_, fun h => ⟨fun i hi hp => ?_, fun i hi j hj hij hpi hpj => ?_⟩, fun v hv => ?_⟩
  · ext f
    constructor
    · rintro (hf | ⟨i, hi, hp, hf⟩)
      · exact .inl hf
      rw [hentry i hi] at hp hf
      rw [(hsub i hi hp).tables] at hf
      exact .inr ⟨i, hi, hp, hf⟩
    rintro (hf | ⟨i, hi, hp, hf⟩)
    · exact .inl hf
    refine .inr ⟨i, hi, ?_, ?_⟩
    · rw [hentry i hi]; exact hp
    rw [hentry i hi, (hsub i hi hp).tables]; exact hf
  · rw [hentry i hi] at hp ⊢
    obtain ⟨h3, h4⟩ := h.1 i hi hp
    refine ⟨(hsub i hi hp).apart h3, ?_⟩
    rw [(hsub i hi hp).tables]
    exact h4
  · rw [hentry i hi] at hpi ⊢
    rw [hentry j hj] at hpj ⊢
    rw [(hsub i hi hpi).tables, (hsub j hj hpj).tables]
    exact h.2 i hi j hj hij hpi hpj
  simp only [PageTable.walk, hentry _ hv]
  split
  · next hp => exact (hsub _ hv hp).walk v (Nat.mod_lt _ (by decide))
  rfl

/-- **Frames.** A memory that agrees on the tables holds the same tables. -/
theorem SameShape.of_agree (ht : t % pageSize = 0) (hn : n ≤ 512)
    (h : AgreeOn w w' (PageTable.tables w n l t)) : SameShape w w' n l t := by
  induction l generalizing n t with
  | zero => exact ⟨rfl, id, fun _ _ => rfl⟩
  | succ l ih =>
    refine .of_entries (fun i hi => h _ ?_) fun i hi hp =>
      ih (entryAddress_spec _).1 le_rfl fun a ha => h a (mem_tables_of_entry hi hp ha)
    rw [pageAlignDown_tableEntry ht (hi.trans_le hn)]
    exact mem_tables_self

/-! ## Values of pages -/

theorem leaf_succ : leaf w (l + 1) t v =
    if Present (w (tableEntry t (v / 512 ^ (l + 1) % 512))) then
      leaf w l (entryAddress (w (tableEntry t (v / 512 ^ (l + 1) % 512)))) v
    else 0 := by
  simp only [leaf, walk]
  by_cases hp : Present (w (tableEntry t (v / 512 ^ (l + 1) % 512)))
  · simp only [if_pos hp]
  simp only [if_neg hp]

theorem leaf_of_walk (h : walk w l t v = some e) : leaf w l t v = w e := by
  rw [leaf, h]

theorem leaf_of_agree (ht : t % pageSize = 0) (hn : n ≤ 512) (h : AgreeOn w w' (tables w n l t))
    (hv : v / 512 ^ l % 512 < n) : leaf w' l t v = leaf w l t v := by
  rw [leaf, (SameShape.of_agree ht hn h).walk v hv, leaf]
  split
  · next e he => exact h e (walk_mem ht hv he)
  rfl

theorem leaf_congr_digits (h : v % 512 ^ (l + 1) = v' % 512 ^ (l + 1)) :
    leaf w l t v = leaf w l t v' := by
  rw [leaf, walk_congr_digits h, leaf]

namespace Apart

section

variable (h : Apart w n l t) (ht : t % pageSize = 0)
include h ht

theorem walk_inj (hv : v / 512 ^ l % 512 < n) (hv' : v' / 512 ^ l % 512 < n)
    (he : walk w l t v = some e) (he' : walk w l t v' = some e) :
    v % 512 ^ (l + 1) = v' % 512 ^ (l + 1) := by
  induction l generalizing n t with
  | zero =>
    exact tableEntry_inj (Option.some.inj (he.trans he'.symm))
  | succ l ih => ?_
  simp only [walk] at he he'
  split at he
  case isFalse => cases he
  split at he'
  case isFalse => cases he'
  next hp hp' =>
  have hlt (x : Nat) : x / 512 ^ l % 512 < 512 := Nat.mod_lt _ (by decide)
  by_cases hij : v / 512 ^ (l + 1) % 512 = v' / 512 ^ (l + 1) % 512
  · rw [← hij] at he'
    have hrest := ih (h.1 _ hv hp).1 (entryAddress_spec _).1 (hlt v) (hlt v') he he'
    rw [Radix.mod_pow_succ, Radix.mod_pow_succ 512 (l + 1) v', hij, hrest]
  have hmem := walk_mem (entryAddress_spec _).1 (hlt v) he
  have hmem' := walk_mem (entryAddress_spec _).1 (hlt v') he'
  exact absurd rfl ((h.2 _ hv _ hv' hij hp hp').ne_of_mem hmem hmem')

theorem sameShape_update (hn : n ≤ 512) (hv : v / 512 ^ l % 512 < n) (he : walk w l t v = some e)
    (x : BitVec 64) : SameShape w (update w e x) n l t := by
  induction l generalizing n t with
  | zero => exact ⟨rfl, id, fun _ _ => rfl⟩
  | succ l ih => ?_
  simp only [walk] at he
  split at he
  case isFalse => cases he
  next hp =>
  have hlt : v / 512 ^ l % 512 < 512 := Nat.mod_lt _ (by decide)
  have hmem := walk_mem (entryAddress_spec _).1 hlt he
  refine .of_entries (fun j hj => update_of_ne ?_ _ _) fun j hj hpj => ?_
  · rintro rfl
    rw [pageAlignDown_tableEntry ht (hj.trans_le hn)] at hmem
    exact (h.1 _ hv hp).2 hmem
  by_cases hij : j = v / 512 ^ (l + 1) % 512
  · subst hij
    exact ih (h.1 _ hv hp).1 (entryAddress_spec _).1 le_rfl hlt he
  refine .of_agree (entryAddress_spec _).1 le_rfl fun a ha => update_of_ne ?_ _ _
  rintro rfl
  exact absurd rfl ((h.2 _ hv _ hj (Ne.symm hij) hp hpj).ne_of_mem hmem ha)

/-- **A write** to the entry of a page changes the value of this page only. -/
theorem leaf_update (hn : n ≤ 512) (hv : v / 512 ^ l % 512 < n) (he : walk w l t v = some e)
    (x : BitVec 64) (hv' : v' / 512 ^ l % 512 < n) :
    leaf (update w e x) l t v' =
      if v' % 512 ^ (l + 1) = v % 512 ^ (l + 1) then x else leaf w l t v' := by
  rw [leaf, (h.sameShape_update ht hn hv he x).walk v' hv']
  by_cases hd : v' % 512 ^ (l + 1) = v % 512 ^ (l + 1)
  · rw [if_pos hd, walk_congr_digits hd, he]
    exact update_self ..
  rw [if_neg hd, leaf]
  split
  · next e' he' =>
    refine update_of_ne ?_ _ _
    rintro rfl
    exact hd (h.walk_inj ht hv' hv he' he)
  rfl

end

end Apart

end PageTable

end Stanix
