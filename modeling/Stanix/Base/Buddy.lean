import Stanix.Base.Radix
import Mathlib.Algebra.BigOperators.Group.Finset.Sigma
import Mathlib.Algebra.Order.Ring.Nat
import Mathlib.Data.Fintype.Basic

/-!
# Buddy systems

Memory is cut in blocks of `2 ^ o` pages that start at a multiple of `2 ^ o`, the order `o` ranging
below a bound. Two blocks of order `o` are buddies when together they are a block of order `o + 1`. A
buddy system keeps its free memory as free lists, one for each order; here a family of them, one for
each value of an index type. `FreeLists` carries what makes such lists a set of disjoint blocks, and
`erase` and `push` are the updates that keep it. The two operations are `Taken`, a block taken off
the lists after a number of splits, and `Merged`, a block coming back that has swallowed a number of
buddies.
-/

namespace Stanix.Buddy

open List Radix

variable {o o' p q r : Nat}

/-! ## Blocks -/

/-- The pages `p` and `q` lie in the same block of order `o`. -/
def InBlock (o p q : Nat) : Prop := q / 2 ^ o = p / 2 ^ o
  deriving Decidable

theorem InBlock.refl (o p : Nat) : InBlock o p p := rfl

theorem InBlock.symm (h : InBlock o p q) : InBlock o q p := Eq.symm h

theorem InBlock.trans (h : InBlock o p q) (h' : InBlock o q r) : InBlock o p r := Eq.trans h' h

/-- Pages in one block are in one block of any larger order. -/
theorem InBlock.mono (h : InBlock o p q) (ho : o ≤ o') : InBlock o' p q := by
  obtain ⟨d, rfl⟩ := Nat.exists_eq_add_of_le ho
  unfold InBlock
  rw [div_pow_add, div_pow_add, show q / 2 ^ o = p / 2 ^ o from h]

/-- The pages of a block, by its first one. -/
theorem inBlock_iff (hp : p % 2 ^ o = 0) : InBlock o p q ↔ p ≤ q ∧ q < p + 2 ^ o := by
  have hmul : p / 2 ^ o * 2 ^ o = p := Nat.div_mul_cancel (Nat.dvd_of_mod_eq_zero hp)
  rw [InBlock, Radix.div_eq_iff (by decide), add_mul, one_mul, hmul]

/-- A block has one first page. -/
theorem InBlock.eq (h : InBlock o p q) (hp : p % 2 ^ o = 0) (hq : q % 2 ^ o = 0) : q = p := by
  rw [← Nat.div_add_mod q (2 ^ o), hq, show q / 2 ^ o = p / 2 ^ o from h, ← hp, Nat.div_add_mod]

/-- The first page of a block starts a block of any smaller order. -/
theorem mod_of_le (hp : p % 2 ^ o = 0) (ho : o' ≤ o) : p % 2 ^ o' = 0 :=
  Nat.mod_eq_zero_of_dvd ((pow_dvd_pow 2 ho).trans (Nat.dvd_of_mod_eq_zero hp))

@[simp] theorem inBlock_zero : InBlock 0 p q ↔ q = p := by
  simp [InBlock]

/-! ## Buddies -/

/-- The buddy of the block of order `o` at `p`. -/
def buddy (o p : Nat) : Nat := p ^^^ 2 ^ o

/-- The number of the buddy among the blocks of its order. -/
theorem buddy_div (o p : Nat) : buddy o p / 2 ^ o = p / 2 ^ o ^^^ 1 := by
  rw [buddy, Nat.xor_div_two_pow, Nat.div_self (Nat.two_pow_pos o)]

/-- The buddy of a block starts at a block too. -/
theorem buddy_mod (hp : p % 2 ^ o = 0) : buddy o p % 2 ^ o = 0 := by
  rw [buddy, Nat.xor_mod_two_pow, hp, Nat.mod_self, Nat.xor_self]

@[simp] theorem buddy_buddy (o p : Nat) : buddy o (buddy o p) = p :=
  Nat.xor_xor_cancel_right p (2 ^ o)

/-- One of two buddies has an even number, and the other one the next. -/
theorem buddy_div_cases (o p : Nat) : ∃ k, p / 2 ^ o = 2 * k ∧ buddy o p / 2 ^ o = 2 * k + 1 ∨
    p / 2 ^ o = 2 * k + 1 ∧ buddy o p / 2 ^ o = 2 * k := by
  rw [buddy_div]
  rcases Nat.even_or_odd' (p / 2 ^ o) with ⟨k, h | h⟩
  · exact ⟨k, .inl ⟨h, by rw [h, Nat.xor_one_of_even (even_two_mul k)]⟩⟩
  exact ⟨k, .inr ⟨h, by rw [h, Nat.xor_one_of_odd (odd_two_mul_add_one k), Nat.add_sub_cancel]⟩⟩

/-- A block and its buddy are apart. -/
theorem not_inBlock_buddy : ¬ InBlock o p (buddy o p) := by
  obtain ⟨k, h⟩ := buddy_div_cases o p
  unfold InBlock
  omega

theorem buddy_ne (o p : Nat) : buddy o p ≠ p := fun h => by
  have := not_inBlock_buddy (o := o) (p := p)
  rw [h] at this
  exact this rfl

/-- A block and its buddy are the two halves of one block. -/
theorem inBlock_succ_iff : InBlock (o + 1) p q ↔ InBlock o p q ∨ InBlock o (buddy o p) q := by
  obtain ⟨k, h⟩ := buddy_div_cases o p
  rw [InBlock, InBlock, InBlock, div_pow_succ, div_pow_succ]
  omega

theorem inBlock_buddy : InBlock (o + 1) p (buddy o p) :=
  inBlock_succ_iff.2 (.inr rfl)

/-- Two buddies merged start at the lower one. -/
theorem min_buddy_mod (hp : p % 2 ^ o = 0) : min p (buddy o p) % 2 ^ (o + 1) = 0 := by
  have hp' := Nat.div_mul_cancel (Nat.dvd_of_mod_eq_zero hp)
  have hb' := Nat.div_mul_cancel (Nat.dvd_of_mod_eq_zero (buddy_mod hp))
  obtain ⟨k, h⟩ := buddy_div_cases o p
  have hmin : min p (buddy o p) = 2 * k * 2 ^ o := by
    rcases h with ⟨h1, h2⟩ | ⟨h1, h2⟩ <;> rw [h1] at hp' <;> rw [h2] at hb'
    · rw [Nat.succ_mul] at hb'
      omega
    rw [Nat.succ_mul] at hp'
    omega
  rw [hmin, Nat.mul_right_comm, ← pow_succ']
  exact Nat.mul_mod_right ..

/-- Two buddies merged are the block around either. -/
theorem inBlock_min_buddy : InBlock (o + 1) (min p (buddy o p)) q ↔ InBlock (o + 1) p q := by
  rcases min_choice p (buddy o p) with h | h
  · rw [h]
  rw [h]
  exact ⟨fun hq => inBlock_buddy.trans hq, fun hq => inBlock_buddy.symm.trans hq⟩

/-- The upper half of a block is the buddy of the lower one. -/
theorem buddy_of_mod (hp : p % 2 ^ (o + 1) = 0) : buddy o p = p + 2 ^ o := by
  have hp' := mod_of_le hp (Nat.le_succ o)
  have heven : Even (p / 2 ^ o) := by
    rw [Nat.even_iff, ← Nat.mod_mul_right_div_self, ← pow_succ, hp, Nat.zero_div]
  have hb := Nat.div_add_mod (buddy o p) (2 ^ o)
  rw [buddy_mod hp', add_zero, buddy_div, Nat.xor_one_of_even heven, mul_add, mul_one] at hb
  rw [← hb, Nat.mul_div_cancel' (Nat.dvd_of_mod_eq_zero hp')]

/-- The buddy of the block of order `o` around a page. -/
def buddyAt (o p : Nat) : Nat := buddy o (p / 2 ^ o * 2 ^ o)

theorem buddyAt_of_mod (hp : p % 2 ^ o = 0) : buddyAt o p = buddy o p := by
  rw [buddyAt, Nat.div_mul_cancel (Nat.dvd_of_mod_eq_zero hp)]

theorem InBlock.buddyAt_eq (h : InBlock o p q) : buddyAt o q = buddyAt o p := by
  rw [buddyAt, buddyAt, show q / 2 ^ o = p / 2 ^ o from h]

/-- The block around a page and its buddy are the two halves of the next larger block around it. -/
theorem inBlock_succ_iff_at : InBlock (o + 1) p q ↔ InBlock o p q ∨ InBlock o (buddyAt o p) q := by
  have hp : InBlock o p (p / 2 ^ o * 2 ^ o) := Nat.mul_div_cancel _ (Nat.two_pow_pos o)
  have h := inBlock_succ_iff (o := o) (p := p / 2 ^ o * 2 ^ o) (q := q)
  constructor
  · intro hq
    refine (h.1 ((hp.mono (Nat.le_succ o)).symm.trans hq)).imp_left hp.trans
  intro hq
  exact (hp.mono (Nat.le_succ o)).trans (h.2 (hq.imp_left hp.symm.trans))

/-! ## Free lists -/

variable {ι : Type} {N : Nat} {z z' : ι}

/-- Free lists: for every index, and for every order below `N`, the first pages of free blocks. No
page is in two of them. -/
structure FreeLists (ι : Type) (N : Nat) where
  heads : ι → Nat → List Nat
  nodup : ∀ z o, (heads z o).Nodup
  order_lt : ∀ {z o p}, p ∈ heads z o → o < N
  aligned : ∀ {z o p}, p ∈ heads z o → p % 2 ^ o = 0
  disjoint : ∀ {z z' o o' p p' q}, p ∈ heads z o → p' ∈ heads z' o' → InBlock o p q →
    InBlock o' p' q → z = z' ∧ o = o' ∧ p = p'

namespace FreeLists

variable {F : FreeLists ι N}

/-- The page `q` is in a free block. -/
def Covers (F : FreeLists ι N) (q : Nat) : Prop := ∃ z o p, p ∈ F.heads z o ∧ InBlock o p q

/-- No two free blocks below the last order are buddies. -/
def Coalesced (F : FreeLists ι N) : Prop :=
  ∀ z z' o p, o + 1 < N → p ∈ F.heads z o → buddy o p ∉ F.heads z' o

/-- Every page of the free blocks of an index has that index. -/
def Within (F : FreeLists ι N) (zone : Nat → ι) : Prop :=
  ∀ z o p q, p ∈ F.heads z o → InBlock o p q → zone q = z

/-- The number of free pages, by the lengths of the lists. -/
def size [Fintype ι] (F : FreeLists ι N) : Nat :=
  ∑ z, ∑ o ∈ Finset.range N, 2 ^ o * (F.heads z o).length

/-- No free memory. -/
def empty (ι : Type) (N : Nat) : FreeLists ι N where
  heads _ _ := []
  nodup _ _ := nodup_nil
  order_lt h := absurd h not_mem_nil
  aligned h := absurd h not_mem_nil
  disjoint h := absurd h not_mem_nil

theorem not_covers_empty : ¬ (empty ι N).Covers q := fun ⟨_, _, _, h, _⟩ => absurd h not_mem_nil

/-- The first page of a free block is free. -/
theorem covers_of_mem (h : p ∈ F.heads z o) : F.Covers p := ⟨z, o, p, h, rfl⟩

variable [DecidableEq ι]

/-- One list of a family replaced. -/
def setHeads (heads : ι → Nat → List Nat) (z : ι) (o : Nat) (xs : List Nat) : ι → Nat → List Nat :=
  Function.update heads z (Function.update (heads z) o xs)

theorem setHeads_apply (heads : ι → Nat → List Nat) (z : ι) (o : Nat) (xs : List Nat) (z' : ι)
    (o' : Nat) : setHeads heads z o xs z' o' = if z' = z ∧ o' = o then xs else heads z' o' := by
  unfold setHeads
  by_cases hz : z' = z
  · subst hz
    by_cases ho : o' = o
    · subst ho
      simp
    simp [ho]
  simp [hz]

/-- Membership in a family with one list replaced. -/
theorem mem_setHeads {heads : ι → Nat → List Nat} {xs : List Nat} :
    p ∈ setHeads heads z o xs z' o' ↔
      (z' = z ∧ o' = o ∧ p ∈ xs) ∨ (¬ (z' = z ∧ o' = o) ∧ p ∈ heads z' o') := by
  rw [setHeads_apply]
  by_cases h : z' = z ∧ o' = o
  · simp [h]
  simp [h]
  tauto

/-- A block taken off its list. -/
def erase (F : FreeLists ι N) (z : ι) (o p : Nat) : FreeLists ι N :=
  have hsub {z' o' p'} (h : p' ∈ setHeads F.heads z o ((F.heads z o).erase p) z' o') :
      p' ∈ F.heads z' o' := by
    rcases mem_setHeads.1 h with ⟨rfl, rfl, h⟩ | ⟨-, h⟩
    · exact mem_of_mem_erase h
    · exact h
  { heads := setHeads F.heads z o ((F.heads z o).erase p)
    nodup := fun z' o' => by
      rw [setHeads_apply]
      split
      · exact (F.nodup z o).erase p
      · exact F.nodup z' o'
    order_lt := fun h => F.order_lt (hsub h)
    aligned := fun h => F.aligned (hsub h)
    disjoint := fun h h' => F.disjoint (hsub h) (hsub h') }

theorem mem_erase {p' : Nat} : p' ∈ (F.erase z o p).heads z' o' ↔
    p' ∈ F.heads z' o' ∧ ¬ (z' = z ∧ o' = o ∧ p' = p) := by
  show p' ∈ setHeads F.heads z o ((F.heads z o).erase p) z' o' ↔ _
  rw [mem_setHeads, (F.nodup z o).mem_erase_iff]
  constructor
  · grind
  grind

/-- What is free after a block was taken off its list. -/
theorem covers_erase (hp : p ∈ F.heads z o) :
    (F.erase z o p).Covers q ↔ F.Covers q ∧ ¬ InBlock o p q := by
  constructor
  · rintro ⟨z', o', p', h, hq⟩
    obtain ⟨h, hne⟩ := mem_erase.1 h
    exact ⟨⟨z', o', p', h, hq⟩, fun hq' => hne (F.disjoint h hp hq hq')⟩
  rintro ⟨⟨z', o', p', h, hq⟩, hq'⟩
  refine ⟨z', o', p', mem_erase.2 ⟨h, ?_⟩, hq⟩
  rintro ⟨rfl, rfl, rfl⟩
  exact hq' hq

/-- A block put at the end of a list. -/
def push (F : FreeLists ι N) (z : ι) (o p : Nat) (ho : o < N) (hp : p % 2 ^ o = 0)
    (hfree : ∀ {q}, InBlock o p q → ¬ F.Covers q) : FreeLists ι N :=
  have hmem {z' o' p'} (h : p' ∈ setHeads F.heads z o (F.heads z o ++ [p]) z' o') :
      (z' = z ∧ o' = o ∧ p' = p) ∨ p' ∈ F.heads z' o' := by
    rcases mem_setHeads.1 h with ⟨rfl, rfl, h⟩ | ⟨-, h⟩
    · grind
    · exact .inr h
  { heads := setHeads F.heads z o (F.heads z o ++ [p])
    nodup := fun z' o' => by
      rw [setHeads_apply]
      split
      · refine nodup_append.2 ⟨F.nodup z o, nodup_singleton p, fun a ha b hb hab => ?_⟩
        rw [hab, mem_singleton.1 hb] at ha
        exact hfree rfl (covers_of_mem ha)
      · exact F.nodup z' o'
    order_lt := fun h => by
      rcases hmem h with ⟨-, rfl, -⟩ | h
      · exact ho
      · exact F.order_lt h
    aligned := fun h => by
      rcases hmem h with ⟨-, rfl, rfl⟩ | h
      · exact hp
      · exact F.aligned h
    disjoint := fun h h' hq hq' => by
      rcases hmem h with ⟨hz, ho, hp⟩ | hold
      · rcases hmem h' with ⟨hz', ho', hp'⟩ | hold'
        · exact ⟨hz.trans hz'.symm, ho.trans ho'.symm, hp.trans hp'.symm⟩
        · exact absurd ⟨_, _, _, hold', hq'⟩ (hfree (ho ▸ hp ▸ hq))
      · rcases hmem h' with ⟨hz', ho', hp'⟩ | hold'
        · exact absurd ⟨_, _, _, hold, hq⟩ (hfree (ho' ▸ hp' ▸ hq'))
        · exact F.disjoint hold hold' hq hq' }

variable {ho : o < N} {hp : p % 2 ^ o = 0} {hfree : ∀ {q}, InBlock o p q → ¬ F.Covers q}
  {zone : Nat → ι}

theorem mem_push {p' : Nat} : p' ∈ (F.push z o p ho hp hfree).heads z' o' ↔
    p' ∈ F.heads z' o' ∨ (z' = z ∧ o' = o ∧ p' = p) := by
  show p' ∈ setHeads F.heads z o (F.heads z o ++ [p]) z' o' ↔ _
  rw [mem_setHeads, mem_append]
  by_cases hzo : z' = z ∧ o' = o
  · obtain ⟨rfl, rfl⟩ := hzo
    simp
  tauto

/-- What is free after a block was put on a list. -/
theorem covers_push : (F.push z o p ho hp hfree).Covers q ↔ F.Covers q ∨ InBlock o p q := by
  constructor
  · rintro ⟨z', o', p', h, hq⟩
    rcases mem_push.1 h with h | ⟨rfl, rfl, rfl⟩
    · exact .inl ⟨z', o', p', h, hq⟩
    exact .inr hq
  rintro (⟨z', o', p', h, hq⟩ | hq)
  · exact ⟨z', o', p', mem_push.2 (.inl h), hq⟩
  exact ⟨z, o, p, mem_push.2 (.inr ⟨rfl, rfl, rfl⟩), hq⟩

/-! ### Sizes -/

section Size

variable [Fintype ι]

/-- A sum over the lists changes by what changes at one list. -/
theorem sum_setHeads (heads : ι → Nat → List Nat) (z : ι) (ho : o < N) (xs : List Nat) :
    (∑ z', ∑ o' ∈ Finset.range N, 2 ^ o' * (setHeads heads z o xs z' o').length) +
        2 ^ o * (heads z o).length =
      (∑ z', ∑ o' ∈ Finset.range N, 2 ^ o' * (heads z' o').length) + 2 ^ o * xs.length := by
  have hmem : (z, o) ∈ Finset.univ ×ˢ Finset.range N := by simp [ho]
  rw [← Finset.sum_product', ← Finset.sum_product', ← Finset.add_sum_erase _ _ hmem,
    ← Finset.add_sum_erase (Finset.univ ×ˢ Finset.range N)
      (fun x : ι × Nat => 2 ^ x.2 * (heads x.1 x.2).length) hmem]
  have hrest : ∑ x ∈ (Finset.univ ×ˢ Finset.range N).erase (z, o),
        2 ^ x.2 * (setHeads heads z o xs x.1 x.2).length =
      ∑ x ∈ (Finset.univ ×ˢ Finset.range N).erase (z, o), 2 ^ x.2 * (heads x.1 x.2).length := by
    refine Finset.sum_congr rfl fun x hx => ?_
    rw [setHeads_apply, if_neg fun h => (Finset.mem_erase.1 hx).1 (Prod.ext h.1 h.2)]
  rw [setHeads_apply, if_pos ⟨rfl, rfl⟩]
  dsimp only
  omega

theorem size_erase (hp : p ∈ F.heads z o) : (F.erase z o p).size + 2 ^ o = F.size := by
  have h := sum_setHeads F.heads z (F.order_lt hp) ((F.heads z o).erase p)
  have hpos := length_pos_of_mem hp
  have hlen := length_erase_of_mem hp
  have hmul : 2 ^ o * (F.heads z o).length = 2 ^ o * ((F.heads z o).erase p).length + 2 ^ o := by
    rw [hlen, ← Nat.mul_succ, Nat.succ_eq_add_one, Nat.sub_add_cancel hpos]
  unfold size
  show (∑ z', ∑ o' ∈ Finset.range N,
    2 ^ o' * (setHeads F.heads z o ((F.heads z o).erase p) z' o').length) + 2 ^ o = _
  omega

theorem size_push : (F.push z o p ho hp hfree).size = F.size + 2 ^ o := by
  have h := sum_setHeads F.heads z ho (F.heads z o ++ [p])
  rw [length_append, length_singleton, mul_add] at h
  unfold size
  show (∑ z', ∑ o' ∈ Finset.range N,
    2 ^ o' * (setHeads F.heads z o (F.heads z o ++ [p]) z' o').length) = _
  omega

end Size

/-! ### Buddies and zones -/

theorem Coalesced.erase (h : F.Coalesced) (z : ι) (o p : Nat) : (F.erase z o p).Coalesced :=
  fun _ _ _ _ ho hp hb => h _ _ _ _ ho (mem_erase.1 hp).1 (mem_erase.1 hb).1

/-- A block whose buddy is not free keeps the lists coalesced. -/
theorem Coalesced.push (h : F.Coalesced) (hb : o + 1 < N → ∀ z', buddy o p ∉ F.heads z' o) :
    (F.push z o p ho hp hfree).Coalesced := by
  intro z1 z2 o' p' ho' hp' hb'
  rcases mem_push.1 hp' with hold | ⟨-, rfl, rfl⟩
  · rcases mem_push.1 hb' with hold' | ⟨-, rfl, hself⟩
    · exact h _ _ _ _ ho' hold hold'
    rw [← hself, buddy_buddy] at hb
    exact hb ho' z1 hold
  rcases mem_push.1 hb' with hold' | ⟨-, -, hself⟩
  · exact hb ho' z2 hold'
  exact buddy_ne _ _ hself

theorem Within.erase (h : F.Within zone) (z : ι) (o p : Nat) : (F.erase z o p).Within zone :=
  fun _ _ _ _ hp hq => h _ _ _ _ (mem_erase.1 hp).1 hq

theorem Within.push (h : F.Within zone) (hz : ∀ {q}, InBlock o p q → zone q = z) :
    (F.push z o p ho hp hfree).Within zone := by
  intro z' o' p' q hp' hq
  rcases mem_push.1 hp' with hold | ⟨rfl, rfl, rfl⟩
  · exact h _ _ _ _ hold hq
  exact hz hq

variable {G : FreeLists ι N}

omit [DecidableEq ι] in
/-- A block that is free in coalesced lists is inside of one block on them. -/
theorem Coalesced.exists_block (h : F.Coalesced) (ho : o < N)
    (hcovers : ∀ q, InBlock o p q → F.Covers q) :
    ∃ z o' p', p' ∈ F.heads z o' ∧ o ≤ o' ∧ InBlock o' p' p := by
  induction o generalizing p with
  | zero =>
    obtain ⟨z, o', p', hp', hin⟩ := hcovers p rfl
    exact ⟨z, o', p', hp', Nat.zero_le o', hin⟩
  | succ o ih => ?_
  obtain ⟨z₁, o₁, p₁, h₁, hle₁, hin₁⟩ := ih (p := p) (Nat.lt_of_succ_lt ho) fun q hq =>
    hcovers q (hq.mono (Nat.le_succ o))
  rcases hle₁.lt_or_eq with hlt | rfl
  · exact ⟨z₁, o₁, p₁, h₁, hlt, hin₁⟩
  -- the half around `p` is a block on the lists, so the other half is part of a larger one
  have hpage : InBlock (o + 1) p p₁ := hin₁.symm.mono (Nat.le_succ o)
  obtain ⟨z₂, o₂, p₂, h₂, hle₂, hin₂⟩ := ih (p := buddy o p₁) (Nat.lt_of_succ_lt ho) fun q hq =>
    hcovers q (hpage.trans (inBlock_succ_iff.2 (.inr hq)))
  rcases hle₂.lt_or_eq with hlt | rfl
  · exact ⟨z₂, o₂, p₂, h₂, hlt, hin₂.trans ((hpage.trans inBlock_buddy).symm.mono hlt)⟩
  rw [← hin₂.eq (F.aligned h₂) (buddy_mod (F.aligned h₁))] at h₂
  exact absurd h₂ (h z₁ z₂ o p₁ ho h₁)

omit [DecidableEq ι] in
/-- **Coalesced lists are determined by the free pages.** -/
theorem Coalesced.mem_of_covers {zone : Nat → ι} (hF : F.Coalesced) (hG : G.Coalesced)
    (hFz : F.Within zone) (hGz : G.Within zone) (hcovers : ∀ q, F.Covers q ↔ G.Covers q)
    (hp : p ∈ F.heads z o) : p ∈ G.heads z o := by
  obtain ⟨z₁, o₁, p₁, h₁, hle₁, hin₁⟩ := hG.exists_block (F.order_lt hp) fun q hq =>
    (hcovers q).1 ⟨z, o, p, hp, hq⟩
  obtain ⟨z₂, o₂, p₂, h₂, hle₂, hin₂⟩ := hF.exists_block (G.order_lt h₁) fun q hq =>
    (hcovers q).2 ⟨z₁, o₁, p₁, h₁, hq⟩
  obtain ⟨rfl, rfl, rfl⟩ := F.disjoint hp h₂ rfl (hin₂.trans (hin₁.mono hle₂))
  obtain rfl := hle₁.antisymm hle₂
  rw [← hGz _ _ _ _ h₁ hin₁, hFz _ _ _ _ hp rfl] at h₁
  rwa [hin₁.eq (G.aligned h₁) (F.aligned hp)]

end FreeLists

/-! ## Taking and merging -/

section Operations

open FreeLists

variable [DecidableEq ι] [Fintype ι] {F F' : FreeLists ι N} {p' : Nat}

/-- `F'` is what is left of `F` after the block of order `o` at `p` was taken from the lists of `z`,
perhaps as a part of a larger one. -/
structure Taken (z : ι) (F F' : FreeLists ι N) (o p : Nat) : Prop where
  order_lt : o < N
  aligned : p % 2 ^ o = 0
  apart : ∀ {q}, InBlock o p q → ¬ F'.Covers q
  covers : ∀ {q}, F.Covers q ↔ F'.Covers q ∨ InBlock o p q
  size : F'.size + 2 ^ o = F.size
  coalesced : F.Coalesced → F'.Coalesced
  within : ∀ {zone}, F.Within zone → F'.Within zone
  zone : ∀ {zone}, F.Within zone → ∀ {q}, InBlock o p q → zone q = z

/-- A block of a list is taken. -/
theorem Taken.of_mem (hp : p ∈ F.heads z o) : Taken z F (F.erase z o p) o p where
  order_lt := F.order_lt hp
  aligned := F.aligned hp
  apart hq h := ((covers_erase hp).1 h).2 hq
  covers := by
    intro q
    rw [covers_erase hp]
    constructor
    · grind
    rintro (h | h)
    · exact h.1
    exact ⟨z, o, p, hp, h⟩
  size := size_erase hp
  coalesced h := h.erase z o p
  within h := h.erase z o p
  zone h _ hq := h _ _ _ _ hp hq

section

variable (h : Taken z F F' (o + 1) p)

include h

omit [DecidableEq ι] in
/-- The upper half of a taken block is not free. -/
theorem Taken.apart_half (hq : InBlock o (p + 2 ^ o) q) : ¬ F'.Covers q := by
  rw [← buddy_of_mod h.aligned] at hq
  exact h.apart (inBlock_succ_iff.2 (.inr hq))

omit [DecidableEq ι] in
/-- The upper half of a taken block starts at a block. -/
theorem Taken.aligned_half : (p + 2 ^ o) % 2 ^ o = 0 := by
  rw [Nat.add_mod_right]
  exact mod_of_le h.aligned (Nat.le_succ o)

/-- A taken block is split, and its upper half is put back. -/
theorem Taken.split :
    Taken z F (F'.push z o (p + 2 ^ o) (Nat.lt_of_succ_lt h.order_lt) h.aligned_half h.apart_half)
      o p where
  order_lt := Nat.lt_of_succ_lt h.order_lt
  aligned := mod_of_le h.aligned (Nat.le_succ o)
  apart := by
    intro q hq hcov
    rcases covers_push.1 hcov with hcov | hq'
    · exact h.apart (inBlock_succ_iff.2 (.inl hq)) hcov
    rw [← buddy_of_mod h.aligned] at hq'
    exact not_inBlock_buddy (hq.trans hq'.symm)
  covers := by
    intro q
    rw [h.covers, covers_push, inBlock_succ_iff, buddy_of_mod h.aligned]
    tauto
  size := by
    have := h.size
    rw [size_push]
    omega
  coalesced hF := by
    refine (h.coalesced hF).push fun _ z' hb => ?_
    rw [← buddy_of_mod h.aligned, buddy_buddy] at hb
    exact h.apart rfl (covers_of_mem hb)
  within hF := by
    refine (h.within hF).push fun hq => h.zone hF ?_
    rw [← buddy_of_mod h.aligned] at hq
    exact inBlock_succ_iff.2 (.inr hq)
  zone hF _ hq := h.zone hF (inBlock_succ_iff.2 (.inl hq))

end

/-- The block of order `o` at `p`, which is not free in `F`, has grown to that of order `o'` at `p'`
by merging free buddies of the lists of `z`; `F'` is what is left free. -/
structure Merged (z : ι) (F : FreeLists ι N) (o p : Nat) (F' : FreeLists ι N) (o' p' : Nat) :
    Prop where
  order_lt : o' < N
  aligned : p' % 2 ^ o' = 0
  apart : ∀ {q}, InBlock o' p' q → ¬ F'.Covers q
  covers : ∀ {q}, F'.Covers q ∨ InBlock o' p' q ↔ F.Covers q ∨ InBlock o p q
  size : F'.size + 2 ^ o' = F.size + 2 ^ o
  coalesced : F.Coalesced → F'.Coalesced
  within : ∀ {zone}, F.Within zone → F'.Within zone
  zone : ∀ {zone}, F.Within zone → (∀ {q}, InBlock o p q → zone q = z) →
    ∀ {q}, InBlock o' p' q → zone q = z

omit [DecidableEq ι] in
/-- A block that has not merged. -/
theorem Merged.refl (z : ι) (ho : o < N) (hp : p % 2 ^ o = 0)
    (hfree : ∀ {q}, InBlock o p q → ¬ F.Covers q) : Merged z F o p F o p where
  order_lt := ho
  aligned := hp
  apart := hfree
  covers := Iff.rfl
  size := rfl
  coalesced := id
  within := id
  zone _ h := h

/-- A block merges with its free buddy first. -/
theorem Merged.step (hb : buddy o p ∈ F.heads z o)
    (h : Merged z (F.erase z o (buddy o p)) (o + 1) (min p (buddy o p)) F' o' p') :
    Merged z F o p F' o' p' where
  order_lt := h.order_lt
  aligned := h.aligned
  apart := h.apart
  covers := by
    intro q
    rw [h.covers, covers_erase hb, inBlock_min_buddy, inBlock_succ_iff]
    have hcov : InBlock o (buddy o p) q → F.Covers q := fun hq => ⟨z, o, _, hb, hq⟩
    tauto
  size := by
    have h1 := h.size
    have h2 := size_erase hb
    omega
  coalesced hF := h.coalesced (hF.erase z o _)
  within hF := h.within (hF.erase z o _)
  zone hF hz _ hq := by
    refine h.zone (hF.erase z o _) (fun hq => ?_) hq
    rcases inBlock_succ_iff.1 (inBlock_min_buddy.1 hq) with hq | hq
    · exact hz hq
    exact hF _ _ _ _ hb hq

/-- `F'` is `F` with the block of order `o` at `p` freed into the lists of `z`. -/
structure Freed (z : ι) (F F' : FreeLists ι N) (o p : Nat) : Prop where
  covers : ∀ {q}, F'.Covers q ↔ F.Covers q ∨ InBlock o p q
  size : F'.size = F.size + 2 ^ o
  within : ∀ {zone}, F.Within zone → (∀ {q}, InBlock o p q → zone q = z) → F'.Within zone

/-- A block that has merged is put on its list. -/
theorem Merged.push (h : Merged z F o p F' o' p') :
    Freed z F (F'.push z o' p' h.order_lt h.aligned h.apart) o p where
  covers := by
    intro q
    rw [covers_push, h.covers]
  size := by
    rw [size_push, h.size]
  within hF hz := (h.within hF).push (h.zone hF hz)

end Operations

end Stanix.Buddy
