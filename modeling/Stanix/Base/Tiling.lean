import Mathlib.Data.List.Chain

/-!
# Regions tiled by pieces with headers

A region of memory cut into pieces that follow each other without gaps. Each piece has a header of
`hd` bytes, then `len` bytes of its own, and is in use or not. The header links the piece to its two
neighbours. `Tiling.Walk` says that the headers found from an address on describe a list of pieces;
what a header looks like in memory is a parameter `H` of it. `Tiling.Walk.replace` is the one rule
for all updates: some pieces in a row are replaced by others of the same total size, and only their
headers and the back link of the piece behind them change.
-/

namespace Stanix

open List

/-- A piece of a region. -/
structure Piece where
  len : Nat
  used : Bool
  deriving DecidableEq

namespace Tiling

/-- The bytes that a list of pieces takes up. -/
def extent (hd : Nat) : List Piece → Nat
  | [] => 0
  | c :: cs => hd + c.len + extent hd cs

/-- The addresses of the headers, from `p` on. -/
def addrs (hd : Nat) : Nat → List Piece → List Nat
  | _, [] => []
  | p, c :: cs => p :: addrs hd (p + (hd + c.len)) cs

/-- The address of the last header, or `prev` if there is none. -/
def lastAddr (hd : Nat) : Nat → Nat → List Piece → Nat
  | prev, _, [] => prev
  | _, p, c :: cs => lastAddr hd p (p + (hd + c.len)) cs

/-- The pieces in use, each with the address of its header and its length. -/
def usedFrom (hd : Nat) : Nat → List Piece → List (Nat × Nat)
  | _, [] => []
  | p, c :: cs => (if c.used then [(p, c.len)] else []) ++ usedFrom hd (p + (hd + c.len)) cs

/-- **The headers from `p` on describe the pieces.** `H a c next prev` says that the header at `a`
describes `c` with these links; the first piece is linked back to `prev` and the last one to
`after`. -/
def Walk (hd : Nat) (H : Nat → Piece → Nat → Nat → Prop) : Nat → Nat → List Piece → Nat → Prop
  | _, _, [], _ => True
  | prev, p, c :: cs, after =>
    H p c (if cs = [] then after else p + (hd + c.len)) prev ∧ Walk hd H p (p + (hd + c.len)) cs after

variable {hd p prev after a : Nat} {l r cs : List Piece} {c : Piece}
  {H H' : Nat → Piece → Nat → Nat → Prop} {x : Nat × Nat}

/-! ## Lists that are put together -/

@[simp] theorem extent_append : extent hd (l ++ r) = extent hd l + extent hd r := by
  induction l with
  | nil => simp [extent]
  | cons c l ih => simp only [cons_append, extent, ih]; omega

theorem addrs_append : addrs hd p (l ++ r) = addrs hd p l ++ addrs hd (p + extent hd l) r := by
  induction l generalizing p with
  | nil => simp [addrs, extent]
  | cons c l ih => simp only [cons_append, addrs, ih, extent, Nat.add_assoc]

theorem lastAddr_append :
    lastAddr hd prev p (l ++ r) = lastAddr hd (lastAddr hd prev p l) (p + extent hd l) r := by
  induction l generalizing prev p with
  | nil => simp [lastAddr, extent]
  | cons c l ih => simp only [cons_append, lastAddr, ih, extent, Nat.add_assoc]

theorem usedFrom_append :
    usedFrom hd p (l ++ r) = usedFrom hd p l ++ usedFrom hd (p + extent hd l) r := by
  induction l generalizing p with
  | nil => simp [usedFrom, extent]
  | cons c l ih => simp only [cons_append, usedFrom, ih, extent, append_assoc, Nat.add_assoc]

/-- A walk over two lists, with the link at the seam. -/
theorem walk_append : Walk hd H prev p (l ++ r) after ↔
    Walk hd H prev p l (if r = [] then after else p + extent hd l) ∧
      Walk hd H (lastAddr hd prev p l) (p + extent hd l) r after := by
  induction l generalizing prev p with
  | nil => simp [Walk, lastAddr, extent]
  | cons c l ih => ?_
  simp only [cons_append, Walk, ih, lastAddr, extent, and_assoc, append_eq_nil_iff, ← Nat.add_assoc]
  by_cases hl : l = []
  · subst hl
    simp [extent, Walk]
  simp [hl]

/-! ## Where pieces lie -/

theorem addrs_bounds (h : a ∈ addrs hd p cs) : p ≤ a ∧ a + hd ≤ p + extent hd cs := by
  induction cs generalizing p with
  | nil => exact absurd h not_mem_nil
  | cons c cs ih => ?_
  rcases mem_cons.1 h with rfl | h
  · simp only [extent]
    omega
  have := ih h
  simp only [extent]
  omega

/-- Every header belongs to a piece. -/
theorem exists_of_mem_addrs (h : a ∈ addrs hd p cs) :
    ∃ l c r, cs = l ++ c :: r ∧ a = p + extent hd l := by
  induction cs generalizing p with
  | nil => exact absurd h not_mem_nil
  | cons c cs ih =>
    rcases mem_cons.1 h with rfl | h
    · exact ⟨[], c, cs, rfl, rfl⟩
    obtain ⟨l, d, r, rfl, rfl⟩ := ih h
    exact ⟨c :: l, d, r, rfl, by simp only [extent]; omega⟩

theorem usedFrom_bounds (h : x ∈ usedFrom hd p cs) :
    p ≤ x.1 ∧ x.1 + (hd + x.2) ≤ p + extent hd cs := by
  induction cs generalizing p with
  | nil => exact absurd h not_mem_nil
  | cons c cs ih =>
    simp only [extent]
    rcases mem_append.1 h with h | h
    · grind
    have := ih h
    omega

/-- Pieces in use do not overlap. -/
theorem usedFrom_pairwise : (usedFrom hd p cs).Pairwise fun x y => x.1 + (hd + x.2) ≤ y.1 := by
  induction cs generalizing p with
  | nil => exact List.Pairwise.nil
  | cons c cs ih =>
    simp only [usedFrom]
    split
    · exact pairwise_cons.2 ⟨fun y hy => (usedFrom_bounds hy).1, ih⟩
    exact ih

/-- Two pieces in use do not overlap. -/
theorem usedFrom_apart {y : Nat × Nat} (hx : x ∈ usedFrom hd p cs) (hy : y ∈ usedFrom hd p cs)
    (hne : x ≠ y) : x.1 + (hd + x.2) ≤ y.1 ∨ y.1 + (hd + y.2) ≤ x.1 := by
  obtain ⟨i, hi, rfl⟩ := mem_iff_getElem.1 hx
  obtain ⟨j, hj, rfl⟩ := mem_iff_getElem.1 hy
  have hpair := pairwise_iff_getElem.1 (usedFrom_pairwise : (usedFrom hd p cs).Pairwise _)
  rcases lt_trichotomy i j with hij | rfl | hij
  · exact .inl (hpair i j hi hj hij)
  · exact absurd rfl hne
  exact .inr (hpair j i hj hi hij)

/-- Where a piece in use stands among the pieces. -/
theorem exists_of_mem_usedFrom (h : x ∈ usedFrom hd p cs) :
    ∃ l c r, cs = l ++ c :: r ∧ c.used = true ∧ x = (p + extent hd l, c.len) := by
  induction cs generalizing p with
  | nil => exact absurd h not_mem_nil
  | cons c cs ih => ?_
  rcases mem_append.1 h with h | h
  · split at h
    · rename_i hused
      exact ⟨[], c, cs, rfl, hused, mem_singleton.1 h⟩
    exact absurd h not_mem_nil
  obtain ⟨l, d, r, rfl, hused, rfl⟩ := ih h
  refine ⟨c :: l, d, r, rfl, hused, ?_⟩
  simp only [extent, Nat.add_assoc]

/-- A piece in use lies between two headers, its own being the first of them. -/
theorem header_apart (hx : x ∈ usedFrom hd p cs) (ha : a ∈ addrs hd p cs) :
    a + hd ≤ x.1 + hd ∨ x.1 + (hd + x.2) ≤ a := by
  induction cs generalizing p with
  | nil => exact absurd ha not_mem_nil
  | cons c cs ih => ?_
  rcases mem_cons.1 ha with rfl | ha
  · exact .inl (Nat.add_le_add_right (usedFrom_bounds hx).1 hd)
  rcases mem_append.1 hx with hx | hx
  · split at hx
    · rw [mem_singleton.1 hx]
      exact .inr (addrs_bounds ha).1
    exact absurd hx not_mem_nil
  exact ih hx ha

/-! ## Facts along a walk -/

/-- A relation between neighbouring headers. -/
theorem Walk.isChain {Q : Piece → Piece → Prop} {R : Nat → Nat → Prop}
    (h : Walk hd H prev p cs after) (hQ : cs.IsChain Q)
    (hR : ∀ a b c d n, Q c d → H a c (a + (hd + c.len)) b → H (a + (hd + c.len)) d n a →
      R a (a + (hd + c.len))) : (addrs hd p cs).IsChain R := by
  induction cs generalizing prev p with
  | nil => exact isChain_nil
  | cons c cs ih => ?_
  obtain ⟨hc, hwalk⟩ := h
  rw [isChain_cons] at hQ
  refine isChain_cons.2 ⟨fun b hb => ?_, ih hwalk hQ.2⟩
  cases cs with
  | nil => exact absurd hb (by simp [addrs])
  | cons d cs =>
    cases hb
    exact hR p prev c d _ (hQ.1 d rfl) hc hwalk.1

/-- The last header, and where its piece ends. -/
theorem Walk.last (h : Walk hd H prev p cs after) (ha : a ∈ (addrs hd p cs).getLast?) :
    ∃ c b, H a c after b ∧ a + (hd + c.len) = p + extent hd cs := by
  induction cs generalizing prev p with
  | nil => exact absurd ha (by simp [addrs])
  | cons c cs ih => ?_
  cases cs with
  | nil =>
    cases ha
    exact ⟨c, prev, h.1, rfl⟩
  | cons d cs =>
    obtain ⟨e, b, hH, heq⟩ := ih h.2 (by simpa [addrs] using ha)
    exact ⟨e, b, hH, by rw [heq]; simp only [extent]; omega⟩

/-! ## Changes to a walk -/

/-- A walk only depends on its own headers. -/
theorem Walk.congr (h : Walk hd H prev p cs after)
    (heq : ∀ a ∈ addrs hd p cs, ∀ c n b, H a c n b → H' a c n b) : Walk hd H' prev p cs after := by
  induction cs generalizing prev p with
  | nil => exact trivial
  | cons c cs ih =>
    refine ⟨heq p mem_cons_self _ _ _ h.1, ih h.2 fun a ha => ?_⟩
    exact heq a (mem_cons_of_mem p ha)

/-- A walk whose first piece is linked back to another one. -/
theorem Walk.relink {prev' : Nat} (h : Walk hd H prev p cs after)
    (hhead : cs ≠ [] → ∀ c n, H p c n prev → H' p c n prev')
    (hrest : ∀ a ∈ addrs hd p cs, a ≠ p → ∀ c n b, H a c n b → H' a c n b) (hpos : 0 < hd) :
    Walk hd H' prev' p cs after := by
  cases cs with
  | nil => exact trivial
  | cons c cs =>
    refine ⟨hhead (cons_ne_nil _ _) _ _ h.1, h.2.congr fun a ha => ?_⟩
    have hbounds := addrs_bounds ha
    exact hrest a (mem_cons_of_mem p ha) (by omega)

/-- **Some pieces in a row are replaced** by others of the same extent, or of any extent at the end
of the region. -/
theorem Walk.replace (mid mid' : List Piece) (h : Walk hd H prev p (l ++ (mid ++ r)) after)
    (hmid : mid ≠ []) (hmid' : mid' ≠ []) (hext : r ≠ [] → extent hd mid' = extent hd mid)
    (hleft : ∀ a ∈ addrs hd p l, ∀ c n b, H a c n b → H' a c n b)
    (hnew : Walk hd H' (lastAddr hd prev p l) (p + extent hd l) mid'
      (if r = [] then after else p + extent hd l + extent hd mid))
    (hhead : r ≠ [] → ∀ c n,
      H (p + extent hd l + extent hd mid) c n
        (lastAddr hd (lastAddr hd prev p l) (p + extent hd l) mid) →
      H' (p + extent hd l + extent hd mid) c n
        (lastAddr hd (lastAddr hd prev p l) (p + extent hd l) mid'))
    (hright : ∀ a ∈ addrs hd (p + extent hd l + extent hd mid) r,
      a ≠ p + extent hd l + extent hd mid → ∀ c n b, H a c n b → H' a c n b) (hpos : 0 < hd) :
    Walk hd H' prev p (l ++ (mid' ++ r)) after := by
  rw [walk_append, walk_append] at h ⊢
  obtain ⟨h1, -, h3⟩ := h
  refine ⟨?_, ?_, ?_⟩
  · rw [if_neg (append_ne_nil_of_left_ne_nil hmid r)] at h1
    rw [if_neg (append_ne_nil_of_left_ne_nil hmid' r)]
    exact h1.congr hleft
  · grind
  by_cases hr : r = []
  · subst hr
    exact trivial
  rw [hext hr]
  exact h3.relink hhead hright hpos

end Tiling

end Stanix
