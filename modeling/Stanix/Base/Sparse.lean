import Stanix.Base.Exec
import Mathlib.Data.List.AList

/-!
# Sparse arrays

An array with gaps is a finite map from indices to values. `firstFrom` is its entry with the least
index from a given one on, and `foreachFrom` the loop that goes from entry to entry that way, looking
at the array anew each time, so that its body may change the array. `foreachFrom_spec` says what a
finished loop has done.
-/

namespace Stanix

open List Option

/-- A finite map from indices to values. -/
abbrev Sparse (α : Type) := AList fun _ : Nat => α

namespace Sparse

variable {α : Type}

/-- The entry with the least index that is at least `n`. -/
def firstFrom (m : Sparse α) (n : Nat) : Option (Nat × α) :=
  (m.keys.filter (n ≤ ·)).min?.bind fun i => (m.lookup i).map (i, ·)

variable {m : Sparse α} {n i : Nat} {a : α}

theorem mem_keys_iff : i ∈ m.keys ↔ ∃ a, m.lookup i = some a := by
  rw [← isSome_iff_exists, AList.lookup_isSome, AList.mem_keys]

/-- The first entry is an entry, and there is none before it. -/
theorem firstFrom_eq_some : m.firstFrom n = some (i, a) ↔
    n ≤ i ∧ m.lookup i = some a ∧ ∀ j, n ≤ j → j < i → m.lookup j = none := by
  simp only [firstFrom, bind_eq_some_iff, min?_eq_some_iff, mem_filter,
    mem_keys_iff, decide_eq_true_eq, map_eq_some_iff, Prod.mk.injEq]
  constructor
  · rintro ⟨i', ⟨⟨-, hn⟩, hmin⟩, b, hb, rfl, rfl⟩
    refine ⟨hn, hb, fun j hj hlt => eq_none_iff_forall_ne_some.2 fun c hc => ?_⟩
    have := hmin j ⟨⟨c, hc⟩, hj⟩
    omega
  grind

/-- There is no first entry when there is no entry. -/
theorem firstFrom_eq_none : m.firstFrom n = none ↔ ∀ j, n ≤ j → m.lookup j = none := by
  constructor
  · intro h j hj
    refine eq_none_iff_forall_ne_some.2 fun c hc => ?_
    rw [firstFrom, bind_eq_none_iff] at h
    have hmem : j ∈ m.keys.filter (n ≤ ·) :=
      mem_filter.2 ⟨mem_keys_iff.2 ⟨c, hc⟩, decide_eq_true hj⟩
    cases hmin : (m.keys.filter (n ≤ ·)).min? with
    | none =>
      rw [min?_eq_none_iff.1 hmin] at hmem
      cases hmem
    | some k =>
      obtain ⟨b, hb⟩ := mem_keys_iff.1 (mem_filter.1 (min?_eq_some_iff.1 hmin).1).1
      have := h k hmin
      rw [hb] at this
      cases this
  intro h
  refine eq_none_iff_forall_ne_some.2 ?_
  rintro ⟨i, a⟩ hi
  obtain ⟨hn, ha, -⟩ := firstFrom_eq_some.1 hi
  rw [h i hn] at ha
  cases ha

/-! ## The loop over the entries -/

variable {σ ρ : Type} (view : σ → Sparse α) (more : Nat → Bool)
  (body : Nat → α → σ → Exec (σ × Option ρ))

/-- The loop over the entries from the index `n` on, as long as the index of the next one satisfies
`more`. Its body may leave the loop with a value. -/
def foreachFrom : Nat → Nat → σ → Exec (σ × Option ρ)
  | 0, _, _ => .error .fuel
  | fuel + 1, n, s =>
    match (view s).firstFrom n with
    | none => .ok (s, none)
    | some (i, a) =>
      if more i then do
        let r ← body i a s
        match r.2 with
        | some x => .ok (r.1, some x)
        | none => foreachFrom fuel (i + 1) r.1
      else .ok (s, none)

variable {view more body} {J : Nat → σ → Prop} {s s' : σ} {r : Option ρ} {fuel : Nat}

/-- **A finished loop.** What holds from position to position holds where the loop has come to, and
no entry is left there; or the body has left the loop. -/
theorem foreachFrom_spec {Q : ρ → σ → Prop}
    (hnext : ∀ n i a s s', J n s → (view s).firstFrom n = some (i, a) → more i = true →
      body i a s = .ok (s', none) → J (i + 1) s')
    (hexit : ∀ n i a s s' x, J n s → (view s).firstFrom n = some (i, a) → more i = true →
      body i a s = .ok (s', some x) → Q x s')
    (h : J n s) (hrun : foreachFrom view more body fuel n s = .ok (s', r)) :
    (r = none ∧ ∃ k, n ≤ k ∧ J k s' ∧
      ∀ i a, (view s').firstFrom k = some (i, a) → more i = false) ∨
    ∃ x, r = some x ∧ Q x s' := by
  induction fuel generalizing n s with
  | zero => cases hrun
  | succ fuel ih => ?_
  unfold foreachFrom at hrun
  cases hfirst : (view s).firstFrom n with
  | none =>
    rw [hfirst] at hrun
    cases hrun
    refine .inl ⟨rfl, n, le_rfl, h, fun i a hi => ?_⟩
    rw [hfirst] at hi
    cases hi
  | some e => ?_
  obtain ⟨i, a⟩ := e
  rw [hfirst] at hrun
  dsimp only at hrun
  split at hrun
  · next hmore =>
    obtain ⟨⟨s1, x⟩, hbody, hrest⟩ := Exec.bind_eq_ok.1 hrun
    cases x with
    | some x =>
      cases hrest
      exact .inr ⟨x, rfl, hexit n i a s s1 x h hfirst hmore hbody⟩
    | none =>
      rcases ih (hnext n i a s s1 h hfirst hmore hbody) hrest with ⟨hr, k, hk, hJ⟩ | hx
      · have := (firstFrom_eq_some.1 hfirst).1
        exact .inl ⟨hr, k, by omega, hJ⟩
      exact .inr hx
  next hmore =>
  cases hrun
  refine .inl ⟨rfl, n, le_rfl, h, fun j b hj => ?_⟩
  rw [hfirst] at hj
  cases hj
  simpa using hmore

end Sparse

end Stanix
