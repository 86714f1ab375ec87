import Mathlib.Data.List.Nodup

/-!
# Chains in a table of successors

A table gives each element the one that follows it. `Path next a l b` says that the table leads from
`a` through the elements of `l` to `b`, and `Links next stop a l` that `l` is the whole chain from `a`
to the mark `stop`. A chain is determined by its start, so it has no circles; a change of the table
away from a chain leaves it, and a change of the entry of its last element extends or cuts it.
-/

namespace Stanix.Chain

variable {α : Type _} {next next' : α → α} {a b c stop : α} {l l' m : List α}

/-- The table leads from `a` through `l` to `b`. -/
def Path (next : α → α) : α → List α → α → Prop
  | a, [], b => a = b
  | a, c :: l, b => a = c ∧ Path next (next c) l b

/-- The whole chain from `a` to the mark `stop`. -/
structure Links (next : α → α) (stop a : α) (l : List α) : Prop where
  path : Path next a l stop
  stop : stop ∉ l

/-- Paths are put together. -/
theorem path_append : Path next a (l ++ m) b ↔ ∃ x, Path next a l x ∧ Path next x m b := by
  induction l generalizing a with
  | nil => simp [Path]
  | cons c l ih => ?_
  simp only [List.cons_append, Path, ih]
  constructor
  · rintro ⟨rfl, x, hl, hm⟩
    exact ⟨x, ⟨rfl, hl⟩, hm⟩
  rintro ⟨x, ⟨rfl, hl⟩, hm⟩
  exact ⟨rfl, x, hl, hm⟩

/-- A path depends on the entries of its own elements. -/
theorem Path.congr (h : Path next a l b) (hnext : ∀ c ∈ l, next' c = next c) :
    Path next' a l b := by
  induction l generalizing a with
  | nil => exact h
  | cons c l ih =>
    refine ⟨h.1, ?_⟩
    rw [hnext c List.mem_cons_self]
    exact ih h.2 fun d hd => hnext d (List.mem_cons_of_mem c hd)

theorem Links.congr (h : Links next stop a l) (hnext : ∀ c ∈ l, next' c = next c) :
    Links next' stop a l :=
  ⟨h.path.congr hnext, h.stop⟩

/-- The chain from the mark is empty, and the chain from another element begins with it. -/
theorem Links.cons_iff : Links next stop a (c :: l) ↔ a = c ∧ c ≠ stop ∧ Links next stop (next c) l := by
  constructor
  · rintro ⟨⟨rfl, hpath⟩, hstop⟩
    rw [List.mem_cons, not_or] at hstop
    exact ⟨rfl, fun h => hstop.1 h.symm, hpath, hstop.2⟩
  rintro ⟨rfl, hne, hpath, hstop⟩
  exact ⟨⟨rfl, hpath⟩, List.not_mem_cons_of_ne_of_not_mem (Ne.symm hne) hstop⟩

/-- A chain is determined by its start. -/
theorem Links.unique (h : Links next stop a l) (h' : Links next stop a l') : l = l' := by
  induction l generalizing a l' with
  | nil =>
    cases l' with
    | nil => rfl
    | cons c l' =>
      obtain ⟨rfl, hne, -⟩ := Links.cons_iff.1 h'
      exact absurd h.path hne
  | cons c l ih => ?_
  obtain ⟨rfl, hne, hrest⟩ := Links.cons_iff.1 h
  cases l' with
  | nil => exact absurd h'.path hne
  | cons c' l' =>
    obtain ⟨rfl, -, hrest'⟩ := Links.cons_iff.1 h'
    rw [ih hrest hrest']

/-- What follows an element of a chain is its chain. -/
theorem Links.drop (h : Links next stop a (l ++ c :: m)) : Links next stop c (c :: m) := by
  obtain ⟨x, -, hx, hm⟩ := path_append.1 h.path
  exact ⟨⟨rfl, hm⟩, fun hmem => h.stop (List.mem_append_right l hmem)⟩

/-- **No circles.** The elements of a chain are distinct. -/
theorem Links.nodup (h : Links next stop a l) : l.Nodup := by
  induction l generalizing a with
  | nil => exact List.nodup_nil
  | cons c l ih => ?_
  obtain ⟨rfl, -, hrest⟩ := Links.cons_iff.1 h
  refine List.nodup_cons.2 ⟨fun hmem => ?_, ih hrest⟩
  -- the chain of a second occurrence would be a proper part of itself
  obtain ⟨s, t, rfl⟩ := List.append_of_mem hmem
  have hsame := (hrest.drop).unique h
  have := congrArg List.length hsame
  simp at this
  omega

section Update

variable [DecidableEq α]

/-- The entry of an element away from a path does not matter. -/
theorem Path.update (h : Path next a l b) (hc : c ∉ l) (v : α) :
    Path (Function.update next c v) a l b :=
  h.congr fun _ hd => Function.update_of_ne (ne_of_mem_of_not_mem hd hc) ..

/-- **The last entry is changed.** The chain ends where the new chain begins. -/
theorem Path.redirect (h : Path next a (l ++ [c]) b) (hc : c ∉ l) (v : α) :
    Path (Function.update next c v) a (l ++ [c]) v := by
  obtain ⟨x, hl, hx, -⟩ := path_append.1 h
  exact path_append.2 ⟨x, hl.update hc v, hx, Function.update_self ..⟩

end Update

end Stanix.Chain
