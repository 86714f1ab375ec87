import Mathlib.Data.List.Nodup

/-!
# Lists of keyed nodes

A doubly linked list, seen as the list of its nodes. A node is named by a key (its address), and the
operations find their place in the list by the key, as an intrusive list does by following links. For
a node between a front and a back in which its key does not occur, the lemmas `*_at` say what the
operations do: they compute with the front and the back.
-/

namespace Stanix

open List

namespace Keyed

variable {α κ : Type _} [DecidableEq κ] (key : α → κ)

/-- The node with a key. -/
def get (k : κ) (l : List α) : Option α := l.find? fun x => key x = k

/-- The node after the one with a key. -/
def next (k : κ) : List α → Option α
  | [] => none
  | x :: rest => if key x = k then rest.head? else next k rest

/-- The node before the one with a key, where `prev` is the one before the list. -/
def prevFrom (k : κ) : Option α → List α → Option α
  | _, [] => none
  | prev, x :: rest => if key x = k then prev else prevFrom k (some x) rest

/-- The node before the one with a key. -/
def prev (k : κ) (l : List α) : Option α := prevFrom key k none l

/-- A new node after the one with a key, or in front. -/
def addAfter (k : Option κ) (new : α) (l : List α) : List α :=
  match k with
  | none => new :: l
  | some k => go k l
where
  go (k : κ) : List α → List α
    | [] => []
    | x :: rest => if key x = k then x :: new :: rest else x :: go k rest

/-- A new node before the one with a key. -/
def addBefore (k : κ) (new : α) (l : List α) : List α :=
  addAfter key ((prev key k l).map key) new l

/-- The list without the node with a key. -/
def remove (k : κ) (l : List α) : List α := l.filter fun x => key x ≠ k

/-- The list with a change to the node with a key. -/
def modify (k : κ) (f : α → α) (l : List α) : List α :=
  l.map fun x => if key x = k then f x else x

variable {key} {l r : List α} {x new : α}

section
variable (hl : key x ∉ l.map key)
include hl

theorem next_at : next key (key x) (l ++ x :: r) = r.head? := by
  induction l with
  | nil => simp [next]
  | cons y l ih =>
    simp only [map_cons, mem_cons, not_or] at hl
    rw [cons_append, next, if_neg (Ne.symm hl.1)]
    exact ih hl.2

theorem prevFrom_at (prev : Option α) :
    prevFrom key (key x) prev (l ++ x :: r) = l.getLast?.or prev := by
  induction l generalizing prev with
  | nil => simp [prevFrom]
  | cons y l ih =>
    simp only [map_cons, mem_cons, not_or] at hl
    rw [cons_append, prevFrom, if_neg (Ne.symm hl.1), ih hl.2]
    cases l with
    | nil => rfl
    | cons z l => rfl

theorem prev_at : prev key (key x) (l ++ x :: r) = l.getLast? := by
  rw [prev, prevFrom_at hl]
  cases l.getLast? <;> rfl

theorem addAfter_at : addAfter key (some (key x)) new (l ++ x :: r) = l ++ x :: new :: r := by
  show addAfter.go key new (key x) (l ++ x :: r) = _
  induction l with
  | nil => simp [addAfter.go]
  | cons y l ih =>
    simp only [map_cons, mem_cons, not_or] at hl
    rw [cons_append, addAfter.go, if_neg (Ne.symm hl.1), ih hl.2, cons_append]

end

/-- The node with a key, and its place in a list in which no key occurs twice. -/
theorem get_eq_some {k : κ} (hnodup : (l.map key).Nodup) (h : get key k l = some x) :
    ∃ front back, l = front ++ x :: back ∧ key x = k ∧ key x ∉ front.map key ∧
      key x ∉ back.map key := by
  have hk : key x = k := by simpa using List.find?_some h
  obtain ⟨front, back, rfl⟩ := append_of_mem (mem_of_find?_eq_some h)
  rw [map_append, map_cons, nodup_middle, nodup_cons, mem_append, not_or] at hnodup
  exact ⟨front, back, rfl, hk, hnodup.1⟩

/-- A new node at the end of the front, named by its last node. -/
theorem addAfter_getLast (hl : (l.map key).Nodup) :
    addAfter key (l.getLast?.map key) new (l ++ r) = l ++ new :: r := by
  rcases eq_nil_or_concat l with rfl | ⟨l, y, rfl⟩
  · rfl
  rw [concat_eq_append] at hl ⊢
  rw [List.getLast?_concat, Option.map_some, append_assoc, singleton_append, addAfter_at,
    append_assoc, singleton_append]
  simp only [map_append, map_cons, map_nil] at hl
  exact fun h => (nodup_append.1 hl).2.2 _ h _ (by simp) rfl

theorem addBefore_at (hl : (l.map key).Nodup) (hx : key x ∉ l.map key) :
    addBefore key (key x) new (l ++ x :: r) = l ++ new :: x :: r := by
  rw [addBefore, prev_at hx, addAfter_getLast hl]

section
variable (hl : key x ∉ l.map key) (hr : key x ∉ r.map key)
include hl hr

theorem remove_at : remove key (key x) (l ++ x :: r) = l ++ r := by
  have h (m : List α) (hm : key x ∉ m.map key) : m.filter (fun y => key y ≠ key x) = m := by
    rw [filter_eq_self]
    intro y hy
    simpa using fun h : key y = key x => hm (h ▸ mem_map_of_mem hy)
  rw [remove, filter_append, filter_cons_of_neg (by simp), h l hl, h r hr]

theorem modify_at (f : α → α) : modify key (key x) f (l ++ x :: r) = l ++ f x :: r := by
  have h (m : List α) (hm : key x ∉ m.map key) :
      m.map (fun y => if key y = key x then f y else y) = m := by
    refine (map_congr_left fun y hy => ?_).trans (map_id m)
    exact if_neg fun h => hm (mem_map.2 ⟨y, hy, h⟩)
  rw [modify, map_append, map_cons, if_pos rfl, h l hl, h r hr]

end

end Keyed

end Stanix
