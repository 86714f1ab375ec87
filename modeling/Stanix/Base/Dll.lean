import Mathlib.Data.List.Nodup

/-!
# Intrusive linked lists

A doubly linked list that threads its links through the memory of its own elements: every address has
a next and a previous pointer, and the list itself is the address of its first and of its last node.
`Dll.Rep` says which list of addresses such a pair represents, through every way to split it in two
around a node. Several lists may share one memory as long as their nodes differ (`Dll.Rep.congr`).
`Dll.Rep.append`, `Dll.Rep.prepend` and `Dll.Rep.remove` are the updates, stated by what a memory
must satisfy after them. `Sll.Rep` is the same for lists with next pointers only.
-/

namespace Stanix

open List

/-- The links of a node. -/
@[ext]
structure Links (α : Type _) where
  next : Option α
  prev : Option α
  deriving DecidableEq

namespace Dll

variable {α : Type _} {mem mem' : α → Links α} {first last : Option α} {xs ys l r : List α} {a : α}

/-- The node reached after `n` next pointers. -/
def nth (mem : α → Links α) : Option α → Nat → Option α
  | p, 0 => p
  | none, _ + 1 => none
  | some a, n + 1 => nth mem (mem a).next n

@[simp] theorem nth_none (mem : α → Links α) (n : Nat) : nth mem none n = none := by
  cases n <;> rfl

/-- In a list without repetition, a node with another one behind it is not the last. -/
theorem getLast?_ne {b d : α} (h : (l ++ b :: d :: r).Nodup) :
    (l ++ b :: d :: r).getLast? ≠ some b := by
  intro hb
  rw [List.getLast?_append_of_ne_nil _ (cons_ne_nil _ _)] at hb
  rw [nodup_append, nodup_cons] at h
  exact h.2.1.1 (mem_of_getLast? hb)

/-- The nodes from `first` to `last` are those of `xs`, linked in both directions. -/
structure Rep (mem : α → Links α) (first last : Option α) (xs : List α) : Prop where
  nodup : xs.Nodup
  first_eq : first = xs.head?
  last_eq : last = xs.getLast?
  prev_eq : ∀ {l a r}, xs = l ++ a :: r → (mem a).prev = l.getLast?
  next_eq : ∀ {l a r}, xs = l ++ a :: r → (mem a).next = r.head?

namespace Rep

/-- The list without nodes. -/
theorem nil (mem : α → Links α) : Rep mem none none [] := by
  refine ⟨nodup_nil, rfl, rfl, fun h => ?_, fun h => ?_⟩ <;>
    exact absurd h.symm (append_ne_nil_of_right_ne_nil _ (cons_ne_nil _ _))

section

variable (h : Rep mem first last xs)
include h

/-- A list only depends on the links of its own nodes. -/
theorem congr (heq : ∀ x ∈ xs, mem' x = mem x) : Rep mem' first last xs := by
  refine ⟨h.nodup, h.first_eq, h.last_eq, fun {l a r} hxs => ?_, fun {l a r} hxs => ?_⟩
  · rw [heq a (by simp [hxs]), h.prev_eq hxs]
  rw [heq a (by simp [hxs]), h.next_eq hxs]

/-- Following next pointers from a node inside the list. -/
theorem nth_drop {l r : List α} (hxs : xs = l ++ r) (n : Nat) : nth mem r.head? n = r[n]? := by
  induction n generalizing l r with
  | zero => cases r <;> rfl
  | succ n ih => ?_
  cases r with
  | nil => simp
  | cons a r =>
    rw [List.head?_cons, nth, h.next_eq hxs]
    exact ih (l := l ++ [a]) (by simp [hxs])

/-- Following `n` next pointers from the first node gives the element at `n`. -/
theorem nth_eq (n : Nat) : nth mem first n = xs[n]? := by
  rw [h.first_eq]
  exact h.nth_drop (l := []) rfl n

/-- The memory determines the list. -/
theorem unique (h' : Rep mem first last ys) : xs = ys := by
  apply ext_getElem?
  intro n
  rw [← h.nth_eq, h'.nth_eq]

/-- The nodes of the list are those that next pointers reach. -/
theorem mem_iff : a ∈ xs ↔ ∃ n, nth mem first n = some a := by
  simp only [h.nth_eq, mem_iff_getElem?]

/-- The length of the list, by where its next pointers end. -/
theorem length_eq {n : Nat} (hend : nth mem first n = none)
    (hnode : ∀ m < n, nth mem first m ≠ none) : xs.length = n := by
  rw [h.nth_eq, List.getElem?_eq_none_iff] at hend
  refine Nat.le_antisymm hend (Nat.le_of_not_lt fun hlt => hnode xs.length hlt ?_)
  rw [h.nth_eq]
  exact List.getElem?_eq_none (Nat.le_refl _)

/-- A node put behind the last one. -/
theorem append (ha : a ∉ xs) (hnew : mem' a = ⟨none, last⟩)
    (hlast : ∀ b, last = some b → mem' b = ⟨some a, (mem b).prev⟩)
    (hrest : ∀ x ∈ xs, last ≠ some x → mem' x = mem x) :
    Rep mem' (xs ++ [a]).head? (some a) (xs ++ [a]) := by
  have hlinks : ∀ {l b r}, xs ++ [a] = l ++ b :: r → mem' b = ⟨r.head?, l.getLast?⟩ := by
    intro l b r hxs
    rcases eq_nil_or_concat r with rfl | ⟨r', c, rfl⟩
    · -- the new node
      obtain ⟨rfl, hb⟩ := append_inj' hxs rfl
      cases hb
      rw [hnew, h.last_eq]
      rfl
    rw [concat_eq_append, ← cons_append, ← append_assoc] at hxs
    obtain ⟨hxs', hc⟩ := append_inj' hxs rfl
    cases hc
    rw [concat_eq_append]
    cases r' with
    | nil =>
      -- the node that was last before
      have hb : last = some b := by rw [h.last_eq, hxs']; simp
      rw [hlast b hb, h.prev_eq hxs']
      rfl
    | cons d r' => ?_
    have hb : last ≠ some b := by
      rw [h.last_eq, hxs']
      exact getLast?_ne (hxs' ▸ h.nodup)
    rw [hrest b (by simp [hxs']) hb, Links.ext_iff, h.prev_eq hxs', h.next_eq hxs']
    exact ⟨rfl, rfl⟩
  refine ⟨?_, rfl, by simp, fun hxs => by rw [hlinks hxs], fun hxs => by rw [hlinks hxs]⟩
  exact nodup_append.2 ⟨h.nodup, nodup_singleton a, fun x hx y hy => by
    rw [mem_singleton.1 hy]
    exact fun hxa => ha (hxa ▸ hx)⟩

/-- The list read from its other end. -/
theorem reverse : Rep (fun x => ⟨(mem x).prev, (mem x).next⟩) last first xs.reverse := by
  have hsplit : ∀ {l a r}, xs.reverse = l ++ a :: r → xs = r.reverse ++ a :: l.reverse := by
    intro l a r hxs
    rw [← reverse_reverse xs, hxs]
    simp
  refine ⟨nodup_reverse.2 h.nodup, ?_, ?_, fun {l a r} hxs => ?_, fun {l a r} hxs => ?_⟩
  · rw [h.last_eq, List.head?_reverse]
  · rw [h.first_eq, List.getLast?_reverse]
  · show (mem a).next = _
    rw [h.next_eq (hsplit hxs), List.head?_reverse]
  show (mem a).prev = _
  rw [h.prev_eq (hsplit hxs), List.getLast?_reverse]

/-- A node put in front of the first one. -/
theorem prepend (ha : a ∉ xs) (hnew : mem' a = ⟨first, none⟩)
    (hfirst : ∀ b, first = some b → mem' b = ⟨(mem b).next, some a⟩)
    (hrest : ∀ x ∈ xs, first ≠ some x → mem' x = mem x) :
    Rep mem' (some a) (a :: xs).getLast? (a :: xs) := by
  have happ : Rep (fun x => ⟨(mem' x).prev, (mem' x).next⟩) (xs.reverse ++ [a]).head? (some a)
      (xs.reverse ++ [a]) := h.reverse.append
    (fun hx => ha (mem_reverse.1 hx)) (by rw [hnew])
    (fun b hb => by rw [hfirst b hb])
    (fun x hx hne => by rw [hrest x (mem_reverse.1 hx) hne])
  have hrev := happ.reverse
  rwa [List.head?_eq_getLast?_reverse, reverse_append, reverse_reverse] at hrev

end

/-- A node taken out of the list: its neighbours are linked to each other. -/
theorem remove (h : Rep mem first last (l ++ a :: r))
    (hprev : ∀ b, l.getLast? = some b → mem' b = ⟨r.head?, (mem b).prev⟩)
    (hnext : ∀ c, r.head? = some c → mem' c = ⟨(mem c).next, l.getLast?⟩)
    (hrest : ∀ x ∈ l ++ r, l.getLast? ≠ some x → r.head? ≠ some x → mem' x = mem x) :
    Rep mem' (l ++ r).head? (l ++ r).getLast? (l ++ r) := by
  have hnd := h.nodup
  rw [nodup_append, nodup_cons] at hnd
  obtain ⟨hl, ⟨-, hr⟩, hlr⟩ := hnd
  have hne : ∀ x ∈ l, x ∉ r := fun x hx hxr => hlr x hx x (mem_cons_of_mem a hxr) rfl
  have hlinks : ∀ {l' b r'}, l ++ r = l' ++ b :: r' → mem' b = ⟨r'.head?, l'.getLast?⟩ := by
    intro l' b r' hxs
    rcases append_eq_append_iff.1 hxs with ⟨m, rfl, rfl⟩ | ⟨m, rfl, hm⟩
    · -- the node comes after the removed one
      have hbl : l.getLast? ≠ some b := fun hb => hne b (mem_of_getLast? hb) (by simp)
      have hsplit : l ++ a :: (m ++ b :: r') = (l ++ a :: m) ++ b :: r' := by simp
      cases m with
      | nil =>
        rw [hnext b rfl, h.next_eq hsplit, append_nil]
      | cons d m => ?_
      have hbr : (d :: m ++ b :: r').head? ≠ some b := by grind
      rw [hrest b (by simp) hbl hbr, Links.ext_iff, h.prev_eq hsplit, h.next_eq hsplit]
      refine ⟨rfl, ?_⟩
      rw [List.getLast?_append_of_ne_nil _ (cons_ne_nil _ _), List.getLast?_cons_cons,
        List.getLast?_append_of_ne_nil _ (cons_ne_nil _ _)]
    cases m with
    | nil =>
      -- the split is at the removed node, the node after it is the next one
      rw [nil_append] at hm
      subst hm
      have hsplit : l' ++ [] ++ a :: b :: r' = (l' ++ [a]) ++ b :: r' := by simp
      rw [hnext b rfl, h.next_eq hsplit, append_nil]
    | cons d m => ?_
    rw [cons_append, List.cons.injEq] at hm
    obtain ⟨rfl, rfl⟩ := hm
    have hbr : r.head? ≠ some b := by
      intro hb
      exact hne b (by simp) (mem_of_mem_head? hb)
    have hsplit : l' ++ b :: m ++ a :: r = l' ++ b :: (m ++ a :: r) := by simp
    cases m with
    | nil =>
      rw [hprev b (by simp), h.prev_eq hsplit, nil_append]
    | cons d m =>
      rw [hrest b (by simp) (getLast?_ne hl) hbr, Links.ext_iff, h.prev_eq hsplit, h.next_eq hsplit]
      exact ⟨rfl, rfl⟩
  refine ⟨?_, rfl, rfl, fun hxs => by rw [hlinks hxs], fun hxs => by rw [hlinks hxs]⟩
  exact nodup_append.2 ⟨hl, hr, fun x hx y hy hxy => hne x hx (hxy ▸ hy)⟩

end Rep

end Dll

namespace Sll

variable {α : Type _} {next next' : α → Option α} {first : Option α} {xs ys : List α} {a : α}

/-- The nodes that next pointers lead through from `first` are those of `xs`. -/
def Rep (next : α → Option α) : Option α → List α → Prop
  | first, [] => first = none
  | first, a :: xs => first = some a ∧ Rep next (next a) xs

/-- A list only depends on the links of its own nodes. -/
theorem Rep.congr (h : Rep next first xs) (heq : ∀ x ∈ xs, next' x = next x) :
    Rep next' first xs := by
  induction xs generalizing first with
  | nil => exact h
  | cons a xs ih =>
    refine ⟨h.1, ih ?_ fun x hx => heq x (mem_cons_of_mem a hx)⟩
    rw [heq a mem_cons_self]
    exact h.2

/-- A list whose nodes are given by their position. -/
theorem Rep.of_range {g : Nat → α} {n : Nat} (hn : 0 < n)
    (h : ∀ i < n, next (g i) = if i + 1 = n then none else some (g (i + 1))) :
    Rep next (some (g 0)) ((List.range n).map g) := by
  induction n generalizing g with
  | zero => exact absurd hn (Nat.lt_irrefl 0)
  | succ n ih => ?_
  rw [range_succ_eq_map, map_cons, map_map]
  refine ⟨rfl, ?_⟩
  rw [h 0 hn]
  cases n with
  | zero => exact rfl
  | succ n =>
    refine ih (g := g ∘ Nat.succ) (Nat.succ_pos n) fun i hi => ?_
    show next (g (i + 1)) = _
    rw [h (i + 1) (Nat.succ_lt_succ hi)]
    simp

/-- The list that a missing node starts is empty. -/
theorem Rep.eq_nil_iff (h : Rep next first xs) : xs = [] ↔ first = none := by
  cases xs with
  | nil => exact ⟨fun _ => h, fun _ => rfl⟩
  | cons a xs => simp [h.1]

end Sll

end Stanix
