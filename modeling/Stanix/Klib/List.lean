import Stanix.Base.Dll

/-!
# The kernel's linked list

A model of `kernel/klib/list.c`: the list header `list_t`, whose nodes `list_node_t` live inside the
objects that are on the list. Nodes are named by an address of an arbitrary type, and the memory that
holds their links is an explicit argument, shared by all lists. The functions do not check what they
are given, as in the source: `listRemove` follows whatever links it finds in the node. What they do
to a list is said by `ListHead.Rep` and the lemmas on it.

The spin lock of a list is left out: every list modelled here is used under the lock of its owner.
-/

namespace Stanix

open List Function

/-- The links of an object on a list. Source: `list_node_t` (`list.h`). -/
abbrev ListNode (α : Type _) := Links α

/-- A list. Source: `list_t` (`list.h`). -/
structure ListHead (α : Type _) where
  firstNode : Option α := none
  lastNode : Option α := none
  nodeCount : BitVec 64 := 0
  deriving DecidableEq

variable {α : Type _} [DecidableEq α]

/-- Source: `list_append` (`list.c`). -/
def listAppend (mem : α → ListNode α) (list : ListHead α) (node : α) :
    (α → ListNode α) × ListHead α :=
  let mem := update mem node { next := none, prev := list.lastNode }
  let (mem, list) :=
    match list.lastNode with
    | some last => (update mem last { mem last with next := some node }, list)
    | none => (mem, { list with firstNode := some node })
  (mem, { list with lastNode := some node, nodeCount := list.nodeCount + 1 })

/-- Source: `list_prepend` (`list.c`). -/
def listPrepend (mem : α → ListNode α) (list : ListHead α) (node : α) :
    (α → ListNode α) × ListHead α :=
  let mem := update mem node { next := list.firstNode, prev := none }
  let (mem, list) :=
    match list.firstNode with
    | some first => (update mem first { mem first with prev := some node }, list)
    | none => (mem, { list with lastNode := some node })
  (mem, { list with firstNode := some node, nodeCount := list.nodeCount + 1 })

/-- Source: `list_add_after` (`list.c`). -/
def listAddAfter (mem : α → ListNode α) (list : ListHead α) (ref : Option α) (node : α) :
    (α → ListNode α) × ListHead α :=
  match ref with
  | none => listPrepend mem list node
  | some ref =>
    let mem := update mem node { next := (mem ref).next, prev := some ref }
    let (mem, list) :=
      match (mem ref).next with
      | some next => (update mem next { mem next with prev := some node }, list)
      | none => (mem, { list with lastNode := some node })
    (update mem ref { mem ref with next := some node },
      { list with nodeCount := list.nodeCount + 1 })

/-- Source: `list_remove` (`list.c`). -/
def listRemove (mem : α → ListNode α) (list : ListHead α) (node : α) :
    (α → ListNode α) × ListHead α :=
  let (mem, list) :=
    match (mem node).prev with
    | some prev => (update mem prev { mem prev with next := (mem node).next }, list)
    | none => (mem, { list with firstNode := (mem node).next })
  let (mem, list) :=
    match (mem node).next with
    | some next => (update mem next { mem next with prev := (mem node).prev }, list)
    | none => (mem, { list with lastNode := (mem node).prev })
  (mem, { list with nodeCount := list.nodeCount - 1 })

section Updates

variable (mem : α → ListNode α) (list : ListHead α) {node : α}

/-- What appending writes, at every address. -/
theorem listAppend_mem (h : list.lastNode ≠ some node) (x : α) :
    (listAppend mem list node).1 x =
      if x = node then ⟨none, list.lastNode⟩
      else if list.lastNode = some x then ⟨some node, (mem x).prev⟩ else mem x := by
  cases hlast : list.lastNode with
  | none => by_cases hx : x = node <;> simp [listAppend, hlast, hx]
  | some last =>
    have hne : last ≠ node := fun h' => h (h' ▸ hlast)
    by_cases hx : x = last
    · simp [listAppend, hlast, hx, hne]
    by_cases hx' : x = node <;> simp [listAppend, hlast, hx, hx', hne.symm, Ne.symm hx]

@[simp] theorem listAppend_firstNode :
    (listAppend mem list node).2.firstNode =
      if list.lastNode = none then some node else list.firstNode := by
  cases hlast : list.lastNode <;> simp [listAppend, hlast]

/-- What prepending writes, at every address. -/
theorem listPrepend_mem (h : list.firstNode ≠ some node) (x : α) :
    (listPrepend mem list node).1 x =
      if x = node then ⟨list.firstNode, none⟩
      else if list.firstNode = some x then ⟨(mem x).next, some node⟩ else mem x := by
  cases hfirst : list.firstNode with
  | none => by_cases hx : x = node <;> simp [listPrepend, hfirst, hx]
  | some first =>
    have hne : first ≠ node := fun h' => h (h' ▸ hfirst)
    by_cases hx : x = first
    · simp [listPrepend, hfirst, hx, hne]
    by_cases hx' : x = node <;> simp [listPrepend, hfirst, hx, hx', hne.symm, Ne.symm hx]

@[simp] theorem listPrepend_lastNode :
    (listPrepend mem list node).2.lastNode =
      if list.firstNode = none then some node else list.lastNode := by
  cases hfirst : list.firstNode <;> simp [listPrepend, hfirst]

/-- What removing writes, at every address. -/
theorem listRemove_mem (h : (mem node).prev ≠ some node) (x : α) :
    (listRemove mem list node).1 x =
      ⟨if (mem node).prev = some x then (mem node).next else (mem x).next,
        if (mem node).next = some x then (mem node).prev else (mem x).prev⟩ := by
  cases hprev : (mem node).prev with
  | none =>
    cases hnext : (mem node).next with
    | none => simp [listRemove, hprev, hnext]
    | some next =>
      by_cases hx : next = x
      · simp [listRemove, hprev, hnext, ← hx]
      simp [listRemove, hprev, hnext, hx, Ne.symm hx]
  | some prev => ?_
  have hne : node ≠ prev := fun h' => h (h' ▸ hprev)
  cases hnext : (mem node).next with
  | none =>
    by_cases hx : prev = x
    · simp [listRemove, hprev, hnext, hne, ← hx]
    simp [listRemove, hprev, hnext, hne, hx, Ne.symm hx]
  | some next => ?_
  by_cases hx : next = x
  · subst hx
    by_cases hx' : prev = next
    · subst hx'
      simp [listRemove, hprev, hnext, hne]
    simp [listRemove, hprev, hnext, hne, hx', Ne.symm hx']
  by_cases hx' : prev = x
  · subst hx'
    simp [listRemove, hprev, hnext, hne, hx, Ne.symm hx]
  simp [listRemove, hprev, hnext, hne, hx, hx', Ne.symm hx, Ne.symm hx']

theorem listRemove_firstNode :
    (listRemove mem list node).2.firstNode =
      if (mem node).prev = none then (mem node).next else list.firstNode := by
  cases hprev : (mem node).prev <;> simp only [listRemove, hprev] <;> split <;> rfl

theorem listRemove_lastNode (h : (mem node).prev ≠ some node) :
    (listRemove mem list node).2.lastNode =
      if (mem node).next = none then (mem node).prev else list.lastNode := by
  cases hprev : (mem node).prev with
  | none => cases hnext : (mem node).next <;> simp [listRemove, hprev, hnext]
  | some prev =>
    have hne : node ≠ prev := fun h' => h (h' ▸ hprev)
    cases hnext : (mem node).next <;> simp [listRemove, hprev, hnext, hne]

end Updates

namespace ListHead

variable {mem : α → ListNode α} {list : ListHead α} {node x : α} {xs : List α}

/-- The nodes on a list, in order. -/
def Rep (mem : α → ListNode α) (list : ListHead α) (xs : List α) : Prop :=
  Dll.Rep mem list.firstNode list.lastNode xs

/-- A node is on a list: next pointers lead to it from the first one. -/
def On (mem : α → ListNode α) (list : ListHead α) (node : α) : Prop :=
  ∃ n, Dll.nth mem list.firstNode n = some node

section

variable (h : list.Rep mem xs)

include h

omit [DecidableEq α] in
theorem Rep.on_iff : list.On mem node ↔ node ∈ xs := h.mem_iff.symm

omit [DecidableEq α] in
/-- The last node is on the list. -/
theorem Rep.mem_of_lastNode (hx : list.lastNode = some x) : x ∈ xs := by
  rw [h.last_eq] at hx
  exact mem_of_getLast? hx

/-! ## Appending -/

/-- A node that is appended comes last. -/
theorem Rep.append (hnode : node ∉ xs) :
    (listAppend mem list node).2.Rep (listAppend mem list node).1 (xs ++ [node]) := by
  have hlast : list.lastNode ≠ some node := fun hl => hnode (h.mem_of_lastNode hl)
  have hne : ∀ {y}, y ∈ xs → y ≠ node := fun hy hyx => hnode (hyx ▸ hy)
  have hfirst : (listAppend mem list node).2.firstNode = (xs ++ [node]).head? := by
    rw [listAppend_firstNode, h.first_eq, h.last_eq]
    cases xs <;> simp
  unfold Rep
  rw [hfirst]
  refine Dll.Rep.append h hnode ?_ ?_ ?_
  · rw [listAppend_mem mem list hlast, if_pos rfl]
  · intro b hb
    rw [listAppend_mem mem list hlast, if_neg (hne (h.mem_of_lastNode hb)), if_pos hb]
  intro y hy hyl
  rw [listAppend_mem mem list hlast, if_neg (hne hy), if_neg hyl]

/-- Appending a node to a list leaves alone what is neither on the list nor the node. -/
theorem Rep.append_frame (hnode : node ∉ xs) (hx : x ∉ xs) (hne : x ≠ node) :
    (listAppend mem list node).1 x = mem x := by
  rw [listAppend_mem mem list fun hl => hnode (h.mem_of_lastNode hl), if_neg hne,
    if_neg fun hl => hx (h.mem_of_lastNode hl)]

/-! ## Prepending -/

omit [DecidableEq α] in
/-- The first node is on the list. -/
theorem Rep.mem_of_firstNode (hx : list.firstNode = some x) : x ∈ xs := by
  rw [h.first_eq] at hx
  exact mem_of_mem_head? hx

/-- A node that is prepended comes first. -/
theorem Rep.prepend (hnode : node ∉ xs) :
    (listPrepend mem list node).2.Rep (listPrepend mem list node).1 (node :: xs) := by
  have hfirst : list.firstNode ≠ some node := fun hf => hnode (h.mem_of_firstNode hf)
  have hne : ∀ {y}, y ∈ xs → y ≠ node := fun hy hyx => hnode (hyx ▸ hy)
  have hlast : (listPrepend mem list node).2.lastNode = (node :: xs).getLast? := by
    rw [listPrepend_lastNode, h.first_eq, h.last_eq]
    cases xs <;> simp
  unfold Rep
  rw [hlast]
  refine Dll.Rep.prepend h hnode ?_ ?_ ?_
  · rw [listPrepend_mem mem list hfirst, if_pos rfl]
  · intro b hb
    rw [listPrepend_mem mem list hfirst, if_neg (hne (h.mem_of_firstNode hb)), if_pos hb]
  intro y hy hyf
  rw [listPrepend_mem mem list hfirst, if_neg (hne hy), if_neg hyf]

/-- Prepending a node to a list leaves alone what is neither on the list nor the node. -/
theorem Rep.prepend_frame (hnode : node ∉ xs) (hx : x ∉ xs) (hne : x ≠ node) :
    (listPrepend mem list node).1 x = mem x := by
  rw [listPrepend_mem mem list fun hf => hnode (h.mem_of_firstNode hf), if_neg hne,
    if_neg fun hf => hx (h.mem_of_firstNode hf)]

end

/-! ## Removing -/

omit [DecidableEq α] in
/-- The neighbours of a node are on the list, and differ from it. -/
theorem Rep.neighbours {l r : List α} (h : list.Rep mem (l ++ node :: r)) :
    (mem node).prev = l.getLast? ∧ (mem node).next = r.head? ∧ node ∉ l ∧ node ∉ r := by
  have hnd := nodup_append.1 h.nodup
  exact ⟨h.prev_eq rfl, h.next_eq rfl, fun hl => hnd.2.2 node hl node (by simp) rfl,
    (nodup_cons.1 hnd.2.1).1⟩

/-- Removing a node that is on the list takes it out. -/
theorem Rep.remove (h : list.Rep mem xs) (hnode : node ∈ xs) :
    (listRemove mem list node).2.Rep (listRemove mem list node).1 (xs.erase node) := by
  obtain ⟨l, r, rfl⟩ := append_of_mem hnode
  obtain ⟨hprev, hnext, hnl, hnr⟩ := h.neighbours
  have hlr : ∀ y ∈ l, y ∉ r := fun y hy hyr =>
    (nodup_append.1 h.nodup).2.2 y hy y (by simp [hyr]) rfl
  have hp : (mem node).prev ≠ some node := fun hp => hnl (mem_of_getLast? (hprev ▸ hp))
  have hfirst : (listRemove mem list node).2.firstNode = (l ++ r).head? := by
    rw [listRemove_firstNode, hprev, hnext, h.first_eq]
    cases l <;> simp
  have hlast : (listRemove mem list node).2.lastNode = (l ++ r).getLast? := by
    rw [listRemove_lastNode mem list hp, hprev, hnext, h.last_eq]
    cases r with
    | nil => simp
    | cons c r =>
      rw [List.head?_cons, if_neg (Option.some_ne_none c),
        List.getLast?_append_of_ne_nil _ (cons_ne_nil _ _),
        List.getLast?_append_of_ne_nil _ (cons_ne_nil _ _), List.getLast?_cons_cons]
  rw [erase_append_right _ hnl, erase_cons_head]
  unfold Rep
  rw [hfirst, hlast]
  refine Dll.Rep.remove h ?_ ?_ ?_
  · intro b hb
    have hb' : r.head? ≠ some b := fun hr => hlr b (mem_of_getLast? hb) (mem_of_mem_head? hr)
    rw [listRemove_mem mem list hp, hprev, hnext, if_pos hb, if_neg hb']
  · intro c hc
    have hc' : l.getLast? ≠ some c := fun hl => hlr c (mem_of_getLast? hl) (mem_of_mem_head? hc)
    rw [listRemove_mem mem list hp, hprev, hnext, if_pos hc, if_neg hc']
  intro y _ hyl hyr
  rw [listRemove_mem mem list hp, hprev, hnext, if_neg hyl, if_neg hyr]

/-- Removing a node from the list it is on leaves alone what is not on that list. -/
theorem Rep.remove_frame (h : list.Rep mem xs) (hnode : node ∈ xs) (hx : x ∉ xs) :
    (listRemove mem list node).1 x = mem x := by
  obtain ⟨l, r, rfl⟩ := append_of_mem hnode
  obtain ⟨hprev, hnext, hnl, hnr⟩ := h.neighbours
  rw [listRemove_mem mem list fun hp => hnl (mem_of_getLast? (hprev ▸ hp)), hprev, hnext,
    if_neg fun hl => hx (by simp [mem_of_getLast? hl]),
    if_neg fun hr => hx (by simp [mem_of_mem_head? hr])]

end ListHead

end Stanix
