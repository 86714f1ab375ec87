import Stanix.Klib.Avltree.Basic

/-!
# The trees `avltree.c` computes

What insertion and removal do to the shape of the tree, without the memory: `Avl.rebalance`,
`Avl.insert` and `Avl.remove` follow the branches of the code on a `BinaryTree` of nodes. The code
on memory computes these trees (`Rep.insertHelper`, `Rep.removeHelper`), so that order and balance
are read off here. `Avl.remove` answers `none` for a node it does not find and faults where the code
does.
-/

namespace Stanix.Avl

open BinaryTree List

variable {ν : Type}

/-- The tree `avltree_rebalance` leaves at a node of value `a`, after the code went down the side
`e` and left the subtree `near` there. -/
def rebalance (e : Side) (a : ν) (near far : BinaryTree ν) : BinaryTree ν :=
  if (join e a near far).balanceFactor = -2 then
    rotate .left (join e a (if near.balanceFactor > 0 then rotate .right near else near) far)
  else if (join e a near far).balanceFactor = 2 then
    rotate .right (join e a (if near.balanceFactor < 0 then rotate .left near else near) far)
  else join e a near far

/-- Whether `avltree_rebalance` takes its `default:` branch between two subtrees. -/
def offRange (near far : BinaryTree ν) : Bool :=
  near.height + 2 < far.height || far.height + 2 < near.height

variable (cmp : ν → ν → Ordering) {res : BinaryTree ν × Bool} {t : BinaryTree ν}

/-- The tree `avltree_insert` leaves. -/
def insert (x : ν) : BinaryTree ν → BinaryTree ν
  | .nil => .node x .nil .nil
  | .node a l r =>
    match cmp x a with
    | .lt => rebalance .left a (insert x l) r
    | .eq | .gt => rebalance .right a (insert x r) l

/-- Whether `avltree_insert` takes the `default:` branch of `avltree_rebalance`. -/
def insertOffRange (x : ν) : BinaryTree ν → Bool
  | .nil => false
  | .node a l r =>
    match cmp x a with
    | .lt => insertOffRange x l || offRange (insert cmp x l) r
    | .eq | .gt => insertOffRange x r || offRange (insert cmp x r) l

/-- The way back up of `avltree_remove` through a node of value `a`, from the subtree on side `e`
that a node was removed from; the flag says whether the `default:` branch of `avltree_rebalance` was
taken so far. -/
def ascend (e : Side) (a : ν) (far : BinaryTree ν) (res : BinaryTree ν × Bool) :
    BinaryTree ν × Bool :=
  (rebalance e a res.1 far, res.2 || offRange res.1 far)

/-- The tree `avltree_remove` leaves, with whether it took the `default:` branch of
`avltree_rebalance`; `none` when the node is not found. -/
def remove [DecidableEq ν] : BinaryTree ν → ν → Exec (Option (BinaryTree ν × Bool))
  | .nil, _ => .ok none
  | .node a l r, x =>
    match cmp x a with
    | .lt => do return (← remove l x).map (ascend .left a r)
    | .gt => do return (← remove r x).map (ascend .right a l)
    | .eq =>
      if a ≠ x then do return (← remove r x).map (ascend .right a l)
      else if r = .nil then return some (l, false)
      else if l = .nil then return some (r, false)
      else do
        let leftest := r.leftmostD a
        match ← remove r leftest with
        | none => .error .unreachable
        | some res => return some (ascend .right leftest l res)

/-- What a successful removal does at a node: it went on to one side, or it found the node here. -/
inductive RemovedAt [DecidableEq ν] (x a : ν) (l r : BinaryTree ν) : BinaryTree ν × Bool → Prop
  | left {res : BinaryTree ν × Bool} : cmp x a = .lt → remove cmp l x = .ok (some res) →
      RemovedAt x a l r (ascend .left a r res)
  | right {res : BinaryTree ν × Bool} : cmp x a ≠ .lt → (cmp x a = .eq → a ≠ x) →
      remove cmp r x = .ok (some res) → RemovedAt x a l r (ascend .right a l res)
  | noRight : cmp x a = .eq → a = x → r = .nil → RemovedAt x a l r (l, false)
  | noLeft : cmp x a = .eq → a = x → r ≠ .nil → l = .nil → RemovedAt x a l r (r, false)
  | both {res : BinaryTree ν × Bool} : cmp x a = .eq → a = x → r ≠ .nil → l ≠ .nil →
      remove cmp r (r.leftmostD a) = .ok (some res) →
      RemovedAt x a l r (ascend .right (r.leftmostD a) l res)

/-- Inversion of a successful removal at a node. -/
theorem removedAt_of_remove [DecidableEq ν] {x a : ν} {l r : BinaryTree ν}
    (h : remove cmp (.node a l r) x = .ok (some res)) : RemovedAt cmp x a l r res := by
  have mapped {e : Side} {far : BinaryTree ν} {y : Exec (Option (BinaryTree ν × Bool))}
      (h : (do return (← y).map (ascend e a far) : Exec _) = .ok (some res)) :
      ∃ res', y = .ok (some res') ∧ res = ascend e a far res' := by
    obtain ⟨o, ho, h⟩ := Exec.bind_eq_ok.1 h
    cases o with
    | none => cases h
    | some res' => cases h; exact ⟨res', ho, rfl⟩
  rw [remove] at h
  split at h
  case h_1 hc =>
    obtain ⟨res', h1, rfl⟩ := mapped h
    exact .left hc h1
  case h_2 hc =>
    obtain ⟨res', h1, rfl⟩ := mapped h
    exact .right (by rw [hc]; nofun) (by rw [hc]; nofun) h1
  case h_3 hc =>
    split at h
    case isTrue hne =>
      obtain ⟨res', h1, rfl⟩ := mapped h
      exact .right (by rw [hc]; nofun) (fun _ => hne) h1
    case isFalse hax =>
      have hax := not_not.1 hax
      split at h
      case isTrue hr => cases h; exact .noRight hc hax hr
      case isFalse hr =>
        split at h
        case isTrue hl => cases h; exact .noLeft hc hax hr hl
        case isFalse hl =>
          obtain ⟨o, ho, h⟩ := Exec.bind_eq_ok.1 h
          cases o with
          | none => cases h
          | some res' => cases h; exact .both hc hax hr hl ho

/-! ## Walks -/

/-- `avltree_rebalance` keeps the in-order walk. -/
@[simp] theorem inorder_rebalance (e : Side) (a : ν) (near far : BinaryTree ν) :
    (rebalance e a near far).inorder = (join e a near far).inorder := by
  have rotated (d : Side) (c : Prop) [Decidable c] :
      (join e a (if c then rotate d near else near) far).inorder = (join e a near far).inorder := by
    split
    · cases e <;> simp [join]
    rfl
  unfold rebalance
  split
  · rw [inorder_rotate, rotated]
  split
  · rw [inorder_rotate, rotated]
  rfl

theorem inorder_insert_perm (x : ν) (t : BinaryTree ν) :
    (insert cmp x t).inorder.Perm (x :: t.inorder) := by
  induction t with
  | nil => exact .refl _
  | node a l r ihl ihr => ?_
  rw [insert]
  split
  · rw [inorder_rebalance]
    exact ihl.append_right _
  all_goals
    rw [inorder_rebalance]
    exact ((ihr.cons a).append_left _).trans (((List.Perm.swap x a _).append_left _).trans
      perm_middle)

theorem inorder_erase_leftmostD [DecidableEq ν] (ht : t ≠ .nil) (d : ν) :
    t.inorder = t.leftmostD d :: t.inorder.erase (t.leftmostD d) := by
  cases t with
  | nil => exact absurd rfl ht
  | node a l r =>
    obtain ⟨xs, h⟩ := inorder_eq_leftmostD_cons a l r d
    rw [h, erase_cons_head]

/-- Removal takes the node out of the walk, and no other. -/
theorem inorder_of_remove [DecidableEq ν] {x : ν} (hnd : t.inorder.Nodup)
    (h : remove cmp t x = .ok (some res)) : x ∈ t.inorder ∧ res.1.inorder = t.inorder.erase x := by
  induction t generalizing x res with
  | nil => cases h
  | node a l r ihl ihr => ?_
  obtain ⟨hl, hr, hal, har, hlr⟩ := nodup_inorder_join (d := .left).1 hnd
  cases removedAt_of_remove cmp h with
  | left _ h1 =>
    obtain ⟨hx, he⟩ := ihl hl h1
    refine ⟨by simp [hx], ?_⟩
    rw [ascend, inorder_rebalance, join_left, inorder_node, he, inorder_node,
      erase_append_left _ hx]
  | right _ _ h1 =>
    obtain ⟨hx, he⟩ := ihr hr h1
    have hxl : x ∉ l.inorder := fun h => hlr x h hx
    have hxa : a ≠ x := by rintro rfl; exact har hx
    refine ⟨by simp [hx], ?_⟩
    rw [ascend, inorder_rebalance, join_right, inorder_node, he, inorder_node,
      erase_append_right _ hxl, erase_cons_tail (by simpa using hxa)]
  | noRight _ hax hr => subst hax hr; simp [erase_append_right _ hal]
  | noLeft _ hax _ hl => subst hax hl; simp
  | both _ hax hrn hln h1 =>
    subst hax
    obtain ⟨hx, he⟩ := ihr hr h1
    refine ⟨by simp, ?_⟩
    rw [ascend, inorder_rebalance, join_right, inorder_node, he, inorder_node,
      erase_append_right _ hal, erase_cons_head, ← inorder_erase_leftmostD hrn]

end Stanix.Avl
