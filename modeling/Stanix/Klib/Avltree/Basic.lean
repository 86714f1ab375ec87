import Stanix.Base.Exec
import Stanix.Base.Tree
import Mathlib.Data.Finset.Basic

/-!
# `kernel/klib/avltree.c`

The intrusive AVL tree, function by function, on a memory of nodes. A node is known by its address
(any type `ν` of non-NULL addresses, `Option ν` being a pointer), its four fields are stored in
`Avltree.node`, and the fields of the structure that embeds it and that the hook `recalculate` keeps
up to date in `Avltree.data`. A pointer to a pointer (`avltree_node_t **`) is a `Slot`: the root
pointer of the tree or a child pointer of a node.

The two rotations are mirror images, so they are one function `avltreeRotate` that takes the side of
the child it brings up. Recursions and loops take fuel. The `default:` branch of
`avltree_rebalance`, marked unreachable, is read as doing nothing; `Avltree.reachedDefault` records
that it was taken.
-/

namespace Stanix

open Function

/-- The fields of a node. Source: `avltree_node_t` (`avltree.h:22`). -/
structure AvltreeNode (ν : Type) where
  parent : Option ν
  left : Option ν
  right : Option ν
  height : Nat

/-- A tree and the memory its nodes are in. Source: `avltree_t` (`avltree.h:29`). -/
structure Avltree (ν δ : Type) where
  root : Option ν
  node : ν → AvltreeNode ν
  /-- The embedding structures' fields that `recalculate` writes. -/
  data : ν → δ
  /-- The `default:` branch of `avltree_rebalance` was taken. -/
  reachedDefault : Bool := false

/-- The callbacks of a tree; a comparison of nodes reads no field a call changes. Source:
`avltree_ops_t` (`avltree.h:12`). -/
structure AvltreeOps (ν κ δ : Type) where
  compareNodes : ν → ν → Int
  compareKey : Avltree ν δ → κ → ν → Int
  recalculate : Option (Avltree ν δ → ν → δ)

/-- A pointer to a pointer: where the code reads a subtree from and writes it back to. -/
inductive Slot (ν : Type)
  | root
  | child (d : Side) (n : ν)
  deriving DecidableEq

variable {ν κ δ : Type}

/-! ## Memory -/

/-- The child pointer of a node on a side. -/
def AvltreeNode.child (n : AvltreeNode ν) : Side → Option ν
  | .left => n.left
  | .right => n.right

/-- Write of the child pointer of a node on a side. -/
def AvltreeNode.setChild (n : AvltreeNode ν) (d : Side) (p : Option ν) : AvltreeNode ν :=
  match d with
  | .left => { n with left := p }
  | .right => { n with right := p }

/-- Write of the parent pointer of a node. -/
def AvltreeNode.setParent (n : AvltreeNode ν) (p : Option ν) : AvltreeNode ν :=
  { n with parent := p }

/-- Write of the height field of a node. -/
def AvltreeNode.setHeight (n : AvltreeNode ν) (h : Nat) : AvltreeNode ν :=
  { n with height := h }

namespace AvltreeNode

section

variable (n : AvltreeNode ν)
include n

section

variable (d : Side) (p : Option ν)
include d p

@[simp] theorem child_setChild : (n.setChild d p).child d = p := by
  cases d <;> rfl

@[simp] theorem child_setChild_flip : (n.setChild d p).child d.flip = n.child d.flip := by
  cases d <;> rfl

@[simp] theorem child_setChild_of_flip : (n.setChild d.flip p).child d = n.child d := by
  cases d <;> rfl

@[simp] theorem parent_setChild : (n.setChild d p).parent = n.parent := by
  cases d <;> rfl

end

section

variable (p : Option ν)

include p

@[simp] theorem left_setChild_left :
    (n.setChild .left p).left = p := rfl

@[simp] theorem left_setChild_right :
    (n.setChild .right p).left = n.left := rfl

@[simp] theorem right_setChild_right :
    (n.setChild .right p).right = p := rfl

@[simp] theorem left_setParent :
    (n.setParent p).left = n.left := rfl

@[simp] theorem right_setParent :
    (n.setParent p).right = n.right := rfl

end

@[simp] theorem child_setParent (d : Side) (p : Option ν) :
    (n.setParent p).child d = n.child d := by
  cases d <;> rfl

@[simp] theorem parent_setParent (p : Option ν) :
    (n.setParent p).parent = p := rfl

@[simp] theorem child_setHeight (d : Side) (h : Nat) : (n.setHeight h).child d = n.child d := by
  cases d <;> rfl

@[simp] theorem parent_setHeight (h : Nat) :
    (n.setHeight h).parent = n.parent := rfl

@[simp] theorem height_setHeight (h : Nat) :
    (n.setHeight h).height = h := rfl

end

end AvltreeNode

variable [DecidableEq ν] {ret : Int}

namespace Avltree

/-- Write of the fields of a node. -/
def setNode (t : Avltree ν δ) (n : ν) (f : AvltreeNode ν) : Avltree ν δ :=
  { t with node := update t.node n f }

/-- `n->left = p` or `n->right = p`. -/
def setChild (t : Avltree ν δ) (d : Side) (n : ν) (p : Option ν) : Avltree ν δ :=
  t.setNode n ((t.node n).setChild d p)

/-- `n->parent = p`. -/
def setParent (t : Avltree ν δ) (n : ν) (p : Option ν) : Avltree ν δ :=
  t.setNode n ((t.node n).setParent p)

/-- `n->height = h`. -/
def setHeight (t : Avltree ν δ) (n : ν) (h : Nat) : Avltree ν δ :=
  t.setNode n ((t.node n).setHeight h)

/-- `if (p) p->parent = q`. -/
def setParent? (t : Avltree ν δ) (p q : Option ν) : Avltree ν δ :=
  match p with
  | some n => t.setParent n q
  | none => t

/-- `*slot`. -/
def load (t : Avltree ν δ) : Slot ν → Option ν
  | .root => t.root
  | .child d n => (t.node n).child d

/-- `*slot = p`. -/
def store (t : Avltree ν δ) (s : Slot ν) (p : Option ν) : Avltree ν δ :=
  match s with
  | .root => { t with root := p }
  | .child d n => t.setChild d n p

section Writes

variable (t : Avltree ν δ) (n : ν)

@[simp] theorem setChild_node (d : Side) (p : Option ν) :
    (t.setChild d n p).node = update t.node n ((t.node n).setChild d p) := rfl
@[simp] theorem setParent_node (p : Option ν) :
    (t.setParent n p).node = update t.node n ((t.node n).setParent p) := rfl
@[simp] theorem setParent_root (p : Option ν) : (t.setParent n p).root = t.root := rfl
@[simp] theorem setParent_reachedDefault (p : Option ν) :
    (t.setParent n p).reachedDefault = t.reachedDefault := rfl
@[simp] theorem setHeight_node (h : Nat) :
    (t.setHeight n h).node = update t.node n ((t.node n).setHeight h) := rfl
@[simp] theorem setParent?_some (q : Option ν) : t.setParent? (some n) q = t.setParent n q := rfl
@[simp] theorem setParent?_none (q : Option ν) : t.setParent? none q = t := rfl

@[simp] theorem setParent?_reachedDefault (p q : Option ν) :
    (t.setParent? p q).reachedDefault = t.reachedDefault := by
  cases p <;> rfl

end Writes

end Avltree

/-! ## Comparisons, heights and rotations -/

/-- The sign of a comparison's result, as `-1`, `0` or `1`. -/
def sign (ret : Int) : Ordering :=
  if ret < 0 then .lt else if ret > 0 then .gt else .eq

@[simp] theorem sign_eq_lt : sign ret = .lt ↔ ret < 0 := by grind [sign]

@[simp] theorem sign_eq_gt : sign ret = .gt ↔ 0 < ret := by grind [sign]

@[simp] theorem sign_eq_eq : sign ret = .eq ↔ ret = 0 := by grind [sign]

variable (ops : AvltreeOps ν κ δ)

/-- Source: `avltree_compare_nodes` (`avltree.c:4`). -/
def avltreeCompareNodes (a b : ν) : Ordering :=
  sign (ops.compareNodes a b)

/-- Source: `avltree_compare_key` (`avltree.c:15`). -/
def avltreeCompareKey (t : Avltree ν δ) (key : κ) (n : ν) : Ordering :=
  sign (ops.compareKey t key n)

/-- Source: `avltree_height` (`avltree.c:26`). -/
def avltreeHeight (t : Avltree ν δ) : Option ν → Nat
  | some n => (t.node n).height
  | none => 0

/-- Source: `avltree_compute_height` (`avltree.c:30`). -/
def avltreeComputeHeight (t : Avltree ν δ) (n : ν) : Avltree ν δ :=
  let leftHeight := avltreeHeight t (t.node n).left
  let rightHeight := avltreeHeight t (t.node n).right
  let t := t.setHeight n ((if leftHeight > rightHeight then leftHeight else rightHeight) + 1)
  match ops.recalculate with
  | some recalculate => { t with data := update t.data n (recalculate t n) }
  | none => t

/-- Source: `avltree_balance_factor` (`avltree.c:39`). -/
def avltreeBalanceFactor (t : Avltree ν δ) : Option ν → Int
  | none => 0
  | some n => (avltreeHeight t (t.node n).right : Int) - avltreeHeight t (t.node n).left

/-- The pointer writes of a rotation that brings `up`, the child of `n` on side `d`, up. -/
def avltreeRelink (d : Side) (t : Avltree ν δ) (n up : ν) : Avltree ν δ :=
  let t := t.setChild d n ((t.node up).child d.flip)
  let t := t.setChild d.flip up (some n)
  let t := t.setParent up (t.node n).parent
  let t := t.setParent n (some up)
  t.setParent? ((t.node n).child d) (some n)

/-- The rotation that brings the child of `n` on side `d` up, and the node that is then on top. -/
def avltreeRotate (d : Side) (t : Avltree ν δ) (n : ν) : Exec (ν × Avltree ν δ) := do
  let up ← Exec.deref ((t.node n).child d)
  let t := avltreeRelink d t n up
  let t := avltreeComputeHeight ops t n
  let t := avltreeComputeHeight ops t up
  return (up, t)

/-- Source: `avltree_rotate_left` (`avltree.c:44`). -/
def avltreeRotateLeft (t : Avltree ν δ) (n : ν) : Exec (ν × Avltree ν δ) :=
  avltreeRotate ops .right t n

/-- Source: `avltree_rotate_right` (`avltree.c:57`). -/
def avltreeRotateRight (t : Avltree ν δ) (n : ν) : Exec (ν × Avltree ν δ) :=
  avltreeRotate ops .left t n

/-- Source: `avltree_leftest_subnode` (`avltree.c:70`). -/
def avltreeLeftestSubnode (t : Avltree ν δ) : Nat → Option ν → Exec (Option ν)
  | 0, _ => .error .fuel
  | _ + 1, none => .ok none
  | fuel + 1, some n =>
    match (t.node n).left with
    | some l => avltreeLeftestSubnode t fuel (some l)
    | none => .ok (some n)

/-- Source: `avltree_rebalance` (`avltree.c:77`). The balance factor of `*child` decides the double
rotation even where the heavy side is the other one. -/
def avltreeRebalance (t : Avltree ν δ) (current child : Slot ν) : Exec (Avltree ν δ) :=
  match t.load current with
  | none => .ok t
  | some cur => do
    let t := avltreeComputeHeight ops t cur
    let factor := avltreeBalanceFactor t (t.load current)
    if factor = -2 then
      let t ← if avltreeBalanceFactor t (t.load child) > 0 then do
          let (c, t) ← avltreeRotateLeft ops t (← Exec.deref (t.load child))
          pure (t.store child (some c))
        else pure t
      let (c, t) ← avltreeRotateRight ops t (← Exec.deref (t.load current))
      return t.store current (some c)
    else if factor = -1 ∨ factor = 0 ∨ factor = 1 then
      return t
    else if factor = 2 then
      let t ← if avltreeBalanceFactor t (t.load child) < 0 then do
          let (c, t) ← avltreeRotateRight ops t (← Exec.deref (t.load child))
          pure (t.store child (some c))
        else pure t
      let (c, t) ← avltreeRotateLeft ops t (← Exec.deref (t.load current))
      return t.store current (some c)
    else
      return { t with reachedDefault := true }

/-! ## Insertion and removal -/

/-- Source: `avltree_insert_helper` (`avltree.c:107`). -/
def avltreeInsertHelper : Nat → Avltree ν δ → Option ν → Slot ν → ν → Exec (Avltree ν δ)
  | 0, _, _, _, _ => .error .fuel
  | fuel + 1, t, parent, current, n =>
    match t.load current with
    | none => .ok ((t.setParent n parent).store current (some n))
    | some cur => do
      let child := match avltreeCompareNodes ops n cur with
        | .lt => Slot.child .left cur
        | .eq | .gt => Slot.child .right cur
      let t ← avltreeInsertHelper fuel t (some cur) child n
      avltreeRebalance ops t current child

/-- Source: `avltree_insert` (`avltree.c:131`). -/
def avltreeInsert (fuel : Nat) (t : Avltree ν δ) (n : ν) : Exec (Avltree ν δ) :=
  avltreeInsertHelper ops fuel (t.setHeight n 1) none .root n

/-- The writes of `avltree_remove_helper` that put `leftest` over the node it removes
(`avltree.c:176`). -/
def avltreeSplice (t : Avltree ν δ) (cur leftest : ν) : Avltree ν δ :=
  let t := t.setChild .left leftest (t.node cur).left
  let t := t.setChild .right leftest (t.node cur).right
  let t := t.setParent leftest (t.node cur).parent
  let t := t.setParent? (t.node leftest).left (some leftest)
  t.setParent? (t.node leftest).right (some leftest)

/-- Source: `avltree_remove_helper` (`avltree.c:137`). -/
def avltreeRemoveHelper : Nat → Avltree ν δ → Slot ν → ν → Exec (Bool × Avltree ν δ)
  | 0, _, _, _ => .error .fuel
  | fuel + 1, t, current, n =>
    match t.load current with
    | none => .ok (false, t)
    | some cur =>
      -- the tail of the function, for the child it goes on with
      let descend := fun child => do
        let (found, t) ← avltreeRemoveHelper fuel t child n
        if !found then return (false, t)
        let t ← avltreeRebalance ops t current child
        return (true, t)
      match avltreeCompareNodes ops n cur with
      | .lt => descend (.child .left cur)
      | .gt => descend (.child .right cur)
      | .eq =>
        if cur ≠ n then
          descend (.child .right cur)
        else if (t.node cur).right = none then do
          let t := t.store current (t.node cur).left
          return (true, t.setParent? (t.node cur).left (t.node cur).parent)
        else if (t.node cur).left = none then do
          let t := t.store current (t.node cur).right
          return (true, t.setParent? (t.node cur).right (t.node cur).parent)
        else do
          let leftest ← Exec.deref (← avltreeLeftestSubnode t fuel (t.node cur).right)
          let (found, t) ← avltreeRemoveHelper fuel t (.child .right cur) leftest
          if !found then .error .unreachable
          let t := (avltreeSplice t cur leftest).store current (some leftest)
          let t ← avltreeRebalance ops t current (.child .right leftest)
          return (true, t)

/-- Source: `avltree_remove` (`avltree.c:195`). -/
def avltreeRemove (fuel : Nat) (t : Avltree ν δ) (n : ν) : Exec (Bool × Avltree ν δ) :=
  avltreeRemoveHelper ops fuel t .root n

/-! ## Lookups and iteration -/

/-- The loop of `avltree_lookup`. -/
def avltreeLookupLoop (t : Avltree ν δ) (key : κ) : Nat → Option ν → Exec (Option ν)
  | 0, _ => .error .fuel
  | _ + 1, none => .ok none
  | fuel + 1, some n =>
    match avltreeCompareKey ops t key n with
    | .lt => avltreeLookupLoop t key fuel (t.node n).left
    | .gt => avltreeLookupLoop t key fuel (t.node n).right
    | .eq => .ok (some n)

/-- Source: `avltree_lookup` (`avltree.c:199`). -/
def avltreeLookup (fuel : Nat) (t : Avltree ν δ) (key : κ) : Exec (Option ν) :=
  avltreeLookupLoop ops t key fuel t.root

/-- The loop of `avltree_first_superior_or_equal`, with the variable `best`. -/
def avltreeFirstSuperiorOrEqualLoop (t : Avltree ν δ) (key : κ) :
    Nat → Option ν → Option ν → Exec (Option ν)
  | 0, _, _ => .error .fuel
  | _ + 1, none, best => .ok best
  | fuel + 1, some n, best =>
    match avltreeCompareKey ops t key n with
    | .lt | .eq => avltreeFirstSuperiorOrEqualLoop t key fuel (t.node n).left (some n)
    | .gt => avltreeFirstSuperiorOrEqualLoop t key fuel (t.node n).right best

/-- Source: `avltree_first_superior_or_equal` (`avltree.c:218`). -/
def avltreeFirstSuperiorOrEqual (fuel : Nat) (t : Avltree ν δ) (key : κ) : Exec (Option ν) :=
  avltreeFirstSuperiorOrEqualLoop ops t key fuel t.root none

/-- Source: `avltree_first` (`avltree.c:240`). -/
def avltreeFirst (fuel : Nat) (t : Avltree ν δ) : Exec (Option ν) :=
  avltreeLeftestSubnode t fuel t.root

/-- The loop of `avltree_next` that moves up, with its variables `node` and `parent`. -/
def avltreeNextUp (t : Avltree ν δ) : Nat → ν → Option ν → Exec (Option ν)
  | 0, _, _ => .error .fuel
  | _ + 1, _, none => .ok none
  | fuel + 1, n, some parent =>
    if (t.node parent).right = some n then avltreeNextUp t fuel parent (t.node parent).parent
    else .ok (some parent)

/-- Source: `avltree_next` (`avltree.c:244`). -/
def avltreeNext (fuel : Nat) (t : Avltree ν δ) : Option ν → Exec (Option ν)
  | none => .ok none
  | some n =>
    match (t.node n).right with
    | some r => avltreeLeftestSubnode t fuel (some r)
    | none => avltreeNextUp t fuel n (t.node n).parent

/-- The nodes the loop of `avltree_foreach` visits from a node on. -/
def avltreeForeachFrom (fuel : Nat) (t : Avltree ν δ) : Nat → Option ν → Exec (List ν)
  | 0, _ => .error .fuel
  | _ + 1, none => .ok []
  | rounds + 1, some n => do
    let next ← avltreeNext fuel t (some n)
    return n :: (← avltreeForeachFrom fuel t rounds next)

/-- The nodes `avltree_foreach` visits, in order. Source: `avltree_foreach` (`avltree.h:48`). -/
def avltreeForeach (fuel : Nat) (t : Avltree ν δ) : Exec (List ν) := do
  avltreeForeachFrom fuel t fuel (← avltreeFirst fuel t)

end Stanix
