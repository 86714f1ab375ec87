import Mathlib.Data.Tree.Basic
import Mathlib.Data.List.Nodup
import Mathlib.Data.Int.Order.Basic
import Mathlib.Data.Nat.Fib.Basic

/-!
# Search trees as values

The in-order walk, the rotations and the balance of Mathlib's `BinaryTree`. A pointer structure
that spells out such a tree inherits its walk and its balance from here, so that the code that moves
the pointers is only asked which tree it leaves. The two mirror images of every operation are one
operation that takes the `Side` it works on: `BinaryTree.join d a near far` is the node of value `a`
with the subtree `near` on side `d`.
-/

/-- The two sides of a node. -/
inductive Side
  | left
  | right
  deriving DecidableEq, Repr

namespace Side

/-- The other side. -/
def flip : Side → Side
  | left => right
  | right => left

@[simp] theorem flip_left : flip left = right := rfl
@[simp] theorem flip_right : flip right = left := rfl
@[simp] theorem flip_flip (d : Side) : d.flip.flip = d := by cases d <;> rfl

end Side

namespace BinaryTree

variable {α : Type*} {n f t : BinaryTree α} {d : Side} {a : α}

/-- The node of value `a` with `near` on side `d` and `far` on the other side. -/
def join (d : Side) (a : α) (near far : BinaryTree α) : BinaryTree α :=
  match d with
  | .left => .node a near far
  | .right => .node a far near

/-- The value at the root. -/
def root? : BinaryTree α → Option α
  | .nil => none
  | .node a _ _ => some a

/-- The in-order walk. -/
def inorder : BinaryTree α → List α
  | .nil => []
  | .node a l r => l.inorder ++ a :: r.inorder

/-- The leftmost value, or `d` in the empty tree. -/
def leftmostD (d : α) : BinaryTree α → α
  | .nil => d
  | .node a l _ => l.leftmostD a

/-- The rotation that brings the root of the subtree on side `d` up. Without such a subtree it does
nothing. -/
def rotate : Side → BinaryTree α → BinaryTree α
  | .left, .node a (.node b bl br) r => .node b bl (.node a br r)
  | .right, .node a l (.node b bl br) => .node b (.node a l bl) br
  | _, t => t

/-- Height of the right subtree less height of the left one. -/
def balanceFactor : BinaryTree α → Int
  | .nil => 0
  | .node _ l r => r.height - l.height

/-- Every balance factor is `-1`, `0` or `1`. -/
def Balanced : BinaryTree α → Prop
  | .nil => True
  | .node _ l r => (l.height ≤ r.height + 1 ∧ r.height ≤ l.height + 1) ∧ l.Balanced ∧ r.Balanced

instance Balanced.instDecidable : ∀ t : BinaryTree α, Decidable t.Balanced
  | .nil => .isTrue trivial
  | .node _ l r =>
    have := Balanced.instDecidable l
    have := Balanced.instDecidable r
    inferInstanceAs (Decidable (_ ∧ _ ∧ _))

@[simp] theorem join_left (a : α) (l r : BinaryTree α) : join .left a l r = .node a l r := rfl
@[simp] theorem join_right (a : α) (l r : BinaryTree α) : join .right a r l = .node a l r := rfl
@[simp] theorem root?_nil : (nil : BinaryTree α).root? = none := rfl
@[simp] theorem root?_node (a : α) (l r : BinaryTree α) : (node a l r).root? = some a := rfl
@[simp] theorem inorder_nil : (nil : BinaryTree α).inorder = [] := rfl
@[simp] theorem inorder_node (a : α) (l r : BinaryTree α) :
    (node a l r).inorder = l.inorder ++ a :: r.inorder := rfl
@[simp] theorem balanceFactor_nil : (nil : BinaryTree α).balanceFactor = 0 := rfl
@[simp] theorem balanceFactor_node (a : α) (l r : BinaryTree α) :
    (node a l r).balanceFactor = r.height - l.height := rfl
@[simp] theorem balanced_nil : (nil : BinaryTree α).Balanced := trivial
@[simp] theorem balanced_node (a : α) (l r : BinaryTree α) :
    (node a l r).Balanced ↔
      (l.height ≤ r.height + 1 ∧ r.height ≤ l.height + 1) ∧ l.Balanced ∧ r.Balanced := Iff.rfl

/-! ## Nodes by their sides -/

@[simp] theorem root?_join (d : Side) (a : α) (n f : BinaryTree α) :
    (join d a n f).root? = some a := by
  cases d <;> rfl

@[simp] theorem height_join (d : Side) (a : α) (n f : BinaryTree α) :
    (join d a n f).height = max n.height f.height + 1 := by
  cases d with
  | left => rfl
  | right => rw [join, height, Nat.max_comm]

@[simp] theorem balanced_join (d : Side) (a : α) (n f : BinaryTree α) :
    (join d a n f).Balanced ↔
      (n.height ≤ f.height + 1 ∧ f.height ≤ n.height + 1) ∧ n.Balanced ∧ f.Balanced := by
  cases d with
  | left => rfl
  | right => rw [join, balanced_node]; tauto

/-- Membership in a node, seen from either side. -/
@[simp] theorem mem_inorder_join {x : α} :
    x ∈ (join d a n f).inorder ↔ x = a ∨ x ∈ n.inorder ∨ x ∈ f.inorder := by
  cases d <;> simp only [join, inorder_node, List.mem_append, List.mem_cons] <;> tauto

/-- The walks of the two subtrees and the root between them do not overlap. -/
theorem nodup_inorder_join :
    (join d a n f).inorder.Nodup ↔ n.inorder.Nodup ∧ f.inorder.Nodup ∧ a ∉ n.inorder ∧
      a ∉ f.inorder ∧ ∀ x ∈ n.inorder, x ∉ f.inorder := by
  cases d <;>
    simp only [join, inorder_node, List.nodup_append, List.nodup_cons, List.mem_cons, ne_eq,
      forall_eq_or_imp] <;> grind

/-- Every node is a `join` on either side. -/
theorem node_eq_join (d : Side) (a : α) (l r : BinaryTree α) :
    ∃ n f, node a l r = join d a n f := by
  cases d with
  | left => exact ⟨l, r, rfl⟩
  | right => exact ⟨r, l, rfl⟩

/-- A node, seen from its other side. -/
theorem join_flip (d : Side) (a : α) (n f : BinaryTree α) : join d.flip a f n = join d a n f := by
  cases d <;> rfl

/-- The tree is higher on side `d`. -/
def Leans (d : Side) (t : BinaryTree α) : Prop :=
  match d with
  | .left => t.balanceFactor < 0
  | .right => 0 < t.balanceFactor

instance (d : Side) (t : BinaryTree α) : Decidable (t.Leans d) :=
  match d with
  | .left => inferInstanceAs (Decidable (_ < _))
  | .right => inferInstanceAs (Decidable (_ < _))

@[simp] theorem leans_join : (join d a n f).Leans d ↔ f.height < n.height := by
  cases d <;> simp only [join, Leans, balanceFactor_node] <;> omega

@[simp] theorem leans_flip_join : (join d a n f).Leans d.flip ↔ n.height < f.height := by
  rw [← join_flip, leans_join]

/-- Two subtrees of one height do not tip the node over them. -/
theorem balanceFactor_join_eq_zero : (join d a n f).balanceFactor = 0 ↔ n.height = f.height := by
  cases d <;> simp only [join, balanceFactor_node] <;> omega

/-! ## Rotations -/

@[simp] theorem rotate_join (d : Side) (a b : α) (n f g : BinaryTree α) :
    rotate d (join d a (join d b n f) g) = join d b n (join d.flip a g f) := by
  cases d <;> rfl

/-- A rotation keeps the in-order walk. -/
@[simp] theorem inorder_rotate (d : Side) (t : BinaryTree α) : (rotate d t).inorder = t.inorder := by
  fun_cases rotate <;> simp

/-- The subtree on side `d` of the root is not empty. -/
def HasChild (d : Side) (t : BinaryTree α) : Prop :=
  ∃ a b n f g, t = join d a (join d b n f) g

/-- The subtree on the side of `near` is `near`. -/
theorem hasChild_join : HasChild d (join d a n f) ↔ n ≠ .nil := by
  constructor
  · rintro ⟨a', b, n', f', g, h⟩ rfl
    cases d <;> cases h
  intro h
  cases n with
  | nil => exact absurd rfl h
  | node b l r =>
    obtain ⟨n', f', hj⟩ := node_eq_join d b l r
    exact ⟨a, b, n', f', f, by rw [hj]⟩

/-- The subtree on the other side is `far`. -/
theorem hasChild_join_flip : HasChild d.flip (join d a n f) ↔ f ≠ .nil := by
  cases d with
  | left => exact hasChild_join
  | right => exact hasChild_join

/-- Which sides of a node are empty depends on which of its subtrees are. -/
theorem HasChild.congr {e : Side} {n' : BinaryTree α} (hn : n' = .nil ↔ n = .nil)
    (h : HasChild d (join e a n f)) : HasChild d (join e a n' f) := by
  by_cases hde : d = e
  · subst hde
    rw [hasChild_join] at h ⊢
    exact fun h' => h (hn.1 h')
  obtain rfl : d = e.flip := by cases e <;> cases d <;> simp_all
  rw [hasChild_join_flip] at h ⊢
  exact h

/-- A tree that leans to a side has a child there. -/
theorem hasChild_of_balanceFactor :
    (t.balanceFactor < 0 → HasChild .left t) ∧ (0 < t.balanceFactor → HasChild .right t) := by
  cases t with
  | nil => simp
  | node a l r =>
    refine ⟨fun h => hasChild_join.2 ?_, fun h => hasChild_join.2 ?_⟩
    all_goals
      rintro rfl
      simp only [balanceFactor_node, height] at h
      omega

/-- A rotation empties no tree. -/
@[simp] theorem rotate_eq_nil : rotate d t = .nil ↔ t = .nil := by
  fun_cases rotate <;> simp

/-! ## The walk -/

/-- The root is a value of the tree. -/
theorem mem_inorder_of_root? (h : t.root? = some a) : a ∈ t.inorder := by
  cases t with
  | nil => cases h
  | node b l r => cases h; simp

/-- A tree without a root is empty. -/
theorem root?_eq_none : t.root? = none ↔ t = .nil := by
  cases t <;> simp

/-- The leftmost value comes first in the walk. -/
theorem inorder_eq_leftmostD_cons (a : α) (l r : BinaryTree α) (d : α) :
    ∃ xs, (node a l r).inorder = (node a l r).leftmostD d :: xs := by
  induction l generalizing a r d with
  | nil => exact ⟨r.inorder, rfl⟩
  | node b ll lr ihl _ =>
    obtain ⟨xs, h⟩ := ihl b lr a
    exact ⟨xs ++ a :: r.inorder, by rw [inorder_node, h]; rfl⟩

/-- The leftmost value of a nonempty tree is in the tree. -/
theorem leftmostD_mem (a : α) (l r : BinaryTree α) (d : α) :
    (node a l r).leftmostD d ∈ (node a l r).inorder := by
  obtain ⟨xs, h⟩ := inorder_eq_leftmostD_cons a l r d
  rw [h]; exact .head _

/-! ## Heights -/

/-- The subtrees of a node are lower. -/
theorem height_lt_of_node {a : α} {l r : BinaryTree α} {n : Nat} (h : (node a l r).height < n + 1) :
    l.height < n ∧ r.height < n := by
  simp only [height] at h
  omega

/-- A tree is no higher than its walk is long. -/
theorem height_le_length_inorder (t : BinaryTree α) : t.height ≤ t.inorder.length := by
  induction t with
  | nil => simp
  | node a l r ihl ihr =>
    simp only [height, inorder_node, List.length_append, List.length_cons]; omega

/-- A balanced tree of height `h` has at least as many values as the sparsest one, `fib (h + 2) - 1`. -/
theorem Balanced.fib_height_le {t : BinaryTree α} (h : t.Balanced) :
    Nat.fib (t.height + 2) ≤ t.inorder.length + 1 := by
  induction t with
  | nil => simp
  | node a l r ihl ihr => ?_
  obtain ⟨⟨hl, hr⟩, hbl, hbr⟩ := h
  have hsum := Nat.add_le_add (ihl hbl) (ihr hbr)
  have fib_succ (h : Nat) : Nat.fib (h + 1 + 2) = Nat.fib (h + 1) + Nat.fib (h + 2) := Nat.fib_add_two
  simp only [height, inorder_node, List.length_append, List.length_cons]
  rcases le_total l.height r.height with hle | hle
  · rw [max_eq_right hle, fib_succ]
    have := Nat.fib_mono (show r.height + 1 ≤ l.height + 2 by omega)
    omega
  rw [max_eq_left hle, fib_succ]
  have := Nat.fib_mono (show l.height + 1 ≤ r.height + 2 by omega)
  omega

end BinaryTree
