import Mathlib

/-!
# Binary trees, read from left to right

A search tree stands for the list of its values in order.  What restructures the tree and
leaves that list alone does not change what the tree stands for.

* `BinaryTree.inorder` — the list.
* `inorder_rotate` — a rotation leaves it alone.
* `List.Pairwise.sides` — the values of a sorted list on the two sides of one of them.
-/

namespace BinaryTree

variable {α : Type*}

/-- The values from left to right. -/
def inorder : BinaryTree α → List α
  | nil => []
  | node a l r => l.inorder ++ a :: r.inorder

@[simp] theorem inorder_nil : (nil : BinaryTree α).inorder = [] := rfl

@[simp] theorem inorder_node (a : α) (l r : BinaryTree α) :
    (node a l r).inorder = l.inorder ++ a :: r.inorder := rfl

/-- The left child becomes the root. -/
theorem inorder_rotate (a b : α) (l m r : BinaryTree α) :
    (node b l (node a m r)).inorder = (node a (node b l m) r).inorder := by
  simp

theorem inorder_eq_nil {t : BinaryTree α} : t.inorder = [] ↔ t = nil := by
  cases t <;> simp

end BinaryTree

/-- In a sorted list, what is before one value comes before it, and what is after it
comes after. -/
theorem List.Pairwise.sides {α : Type*} {R : α → α → Prop} {A B : List α} {a : α}
    (h : (A ++ a :: B).Pairwise R) : (∀ x ∈ A, R x a) ∧ ∀ x ∈ B, R a x := by
  obtain ⟨-, hB, hAB⟩ := List.pairwise_append.mp h
  exact ⟨fun x hx => hAB x hx a List.mem_cons_self, (List.pairwise_cons.mp hB).1⟩
