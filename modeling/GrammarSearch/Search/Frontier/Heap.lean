/-!
# Heaps

A heap keeps elements so that a least one is found at once. Every node holds a
least element of its tree and the tree's size, and of its two subtrees the
larger is on the left. Two heaps are merged along their right spines, which are
short because every step to the right at least halves the size.
-/

namespace GrammarSearch

/-- A tree of elements. -/
inductive Heap (α : Type)
  | empty
  | node (size : Nat) (least : α) (left right : Heap α)

namespace Heap

variable {α : Type}

/-- The number of elements. -/
def size : Heap α → Nat
  | .empty => 0
  | .node size _ _ _ => size

/-- The elements, from the root down and from left to right. -/
def toList : Heap α → List α
  | .empty => []
  | .node _ least left right => least :: (left.toList ++ right.toList)

/-- The heap of an element that is least, and two heaps. -/
def join (least : α) (a b : Heap α) : Heap α :=
  if a.size < b.size then .node (a.size + b.size + 1) least b a
  else .node (a.size + b.size + 1) least a b

/-- Merges a heap with a nonempty one, of which the least element and the left subtree are
given, together with the way to merge its right subtree. -/
def mergeNode (le : α → α → Bool) (size : Nat) (least : α) (left right : Heap α)
    (mergeRight : Heap α → Heap α) : Heap α → Heap α
  | .empty => .node size least left right
  | .node size' least' left' right' =>
    if le least least' then join least left (mergeRight (.node size' least' left' right'))
    else join least' left' (mergeNode le size least left right mergeRight right')

/-- The elements of two heaps. -/
def merge (le : α → α → Bool) : Heap α → Heap α → Heap α
  | .empty => fun b => b
  | .node size least left right => mergeNode le size least left right (merge le right)

/-- Adds an element. -/
def push (le : α → α → Bool) (a : α) (h : Heap α) : Heap α :=
  merge le (.node 1 a .empty .empty) h

/-- A least element, and the heap without it. -/
def pop? (le : α → α → Bool) : Heap α → Option (α × Heap α)
  | .empty => none
  | .node _ least left right => some (least, merge le left right)

end Heap

end GrammarSearch
