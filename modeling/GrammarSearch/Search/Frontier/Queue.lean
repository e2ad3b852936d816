/-!
# Queues

A queue of elements in two lists: the oldest elements in order, and the newest
in reverse. What a queue means is the list of its elements, oldest first.
-/

namespace GrammarSearch

/-- Elements in the order in which they were pushed. -/
structure Queue (α : Type) where
  front : List α
  back : List α
  size : Nat
  size_eq : size = front.length + back.length := by simp

namespace Queue

variable {α : Type}

/-- No elements. -/
def empty : Queue α := { front := [], back := [], size := 0, size_eq := rfl }

/-- The elements, oldest first. -/
def toList (q : Queue α) : List α := q.front ++ q.back.reverse

/-- Adds an element. -/
def push (q : Queue α) (a : α) : Queue α where
  front := q.front
  back := a :: q.back
  size := q.size + 1
  size_eq := by simp [q.size_eq, Nat.add_assoc]

/-- The oldest element, and the queue without it. -/
def pop? (q : Queue α) : Option (α × Queue α) :=
  match hf : q.front with
  | a :: front =>
    some (a, { front, back := q.back, size := q.size - 1,
               size_eq := by simp [q.size_eq, hf] })
  | [] =>
    match hb : q.back.reverse with
    | [] => none
    | a :: front =>
      some (a, { front, back := [], size := q.size - 1,
                 size_eq := by
                   have h := congrArg List.length hb
                   simp only [List.length_reverse, List.length_cons] at h
                   simp [q.size_eq, hf, h] })

@[simp] theorem toList_empty : (empty : Queue α).toList = [] := rfl

@[simp] theorem toList_push (q : Queue α) (a : α) : (q.push a).toList = q.toList ++ [a] := by
  simp [push, toList]

/-- The size is the number of elements. -/
theorem size_eq_length (q : Queue α) : q.size = q.toList.length := by
  simp [toList, q.size_eq]

end Queue

end GrammarSearch
