import GrammarSearch.Proofs.Search.Admission
import GrammarSearch.Search.Strategy
import Mathlib.Data.List.Perm.Basic

/-!
# The frontiers

The frontiers of breadth-first and of best-first search are lawful: a queue and
a heap hold what was pushed and did not come out. Of the queue more is said, that
its elements come out in order; what comes out of the heap may be any of its
elements as far as this module is concerned. So it does not matter which costs
the elements were given, and whether the cost function has a state.
-/

namespace GrammarSearch

variable {α N : Type}

/-! ## Heaps -/

theorem Heap.toList_join_perm (least : α) (a b : Heap α) :
    (Heap.join least a b).toList.Perm (least :: (a.toList ++ b.toList)) := by
  unfold Heap.join
  split
  · exact List.perm_append_comm.cons least
  · exact .refl _

/-- A merged heap holds the elements of both. -/
theorem Heap.toList_merge_perm (le : α → α → Bool) (a b : Heap α) :
    (Heap.merge le a b).toList.Perm (a.toList ++ b.toList) := by
  induction a generalizing b with
  | empty => exact .refl _
  | node size least left right _ ihRight =>
    induction b with
    | empty => simp [Heap.merge, Heap.mergeNode, Heap.toList]
    | node size' least' left' right' _ ih =>
      simp only [Heap.merge, Heap.mergeNode] at ih ⊢
      split
      · apply (Heap.toList_join_perm _ _ _).trans
        rw [Heap.toList, List.cons_append, List.append_assoc]
        exact ((ihRight _).append_left _).cons _
      · apply (Heap.toList_join_perm _ _ _).trans
        apply ((ih.append_left left'.toList).cons least').trans
        rw [Heap.toList.eq_2 size' least']
        exact ((List.perm_append_comm_assoc _ _ _).cons least').trans List.perm_middle.symm

theorem Heap.toList_push_perm (le : α → α → Bool) (a : α) (h : Heap α) :
    (h.push le a).toList.Perm (a :: h.toList) :=
  Heap.toList_merge_perm le (.node 1 a .empty .empty) h

theorem Heap.toList_of_pop? {le : α → α → Bool} {a : α} {h rest : Heap α}
    (popped : h.pop? le = some (a, rest)) : h.toList.Perm (a :: rest.toList) := by
  cases h with
  | empty => cases popped
  | node size least left right =>
    cases popped
    exact (Heap.toList_merge_perm le left right).symm.cons a

theorem Heap.toList_of_pop?_eq_none {le : α → α → Bool} {h : Heap α} (none : h.pop? le = none) :
    h.toList = [] := by
  cases h with
  | empty => rfl
  | node size least left right => cases none

/-! ## Queues -/

theorem Queue.toList_of_pop? {a : α} {q rest : Queue α} (popped : q.pop? = some (a, rest)) :
    q.toList = a :: rest.toList := by
  unfold Queue.pop? at popped
  split at popped
  · next first front at_front =>
    obtain ⟨rfl, rfl⟩ := Prod.mk.inj (Option.some.inj popped)
    simp [Queue.toList, at_front]
  · next no_front =>
    split at popped
    · cases popped
    · next first front at_back =>
      obtain ⟨rfl, rfl⟩ := Prod.mk.inj (Option.some.inj popped)
      simp [Queue.toList, no_front, at_back]

theorem Queue.toList_of_pop?_eq_none {q : Queue α} (none : q.pop? = none) : q.toList = [] := by
  unfold Queue.pop? at none
  split at none
  · cases none
  · next no_front =>
    split at none
    · next no_back => simp [Queue.toList, no_front, no_back]
    · cases none

/-! ## The frontier of breadth-first search -/

/-- The nodes of a queue with their depths, in order. -/
def Fifo.line (f : Fifo N) : List (N × Nat) := f.queue.toList.map fun e => (e.node, e.depth)

theorem Fifo.line_of_pop? {f rest : Fifo N} {entry : Entry N Unit}
    (popped : f.pop? = some (entry, rest)) :
    f.line = (entry.node, entry.depth) :: rest.line ∧ rest.visited = f.visited := by
  obtain ⟨⟨first, queue⟩, taken, same⟩ := Option.map_eq_some_iff.1 popped
  obtain ⟨rfl, rfl⟩ := Prod.mk.inj same
  exact ⟨by simp [Fifo.line, Queue.toList_of_pop? taken], rfl⟩

theorem Fifo.line_of_pop?_eq_none {f : Fifo N} (none : f.pop? = none) : f.line = [] := by
  rw [Fifo.line, Queue.toList_of_pop?_eq_none (Option.map_eq_none_iff.1 none)]
  rfl

/-- The nodes of a heap with their depths. -/
def BestFirst.held (f : BestFirst N) : List (N × Nat) :=
  f.heap.toList.map fun e => (e.node, e.depth)

/-- The nodes of a heap with their depths. -/
def Costed.held (f : Costed N) : List (N × Nat) := f.frontier.held

variable [Fingerprinted N]

theorem Fifo.visited_push (f : Fifo N) (node : N) (depth : Nat) :
    (f.push node depth).2.visited = f.visited.after (Fingerprinted.fingerprint node) := by
  rw [Fifo.push, Visited.enlist_eq, Visited.after]
  cases f.visited.knows (Fingerprinted.fingerprint node) <;> rfl

/-- A node that is let in comes last. -/
theorem Fifo.line_push (f : Fifo N) (node : N) (depth : Nat) :
    (f.push node depth).2.line = f.line ++ f.visited.admitted [(node, depth)] := by
  rw [Fifo.push, Visited.enlist_eq, Visited.admitted]
  cases f.visited.knows (Fingerprinted.fingerprint node) with
  | true => simp [Visited.admitted]
  | false => simp [Fifo.line, Visited.admitted]

instance : LawfulFrontier (Fifo N) N Unit where
  places f := ↑f.line
  visited := Fifo.visited
  fresh_push f node depth := by
    show (f.push node depth).1 = _
    rw [Fifo.push, Visited.enlist_eq]
    cases f.visited.knows (Fingerprinted.fingerprint node) <;> rfl
  visited_push := Fifo.visited_push
  places_push f node depth := by
    rw [Multiset.coe_add, ← Fifo.line_push]
    rfl
  places_of_pop?_eq_none f none := by
    rw [Fifo.line_of_pop?_eq_none none]
    rfl
  places_of_pop?_eq_some f rest entry popped := by
    rw [(Fifo.line_of_pop? popped).1]
    rfl
  visited_of_pop?_eq_some f rest entry popped := (Fifo.line_of_pop? popped).2

/-! ## The frontier of best-first search -/

/-- A duplicate is dropped. -/
theorem BestFirst.push_of_knows {f : BestFirst N} {node : N}
    (known : f.visited.knows (Fingerprinted.fingerprint node) = true) (depth : Nat)
    (cost : Binary64) : f.push node depth cost = (false, f) := by
  rw [BestFirst.push, Visited.enlist_eq, known]
  rfl

/-- Any other node enters the heap with its cost and the next number. -/
theorem BestFirst.push_of_new {f : BestFirst N} {node : N}
    (new : f.visited.knows (Fingerprinted.fingerprint node) = false) (depth : Nat)
    (cost : Binary64) :
    f.push node depth cost = (true,
      ⟨f.heap.push BestFirst.entryLe ⟨node, depth, ⟨cost, f.nextOrder⟩⟩,
        f.visited.after (Fingerprinted.fingerprint node), f.nextOrder + 1,
        max f.highWater
          (f.heap.push BestFirst.entryLe ⟨node, depth, ⟨cost, f.nextOrder⟩⟩).size⟩) := by
  rw [BestFirst.push, Visited.enlist_eq, Visited.after, new]
  rfl

theorem BestFirst.fresh_push (f : BestFirst N) (node : N) (depth : Nat) (cost : Binary64) :
    (f.push node depth cost).1 = !f.visited.knows (Fingerprinted.fingerprint node) := by
  cases known : f.visited.knows (Fingerprinted.fingerprint node) with
  | true => rw [BestFirst.push_of_knows known, Bool.not_true]
  | false => rw [BestFirst.push_of_new known, Bool.not_false]

theorem BestFirst.visited_push (f : BestFirst N) (node : N) (depth : Nat) (cost : Binary64) :
    (f.push node depth cost).2.visited =
      f.visited.after (Fingerprinted.fingerprint node) := by
  cases known : f.visited.knows (Fingerprinted.fingerprint node) with
  | true => rw [BestFirst.push_of_knows known, Visited.after_of_knows known]
  | false => rw [BestFirst.push_of_new known]

/-- A node that is let in joins the others. -/
theorem BestFirst.held_push_perm (f : BestFirst N) (node : N) (depth : Nat) (cost : Binary64) :
    (f.push node depth cost).2.held.Perm (f.held ++ f.visited.admitted [(node, depth)]) := by
  rw [Visited.admitted]
  cases known : f.visited.knows (Fingerprinted.fingerprint node) with
  | true =>
    rw [BestFirst.push_of_knows known]
    simp [Visited.admitted]
  | false =>
    rw [BestFirst.push_of_new known]
    apply ((Heap.toList_push_perm BestFirst.entryLe _ _).map _).trans
    exact (List.perm_append_singleton _ _).symm

omit [Fingerprinted N] in
/-- To take an entry out changes nothing but the heap. -/
theorem BestFirst.exists_heap_of_pop? {f rest : BestFirst N} {entry : Entry N Key}
    (popped : f.pop? = some (entry, rest)) :
    ∃ heap, f.heap.pop? BestFirst.entryLe = some (entry, heap) ∧ rest = { f with heap } := by
  obtain ⟨⟨least, heap⟩, out, same⟩ := Option.map_eq_some_iff.1 popped
  obtain ⟨rfl, rfl⟩ := Prod.mk.inj same
  exact ⟨heap, out, rfl⟩

omit [Fingerprinted N] in
theorem BestFirst.held_of_pop? {f rest : BestFirst N} {entry : Entry N Key}
    (popped : f.pop? = some (entry, rest)) :
    f.held.Perm ((entry.node, entry.depth) :: rest.held) ∧ rest.visited = f.visited := by
  obtain ⟨heap, out, rfl⟩ := BestFirst.exists_heap_of_pop? popped
  exact ⟨(Heap.toList_of_pop? out).map _, rfl⟩

omit [Fingerprinted N] in
theorem BestFirst.held_of_pop?_eq_none {f : BestFirst N} (none : f.pop? = none) : f.held = [] := by
  rw [BestFirst.held, Heap.toList_of_pop?_eq_none (Option.map_eq_none_iff.1 none)]
  rfl

/-! ## Frontiers with a cost function -/

theorem Costed.push_eq (f : Costed N) (node : N) (depth : Nat) :
    f.push node depth =
      ((f.frontier.push node depth (f.costs.get node).1).1,
        ⟨(f.frontier.push node depth (f.costs.get node).1).2, (f.costs.get node).2⟩) :=
  rfl

/-- A duplicate is dropped after its cost was asked for. -/
theorem Costed.push_of_knows {f : Costed N} {node : N}
    (known : f.frontier.visited.knows (Fingerprinted.fingerprint node) = true) (depth : Nat) :
    f.push node depth = (false, ⟨f.frontier, (f.costs.get node).2⟩) := by
  rw [Costed.push_eq, BestFirst.push_of_knows known]

/-- Any other node enters the heap at the cost that it was given. -/
theorem Costed.push_of_new {f : Costed N} {node : N}
    (new : f.frontier.visited.knows (Fingerprinted.fingerprint node) = false) (depth : Nat) :
    ∃ highWater, f.push node depth = (true,
      ⟨⟨f.frontier.heap.push BestFirst.entryLe
          ⟨node, depth, ⟨(f.costs.get node).1, f.frontier.nextOrder⟩⟩,
        f.frontier.visited.after (Fingerprinted.fingerprint node), f.frontier.nextOrder + 1,
        highWater⟩, (f.costs.get node).2⟩) := by
  rw [Costed.push_eq, BestFirst.push_of_new new]
  exact ⟨_, rfl⟩

theorem Costed.visited_push (f : Costed N) (node : N) (depth : Nat) :
    (f.push node depth).2.frontier.visited =
      f.frontier.visited.after (Fingerprinted.fingerprint node) :=
  f.frontier.visited_push node depth _

/-- To take an entry out leaves the cost function as it is. -/
theorem Costed.exists_frontier_of_pop? {f rest : Costed N} {entry : Entry N Key}
    (popped : Frontier.pop? f = some (entry, rest)) :
    ∃ frontier, f.frontier.pop? = some (entry, frontier) ∧ rest = { f with frontier } := by
  obtain ⟨⟨first, frontier⟩, taken, same⟩ := Option.map_eq_some_iff.1 popped
  obtain ⟨rfl, rfl⟩ := Prod.mk.inj same
  exact ⟨frontier, taken, rfl⟩

theorem Costed.exists_heap_of_pop? {f rest : Costed N} {entry : Entry N Key}
    (popped : Frontier.pop? f = some (entry, rest)) :
    ∃ heap, f.frontier.heap.pop? BestFirst.entryLe = some (entry, heap) ∧
      rest = { f with frontier := { f.frontier with heap } } := by
  obtain ⟨frontier, taken, rfl⟩ := Costed.exists_frontier_of_pop? popped
  obtain ⟨heap, out, rfl⟩ := BestFirst.exists_heap_of_pop? taken
  exact ⟨heap, out, rfl⟩

theorem Costed.held_of_pop? {f rest : Costed N} {entry : Entry N Key}
    (popped : Frontier.pop? f = some (entry, rest)) :
    f.held.Perm ((entry.node, entry.depth) :: rest.held) ∧
      rest.frontier.visited = f.frontier.visited := by
  obtain ⟨frontier, taken, rfl⟩ := Costed.exists_frontier_of_pop? popped
  exact BestFirst.held_of_pop? taken

theorem Costed.held_of_pop?_eq_none {f : Costed N} (none : Frontier.pop? f = none) :
    f.held = [] :=
  BestFirst.held_of_pop?_eq_none (Option.map_eq_none_iff.1 none)

instance : LawfulFrontier (Costed N) N Key where
  places f := ↑f.held
  visited f := f.frontier.visited
  fresh_push f node depth := f.frontier.fresh_push node depth _
  visited_push := Costed.visited_push
  places_push f node depth := by
    rw [Multiset.coe_add]
    exact Multiset.coe_eq_coe.2 (f.frontier.held_push_perm node depth _)
  places_of_pop?_eq_none f none := by
    rw [Costed.held_of_pop?_eq_none none]
    rfl
  places_of_pop?_eq_some f rest entry popped :=
    Multiset.coe_eq_coe.2 (Costed.held_of_pop? popped).1
  visited_of_pop?_eq_some f rest entry popped := (Costed.held_of_pop? popped).2

variable {S : Type}

theorem Stateful.exists_frontier_of_pop? {f rest : Stateful S N} {entry : Entry N Key}
    (popped : Frontier.pop? f = some (entry, rest)) :
    ∃ frontier, f.frontier.pop? = some (entry, frontier) ∧ rest = { f with frontier } := by
  obtain ⟨⟨first, frontier⟩, taken, same⟩ := Option.map_eq_some_iff.1 popped
  obtain ⟨rfl, rfl⟩ := Prod.mk.inj same
  exact ⟨frontier, taken, rfl⟩

/-- What a frontier holds does not depend on what the cost function answers. -/
instance : LawfulFrontier (Stateful S N) N Key where
  places f := ↑f.frontier.held
  visited f := f.frontier.visited
  fresh_push f node depth := f.frontier.fresh_push node depth _
  visited_push f node depth := f.frontier.visited_push node depth _
  places_push f node depth := by
    rw [Multiset.coe_add]
    exact Multiset.coe_eq_coe.2 (f.frontier.held_push_perm node depth _)
  places_of_pop?_eq_none f none := by
    rw [BestFirst.held_of_pop?_eq_none (Option.map_eq_none_iff.1 none)]
    rfl
  places_of_pop?_eq_some f rest entry popped := by
    obtain ⟨frontier, taken, rfl⟩ := Stateful.exists_frontier_of_pop? popped
    exact Multiset.coe_eq_coe.2 (BestFirst.held_of_pop? taken).1
  visited_of_pop?_eq_some f rest entry popped := by
    obtain ⟨frontier, taken, rfl⟩ := Stateful.exists_frontier_of_pop? popped
    exact (BestFirst.held_of_pop? taken).2

end GrammarSearch
