import GrammarSearch.Search.Graph
import Mathlib.Data.List.Induction
import Mathlib.Data.List.Nodup

/-!
# Walks of a graph

A walk starts at a node and takes, at every node it comes to, the child at a
given position, so a list of positions names it. A graph may have many walks to
one node: it may join them, come back to a node, or list a child twice. In a
tree no two walks from the root end at one node, which is what makes a search
of a tree meet every node once.
-/

namespace GrammarSearch

variable {N : Type}

/-- To go through a list by positions is to go through its elements. -/
theorem filterMap_range_getElem? {α β : Type} (f : α → Option β) (l : List α) :
    (List.range l.length).filterMap (fun i => l[i]?.bind f) = l.filterMap f := by
  induction l with
  | nil => rfl
  | cons a l ih =>
    rw [List.length_cons, List.range_succ_eq_map, List.filterMap_cons, List.filterMap_map]
    cases value : f a <;> simp [value, ih]

/-- The node to which a list of choices of children leads. -/
def Graph.walk? (graph : Graph N) (node : N) : List Nat → Option N
  | [] => some node
  | choice :: choices =>
    (graph.expand node)[choice]?.bind fun child => graph.walk? child choices

/-- Some walk from the root ends at the node. -/
def Graph.Reachable (graph : Graph N) (node : N) : Prop :=
  ∃ choices, graph.walk? graph.root choices = some node

/-- No two walks from the root end at one node. -/
def Graph.IsTree (graph : Graph N) : Prop :=
  ∀ ⦃choices others : List Nat⦄ ⦃node : N⦄, graph.walk? graph.root choices = some node →
    graph.walk? graph.root others = some node → choices = others

variable {graph : Graph N}

@[simp] theorem Graph.walk?_nil (node : N) : graph.walk? node [] = some node := rfl

/-- A walk goes on from where its beginning ends. -/
theorem Graph.walk?_append (node : N) (choices more : List Nat) :
    graph.walk? node (choices ++ more) =
      (graph.walk? node choices).bind fun middle => graph.walk? middle more := by
  induction choices generalizing node with
  | nil => rfl
  | cons choice choices ih =>
    simp only [List.cons_append, Graph.walk?]
    cases (graph.expand node)[choice]? with
    | none => rfl
    | some child => exact ih child

/-- The last step of a walk goes from a node on the walk to one of its children. -/
theorem Graph.walk?_concat {node last : N} {choices : List Nat} {choice : Nat} :
    graph.walk? node (choices ++ [choice]) = some last ↔
      ∃ middle, graph.walk? node choices = some middle ∧
        (graph.expand middle)[choice]? = some last := by
  rw [Graph.walk?_append]
  simp [Graph.walk?, Option.bind_eq_some_iff]

theorem Graph.Reachable.root : graph.Reachable graph.root := ⟨[], rfl⟩

theorem Graph.Reachable.child {node child : N} (reached : graph.Reachable node)
    (member : child ∈ graph.expand node) : graph.Reachable child := by
  rcases reached with ⟨choices, walk⟩
  obtain ⟨choice, at_choice⟩ := List.mem_iff_getElem?.1 member
  exact ⟨choices ++ [choice], Graph.walk?_concat.2 ⟨node, walk, at_choice⟩⟩

/-- What holds of the root and passes to children holds of every reachable node. -/
theorem Graph.Reachable.induction {motive : N → Prop} (atRoot : motive graph.root)
    (atChild : ∀ node child, graph.Reachable node → motive node →
      child ∈ graph.expand node → motive child)
    {node : N} (reached : graph.Reachable node) : motive node := by
  rcases reached with ⟨choices, walk⟩
  induction choices using List.reverseRecOn generalizing node with
  | nil => cases walk; exact atRoot
  | append_singleton choices choice ih =>
    obtain ⟨middle, before, step⟩ := Graph.walk?_concat.1 walk
    exact atChild middle node ⟨choices, before⟩ (ih before) (List.mem_of_getElem? step)

/-! ## Trees -/

/-- The root of a tree is no node's child. -/
theorem Graph.IsTree.root_notMem_expand (tree : graph.IsTree) {node : N}
    (reached : graph.Reachable node) : graph.root ∉ graph.expand node := by
  intro member
  rcases reached with ⟨choices, walk⟩
  obtain ⟨choice, at_choice⟩ := List.mem_iff_getElem?.1 member
  have around := tree (Graph.walk?_concat.2 ⟨node, walk, at_choice⟩) (Graph.walk?_nil _)
  simp at around

/-- In a tree a child stands once among the children of its one parent. -/
theorem Graph.IsTree.step_unique (tree : graph.IsTree) {a b child : N} {i j : Nat}
    (reachedA : graph.Reachable a) (reachedB : graph.Reachable b)
    (fromA : (graph.expand a)[i]? = some child) (fromB : (graph.expand b)[j]? = some child) :
    a = b ∧ i = j := by
  rcases reachedA with ⟨choices, walkA⟩
  rcases reachedB with ⟨others, walkB⟩
  have same := tree (Graph.walk?_concat.2 ⟨a, walkA, fromA⟩) (Graph.walk?_concat.2 ⟨b, walkB, fromB⟩)
  obtain ⟨rfl, last⟩ := List.append_inj' same rfl
  exact ⟨Option.some.inj (walkA.symm.trans walkB), List.singleton_inj.1 last⟩

theorem Graph.IsTree.nodup_expand (tree : graph.IsTree) {node : N}
    (reached : graph.Reachable node) : (graph.expand node).Nodup := by
  rw [List.nodup_iff_getElem?_ne_getElem?]
  intro i j before bound same
  obtain ⟨child, at_j⟩ : ∃ child, (graph.expand node)[j]? = some child :=
    ⟨_, List.getElem?_eq_getElem bound⟩
  have := (tree.step_unique reached reached (same.trans at_j) at_j).2
  omega

/-- The root of a tree and the children of distinct reachable nodes are distinct. -/
theorem Graph.IsTree.nodup_root_cons_flatMap (tree : graph.IsTree) {nodes : List N}
    (reached : ∀ node ∈ nodes, graph.Reachable node) (distinct : nodes.Nodup) :
    (graph.root :: nodes.flatMap graph.expand).Nodup := by
  refine List.nodup_cons.2 ⟨?_, List.nodup_flatMap.2 ⟨?_, ?_⟩⟩
  · intro member
    obtain ⟨node, here, child⟩ := List.mem_flatMap.1 member
    exact tree.root_notMem_expand (reached node here) child
  · exact fun node here => tree.nodup_expand (reached node here)
  · refine List.Pairwise.imp_of_mem ?_ distinct
    intro a b hereA hereB different
    refine List.disjoint_left.2 fun child fromA fromB => ?_
    obtain ⟨i, at_i⟩ := List.mem_iff_getElem?.1 fromA
    obtain ⟨j, at_j⟩ := List.mem_iff_getElem?.1 fromB
    exact different (tree.step_unique (reached a hereA) (reached b hereB) at_i at_j).1

end GrammarSearch
