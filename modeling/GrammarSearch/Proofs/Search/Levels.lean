import GrammarSearch.Proofs.Search.Walk
import Mathlib.Data.List.Basic

/-!
# Levels of a graph

A level of a graph is the list of the ends of all walks of one length, in the
order of the walks: `Graph.level` makes the next level by expanding the nodes of
the last, so a node stands in a level as often as walks of that length lead to
it. `Graph.levels` is the first levels one after the other, where every node has
the number of its level with it. It comes from itself by one expansion
(`Graph.levels_succ`), which is how a search comes to it.
-/

namespace GrammarSearch

variable {N : Type}

/-! ## Walks of a length -/

/-- The walks that go one step further. -/
def Graph.prolong (graph : Graph N) (walk : List Nat) : List (List Nat) :=
  match graph.walk? graph.root walk with
  | none => []
  | some node => (List.range (graph.expand node).length).map fun choice => walk ++ [choice]

/-- The walks of a length from the root, in order. -/
def Graph.walks (graph : Graph N) : Nat → List (List Nat)
  | 0 => [[]]
  | k + 1 => (graph.walks k).flatMap graph.prolong

/-- The nodes at the ends of the walks of a length from the root, in order. -/
def Graph.level (graph : Graph N) : Nat → List N
  | 0 => [graph.root]
  | k + 1 => (graph.level k).flatMap graph.expand

variable {graph : Graph N}

theorem Graph.mem_prolong {walk longer : List Nat} :
    longer ∈ graph.prolong walk ↔
      ∃ choice, longer = walk ++ [choice] ∧ (graph.walk? graph.root longer).isSome := by
  unfold Graph.prolong
  cases ends : graph.walk? graph.root walk with
  | none =>
    simp only [List.not_mem_nil, false_iff]
    rintro ⟨choice, rfl, some⟩
    obtain ⟨last, reached⟩ := Option.isSome_iff_exists.1 some
    obtain ⟨middle, before, -⟩ := Graph.walk?_concat.1 reached
    rw [ends] at before
    cases before
  | some node =>
    simp only [List.mem_map, List.mem_range]
    constructor
    · rintro ⟨choice, bound, rfl⟩
      refine ⟨choice, rfl, ?_⟩
      rw [Graph.walk?_concat.2 ⟨node, ends, List.getElem?_eq_getElem bound⟩]
      rfl
    · rintro ⟨choice, rfl, some⟩
      obtain ⟨last, reached⟩ := Option.isSome_iff_exists.1 some
      obtain ⟨middle, before, step⟩ := Graph.walk?_concat.1 reached
      obtain rfl : node = middle := Option.some.inj (ends.symm.trans before)
      exact ⟨choice, (List.getElem?_eq_some_iff.1 step).1, rfl⟩

theorem Graph.mem_walks {k : Nat} {walk : List Nat} :
    walk ∈ graph.walks k ↔ (graph.walk? graph.root walk).isSome ∧ walk.length = k := by
  induction k generalizing walk with
  | zero =>
    rw [Graph.walks, List.mem_singleton, List.length_eq_zero_iff]
    refine ⟨fun nil => ⟨by rw [nil]; rfl, nil⟩, fun here => here.2⟩
  | succ k ih =>
    simp only [Graph.walks, List.mem_flatMap, Graph.mem_prolong]
    constructor
    · rintro ⟨shorter, member, choice, rfl, some⟩
      rw [List.length_append, (ih.1 member).2]
      exact ⟨some, rfl⟩
    · rintro ⟨some, length⟩
      obtain ⟨shorter, choice, rfl⟩ := List.eq_nil_or_concat walk |>.resolve_left fun empty => by
        simp [empty] at length
      rw [List.concat_eq_append] at some length
      rw [List.length_append, List.length_singleton] at length
      obtain ⟨last, reached⟩ := Option.isSome_iff_exists.1 some
      obtain ⟨middle, before, -⟩ := Graph.walk?_concat.1 reached
      rw [List.concat_eq_append]
      exact ⟨shorter, ih.2 ⟨by rw [before]; rfl, by omega⟩, choice, rfl, some⟩

theorem Graph.nodup_walks (graph : Graph N) (k : Nat) : (graph.walks k).Nodup := by
  induction k with
  | zero => exact List.nodup_singleton _
  | succ k ih =>
    refine List.nodup_flatMap.2 ⟨fun walk _ => ?_, ih.imp fun different => ?_⟩
    · unfold Graph.prolong
      cases graph.walk? graph.root walk with
      | none => exact List.nodup_nil
      | some node => exact List.nodup_range.map fun i j same => by simpa using same
    · refine List.disjoint_left.2 fun longer fromA fromB => different ?_
      obtain ⟨i, rfl, -⟩ := Graph.mem_prolong.1 fromA
      obtain ⟨j, same, -⟩ := Graph.mem_prolong.1 fromB
      exact (List.append_inj' same rfl).1

/-- The walks that go one step further from a node end at its children. -/
theorem Graph.filterMap_prolong (walk : List Nat) :
    (graph.prolong walk).filterMap (graph.walk? graph.root) =
      (graph.walk? graph.root walk).toList.flatMap graph.expand := by
  unfold Graph.prolong
  cases ends : graph.walk? graph.root walk with
  | none => rfl
  | some node =>
    have step (choice : Nat) :
        graph.walk? graph.root (walk ++ [choice]) = (graph.expand node)[choice]?.bind some := by
      rw [Graph.walk?_append, ends]
      rfl
    simp only [List.filterMap_map, Function.comp_def, step, filterMap_range_getElem?]
    simp

theorem Graph.level_eq_filterMap (k : Nat) :
    graph.level k = (graph.walks k).filterMap (graph.walk? graph.root) := by
  induction k with
  | zero => rfl
  | succ k ih =>
    rw [Graph.level, ih, Graph.walks, List.filterMap_flatMap, List.filterMap_eq_flatMap_toList,
      List.flatMap_assoc]
    simp only [Graph.filterMap_prolong]

theorem Graph.mem_level {k : Nat} {node : N} :
    node ∈ graph.level k ↔
      ∃ walk, graph.walk? graph.root walk = some node ∧ walk.length = k := by
  rw [Graph.level_eq_filterMap, List.mem_filterMap]
  constructor
  · rintro ⟨walk, member, reached⟩
    exact ⟨walk, reached, (Graph.mem_walks.1 member).2⟩
  · rintro ⟨walk, reached, length⟩
    exact ⟨walk, Graph.mem_walks.2 ⟨by rw [reached]; rfl, length⟩, reached⟩

/-! ## The first levels -/

/-- The children of a node of a level, in the next level. -/
def Graph.below (graph : Graph N) (place : N × Nat) : List (N × Nat) :=
  (graph.expand place.1).map fun child => (child, place.2 + 1)

/-- The root, and what is below the places. -/
def Graph.unfolded (graph : Graph N) (places : List (N × Nat)) : List (N × Nat) :=
  (graph.root, 0) :: places.flatMap graph.below

/-- The nodes of the first levels in order, each with the number of its level. -/
def Graph.levels (graph : Graph N) (k : Nat) : List (N × Nat) :=
  (List.range k).flatMap fun j => (graph.level j).map fun node => (node, j)

theorem Graph.levels_concat (k : Nat) :
    graph.levels (k + 1) = graph.levels k ++ (graph.level k).map fun node => (node, k) := by
  simp [Graph.levels, List.range_succ]

theorem Graph.flatMap_below_level (k : Nat) :
    ((graph.level k).map fun node => (node, k)).flatMap graph.below =
      (graph.level (k + 1)).map fun node => (node, k + 1) := by
  rw [Graph.level, List.map_flatMap, List.flatMap_map]
  rfl

/-- One level more is one expansion more. -/
theorem Graph.levels_succ (k : Nat) : graph.levels (k + 1) = graph.unfolded (graph.levels k) := by
  induction k with
  | zero => rfl
  | succ k ih =>
    calc graph.levels (k + 2)
      _ = graph.unfolded (graph.levels k) ++ (graph.level (k + 1)).map fun node => (node, k + 1) := by
        rw [Graph.levels_concat, ih]
      _ = graph.unfolded (graph.levels k ++ (graph.level k).map fun node => (node, k)) := by
        rw [Graph.unfolded, Graph.unfolded, List.flatMap_append, Graph.flatMap_below_level,
          List.cons_append]
      _ = graph.unfolded (graph.levels (k + 1)) := by rw [Graph.levels_concat]

theorem Graph.map_fst_levels (k : Nat) :
    (graph.levels k).map Prod.fst = (List.range k).flatMap graph.level := by
  simp [Graph.levels, List.map_flatMap, Function.comp_def]

theorem Graph.mem_levels {k : Nat} {place : N × Nat} :
    place ∈ graph.levels k ↔ place.2 < k ∧ place.1 ∈ graph.level place.2 := by
  simp only [Graph.levels, List.mem_flatMap, List.mem_range, List.mem_map]
  constructor
  · rintro ⟨j, less, node, member, rfl⟩
    exact ⟨less, member⟩
  · rintro ⟨less, member⟩
    exact ⟨place.2, less, place.1, member, rfl⟩

/-- Deeper nodes come later. -/
theorem Graph.levels_ascending (k : Nat) : (graph.levels k).Pairwise fun a b => a.2 ≤ b.2 := by
  induction k with
  | zero => exact .nil
  | succ k ih =>
    rw [Graph.levels_concat]
    refine List.pairwise_append.2 ⟨ih, ?_, fun a member b here => ?_⟩
    · exact List.pairwise_map.2 (List.pairwise_of_forall fun _ _ => Nat.le_refl k)
    · obtain ⟨node, -, rfl⟩ := List.mem_map.1 here
      exact Nat.le_of_lt (Graph.mem_levels.1 member).1

theorem Graph.unfolded_prefix (graph : Graph N) {first all : List (N × Nat)} (among : first <+: all) :
    graph.unfolded first <+: graph.unfolded all := by
  rcases among with ⟨more, rfl⟩
  rw [Graph.unfolded, Graph.unfolded, List.flatMap_append, ← List.cons_append]
  exact List.prefix_append _ _

end GrammarSearch
