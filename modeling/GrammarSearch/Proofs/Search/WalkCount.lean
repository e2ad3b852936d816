import GrammarSearch.Proofs.Search.Bounded
import GrammarSearch.Proofs.Search.Course
import GrammarSearch.Proofs.Search.Coverage
import Mathlib.Data.Finset.Card
import Mathlib.Data.Multiset.Filter

/-!
# Bounded searches and walks

A search that discards nodes below a depth uses up the walks within its bound,
in whatever order its frontier gives them out: it ends after finitely many
rounds, expands only ends of such walks, and if it keeps duplicates it expands
the end of each of them and discards the ends of the walks that are one step
longer (`Traversal.TakesWalks`).

The places expanded and discarded are, up to their order, the root and what is
below the places expanded. There is one such family of places only, the levels
of the graph (`Graph.perm_levels_of_perm_unfolded`).
-/

namespace GrammarSearch

open LawfulFrontier

variable {F N K : Type} {graph : Graph N}

/-! ## The levels within a bound -/

theorem Graph.filter_unfolded (places : List (N × Nat)) (j : Nat) :
    (graph.unfolded places).filter (fun place => place.2 < j + 1) =
      graph.unfolded (places.filter fun place => place.2 < j) := by
  have below (place : N × Nat) : (graph.below place).filter (fun place => place.2 < j + 1) =
      if place.2 < j then graph.below place else [] := by
    rw [Graph.below, List.filter_map]
    split <;> simp_all [Function.comp_def]
  rw [Graph.unfolded, Graph.unfolded, List.filter_cons_of_pos (by simp), List.filter_flatMap]
  congr 1
  induction places with
  | nil => rfl
  | cons place places ih =>
    rw [List.flatMap_cons, List.filter_cons, below, ih]
    by_cases shallow : place.2 < j <;> simp [shallow]

/-- Places that come from themselves by one expansion, apart from some that are below the bound, are
the levels within the bound, and the others are the next level. -/
theorem Graph.perm_levels_of_perm_unfolded {expanded pruned : List (N × Nat)} {bound : Nat}
    (all : (expanded ++ pruned).Perm (graph.unfolded expanded))
    (shallow : ∀ place ∈ expanded, place.2 ≤ bound) (deep : ∀ place ∈ pruned, bound < place.2) :
    expanded.Perm (graph.levels (bound + 1)) ∧
      pruned.Perm ((graph.level (bound + 1)).map fun node => (node, bound + 1)) := by
  have within : ∀ j ≤ bound + 1,
      (expanded.filter fun place => place.2 < j).Perm (graph.levels j) := by
    intro j
    induction j with
    | zero => simp [Graph.levels]
    | succ j ih =>
      intro le
      have filtered := all.filter fun place => place.2 < j + 1
      have none : (pruned.filter fun place => place.2 < j + 1) = [] := by
        refine List.filter_eq_nil_iff.2 fun place member => ?_
        have below := deep place member
        simp only [decide_eq_true_eq]
        omega
      rw [List.filter_append, none, List.append_nil, Graph.filter_unfolded] at filtered
      rw [Graph.levels_succ]
      exact filtered.trans (((ih (by omega)).flatMap_right _).cons _)
  have all_within : (expanded.filter fun place => place.2 < bound + 1) = expanded :=
    List.filter_eq_self.2 fun place member => by
      simpa using Nat.lt_succ_of_le (shallow place member)
  have levels := within (bound + 1) (Nat.le_refl _)
  rw [all_within] at levels
  refine ⟨levels, (List.perm_append_left_iff expanded).1 ?_⟩
  have next : (graph.unfolded expanded).Perm (graph.levels (bound + 2)) := by
    rw [Graph.levels_succ]
    exact (levels.flatMap_right _).cons _
  rw [Graph.levels_concat] at next
  exact all.trans (next.trans (levels.symm.append_right _))

theorem Graph.nodup_walks_within (graph : Graph N) (k : Nat) : ((List.range k).flatMap graph.walks).Nodup := by
  refine List.nodup_flatMap.2 ⟨fun j _ => graph.nodup_walks j, ?_⟩
  refine List.nodup_range.imp fun different => List.disjoint_left.2 fun walk fromA fromB => different ?_
  rw [← (Graph.mem_walks.1 fromA).2, ← (Graph.mem_walks.1 fromB).2]

theorem Graph.mem_walks_within {k : Nat} {walk : List Nat} :
    walk ∈ (List.range (k + 1)).flatMap graph.walks ↔
      (graph.walk? graph.root walk).isSome ∧ walk.length ≤ k := by
  simp only [List.mem_flatMap, List.mem_range, Graph.mem_walks]
  constructor
  · intro among
    obtain ⟨j, less, reached, rfl⟩ := among
    exact ⟨reached, Nat.le_of_lt_succ less⟩
  · intro within
    exact ⟨walk.length, Nat.lt_succ_of_le within.2, within.1, rfl⟩

theorem Graph.length_level (k : Nat) : (graph.level k).length = (graph.walks k).length := by
  rw [Graph.level_eq_filterMap, List.filterMap_length_eq_length]
  exact fun walk member => (Graph.mem_walks.1 member).1

/-! ## Searches of any kind -/

variable [Fingerprinted N] [Frontier F N K] [LawfulFrontier F N K]

/-- The search takes the walks of the graph within the bound of the policy. -/
structure Traversal.TakesWalks (graph : Graph N) (policy : Policy) (start : Traversal F N) :
    Prop where
  /-- It has finitely many items and comes to each after finitely many rounds, whatever the goal
  is. -/
  ends : ∃ enough, ∀ {E σ : Type} {goal : N → StateM σ (Except E Bool)} {state after : σ}
    {items : List (Item N E)} {steps : List (Step N K)} {last : Traversal F N},
    start.Pulled goal state items steps last after →
      items.length ≤ enough ∧ ∀ rounds ≥ enough, (last.next goal rounds after).item ≠ .unfinished
  /-- It can be asked for all its items, and has then ended. -/
  completes : ∀ {E σ : Type} (goal : N → StateM σ (Except E Bool)) (state : σ),
    ∃ items steps last after, start.Drained goal state items steps last after ∧
      start.Pulled goal state items steps last after ∧ last.ended = true
  /-- What it expands or hands out is at the end of a walk within the bound. -/
  within : ∀ {E σ : Type} {goal : N → StateM σ (Except E Bool)} {state after : σ}
    {items : List (Item N E)} {steps : List (Step N K)} {last : Traversal F N},
    start.Pulled goal state items steps last after →
      ∀ node, node ∈ expandedNodes steps ∨ .goal node ∈ items →
        ∃ walk, graph.walk? graph.root walk = some node ∧ walk.length ≤ policy.maxDepth
  /-- If nothing is dropped, it has expanded the ends of all walks within the bound when it has ended,
  and has discarded those of the walks that are one step longer. -/
  exact : policy.dedup = .off → policy.maxExpansions = none →
    ∀ {E σ : Type} {goal : N → StateM σ (Except E Bool)} {state after : σ}
      {items : List (Item N E)} {steps : List (Step N K)} {last : Traversal F N},
      start.Pulled goal state items steps last after → last.ended = true →
        (∃ walks : Finset (List Nat),
          (∀ walk, walk ∈ walks ↔
            (graph.walk? graph.root walk).isSome ∧ walk.length ≤ policy.maxDepth) ∧
          (expandedNodes steps : Multiset N) = walks.val.filterMap (graph.walk? graph.root)) ∧
        ∃ walks : Finset (List Nat),
          (∀ walk, walk ∈ walks ↔
            (graph.walk? graph.root walk).isSome ∧ walk.length = policy.maxDepth + 1) ∧
          last.stats.depthPruned = walks.card

variable {policy : Policy} {limits : Limits} {dedup : Dedup} {start t : Traversal F N} {bound : Nat}
  {steps : List (Step N K)}

/-- A bounded search that keeps duplicates and has nothing left has taken all levels within its
bound. -/
theorem Traversal.Ledger.perm_levels (ledger : t.Ledger graph limits .off steps)
    (bounded : limits.maxDepth = some bound) (below : bound < maxCountedDepth)
    (exhausted : t.stats.termination = some .frontierExhausted) :
    ((expandedEntries steps).map Entry.place).Perm (graph.levels (bound + 1)) ∧
      ((prunedEntries steps).map Entry.place).Perm
        ((graph.level (bound + 1)).map fun node => (node, bound + 1)) := by
  have shallow := ledger.depth_le_of_expanded bounded
  have deep := ledger.lt_depth_of_pruned bounded
  have all := ledger.perm_of_exhausted exhausted
  rw [Visited.admitted_off,
    offers_eq_unfolded fun e member => Nat.lt_of_le_of_lt (shallow e member) below] at all
  exact Graph.perm_levels_of_perm_unfolded all (List.forall_mem_map.2 shallow)
    (List.forall_mem_map.2 deep)

/-- The ends of all walks within the bound are expanded. -/
theorem Traversal.Ledger.exists_walks_expanded (ledger : t.Ledger graph limits .off steps)
    (bounded : limits.maxDepth = some bound) (below : bound < maxCountedDepth)
    (exhausted : t.stats.termination = some .frontierExhausted) :
    ∃ walks : Finset (List Nat),
      (∀ walk, walk ∈ walks ↔
        (graph.walk? graph.root walk).isSome ∧ walk.length ≤ bound) ∧
      (expandedNodes steps : Multiset N) = walks.val.filterMap (graph.walk? graph.root) := by
  refine ⟨⟨_, Multiset.coe_nodup.2 (graph.nodup_walks_within (bound + 1))⟩,
    fun _ => Graph.mem_walks_within, ?_⟩
  have nodes := (ledger.perm_levels bounded below exhausted).1.map Prod.fst
  rw [List.map_map, Graph.map_fst_levels] at nodes
  rw [Multiset.filterMap_coe, List.filterMap_flatMap]
  simp only [← Graph.level_eq_filterMap]
  exact Multiset.coe_eq_coe.2 nodes

/-- The walks that are one step longer are discarded. -/
theorem Traversal.Ledger.exists_walks_pruned (ledger : t.Ledger graph limits .off steps)
    (bounded : limits.maxDepth = some bound) (below : bound < maxCountedDepth)
    (exhausted : t.stats.termination = some .frontierExhausted) :
    ∃ walks : Finset (List Nat),
      (∀ walk, walk ∈ walks ↔
        (graph.walk? graph.root walk).isSome ∧ walk.length = bound + 1) ∧
      t.stats.depthPruned = walks.card := by
  refine ⟨⟨_, Multiset.coe_nodup.2 (graph.nodup_walks (bound + 1))⟩, fun _ => Graph.mem_walks, ?_⟩
  have count := (ledger.perm_levels bounded below exhausted).2.length_eq
  rw [List.length_map, List.length_map, ← ledger.depthPruned_eq, Graph.length_level] at count
  exact count

theorem Traversal.Begins.takesWalks (begins : start.Begins graph policy)
    (below : policy.maxDepth < maxCountedDepth) : start.TakesWalks graph policy := by
  have first := begins.ledger
  obtain ⟨enough, ended⟩ := begins.exists_rounds_ended below
  refine ⟨⟨enough, fun pulled => ⟨pulled.length_items_le ended, fun rounds more =>
    pulled.next_ne_unfinished ended more⟩⟩, ?_, ?_, ?_⟩
  · intro E σ goal state
    obtain ⟨items, steps, last, after, course⟩ := Traversal.exists_drained goal state ended
    exact ⟨items, steps, last, after, course, course.pulled⟩
  · intro E σ goal state after items steps last pulled node either
    obtain ⟨n, same, verdicts, -⟩ := pulled.exists_rounds
    rw [same.expandedNodes_eq] at either
    have expanded : node ∈ expandedNodes (start.rounds n).1 := by
      rcases either with expanded | handed_out
      · exact expanded
      · apply mem_of_goal_mem_testAll
        rw [verdicts]
        exact handed_out
    exact (first.rounds n).walk_of_expanded below rfl expanded
  · intro off unlimited E σ goal state after items steps last pulled done
    obtain ⟨n, same, -, left⟩ := pulled.exists_rounds
    rw [left, Traversal.ended_addGoals] at done
    have ledger := first.rounds n
    have exhausted := ledger.exhausted_of_ended unlimited done
    rw [off] at ledger
    rw [same.expandedNodes_eq, left]
    exact ⟨ledger.exists_walks_expanded rfl below exhausted,
      ledger.exists_walks_pruned rfl below exhausted⟩

omit [Frontier F N K] [LawfulFrontier F N K] in
/-- A best-first search takes the walks within its bound, whatever the costs are. So does every
search with the same bounds, however its frontier chooses the next entry: a cost function may answer
differently each time that it is asked. -/
theorem bestFirst_takes_walks (graph : Graph N) (policy : Policy)
    (valid : policy.validate = .ok ()) (below : policy.maxDepth < maxCountedDepth) :
    (∀ costs : Costs N, ∃ start, bestFirst graph costs policy = .ok start ∧
      start.TakesWalks graph policy) ∧
    ∀ {F K : Type} [Frontier F N K] [LawfulFrontier F N K] (start : Traversal F N),
      start.Begins graph policy → start.TakesWalks graph policy := by
  refine ⟨fun costs => ?_, fun start begins => begins.takesWalks below⟩
  obtain ⟨start, begun⟩ := exists_bestFirst graph costs valid
  exact ⟨start, begun, (begins_of_bestFirst begun).takesWalks below⟩

/-! ## An endless graph -/

/-- Every node has two children, and none is met twice. -/
def endless : Graph Numbered where
  root := ⟨0⟩
  expand node := [⟨2 * node.number + 1⟩, ⟨2 * node.number + 2⟩]

/-- To depth two the endless graph is searched to an end. Seven walks lead to the nodes expanded, and
eight are one step longer. -/
theorem endless_takes_walks :
    (⟨2, none, .off⟩ : Policy).validate = .ok () ∧ 2 < maxCountedDepth ∧
      ∃ start, bestFirst endless (.direct fun _ => .zero) ⟨2, none, .off⟩ = .ok start ∧
        start.TakesWalks endless ⟨2, none, .off⟩ ∧
        ∃ items steps last after, start.Drained (detourGoal 6) () items steps last after ∧
          (expandedNodes steps).Perm [⟨0⟩, ⟨1⟩, ⟨2⟩, ⟨3⟩, ⟨4⟩, ⟨5⟩, ⟨6⟩] ∧
          last.stats.depthPruned = 8 := by
  have below : 2 < maxCountedDepth := by decide
  obtain ⟨start, begun, takes⟩ :=
    (bestFirst_takes_walks endless ⟨2, none, .off⟩ rfl below).1 (.direct fun _ => .zero)
  obtain ⟨items, steps, last, after, course, pulled, ended⟩ := takes.completes (detourGoal 6) ()
  obtain ⟨⟨walks, within, expanded⟩, ⟨longer, beyond, pruned⟩⟩ := takes.exact rfl rfl pulled ended
  refine ⟨rfl, below, start, begun, takes, items, steps, last, after, course, ?_, ?_⟩
  · obtain rfl : walks = ⟨_, Multiset.coe_nodup.2 (endless.nodup_walks_within 3)⟩ :=
      Finset.ext fun walk => (within walk).trans Graph.mem_walks_within.symm
    rw [Multiset.filterMap_coe] at expanded
    exact Multiset.coe_eq_coe.1 expanded
  · obtain rfl : longer = ⟨_, Multiset.coe_nodup.2 (endless.nodup_walks 3)⟩ :=
      Finset.ext fun walk => (beyond walk).trans Graph.mem_walks.symm
    exact pruned

end GrammarSearch
