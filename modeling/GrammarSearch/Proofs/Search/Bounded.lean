import GrammarSearch.Proofs.Search.Course
import GrammarSearch.Proofs.Search.Ledger
import Mathlib.Algebra.BigOperators.Group.Multiset.Basic
import Mathlib.Algebra.Order.BigOperators.Group.List
import Mathlib.Algebra.Order.Group.Nat

/-!
# Searches that are bounded by depth

A search that discards nodes below a depth ends after finitely many rounds,
whatever the graph and the order in which nodes come out: there are finitely
many walks within the bound, and every round uses one up (`Graph.weight`).

When a bounded search of a tree has ended, it has expanded exactly the nodes
within the bound, each once, and discarded exactly their children below it.

All this is said of frontiers of every kind (`BoundedCourse`). A best-first
search is bounded so (`BestFirstCourse.bounded`), and still is when its cost
function answers differently each time that it is asked.
-/

namespace GrammarSearch

open LawfulFrontier

variable {F N K : Type}

/-! ## Surveys of trees -/

/-- The nodes that were discarded for their depth, in order. -/
def prunedNodes (steps : List (Step N K)) : List N := (prunedEntries steps).map (·.node)

/-- A search of a tree has come to its end: every node that it met is expanded or discarded, by
its depth. -/
structure Survey (graph : Graph N) (bound : Nat) (steps : List (Step N K)) : Prop where
  tree : graph.IsTree
  counted : bound < maxCountedDepth
  perm_met : (expandedNodes steps ++ prunedNodes steps).Perm (met graph steps)
  placed_expanded : ∀ e ∈ expandedEntries steps, graph.Places e.place
  placed_pruned : ∀ e ∈ prunedEntries steps, graph.Places e.place
  shallow : ∀ e ∈ expandedEntries steps, e.depth ≤ bound
  deep : ∀ e ∈ prunedEntries steps, bound < e.depth

variable {graph : Graph N} {bound : Nat} {steps : List (Step N K)} {node : N} {walk : List Nat}

/-- In a tree a node has one depth. -/
theorem Graph.Places.depth_eq {place : N × Nat} (placed : graph.Places place) (tree : graph.IsTree)
    (reached : graph.walk? graph.root walk = some place.1) :
    place.2 = min walk.length maxCountedDepth := by
  rcases placed with ⟨other, same, depth⟩
  rw [depth, tree same reached]

theorem Survey.length_le_of_expanded (survey : Survey graph bound steps)
    (expanded : node ∈ expandedNodes steps) (reached : graph.walk? graph.root walk = some node) :
    walk.length ≤ bound := by
  obtain ⟨e, member, rfl⟩ := List.mem_map.1 expanded
  have depth := (survey.placed_expanded e member).depth_eq survey.tree reached
  have within := survey.shallow e member
  have counted := survey.counted
  simp only [Entry.place] at depth
  omega

theorem Survey.lt_length_of_pruned (survey : Survey graph bound steps)
    (pruned : node ∈ prunedNodes steps) (reached : graph.walk? graph.root walk = some node) :
    bound < walk.length := by
  obtain ⟨e, member, rfl⟩ := List.mem_map.1 pruned
  have depth := (survey.placed_pruned e member).depth_eq survey.tree reached
  have below := survey.deep e member
  simp only [Entry.place] at depth
  omega

theorem Survey.expanded_or_pruned (survey : Survey graph bound steps) (here : node ∈ met graph steps) :
    node ∈ expandedNodes steps ∨ node ∈ prunedNodes steps :=
  List.mem_append.1 (survey.perm_met.mem_iff.2 here)

theorem Survey.expanded_of_met (survey : Survey graph bound steps) (here : node ∈ met graph steps)
    (reached : graph.walk? graph.root walk = some node) (within : walk.length ≤ bound) :
    node ∈ expandedNodes steps := by
  rcases survey.expanded_or_pruned here with expanded | pruned
  · exact expanded
  · have below := survey.lt_length_of_pruned pruned reached
    omega

/-- A survey leaves out no node within the bound. -/
theorem Survey.expanded_of_length_le (survey : Survey graph bound steps)
    (reached : graph.walk? graph.root walk = some node) (within : walk.length ≤ bound) :
    node ∈ expandedNodes steps := by
  induction walk using List.reverseRecOn generalizing node with
  | nil =>
    cases reached
    exact survey.expanded_of_met List.mem_cons_self (Graph.walk?_nil _) within
  | append_singleton walk choice ih =>
    obtain ⟨parent, before, step⟩ := Graph.walk?_concat.1 reached
    rw [List.length_append, List.length_singleton] at within
    have expanded := ih before (by omega)
    refine survey.expanded_of_met ?_ reached (by simpa using within)
    exact mem_met_of_expanded expanded (List.mem_of_getElem? step)

/-- A survey expands the nodes within the bound and no others. -/
theorem Survey.mem_expandedNodes (survey : Survey graph bound steps) :
    node ∈ expandedNodes steps ↔
      ∃ walk, graph.walk? graph.root walk = some node ∧ walk.length ≤ bound := by
  refine ⟨fun expanded => ?_, fun ⟨walk, reached, within⟩ =>
    survey.expanded_of_length_le reached within⟩
  obtain ⟨e, member, rfl⟩ := List.mem_map.1 expanded
  obtain ⟨walk, reached, -⟩ := survey.placed_expanded e member
  exact ⟨walk, reached, survey.length_le_of_expanded expanded reached⟩

/-- A survey discards the nodes that are one step below the bound and no others. -/
theorem Survey.mem_prunedNodes (survey : Survey graph bound steps) :
    node ∈ prunedNodes steps ↔
      ∃ walk, graph.walk? graph.root walk = some node ∧ walk.length = bound + 1 := by
  constructor
  · intro pruned
    have here : node ∈ met graph steps := survey.perm_met.subset (List.mem_append_right _ pruned)
    rcases List.mem_cons.1 here with rfl | child
    · have below := survey.lt_length_of_pruned pruned (Graph.walk?_nil _)
      simp at below
    · obtain ⟨parent, expanded, member⟩ := List.mem_flatMap.1 child
      obtain ⟨walk, before, within⟩ := survey.mem_expandedNodes.1 expanded
      obtain ⟨choice, step⟩ := List.mem_iff_getElem?.1 member
      have reached := Graph.walk?_concat.2 ⟨parent, before, step⟩
      have below := survey.lt_length_of_pruned pruned reached
      refine ⟨walk ++ [choice], reached, ?_⟩
      simp only [List.length_append, List.length_singleton] at below ⊢
      omega
  · rintro ⟨walk, reached, length⟩
    obtain ⟨walk, choice, rfl⟩ := List.eq_nil_or_concat walk |>.resolve_left fun empty => by
      simp [empty] at length
    rw [List.concat_eq_append] at reached length
    rw [List.length_append, List.length_singleton] at length
    obtain ⟨parent, before, step⟩ := Graph.walk?_concat.1 reached
    have expanded := survey.expanded_of_length_le before (by omega)
    have here := mem_met_of_expanded expanded (List.mem_of_getElem? step)
    refine (survey.expanded_or_pruned here).resolve_left fun again => ?_
    have within := survey.length_le_of_expanded again reached
    rw [List.length_append, List.length_singleton] at within
    omega

/-! ## Termination -/

/-- The number of walks from a node that have at most so many steps. -/
def Graph.weight (graph : Graph N) : Nat → N → Nat
  | 0, _ => 1
  | steps + 1, node => 1 + ((graph.expand node).map (graph.weight steps)).sum

theorem Graph.weight_pos (graph : Graph N) (steps : Nat) (node : N) :
    0 < graph.weight steps node := by
  cases steps with
  | zero => exact Nat.one_pos
  | succ steps => exact Nat.add_pos_left Nat.one_pos _

/-- The rounds that a place can cost a search with the bound. A node below the bound costs one. -/
def Graph.debt (graph : Graph N) (bound : Nat) (place : N × Nat) : Nat :=
  graph.weight (bound + 1 - place.2) place.1

theorem Graph.debt_pos (graph : Graph N) (bound : Nat) (place : N × Nat) :
    0 < graph.debt bound place :=
  graph.weight_pos _ _

/-- An entry within the bound costs one round more than its children. -/
theorem Graph.debt_place (graph : Graph N) {bound : Nat} (counted : bound < maxCountedDepth)
    {entry : Entry N K} (within : entry.depth ≤ bound) :
    graph.debt bound entry.place = 1 + ((entry.offers graph).map (graph.debt bound)).sum := by
  have deeper : childDepth entry.depth = entry.depth + 1 := by
    rw [childDepth]
    omega
  have left : bound + 1 - entry.depth = (bound - entry.depth) + 1 := by omega
  have below : bound + 1 - (entry.depth + 1) = bound - entry.depth := by omega
  rw [Graph.debt, Entry.place, left, Graph.weight, Entry.offers, List.map_map, deeper]
  simp only [Function.comp_def, Graph.debt, below]

theorem Limits.prunes_eq {limits : Limits} (bounded : limits.maxDepth = some bound) (depth : Nat) :
    limits.prunes depth = decide (bound < depth) := by
  rw [Limits.prunes, bounded]

variable [Fingerprinted N] [Frontier F N K] [LawfulFrontier F N K] {t : Traversal F N}

/-- The rounds that a search with the bound can still take, the last one not counted. -/
def Traversal.debt (t : Traversal F N) (bound : Nat) : Nat :=
  ((places t.frontier).map (t.graph.debt bound)).sum

/-- A round ends a bounded search or lessens its debt. -/
theorem Traversal.debt_step {bound : Nat} (counted : bound < maxCountedDepth)
    (bounded : t.limits.maxDepth = some bound) :
    t.step.2.limits = t.limits ∧ (t.step.2.ended = true ∨ t.step.2.debt bound < t.debt bound) := by
  rcases t.step_outcome with ⟨reason, step⟩ | ⟨entry, frontier, popped, -, step⟩ |
    ⟨entry, frontier, popped, shallow, step⟩ <;> rw [step]
  · exact ⟨rfl, .inl rfl⟩
  · refine ⟨rfl, .inr ?_⟩
    have cost := t.graph.debt_pos bound entry.place
    simp only [Traversal.debt, Traversal.prune, places_of_pop?_eq_some _ _ _ popped,
      Multiset.map_cons, Multiset.sum_cons]
    exact Nat.lt_add_of_pos_left cost
  · refine ⟨rfl, .inr ?_⟩
    have within : entry.depth ≤ bound := by
      simpa [Limits.prunes_eq bounded] using shallow
    have cost := t.graph.debt_place counted within
    obtain ⟨-, -, held⟩ := Traversal.offer_spec (childDepth entry.depth) frontier
      (t.graph.expand entry.node)
    have fewer : (((visited frontier).admitted (entry.offers t.graph)).map (t.graph.debt bound)).sum ≤
        ((entry.offers t.graph).map (t.graph.debt bound)).sum :=
      ((Visited.admitted_sublist _ _).map _).sum_le_sum fun _ _ => Nat.zero_le _
    have before : t.debt bound =
        t.graph.debt bound entry.place + ((places frontier).map (t.graph.debt bound)).sum := by
      rw [Traversal.debt, places_of_pop?_eq_some _ _ _ popped, Multiset.map_cons, Multiset.sum_cons]
      rfl
    have after : (Traversal.expand { t with frontier } entry).2.debt bound =
        ((places frontier).map (t.graph.debt bound)).sum +
          (((visited frontier).admitted (entry.offers t.graph)).map (t.graph.debt bound)).sum := by
      simp only [Traversal.debt, Traversal.expand]
      rw [held, Multiset.map_add, Multiset.sum_add, Multiset.map_coe, Multiset.sum_coe]
      rfl
    rw [before, after, cost]
    omega

/-- A search that is bounded by depth ends. -/
theorem Traversal.exists_rounds_ended {bound : Nat} (counted : bound < maxCountedDepth)
    (bounded : t.limits.maxDepth = some bound) : ∃ n, (t.rounds n).2.ended = true := by
  have progress : ∀ n, (t.rounds n).2.limits = t.limits ∧
      ((t.rounds n).2.ended = true ∨ (t.rounds n).2.debt bound + n ≤ t.debt bound) := by
    intro n
    induction n with
    | zero => exact ⟨rfl, .inr (Nat.le_refl _)⟩
    | succ n ih =>
      cases last : (t.rounds n).2.ended with
      | true =>
        rw [Traversal.rounds_succ_of_ended last]
        exact ⟨ih.1, .inl last⟩
      | false =>
        rcases ih with ⟨limits, before⟩
        obtain ⟨same, after⟩ := Traversal.debt_step counted (limits ▸ bounded)
        rw [Traversal.rounds_succ_of_live last]
        refine ⟨same.trans limits, after.imp_right fun less => ?_⟩
        rcases before with ended | owed
        · rw [last] at ended
          cases ended
        · dsimp only
          omega
  refine ⟨t.debt bound + 1, ?_⟩
  rcases (progress (t.debt bound + 1)).2 with ended | owed
  · exact ended
  · omega

/-! ## Searches of trees -/

variable {limits : Limits} {dedup : Dedup}

theorem Traversal.Ledger.depth_le_of_expanded (ledger : t.Ledger graph limits dedup steps)
    (bounded : limits.maxDepth = some bound) : ∀ e ∈ expandedEntries steps, e.depth ≤ bound :=
  fun e member => by simpa [Limits.prunes_eq bounded] using ledger.expanded_shallow e member

theorem Traversal.Ledger.lt_depth_of_pruned (ledger : t.Ledger graph limits dedup steps)
    (bounded : limits.maxDepth = some bound) : ∀ e ∈ prunedEntries steps, bound < e.depth :=
  fun e member => by simpa [Limits.prunes_eq bounded] using ledger.pruned_deep e member

/-- What a bounded search expands is at the end of a walk within its bound. -/
theorem Traversal.Ledger.walk_of_expanded (ledger : t.Ledger graph limits dedup steps)
    (counted : bound < maxCountedDepth) (bounded : limits.maxDepth = some bound)
    (expanded : node ∈ expandedNodes steps) :
    ∃ walk, graph.walk? graph.root walk = some node ∧ walk.length ≤ bound := by
  obtain ⟨e, member, rfl⟩ := List.mem_map.1 expanded
  obtain ⟨walk, reached, depth⟩ := ledger.places_expanded e member
  have shallow := ledger.depth_le_of_expanded bounded e member
  refine ⟨walk, reached, ?_⟩
  simp only [Entry.place] at depth
  omega

/-- A bounded search meets no node more than one step below its bound. -/
theorem Traversal.Ledger.walk_of_met (ledger : t.Ledger graph limits dedup steps)
    (counted : bound < maxCountedDepth) (bounded : limits.maxDepth = some bound)
    (here : node ∈ met graph steps) :
    ∃ walk, graph.walk? graph.root walk = some node ∧ walk.length ≤ bound + 1 := by
  rcases List.mem_cons.1 here with rfl | child
  · exact ⟨[], rfl, Nat.zero_le _⟩
  · obtain ⟨parent, expanded, member⟩ := List.mem_flatMap.1 child
    obtain ⟨walk, reached, within⟩ := ledger.walk_of_expanded counted bounded expanded
    obtain ⟨choice, step⟩ := List.mem_iff_getElem?.1 member
    refine ⟨walk ++ [choice], Graph.walk?_concat.2 ⟨parent, reached, step⟩, ?_⟩
    rw [List.length_append, List.length_singleton]
    exact Nat.succ_le_succ within

/-- A bounded search of a tree that has ended for want of nodes is a survey. -/
theorem Traversal.Ledger.survey (ledger : t.Ledger graph limits dedup steps) (tree : graph.IsTree)
    (counted : bound < maxCountedDepth) (bounded : limits.maxDepth = some bound)
    (exhausted : t.stats.termination = some .frontierExhausted) (apart : Apart graph dedup steps)
    (distinct : (met graph steps).Nodup) : Survey graph bound steps where
  tree := tree
  counted := counted
  perm_met := by
    have all := (ledger.perm_of_exhausted exhausted).map Prod.fst
    rw [Traversal.Ledger.admitted_eq_of_nodup apart distinct, map_fst_offers, List.map_append,
      List.map_map, List.map_map] at all
    exact all
  placed_expanded := ledger.places_expanded
  placed_pruned := ledger.places_pruned
  shallow := ledger.depth_le_of_expanded bounded
  deep := ledger.lt_depth_of_pruned bounded

/-! ## Courses -/

/-- A search of a graph within a depth, with a frontier of any kind, and a course of it, from a state
of the goal predicate. -/
structure BoundedCourse (F : Type) {N K E σ : Type} [Fingerprinted N] [Frontier F N K]
    [LawfulFrontier F N K] (graph : Graph N) (goal : N → StateM σ (Except E Bool)) where
  policy : Policy
  start : Traversal F N
  begins : start.Begins graph policy
  state : σ
  items : List (Item N E)
  steps : List (Step N K)
  last : Traversal F N
  after : σ
  course : start.Drained goal state items steps last after

variable {E σ : Type} {goal : N → StateM σ (Except E Bool)} {policy : Policy}

/-- A search within a depth that is counted ends. -/
theorem Traversal.Begins.exists_rounds_ended (begins : t.Begins graph policy)
    (counted : policy.maxDepth < maxCountedDepth) : ∃ n, (t.rounds n).2.ended = true :=
  Traversal.exists_rounds_ended counted (by rw [begins.ledger.limits_eq])

/-- So it has a course, from every state of the goal predicate. -/
theorem Traversal.Begins.exists_course (begins : t.Begins graph policy)
    (counted : policy.maxDepth < maxCountedDepth) (goal : N → StateM σ (Except E Bool))
    (state : σ) :
    ∃ search : BoundedCourse F graph goal,
      search.start = t ∧ search.policy = policy ∧ search.state = state := by
  obtain ⟨n, ended⟩ := begins.exists_rounds_ended counted
  obtain ⟨items, steps, last, after, course⟩ := Traversal.exists_drained goal state ended
  exact ⟨⟨policy, t, begins, state, items, steps, last, after, course⟩, rfl, rfl, rfl⟩

omit [Frontier F N K] [LawfulFrontier F N K] in
/-- The course of a best-first search is that of a search within a depth. -/
def BestFirstCourse.bounded (search : BestFirstCourse graph goal) :
    BoundedCourse (Costed N) graph goal where
  policy := search.policy
  start := search.start
  begins := begins_of_bestFirst search.begun
  state := search.state
  items := search.items
  steps := search.steps
  last := search.last
  after := search.after
  course := search.course

end GrammarSearch
