import GrammarSearch.Proofs.Search.Frontiers
import GrammarSearch.Proofs.Search.Levels
import GrammarSearch.Proofs.Search.Rounds
import Mathlib.Algebra.Order.Group.Multiset
import Mathlib.Tactic.Abel

/-!
# The ledger of a search

Everything that a search has offered to its frontier so far is the root and the
children of the nodes it has expanded (`offers`). `Traversal.Ledger` accounts
for the offers: each was a duplicate, or it is now expanded, discarded, or in
the frontier, and the counts of the search say how many. Every round keeps the
accounts (`Traversal.Ledger.round`), in whatever order the entries come out, so
they hold throughout every search (`Traversal.Ledger.rounds`).
-/

namespace GrammarSearch

open LawfulFrontier

variable {F N K : Type}

/-! ## Offers -/

/-- The node of an entry with its depth. -/
def Entry.place (e : Entry N K) : N × Nat := (e.node, e.depth)

/-- The children of the node of an entry, at their depth. -/
def Entry.offers (graph : Graph N) (e : Entry N K) : List (N × Nat) :=
  (graph.expand e.node).map fun child => (child, childDepth e.depth)

/-- Everything that was offered to the frontier, in order. -/
def offers (graph : Graph N) (steps : List (Step N K)) : List (N × Nat) :=
  (graph.root, 0) :: (expandedEntries steps).flatMap (Entry.offers graph)

theorem offers_append (graph : Graph N) (steps more : List (Step N K)) :
    offers graph (steps ++ more) =
      offers graph steps ++ (expandedEntries more).flatMap (Entry.offers graph) := by
  simp [offers]

/-- The nodes that a search has met: the root and the children of expanded nodes, in order. -/
def met (graph : Graph N) (steps : List (Step N K)) : List N :=
  graph.root :: (expandedNodes steps).flatMap graph.expand

theorem map_fst_offers (graph : Graph N) (steps : List (Step N K)) :
    (offers graph steps).map Prod.fst = met graph steps := by
  rw [offers, met, List.map_cons, List.map_flatMap, expandedNodes, List.flatMap_map]
  congr 2
  funext e
  simp [Entry.offers, Function.comp_def]

theorem met_subset_append (graph : Graph N) (steps more : List (Step N K)) :
    met graph steps ⊆ met graph (steps ++ more) := by
  intro node member
  rw [met, expandedNodes_append, List.flatMap_append, ← List.cons_append]
  exact List.mem_append_left _ member

theorem mem_met_of_expanded {graph : Graph N} {steps : List (Step N K)} {node child : N}
    (expanded : node ∈ expandedNodes steps) (member : child ∈ graph.expand node) :
    child ∈ met graph steps :=
  List.mem_cons_of_mem _ (List.mem_flatMap.2 ⟨node, expanded, member⟩)

/-- Only the places that were expanded decide what was offered. -/
theorem offers_eq_of_places {graph : Graph N} {steps : List (Step N K)} {places : List (N × Nat)}
    (expanded : (expandedEntries steps).map Entry.place = places) :
    offers graph steps = (graph.root, 0) :: places.flatMap fun place =>
      (graph.expand place.1).map fun child => (child, childDepth place.2) := by
  rw [← expanded, List.flatMap_map]
  rfl

/-- If deeper nodes were expanded later, deeper nodes were offered later. -/
theorem offers_ascending (graph : Graph N) {steps : List (Step N K)}
    (ascending : ((expandedEntries steps).map Entry.place).Pairwise fun a b => a.2 ≤ b.2) :
    (offers graph steps).Pairwise fun a b => a.2 ≤ b.2 := by
  rw [offers_eq_of_places rfl]
  refine .cons (fun _ _ => Nat.zero_le _) (List.pairwise_flatMap.2 ⟨fun place _ => ?_, ?_⟩)
  · exact List.pairwise_map.2 (List.pairwise_of_forall fun _ _ => Nat.le_refl _)
  · refine ascending.imp fun {a b} le x fromA y fromB => ?_
    obtain ⟨_, -, rfl⟩ := List.mem_map.1 fromA
    obtain ⟨_, -, rfl⟩ := List.mem_map.1 fromB
    simp only [childDepth]
    omega

/-- The place at which a search finds a node of a level. -/
def counted (place : N × Nat) : N × Nat := (place.1, min place.2 maxCountedDepth)

/-- A search that has expanded places of levels has offered what is below them. -/
theorem offers_eq_of_counted {graph : Graph N} {steps : List (Step N K)}
    {places : List (N × Nat)}
    (expanded : (expandedEntries steps).map Entry.place = places.map counted) :
    offers graph steps = (graph.unfolded places).map counted := by
  rw [offers_eq_of_places expanded, Graph.unfolded, List.map_cons, List.map_flatMap,
    List.flatMap_map]
  congr 1
  refine List.flatMap_congr fun place _ => ?_
  rw [Graph.below, List.map_map]
  refine List.map_congr_left fun child _ => ?_
  simp only [Function.comp_apply, counted, childDepth, Prod.mk.injEq, true_and]
  omega

/-- Where no depth is too great to be counted, what was offered is below what was expanded. -/
theorem offers_eq_unfolded {graph : Graph N} {steps : List (Step N K)}
    (shallow : ∀ e ∈ expandedEntries steps, e.depth < maxCountedDepth) :
    offers graph steps = graph.unfolded ((expandedEntries steps).map Entry.place) := by
  rw [offers, Graph.unfolded, List.flatMap_map]
  congr 1
  refine List.flatMap_congr fun e member => ?_
  have deeper : childDepth e.depth = e.depth + 1 := by
    have counts := shallow e member
    rw [childDepth]
    omega
  rw [Entry.offers, deeper]
  rfl

/-- The place is that of a walk: it has the node at which the walk ends, and its length. -/
def Graph.Places (graph : Graph N) (place : N × Nat) : Prop :=
  ∃ walk, graph.walk? graph.root walk = some place.1 ∧ place.2 = min walk.length maxCountedDepth

theorem Graph.places_root (graph : Graph N) : graph.Places (graph.root, 0) :=
  ⟨[], rfl, rfl⟩

theorem Graph.Places.offers {graph : Graph N} {e : Entry N K} (placed : graph.Places e.place) :
    ∀ offer ∈ e.offers graph, graph.Places offer := by
  intro offer member
  rcases placed with ⟨walk, reached, depth⟩
  obtain ⟨child, here, rfl⟩ := List.mem_map.1 member
  obtain ⟨choice, at_choice⟩ := List.mem_iff_getElem?.1 here
  refine ⟨walk ++ [choice], Graph.walk?_concat.2 ⟨e.node, reached, at_choice⟩, ?_⟩
  simp only [Entry.place] at depth
  simp only [childDepth, depth, List.length_append, List.length_singleton]
  omega

/-! ## Accounts -/

variable [Fingerprinted N] [Frontier F N K] [LawfulFrontier F N K]

/-- The accounts of a search of the graph, after the rounds recorded. -/
structure Traversal.Ledger (graph : Graph N) (limits : Limits) (dedup : Dedup)
    (steps : List (Step N K)) (t : Traversal F N) : Prop where
  graph_eq : t.graph = graph
  limits_eq : t.limits = limits
  visited_eq : visited t.frontier = (Visited.empty dedup).afterAll (offers graph steps)
  /-- What was let in was expanded, or was discarded, or is in the frontier. -/
  places_eq : (↑((expandedEntries steps).map Entry.place) +
    (↑((prunedEntries steps).map Entry.place) + places t.frontier) : Multiset (N × Nat)) =
    ↑((Visited.empty dedup).admitted (offers graph steps))
  expansions_eq : t.stats.expansions = (expandedEntries steps).length
  depthPruned_eq : t.stats.depthPruned = (prunedEntries steps).length
  duplicates_eq : t.stats.duplicatesSuppressed +
    ((Visited.empty dedup).admitted (offers graph steps)).length = (offers graph steps).length
  placed : ∀ offer ∈ offers graph steps, graph.Places offer
  expanded_shallow : ∀ e ∈ expandedEntries steps, limits.prunes e.depth = false
  pruned_deep : ∀ e ∈ prunedEntries steps, limits.prunes e.depth = true
  /-- A search that was not stopped has nothing left. -/
  exhausted : t.stats.termination = some .frontierExhausted → places t.frontier = 0
  /-- Only a bound on expansions stops a search. -/
  unstopped : limits.maxExpansions = none →
    t.stats.termination ≠ some .expansionBudgetExceeded

variable {graph : Graph N} {limits : Limits} {dedup : Dedup} {steps : List (Step N K)}
  {t : Traversal F N}

/-- A search starts with the root in its frontier. -/
theorem Traversal.Ledger.start {empty : F} (none : places empty = 0)
    (nothing : visited empty = .empty dedup) :
    Traversal.Ledger (K := K) graph limits dedup []
      ⟨graph, limits, (Frontier.push empty graph.root 0).2, .initial⟩ where
  graph_eq := rfl
  limits_eq := rfl
  visited_eq := by
    rw [visited_push, nothing]
    rfl
  places_eq := by
    rw [places_push, nothing, none]
    simp [offers, expandedEntries, prunedEntries]
  expansions_eq := rfl
  depthPruned_eq := rfl
  duplicates_eq := by simp [offers, expandedEntries, Visited.admitted, Stats.initial, Stats.zero]
  placed := by simp [offers, expandedEntries, graph.places_root]
  expanded_shallow := by simp [expandedEntries]
  pruned_deep := by simp [prunedEntries]
  exhausted := fun ended => by cases ended
  unstopped := fun _ ended => by cases ended

/-- What the frontier gives out was let in before. -/
theorem Traversal.Ledger.place_mem (ledger : t.Ledger graph limits dedup steps)
    {entry : Entry N K} {frontier : F}
    (popped : Frontier.pop? t.frontier = some (entry, frontier)) :
    entry.place ∈ (Visited.empty dedup).admitted (offers graph steps) := by
  rw [← Multiset.mem_coe, ← ledger.places_eq, places_of_pop?_eq_some _ _ _ popped]
  exact Multiset.mem_add.2 (.inr (Multiset.mem_add.2 (.inr (Multiset.mem_cons_self _ _))))

/-- Whatever was let in was offered, so it stands at the end of a walk. -/
theorem Traversal.Ledger.places_of_mem (ledger : t.Ledger graph limits dedup steps)
    {place : N × Nat} (member : place ∈ (Visited.empty dedup).admitted (offers graph steps)) :
    graph.Places place :=
  ledger.placed _ ((Visited.admitted_sublist _ _).subset member)

theorem Traversal.Ledger.finish (ledger : t.Ledger graph limits dedup steps) (reason : Termination)
    (left : reason = .frontierExhausted → places t.frontier = 0)
    (spent : reason = .expansionBudgetExceeded → limits.maxExpansions ≠ none) :
    (t.finish (K := K) reason).2.Ledger graph limits dedup
      (steps ++ [(t.finish (K := K) reason).1]) := by
  have expanded : expandedEntries (steps ++ [(t.finish (K := K) reason).1]) =
      expandedEntries steps := by simp [Traversal.finish]
  have pruned : prunedEntries (steps ++ [(t.finish (K := K) reason).1]) =
      prunedEntries steps := by simp [Traversal.finish]
  have offered : offers graph (steps ++ [(t.finish (K := K) reason).1]) = offers graph steps := by
    rw [offers, offers, expanded]
  exact {
    graph_eq := ledger.graph_eq
    limits_eq := ledger.limits_eq
    visited_eq := by rw [offered]; exact ledger.visited_eq
    places_eq := by rw [expanded, pruned, offered]; exact ledger.places_eq
    expansions_eq := by rw [expanded]; exact ledger.expansions_eq
    depthPruned_eq := by rw [pruned]; exact ledger.depthPruned_eq
    duplicates_eq := by rw [offered]; exact ledger.duplicates_eq
    placed := by rw [offered]; exact ledger.placed
    expanded_shallow := by rw [expanded]; exact ledger.expanded_shallow
    pruned_deep := by rw [pruned]; exact ledger.pruned_deep
    exhausted := fun ended => left (Option.some.inj ended)
    unstopped := fun unlimited ended => spent (Option.some.inj ended) unlimited }

theorem Traversal.Ledger.prune (ledger : t.Ledger graph limits dedup steps) (live : t.ended = false)
    {entry : Entry N K} {frontier : F}
    (popped : Frontier.pop? t.frontier = some (entry, frontier))
    (deep : t.limits.prunes entry.depth = true) :
    (Traversal.prune { t with frontier } entry).2.Ledger graph limits dedup
      (steps ++ [(Traversal.prune { t with frontier } entry).1]) := by
  have expanded : expandedEntries (steps ++ [(Traversal.prune { t with frontier } entry).1]) =
      expandedEntries steps := by simp [Traversal.prune]
  have pruned : prunedEntries (steps ++ [(Traversal.prune { t with frontier } entry).1]) =
      prunedEntries steps ++ [entry] := by simp [Traversal.prune]
  have offered : offers graph (steps ++ [(Traversal.prune { t with frontier } entry).1]) =
      offers graph steps := by
    rw [offers, offers, expanded]
  exact {
    graph_eq := ledger.graph_eq
    limits_eq := ledger.limits_eq
    visited_eq := by
      rw [offered, ← ledger.visited_eq]
      exact visited_of_pop?_eq_some _ _ _ popped
    places_eq := by
      rw [expanded, pruned, offered, ← ledger.places_eq, places_of_pop?_eq_some _ _ _ popped,
        List.map_append, ← Multiset.coe_add, Multiset.add_assoc]
      rfl
    expansions_eq := by rw [expanded]; exact ledger.expansions_eq
    depthPruned_eq := by
      rw [pruned, List.length_append, ← ledger.depthPruned_eq]
      rfl
    duplicates_eq := by rw [offered]; exact ledger.duplicates_eq
    placed := by rw [offered]; exact ledger.placed
    expanded_shallow := by rw [expanded]; exact ledger.expanded_shallow
    pruned_deep := by
      rw [pruned]
      intro e member
      rcases List.mem_append.1 member with before | here
      · exact ledger.pruned_deep e before
      · rw [List.mem_singleton.1 here, ← ledger.limits_eq]
        exact deep
    exhausted := fun ended => by
      have stopped : t.ended = true := congrArg Option.isSome ended
      rw [live] at stopped
      cases stopped
    unstopped := ledger.unstopped }

theorem Traversal.Ledger.expand (ledger : t.Ledger graph limits dedup steps) (live : t.ended = false)
    {entry : Entry N K} {frontier : F}
    (popped : Frontier.pop? t.frontier = some (entry, frontier))
    (shallow : t.limits.prunes entry.depth = false) :
    (Traversal.expand { t with frontier } entry).2.Ledger graph limits dedup
      (steps ++ [(Traversal.expand { t with frontier } entry).1]) := by
  have expanded : expandedEntries (steps ++ [(Traversal.expand { t with frontier } entry).1]) =
      expandedEntries steps ++ [entry] := by simp [Traversal.expand]
  have pruned : prunedEntries (steps ++ [(Traversal.expand { t with frontier } entry).1]) =
      prunedEntries steps := by simp [Traversal.expand]
  have offered : offers graph (steps ++ [(Traversal.expand { t with frontier } entry).1]) =
      offers graph steps ++ entry.offers graph := by
    rw [offers, offers, expanded, List.flatMap_append, List.flatMap_singleton, List.cons_append]
  have seen : visited frontier = (Visited.empty dedup).afterAll (offers graph steps) :=
    (visited_of_pop?_eq_some _ _ _ popped).trans ledger.visited_eq
  obtain ⟨count, after, held⟩ := Traversal.offer_spec (childDepth entry.depth) frontier
    (graph.expand entry.node)
  rw [seen] at count after held
  exact {
    graph_eq := ledger.graph_eq
    limits_eq := ledger.limits_eq
    visited_eq := by
      rw [offered, Visited.afterAll_append]
      simp only [Traversal.expand, ledger.graph_eq]
      exact after
    places_eq := by
      simp only [Traversal.expand, ledger.graph_eq] at expanded pruned offered ⊢
      rw [expanded, pruned, offered, Visited.admitted_append, ← Multiset.coe_add, ← ledger.places_eq,
        places_of_pop?_eq_some _ _ _ popped, held, List.map_append, ← Multiset.coe_add,
        ← Multiset.singleton_add]
      simp only [List.map_singleton, Multiset.coe_singleton, Entry.place, Entry.offers]
      abel
    expansions_eq := by
      rw [expanded, List.length_append, ← ledger.expansions_eq]
      rfl
    depthPruned_eq := by rw [pruned]; exact ledger.depthPruned_eq
    duplicates_eq := by
      have before := ledger.duplicates_eq
      rw [offered, Visited.admitted_append]
      simp only [Traversal.expand, ledger.graph_eq, List.length_append, Entry.offers, List.length_map]
      omega
    placed := by
      rw [offered]
      intro offer member
      rcases List.mem_append.1 member with before | child
      · exact ledger.placed offer before
      · exact (ledger.places_of_mem (ledger.place_mem popped)).offers offer child
    expanded_shallow := by
      rw [expanded]
      intro e member
      rcases List.mem_append.1 member with before | here
      · exact ledger.expanded_shallow e before
      · rw [List.mem_singleton.1 here, ← ledger.limits_eq]
        exact shallow
    pruned_deep := by rw [pruned]; exact ledger.pruned_deep
    exhausted := fun ended => by
      have stopped : t.ended = true := congrArg Option.isSome ended
      rw [live] at stopped
      cases stopped
    unstopped := ledger.unstopped }

/-- Every round keeps the accounts. -/
theorem Traversal.Ledger.round (ledger : t.Ledger graph limits dedup steps)
    (live : t.ended = false) :
    t.step.2.Ledger graph limits dedup (steps ++ [t.step.1]) := by
  rcases t.step_cases with ⟨spent, step⟩ | ⟨-, popped, step⟩ |
    ⟨entry, frontier, -, popped, deep, step⟩ | ⟨entry, frontier, -, popped, shallow, step⟩ <;>
    rw [step]
  · refine ledger.finish _ (fun other => by cases other) fun _ unlimited => ?_
    rw [ledger.limits_eq, Limits.spent, unlimited] at spent
    cases spent
  · exact ledger.finish _ (fun _ => places_of_pop?_eq_none _ popped) fun other => by cases other
  · exact ledger.prune live popped deep
  · exact ledger.expand live popped shallow

theorem Traversal.Ledger.rounds (ledger : t.Ledger graph limits dedup []) (n : Nat) :
    (t.rounds n).2.Ledger graph limits dedup (t.rounds n).1 :=
  Traversal.rounds_induction (motive := fun steps s => s.Ledger graph limits dedup steps) ledger
    (fun _ _ live ledger => ledger.round live) n

/-- Ended for want of nodes, a search has expanded or discarded all that was let in. -/
theorem Traversal.Ledger.perm_of_exhausted (ledger : t.Ledger graph limits dedup steps)
    (exhausted : t.stats.termination = some .frontierExhausted) :
    ((expandedEntries steps).map Entry.place ++ (prunedEntries steps).map Entry.place).Perm
      ((Visited.empty dedup).admitted (offers graph steps)) := by
  have accounts := ledger.places_eq
  rw [ledger.exhausted exhausted, Multiset.add_zero, Multiset.coe_add] at accounts
  exact Multiset.coe_eq_coe.1 accounts

theorem Traversal.Ledger.places_expanded (ledger : t.Ledger graph limits dedup steps) :
    ∀ e ∈ expandedEntries steps, graph.Places e.place := by
  intro e member
  apply ledger.places_of_mem
  rw [← Multiset.mem_coe, ← ledger.places_eq]
  exact Multiset.mem_add.2 (.inl (List.mem_map_of_mem member))

theorem Traversal.Ledger.places_pruned (ledger : t.Ledger graph limits dedup steps) :
    ∀ e ∈ prunedEntries steps, graph.Places e.place := by
  intro e member
  apply ledger.places_of_mem
  rw [← Multiset.mem_coe, ← ledger.places_eq]
  exact Multiset.mem_add.2 (.inr (Multiset.mem_add.2 (.inl (List.mem_map_of_mem member))))

theorem Traversal.Ledger.reachable_expanded (ledger : t.Ledger graph limits dedup steps) :
    ∀ node ∈ expandedNodes steps, graph.Reachable node := by
  intro node member
  obtain ⟨e, here, rfl⟩ := List.mem_map.1 member
  obtain ⟨walk, reached, -⟩ := ledger.places_expanded e here
  exact ⟨walk, reached⟩

theorem Traversal.Ledger.reachable_met (ledger : t.Ledger graph limits dedup steps) :
    ∀ node ∈ met graph steps, graph.Reachable node := by
  intro node here
  rcases List.mem_cons.1 here with rfl | later
  · exact .root
  · obtain ⟨parent, expanded, member⟩ := List.mem_flatMap.1 later
    exact (ledger.reachable_expanded parent expanded).child member

/-- A search without a bound on expansions ends for want of nodes. -/
theorem Traversal.Ledger.exhausted_of_ended (ledger : t.Ledger graph limits dedup steps)
    (unlimited : limits.maxExpansions = none) (ended : t.ended = true) :
    t.stats.termination = some .frontierExhausted := by
  obtain ⟨reason, stopped⟩ := Option.isSome_iff_exists.1 ended
  cases reason with
  | frontierExhausted => exact stopped
  | expansionBudgetExceeded => exact absurd stopped (ledger.unstopped unlimited)

/-! ## The searches -/

omit [Frontier F N K] [LawfulFrontier F N K] in
theorem eq_of_breadthFirst {policy : Policy} {start : Traversal (Fifo N) N}
    (begun : breadthFirst graph policy = .ok start) :
    start = ⟨graph, ⟨none, policy.maxExpansions⟩, ((Fifo.empty policy.dedup).push graph.root 0).2,
      .initial⟩ := by
  unfold breadthFirst at begun
  cases valid : policy.validate with
  | error e =>
    rw [valid] at begun
    cases begun
  | ok =>
    rw [valid] at begun
    cases begun
    rfl

theorem Policy.validate_of_ne_zero {policy : Policy} (positive : policy.maxExpansions ≠ some 0) :
    policy.validate = .ok () :=
  if_neg positive

theorem Policy.validate_of_unlimited {policy : Policy} (unlimited : policy.maxExpansions = none) :
    policy.validate = .ok () := by
  apply Policy.validate_of_ne_zero
  rw [unlimited]
  exact (Option.some_ne_none 0).symm

omit [Frontier F N K] [LawfulFrontier F N K] in
/-- A search starts under every policy that is valid. -/
theorem exists_breadthFirst (graph : Graph N) {policy : Policy} (valid : policy.validate = .ok ()) :
    ∃ start, breadthFirst graph policy = .ok start := by
  unfold breadthFirst
  rw [valid]
  exact ⟨_, rfl⟩

omit [Frontier F N K] [LawfulFrontier F N K] in
/-- No search starts under a policy that is not valid. -/
theorem breadthFirst_of_invalid (graph : Graph N) {policy : Policy} {e : PolicyError}
    (invalid : policy.validate = .error e) : breadthFirst graph policy = .error e := by
  unfold breadthFirst
  rw [invalid]
  rfl

omit [Frontier F N K] [LawfulFrontier F N K] in
theorem Traversal.Ledger.of_breadthFirst {policy : Policy} {start : Traversal (Fifo N) N}
    (begun : breadthFirst graph policy = .ok start) :
    start.Ledger graph ⟨none, policy.maxExpansions⟩ policy.dedup [] := by
  rw [eq_of_breadthFirst begun]
  exact .start rfl rfl

omit [Fingerprinted N] [LawfulFrontier F N K] in
theorem eq_of_boundedSearch {policy : Policy} {empty : F} {start : Traversal F N}
    (begun : boundedSearch graph empty policy = .ok start) :
    start = ⟨graph, ⟨some policy.maxDepth, policy.maxExpansions⟩,
      (Frontier.push empty graph.root 0).2, .initial⟩ := by
  unfold boundedSearch at begun
  cases valid : policy.validate with
  | error e =>
    rw [valid] at begun
    cases begun
  | ok =>
    rw [valid] at begun
    cases begun
    rfl

omit [Fingerprinted N] [LawfulFrontier F N K] in
theorem exists_boundedSearch (graph : Graph N) (empty : F) {policy : Policy}
    (valid : policy.validate = .ok ()) : ∃ start, boundedSearch graph empty policy = .ok start := by
  unfold boundedSearch
  rw [valid]
  exact ⟨_, rfl⟩

omit [Frontier F N K] [LawfulFrontier F N K] in
theorem bestFirst_of_invalid (graph : Graph N) (costs : Costs N) {policy : Policy} {e : PolicyError}
    (invalid : policy.validate = .error e) : bestFirst graph costs policy = .error e := by
  unfold bestFirst boundedSearch
  rw [invalid]
  rfl

/-- The search of the graph under the policy begins: its frontier, of whatever kind, was empty and
has been offered the root. -/
def Traversal.Begins (graph : Graph N) (policy : Policy) (start : Traversal F N) : Prop :=
  ∃ empty : F, places empty = 0 ∧ visited empty = .empty policy.dedup ∧
    start = ⟨graph, ⟨some policy.maxDepth, policy.maxExpansions⟩,
      (Frontier.push empty graph.root 0).2, .initial⟩

theorem Traversal.Begins.ledger {policy : Policy} {start : Traversal F N}
    (begins : start.Begins graph policy) :
    start.Ledger graph ⟨some policy.maxDepth, policy.maxExpansions⟩ policy.dedup [] := by
  rcases begins with ⟨empty, none, nothing, rfl⟩
  exact .start none nothing

omit [Frontier F N K] [LawfulFrontier F N K] in
theorem eq_of_bestFirst {costs : Costs N} {policy : Policy} {start : Traversal (Costed N) N}
    (begun : bestFirst graph costs policy = .ok start) :
    start = ⟨graph, ⟨some policy.maxDepth, policy.maxExpansions⟩,
      ((Costed.empty policy.dedup costs).push graph.root 0).2, .initial⟩ :=
  eq_of_boundedSearch begun

omit [Frontier F N K] [LawfulFrontier F N K] in
theorem exists_bestFirst (graph : Graph N) (costs : Costs N) {policy : Policy}
    (valid : policy.validate = .ok ()) : ∃ start, bestFirst graph costs policy = .ok start :=
  exists_boundedSearch graph (Costed.empty policy.dedup costs) valid

omit [Frontier F N K] [LawfulFrontier F N K] in
theorem begins_of_bestFirst {costs : Costs N} {policy : Policy} {start : Traversal (Costed N) N}
    (begun : bestFirst graph costs policy = .ok start) : start.Begins graph policy :=
  ⟨Costed.empty policy.dedup costs, rfl, rfl, eq_of_bestFirst begun⟩

omit [Frontier F N K] [LawfulFrontier F N K] in
theorem Traversal.Ledger.of_bestFirst {costs : Costs N} {policy : Policy}
    {start : Traversal (Costed N) N} (begun : bestFirst graph costs policy = .ok start) :
    start.Ledger graph ⟨some policy.maxDepth, policy.maxExpansions⟩ policy.dedup [] :=
  (begins_of_bestFirst begun).ledger

omit [Frontier F N K] [LawfulFrontier F N K] in
/-- A search begins whatever the state of the cost function is, and whatever it answers. -/
theorem exists_bestFirstBy {S : Type} (graph : Graph N) (cost : S → N → Binary64 × S) (state : S)
    {policy : Policy} (valid : policy.validate = .ok ()) :
    ∃ start, bestFirstBy graph cost state policy = .ok start ∧ start.Begins graph policy := by
  obtain ⟨start, begun⟩ :=
    exists_boundedSearch graph (Stateful.empty policy.dedup cost state) valid
  exact ⟨start, begun, _, rfl, rfl, eq_of_boundedSearch begun⟩

/-! ## Searches of trees -/

/-- If duplicates are suppressed, no two of the nodes met have one fingerprint. -/
def Apart (graph : Graph N) (dedup : Dedup) (steps : List (Step N K)) : Prop :=
  dedup = .structural → Set.InjOn (Fingerprinted.fingerprint (N := N)) {node | node ∈ met graph steps}

theorem Apart.of_append {more : List (Step N K)} (apart : Apart graph dedup (steps ++ more)) :
    Apart graph dedup steps :=
  fun structural => (apart structural).mono fun _ member => met_subset_append graph steps more member

theorem Apart.of_prefix {fewer : List (Step N K)} (apart : Apart graph dedup steps)
    (first : fewer <+: steps) : Apart graph dedup fewer := by
  rcases first with ⟨more, rfl⟩
  exact apart.of_append

/-- In a tree distinct nodes have distinct children. -/
theorem Traversal.Ledger.nodup_met_of_nodup (ledger : t.Ledger graph limits dedup steps)
    (tree : graph.IsTree) (distinct : (expandedNodes steps).Nodup) : (met graph steps).Nodup :=
  tree.nodup_root_cons_flatMap ledger.reachable_expanded distinct

/-- Where distinct nodes are met, nothing is dropped. -/
theorem Traversal.Ledger.admitted_eq_of_nodup (apart : Apart graph dedup steps)
    (distinct : (met graph steps).Nodup) :
    (Visited.empty dedup).admitted (offers graph steps) = offers graph steps := by
  refine Visited.admitted_eq_self (fun offer _ => Visited.knows_empty dedup _) fun structural => ?_
  have nodes : (offers graph steps).map (fun offer => Fingerprinted.fingerprint offer.1) =
      (met graph steps).map Fingerprinted.fingerprint := by
    rw [← map_fst_offers, List.map_map]
    rfl
  rw [nodes]
  exact List.Nodup.map_on (fun a memberA b memberB same =>
    apart structural memberA memberB same) distinct

/-- What is expanded in a further round was let in before. -/
theorem Traversal.Ledger.expanded_le (ledger : t.Ledger graph limits dedup steps) :
    (↑((expandedEntries (steps ++ [t.step.1])).map Entry.place) : Multiset (N × Nat)) ≤
      ↑((Visited.empty dedup).admitted (offers graph steps)) := by
  rw [← ledger.places_eq, expandedEntries_append, List.map_append, ← Multiset.coe_add]
  have quiet (nothing : expandedEntries [t.step.1] = []) :
      (↑((expandedEntries [t.step.1]).map Entry.place) : Multiset (N × Nat)) ≤
        ↑((prunedEntries steps).map Entry.place) + places t.frontier := by
    rw [nothing]
    exact Multiset.zero_le _
  apply Multiset.add_le_add_left
  rcases t.step_outcome with ⟨reason, step⟩ | ⟨entry, frontier, -, -, step⟩ |
    ⟨entry, frontier, popped, -, step⟩
  · exact quiet (by rw [step]; rfl)
  · exact quiet (by rw [step]; rfl)
  · rw [step, places_of_pop?_eq_some _ _ _ popped]
    exact Multiset.singleton_le.2 (Multiset.mem_add.2 (.inr (Multiset.mem_cons_self _ _)))

/-- A search of a tree expands no node twice. -/
theorem Traversal.Ledger.nodup_expandedNodes (ledger : t.Ledger graph limits dedup [])
    (tree : graph.IsTree) (n : Nat) (apart : Apart graph dedup (t.rounds n).1) :
    (expandedNodes (t.rounds n).1).Nodup := by
  refine (Traversal.rounds_induction (t := t) (motive := fun steps s =>
    s.Ledger graph limits dedup steps ∧
      (Apart graph dedup steps → (expandedNodes steps).Nodup)) ?_ ?_ n).2 apart
  · exact ⟨ledger, fun _ => List.nodup_nil⟩
  · rintro steps s live ⟨ledger, distinct⟩
    refine ⟨ledger.round live, fun apart => ?_⟩
    have before := ledger.nodup_met_of_nodup tree (distinct apart.of_append)
    have among := ledger.expanded_le
    rw [Traversal.Ledger.admitted_eq_of_nodup apart.of_append before] at among
    have nodes : (expandedNodes (steps ++ [s.step.1])).Subperm (met graph steps) := by
      have mapped := Multiset.map_le_map (f := Prod.fst) among
      rw [Multiset.map_coe, Multiset.map_coe, map_fst_offers, List.map_map] at mapped
      exact mapped
    rcases nodes with ⟨sorted, perm, sublist⟩
    exact perm.nodup_iff.1 (before.sublist sublist)

end GrammarSearch
