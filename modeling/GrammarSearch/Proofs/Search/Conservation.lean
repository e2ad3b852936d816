import GrammarSearch.Proofs.Search.Budget
import GrammarSearch.Proofs.Search.Coverage
import GrammarSearch.Proofs.Search.Forgetting
import GrammarSearch.Proofs.Search.LevelOrder
import GrammarSearch.Proofs.Search.Sizes

/-!
# Conservation of nodes

Every node that a search generates is somewhere: it was a duplicate, or it was expanded or
discarded, or it is in the frontier. The counts of a search say so at any time, whatever the graph,
the costs and the goal are, and however often the search was asked for an item
(`Traversal.Conserved`). Part of this is in the ledger of a search; what the search counts beside it
is in its tally (`Traversal.Tally`), and every round keeps this as well.
-/

namespace GrammarSearch

open LawfulFrontier MeasuredFrontier

variable {F N K E σ : Type}

/-! ## Tallies -/

section Tallies

variable [Frontier F N K]

/-- What a search has counted after the rounds recorded, and how its frontier came about. -/
structure Traversal.Tally (start : Traversal F N) (steps : List (Step N K)) (t : Traversal F N) :
    Prop where
  graph_eq : t.graph = start.graph
  limits_eq : t.limits = start.limits
  generated : t.stats.nodesGenerated =
    ((expandedNodes steps).map fun node => (start.graph.expand node).length).sum
  dead : t.stats.deadEnds =
    (expandedNodes steps).countP fun node => (start.graph.expand node).isEmpty
  goals : t.stats.goalsYielded = 0
  within : ∀ bound, start.limits.maxExpansions = some bound → t.stats.expansions ≤ bound
  stopped : t.stats.termination = some .expansionBudgetExceeded →
    start.limits.maxExpansions = some t.stats.expansions
  frontier_eq : t.frontier =
    ((poppedEntries steps).flatMap (Entry.changes start.graph start.limits)).foldl
      Change.apply start.frontier
  highWater_eq : t.stats.frontierHighWater = Frontier.highWater t.frontier

variable {start t : Traversal F N} {steps : List (Step N K)}

theorem Traversal.Tally.zero (fresh : start.stats = .initial)
    (single : Frontier.highWater start.frontier = 1) : start.Tally (K := K) [] start where
  graph_eq := rfl
  limits_eq := rfl
  generated := by rw [fresh]; rfl
  dead := by rw [fresh]; rfl
  goals := by rw [fresh]; rfl
  within bound _ := by rw [fresh]; exact Nat.zero_le bound
  stopped ended := by
    rw [fresh] at ended
    cases ended
  frontier_eq := rfl
  highWater_eq := by rw [fresh, single]; rfl

theorem Limits.lt_of_spent {limits : Limits} {expansions bound : Nat}
    (unspent : limits.spent expansions = false) (given : limits.maxExpansions = some bound) :
    expansions < bound := by
  rw [Limits.spent, given] at unspent
  exact Nat.not_le.1 (of_decide_eq_false unspent)

/-- A search that is stopped has used up its expansions. -/
theorem Limits.eq_of_spent {limits : Limits} {expansions : Nat}
    (spent : limits.spent expansions = true)
    (within : ∀ bound, limits.maxExpansions = some bound → expansions ≤ bound) :
    limits.maxExpansions = some expansions := by
  unfold Limits.spent at spent
  cases given : limits.maxExpansions with
  | none =>
    rw [given] at spent
    cases spent
  | some bound =>
    rw [given] at spent
    exact congrArg some (Nat.le_antisymm (of_decide_eq_true spent) (within bound given))

theorem Traversal.Tally.finish (tally : start.Tally steps t) (reason : Termination)
    (stopped : reason = .expansionBudgetExceeded →
      start.limits.maxExpansions = some t.stats.expansions) :
    start.Tally (steps ++ [(t.finish (K := K) reason).1]) (t.finish (K := K) reason).2 where
  graph_eq := tally.graph_eq
  limits_eq := tally.limits_eq
  generated := by rw [expandedNodes_finish]; exact tally.generated
  dead := by rw [expandedNodes_finish]; exact tally.dead
  goals := tally.goals
  within := tally.within
  stopped ended := stopped (Option.some.inj ended)
  frontier_eq := by
    rw [poppedEntries_append, Traversal.finish, poppedEntries_finished, List.append_nil]
    exact tally.frontier_eq
  highWater_eq := tally.highWater_eq

variable {entry : Entry N K} {frontier : F}

/-- The frontier after a round in which an entry came out. -/
theorem Traversal.Tally.frontier_concat (tally : start.Tally steps t)
    (popped : Frontier.pop? t.frontier = some (entry, frontier)) :
    ((poppedEntries steps ++ [entry]).flatMap
        (Entry.changes start.graph start.limits)).foldl Change.apply start.frontier =
      (if t.limits.prunes entry.depth then [] else (t.graph.expand entry.node).map fun child =>
        Change.push child (childDepth entry.depth)).foldl Change.apply frontier := by
  rw [List.flatMap_append, List.flatMap_singleton, List.foldl_append, ← tally.frontier_eq,
    Entry.changes, List.foldl_cons, Change.apply_pop popped, tally.graph_eq, tally.limits_eq]

theorem Traversal.Tally.expand (tally : start.Tally steps t) (live : t.ended = false)
    (popped : Frontier.pop? t.frontier = some (entry, frontier))
    (unspent : t.limits.spent t.stats.expansions = false)
    (shallow : t.limits.prunes entry.depth = false) :
    start.Tally (steps ++ [(Traversal.expand { t with frontier } entry).1])
      (Traversal.expand { t with frontier } entry).2 where
  graph_eq := tally.graph_eq
  limits_eq := tally.limits_eq
  generated := by
    rw [expandedNodes_expand, List.map_append, List.sum_append, ← tally.generated, ← tally.graph_eq,
      List.map_singleton, List.sum_singleton]
    rfl
  dead := by
    rw [expandedNodes_expand, List.countP_append, ← tally.dead, ← tally.graph_eq,
      List.countP_singleton]
    rfl
  goals := tally.goals
  within bound given := Limits.lt_of_spent unspent (tally.limits_eq ▸ given)
  stopped ended := by
    have stopped : t.ended = true := congrArg Option.isSome ended
    rw [live] at stopped
    cases stopped
  frontier_eq := by
    rw [poppedEntries_append, Traversal.expand, poppedEntries_expanded,
      tally.frontier_concat popped, if_neg (Bool.eq_false_iff.1 shallow),
      ← Traversal.offer_eq_foldl]
  highWater_eq := rfl

variable [Fingerprinted N] [LawfulFrontier F N K] [MeasuredFrontier F N K]

theorem Traversal.Tally.prune (tally : start.Tally steps t)
    (popped : Frontier.pop? t.frontier = some (entry, frontier))
    (deep : t.limits.prunes entry.depth = true) :
    start.Tally (steps ++ [(Traversal.prune { t with frontier } entry).1])
      (Traversal.prune { t with frontier } entry).2 where
  graph_eq := tally.graph_eq
  limits_eq := tally.limits_eq
  generated := by rw [expandedNodes_prune]; exact tally.generated
  dead := by rw [expandedNodes_prune]; exact tally.dead
  goals := tally.goals
  within := tally.within
  stopped := tally.stopped
  frontier_eq := by
    rw [poppedEntries_append, Traversal.prune, poppedEntries_pruned, tally.frontier_concat popped,
      if_pos deep]
    rfl
  highWater_eq := tally.highWater_eq.trans (highWater_of_pop? _ _ _ popped).symm

/-- Every round keeps the tally. -/
theorem Traversal.Tally.round (tally : start.Tally steps t) (live : t.ended = false) :
    start.Tally (steps ++ [t.step.1]) t.step.2 := by
  rcases t.step_cases with ⟨spent, step⟩ | ⟨-, -, step⟩ |
    ⟨entry, frontier, -, popped, deep, step⟩ |
    ⟨entry, frontier, unspent, popped, shallow, step⟩ <;> rw [step]
  · refine tally.finish _ fun _ => Limits.eq_of_spent ?_ tally.within
    rw [← tally.limits_eq]
    exact spent
  · exact tally.finish _ fun other => by cases other
  · exact tally.prune popped deep
  · exact tally.expand live popped unspent shallow

theorem Traversal.Tally.rounds (tally : start.Tally (K := K) [] start) (n : Nat) :
    start.Tally (start.rounds n).1 (start.rounds n).2 :=
  Traversal.rounds_induction (motive := fun steps s => start.Tally steps s) tally
    (fun _ _ live tally => tally.round live) n

end Tallies

/-! ## Conservation -/

/-- The counts of a search agree with what it did. It has searched the graph under the policy from
its start on, and was asked for some items. -/
structure Traversal.Conserved [Frontier F N K] (graph : Graph N) (policy : Policy)
    (start : Traversal F N) (asked : Asked F N K E σ) : Prop where
  /-- The root and all nodes generated are accounted for. -/
  balance : 1 + asked.traversal.stats.nodesGenerated =
    asked.traversal.stats.duplicatesSuppressed + asked.traversal.stats.expansions +
      asked.traversal.stats.depthPruned + Frontier.size asked.traversal.frontier
  expansions : asked.traversal.stats.expansions = (expandedNodes asked.steps).length
  generated : asked.traversal.stats.nodesGenerated =
    ((expandedNodes asked.steps).map fun node => (graph.expand node).length).sum
  dead : asked.traversal.stats.deadEnds =
    (expandedNodes asked.steps).countP fun node => (graph.expand node).isEmpty
  goals : asked.traversal.stats.goalsYielded = (asked.items.map Item.goals).sum
  /-- No more items were handed out, failures included, than nodes were expanded. -/
  items_le : (asked.items.flatMap Item.verdicts).length ≤ asked.traversal.stats.expansions
  /-- The frontier is the last of those that the search has had. -/
  frontier : (frontiers graph start.limits start.frontier
    (poppedEntries asked.steps)).getLast? = some asked.traversal.frontier
  /-- It never held more entries, not even between two children of a node. -/
  highWater : ((frontiers graph start.limits start.frontier
    (poppedEntries asked.steps)).map Frontier.size).max? =
      some asked.traversal.stats.frontierHighWater
  kept : policy.dedup = .off → asked.traversal.stats.duplicatesSuppressed = 0
  within : ∀ bound, policy.maxExpansions = some bound → asked.traversal.stats.expansions ≤ bound
  exhausted : asked.traversal.stats.termination = some .frontierExhausted →
    Frontier.size asked.traversal.frontier = 0
  stopped : asked.traversal.stats.termination = some .expansionBudgetExceeded →
    policy.maxExpansions = some asked.traversal.stats.expansions

theorem length_offers (graph : Graph N) (steps : List (Step N K)) :
    (offers graph steps).length =
      1 + ((expandedNodes steps).map fun node => (graph.expand node).length).sum := by
  rw [offers, List.length_cons, List.length_flatMap, expandedNodes, List.map_map, Nat.add_comm]
  congr 2
  exact List.map_congr_left fun e _ => List.length_map _

theorem sum_goals_flatMap_verdicts (items : List (Item N E)) :
    ((items.flatMap Item.verdicts).map Item.goals).sum = (items.map Item.goals).sum := by
  induction items with
  | nil => rfl
  | cons item items ih =>
    rw [List.flatMap_cons, List.map_append, List.sum_append, Item.sum_goals_verdicts, ih,
      List.map_cons, List.sum_cons]

variable [Fingerprinted N] [Frontier F N K] [LawfulFrontier F N K] [MeasuredFrontier F N K]
  {graph : Graph N} {limits : Limits} {dedup : Dedup} {steps : List (Step N K)}
  {t : Traversal F N}

/-- What was let in is as much as came out and what is left. -/
theorem Traversal.Ledger.balance (ledger : t.Ledger graph limits dedup steps)
    (measured : Measured t.frontier) :
    t.stats.duplicatesSuppressed + t.stats.expansions + t.stats.depthPruned +
      Frontier.size t.frontier = (offers graph steps).length := by
  have places := congrArg Multiset.card ledger.places_eq
  rw [Multiset.card_add, Multiset.card_add, Multiset.coe_card, Multiset.coe_card, Multiset.coe_card,
    List.length_map, List.length_map, ← ledger.expansions_eq, ← ledger.depthPruned_eq,
    ← size_eq_card _ measured] at places
  have duplicates := ledger.duplicates_eq
  omega

theorem Traversal.Ledger.conserved {policy : Policy} {start : Traversal F N}
    (ledger : start.Ledger graph limits policy.dedup []) (tally : start.Tally (K := K) [] start)
    (budget : limits.maxExpansions = policy.maxExpansions) (measured : Measured start.frontier)
    (started : Frontier.highWater start.frontier = Frontier.size start.frontier)
    (goal : N → StateM σ (Except E Bool)) (allowed : List Nat) (state : σ) :
    Traversal.Conserved graph policy start (start.asked goal allowed state) := by
  obtain ⟨n, same, verdicts, last⟩ := (start.pulled_asked goal allowed state).exists_rounds
  have ledgerLast := ledger.rounds n
  have tallyLast := tally.rounds n
  obtain ⟨rfl, rfl⟩ : start.graph = graph ∧ start.limits = limits :=
    ⟨ledger.graph_eq, ledger.limits_eq⟩
  have measuredLast : Measured (start.rounds n).2.frontier := by
    rw [tallyLast.frontier_eq]
    exact measured_foldl measured _
  have expansions : (start.rounds n).2.stats.expansions =
      (expandedNodes (start.rounds n).1).length := by
    rw [ledgerLast.expansions_eq, expandedNodes, List.length_map]
  constructor <;> rw [last]
  case balance =>
    rw [Traversal.addGoals, ledgerLast.balance measuredLast, length_offers, ← tallyLast.generated]
  case expansions =>
    rw [same.expandedNodes_eq]
    exact expansions
  case generated =>
    rw [same.expandedNodes_eq]
    exact tallyLast.generated
  case dead =>
    rw [same.expandedNodes_eq]
    exact tallyLast.dead
  case goals =>
    change (start.rounds n).2.stats.goalsYielded + _ = _
    rw [tallyLast.goals, Nat.zero_add, sum_goals_flatMap_verdicts]
  case items_le =>
    have few := length_testAll_le goal (expandedNodes (start.rounds n).1) state
    rw [verdicts, ← expansions] at few
    exact few
  case frontier =>
    rw [same.popped, frontiers, List.getLast?_scanl, ← tallyLast.frontier_eq]
    rfl
  case highWater =>
    rw [same.popped, frontiers, max?_sizes measured started, ← tallyLast.frontier_eq]
    exact congrArg some tallyLast.highWater_eq.symm
  case kept =>
    intro off
    have duplicates := ledgerLast.duplicates_eq
    rw [off, Visited.admitted_off] at duplicates
    exact Nat.add_eq_right.1 duplicates
  case within =>
    rw [← budget]
    exact tallyLast.within
  case exhausted =>
    intro ended
    change Frontier.size (start.rounds n).2.frontier = 0
    rw [size_eq_card _ measuredLast, ledgerLast.exhausted ended, Multiset.card_zero]
  case stopped =>
    rw [← budget]
    exact tallyLast.stopped

/-- A frontier that holds nothing and never held anything. -/
structure Unused (dedup : Dedup) (f : F) : Prop where
  places_eq : places f = 0
  visited_eq : visited f = .empty dedup
  measured : Measured f
  highWater_eq : Frontier.highWater f = 0

/-- A search conserves nodes if it starts by pushing the root onto an unused frontier. -/
theorem Unused.conserved {policy : Policy} {empty : F} (unused : Unused policy.dedup empty)
    (budget : limits.maxExpansions = policy.maxExpansions) (goal : N → StateM σ (Except E Bool))
    (allowed : List Nat) (state : σ) :
    Traversal.Conserved graph policy
      ⟨graph, limits, (Frontier.push empty graph.root 0).2, .initial⟩
      (Traversal.asked goal allowed
        ⟨graph, limits, (Frontier.push empty graph.root 0).2, .initial⟩ state) := by
  have measured := measured_push empty graph.root 0 unused.measured
  have started := highWater_push empty graph.root 0 unused.measured
  rw [unused.highWater_eq, Nat.zero_max] at started
  have single : Frontier.size (Frontier.push empty graph.root 0).2 = 1 := by
    rw [size_eq_card _ measured, places_push, unused.places_eq, unused.visited_eq]
    simp [Visited.admitted]
  exact (Traversal.Ledger.start unused.places_eq unused.visited_eq).conserved
    (.zero rfl (started.trans single)) budget measured started goal allowed state

omit [Frontier F N K] [LawfulFrontier F N K] [MeasuredFrontier F N K] in
theorem bestFirst_conserves {costs : Costs N} {policy : Policy} {start : Traversal (Costed N) N}
    (begun : bestFirst graph costs policy = .ok start) (goal : N → StateM σ (Except E Bool))
    (allowed : List Nat) (state : σ) :
    Traversal.Conserved graph policy start (start.asked goal allowed state) := by
  have unused : Unused policy.dedup (Costed.empty policy.dedup costs) :=
    ⟨rfl, rfl, ⟨trivial, Nat.le_refl 0⟩, rfl⟩
  rw [eq_of_bestFirst begun]
  exact unused.conserved rfl goal allowed state

end GrammarSearch
