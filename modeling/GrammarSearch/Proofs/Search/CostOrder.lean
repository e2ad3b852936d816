import GrammarSearch.Proofs.Search.CostQueue
import GrammarSearch.Proofs.Search.Coverage

/-!
# The order of best-first search

If costs do not descend along the edges of the graph, a best-first search takes
its entries in the strict order of their keys, those that it discards included:
whatever is offered in a round is not cheaper than the entry that the round
took, and has a greater number than any other. So the items come in the order of
cost, and those of one cost in the order in which their nodes were let in.
-/

namespace GrammarSearch

variable {N E σ : Type}

/-- Along the edges that the root leads to, costs do not descend. -/
def Graph.Ascends (graph : Graph N) (cost : N → Binary64) : Prop :=
  ∀ node child, graph.Reachable node → child ∈ graph.expand node →
    compare (cost child) (cost node) ≠ .lt

theorem Graph.Ascends.rank_le {graph : Graph N} {cost : N → Binary64}
    (ascends : graph.Ascends cost) {node child : N} (reached : graph.Reachable node)
    (member : child ∈ graph.expand node) : (cost node).rank ≤ (cost child).rank := by
  have upward := ascends node child reached member
  rw [Ne, Binary64.compare_eq_lt] at upward
  exact Nat.le_of_not_lt upward

/-! ## Items and their nodes -/

/-- The item is what the goal predicate, in some state, makes of the node. -/
def Item.IsVerdict (goal : N → StateM σ (Except E Bool)) (node : N) (item : Item N E) : Prop :=
  ∃ state, (testAll goal [node] state).1 = [item]

/-- The items are verdicts on some of the nodes tested, in order. -/
theorem exists_sources {K : Type} (goal : N → StateM σ (Except E Bool))
    (entries : List (Entry N K)) (state : σ) :
    ∃ sources, sources.Sublist entries ∧
      List.Forall₂ (fun item e => item.IsVerdict goal e.node)
        (testAll goal (entries.map Entry.node) state).1 sources := by
  induction entries generalizing state with
  | nil => exact ⟨[], .slnil, .nil⟩
  | cons e entries ih =>
    obtain ⟨sources, among, verdicts⟩ := ih (testAll goal [e.node] state).2
    have first : (testAll goal ((e :: entries).map Entry.node) state).1 =
        (testAll goal [e.node] state).1 ++
          (testAll goal (entries.map Entry.node) (testAll goal [e.node] state).2).1 :=
      congrArg Prod.fst (testAll_append goal [e.node] (entries.map Entry.node) state)
    have few := length_testAll_le goal [e.node] state
    rcases verdict : (testAll goal [e.node] state).1 with _ | ⟨item, _ | ⟨other, more⟩⟩
    · rw [first, verdict]
      exact ⟨sources, among.cons e, verdicts⟩
    · rw [first, verdict]
      exact ⟨e :: sources, among.cons_cons e, .cons ⟨state, verdict⟩ verdicts⟩
    · rw [verdict] at few
      simp at few

/-! ## Runs -/

variable [Fingerprinted N] {graph : Graph N} {policy : Policy} {costs : Costs N}
  {cost : N → Binary64}

/-- The places that a search has let in, in the order of their discovery. -/
def discovered {K : Type} (graph : Graph N) (dedup : Dedup) (steps : List (Step N K)) :
    List (N × Nat) :=
  (Visited.empty dedup).admitted (offers graph steps)

theorem discovered_concat_of_quiet {K : Type} (dedup : Dedup) (steps : List (Step N K))
    {step : Step N K} (quiet : expandedEntries [step] = []) :
    discovered graph dedup (steps ++ [step]) = discovered graph dedup steps := by
  rw [discovered, offers_append, quiet, List.flatMap_nil, List.append_nil, discovered]

/-- The children of what came out last are not cheaper than anything that came out. -/
theorem Costed.Queued.rank_le_child {f : Costed N} {popped : List (Entry N Key)}
    {entry : Entry N Key} {places : List (N × Nat)} (ascends : graph.Ascends cost)
    (queued : f.Queued cost (popped ++ [entry]) places) (reached : graph.Reachable entry.node)
    {child : N} (member : child ∈ graph.expand entry.node) :
    ∀ e ∈ popped ++ [entry], e.key.cost.rank ≤ (cost child).rank := by
  intro e came
  have cost_eq : entry.key.cost = cost entry.node :=
    (mem_numbered.1 (queued.numbered_of_popped
      (List.mem_append_right _ (List.mem_singleton_self entry)))).1
  have upward := ascends.rank_le reached member
  rw [← cost_eq] at upward
  rcases List.mem_append.1 came with before | here
  · have earlier := (List.pairwise_append.1 queued.sorted).2.2 e before entry
      (List.mem_singleton_self entry)
    rw [Entry.before_iff] at earlier
    omega
  · rw [List.mem_singleton.1 here]
    exact upward

/-- A round keeps the frontier in order. -/
theorem Costed.Queued.round {limits : Limits} {dedup : Dedup} {steps : List (Step N Key)}
    {t : Traversal (Costed N) N} (ascends : graph.Ascends cost)
    (ledger : t.Ledger graph limits dedup steps)
    (queued : t.frontier.Queued cost (poppedEntries steps) (discovered graph dedup steps)) :
    t.step.2.frontier.Queued cost (poppedEntries (steps ++ [t.step.1]))
      (discovered graph dedup (steps ++ [t.step.1])) := by
  rcases t.step_outcome with ⟨reason, step⟩ | ⟨entry, frontier, popped, -, step⟩ |
    ⟨entry, frontier, popped, -, step⟩
  · rw [step, discovered_concat_of_quiet dedup steps rfl, poppedEntries_append]
    simpa [Traversal.finish] using queued
  · rw [step, discovered_concat_of_quiet dedup steps rfl, poppedEntries_append]
    exact queued.of_pop? popped
  · have taken := queued.of_pop? popped
    have reached : graph.Reachable entry.node := by
      obtain ⟨walk, ends, -⟩ := ledger.places_of_mem (ledger.place_mem popped)
      exact ⟨walk, ends⟩
    have seen : frontier.frontier.visited = (Visited.empty dedup).afterAll (offers graph steps) :=
      (Costed.held_of_pop? popped).2.trans ledger.visited_eq
    have next := taken.offer (childDepth entry.depth) fun child member =>
      taken.rank_le_child ascends reached member
    rw [seen, discovered, ← Visited.admitted_append] at next
    rw [step, discovered, offers_append, poppedEntries_append]
    simpa [Traversal.expand, ledger.graph_eq, Entry.offers] using next

/-- At any time the entries that came out did so in the order of their keys, which say what they
cost and when they were let in. -/
theorem bestFirst_queued {start : Traversal (Costed N) N}
    (begun : bestFirst graph costs policy = .ok start) (computes : costs.Computes cost)
    (ascends : graph.Ascends cost) (n : Nat) :
    (start.rounds n).2.frontier.Queued cost (poppedEntries (start.rounds n).1)
      (discovered graph policy.dedup (start.rounds n).1) := by
  have ledger := Traversal.Ledger.of_bestFirst begun
  refine (Traversal.rounds_induction (t := start) (motive := fun steps t =>
    t.Ledger graph ⟨some policy.maxDepth, policy.maxExpansions⟩ policy.dedup steps ∧
      t.frontier.Queued cost (poppedEntries steps) (discovered graph policy.dedup steps))
    ⟨ledger, ?_⟩ ?_ n).2
  · rw [eq_of_bestFirst begun]
    exact (Costed.Queued.empty policy.dedup computes).push 0
      fun _ member => absurd member List.not_mem_nil
  · rintro steps t live ⟨ledger, queued⟩
    exact ⟨ledger.round live, queued.round ascends ledger⟩

/-- If costs do not descend, a best-first search takes its entries in the strict order of their keys,
whatever it is asked for. A key is the cost of the node and its number among the nodes discovered. So
the items come in the order of cost, and those of one cost in the order of discovery. -/
theorem bestFirst_in_cost_order (graph : Graph N) (policy : Policy)
    (valid : policy.validate = .ok ()) (costs : Costs N) (cost : N → Binary64)
    (computes : costs.Computes cost) (ascends : graph.Ascends cost) :
    ∃ start, bestFirst graph costs policy = .ok start ∧
      ∀ {E σ : Type} {goal : N → StateM σ (Except E Bool)} {state after : σ}
        {items : List (Item N E)} {steps : List (Step N Key)} {last : Traversal (Costed N) N},
        start.Pulled goal state items steps last after →
          (poppedEntries steps).Pairwise (fun a b => compare a.key b.key = .lt) ∧
          (∀ e ∈ poppedEntries steps, e.key.cost = cost e.node ∧
            (discovered graph policy.dedup steps)[e.key.order]? = some e.place) ∧
          testAll goal (expandedNodes steps) state = (items, after) ∧
          ∃ sources, sources.Sublist (expandedEntries steps) ∧
            List.Forall₂ (fun item e => item.IsVerdict goal e.node) items sources ∧
            sources.Pairwise fun a b => compare (cost a.node) (cost b.node) = .lt ∨
              cost a.node = cost b.node ∧ a.key.order < b.key.order := by
  obtain ⟨start, begun⟩ := exists_bestFirst graph costs valid
  refine ⟨start, begun, fun {E σ goal state after items steps last} pulled => ?_⟩
  obtain ⟨n, same, verdicts, -⟩ := pulled.exists_rounds
  have queued := bestFirst_queued begun computes ascends n
  have found : discovered graph policy.dedup (start.rounds n).1 =
      discovered graph policy.dedup steps := by
    rw [discovered, discovered, offers, offers, same.expanded]
  rw [← same.popped, found] at queued
  rw [← same.expandedNodes_eq] at verdicts
  have keys (e : Entry N Key) (came : e ∈ poppedEntries steps) :=
    mem_numbered.1 (queued.numbered_of_popped came)
  refine ⟨queued.sorted, keys, verdicts, ?_⟩
  obtain ⟨sources, among, judged⟩ := exists_sources goal (expandedEntries steps) state
  rw [← expandedNodes, verdicts] at judged
  have came := among.trans (expandedEntries_sublist steps)
  refine ⟨sources, among, judged, (queued.sorted.sublist came).imp_of_mem ?_⟩
  intro a b cameA cameB before
  rw [← (keys a (came.subset cameA)).1, ← (keys b (came.subset cameB)).1]
  exact Key.compare_eq_lt.1 before

/-! ## The detour at a toll -/

/-- The short way of the detour costs ten at node 2, and so does node 4, where both ways meet. -/
def detourPrice (node : Numbered) : Binary64 :=
  if node.number = 2 ∨ node.number = 4 then .ofNat 10 else .zero

theorem detour_ascends : detour.Ascends detourPrice := by
  rintro ⟨number⟩ child - member
  match number with
  | 0 | 1 | 2 | 3 =>
    revert child
    decide
  | _ + 4 => exact absurd member List.not_mem_nil

/-- The search of the detour to depth two, with memoized costs. -/
def detourPriced : Traversal (Costed Numbered) Numbered where
  graph := detour
  limits := ⟨some 2, none⟩
  frontier := ((Costed.empty .structural (.memoized (.empty detourPrice))).push ⟨0⟩ 0).2
  stats := .initial

/-- Node 3 comes before node 2, which was discovered earlier but costs more. Node 4 costs as much as
node 2 and comes after it, to be discarded. -/
theorem detour_in_cost_order :
    detour.Ascends detourPrice ∧
      bestFirst detour (.memoized (.empty detourPrice)) (.bounded 2) = .ok detourPriced ∧
      (poppedEntries (detourPriced.next (detourGoal 5) 6 ()).steps).map (·.node.number) =
        [0, 1, 3, 2, 4] ∧
      (poppedEntries (detourPriced.next (detourGoal 5) 6 ()).steps).Pairwise
        (fun a b => compare a.key b.key = .lt) ∧
      ∀ e ∈ poppedEntries (detourPriced.next (detourGoal 5) 6 ()).steps,
        e.key.cost = detourPrice e.node := by
  have computes : (Costs.memoized (.empty detourPrice)).Computes detourPrice := by
    apply Costs.computes_memoized
    rintro ⟨a⟩ ⟨b⟩ same
    obtain rfl : a = b := congrArg Digest.value same
    rfl
  obtain ⟨start, begun, ordered⟩ := bestFirst_in_cost_order detour (.bounded 2) rfl
    (.memoized (.empty detourPrice)) detourPrice computes detour_ascends
  obtain rfl : detourPriced = start := Except.ok.inj begun
  have course : detourPriced.Pulled (detourGoal 5) () _
      ((detourPriced.next (detourGoal 5) 6 ()).steps ++ []) _ _ := .more 6 (.nothing _ _)
  rw [List.append_nil, List.append_nil] at course
  obtain ⟨sorted, keys, -⟩ := ordered course
  exact ⟨detour_ascends, begun, by decide +kernel, sorted, fun e came => (keys e came).1⟩

end GrammarSearch
