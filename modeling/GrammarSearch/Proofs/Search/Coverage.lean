import GrammarSearch.Proofs.Search.Bounded

/-!
# Coverage of graphs with duplicates

A bounded search that suppresses duplicates keeps the first offer of every
fingerprint, and discards nodes by the depth of that offer. So a short way to a
node does not help if a longer one was found first: the node is discarded for
the longer way, and the short one is a duplicate. `bestFirst_covers_iff` says
that nothing else keeps a search from a node within its bound, and
`detour_hides_node` shows that this happens: costs alone decide which way is
found first.
-/

namespace GrammarSearch

open LawfulFrontier

variable {F N K E σ : Type} [Fingerprinted N]

/-- Nodes with one fingerprint have children with the same fingerprints, in order. -/
def Graph.Coherent (graph : Graph N) : Prop :=
  ∀ a b, Fingerprinted.fingerprint a = Fingerprinted.fingerprint b →
    (graph.expand a).map Fingerprinted.fingerprint = (graph.expand b).map Fingerprinted.fingerprint

/-- Some walk of at most `bound` steps ends at a node with the fingerprint. -/
def Graph.Within (graph : Graph N) (bound : Nat) (fingerprint : Digest) : Prop :=
  ∃ walk node, graph.walk? graph.root walk = some node ∧ walk.length ≤ bound ∧
    Fingerprinted.fingerprint node = fingerprint

theorem Graph.Coherent.exists_child {graph : Graph N} (coherent : graph.Coherent) {a b child : N}
    (same : Fingerprinted.fingerprint a = Fingerprinted.fingerprint b)
    (member : child ∈ graph.expand b) :
    ∃ twin ∈ graph.expand a, Fingerprinted.fingerprint twin = Fingerprinted.fingerprint child := by
  have mapped := List.mem_map_of_mem (f := Fingerprinted.fingerprint) member
  rw [← coherent a b same] at mapped
  exact List.mem_map.1 mapped

variable [Frontier F N K] [LawfulFrontier F N K] {graph : Graph N} {limits : Limits}
  {dedup : Dedup} {steps : List (Step N K)} {t : Traversal F N} {bound : Nat}

/-- At its end a search has expanded or discarded a node with the fingerprint of every node met. -/
theorem Traversal.Ledger.covers_met (ledger : t.Ledger graph limits dedup steps)
    (exhausted : t.stats.termination = some .frontierExhausted) {node : N}
    (here : node ∈ met graph steps) :
    ∃ e, (e ∈ expandedEntries steps ∨ e ∈ prunedEntries steps) ∧
      Fingerprinted.fingerprint e.node = Fingerprinted.fingerprint node := by
  rw [← map_fst_offers] at here
  obtain ⟨offer, offered, rfl⟩ := List.mem_map.1 here
  rcases (Visited.empty dedup).admitted_covers offered with known | ⟨first, admitted, same⟩
  · rw [Visited.knows_empty] at known
    cases known
  · rcases List.mem_append.1 ((ledger.perm_of_exhausted exhausted).mem_iff.2 admitted) with
      expanded | pruned
    · obtain ⟨e, member, rfl⟩ := List.mem_map.1 expanded
      exact ⟨e, .inl member, same⟩
    · obtain ⟨e, member, rfl⟩ := List.mem_map.1 pruned
      exact ⟨e, .inr member, same⟩

/-- A search that suppresses duplicates does not both expand and discard nodes of one fingerprint. -/
theorem Traversal.Ledger.expanded_ne_pruned (ledger : t.Ledger graph limits .structural steps)
    (exhausted : t.stats.termination = some .frontierExhausted) {e discarded : Entry N K}
    (expanded : e ∈ expandedEntries steps) (pruned : discarded ∈ prunedEntries steps) :
    Fingerprinted.fingerprint e.node ≠ Fingerprinted.fingerprint discarded.node := by
  have apart := (Visited.admitted_apart (v := .empty .structural) rfl (offers graph steps)).2
  have perm := (ledger.perm_of_exhausted exhausted).map fun offer =>
    Fingerprinted.fingerprint offer.1
  have distinct := perm.nodup_iff.2 apart
  rw [List.map_append, List.map_map, List.map_map] at distinct
  exact (List.nodup_append.1 distinct).2.2 _ (List.mem_map_of_mem expanded) _
    (List.mem_map_of_mem pruned)

/-- A node met within the bound is expanded, up to its fingerprint, unless it was discarded. -/
theorem Traversal.Ledger.covers_of_met (ledger : t.Ledger graph limits dedup steps)
    (exhausted : t.stats.termination = some .frontierExhausted)
    (kept : ∀ e ∈ prunedEntries steps, ¬graph.Within bound (Fingerprinted.fingerprint e.node))
    {node : N} (here : node ∈ met graph steps)
    (within : graph.Within bound (Fingerprinted.fingerprint node)) :
    ∃ other ∈ expandedNodes steps,
      Fingerprinted.fingerprint other = Fingerprinted.fingerprint node := by
  obtain ⟨e, expanded | pruned, same⟩ := ledger.covers_met exhausted here
  · exact ⟨e.node, List.mem_map_of_mem expanded, same⟩
  · exact absurd (same ▸ within) (kept e pruned)

/-- The search leaves out a node within the bound if and only if it discarded one with its
fingerprint. -/
theorem Traversal.Ledger.covers_iff (ledger : t.Ledger graph limits .structural steps)
    (coherent : graph.Coherent) (exhausted : t.stats.termination = some .frontierExhausted) :
    (∀ fingerprint, graph.Within bound fingerprint →
      ∃ node ∈ expandedNodes steps, Fingerprinted.fingerprint node = fingerprint) ↔
    ∀ e ∈ prunedEntries steps, ¬graph.Within bound (Fingerprinted.fingerprint e.node) := by
  constructor
  · intro covers discarded pruned within
    obtain ⟨node, expanded, same⟩ := covers _ within
    obtain ⟨e, member, rfl⟩ := List.mem_map.1 expanded
    exact ledger.expanded_ne_pruned exhausted member pruned same
  · rintro kept fingerprint ⟨walk, node, reached, length, rfl⟩
    induction walk using List.reverseRecOn generalizing node with
    | nil =>
      cases reached
      exact ledger.covers_of_met exhausted kept List.mem_cons_self
        ⟨[], graph.root, rfl, length, rfl⟩
    | append_singleton walk choice ih =>
      obtain ⟨parent, before, step⟩ := Graph.walk?_concat.1 reached
      have shorter : walk.length ≤ bound := by
        rw [List.length_append] at length
        omega
      obtain ⟨other, expanded, same⟩ := ih parent before shorter
      obtain ⟨twin, member, alike⟩ := coherent.exists_child same (List.mem_of_getElem? step)
      rw [← alike]
      exact ledger.covers_of_met exhausted kept (mem_met_of_expanded expanded member)
        ⟨walk ++ [choice], node, reached, length, alike.symm⟩

/-- A best-first search that suppresses duplicates is asked for all its items, and ends for want of
nodes. It has tested the goal on every node it expanded, and up to fingerprints it has expanded all
nodes within its bound, except if it discarded such a node because it had first found it by a walk
beyond the bound. So does every search within a depth, however its frontier chooses the next
entry. -/
theorem bestFirst_covers_iff {graph : Graph N} (coherent : graph.Coherent)
    {goal : N → StateM σ (Except E Bool)} (search : BoundedCourse F graph goal)
    (structural : search.policy.dedup = .structural)
    (exhausted : search.last.stats.termination = some .frontierExhausted) :
    testAll goal (expandedNodes search.steps) search.state = (search.items, search.after) ∧
    ((∀ fingerprint, graph.Within search.policy.maxDepth fingerprint →
        ∃ node ∈ expandedNodes search.steps, Fingerprinted.fingerprint node = fingerprint) ↔
      ∀ e ∈ prunedEntries search.steps,
        ¬graph.Within search.policy.maxDepth (Fingerprinted.fingerprint e.node)) := by
  obtain ⟨n, -, expanded, pruned, verdicts, last⟩ := search.course.exists_rounds
  have ledger := search.begins.ledger.rounds n
  rw [structural] at ledger
  rw [last] at exhausted
  have nodes : expandedNodes search.steps = expandedNodes (search.start.rounds n).1 :=
    congrArg (List.map Entry.node) expanded
  rw [nodes, pruned]
  exact ⟨verdicts, ledger.covers_iff coherent exhausted⟩

/-! ## A detour -/

/-- Nodes that are identified by their numbers. -/
structure Numbered where
  number : Nat
deriving DecidableEq

instance : Fingerprinted Numbered where
  fingerprint node := ⟨node.number⟩

/-- Nodes that their numbers identify have nothing but their fingerprints. -/
theorem Graph.coherent_of_numbers (graph : Graph Numbered) : graph.Coherent := by
  rintro ⟨a⟩ ⟨b⟩ same
  obtain rfl : a = b := congrArg Digest.value same
  rfl

/-- Two ways from node 0 to node 4, a short one through node 2 and a long one through 1 and 3. -/
def detour : Graph Numbered where
  root := ⟨0⟩
  expand node :=
    match node.number with
    | 0 => [⟨1⟩, ⟨2⟩]
    | 1 => [⟨3⟩]
    | 2 => [⟨4⟩]
    | 3 => [⟨4⟩]
    | _ => []

/-- The short way costs something, the long one does not. -/
def detourToll (toll : Nat) : Costs Numbered :=
  .direct fun node => if node.number = 2 then .ofNat toll else .zero

/-- The search of the detour to depth two. -/
def detourSearch (toll : Nat) : Traversal (Costed Numbered) Numbered where
  graph := detour
  limits := ⟨some 2, none⟩
  frontier := ((Costed.empty .structural (detourToll toll)).push ⟨0⟩ 0).2
  stats := .initial

/-- The goal is the node of a number. -/
def detourGoal (wanted : Nat) (node : Numbered) : StateM Unit (Except Empty Bool) :=
  pure (.ok (node.number = wanted))

theorem detour_coherent : detour.Coherent := detour.coherent_of_numbers

/-- At a toll of ten the search for node 4 has nothing left and no goal, though node 4 is two steps
from the root. -/
theorem detour_hides_node :
    detour.Coherent ∧ bestFirst detour (detourToll 10) (.bounded 2) = .ok (detourSearch 10) ∧
      ((detourSearch 10).next (detourGoal 4) 6 ()).item = .ended ∧
      ((detourSearch 10).next (detourGoal 4) 6 ()).traversal.stats.termination =
        some .frontierExhausted ∧
      detour.Within 2 ⟨4⟩ ∧
      ¬∃ node ∈ expandedNodes ((detourSearch 10).next (detourGoal 4) 6 ()).steps,
        Fingerprinted.fingerprint node = ⟨4⟩ :=
  ⟨detour_coherent, rfl, by decide +kernel, by decide +kernel, ⟨[1, 0], ⟨4⟩, rfl, by decide, rfl⟩,
    by decide +kernel⟩

/-- The search without a toll for node 5, which is not there. -/
def detourWithoutToll : BestFirstCourse detour (detourGoal 5) where
  costs := detourToll 0
  policy := .bounded 2
  start := detourSearch 0
  begun := rfl
  state := ()
  items := []
  steps := ((detourSearch 0).next (detourGoal 5) 6 ()).steps
  last := ((detourSearch 0).next (detourGoal 5) 6 ()).traversal
  after := ((detourSearch 0).next (detourGoal 5) 6 ()).state
  course := .last 6 (by decide +kernel)

/-- Without a toll nothing is discarded, and all nodes within the bound are expanded. -/
theorem detour_covered_without_toll :
    prunedEntries detourWithoutToll.steps = [] ∧
      ∀ fingerprint, detour.Within 2 fingerprint →
        ∃ node ∈ expandedNodes detourWithoutToll.steps,
          Fingerprinted.fingerprint node = fingerprint := by
  have exhausted : detourWithoutToll.bounded.last.stats.termination =
      some .frontierExhausted := by decide +kernel
  have none : prunedEntries detourWithoutToll.steps = [] := by decide +kernel
  have covers := (bestFirst_covers_iff detour_coherent detourWithoutToll.bounded rfl exhausted).2
  dsimp only [BestFirstCourse.bounded] at covers
  rw [none] at covers
  exact ⟨none, covers.2 fun _ pruned => absurd pruned List.not_mem_nil⟩

end GrammarSearch
