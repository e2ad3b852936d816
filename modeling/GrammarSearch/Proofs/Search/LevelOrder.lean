import GrammarSearch.Proofs.Search.Ledger

/-!
# The order of breadth-first search

A breadth-first search expands nodes in the order in which it met them: the
nodes expanded so far, followed by those in the queue, are the offers that were
let in (`breadthFirst_order`). Since the offers are made by the nodes expanded,
this determines the whole course of the search.
-/

namespace GrammarSearch

variable {N : Type} [Fingerprinted N] {graph : Graph N} {policy : Policy}
  {start : Traversal (Fifo N) N}

/-- Children that are let in come last, in their order. -/
theorem Fifo.line_offer (depth : Nat) (f : Fifo N) (children : List N) :
    (Traversal.offer depth f children).2.line =
      f.line ++ f.visited.admitted (children.map fun child => (child, depth)) := by
  induction children generalizing f with
  | nil => simp [Traversal.offer, Visited.admitted]
  | cons child children ih =>
    rw [Traversal.offer, List.map_cons, Visited.admitted_cons, ← List.append_assoc,
      ← Fifo.line_push, ← Fifo.visited_push]
    exact ih _

/-- A breadth-first search discards nothing. -/
theorem breadthFirst_prunes_nothing (begun : breadthFirst graph policy = .ok start) (n : Nat) :
    prunedEntries (start.rounds n).1 = [] := by
  have ledger := (Traversal.Ledger.of_breadthFirst begun).rounds n
  refine List.eq_nil_iff_forall_not_mem.2 fun e member => ?_
  have deep := ledger.pruned_deep e member
  simp [Limits.prunes] at deep

/-- The nodes expanded and those in the queue, in the order in which they were let in. -/
theorem breadthFirst_order (begun : breadthFirst graph policy = .ok start) (n : Nat) :
    (expandedEntries (start.rounds n).1).map Entry.place ++ (start.rounds n).2.frontier.line =
      (Visited.empty policy.dedup).admitted (offers graph (start.rounds n).1) := by
  induction n with
  | zero =>
    rw [eq_of_breadthFirst begun]
    exact Fifo.line_push (Fifo.empty policy.dedup) graph.root 0
  | succ n ih =>
    cases last : (start.rounds n).2.ended with
    | true =>
      rw [Traversal.rounds_succ_of_ended last]
      exact ih
    | false =>
      have ledger := (Traversal.Ledger.of_breadthFirst begun).rounds n
      rw [Traversal.rounds_succ_of_live last]
      rcases (start.rounds n).2.step_outcome with ⟨reason, step⟩ |
        ⟨entry, frontier, -, deep, step⟩ | ⟨entry, frontier, popped, -, step⟩
      · rw [step]
        simpa [Traversal.finish, offers] using ih
      · simp [ledger.limits_eq, Limits.prunes] at deep
      · obtain ⟨line, seen⟩ := Fifo.line_of_pop? popped
        have known : frontier.visited = (Visited.empty policy.dedup).afterAll
            (offers graph (start.rounds n).1) := seen.trans ledger.visited_eq
        rw [line] at ih
        rw [step, offers_append, Visited.admitted_append, ← ih]
        simp [Traversal.expand, Fifo.line_offer, known, ledger.graph_eq, Entry.offers, Entry.place]

/-- Without a bound on expansions, a search that has not ended expands a node in every round. -/
theorem breadthFirst_expands (begun : breadthFirst graph policy = .ok start) {n : Nat}
    (live : (start.rounds n).2.ended = false) : (expandedNodes (start.rounds n).1).length = n := by
  have count := Traversal.length_entries_of_live live
  rw [breadthFirst_prunes_nothing begun] at count
  rw [expandedNodes, List.length_map]
  exact count

/-- What is expanded after one more round comes first among what was let in before. -/
theorem breadthFirst_prefix_succ (begun : breadthFirst graph policy = .ok start) (n : Nat) :
    (expandedEntries (start.rounds (n + 1)).1).map Entry.place <+:
      (Visited.empty policy.dedup).admitted (offers graph (start.rounds n).1) := by
  cases last : (start.rounds n).2.ended with
  | true =>
    rw [Traversal.rounds_succ_of_ended last, ← breadthFirst_order begun n]
    exact List.prefix_append _ _
  | false =>
    have ledger := (Traversal.Ledger.of_breadthFirst begun).rounds n
    have after := breadthFirst_order begun (n + 1)
    have fewer := ledger.expanded_le
    rw [Traversal.rounds_succ_of_live last] at after ⊢
    rw [offers_append, Visited.admitted_append] at after
    exact List.prefix_of_prefix_length_le ⟨_, after⟩ (List.prefix_append _ _)
      (Multiset.coe_le.1 fewer).length_le

end GrammarSearch
