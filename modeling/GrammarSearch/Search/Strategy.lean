import GrammarSearch.Notice
import GrammarSearch.Search.Frontier.Costed
import GrammarSearch.Search.Frontier.Fifo
import GrammarSearch.Search.Traversal

/-!
# Search strategies

Breadth-first search expands nodes in the order of their discovery and knows no
bound on depth. Best-first search expands the cheapest node first and discards
nodes deeper than its policy allows, so that it always ends. Both report their
start, every round and their end.
-/

namespace GrammarSearch

variable {N : Type} [Fingerprinted N]

/-! ## Breadth-first search -/

/-- A breadth-first search that has expanded nothing. -/
def breadthFirst (graph : Graph N) (policy : Policy) :
    Except PolicyError (Traversal (Fifo N) N) := do
  policy.validate
  return {
    graph
    limits := { maxDepth := none, maxExpansions := policy.maxExpansions }
    frontier := ((Fifo.empty policy.dedup).push graph.root 0).2
    stats := .initial }

/-- The report of the start of a breadth-first search. -/
def breadthFirstStarted (policy : Policy) : Notice :=
  ⟨.debug, "bfs start: max_expansions=" ++ policy.expansionsText ++ " dedup=" ++
    policy.dedup.name⟩

/-! ## Best-first search -/

/-- A search within a depth that has expanded nothing. Its frontier, which was empty, has been
offered the root. -/
def boundedSearch {F K : Type} [Frontier F N K] (graph : Graph N) (empty : F) (policy : Policy) :
    Except PolicyError (Traversal F N) := do
  policy.validate
  return {
    graph
    limits := { maxDepth := some policy.maxDepth, maxExpansions := policy.maxExpansions }
    frontier := (Frontier.push empty graph.root 0).2
    stats := .initial }

/-- A best-first search that has expanded nothing. -/
def bestFirst (graph : Graph N) (costs : Costs N) (policy : Policy) :
    Except PolicyError (Traversal (Costed N) N) :=
  boundedSearch graph (Costed.empty policy.dedup costs) policy

/-- A best-first search that has expanded nothing, where the cost function has a state. -/
def bestFirstBy {S : Type} (graph : Graph N) (cost : S → N → Binary64 × S) (state : S)
    (policy : Policy) : Except PolicyError (Traversal (Stateful S N) N) :=
  boundedSearch graph (Stateful.empty policy.dedup cost state) policy

/-- The report of the start of a best-first search. -/
def bestFirstStarted (policy : Policy) : Notice :=
  ⟨.debug, "bounded astar start: max_depth=" ++ toString policy.maxDepth ++
    " max_expansions=" ++ policy.expansionsText ++ " dedup=" ++ policy.dedup.name⟩

/-! ## Reports of rounds -/

/-- How a strategy reports: its name, and what it says of the key of an entry. -/
structure Voice (K : Type) where
  name : String
  keyText : K → String

/-- The voice of breadth-first search, whose entries have no keys. -/
def Voice.breadthFirst : Voice Unit := ⟨"bfs", fun _ => ""⟩

/-- The voice of best-first search, which tells the cost of an entry. -/
def Voice.bestFirst : Voice Key := ⟨"bounded astar", fun key => " cost=" ++ key.cost.text⟩

/-- The report of an end. -/
def Voice.finished {K : Type} (voice : Voice K) (stats : Stats) : Notice :=
  let reason := (stats.termination.map Termination.name).getD ""
  ⟨.debug, voice.name ++ " finished (" ++ reason ++ "): " ++ stats.toJson.compact⟩

/-- The reports of one round. A node that may be a dead end reports that itself, before its
expansion is reported. -/
def Step.notices {N K : Type} (voice : Voice K) (deadEnd? : N → Option Notice) :
    Step N K → List Notice
  | .expanded number entry children =>
    (if children.isEmpty then (deadEnd? entry.node).toList else []) ++
      [⟨.trace, voice.name ++ " expand #" ++ toString number ++ " depth=" ++
        toString entry.depth ++ voice.keyText entry.key ++ " children=" ++
        toString children.length⟩]
  | .pruned entry =>
    [⟨.trace, voice.name ++ " prune depth=" ++ toString entry.depth ++
      voice.keyText entry.key⟩]
  | .finished stats => [voice.finished stats]

/-- The reports of the rounds that led to an item. -/
def Pull.notices {F M K E σ : Type} (pull : Pull F M K E σ) (voice : Voice K)
    (deadEnd? : M → Option Notice) : List Notice :=
  pull.steps.flatMap fun step => step.notices voice deadEnd?

end GrammarSearch
