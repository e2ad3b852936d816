import GrammarSearch.Search.Frontier.Basic
import GrammarSearch.Search.Stats

/-!
# Traversals

A traversal takes nodes out of a frontier one by one and expands them: their
children are offered to the frontier one level deeper. `Traversal.step` is one
round of it; it knows nothing of goals.

`Traversal.next` runs a traversal up to the next item: a goal, or a node at
which the goal predicate failed. Neither ends the traversal, and the children of
such a node are offered like those of any other. A traversal of an infinite
graph may never come to an item, so `next` is given the number of rounds it may
take.
-/

namespace GrammarSearch

/-- The bounds of a traversal, each of them optional. -/
structure Limits where
  maxDepth : Option Nat
  maxExpansions : Option Nat
deriving DecidableEq

namespace Limits

/-- No further node may be expanded. -/
def spent (l : Limits) (expansions : Nat) : Bool :=
  match l.maxExpansions with
  | none => false
  | some bound => bound ≤ expansions

/-- A node at the depth is discarded. -/
def prunes (l : Limits) (depth : Nat) : Bool :=
  match l.maxDepth with
  | none => false
  | some bound => bound < depth

end Limits

/-- The greatest depth that is told apart from the depths above it. -/
def maxCountedDepth : Nat := 0xffffffff

/-- The depth of the children of a node at a depth. -/
def childDepth (depth : Nat) : Nat := min (depth + 1) maxCountedDepth

/-- A search of a graph: what is left to expand, and what was done. -/
structure Traversal (F N : Type) where
  graph : Graph N
  limits : Limits
  frontier : F
  stats : Stats

/-- What one round of a traversal did. -/
inductive Step (N K : Type)
  /-- A node was expanded into its children, as the expansion of this number. -/
  | expanded (number : Nat) (entry : Entry N K) (children : List N)
  /-- A node was discarded for its depth. -/
  | pruned (entry : Entry N K)
  /-- The traversal ended, with these counts. -/
  | finished (stats : Stats)

/-- What a search comes to. -/
inductive Item (N E : Type)
  /-- A node that satisfies the goal predicate. -/
  | goal (node : N)
  /-- The goal predicate failed at a node. -/
  | failed (error : E)
  /-- There are no more items. -/
  | ended
  /-- The rounds allowed did not suffice. -/
  | unfinished

/-- An item, the rounds that led to it in order, and what the search is left with. -/
structure Pull (F N K E σ : Type) where
  item : Item N E
  steps : List (Step N K)
  traversal : Traversal F N
  state : σ

namespace Traversal

variable {F N K E σ : Type} [Frontier F N K]

/-! ## One round -/

/-- Offers children found at a depth to a frontier: how many were duplicates, and the frontier
afterwards. -/
def offer (depth : Nat) (frontier : F) : List N → Nat × F
  | [] => (0, frontier)
  | child :: children =>
    let (fresh, frontier) := Frontier.push frontier child depth
    let (duplicates, frontier) := offer depth frontier children
    (if fresh then duplicates else duplicates + 1, frontier)

/-- Ends the traversal. -/
def finish (t : Traversal F N) (reason : Termination) : Step N K × Traversal F N :=
  let stats := { t.stats with termination := some reason }
  (.finished stats, { t with stats })

/-- Discards an entry. -/
def prune (t : Traversal F N) (entry : Entry N K) : Step N K × Traversal F N :=
  (.pruned entry, { t with stats := { t.stats with depthPruned := t.stats.depthPruned + 1 } })

/-- Expands an entry. -/
def expand (t : Traversal F N) (entry : Entry N K) : Step N K × Traversal F N :=
  let children := t.graph.expand entry.node
  let (duplicates, frontier) := offer (childDepth entry.depth) t.frontier children
  let s := t.stats
  let stats :=
    { s with
      expansions := s.expansions + 1
      nodesGenerated := s.nodesGenerated + children.length
      duplicatesSuppressed := s.duplicatesSuppressed + duplicates
      deadEnds := s.deadEnds + if children.isEmpty then 1 else 0
      frontierHighWater := Frontier.highWater frontier }
  (.expanded stats.expansions entry children, { t with frontier, stats })

/-- One round: the bound on expansions is checked first, then whether a node is left, then the
node's depth. -/
def step (t : Traversal F N) : Step N K × Traversal F N :=
  if t.limits.spent t.stats.expansions then t.finish .expansionBudgetExceeded
  else
    match Frontier.pop? t.frontier with
    | none => t.finish .frontierExhausted
    | some (entry, frontier) =>
      let t := { t with frontier }
      if t.limits.prunes entry.depth then t.prune entry else t.expand entry

/-! ## Up to the next item -/

/-- Counts a goal that is handed out. -/
def countGoal (t : Traversal F N) : Traversal F N :=
  { t with stats := { t.stats with goalsYielded := t.stats.goalsYielded + 1 } }

/-- The next item after the rounds in `steps`, given last first. -/
def nextAfter (goal : N → StateM σ (Except E Bool)) :
    Nat → Traversal F N → List (Step N K) → σ → Pull F N K E σ
  | 0, t, steps, state => ⟨.unfinished, steps.reverse, t, state⟩
  | rounds + 1, t, steps, state =>
    match t.step with
    | (.finished stats, t) => ⟨.ended, (.finished stats :: steps).reverse, t, state⟩
    | (.pruned entry, t) => nextAfter goal rounds t (.pruned entry :: steps) state
    | (.expanded number entry children, t) =>
      let steps := .expanded number entry children :: steps
      match (goal entry.node).run state with
      | (.ok false, state) => nextAfter goal rounds t steps state
      | (.ok true, state) => ⟨.goal entry.node, steps.reverse, t.countGoal, state⟩
      | (.error e, state) => ⟨.failed e, steps.reverse, t, state⟩

/-- The next item of a search whose goal predicate reads and changes a state. A search that has
ended stays as it is. -/
def next (goal : N → StateM σ (Except E Bool)) (rounds : Nat) (t : Traversal F N) (state : σ) :
    Pull F N K E σ :=
  if t.stats.termination.isSome then ⟨.ended, [], t, state⟩
  else nextAfter goal rounds t [] state

/-- More rounds than a search can take: its counts are 64-bit words. -/
def manyRounds : Nat := 0x4000000000000000

end Traversal

/-! ## The first item -/

/-- Why a search gave no goal. -/
inductive SearchError (E : Type)
  | noSolution
  | goalFailed (error : E)

/-- What a diagnostic says. -/
def SearchError.message {E : Type} : SearchError E → String
  | .noSolution => "no solution found"
  | .goalFailed _ => "goal predicate failed"

/-- The node of an item, or why there is none. -/
def Item.solution {N E : Type} : Item N E → Except (SearchError E) N
  | .goal node => .ok node
  | .failed e => .error (.goalFailed e)
  | .ended | .unfinished => .error .noSolution

end GrammarSearch
