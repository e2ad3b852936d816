import GrammarSearch.Arithmetic.Sample
import GrammarSearch.Search.Goal
import GrammarSearch.Search.ProgramGraph
import GrammarSearch.Search.Strategy

/-!
# Regimes

A regime fixes a search for a program of a given value in the wide sample
grammar, so that runs can be compared: the grammar's padding, the value, the
strategy and the policy.
-/

namespace GrammarSearch

/-- Which strategy a regime uses. -/
inductive Regime.Strategy
  | breadthFirst
  | bestFirst
deriving DecidableEq

/-- A search that can be repeated. -/
structure Regime where
  padding : Nat
  target : Int64
  strategy : Regime.Strategy
  policy : Policy

namespace Regime

/-- The regimes by name. -/
def named : List (String × Regime) :=
  let budget (n : Nat) : Policy := { Policy.bounded 6 with maxExpansions := some n }
  [("bfs_shallow_goal", ⟨0, 3, .breadthFirst, budget 100000⟩),
    ("bfs_wide_budget_limited", ⟨16, -7, .breadthFirst, budget 5000⟩),
    ("astar_exhaustive_no_goal", ⟨0, 1000, .bestFirst, .bounded 6⟩),
    ("astar_wide_first_goal", ⟨8, 2, .bestFirst, .bounded 6⟩)]

/-- What a run came to: the first goal, if there was one, the counts, and the reports on the
way. -/
structure Outcome where
  solution : Option Program
  stats : Stats
  notices : List Notice

/-- The outcome of a search up to its first item. -/
def outcome {F K : Type} [Frontier F PartialProgram K] (voice : Voice K) (started : Notice)
    (goal : Goal) (t : Traversal F PartialProgram) : Outcome :=
  let pull := t.next goal Traversal.manyRounds 0
  { solution :=
      match pull.item with
      | .goal node => some node.program
      | _ => none
    stats := pull.traversal.stats
    notices := started :: pull.notices voice PartialProgram.deadEnd? }

/-- Every program costs the same. -/
def noCosts : Costs PartialProgram := .direct fun _ => .zero

/-- The outcome of a search for a goal among the integer programs of a grammar. -/
def search (g : Grammar Int64) (goal : Goal) (strategy : Strategy) (policy : Policy) :
    Except PolicyError Outcome :=
  let graph := programGraph g (.bare Sample.int)
  match strategy with
  | .breadthFirst =>
    (breadthFirst graph policy).map (outcome .breadthFirst (breadthFirstStarted policy) goal)
  | .bestFirst =>
    (bestFirst graph noCosts policy).map (outcome .bestFirst (bestFirstStarted policy) goal)

/-- Runs a regime in a grammar. -/
def run (r : Regime) (g : Grammar Int64) : Except PolicyError Outcome :=
  search g (.evaluatesToQuietly g r.target) r.strategy r.policy

/-- The outcome of a breadth-first search without bounds for a program of a value. -/
def first (g : Grammar Int64) (target : Int64) : Except PolicyError Outcome :=
  search g (.evaluatesToQuietly g target) .breadthFirst .default

/-- The outcome of a best-first search for nothing: it expands every partial program within a
depth, so its count of expansions is their number. -/
def sweep (g : Grammar Int64) (maxDepth : Nat) : Except PolicyError Outcome :=
  search g .never .bestFirst (.bounded maxDepth)

end Regime

end GrammarSearch
