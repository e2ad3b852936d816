import GrammarSearch.Json.Printer

/-!
# Search statistics

What a search has done so far, in counts, and why it ended if it has.
-/

namespace GrammarSearch

/-- Why a search ended. -/
inductive Termination
  /-- No node is left to expand. -/
  | frontierExhausted
  /-- The bound on expansions was reached. -/
  | expansionBudgetExceeded
deriving DecidableEq

/-- The name of a reason. -/
def Termination.name : Termination → String
  | .frontierExhausted => "frontier_exhausted"
  | .expansionBudgetExceeded => "expansion_budget_exceeded"

/-- The counts of a search. -/
structure Stats where
  /-- Nodes that were tested and expanded. -/
  expansions : Nat
  /-- Children that expansions produced, duplicates included. -/
  nodesGenerated : Nat
  /-- Children dropped as duplicates. -/
  duplicatesSuppressed : Nat
  /-- Expansions without children. -/
  deadEnds : Nat
  /-- Nodes discarded for their depth. -/
  depthPruned : Nat
  /-- Goals handed out. -/
  goalsYielded : Nat
  /-- The greatest length of the frontier. -/
  frontierHighWater : Nat
  /-- Why the search ended, once it has. -/
  termination : Option Termination
deriving DecidableEq

namespace Stats

/-- Nothing was done. -/
def zero : Stats := ⟨0, 0, 0, 0, 0, 0, 0, none⟩

instance : Inhabited Stats := ⟨zero⟩

/-- The counts of a search whose frontier holds only the root. -/
def initial : Stats := { zero with frontierHighWater := 1 }

/-- The counts as a JSON value. -/
def toJson (s : Stats) : Json :=
  .object [("dead_ends", .ofNat s.deadEnds), ("depth_pruned", .ofNat s.depthPruned),
    ("duplicates_suppressed", .ofNat s.duplicatesSuppressed),
    ("expansions", .ofNat s.expansions),
    ("frontier_high_water", .ofNat s.frontierHighWater),
    ("goals_yielded", .ofNat s.goalsYielded), ("nodes_generated", .ofNat s.nodesGenerated),
    ("termination", match s.termination with
      | none => .null
      | some reason => .text reason.name)]

end Stats

end GrammarSearch
