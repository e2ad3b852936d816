import GrammarSearch.Search.Graph
import Std.Data.TreeMap

/-!
# Memoized functions of nodes

A memo computes a function of nodes at most once for every fingerprint and
keeps the values for as long as it lives. It counts how often a value was found
and how often it had to be computed.
-/

namespace GrammarSearch

/-- A function of nodes with the values computed so far. -/
structure Memo (N V : Type) where
  compute : N → V
  table : Std.TreeMap Nat V
  hits : Nat
  misses : Nat

namespace Memo

variable {N V : Type}

/-- A memo that has computed nothing. -/
def empty (compute : N → V) : Memo N V := ⟨compute, ∅, 0, 0⟩

/-- The value of a node, and the memo afterwards, where a value that is not kept is computed by a
function that may have effects. -/
def getM {M : Type → Type} [Monad M] [Fingerprinted N] (compute : N → M V) (m : Memo N V)
    (node : N) : M (V × Memo N V) :=
  let fingerprint := (Fingerprinted.fingerprint node).value
  match m.table[fingerprint]? with
  | some value => pure (value, { m with hits := m.hits + 1 })
  | none => do
    let value ← compute node
    pure (value, { m with table := m.table.insert fingerprint value, misses := m.misses + 1 })

/-- The value of a node, and the memo afterwards. -/
def get [Fingerprinted N] (m : Memo N V) (node : N) : V × Memo N V :=
  Id.run (m.getM (fun node => pure (m.compute node)) node)

theorem get_of_some [Fingerprinted N] {m : Memo N V} {node : N} {value : V}
    (kept : m.table[(Fingerprinted.fingerprint node).value]? = some value) :
    m.get node = (value, { m with hits := m.hits + 1 }) := by
  simp only [get, getM, kept, Id.run_pure]

theorem get_of_none [Fingerprinted N] {m : Memo N V} {node : N}
    (new : m.table[(Fingerprinted.fingerprint node).value]? = none) :
    m.get node = (m.compute node, { m with
      table := m.table.insert (Fingerprinted.fingerprint node).value (m.compute node)
      misses := m.misses + 1 }) := by
  simp only [get, getM, new, Id.run_bind, Id.run_pure]

/-- The number of values kept. -/
def size (m : Memo N V) : Nat := m.table.size

/-- What a diagnostic shows of a memo. -/
def description (m : Memo N V) : String :=
  "MemoizedMetadata \x7b entries: " ++ toString m.size ++ ", hits: " ++ toString m.hits ++
    ", misses: " ++ toString m.misses ++ ", .. \x7d"

end Memo

end GrammarSearch
