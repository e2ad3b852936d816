import GrammarSearch.Grammar.Evaluation
import GrammarSearch.Proofs.Program.Preorder
import Mathlib.Data.List.Nodup

/-!
# Faults of preparation

Whether a node of a program can be prepared is decided by its label: its symbol
and the number of its children. Preparation stops at the first label in
pre-order that has a fault (`Grammar.fault?_prepare`), and only preparation
finds holes (`Grammar.evaluate_reports_hole_iff`).
-/

namespace GrammarSearch

variable {V α β : Type}

/-! ## Faults of outcomes -/

/-- The fault that an evaluation came to. -/
def Traced.fault? (x : Traced V α) : Option GrammarError :=
  match x.outcome with
  | .ok _ => none
  | .error e => some e

theorem Traced.fault?_eq_some {x : Traced V α} {e : GrammarError} :
    x.fault? = some e ↔ x.outcome = .error e := by
  unfold Traced.fault?
  cases x.outcome <;> simp

theorem Traced.fault?_eq_none {x : Traced V α} : x.fault? = none ↔ ∃ a, x.outcome = .ok a := by
  unfold Traced.fault?
  cases x.outcome <;> simp

@[simp] theorem Traced.fault?_map (f : α → β) (x : Traced V α) : (x.map f).fault? = x.fault? := by
  unfold Traced.fault? Traced.map
  cases x.outcome <;> rfl

/-- What comes after a fault is not found out. -/
theorem Traced.fault?_bind {x : Traced V α} {f : α → Traced V β} {later : Option GrammarError}
    (same : ∀ a, (f a).fault? = later) : (x.bind f).fault? = x.fault?.or later := by
  unfold Traced.bind
  cases outcome : x.outcome with
  | ok a =>
    have none : x.fault? = none := Traced.fault?_eq_none.2 ⟨a, outcome⟩
    rw [none, Option.none_or, ← same a]
    rfl
  | error e =>
    rw [Traced.fault?_eq_some.2 outcome]
    rfl

/-- A fault is that of the first step or that of the next. -/
theorem Traced.fault?_of_bind {x : Traced V α} {f : α → Traced V β} {e : GrammarError}
    (fault : (x.bind f).fault? = some e) :
    x.fault? = some e ∨ ∃ a, (f a).fault? = some e := by
  unfold Traced.bind at fault
  cases outcome : x.outcome with
  | ok a =>
    rw [outcome] at fault
    exact .inr ⟨a, fault⟩
  | error e' =>
    rw [outcome] at fault
    left
    rw [Traced.fault?_eq_some.2 outcome]
    exact fault

/-! ## Productions by symbol -/

variable {g : Grammar V}

theorem Grammar.symbol_of_production? {symbol : String} {production : Production V}
    (found : g.production? symbol = some production) :
    production.symbol = symbol ∧ production ∈ g.productions :=
  ⟨by simpa using List.find?_some found, List.mem_of_find?_eq_some found⟩

/-- A production is found by its symbol. -/
theorem Grammar.production?_symbol {production : Production V}
    (member : production ∈ g.productions) : g.production? production.symbol = some production := by
  cases found : g.production? production.symbol with
  | none =>
    have := List.find?_eq_none.1 found production member
    simp at this
  | some other =>
    obtain ⟨same, among⟩ := Grammar.symbol_of_production? found
    rw [List.inj_on_of_nodup_map g.distinct among member same]

/-- Two productions of one symbol stand at one index. -/
theorem Grammar.index_eq_of_symbol_eq {i j : Nat} {a b : Production V}
    (at_i : g.productions[i]? = some a) (at_j : g.productions[j]? = some b)
    (same : a.symbol = b.symbol) : i = j := by
  have symbols : g.symbols[i]? = g.symbols[j]? := by
    simp only [Grammar.symbols, List.getElem?_map, at_i, at_j, Option.map_some, same]
  have bound : i < g.symbols.length := by
    have := (List.getElem?_eq_some_iff.1 at_i).1
    simpa [Grammar.symbols] using this
  exact (List.getElem?_inj bound g.distinct).1 symbols

/-! ## Faults of labels -/

/-- What is wrong with a node that has the label, if anything is. -/
def Grammar.fault? (g : Grammar V) : String × Nat → Option GrammarError
  | (symbol, arguments) =>
    if arguments = 0 ∧ isVariable symbol = true then some (.holeInProgram symbol)
    else
      match g.production? symbol with
      | none => some (.unknownSymbol symbol)
      | some production =>
        if production.arity ≠ arguments then
          some (.arityMismatch symbol production.arity arguments)
        else none

/-- A node is checked by its label. -/
theorem Grammar.fault?_label (g : Grammar V) (symbol : String) (children : List Program) :
    g.fault? (symbol, children.length) =
      match g.productionAt (.node symbol children) with
      | .ok _ => none
      | .error e => some e := by
  have hole : (Program.node symbol children).isHole = true ↔
      children.length = 0 ∧ isVariable symbol = true := by
    simp [Program.isHole, Program.isLeaf, Program.children, Program.symbol]
  unfold Grammar.fault? Grammar.productionAt
  dsimp only
  by_cases opened : children.length = 0 ∧ isVariable symbol = true
  · rw [if_pos opened, if_pos (hole.2 opened)]
    rfl
  · rw [if_neg opened, if_neg (mt hole.1 opened)]
    simp only [Program.symbol, Program.children]
    cases g.production? symbol with
    | none => rfl
    | some production => by_cases same : production.arity = children.length <;> simp [same]

theorem Production.fault?_prepare (production : Production V) (serial : Nat) :
    (production.prepare serial).fault? = none := by
  unfold Production.prepare
  cases production.meaning <;> rfl

mutual

/-- Preparation stops at the first fault in pre-order, and only there. -/
theorem Grammar.fault?_prepare (g : Grammar V) (serial : Nat) :
    ∀ p : Program, (g.prepare serial p).fault? = p.labels.findSome? g.fault?
  | .node symbol children => by
      rw [Grammar.prepare, Program.labels, List.findSome?_cons, Grammar.fault?_label]
      cases g.productionAt (.node symbol children) with
      | error e => rfl
      | ok production =>
        have below := Grammar.fault?_prepareList g serial children
        rw [Traced.fault?_bind fun prepared => by
          rw [Traced.fault?_map, Production.fault?_prepare], Option.or_none]
        exact below

theorem Grammar.fault?_prepareList (g : Grammar V) (serial : Nat) :
    ∀ ps : List Program,
      (g.prepareList serial ps).fault? = (Program.labelsList ps).findSome? g.fault?
  | [] => rfl
  | p :: ps => by
      rw [Grammar.prepareList, Program.labelsList, List.findSome?_append]
      rw [Traced.fault?_bind fun prepared => by
        rw [Traced.fault?_map, Grammar.fault?_prepareList g _ ps],
        Grammar.fault?_prepare g serial p]

end

/-! ## Computation -/

theorem Production.compute_reports_no_hole (production : Production V) (state : UseState V)
    (inputs : List V) (symbol : String) :
    (production.compute state inputs).fault? ≠ some (.holeInProgram symbol) := by
  have failed (result : Except String V) :
      result.mapError (GrammarError.computeFailed production.symbol) ≠
        .error (.holeInProgram symbol) := by
    cases result <;> exact fun same => by cases same
  rw [Ne, Traced.fault?_eq_some]
  unfold Production.compute
  split
  · simp [Traced.ofExcept]
  · split
    · exact failed _
    · exact failed _
    · simp [Traced.ofExcept]

mutual

/-- A computation does not report holes. -/
theorem Grammar.compute_reports_no_hole (g : Grammar V) (symbol : String) :
    ∀ p : Prepared V, (g.compute p).fault? ≠ some (.holeInProgram symbol)
  | .node name children state => by
      intro fault
      rw [Grammar.compute] at fault
      cases found : g.production? name with
      | none => simp [found, Traced.fault?, Traced.ofExcept] at fault
      | some production =>
        simp only [found] at fault
        rcases Traced.fault?_of_bind fault with below | ⟨inputs, here⟩
        · exact Grammar.computeList_reports_no_hole g symbol children below
        · exact production.compute_reports_no_hole state inputs symbol here

theorem Grammar.computeList_reports_no_hole (g : Grammar V) (symbol : String) :
    ∀ ps : List (Prepared V), (g.computeList ps).fault? ≠ some (.holeInProgram symbol)
  | [] => by simp [Grammar.computeList, Traced.fault?, Traced.ofExcept]
  | p :: ps => by
      intro fault
      rw [Grammar.computeList] at fault
      rcases Traced.fault?_of_bind fault with first | ⟨value, rest⟩
      · exact Grammar.compute_reports_no_hole g symbol p first
      · rw [Traced.fault?_map] at rest
        exact Grammar.computeList_reports_no_hole g symbol ps rest

end

/-- An evaluation reports a hole exactly if preparation does. -/
theorem Grammar.evaluate_reports_hole_iff (g : Grammar V) (serial : Nat) (p : Program)
    (symbol : String) :
    (g.evaluate serial p).fault? = some (.holeInProgram symbol) ↔
      (g.prepare serial p).fault? = some (.holeInProgram symbol) := by
  constructor
  · intro fault
    rcases Traced.fault?_of_bind fault with first | ⟨prepared, later⟩
    · exact first
    · exact absurd later (g.compute_reports_no_hole symbol prepared)
  · intro fault
    have outcome := Traced.fault?_eq_some.1 fault
    rw [Traced.fault?_eq_some, Grammar.evaluate, Traced.bind, outcome]

end GrammarSearch
