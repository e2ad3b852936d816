import GrammarSearch.Proofs.Grammar.Preparation
import GrammarSearch.Proofs.Search.ProgramTree

/-!
# Three checks for holes

That a partial program has no holes is said in three ways: its list of holes is
empty, its symbols are all symbols of the grammar, and it can be prepared for
evaluation. A production whose symbol is that of a variable confuses them: as a
constant it looks like a hole, and it makes the placeholders with its symbol look
like programs. `programGraph_hole_checks` says what each check finds, and that
they agree if no production has such a symbol.
-/

namespace GrammarSearch

variable {V : Type} {g : Grammar V} {target : ScopedTy} {used : List Nat} {p : PartialProgram}

/-- The symbol of the first node in pre-order that looks like a hole. -/
def Program.firstHole? (p : Program) : Option String :=
  (p.labels.find? fun label => isHoleLabel (some label)).map Prod.fst

/-! ## Faults of partial programs -/

theorem Grammar.fault?_of_isHoleLabel {label : String × Nat}
    (opened : isHoleLabel (some label) = true) :
    g.fault? label = some (.holeInProgram label.1) := by
  rcases label with ⟨symbol, _ | arguments⟩
  · exact if_pos ⟨rfl, opened⟩
  · cases opened

/-- A production's own node has no fault, unless it looks like a hole. -/
theorem Grammar.fault?_of_mem {production : Production V} (member : production ∈ g.productions)
    (plain : isHoleLabel (some production.label) = false) : g.fault? production.label = none := by
  have shown : ¬(production.arity = 0 ∧ isVariable production.symbol = true) := by
    rintro ⟨arity, variable_symbol⟩
    rw [Production.label, arity, isHoleLabel, variable_symbol] at plain
    cases plain
  rw [Production.label, Grammar.fault?, if_neg shown, Grammar.production?_symbol member]
  simp

/-- Every node is made by a production or is the placeholder of an open hole. -/
theorem PartialProgram.LaidOut.of_mem_labels (laid : p.LaidOut g target used)
    {label : String × Nat} (member : label ∈ p.program.labels) :
    (∃ production ∈ g.productions, label = production.label) ∨ ∃ h ∈ p.holes, label = h.label := by
  have labels := laid.labels
  simp only [Program.labelsList, List.append_nil] at labels
  have here : some label ∈ used.map g.label? ++ p.holes.map fun h => some h.label :=
    labels ▸ List.mem_map_of_mem member
  rcases List.mem_append.1 here with made | opened
  · obtain ⟨index, -, found⟩ := List.mem_map.1 made
    obtain ⟨production, at_index, same⟩ := Option.map_eq_some_iff.1 found
    exact .inl ⟨production, List.mem_of_getElem? at_index, same.symm⟩
  · obtain ⟨h, open_hole, same⟩ := List.mem_map.1 opened
    exact .inr ⟨h, open_hole, (Option.some.inj same).symm⟩

theorem PartialProgram.LaidOut.label_mem (laid : p.LaidOut g target used) {h : Hole}
    (member : h ∈ p.holes) : h.label ∈ p.program.labels := by
  have labels := laid.labels
  simp only [Program.labelsList, List.append_nil] at labels
  have here : some h.label ∈ p.program.labels.map some :=
    labels ▸ List.mem_append_right _ (List.mem_map_of_mem member)
  simpa using here

/-- In a derived partial program nothing is wrong with a node but that it looks like a hole. -/
theorem PartialProgram.LaidOut.fault?_eq (laid : p.LaidOut g target used) {label : String × Nat}
    (member : label ∈ p.program.labels) :
    g.fault? label =
      if isHoleLabel (some label) = true then some (.holeInProgram label.1) else none := by
  split
  · next opened => exact Grammar.fault?_of_isHoleLabel opened
  · next plain =>
    rcases laid.of_mem_labels member with ⟨production, here, rfl⟩ | ⟨h, -, rfl⟩
    · exact Grammar.fault?_of_mem here (Bool.eq_false_iff.2 plain)
    · exact absurd h.isHoleLabel_label plain

theorem PartialProgram.LaidOut.fault?_prepare (laid : p.LaidOut g target used) (serial : Nat) :
    (g.prepare serial p.program).fault? = p.program.firstHole?.map .holeInProgram := by
  have faults := fun label (member : label ∈ p.program.labels) => laid.fault?_eq member
  rw [Grammar.fault?_prepare, Program.firstHole?]
  -- The labels are those of a derivation, but any part of them will do.
  generalize p.program.labels = labels at faults
  induction labels with
  | nil => rfl
  | cons label labels ih =>
    rw [List.findSome?_cons, List.find?_cons, faults label List.mem_cons_self]
    cases opened : isHoleLabel (some label) with
    | true => rfl
    | false => exact ih fun later member => faults later (List.mem_cons_of_mem _ member)

/-! ## The checks -/

theorem Program.firstHole?_eq_none {p : Program} :
    p.firstHole? = none ↔ ∀ label ∈ p.labels, isHoleLabel (some label) = false := by
  simp [Program.firstHole?, List.find?_eq_none]

/-- The placeholder of an open hole looks like a hole. -/
theorem PartialProgram.LaidOut.isComplete_of_firstHole? (laid : p.LaidOut g target used)
    (none : p.program.firstHole? = none) : p.isComplete = true := by
  unfold PartialProgram.isComplete
  cases holes : p.holes with
  | nil => rfl
  | cons h rest =>
    have open_hole : h ∈ p.holes := holes ▸ List.mem_cons_self
    have plain := Program.firstHole?_eq_none.1 none h.label (laid.label_mem open_hole)
    rw [h.isHoleLabel_label] at plain
    cases plain

/-- Where no production has the symbol of a variable, nothing but an open hole looks like one. -/
theorem PartialProgram.LaidOut.firstHole?_eq_none_iff (laid : p.LaidOut g target used)
    (plain : ∀ production ∈ g.productions, isVariable production.symbol = false) :
    p.program.firstHole? = none ↔ p.isComplete = true := by
  refine ⟨laid.isComplete_of_firstHole?, fun complete => ?_⟩
  apply Program.firstHole?_eq_none.2
  intro label member
  rcases laid.of_mem_labels member with ⟨production, here, rfl⟩ | ⟨h, open_hole, -⟩
  · unfold Production.label isHoleLabel
    split
    · next same =>
      obtain ⟨rfl, -⟩ := Prod.mk.inj (Option.some.inj same)
      exact plain production here
    · rfl
  · rw [List.isEmpty_iff.1 complete] at open_hole
    cases open_hole

theorem PartialProgram.LaidOut.covers_iff (laid : p.LaidOut g target used) :
    g.covers p.program = true ↔ ∀ h ∈ p.holes, (g.production? h.symbol).isSome = true := by
  rw [Grammar.covers, ← Program.map_fst_labels, List.all_map, List.all_eq_true]
  constructor
  · intro known h member
    exact known h.label (laid.label_mem member)
  · intro known label member
    rcases laid.of_mem_labels member with ⟨production, here, rfl⟩ | ⟨h, open_hole, rfl⟩
    · exact congrArg Option.isSome (Grammar.production?_symbol here)
    · exact known h open_hole

/-- The placeholder of an open hole is covered only by a production with its symbol. -/
theorem PartialProgram.LaidOut.isComplete_iff_covers (laid : p.LaidOut g target used)
    (plain : ∀ production ∈ g.productions, isVariable production.symbol = false) :
    p.isComplete = true ↔ g.covers p.program = true := by
  rw [laid.covers_iff]
  constructor
  · intro complete h member
    rw [List.isEmpty_iff.1 complete] at member
    cases member
  · intro known
    unfold PartialProgram.isComplete
    cases holes : p.holes with
    | nil => rfl
    | cons h rest =>
      have covered := known h (holes ▸ List.mem_cons_self)
      obtain ⟨production, found⟩ := Option.isSome_iff_exists.1 covered
      have same : production.symbol = h.symbol := by simpa using List.find?_some found
      have shown := plain production (List.mem_of_find?_eq_some found)
      rw [same] at shown
      simp [Hole.symbol, isVariable] at shown

/-- What the three checks find in a partial program, and what its evaluation does. They agree if
no production has the symbol of a variable. -/
theorem programGraph_hole_checks (reached : (programGraph g target).Reachable p) (serial : Nat) :
    (g.covers p.program = true ↔ ∀ h ∈ p.holes, (g.production? h.symbol).isSome = true) ∧
    ((∃ prepared, (g.prepare serial p.program).outcome = .ok prepared) ↔
      p.isComplete = true ∧ p.program.firstHole? = none) ∧
    (∀ symbol, (g.evaluate serial p.program).outcome = .error (.holeInProgram symbol) ↔
      p.program.firstHole? = some symbol) ∧
    ((∀ production ∈ g.productions, isVariable production.symbol = false) →
      (p.isComplete = true ↔ g.covers p.program = true) ∧
      (p.isComplete = true ↔
        ∃ prepared, (g.prepare serial p.program).outcome = .ok prepared) ∧
      (p.isComplete = true → ∀ symbol,
        (g.evaluate serial p.program).outcome ≠ .error (.holeInProgram symbol))) := by
  obtain ⟨used, derived⟩ := Grammar.reachable_iff_derive?.1 reached
  have laid := Grammar.laidOut_of_derive? derived
  have prepares : (∃ prepared, (g.prepare serial p.program).outcome = .ok prepared) ↔
      p.program.firstHole? = none := by
    rw [← Traced.fault?_eq_none, laid.fault?_prepare, Option.map_eq_none_iff]
  have reports (symbol : String) :
      (g.evaluate serial p.program).outcome = .error (.holeInProgram symbol) ↔
        p.program.firstHole? = some symbol := by
    rw [← Traced.fault?_eq_some, Grammar.evaluate_reports_hole_iff, laid.fault?_prepare]
    cases p.program.firstHole? <;> simp
  refine ⟨laid.covers_iff, ?_, reports, fun plain => ⟨laid.isComplete_iff_covers plain, ?_, ?_⟩⟩
  · rw [prepares]
    exact ⟨fun none => ⟨laid.isComplete_of_firstHole? none, none⟩, fun both => both.2⟩
  · rw [prepares, laid.firstHole?_eq_none_iff plain]
  · intro complete symbol
    rw [Ne, reports, (laid.firstHole?_eq_none_iff plain).2 complete]
    simp

/-- Of the bits the checks find the same. -/
theorem Sample.bits_hole_checks :
    (programGraph Sample.bits ⟨Sample.int, .empty⟩).Reachable ⟨.leaf "one", [], 1⟩ ∧
      Sample.bits.covers (.leaf "one") = true ∧
      ∃ prepared, (Sample.bits.prepare 0 (.leaf "one")).outcome = .ok prepared := by
  have reached : (programGraph Sample.bits ⟨Sample.int, .empty⟩).Reachable ⟨.leaf "one", [], 1⟩ :=
    Graph.Reachable.root.child (by decide)
  have plain : ∀ production ∈ Sample.bits.productions, isVariable production.symbol = false := by
    decide
  obtain ⟨covered, prepared, -⟩ := (programGraph_hole_checks reached 0).2.2.2 plain
  exact ⟨reached, covered.1 rfl, prepared.1 rfl⟩

/-- A constant that looks like a hole. -/
def Sample.disguised : Grammar Int64 where
  name := "disguised"
  productions := [Sample.production "$x" 0 (Sample.constant 1)]
  distinct := by decide

/-- A grammar may have such a constant, and then a program without holes cannot be evaluated. -/
theorem Sample.disguised_misses_checks :
    Grammar.ofProductions "disguised" [Sample.production "$x" 0 (Sample.constant 1)] =
        .ok Sample.disguised ∧
      ∃ p : PartialProgram,
        (programGraph Sample.disguised ⟨Sample.int, .empty⟩).Reachable p ∧ p.isComplete = true ∧
          Sample.disguised.covers p.program = true ∧
          (¬∃ prepared, (Sample.disguised.prepare 0 p.program).outcome = .ok prepared) ∧
          (Sample.disguised.evaluate 0 p.program).outcome = .error (.holeInProgram "$x") := by
  refine ⟨rfl, ⟨.leaf "$x", [], 1⟩, Graph.Reachable.root.child (by decide), rfl, by decide, ?_, rfl⟩
  rintro ⟨prepared, outcome⟩
  cases outcome

end GrammarSearch
