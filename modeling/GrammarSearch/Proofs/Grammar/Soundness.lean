import GrammarSearch.Proofs.Grammar.Computation

/-!
# Soundness of preparation

The first pass of an evaluation lets through the programs all whose nodes are uses of productions,
and no others. What it makes of such a program leaves nothing for the second pass to object to:
every node has a production, with as many arguments as the node has children and of the kind of the
node's state (`Grammar.Fits`). So of the faults that a computation looks for only the failure of a
function is left, and it is that of the first function that fails in post-order
(`Grammar.prepare_sound`).
-/

namespace GrammarSearch

variable {V : Type} {g : Grammar V}

/-! ## Programs that are let through -/

namespace Grammar

/-- A label has no fault if it is not that of a hole and a production has it. -/
theorem fault?_eq_none_iff {label : String × Nat} :
    g.fault? label = none ↔
      ¬(label.2 = 0 ∧ isVariable label.1 = true) ∧
        ∃ production ∈ g.productions, production.symbol = label.1 ∧ production.arity = label.2 := by
  obtain ⟨symbol, arguments⟩ := label
  unfold fault?
  dsimp only
  by_cases hole : arguments = 0 ∧ isVariable symbol = true
  · simp [hole]
  · rw [if_neg hole]
    constructor
    · intro clean
      cases found : g.production? symbol with
      | none => simp [found] at clean
      | some production =>
        obtain ⟨same, member⟩ := symbol_of_production? found
        refine ⟨hole, production, member, same, ?_⟩
        simpa [found] using clean
    · rintro ⟨-, production, member, rfl, same⟩
      simp [production?_symbol member, same]

/-- The programs of which all labels are without fault are prepared. -/
theorem prepare_succeeds_iff {serial : Nat} {p : Program} :
    (∃ t, (g.prepare serial p).outcome = .ok t) ↔ ∀ label ∈ p.labels, g.fault? label = none := by
  rw [← Traced.fault?_eq_none, fault?_prepare, List.findSome?_eq_none_iff]

/-! ## What is made of them -/

theorem exists_of_prepare {serial : Nat} {symbol : String} {children : List Program}
    {t : Prepared V} (outcome : (g.prepare serial (.node symbol children)).outcome = .ok t) :
    ∃ production prepared state,
      g.productionAt (.node symbol children) = .ok production ∧
        (g.prepareList serial children).outcome = .ok prepared ∧
          (production.prepare (serial + (g.prepareList serial children).preparations)).outcome =
              .ok state ∧
            t = .node symbol prepared state := by
  rw [prepare] at outcome
  cases found : g.productionAt (.node symbol children) with
  | error e =>
    rw [found] at outcome
    cases outcome
  | ok production =>
    rw [found] at outcome
    obtain ⟨prepared, below, outcome⟩ := Traced.exists_of_bind_eq_ok outcome
    obtain ⟨state, made, rfl⟩ := Traced.exists_of_map_eq_ok outcome
    exact ⟨production, prepared, state, rfl, below, made, rfl⟩

theorem exists_of_prepareList {serial : Nat} {p : Program} {ps : List Program}
    {ts : List (Prepared V)} (outcome : (g.prepareList serial (p :: ps)).outcome = .ok ts) :
    ∃ t rest, (g.prepare serial p).outcome = .ok t ∧
      (g.prepareList (serial + (g.prepare serial p).preparations) ps).outcome = .ok rest ∧
        ts = t :: rest := by
  rw [prepareList] at outcome
  obtain ⟨t, first, outcome⟩ := Traced.exists_of_bind_eq_ok outcome
  obtain ⟨rest, later, rfl⟩ := Traced.exists_of_map_eq_ok outcome
  exact ⟨t, rest, first, later, rfl⟩

mutual

/-- A prepared program has the shape and the symbols of the program. -/
theorem program_of_prepare : ∀ {p : Program} {serial : Nat} {t : Prepared V},
    (g.prepare serial p).outcome = .ok t → t.program = p
  | .node symbol children, serial, t, outcome => by
      obtain ⟨production, prepared, state, -, below, -, rfl⟩ := exists_of_prepare outcome
      rw [Prepared.program, programs_of_prepareList below]

theorem programs_of_prepareList : ∀ {ps : List Program} {serial : Nat} {ts : List (Prepared V)},
    (g.prepareList serial ps).outcome = .ok ts → Prepared.programs ts = ps
  | [], serial, ts, outcome => by
      obtain rfl := Except.ok.inj outcome
      rfl
  | p :: ps, serial, ts, outcome => by
      obtain ⟨t, rest, first, later, rfl⟩ := exists_of_prepareList outcome
      rw [Prepared.programs, program_of_prepare first, programs_of_prepareList later]

end

end Grammar

theorem Prepared.length_programs (ts : List (Prepared V)) : (programs ts).length = ts.length := by
  induction ts with
  | nil => rfl
  | cons t ts ih => rw [programs, List.length_cons, List.length_cons, ih]

theorem Production.isParameterized_of_prepare {production : Production V} {serial : Nat}
    {state : UseState V} (made : (production.prepare serial).outcome = .ok state) :
    state.isParameterized = production.isParameterized := by
  obtain ⟨symbol, signature, meaning⟩ := production
  cases meaning <;> obtain rfl := Except.ok.inj made <;> rfl

namespace Grammar

/-- The node is a use of a production: it has as many children as the production has arguments, and
a state of the production's kind. -/
def Fits (g : Grammar V) (node : Prepared V) : Prop :=
  ∃ production ∈ g.productions, production.symbol = node.symbol ∧
    node.children.length = production.arity ∧
      node.state.isParameterized = production.isParameterized

mutual

/-- All nodes of a prepared program are uses of productions. -/
theorem fits_of_prepare : ∀ {p : Program} {serial : Nat} {t : Prepared V},
    (g.prepare serial p).outcome = .ok t → ∀ node ∈ t.postorder, g.Fits node
  | .node symbol children, serial, t, outcome, node, member => by
      obtain ⟨production, prepared, state, found, below, made, rfl⟩ := exists_of_prepare outcome
      rw [Prepared.postorder_node, List.mem_append, List.mem_singleton] at member
      rcases member with inside | rfl
      · exact fits_of_prepareList below node inside
      · obtain ⟨known, arity⟩ := production?_of_productionAt found
        obtain ⟨same, among⟩ := symbol_of_production? known
        -- The arity was checked against the children of the program.
        have length : prepared.length = children.length := by
          rw [← programs_of_prepareList below, Prepared.length_programs]
        exact ⟨production, among, same, length.trans arity.symm,
          Production.isParameterized_of_prepare made⟩

theorem fits_of_prepareList : ∀ {ps : List Program} {serial : Nat} {ts : List (Prepared V)},
    (g.prepareList serial ps).outcome = .ok ts → ∀ node ∈ Prepared.postorderList ts, g.Fits node
  | [], serial, ts, outcome, node, member => by
      obtain rfl := Except.ok.inj outcome
      cases member
  | p :: ps, serial, ts, outcome, node, member => by
      obtain ⟨t, rest, first, later, rfl⟩ := exists_of_prepareList outcome
      rw [Prepared.postorderList_cons, List.mem_append] at member
      rcases member with inside | behind
      · exact fits_of_prepare first node inside
      · exact fits_of_prepareList later node behind

end

end Grammar

/-! ## Their computation -/

mutual

/-- A node that is entered is left. -/
theorem Prepared.mem_postorder_of_enter : ∀ {t inner : Prepared V},
    .enter inner ∈ t.visits → inner ∈ t.postorder
  | .node symbol children state, inner, entered => by
      simp only [visits, List.mem_cons, Visit.enter.injEq, List.mem_append, reduceCtorEq,
        List.not_mem_nil, or_false] at entered
      rw [postorder_node, List.mem_append, List.mem_singleton]
      exact entered.symm.imp_left mem_postorderList_of_enter

theorem Prepared.mem_postorderList_of_enter : ∀ {ts : List (Prepared V)} {inner : Prepared V},
    .enter inner ∈ visitsList ts → inner ∈ postorderList ts
  | [], inner, entered => by cases entered
  | t :: ts, inner, entered => by
      rw [visitsList, List.mem_append] at entered
      rw [postorderList_cons, List.mem_append]
      exact entered.imp mem_postorder_of_enter mem_postorderList_of_enter

end

namespace Grammar

/-- At a node that is a use of a production only the failure of a function is found, when the node
is left. -/
theorem faultAt?_of_fits {t : Prepared V} (fits : ∀ node ∈ t.postorder, g.Fits node)
    {visit : Visit (Prepared V)} (member : visit ∈ t.visits) :
    g.faultAt? visit =
      visit.left?.bind fun node => (g.failure? node).map (.computeFailed node.symbol) := by
  cases visit with
  | enter node =>
    obtain ⟨production, among, same, -⟩ := fits node (Prepared.mem_postorder_of_enter member)
    simp [faultAt?, Visit.left?, ← same, production?_symbol among]
  | leave node =>
    obtain ⟨production, among, same, length, kind⟩ :=
      fits node (List.mem_filterMap.2 ⟨_, member, rfl⟩)
    simp [faultAt?, Visit.left?, ← same, production?_symbol among, length, kind]

/-- The fault of such a computation is the first failure in post-order. -/
theorem fault?_compute_of_fits {t : Prepared V} (fits : ∀ node ∈ t.postorder, g.Fits node) :
    (g.compute t).fault? =
      t.postorder.findSome? fun node => (g.failure? node).map (.computeFailed node.symbol) := by
  rw [fault?_compute, Prepared.postorder, ← List.head?_filterMap, ← List.head?_filterMap,
    List.filterMap_filterMap, List.filterMap_congr fun visit member => faultAt?_of_fits fits member]

/-- A program is prepared exactly if none of its nodes is a hole and every node has a production
with as many arguments as the node has children; otherwise preparation reports the first node in
pre-order that is not so. What is prepared has the shape and the symbols of the program and states
of the right kinds, and its computation comes to its value or to the failure of the first function
that fails in post-order. -/
theorem prepare_sound (g : Grammar V) (serial : Nat) (p : Program) :
    ((∃ t, (g.prepare serial p).outcome = .ok t) ↔
        ∀ label ∈ p.labels, ¬(label.2 = 0 ∧ isVariable label.1 = true) ∧
          ∃ production ∈ g.productions,
            production.symbol = label.1 ∧ production.arity = label.2) ∧
      (∀ e, (g.prepare serial p).outcome = .error e ↔
        ∃ before label after, p.labels = before ++ label :: after ∧ g.fault? label = some e ∧
          ∀ earlier ∈ before, g.fault? earlier = none) ∧
        ∀ t, (g.prepare serial p).outcome = .ok t →
          t.program = p ∧ (∀ node ∈ t.postorder, g.Fits node) ∧
            (∀ value, (g.compute t).outcome = .ok value ↔ g.value? t = some value) ∧
              ∀ e, (g.compute t).outcome = .error e ↔
                ∃ before node after, t.postorder = before ++ node :: after ∧
                  (∃ cause, g.failure? node = some cause ∧ .computeFailed node.symbol cause = e) ∧
                    ∀ earlier ∈ before, g.failure? earlier = none := by
  refine ⟨?_, fun e => ?_, fun t outcome => ?_⟩
  · simp only [prepare_succeeds_iff, fault?_eq_none_iff]
  · rw [← Traced.fault?_eq_some, fault?_prepare, List.findSome?_eq_some_iff]
  · refine ⟨program_of_prepare outcome, fits_of_prepare outcome, fun value => outcome_compute_eq_ok,
      fun e => ?_⟩
    rw [← Traced.fault?_eq_some, fault?_compute_of_fits (fits_of_prepare outcome),
      List.findSome?_eq_some_iff]
    simp only [Option.map_eq_some_iff, Option.map_eq_none_iff]

end Grammar

/-- A sum of two counts, of which the second counts on from a constant without a value. -/
def Sample.failing : Program :=
  .node "add" [.node "count" [.leaf "one"], .node "count" [.leaf "boom"]]

/-- The second count, when parameters were made four times before. -/
def Sample.laterCount : Prepared Int64 :=
  .node "count" [.node "boom" [] .stateless] (.parameterized [("count", 4)])

/-- What is prepared for the sum, when parameters were made three times before. -/
def Sample.failingPrepared : Prepared Int64 :=
  .node "add"
    [.node "count" [.node "one" [] .stateless] (.parameterized [("count", 3)]),
      Sample.laterCount] .stateless

/-- The constant is the first node that fails. -/
theorem Sample.failing_sound :
    (Sample.counts.prepare 3 Sample.failing).outcome = .ok Sample.failingPrepared ∧
      Sample.failingPrepared.program = Sample.failing ∧
        (Sample.counts.compute Sample.failingPrepared).outcome =
          .error (.computeFailed "boom" "boom cannot be evaluated") := by
  have outcome : (Sample.counts.prepare 3 Sample.failing).outcome = .ok Sample.failingPrepared :=
    rfl
  obtain ⟨-, -, prepared⟩ := Sample.counts.prepare_sound 3 Sample.failing
  obtain ⟨program, -, -, faults⟩ := prepared Sample.failingPrepared outcome
  refine ⟨outcome, program, (faults _).2 ⟨Sample.failingPrepared.postorder.take 2, ?_⟩⟩
  exact ⟨_, _, rfl, ⟨_, rfl, rfl⟩, by decide⟩

end GrammarSearch
