import GrammarSearch.Arithmetic.Sample
import GrammarSearch.Proofs.Grammar.Visits
import Mathlib.Data.List.Forall2

/-!
# Computation of prepared programs

The second pass of an evaluation may be given any tree, whether or not the first pass has made it.
So it checks all over again: that a symbol is known when it enters a node, and the number of the
children and the kind of the state when it leaves the node, before it calls the function of the
production. `compute_guarded` says that no function is called without these checks, and which of
several faults of a tree is reported.
-/

namespace GrammarSearch

variable {V : Type} {g : Grammar V}

/-! ## Functions of productions -/

/-- The parameters that a state holds. -/
def UseState.params? : UseState V → Option (Params V)
  | .stateless => none
  | .parameterized params => some params

namespace Production

variable {production : Production V} {state : UseState V} {inputs : List V}

/-- What the function of a production answers to inputs in the state of a use. It takes only as many
inputs as the production has arguments, and only a state of the production's kind. -/
def answer? (production : Production V) (state : UseState V) (inputs : List V) :
    Option (Except String V) :=
  if inputs.length ≠ production.arity then none
  else
    match production.meaning, state with
    | .stateless compute, .stateless => some (compute inputs)
    | .parameterized _ compute, .parameterized params => some (compute inputs params)
    | _, _ => none

theorem isSome_answer? :
    (production.answer? state inputs).isSome = true ↔
      inputs.length = production.arity ∧
        state.isParameterized = production.isParameterized := by
  unfold answer? isParameterized
  by_cases same : inputs.length = production.arity
  · cases production.meaning <;> cases state <;> simp [same, UseState.isParameterized]
  · simp [same]

/-- A production that is computed calls its function and tells what the function answers. -/
theorem compute_of_answer {answer : Except String V}
    (answered : production.answer? state inputs = some answer) :
    production.compute state inputs =
      ⟨[.computed production.symbol inputs state.params?],
        answer.mapError (.computeFailed production.symbol)⟩ := by
  obtain ⟨symbol, signature, meaning⟩ := production
  unfold answer? at answered
  unfold compute
  split at answered
  · cases answered
  · next enough =>
    rw [if_neg enough]
    cases meaning with
    | stateless compute =>
      cases state with
      | stateless =>
        obtain rfl := Option.some.inj answered
        rfl
      | parameterized params => cases answered
    | parameterized initial compute =>
      cases state with
      | stateless => cases answered
      | parameterized params =>
        obtain rfl := Option.some.inj answered
        rfl

/-- Without an answer nothing is called; a wrong number of inputs is reported first. -/
theorem compute_of_no_answer (unasked : production.answer? state inputs = none) :
    production.compute state inputs =
      .ofExcept (.error (if inputs.length ≠ production.arity then
        .arityMismatch production.symbol production.arity inputs.length
        else .stateMismatch production.symbol)) := by
  obtain ⟨symbol, signature, meaning⟩ := production
  unfold answer? at unasked
  unfold compute
  split
  · rfl
  · next enough =>
    rw [if_neg enough] at unasked
    cases meaning with
    | stateless compute =>
      cases state with
      | stateless => cases unasked
      | parameterized params => rfl
    | parameterized initial compute =>
      cases state with
      | stateless => rfl
      | parameterized params => cases unasked

theorem toOption_compute :
    (production.compute state inputs).outcome.toOption =
      (production.answer? state inputs).bind Except.toOption := by
  cases answered : production.answer? state inputs with
  | none =>
    rw [compute_of_no_answer answered]
    rfl
  | some answer =>
    rw [compute_of_answer answered]
    cases answer <;> rfl

end Production

/-! ## Values -/

namespace Grammar

mutual

/-- The value of a prepared program: what the function of the production at the root answers to the
values of the children. There is none where a function cannot be asked or fails. -/
def value? (g : Grammar V) : Prepared V → Option V
  | .node symbol children state =>
    (g.production? symbol).bind fun production =>
      (values? g children).bind fun inputs =>
        (production.answer? state inputs).bind Except.toOption

/-- The values of prepared programs, if all of them have one. -/
def values? (g : Grammar V) : List (Prepared V) → Option (List V)
  | [] => some []
  | t :: ts => (value? g t).bind fun value => (values? g ts).map (value :: ·)

end

theorem values?_eq_some {ts : List (Prepared V)} {values : List V} :
    g.values? ts = some values ↔
      List.Forall₂ (fun t value => g.value? t = some value) ts values := by
  induction ts generalizing values with
  | nil => simp [values?, eq_comm]
  | cons t ts ih =>
    rw [values?, List.forall₂_cons_left_iff, Option.bind_eq_some_iff]
    constructor
    · rintro ⟨value, first, rest⟩
      obtain ⟨others, later, rfl⟩ := Option.map_eq_some_iff.1 rest
      exact ⟨value, others, first, ih.1 later, rfl⟩
    · rintro ⟨value, others, first, later, rfl⟩
      exact ⟨value, first, Option.map_eq_some_iff.2 ⟨others, ih.2 later, rfl⟩⟩

mutual

/-- A computation comes to the value, or to none. -/
theorem toOption_compute (g : Grammar V) :
    ∀ t : Prepared V, (g.compute t).outcome.toOption = g.value? t
  | .node symbol children state => by
      rw [compute, value?]
      cases g.production? symbol with
      | none => rfl
      | some production =>
        rw [Option.bind_some, ← toOption_computeList g children]
        dsimp only
        cases below : (g.computeList children).outcome with
        | error e =>
          rw [Traced.bind_of_error below]
          rfl
        | ok inputs =>
          rw [Traced.bind_of_ok below]
          exact production.toOption_compute

theorem toOption_computeList (g : Grammar V) :
    ∀ ts : List (Prepared V), (g.computeList ts).outcome.toOption = g.values? ts
  | [] => rfl
  | t :: ts => by
      rw [computeList, values?, ← toOption_compute g t, ← toOption_computeList g ts]
      cases first : (g.compute t).outcome with
      | error e =>
        rw [Traced.bind_of_error first]
        rfl
      | ok value =>
        rw [Traced.bind_of_ok first, Traced.map]
        cases (g.computeList ts).outcome <;> rfl

end

theorem outcome_compute_eq_ok {t : Prepared V} {value : V} :
    (g.compute t).outcome = .ok value ↔ g.value? t = some value := by
  rw [← toOption_compute]
  cases (g.compute t).outcome <;> simp [Except.toOption]

mutual

/-- A prepared program has a value only if all its nodes have. -/
theorem isSome_value?_of_mem (g : Grammar V) : ∀ t : Prepared V, (g.value? t).isSome →
    ∀ node ∈ t.postorder, (g.value? node).isSome
  | .node symbol children state, valued, node, member => by
      rw [Prepared.postorder_node, List.mem_append, List.mem_singleton] at member
      rcases member with below | rfl
      · rw [value?] at valued
        cases found : g.production? symbol with
        | none => simp [found] at valued
        | some production =>
          rw [found, Option.bind_some] at valued
          exact isSome_value?_of_memList g children (Option.isSome_of_isSome_bind valued) node below
      · exact valued

theorem isSome_value?_of_memList (g : Grammar V) : ∀ ts : List (Prepared V), (g.values? ts).isSome →
    ∀ node ∈ Prepared.postorderList ts, (g.value? node).isSome
  | [], _, _, member => by cases member
  | t :: ts, valued, node, member => by
      rw [values?] at valued
      obtain ⟨value, first⟩ := Option.isSome_iff_exists.1 (Option.isSome_of_isSome_bind valued)
      rw [Prepared.postorderList_cons, List.mem_append] at member
      rcases member with inside | later
      · exact isSome_value?_of_mem g t (by rw [first]; rfl) node inside
      · rw [first, Option.bind_some, Option.isSome_map] at valued
        exact isSome_value?_of_memList g ts valued node later

end

/-! ## Visits -/

/-- What the function at a node answers to the values of the children. -/
def answer? (g : Grammar V) (t : Prepared V) : Option (Except String V) :=
  (g.production? t.symbol).bind fun production =>
    (g.values? t.children).bind fun inputs => production.answer? t.state inputs

/-- The cause for which the function at a node fails. -/
def failure? (g : Grammar V) (t : Prepared V) : Option String :=
  match g.answer? t with
  | some (.error cause) => some cause
  | _ => none

/-- The fault that a computation may find at a visit. A node is entered only with a symbol that is
known. When it is left, the number of its children is checked first, then the kind of its state, and
then its function is called. -/
def faultAt? (g : Grammar V) : Visit (Prepared V) → Option GrammarError
  | .enter t => if (g.production? t.symbol).isSome then none else some (.unknownSymbol t.symbol)
  | .leave t =>
    (g.production? t.symbol).bind fun production =>
      if t.children.length ≠ production.arity then
        some (.arityMismatch t.symbol production.arity t.children.length)
      else if t.state.isParameterized ≠ production.isParameterized then
        some (.stateMismatch t.symbol)
      else (g.failure? t).map (.computeFailed t.symbol)

/-- The call of the function at a node. -/
def callAt? (g : Grammar V) (t : Prepared V) : Option (Call V) :=
  (g.values? t.children).bind fun inputs =>
    (g.answer? t).map fun _ => .computed t.symbol inputs t.state.params?

theorem course_compute_production {symbol : String} {children : List (Prepared V)}
    {state : UseState V} {production : Production V} {inputs : List V}
    (found : g.production? symbol = some production)
    (values : g.values? children = some inputs) :
    (production.compute state inputs).course =
      .act (g.callAt? (.node symbol children state))
        (g.faultAt? (.leave (.node symbol children state))) := by
  obtain ⟨rfl, -⟩ := symbol_of_production? found
  have length : children.length = inputs.length := (values?_eq_some.1 values).length_eq
  have asked : g.answer? (.node production.symbol children state) =
      production.answer? state inputs := by
    simp [answer?, Prepared.symbol, Prepared.children, Prepared.state, found, values]
  simp only [Traced.act, Option.bind_some, callAt?, faultAt?, failure?, asked, Prepared.symbol,
    Prepared.children, Prepared.state, values, found, length]
  -- Without an answer one of the two checks has failed, and the number of inputs comes first.
  cases answered : production.answer? state inputs with
  | none =>
    have unguarded := mt Production.isSome_answer?.2 (by rw [answered]; simp)
    rw [production.compute_of_no_answer answered]
    by_cases same : inputs.length = production.arity
    · have other : state.isParameterized ≠ production.isParameterized :=
        fun kind => unguarded ⟨same, kind⟩
      simp [same, other, Traced.course, Traced.map, Traced.ofExcept, Except.map]
    · simp [same, Traced.course, Traced.map, Traced.ofExcept, Except.map]
  | some answer =>
    obtain ⟨same, kind⟩ := Production.isSome_answer?.1 (by rw [answered]; rfl)
    rw [production.compute_of_answer answered]
    cases answer <;> simp [same, kind, Traced.course, Traced.map, Except.map, Except.mapError]

mutual

/-- To compute a prepared program is to visit it. -/
theorem course_compute (g : Grammar V) :
    ∀ t : Prepared V, (g.compute t).course =
      .pass (fun visit => visit.left?.bind g.callAt?) g.faultAt? t.visits
  | .node symbol children state => by
      rw [compute, Prepared.visits]
      cases found : g.production? symbol with
      | none =>
        have fault : g.faultAt? (.enter (.node symbol children state)) =
            some (.unknownSymbol symbol) := by
          simp [faultAt?, Prepared.symbol, found]
        rw [Traced.pass_of_fault fault]
        rfl
      | some production =>
        have clean : g.faultAt? (.enter (.node symbol children state)) = none := by
          simp [faultAt?, Prepared.symbol, found]
        have below := course_computeList g children
        rw [Traced.pass_of_clean clean, Traced.pass_append, ← below, Traced.pass_singleton]
        refine Traced.course_bind fun inputs outcome => course_compute_production found ?_
        rw [← toOption_computeList, outcome]
        rfl

theorem course_computeList (g : Grammar V) :
    ∀ ts : List (Prepared V), (g.computeList ts).course =
      .pass (fun visit => visit.left?.bind g.callAt?) g.faultAt? (Prepared.visitsList ts)
  | [] => rfl
  | t :: ts => by
      rw [computeList, Prepared.visitsList, Traced.pass_append, ← course_compute g t]
      exact Traced.course_bind fun value _ => by rw [Traced.course_map, course_computeList g ts]

end

/-- The fault of a computation is the first that it finds at a visit. -/
theorem fault?_compute (g : Grammar V) (t : Prepared V) :
    (g.compute t).fault? = t.visits.findSome? g.faultAt? := by
  rw [← Traced.fault?_course, course_compute, Traced.fault?_pass]

/-- A computation calls a function when it leaves a node, until it finds a fault. -/
theorem calls_compute (g : Grammar V) (t : Prepared V) :
    (g.compute t).calls =
      ((reached g.faultAt? t.visits).filterMap Visit.left?).filterMap g.callAt? := by
  rw [← Traced.calls_course, course_compute, Traced.calls_pass, List.filterMap_filterMap]

/-! ## Checks -/

/-- A node has a value if its symbol is known, its children have values and its function answers
with a value to these. -/
theorem value?_eq_some {t : Prepared V} {value : V} :
    g.value? t = some value ↔
      ∃ production ∈ g.productions, production.symbol = t.symbol ∧
        ∃ inputs, g.values? t.children = some inputs ∧
          production.answer? t.state inputs = some (.ok value) := by
  obtain ⟨symbol, children, state⟩ := t
  have answers {answer : Option (Except String V)} :
      answer.bind Except.toOption = some value ↔ answer = some (.ok value) := by
    rcases answer with _ | _ | _ <;> simp [Except.toOption]
  simp only [value?, Option.bind_eq_some_iff, answers, Prepared.symbol, Prepared.children,
    Prepared.state]
  constructor
  · rintro ⟨production, found, asked⟩
    obtain ⟨same, member⟩ := symbol_of_production? found
    exact ⟨production, member, same, asked⟩
  · rintro ⟨production, member, rfl, asked⟩
    exact ⟨production, production?_symbol member, asked⟩

/-- A function is called with the values of the children, if they are as many as its production has
arguments, and in a state of the production's kind. -/
theorem callAt?_eq_some {node : Prepared V} {call : Call V} (called : g.callAt? node = some call) :
    ∃ production ∈ g.productions, ∃ inputs,
      call = .computed node.symbol inputs node.state.params? ∧
        production.symbol = node.symbol ∧ g.values? node.children = some inputs ∧
          inputs.length = production.arity ∧
            node.state.isParameterized = production.isParameterized := by
  obtain ⟨inputs, values, called⟩ := Option.bind_eq_some_iff.1 called
  obtain ⟨answer, answered, rfl⟩ := Option.map_eq_some_iff.1 called
  obtain ⟨production, found, answered⟩ := Option.bind_eq_some_iff.1 answered
  rw [values, Option.bind_some] at answered
  obtain ⟨same, member⟩ := symbol_of_production? found
  obtain ⟨length, kind⟩ := Production.isSome_answer?.1 (by rw [answered]; rfl)
  exact ⟨production, member, inputs, rfl, same, values, length, kind⟩

/-- A computation of any tree calls a function only with as many inputs as its production has
arguments, and in a state of its production's kind. It comes to a value exactly if all checks of all
nodes pass and all functions do, and otherwise to the first fault among the visits. -/
theorem compute_guarded (g : Grammar V) (t : Prepared V) :
    (∀ call ∈ (g.compute t).calls, ∃ node ∈ t.postorder, ∃ production ∈ g.productions, ∃ inputs,
        call = .computed production.symbol inputs node.state.params? ∧
          production.symbol = node.symbol ∧ inputs.length = production.arity ∧
            node.state.isParameterized = production.isParameterized) ∧
      ((∃ value, (g.compute t).outcome = .ok value) ↔
        ∀ node ∈ t.postorder, ∃ production ∈ g.productions,
          production.symbol = node.symbol ∧ node.children.length = production.arity ∧
            node.state.isParameterized = production.isParameterized ∧
              ∃ inputs value,
                List.Forall₂ (fun child input => (g.compute child).outcome = .ok input)
                    node.children inputs ∧
                  production.answer? node.state inputs = some (.ok value)) ∧
        ∀ e, (g.compute t).outcome = .error e ↔
          ∃ before visit after, t.visits = before ++ visit :: after ∧ g.faultAt? visit = some e ∧
            ∀ earlier ∈ before, g.faultAt? earlier = none := by
  refine ⟨fun call member => ?_, ⟨?_, fun checked => ?_⟩, fun e => ?_⟩
  · rw [calls_compute] at member
    obtain ⟨node, among, called⟩ := List.mem_filterMap.1 member
    obtain ⟨production, known, inputs, rfl, same, -, checks⟩ := callAt?_eq_some called
    have left : node ∈ t.postorder := ((reached_sublist _ _).filterMap _).subset among
    exact ⟨node, left, production, known, inputs, by rw [same], same, checks⟩
  · rintro ⟨value, outcome⟩ node member
    have root : (g.value? t).isSome := by rw [outcome_compute_eq_ok.1 outcome]; rfl
    obtain ⟨value, found⟩ := Option.isSome_iff_exists.1 (isSome_value?_of_mem g t root node member)
    obtain ⟨production, known, same, inputs, values, answered⟩ := value?_eq_some.1 found
    obtain ⟨length, kind⟩ := Production.isSome_answer?.1 (by rw [answered]; rfl)
    have children := values?_eq_some.1 values
    simp only [outcome_compute_eq_ok]
    exact ⟨production, known, same, children.length_eq.trans length, kind, inputs, value, children,
      answered⟩
  · obtain ⟨production, known, same, -, -, inputs, value, children, answered⟩ :=
      checked t t.self_mem_postorder
    simp only [outcome_compute_eq_ok] at children ⊢
    exact ⟨value, value?_eq_some.2 ⟨production, known, same, inputs, values?_eq_some.2 children,
      answered⟩⟩
  · rw [← Traced.fault?_eq_some, fault?_compute, List.findSome?_eq_some_iff]

end Grammar

/-! ## Samples -/

/-- The sum of an input and the parameter `count`, which tells how often parameters were made
before. -/
def Sample.counted : Meaning Int64 :=
  .parameterized (fun serial => [("count", .ofNat serial)]) fun inputs params =>
    match inputs, params.lookup "count" with
    | [x], some count => .ok (x + count)
    | _, _ => .error "missing input"

/-- Sums of ones and counts, and a constant without a value. -/
def Sample.counts : Grammar Int64 where
  name := "counts"
  productions :=
    [Sample.production "one" 0 (Sample.constant 1),
      Sample.production "add" 2 (Sample.binary (· + ·)),
      Sample.production "count" 1 Sample.counted,
      Sample.production "boom" 0 (.stateless fun _ => .error "boom cannot be evaluated")]
  distinct := by decide

/-- A count in the state of a stateless use, under a sum of three of which the last is unknown. -/
def Sample.crossed : Prepared Int64 :=
  .node "add"
    [.node "one" [] .stateless, .node "count" [.node "one" [] .stateless] .stateless,
      .node "two" [] .stateless] .stateless

/-- Of the three faults the state of the count is found, after the ones have been computed. -/
theorem Sample.crossed_guarded :
    (Call.computed "one" [] none ∈ (Sample.counts.compute Sample.crossed).calls ∧
      ∃ node ∈ Sample.crossed.postorder, ∃ production ∈ Sample.counts.productions, ∃ inputs,
        Call.computed "one" [] none =
            .computed production.symbol inputs node.state.params? ∧
          production.symbol = node.symbol ∧ inputs.length = production.arity ∧
            node.state.isParameterized = production.isParameterized) ∧
      (Sample.counts.compute Sample.crossed).outcome = .error (.stateMismatch "count") := by
  obtain ⟨calls, -, faults⟩ := Sample.counts.compute_guarded Sample.crossed
  have called : Call.computed "one" [] none ∈ (Sample.counts.compute Sample.crossed).calls := by
    decide
  refine ⟨⟨called, calls _ called⟩, (faults _).2 ⟨Sample.crossed.visits.take 6, ?_⟩⟩
  exact ⟨_, _, rfl, by decide, by decide⟩

end GrammarSearch
