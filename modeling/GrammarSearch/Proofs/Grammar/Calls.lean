import GrammarSearch.Proofs.Grammar.Soundness

/-!
# Calls of an evaluation

Meanings come from outside, so the order in which an evaluation calls them, and what it hands them,
can be observed. An evaluation makes the parameters of all uses in post-order, unless it finds a
fault on the way, and only then calls functions, in post-order as far as the first that fails
(`Grammar.evaluate_calls`). A function reads the parameters made for its own use, even if the
parameters of one production come out differently each time.
-/

namespace GrammarSearch

variable {V α β : Type} {g : Grammar V}

/-! ## Uses with parameters -/

namespace Prepared

/-- The nodes with parameters, every one after those below it. -/
def uses (t : Prepared V) : List (Prepared V) := t.postorder.filter (·.state.isParameterized)

/-- The nodes with parameters from left to right. -/
def usesList (ts : List (Prepared V)) : List (Prepared V) :=
  (postorderList ts).filter (·.state.isParameterized)

@[simp] theorem usesList_cons (t : Prepared V) (ts : List (Prepared V)) :
    usesList (t :: ts) = t.uses ++ usesList ts := by
  simp [usesList, uses]

@[simp] theorem uses_node (symbol : String) (children : List (Prepared V)) (state : UseState V) :
    (node symbol children state).uses =
      usesList children ++ if state.isParameterized then [node symbol children state] else [] := by
  simp only [uses, usesList, postorder_node, List.filter_append, List.filter_singleton,
    Prepared.state]
  cases state.isParameterized <;> rfl

mutual

/-- The labels that are left in the program are those of the nodes. -/
theorem left_visits_program : ∀ t : Prepared V,
    t.program.visits.filterMap Visit.left? =
      t.postorder.map fun inner => (inner.symbol, inner.children.length)
  | .node symbol children state => by
      rw [program, Program.visits, postorder_node, List.map_append, ← left_visits_programs children]
      simp [List.filterMap_cons, Visit.left?, length_programs, Prepared.symbol, Prepared.children]

theorem left_visits_programs : ∀ ts : List (Prepared V),
    (Program.visitsList (programs ts)).filterMap Visit.left? =
      (postorderList ts).map fun inner => (inner.symbol, inner.children.length)
  | [] => rfl
  | t :: ts => by
      rw [programs, Program.visitsList, List.filterMap_append, left_visits_program t,
        left_visits_programs ts, postorderList_cons, List.map_append]

end

end Prepared

namespace Grammar

theorem parameterizes_of_fits {node : Prepared V} (fits : g.Fits node) :
    g.parameterizes node.symbol = node.state.isParameterized := by
  obtain ⟨production, member, same, -, kind⟩ := fits
  rw [parameterizes, ← same, production?_symbol member, Option.any_some, kind]

theorem filterMap_making? {labels : List (String × Nat)} :
    labels.filterMap g.making? =
      (labels.filter fun label => g.parameterizes label.1).map fun label => .prepared label.1 := by
  induction labels with
  | nil => rfl
  | cons label labels ih =>
    rw [List.filterMap_cons, List.filter_cons, ih, making?]
    cases g.parameterizes label.1 <;> rfl

/-- A program that is prepared takes one call for every use with parameters, in post-order. -/
theorem calls_of_prepare {serial : Nat} {p : Program} {t : Prepared V}
    (outcome : (g.prepare serial p).outcome = .ok t) :
    (g.prepare serial p).calls = t.uses.map fun node => .prepared node.symbol := by
  have clean : ∀ visit ∈ p.visits, g.labelFaultAt? visit = none := by
    have none : (g.prepare serial p).fault? = none := Traced.fault?_eq_none.2 ⟨t, outcome⟩
    rwa [fault?_prepare_visits, List.findSome?_eq_none_iff] at none
  have kinds : ∀ node ∈ t.postorder,
      g.parameterizes node.symbol = node.state.isParameterized := fun node member =>
    parameterizes_of_fits (fits_of_prepare outcome node member)
  rw [calls_prepare, reached_eq_self clean, ← program_of_prepare outcome,
    Prepared.left_visits_program, filterMap_making?, List.filter_map, List.map_map, Prepared.uses,
    ← List.filter_congr kinds]
  rfl

theorem preparations_of_prepare {serial : Nat} {p : Program} {t : Prepared V}
    (outcome : (g.prepare serial p).outcome = .ok t) :
    (g.prepare serial p).preparations = t.uses.length := by
  rw [Traced.preparations, calls_of_prepare outcome, List.countP_map]
  exact List.countP_eq_length.2 fun _ _ => rfl

theorem preparations_of_prepareList {serial : Nat} {ps : List Program} {ts : List (Prepared V)}
    (outcome : (g.prepareList serial ps).outcome = .ok ts) :
    (g.prepareList serial ps).preparations = (Prepared.usesList ts).length := by
  induction ps generalizing serial ts with
  | nil =>
    obtain rfl := Except.ok.inj outcome
    rfl
  | cons p ps ih =>
    obtain ⟨t, rest, first, later, rfl⟩ := exists_of_prepareList outcome
    have here := preparations_of_prepare first
    have there := ih later
    simp only [Traced.preparations] at here there ⊢
    rw [prepareList, Traced.bind_of_ok first, List.countP_append, here, Prepared.usesList_cons,
      List.length_append, ← there]
    simp only [Traced.map, Traced.preparations, here]

/-- The state of the node holds what a production of its symbol makes when parameters were made
`serial` times before. -/
def MadeAt (g : Grammar V) (serial : Nat) (node : Prepared V) : Prop :=
  ∃ production ∈ g.productions, production.symbol = node.symbol ∧
    ∃ initial compute, production.meaning = .parameterized initial compute ∧
      node.state = .parameterized (initial serial)

theorem madeAt_of_production {production : Production V} {symbol : String} {serial : Nat}
    {children : List (Prepared V)} {state : UseState V}
    (found : g.production? symbol = some production)
    (made : (production.prepare serial).outcome = .ok state)
    (parameterized : state.isParameterized = true) :
    g.MadeAt serial (.node symbol children state) := by
  obtain ⟨same, member⟩ := symbol_of_production? found
  unfold Production.prepare at made
  cases meaning : production.meaning with
  | stateless compute =>
    rw [meaning] at made
    obtain rfl := Except.ok.inj made
    cases parameterized
  | parameterized initial compute =>
    rw [meaning] at made
    exact ⟨production, member, same, initial, compute, meaning, (Except.ok.inj made).symm⟩

mutual

/-- Every use with parameters holds those that were made for it, in its turn. -/
theorem madeAt_of_prepare : ∀ {p : Program} {serial : Nat} {t : Prepared V},
    (g.prepare serial p).outcome = .ok t →
      ∀ (k : Nat) (node : Prepared V), t.uses[k]? = some node → g.MadeAt (serial + k) node
  | .node symbol children, serial, t, outcome, k, node, use => by
      obtain ⟨production, prepared, state, found, below, made, rfl⟩ := exists_of_prepare outcome
      rw [Prepared.uses_node, List.getElem?_append] at use
      split at use
      · exact madeAt_of_prepareList below k node use
      · next behind =>
        -- The node itself is the use after all those below it.
        rw [preparations_of_prepareList below] at made
        split at use
        · next parameterized =>
          rw [List.getElem?_singleton, Option.ite_none_right_eq_some] at use
          obtain ⟨last, same⟩ := use
          obtain rfl := Option.some.inj same
          have turn : k = (Prepared.usesList prepared).length := by omega
          rw [turn]
          exact madeAt_of_production (production?_of_productionAt found).1 made parameterized
        · cases use

theorem madeAt_of_prepareList : ∀ {ps : List Program} {serial : Nat} {ts : List (Prepared V)},
    (g.prepareList serial ps).outcome = .ok ts →
      ∀ (k : Nat) (node : Prepared V), (Prepared.usesList ts)[k]? = some node →
        g.MadeAt (serial + k) node
  | [], serial, ts, outcome, k, node, use => by
      obtain rfl := Except.ok.inj outcome
      cases use
  | p :: ps, serial, ts, outcome, k, node, use => by
      obtain ⟨t, rest, first, later, rfl⟩ := exists_of_prepareList outcome
      rw [Prepared.usesList_cons, List.getElem?_append] at use
      split at use
      · exact madeAt_of_prepare first k node use
      · next behind =>
        rw [preparations_of_prepare first] at later
        have made := madeAt_of_prepareList later (k - t.uses.length) node use
        rwa [Nat.add_assoc, Nat.add_sub_cancel' (Nat.le_of_not_lt behind)] at made

end

end Grammar

/-! ## Calls of functions -/

theorem forall₂_filterMap {f : α → Option β} {R : α → β → Prop} {l : List α}
    (selects : ∀ a ∈ l, ∃ b, f a = some b ∧ R a b) : List.Forall₂ R l (l.filterMap f) := by
  induction l with
  | nil => exact .nil
  | cons a l ih =>
    obtain ⟨b, selected, related⟩ := selects a List.mem_cons_self
    rw [List.filterMap_cons_some selected]
    exact .cons related (ih fun other member => selects other (List.mem_cons_of_mem a member))

mutual

/-- What is below a node stands right before the node. -/
theorem Prepared.postorder_before : ∀ {t inner : Prepared V} {before after : List (Prepared V)},
    t.postorder = before ++ inner :: after →
      ∃ front, before = front ++ postorderList inner.children
  | .node symbol children state, inner, before, after, split => by
      rw [postorder_node, List.append_eq_append_iff] at split
      -- Either the node is the root, or it stands, with all that is below it, below the root.
      rcases split with ⟨extra, rfl, last⟩ | ⟨extra, below, last⟩
      · obtain ⟨rfl, rfl, rfl⟩ : extra = [] ∧ inner = .node symbol children state ∧ after = [] := by
          cases extra <;> simp_all
        exact ⟨[], by rw [List.append_nil]; rfl⟩
      · cases extra with
        | nil =>
          rw [List.append_nil] at below
          obtain ⟨rfl, -⟩ := List.cons.inj last
          exact ⟨[], below.symm⟩
        | cons other extra =>
          obtain ⟨rfl, -⟩ := List.cons.inj last
          exact postorderList_before below

theorem Prepared.postorderList_before :
    ∀ {ts : List (Prepared V)} {inner : Prepared V} {before after : List (Prepared V)},
      postorderList ts = before ++ inner :: after →
        ∃ front, before = front ++ postorderList inner.children
  | [], inner, before, after, split => by
      rw [postorderList_nil] at split
      simp at split
  | t :: ts, inner, before, after, split => by
      rw [postorderList_cons, List.append_eq_append_iff] at split
      rcases split with ⟨extra, rfl, later⟩ | ⟨extra, first, rest⟩
      · obtain ⟨front, rfl⟩ := postorderList_before later
        exact ⟨t.postorder ++ front, (List.append_assoc ..).symm⟩
      · cases extra with
        | nil =>
          rw [List.append_nil] at first
          have later : postorderList ts = [] ++ inner :: after := rest.symm
          obtain ⟨front, nothing⟩ := postorderList_before later
          rw [(List.append_eq_nil_iff.1 nothing.symm).2]
          exact ⟨before, (List.append_nil _).symm⟩
        | cons other extra =>
          obtain ⟨rfl, -⟩ := List.cons.inj rest
          exact postorder_before first

end

namespace Grammar

/-- A tree of uses of which none fails has a value. -/
theorem isSome_value?_of_clean {t : Prepared V} (fits : ∀ node ∈ t.postorder, g.Fits node)
    (clean : ∀ node ∈ t.postorder, g.failure? node = none) : (g.value? t).isSome := by
  have none : (g.compute t).fault? = none := by
    rw [fault?_compute_of_fits fits, List.findSome?_eq_none_iff]
    exact fun node member => by rw [clean node member]; rfl
  obtain ⟨value, outcome⟩ := Traced.fault?_eq_none.1 none
  rw [outcome_compute_eq_ok.1 outcome]
  rfl

theorem exists_values?_of_clean {ts : List (Prepared V)}
    (fits : ∀ node ∈ Prepared.postorderList ts, g.Fits node)
    (clean : ∀ node ∈ Prepared.postorderList ts, g.failure? node = none) :
    ∃ inputs, g.values? ts = some inputs := by
  induction ts with
  | nil => exact ⟨[], rfl⟩
  | cons t ts ih =>
    rw [Prepared.postorderList_cons, List.forall_mem_append] at fits clean
    obtain ⟨value, here⟩ := Option.isSome_iff_exists.1 (isSome_value?_of_clean fits.1 clean.1)
    obtain ⟨inputs, rest⟩ := ih fits.2 clean.2
    exact ⟨value :: inputs, by rw [values?, here, rest]; rfl⟩

theorem callAt?_of_fits {node : Prepared V} {inputs : List V} (fits : g.Fits node)
    (values : g.values? node.children = some inputs) :
    g.callAt? node = some (.computed node.symbol inputs node.state.params?) := by
  obtain ⟨production, member, same, length, kind⟩ := fits
  have enough : inputs.length = production.arity :=
    (values?_eq_some.1 values).length_eq.symm.trans length
  obtain ⟨answer, answered⟩ := Option.isSome_iff_exists.1
    (Production.isSome_answer?.2 ⟨enough, kind⟩)
  rw [callAt?, answer?, ← same, production?_symbol member, values]
  simp [answered]

/-- The functions of a tree of uses are called in post-order as far as the first that fails, each
with the values of the children and its own parameters. -/
theorem calls_compute_of_fits {t : Prepared V} (fits : ∀ node ∈ t.postorder, g.Fits node) :
    List.Forall₂
      (fun node call => ∃ inputs, g.values? node.children = some inputs ∧
        call = .computed node.symbol inputs node.state.params?)
      (reached g.failure? t.postorder) (g.compute t).calls := by
  have same : ∀ visit ∈ t.visits,
      (g.faultAt? visit).isSome = visit.left?.any fun node => (g.failure? node).isSome := by
    intro visit member
    rw [faultAt?_of_fits fits member]
    cases visit.left? <;> simp
  rw [calls_compute, filterMap_reached same]
  refine forall₂_filterMap fun node among => ?_
  -- All that is below the node was left before it and does not fail, so the children have values.
  obtain ⟨before, after, split, clean⟩ := exists_of_mem_reached among
  obtain ⟨front, rfl⟩ := Prepared.postorder_before split
  have fitting : ∀ inner ∈ Prepared.postorderList node.children, g.Fits inner := fun inner member =>
    fits inner (by rw [split]; simp [member])
  have unfailing : ∀ inner ∈ Prepared.postorderList node.children, g.failure? inner = none :=
    fun inner member => clean inner (List.mem_append_right _ member)
  obtain ⟨inputs, values⟩ := exists_values?_of_clean fitting unfailing
  have here : g.Fits node := fits node ((reached_sublist _ _).subset among)
  exact ⟨_, callAt?_of_fits here values, inputs, values, rfl⟩

/-- An evaluation first makes the parameters of all uses, in post-order: the parameters of a use are
what its production makes in the turn of the use. Only then it calls functions, in post-order as far
as the first that fails, each with the values of the children and the parameters of its own use. If
a fault is found before, no function is called, and the calls so far are those for the nodes with
parameters that were left before the node at fault was entered. -/
theorem evaluate_calls (g : Grammar V) (serial : Nat) (p : Program) :
    (∀ t, (g.prepare serial p).outcome = .ok t →
      t.program = p ∧ (∀ node ∈ t.postorder, g.Fits node) ∧
        (∀ (k : Nat) (node : Prepared V), t.uses[k]? = some node → g.MadeAt (serial + k) node) ∧
          ∃ computed,
            (g.evaluate serial p).calls =
                t.uses.map (fun node => .prepared node.symbol) ++ computed ∧
              List.Forall₂
                (fun node call => ∃ inputs,
                  List.Forall₂ (fun child input => (g.compute child).outcome = .ok input)
                      node.children inputs ∧
                    call = .computed node.symbol inputs node.state.params?)
                (reached g.failure? t.postorder) computed) ∧
      ∀ e, (g.prepare serial p).outcome = .error e →
        (g.evaluate serial p).outcome = .error e ∧
          ∃ before label after, p.visits = before ++ .enter label :: after ∧
            g.fault? label = some e ∧
              (∀ earlier, .enter earlier ∈ before → g.fault? earlier = none) ∧
                (g.evaluate serial p).calls =
                  ((before.filterMap Visit.left?).filter fun left => g.parameterizes left.1).map
                    fun left => .prepared left.1 := by
  refine ⟨fun t outcome => ?_, fun e outcome => ?_⟩
  · have fits := fits_of_prepare outcome
    refine ⟨program_of_prepare outcome, fits, madeAt_of_prepare outcome, _, ?_,
      (calls_compute_of_fits fits).imp fun node call called => ?_⟩
    · rw [evaluate, Traced.bind_of_ok outcome, calls_of_prepare outcome]
    · simpa only [outcome_compute_eq_ok, ← values?_eq_some] using called
  · have fault := Traced.fault?_eq_some.2 outcome
    rw [fault?_prepare_visits, List.findSome?_eq_some_iff] at fault
    obtain ⟨before, visit, after, split, found, clean⟩ := fault
    cases visit with
    | leave label => cases found
    | enter label =>
      rw [evaluate, Traced.bind_of_error outcome]
      refine ⟨rfl, before, label, after, split, found, fun earlier => clean (.enter earlier), ?_⟩
      have stopped : reached g.labelFaultAt? p.visits = before ++ [.enter label] := by
        rw [split, reached_append clean found]
      dsimp only
      rw [calls_prepare, stopped, filterMap_making?, List.filterMap_append]
      simp [Visit.left?]

end Grammar

/-- A sum of a count and of a constant that is not known. -/
def Sample.unknown : Program := .node "add" [.node "count" [.leaf "one"], .leaf "two"]

/-- The counts receive parameters in turn, and functions are called up to the constant that fails.
For the sum with an unknown constant no function is called. -/
theorem Sample.failing_calls :
    ((Sample.counts.prepare 3 Sample.failing).outcome = .ok Sample.failingPrepared ∧
      (Sample.failingPrepared.uses[1]? = some Sample.laterCount ∧
        Sample.counts.MadeAt (3 + 1) Sample.laterCount) ∧
        ∃ computed, (Sample.counts.evaluate 3 Sample.failing).calls =
            [.prepared "count", .prepared "count"] ++ computed ∧ computed.length = 3) ∧
      (Sample.counts.prepare 0 Sample.unknown).outcome = .error (.unknownSymbol "two") ∧
        ∃ before label after, Sample.unknown.visits = before ++ .enter label :: after ∧
          Sample.counts.fault? label = some (.unknownSymbol "two") ∧
            (Sample.counts.evaluate 0 Sample.unknown).calls =
              ((before.filterMap Visit.left?).filter fun left =>
                Sample.counts.parameterizes left.1).map fun left => .prepared left.1 := by
  have outcome : (Sample.counts.prepare 3 Sample.failing).outcome = .ok Sample.failingPrepared :=
    rfl
  have fault : (Sample.counts.prepare 0 Sample.unknown).outcome = .error (.unknownSymbol "two") :=
    rfl
  obtain ⟨-, -, made, computed, calls, inTurn⟩ :=
    (Sample.counts.evaluate_calls 3 Sample.failing).1 _ outcome
  obtain ⟨-, before, label, after, split, found, -, only⟩ :=
    (Sample.counts.evaluate_calls 0 Sample.unknown).2 _ fault
  exact ⟨⟨outcome, ⟨rfl, made 1 _ rfl⟩, computed, calls, inTurn.length_eq.symm⟩, fault, before,
    label, after, split, found, only⟩

end GrammarSearch
