import GrammarSearch.Proofs.Grammar.Preparation
import GrammarSearch.Proofs.Search.Layout
import Mathlib.Data.List.Forall2
import Mathlib.Data.Option.Basic

/-!
# Types of partial programs

The type that a node of a program must have is given from above: by the target
type at the root, and below a node by the arguments of its production. A partial
program is well typed if every node meets its requirement, as an application of
a production or as the placeholder of an open hole.

`programGraph_reaches_wellTyped` is the main statement: the graph of programs
reaches well-typed partial programs only, it reaches every well-typed program
without holes, and it does so by a single walk, which has a step for every node.
-/

namespace GrammarSearch

variable {V : Type}

/-- The type required at a path of a program that is to have the given type. -/
def Grammar.requiredTy? (g : Grammar V) (t : Ty) (p : Program) : List Nat → Option Ty
  | [] => some t
  | i :: path =>
    match g.production? p.symbol, p.children[i]? with
    | some production, some child =>
      production.signature.arguments[i]?.bind fun argument => g.requiredTy? argument child path
    | _, _ => none

/-- The program is the placeholder of an open hole that was recorded with this path and type. -/
def OpenAt (holes : List Hole) (path : List Nat) (t : Ty) (p : Program) : Prop :=
  ∃ hole ∈ holes, hole.path = path ∧ hole.type.ty = t ∧ p = hole.placeholder

/-- The root of the program applies a production that returns the type, to as many programs as
the production has arguments. -/
def Grammar.Applies (g : Grammar V) (t : Ty) (p : Program) : Prop :=
  ∃ production ∈ g.productions, p.symbol = production.symbol ∧
    production.signature.result = t ∧ p.children.length = production.arity

/-- Every node of the program meets the type required of it. -/
def Grammar.WellTyped (g : Grammar V) (t : Ty) (holes : List Hole) (p : Program) : Prop :=
  ∀ path sub, p.subtree? path = some sub →
    ∃ required, g.requiredTy? t p path = some required ∧
      (OpenAt holes path required sub ∨ g.Applies required sub)

variable {g : Grammar V} {target : ScopedTy}

/-! ## Soundness -/

theorem OpenAt.mono {holes more : List Hole} {path : List Nat} {t : Ty} {p : Program}
    (opened : OpenAt holes path t p) (subset : holes ⊆ more) : OpenAt more path t p := by
  rcases opened with ⟨hole, member, rest⟩
  exact ⟨hole, subset member, rest⟩

/-- In a layout every node meets its requirement, read from the slot in which it stands. -/
theorem Layout.meets_required {scope : Scope} {slots : List (List Nat × Ty)} {used : List Nat}
    {holes : List Hole} {programs : List Program}
    (layout : Layout g scope slots used holes programs) :
    ∀ {k : Nat} {base : List Nat} {t : Ty} {p : Program}, slots[k]? = some (base, t) →
      programs[k]? = some p → ∀ path sub, p.subtree? path = some sub →
        ∃ required, g.requiredTy? t p path = some required ∧
          (OpenAt holes (base ++ path) required sub ∨ g.Applies required sub) := by
  induction layout with
  | nil =>
    intro k base t p at_slot
    simp at at_slot
  | @hole id path t slots holes programs after ih =>
    intro k base t' p at_slot at_program way sub found
    cases k with
    | zero =>
      obtain ⟨rfl, rfl⟩ : path = base ∧ t = t' := by simpa using at_slot
      obtain rfl : _ = p := Option.some.inj at_program
      cases way with
      | nil =>
        obtain rfl := Option.some.inj found
        exact ⟨t, rfl, .inl ⟨_, List.mem_cons_self, by simp, rfl, rfl⟩⟩
      | cons i way => simp [Program.subtree?, Hole.placeholder, Program.leaf, Program.children] at found
    | succ k =>
      obtain ⟨required, needs, met⟩ := ih at_slot at_program way sub found
      exact ⟨required, needs, met.imp_left fun opened => opened.mono (List.subset_cons_self _ _)⟩
  | @node index production path slots below later inside outside children programs at_index under
      after order ihUnder ihAfter =>
    intro k base t p at_slot at_program way sub found
    have member := List.mem_of_getElem? at_index
    cases k with
    | zero =>
      obtain ⟨rfl, rfl⟩ : path = base ∧ production.signature.result = t := by simpa using at_slot
      obtain rfl := Option.some.inj at_program
      cases way with
      | nil =>
        obtain rfl := Option.some.inj found
        exact ⟨_, rfl, .inr ⟨production, member, rfl, rfl, under.length_children⟩⟩
      | cons i way =>
        simp only [Program.subtree?, Program.children] at found
        cases at_child : children[i]? with
        | none => simp [at_child] at found
        | some child =>
          simp only [at_child] at found
          obtain ⟨argument, at_argument⟩ :
              ∃ argument, production.signature.arguments[i]? = some argument := by
            have bound := (List.getElem?_eq_some_iff.1 at_child).1
            rw [under.length_children] at bound
            exact ⟨_, List.getElem?_eq_getElem bound⟩
          have slot : (argumentSlots path 0 production.signature.arguments)[i]? =
              some (path ++ [i], argument) := by
            simp [getElem?_argumentSlots, at_argument]
          obtain ⟨required, needs, met⟩ := ihUnder slot at_child way sub found
          refine ⟨required, ?_, ?_⟩
          · simp only [Grammar.requiredTy?, Program.symbol, Program.children, at_child,
              Grammar.production?_symbol member, at_argument, Option.bind_some, needs]
          · refine met.imp_left fun opened => ?_
            rw [List.append_assoc] at opened
            exact opened.mono (List.subset_append_left _ _)
    | succ k =>
      obtain ⟨required, needs, met⟩ := ihAfter at_slot at_program way sub found
      exact ⟨required, needs, met.imp_left fun opened => opened.mono (List.subset_append_right _ _)⟩

/-- Whatever was derived is well typed. -/
theorem PartialProgram.LaidOut.wellTyped {used : List Nat} {p : PartialProgram}
    (laid : p.LaidOut g target used) : g.WellTyped target.ty p.holes p.program := by
  intro path sub found
  have met := laid.meets_required (k := 0) rfl rfl path sub found
  simpa using met

/-! ## Completeness -/

theorem Grammar.WellTyped.applies {t : Ty} {p : Program} (typed : g.WellTyped t [] p) :
    g.Applies t p := by
  obtain ⟨required, needs, opened | applied⟩ := typed [] p rfl
  · rcases opened with ⟨hole, member, -⟩
    cases member
  · obtain rfl := Option.some.inj needs
    exact applied

/-- A child of a well-typed program has the type of the argument it stands for. -/
theorem Grammar.WellTyped.child {t argument : Ty} {production : Production V}
    {children : List Program} {child : Program} {i : Nat}
    (typed : g.WellTyped t [] (.node production.symbol children))
    (member : production ∈ g.productions) (at_child : children[i]? = some child)
    (at_argument : production.signature.arguments[i]? = some argument) :
    g.WellTyped argument [] child := by
  intro path sub found
  have below : (Program.node production.symbol children).subtree? (i :: path) = some sub := by
    simpa only [Program.subtree?, Program.children, at_child] using found
  obtain ⟨required, needs, opened | applied⟩ := typed (i :: path) sub below
  · rcases opened with ⟨hole, none, -⟩
    cases none
  · simp only [Grammar.requiredTy?, Program.symbol, Program.children, at_child, at_argument,
      Grammar.production?_symbol member, Option.bind_some] at needs
    exact ⟨required, needs, .inr applied⟩

/-- The children of a well-typed program have the types of the arguments. -/
theorem Grammar.WellTyped.children {t : Ty} {production : Production V} {children : List Program}
    (typed : g.WellTyped t [] (.node production.symbol children))
    (member : production ∈ g.productions) (arity : children.length = production.arity) :
    List.Forall₂ (fun child argument => g.WellTyped argument [] child) children
      production.signature.arguments := by
  refine List.forall₂_iff_get.2 ⟨arity, fun i atChild atArgument => ?_⟩
  exact typed.child member (List.getElem?_eq_getElem atChild) (List.getElem?_eq_getElem atArgument)

mutual

/-- The productions of a well-typed program in pre-order fill a hole of its type. -/
theorem Grammar.WellTyped.exists_indices : ∀ {p : Program} {t : Ty}, g.WellTyped t [] p →
    ∃ indices, indices.map g.label? = p.labels.map some ∧
      ∀ types, g.residue? (t :: types) indices = some types
  | .node symbol children, t, typed => by
      obtain ⟨production, member, rfl, rfl, arity⟩ := typed.applies
      obtain ⟨index, at_index⟩ := List.mem_iff_getElem?.1 member
      obtain ⟨indices, labels, allowed⟩ :=
        Grammar.WellTyped.exists_indicesList (typed.children member arity)
      refine ⟨index :: indices, ?_, fun types => ?_⟩
      · have label : g.label? index = some (production.symbol, children.length) := by
          simp only [Grammar.label?, at_index, Option.map_some, Production.label]
          exact congrArg (fun n => some (production.symbol, n)) arity.symm
        simp only [List.map_cons, label, labels, Program.labels]
      · simp only [Grammar.residue?, at_index, if_true, allowed]

theorem Grammar.WellTyped.exists_indicesList : ∀ {ps : List Program} {ts : List Ty},
    List.Forall₂ (fun p t => g.WellTyped t [] p) ps ts →
      ∃ indices, indices.map g.label? = (Program.labelsList ps).map some ∧
        ∀ types, g.residue? (ts ++ types) indices = some types
  | [], [], .nil => ⟨[], rfl, fun types => by simp [Grammar.residue?]⟩
  | p :: ps, t :: ts, .cons typed others => by
      obtain ⟨first, labels, allowed⟩ := Grammar.WellTyped.exists_indices typed
      obtain ⟨later, laterLabels, laterAllowed⟩ := Grammar.WellTyped.exists_indicesList others
      refine ⟨first ++ later, ?_, fun types => ?_⟩
      · simp only [List.map_append, labels, laterLabels, Program.labelsList]
      · rw [List.cons_append, Grammar.residue?_append, allowed]
        exact laterAllowed types

end

/-- A well-typed program is derived by its productions in pre-order. -/
theorem Grammar.WellTyped.exists_derive? {p : Program} (typed : g.WellTyped target.ty [] p) :
    ∃ indices node, g.derive? (.root target) indices = some node ∧ node.holes = [] ∧
      node.program = p := by
  obtain ⟨indices, labels, allowed⟩ := typed.exists_indices
  obtain ⟨node, derived, left⟩ :=
    (PartialProgram.LaidOut.root g target).exists_derive? (allowed [])
  have closed : node.holes = [] := List.map_eq_nil_iff.1 left
  have made := (Grammar.laidOut_of_derive? derived).labels
  simp only [Program.labelsList, List.append_nil, closed, List.map_nil, labels] at made
  exact ⟨indices, node, derived, closed,
    Program.labels_injective ((Option.some_injective _).list_map made)⟩

/-! ## One walk for every program -/

/-- Productions are told apart by their labels. -/
theorem Grammar.eq_of_map_label?_eq {used others : List Nat}
    (known : ∀ index ∈ used, (g.label? index).isSome)
    (same : used.map g.label? = others.map g.label?) : used = others := by
  induction used generalizing others with
  | nil => exact (List.map_eq_nil_iff.1 same.symm).symm
  | cons index used ih =>
    cases others with
    | nil => cases same
    | cons other others =>
      obtain ⟨head, tail⟩ := List.cons.inj same
      obtain rfl := ih (fun i member => known i (List.mem_cons_of_mem _ member)) tail
      obtain ⟨label, at_label⟩ := Option.isSome_iff_exists.1 (known index List.mem_cons_self)
      obtain ⟨a, at_a, rfl⟩ := Option.map_eq_some_iff.1 at_label
      obtain ⟨b, at_b, labels⟩ := Option.map_eq_some_iff.1 (head.symm.trans at_label)
      rw [Grammar.index_eq_of_symbol_eq at_a at_b (congrArg Prod.fst labels).symm]

/-- A layout uses productions of the grammar only. -/
theorem Layout.isSome_label? {scope : Scope} {slots : List (List Nat × Ty)} {used : List Nat}
    {holes : List Hole} {programs : List Program}
    (layout : Layout g scope slots used holes programs) :
    ∀ index ∈ used, (g.label? index).isSome := by
  intro index member
  have mapped : g.label? index ∈ (Program.labelsList programs).map some := by
    rw [layout.labels]
    exact List.mem_append_left _ (List.mem_map_of_mem member)
  obtain ⟨label, -, same⟩ := List.mem_map.1 mapped
  rw [← same]
  rfl

/-- A program without holes has one derivation. -/
theorem PartialProgram.LaidOut.unique_of_complete {used others : List Nat}
    {p q : PartialProgram} (laidP : p.LaidOut g target used) (laidQ : q.LaidOut g target others)
    (completeP : p.holes = []) (completeQ : q.holes = []) (same : p.program = q.program) :
    used = others := by
  have labelsP := laidP.labels
  have labelsQ := laidQ.labels
  simp only [completeP, completeQ, List.map_nil, List.append_nil] at labelsP labelsQ
  apply Grammar.eq_of_map_label?_eq laidP.isSome_label?
  rw [← labelsP, ← labelsQ, same]

theorem PartialProgram.LaidOut.length_eq_nodeCount {used : List Nat} {p : PartialProgram}
    (laid : p.LaidOut g target used) : used.length + p.holes.length = p.program.nodeCount := by
  have lengths := congrArg List.length laid.labels
  simpa [Program.labelsList, Program.length_labels] using lengths.symm

/-! ## The graph of programs -/

/-- The graph of a grammar and a target type holds well-typed partial programs only. A program
without holes is reached if and only if it is well typed; then one walk comes to it, and the
walk has as many steps as the program has nodes. -/
theorem programGraph_reaches_wellTyped (g : Grammar V) (target : ScopedTy) :
    (∀ node, (programGraph g target).Reachable node →
      g.WellTyped target.ty node.holes node.program) ∧
    (∀ p, g.WellTyped target.ty [] p →
      ∃ choices, choices.length = p.nodeCount ∧
        ∀ walk, walk = choices ↔
          ∃ node, (programGraph g target).walk? (programGraph g target).root walk = some node ∧
            node.isComplete = true ∧ node.program = p) ∧
    (∀ p, (∃ node, (programGraph g target).Reachable node ∧ node.isComplete = true ∧
      node.program = p) ↔ g.WellTyped target.ty [] p) := by
  have sound : ∀ node, (programGraph g target).Reachable node →
      g.WellTyped target.ty node.holes node.program := by
    intro node reached
    obtain ⟨indices, derived⟩ := Grammar.reachable_iff_derive?.1 reached
    exact (Grammar.laidOut_of_derive? derived).wellTyped
  refine ⟨sound, fun p typed => ?_, fun p => ⟨?_, fun typed => ?_⟩⟩
  · obtain ⟨indices, node, derived, closed, rfl⟩ := typed.exists_derive?
    have laid := Grammar.laidOut_of_derive? derived
    refine ⟨g.choices (.root target) indices, ?_, fun walk => ⟨?_, ?_⟩⟩
    · rw [Grammar.length_choices derived, ← laid.length_eq_nodeCount, closed]
      rfl
    · rintro rfl
      exact ⟨node, Grammar.walk?_choices derived, by simp [PartialProgram.isComplete, closed], rfl⟩
    · rintro ⟨other, reached, complete, same⟩
      obtain ⟨others, derivedOther, rfl⟩ := Grammar.exists_derive?_of_walk? reached
      have closedOther : other.holes = [] := List.isEmpty_iff.1 complete
      rw [(Grammar.laidOut_of_derive? derivedOther).unique_of_complete laid closedOther closed same]
      rfl
  · rintro ⟨node, reached, complete, rfl⟩
    have closed : node.holes = [] := List.isEmpty_iff.1 complete
    exact closed ▸ sound node reached
  · obtain ⟨indices, node, derived, closed, rfl⟩ := typed.exists_derive?
    exact ⟨node, Grammar.reachable_iff_derive?.2 ⟨indices, derived⟩,
      by simp [PartialProgram.isComplete, closed], rfl⟩

end GrammarSearch
