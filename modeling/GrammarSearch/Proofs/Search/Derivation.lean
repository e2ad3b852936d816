import GrammarSearch.Proofs.Search.Walk
import GrammarSearch.Search.ProgramGraph

/-!
# Derivations of partial programs

A derivation is the list of the productions that made a partial program, in the
order in which they filled its holes, each named by its index in the order of
declaration. `Grammar.derive?` runs one. It says the same as a walk of the graph
of programs, whose steps are named by the position of a child instead:
`Grammar.walk?_choices` and `Grammar.exists_derive?_of_walk?` turn one into the
other, and a derivation has one walk only.
-/

namespace GrammarSearch

variable {V : Type}

/-! ## One production -/

/-- The partial program after the production at an index has filled the first hole, if there is
a hole and the production returns its type. -/
def Grammar.fillWith? (g : Grammar V) (p : PartialProgram) (index : Nat) :
    Option PartialProgram :=
  match p.selected?, g.productions[index]? with
  | some hole, some production =>
    if production.signature.returns hole.type.ty then
      p.fill? production.symbol production.signature.arguments
    else none
  | _, _ => none

/-- The indices of the productions that fill the first hole, in ascending order. -/
def Grammar.applicable (g : Grammar V) (p : PartialProgram) : List Nat :=
  (List.range g.productions.length).filter fun index => (g.fillWith? p index).isSome

/-- What it takes for a production to fill the first hole. -/
theorem Grammar.fillWith?_eq_some {g : Grammar V} {p child : PartialProgram} {index : Nat} :
    g.fillWith? p index = some child ↔
      ∃ hole rest production, p.holes = hole :: rest ∧ g.productions[index]? = some production ∧
        production.signature.result = hole.type.ty ∧
        p.fill? production.symbol production.signature.arguments = some child := by
  unfold Grammar.fillWith? PartialProgram.selected?
  cases p.holes with
  | nil => simp
  | cons hole rest =>
    cases g.productions[index]? with
    | none => simp
    | some production => simp [Signature.returns]

/-- The children of a partial program, by index of the production. -/
theorem Grammar.expand_eq_filterMap (g : Grammar V) (p : PartialProgram) :
    g.expand p = (List.range g.productions.length).filterMap (g.fillWith? p) := by
  unfold Grammar.expand
  cases selected : p.selected? with
  | none => simp [Grammar.fillWith?, selected]
  | some hole =>
    have fill : g.fillWith? p = fun index => g.productions[index]?.bind fun production =>
        if production.signature.returns hole.type.ty then
          p.fill? production.symbol production.signature.arguments
        else none := by
      funext index
      cases at_index : g.productions[index]? <;> simp [Grammar.fillWith?, selected, at_index]
    rw [fill, filterMap_range_getElem?]
    exact List.filterMap_filter

theorem Grammar.map_some_expand (g : Grammar V) (p : PartialProgram) :
    (g.expand p).map some = (g.applicable p).map (g.fillWith? p) := by
  rw [Grammar.expand_eq_filterMap, Grammar.applicable]
  induction List.range g.productions.length with
  | nil => rfl
  | cons index indices ih =>
    cases filled : g.fillWith? p index <;> simp [filled, ih]

/-- The child at a position was made by the applicable production at this position. -/
theorem Grammar.getElem?_expand {g : Grammar V} {p child : PartialProgram} {choice : Nat} :
    (g.expand p)[choice]? = some child ↔
      ∃ index, (g.applicable p)[choice]? = some index ∧ g.fillWith? p index = some child := by
  have mapped := congrArg (·[choice]?) (g.map_some_expand p)
  simp only [List.getElem?_map] at mapped
  cases at_child : (g.expand p)[choice]? <;> cases at_index : (g.applicable p)[choice]? <;>
    simp_all

theorem Grammar.mem_applicable {g : Grammar V} {p : PartialProgram} {index : Nat} :
    index ∈ g.applicable p ↔ ∃ child, g.fillWith? p index = some child := by
  rw [Grammar.applicable, List.mem_filter, ← Option.isSome_iff_exists, and_iff_right_iff_imp]
  intro some
  obtain ⟨child, filled⟩ := Option.isSome_iff_exists.1 some
  obtain ⟨_, _, _, _, at_index, _⟩ := Grammar.fillWith?_eq_some.1 filled
  exact List.mem_range.2 (List.getElem?_eq_some_iff.1 at_index).1

theorem Grammar.applicable_ascending (g : Grammar V) (p : PartialProgram) :
    (g.applicable p).Pairwise (· < ·) :=
  List.pairwise_lt_range.filter _

/-! ## Many productions -/

/-- The partial program that the productions at some indices make of another one, each of them
filling the hole that comes first. -/
def Grammar.derive? (g : Grammar V) (p : PartialProgram) : List Nat → Option PartialProgram
  | [] => some p
  | index :: indices => (g.fillWith? p index).bind fun child => g.derive? child indices

theorem Grammar.derive?_append (g : Grammar V) (p : PartialProgram) (indices more : List Nat) :
    g.derive? p (indices ++ more) =
      (g.derive? p indices).bind fun middle => g.derive? middle more := by
  induction indices generalizing p with
  | nil => rfl
  | cons index indices ih =>
    simp only [List.cons_append, Grammar.derive?]
    cases g.fillWith? p index with
    | none => rfl
    | some child => exact ih child

theorem Grammar.derive?_concat {g : Grammar V} {p last : PartialProgram} {indices : List Nat}
    {index : Nat} :
    g.derive? p (indices ++ [index]) = some last ↔
      ∃ middle, g.derive? p indices = some middle ∧ g.fillWith? middle index = some last := by
  rw [Grammar.derive?_append]
  simp [Grammar.derive?, Option.bind_eq_some_iff]

/-! ## Walks -/

/-- The positions of the children to which the steps of a derivation lead. -/
def Grammar.choices (g : Grammar V) (p : PartialProgram) : List Nat → List Nat
  | [] => []
  | index :: indices =>
    (g.applicable p).idxOf index ::
      match g.fillWith? p index with
      | some child => g.choices child indices
      | none => []

variable {g : Grammar V} {target : ScopedTy} {p q : PartialProgram}

/-- A derivation is a walk. -/
theorem Grammar.walk?_choices {indices : List Nat} (derived : g.derive? p indices = some q) :
    (programGraph g target).walk? p (g.choices p indices) = some q := by
  induction indices generalizing p with
  | nil => exact derived
  | cons index indices ih =>
    obtain ⟨child, filled, rest⟩ := Option.bind_eq_some_iff.1 derived
    have here := List.getElem?_idxOf (Grammar.mem_applicable.2 ⟨child, filled⟩)
    have step : (g.expand p)[(g.applicable p).idxOf index]? = some child :=
      Grammar.getElem?_expand.2 ⟨index, here, filled⟩
    simp only [Grammar.choices, filled, Graph.walk?, programGraph, step, Option.bind_some]
    exact ih rest

/-- A walk is a derivation, and it is the only walk of its derivation. -/
theorem Grammar.exists_derive?_of_walk? {walk : List Nat}
    (reached : (programGraph g target).walk? p walk = some q) :
    ∃ indices, g.derive? p indices = some q ∧ g.choices p indices = walk := by
  induction walk generalizing p with
  | nil => exact ⟨[], reached, rfl⟩
  | cons choice walk ih =>
    obtain ⟨child, step, rest⟩ := Option.bind_eq_some_iff.1 reached
    obtain ⟨index, at_choice, filled⟩ := Grammar.getElem?_expand.1 step
    obtain ⟨indices, derived, same⟩ := ih rest
    have position : (g.applicable p).idxOf index = choice := by
      obtain ⟨bound, rfl⟩ := List.getElem?_eq_some_iff.1 at_choice
      exact (g.applicable_ascending p).nodup.idxOf_getElem choice bound
    refine ⟨index :: indices, ?_, ?_⟩
    · simp only [Grammar.derive?, filled, Option.bind_some, derived]
    · simp only [Grammar.choices, filled, position, same]

theorem Grammar.length_choices {indices : List Nat} (derived : g.derive? p indices = some q) :
    (g.choices p indices).length = indices.length := by
  induction indices generalizing p with
  | nil => rfl
  | cons index indices ih =>
    obtain ⟨child, filled, rest⟩ := Option.bind_eq_some_iff.1 derived
    simp only [Grammar.choices, filled, List.length_cons, ih rest]

/-- The reachable partial programs are those with a derivation from the root. -/
theorem Grammar.reachable_iff_derive? :
    (programGraph g target).Reachable p ↔ ∃ indices, g.derive? (.root target) indices = some p :=
  ⟨fun ⟨_, walk⟩ => (Grammar.exists_derive?_of_walk? walk).imp fun _ derived => derived.1,
    fun ⟨indices, derived⟩ => ⟨g.choices (.root target) indices, Grammar.walk?_choices derived⟩⟩

end GrammarSearch
