import GrammarSearch.Proofs.Program.Preorder
import GrammarSearch.Proofs.Search.Derivation

/-!
# Layouts of partial programs

A partial program keeps its holes in a list beside the program. `Layout` says
how the two belong together, and what the derivation has to do with both: in
pre-order, the nodes of the program are the applications of the productions
used, in the order of their use, and after them the placeholders of the open
holes, in the order of the list (`Layout.labels`). A layout is kept by filling
the first hole (`Layout.exists_fill`), so every derived partial program has one.

Types alone decide which productions can follow: `Grammar.residue?` runs a
derivation on the list of the types that are still to be filled.
-/

namespace GrammarSearch

open PartialProgram (freshHoles)

variable {V : Type}

/-- Where the arguments of the node at a path stand, and the types they are to have. -/
def argumentSlots (path : List Nat) (position : Nat) : List Ty → List (List Nat × Ty)
  | [] => []
  | t :: ts => (path ++ [position], t) :: argumentSlots path (position + 1) ts

/-- Programs that stand in slots, each a path and a type, were made by the productions at the
indices and leave the holes. What lies to the right of an open hole was not begun. -/
inductive Layout (g : Grammar V) (scope : Scope) :
    List (List Nat × Ty) → List Nat → List Hole → List Program → Prop
  | nil : Layout g scope [] [] [] []
  | hole {id : Nat} {path : List Nat} {t : Ty} {slots : List (List Nat × Ty)}
      {holes : List Hole} {programs : List Program} :
    Layout g scope slots [] holes programs →
    Layout g scope ((path, t) :: slots) [] (⟨id, ⟨t, scope⟩, path⟩ :: holes)
      ((⟨id, ⟨t, scope⟩, path⟩ : Hole).placeholder :: programs)
  | node {index : Nat} {production : Production V} {path : List Nat}
      {slots : List (List Nat × Ty)} {below later : List Nat}
      {inside outside : List Hole} {children programs : List Program} :
    g.productions[index]? = some production →
    Layout g scope (argumentSlots path 0 production.signature.arguments) below inside children →
    Layout g scope slots later outside programs →
    (inside = [] ∨ later = []) →
    Layout g scope ((path, production.signature.result) :: slots) (index :: (below ++ later))
      (inside ++ outside) (.node production.symbol children :: programs)

variable {g : Grammar V} {scope : Scope} {slots : List (List Nat × Ty)} {used : List Nat}
  {holes : List Hole} {programs : List Program}

/-! ## Slots -/

theorem length_argumentSlots (path : List Nat) (position : Nat) (ts : List Ty) :
    (argumentSlots path position ts).length = ts.length := by
  induction ts generalizing position with
  | nil => rfl
  | cons t ts ih => simp [argumentSlots, ih]

theorem getElem?_argumentSlots (path : List Nat) (position : Nat) (ts : List Ty) (k : Nat) :
    (argumentSlots path position ts)[k]? = ts[k]?.map fun t => (path ++ [position + k], t) := by
  induction ts generalizing position k with
  | nil => simp [argumentSlots]
  | cons t ts ih =>
    cases k with
    | zero => simp [argumentSlots]
    | succ k => simp [argumentSlots, ih, Nat.add_assoc, Nat.add_comm 1 k]

theorem Layout.length_eq (layout : Layout g scope slots used holes programs) :
    programs.length = slots.length := by
  induction layout with
  | nil => rfl
  | hole _ ih => simp [ih]
  | node _ _ _ _ _ ih => simp [ih]

/-- The children of a node that a production made are as many as it has arguments. -/
theorem Layout.length_children {path : List Nat} {production : Production V}
    (layout : Layout g scope (argumentSlots path 0 production.signature.arguments) used holes
      programs) :
    programs.length = production.arity := by
  rw [layout.length_eq, length_argumentSlots]
  rfl

/-! ## Labels -/

/-- The label of the nodes that a production makes. -/
def Production.label (production : Production V) : String × Nat :=
  (production.symbol, production.arity)

/-- The label of a hole's placeholder. -/
def Hole.label (h : Hole) : String × Nat := (h.symbol, 0)

/-- The label of the production at an index. -/
def Grammar.label? (g : Grammar V) (index : Nat) : Option (String × Nat) :=
  g.productions[index]?.map Production.label

/-- In pre-order the nodes made by the productions come first, and the open holes last. -/
theorem Layout.labels (layout : Layout g scope slots used holes programs) :
    (Program.labelsList programs).map some =
      used.map g.label? ++ holes.map fun h => some h.label := by
  induction layout with
  | nil => rfl
  | hole _ ih =>
    simpa [Program.labelsList, Program.labels, Hole.placeholder, Program.leaf, Hole.label] using ih
  | @node index production _ _ below later inside _ children _ at_index under _ order ihUnder ihAfter =>
    have label : g.label? index = some (production.symbol, children.length) := by
      rw [Grammar.label?, at_index, under.length_children]
      rfl
    simp only [Program.labelsList, Program.labels, List.map_append, List.map_cons, ihUnder, ihAfter,
      label]
    rcases order with rfl | rfl <;> simp

/-! ## Filling a hole -/

theorem Layout.fresh (h : Hole) (id position : Nat) (ts : List Ty) :
    Layout g h.type.scope (argumentSlots h.path position ts) [] (freshHoles h id position ts)
      ((freshHoles h id position ts).map Hole.placeholder) := by
  induction ts generalizing id position with
  | nil => exact .nil
  | cons t ts ih => exact .hole (ih (id + 1) (position + 1))

/-- Filling the first hole with a production of its type is possible, and keeps the layout. The
hole stands in one of the slots, `slot`, at a path below it. -/
theorem Layout.exists_fill {h : Hole} {rest : List Hole}
    (layout : Layout g scope slots used (h :: rest) programs)
    {index : Nat} {production : Production V} (at_index : g.productions[index]? = some production)
    (returns : production.signature.result = h.type.ty) (id : Nat) :
    ∃ (slot : Nat) (base below : List Nat) (t : Ty) (old new : Program),
      slots[slot]? = some (base, t) ∧ h.path = base ++ below ∧ programs[slot]? = some old ∧
      old.replace? below (.node production.symbol
        ((freshHoles h id 0 production.signature.arguments).map Hole.placeholder)) = some new ∧
      Layout g scope slots (used ++ [index])
        (freshHoles h id 0 production.signature.arguments ++ rest) (programs.set slot new) := by
  generalize same : h :: rest = all at layout
  induction layout generalizing rest with
  | nil => cases same
  | @hole number path t slots holes programs after ih =>
    obtain ⟨rfl, rfl⟩ := List.cons.inj same
    dsimp only at returns
    subst returns
    have inside := Layout.fresh (g := g) ⟨number, ⟨production.signature.result, scope⟩, path⟩ id 0
      production.signature.arguments
    exact ⟨0, path, [], _, _, _, rfl, by simp, rfl, rfl, .node at_index inside after (.inr rfl)⟩
  | @node i made path slots below later inside outside children programs at_i under after order
      ihUnder ihAfter =>
    cases inside with
    | nil =>
      obtain ⟨slot, base, way, t, old, new, at_slot, below_base, at_old, replaced, laid⟩ :=
        ihAfter same
      refine ⟨slot + 1, base, way, t, old, new, at_slot, below_base, at_old, replaced, ?_⟩
      have grown := Layout.node at_i under laid (.inl rfl)
      simpa using grown
    | cons first inside =>
      obtain ⟨rfl, rfl⟩ := List.cons.inj same
      obtain rfl : later = [] := by simpa using order
      obtain ⟨slot, base, way, t, old, new, at_slot, below_base, at_old, replaced, laid⟩ :=
        ihUnder rfl
      obtain rfl : base = path ++ [slot] := by
        rw [getElem?_argumentSlots] at at_slot
        obtain ⟨_, _, pair⟩ := Option.map_eq_some_iff.1 at_slot
        simpa using (Prod.mk.inj pair).1.symm
      refine ⟨0, path, slot :: way, _, _, .node made.symbol (children.set slot new), rfl, ?_, rfl,
        ?_, ?_⟩
      · simpa using below_base
      · simp only [Program.replace?, Program.children, at_old, replaced, Option.map_some,
          Program.symbol]
      · have grown := Layout.node at_i laid after (.inr rfl)
        simpa using grown

/-! ## Derived partial programs -/

variable {target : ScopedTy} {p q : PartialProgram}

/-- The productions at the indices made the partial program from one hole of the target type. -/
def PartialProgram.LaidOut (g : Grammar V) (target : ScopedTy) (used : List Nat)
    (p : PartialProgram) : Prop :=
  Layout g target.scope [([], target.ty)] used p.holes [p.program]

theorem PartialProgram.LaidOut.root (g : Grammar V) (target : ScopedTy) :
    (PartialProgram.root target).LaidOut g target [] :=
  .hole .nil

/-- The first hole can be filled with any production of its type. -/
theorem PartialProgram.LaidOut.exists_fillWith? (laid : p.LaidOut g target used) {h : Hole}
    {rest : List Hole} (open_holes : p.holes = h :: rest) {index : Nat} {production : Production V}
    (at_index : g.productions[index]? = some production)
    (returns : production.signature.result = h.type.ty) :
    ∃ child, g.fillWith? p index = some child ∧ child.LaidOut g target (used ++ [index]) ∧
      child.holes = freshHoles h p.nextId 0 production.signature.arguments ++ rest := by
  unfold PartialProgram.LaidOut at laid
  rw [open_holes] at laid
  obtain ⟨slot, base, below, t, old, new, at_slot, path, at_old, replaced, grown⟩ :=
    laid.exists_fill at_index returns p.nextId
  -- There is one slot, the root.
  obtain rfl : slot = 0 := by
    have := (List.getElem?_eq_some_iff.1 at_slot).1
    simpa using this
  obtain ⟨rfl, rfl⟩ : [] = base ∧ target.ty = t := by simpa using at_slot
  obtain rfl : p.program = old := by simpa using at_old
  obtain rfl : h.path = below := path
  refine ⟨⟨new, freshHoles h p.nextId 0 production.signature.arguments ++ rest,
    p.nextId + production.signature.arguments.length⟩, ?_, grown, rfl⟩
  refine Grammar.fillWith?_eq_some.2 ⟨h, rest, production, open_holes, at_index, returns, ?_⟩
  simp only [PartialProgram.fill?, open_holes, replaced, Option.map_some]

theorem PartialProgram.LaidOut.fillWith? (laid : p.LaidOut g target used) {index : Nat}
    (filled : g.fillWith? p index = some q) : q.LaidOut g target (used ++ [index]) := by
  obtain ⟨h, rest, production, open_holes, at_index, returns, -⟩ := Grammar.fillWith?_eq_some.1 filled
  obtain ⟨child, same, grown, -⟩ := laid.exists_fillWith? open_holes at_index returns
  obtain rfl := Option.some.inj (same.symm.trans filled)
  exact grown

/-- A derived partial program is laid out by its derivation. -/
theorem Grammar.laidOut_of_derive? (derived : g.derive? (.root target) used = some p) :
    p.LaidOut g target used := by
  induction used using List.reverseRecOn generalizing p with
  | nil =>
    cases derived
    exact .root g target
  | append_singleton used index ih =>
    obtain ⟨middle, before, filled⟩ := Grammar.derive?_concat.1 derived
    exact (ih before).fillWith? filled

/-! ## Types still to be filled -/

/-- The types that are left to be filled after the productions at some indices, each of them for
the type that comes first. -/
def Grammar.residue? (g : Grammar V) : List Ty → List Nat → Option (List Ty)
  | types, [] => some types
  | [], _ :: _ => none
  | t :: types, index :: indices =>
    match g.productions[index]? with
    | some production =>
      if production.signature.result = t then
        g.residue? (production.signature.arguments ++ types) indices
      else none
    | none => none

theorem Grammar.residue?_append (g : Grammar V) (types : List Ty) (indices more : List Nat) :
    g.residue? types (indices ++ more) =
      (g.residue? types indices).bind fun rest => g.residue? rest more := by
  induction indices generalizing types with
  | nil => simp [Grammar.residue?]
  | cons index indices ih =>
    cases types with
    | nil => rfl
    | cons t types =>
      simp only [List.cons_append, Grammar.residue?]
      cases g.productions[index]? with
      | none => rfl
      | some production =>
        dsimp only
        split
        · exact ih _
        · rfl

theorem map_ty_freshHoles (h : Hole) (id position : Nat) (ts : List Ty) :
    (freshHoles h id position ts).map (·.type.ty) = ts := by
  induction ts generalizing id position with
  | nil => rfl
  | cons t ts ih => simp [freshHoles, ScopedTy.withTy, ih]

/-- A derivation that the types allow goes through. -/
theorem PartialProgram.LaidOut.exists_derive? (laid : p.LaidOut g target used)
    {indices : List Nat} {types : List Ty}
    (allowed : g.residue? (p.holes.map (·.type.ty)) indices = some types) :
    ∃ q, g.derive? p indices = some q ∧ q.holes.map (·.type.ty) = types := by
  induction indices generalizing p used with
  | nil => exact ⟨p, rfl, by simpa [Grammar.residue?] using allowed⟩
  | cons index indices ih =>
    cases open_holes : p.holes with
    | nil => simp [open_holes, Grammar.residue?] at allowed
    | cons h rest =>
      simp only [open_holes, List.map_cons, Grammar.residue?] at allowed
      cases at_index : g.productions[index]? with
      | none => simp [at_index] at allowed
      | some production =>
        simp only [at_index] at allowed
        split at allowed
        · next returns =>
          obtain ⟨child, filled, grown, holes⟩ := laid.exists_fillWith? open_holes at_index returns
          obtain ⟨q, derived, left⟩ := ih grown (by
            simpa only [holes, List.map_append, map_ty_freshHoles] using allowed)
          refine ⟨q, ?_, left⟩
          simp only [Grammar.derive?, filled, Option.bind_some, derived]
        · cases allowed

end GrammarSearch
