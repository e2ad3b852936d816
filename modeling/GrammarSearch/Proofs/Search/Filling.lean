import GrammarSearch.Proofs.Program.Editing
import GrammarSearch.Search.PartialProgram
import Mathlib.Data.List.Nodup
import Mathlib.Data.List.Range

/-!
# Filling holes

The holes of a partial program are kept beside the program, and say by their paths where they
belong. This holds together however the holes are filled: with whatever symbols and for whatever
argument types, every open hole's placeholder stands at the hole's path, the holes are listed from
left to right, and their numbers are all different. One fill keeps it so (`PartialProgram.InPlace`),
and any number of them therefore does (`PartialProgram.fillAll?_in_place`). No grammar is involved:
the symbols need not belong to one, nor the arguments be those of a production.
-/

namespace GrammarSearch

namespace PartialProgram

variable {target : ScopedTy} {symbol : String} {arguments : List Ty} {p q : PartialProgram}
  {selected : Hole} {fills : Nat}

/-! ## Fresh holes -/

theorem freshHoles_eq_mapIdx (replaced : Hole) (id position : Nat) (ts : List Ty) :
    freshHoles replaced id position ts = ts.mapIdx fun k t =>
      ⟨id + k, replaced.type.withTy t, replaced.path ++ [position + k]⟩ := by
  induction ts generalizing id position with
  | nil => rfl
  | cons t ts ih => simp [freshHoles, ih, List.mapIdx_cons, Nat.add_assoc, Nat.add_comm 1]

theorem length_freshHoles (replaced : Hole) (id position : Nat) (ts : List Ty) :
    (freshHoles replaced id position ts).length = ts.length := by
  rw [freshHoles_eq_mapIdx, List.length_mapIdx]

theorem mem_freshHoles {replaced h : Hole} {id position : Nat} {ts : List Ty} :
    h ∈ freshHoles replaced id position ts ↔ ∃ k t, ts[k]? = some t ∧
      h = ⟨id + k, replaced.type.withTy t, replaced.path ++ [position + k]⟩ := by
  rw [freshHoles_eq_mapIdx, List.mem_iff_getElem?]
  simp only [List.getElem?_mapIdx, Option.map_eq_some_iff, eq_comm (b := h)]

theorem ids_freshHoles (replaced : Hole) (id position : Nat) (ts : List Ty) :
    (freshHoles replaced id position ts).map Hole.id = List.range' id ts.length := by
  induction ts generalizing id position with
  | nil => rfl
  | cons t ts ih => rw [freshHoles, List.map_cons, ih, List.length_cons, List.range'_succ]

theorem freshHoles_leftOf (replaced : Hole) (id position : Nat) (ts : List Ty) :
    (freshHoles replaced id position ts).Pairwise fun a b => LeftOf a.path b.path := by
  induction ts generalizing id position with
  | nil => exact .nil
  | cons t ts ih =>
    refine .cons (fun h member => ?_) (ih (id + 1) (position + 1))
    obtain ⟨k, other, -, rfl⟩ := mem_freshHoles.1 member
    exact .siblings replaced.path (by omega)

/-- The symbol that fills a hole, applied to the placeholders of the fresh holes. -/
def application (p : PartialProgram) (selected : Hole) (symbol : String) (arguments : List Ty) :
    Program :=
  .node symbol ((freshHoles selected p.nextId 0 arguments).map Hole.placeholder)

/-- Every fresh hole finds its placeholder among the children of the application. -/
theorem subtree?_application {h : Hole} (fresh : h ∈ freshHoles selected p.nextId 0 arguments)
    (symbol : String) :
    ∃ k, h.path = selected.path ++ [k] ∧
      (p.application selected symbol arguments).subtree? [k] = some h.placeholder := by
  obtain ⟨k, t, at_k, rfl⟩ := mem_freshHoles.1 fresh
  refine ⟨k, by rw [Nat.zero_add], ?_⟩
  rw [application, Program.subtree?_cons, Program.children, List.getElem?_map, freshHoles_eq_mapIdx,
    List.getElem?_mapIdx, at_k, Option.map_some, Option.map_some, Option.bind_some,
    Program.subtree?_nil]

theorem nodeCount_application (p : PartialProgram) (selected : Hole) (symbol : String)
    (arguments : List Ty) :
    (p.application selected symbol arguments).nodeCount = 1 + arguments.length := by
  have placeholders (holes : List Hole) :
      Program.nodeCountList (holes.map Hole.placeholder) = holes.length := by
    induction holes with
    | nil => rfl
    | cons h holes ih =>
      rw [List.map_cons, Program.nodeCountList, ih, List.length_cons, Nat.add_comm]
      rfl
  rw [application, Program.nodeCount, placeholders, length_freshHoles]

/-! ## One fill -/

/-- A fill replaces the placeholder of the first hole, and puts fresh holes in the hole's place. -/
theorem fill?_eq_some :
    p.fill? symbol arguments = some q ↔
      ∃ selected rest program, p.holes = selected :: rest ∧
        p.program.replace? selected.path (p.application selected symbol arguments) = some program ∧
        q = ⟨program, freshHoles selected p.nextId 0 arguments ++ rest,
          p.nextId + arguments.length⟩ := by
  unfold fill? application
  cases p.holes with
  | nil => simp
  | cons selected rest => simp [eq_comm (a := q)]

/-- The holes belong where their paths lead. The partial program has one hole of the target's scope
filled so many times. -/
structure InPlace (target : ScopedTy) (fills : Nat) (p : PartialProgram) : Prop where
  stands : ∀ h ∈ p.holes, p.program.subtree? h.path = some h.placeholder
  ordered : p.holes.Pairwise fun a b => LeftOf a.path b.path
  distinct : (p.holes.map Hole.id).Nodup
  numbered : ∀ h ∈ p.holes, h.id < p.nextId
  nextId_eq : p.nextId = p.program.nodeCount
  count : p.holes.length + fills = p.program.nodeCount
  scope : ∀ h ∈ p.holes, h.type.scope = target.scope

theorem InPlace.root (target : ScopedTy) : (root target).InPlace target 0 where
  stands h member := by
    obtain rfl := List.mem_singleton.1 member
    rfl
  ordered := List.pairwise_singleton _ _
  distinct := List.nodup_singleton _
  numbered h member := by
    obtain rfl := List.mem_singleton.1 member
    exact Nat.zero_lt_one
  nextId_eq := rfl
  count := rfl
  scope h member := by
    obtain rfl := List.mem_singleton.1 member
    rfl

/-- While a hole is open the first one can be filled. -/
theorem InPlace.exists_fill? (inPlace : p.InPlace target fills) (someOpen : p.holes ≠ [])
    (symbol : String) (arguments : List Ty) : ∃ q, p.fill? symbol arguments = some q := by
  obtain ⟨selected, rest, holes⟩ := List.exists_cons_of_ne_nil someOpen
  have there : (p.program.replace? selected.path
      (p.application selected symbol arguments)).isSome := by
    rw [Program.isSome_replace?, inPlace.stands selected (holes ▸ List.mem_cons_self),
      Option.isSome_some]
  obtain ⟨program, replaced⟩ := Option.isSome_iff_exists.1 there
  exact ⟨_, fill?_eq_some.2 ⟨selected, rest, program, holes, replaced, rfl⟩⟩

theorem InPlace.fill? (inPlace : p.InPlace target fills)
    (filled : p.fill? symbol arguments = some q) : q.InPlace target (fills + 1) := by
  obtain ⟨selected, rest, program, holes, replaced, rfl⟩ := fill?_eq_some.1 filled
  obtain ⟨stands, ordered, distinct, numbered, nextId_eq, count, scope⟩ := inPlace
  rw [holes] at stands ordered distinct numbered count scope
  obtain ⟨first, others⟩ := List.forall_mem_cons.1 stands
  obtain ⟨left, ordered⟩ := List.pairwise_cons.1 ordered
  have size := Program.nodeCount_replace? first replaced
  rw [nodeCount_application, ← nextId_eq] at size
  have single : selected.placeholder.nodeCount = 1 := rfl
  constructor
  case stands =>
    refine List.forall_mem_append.2 ⟨fun h fresh => ?_, fun h old => ?_⟩
    · obtain ⟨k, path, found⟩ := subtree?_application fresh symbol
      rw [path, Program.subtree?_replace?_below replaced, found]
    · have apart := left h old
      rw [Program.subtree?_replace?_apart replaced apart.not_prefix apart.not_prefix_symm]
      exact others h old
  case ordered =>
    refine List.pairwise_append.2 ⟨freshHoles_leftOf _ _ _ _, ordered, fun h fresh other old => ?_⟩
    obtain ⟨k, t, -, rfl⟩ := mem_freshHoles.1 fresh
    exact (left other old).extend _
  case distinct =>
    rw [List.map_append, ids_freshHoles]
    refine List.nodup_append'.2 ⟨List.nodup_range', (List.nodup_cons.1 distinct).2, ?_⟩
    intro id fresh old
    obtain ⟨h, among, rfl⟩ := List.mem_map.1 old
    have small := numbered h (List.mem_cons_of_mem _ among)
    have large := (List.mem_range'_1.1 fresh).1
    omega
  case numbered =>
    refine List.forall_mem_append.2 ⟨fun h fresh => ?_, fun h old => ?_⟩
    · obtain ⟨k, t, at_k, rfl⟩ := mem_freshHoles.1 fresh
      have bound := (List.getElem?_eq_some_iff.1 at_k).1
      exact Nat.add_lt_add_left bound _
    · exact Nat.lt_add_right _ (numbered h (List.mem_cons_of_mem _ old))
  case nextId_eq =>
    dsimp only
    omega
  case count =>
    rw [List.length_cons] at count
    rw [List.length_append, length_freshHoles]
    dsimp only
    omega
  case scope =>
    refine List.forall_mem_append.2 ⟨fun h fresh => ?_, fun h old => ?_⟩
    · obtain ⟨k, t, -, rfl⟩ := mem_freshHoles.1 fresh
      exact scope selected List.mem_cons_self
    · exact scope h (List.mem_cons_of_mem _ old)

/-- One partial program comes from another by filling its first hole, and nothing else changed: the
other holes are the same and in the same order, and wherever the path of the filled hole does not
lead, nodes keep their symbols and the number of their children. Away from this path everything
stands as before. -/
def FillsFirst (symbol : String) (arguments : List Ty) (p q : PartialProgram) : Prop :=
  ∃ selected rest, p.holes = selected :: rest ∧
    q.holes = freshHoles selected p.nextId 0 arguments ++ rest ∧
    q.program.subtree? selected.path = some (p.application selected symbol arguments) ∧
    (∀ path, ¬selected.path <+: path →
      q.program.rootLabel? path = p.program.rootLabel? path) ∧
    ∀ path, ¬selected.path <+: path → ¬path <+: selected.path →
      q.program.subtree? path = p.program.subtree? path

theorem fillsFirst_of_fill? (filled : p.fill? symbol arguments = some q) :
    FillsFirst symbol arguments p q := by
  obtain ⟨selected, rest, program, holes, replaced, rfl⟩ := fill?_eq_some.1 filled
  have found := Program.subtree?_replace?_below replaced []
  rw [List.append_nil, Program.subtree?_nil] at found
  exact ⟨selected, rest, holes, rfl, found, fun _ => Program.rootLabel?_replace? replaced,
    fun _ => Program.subtree?_replace?_apart replaced⟩

/-! ## Many fills -/

/-- Fills the first hole time and again, each time with a symbol and for arguments of some types. -/
def fillAll? (p : PartialProgram) (fills : List (String × List Ty)) : Option PartialProgram :=
  fills.foldlM (fun p fill => p.fill? fill.1 fill.2) p

theorem fillAll?_concat {p : PartialProgram} {fills : List (String × List Ty)}
    {fill : String × List Ty} :
    p.fillAll? (fills ++ [fill]) = some q ↔
      ∃ middle, p.fillAll? fills = some middle ∧ middle.fill? fill.1 fill.2 = some q := by
  simp [fillAll?, List.foldlM_append, Option.bind_eq_some_iff]

theorem InPlace.of_fillAll? {fills : List (String × List Ty)}
    (filled : (PartialProgram.root target).fillAll? fills = some p) :
    p.InPlace target fills.length := by
  induction fills using List.reverseRecOn generalizing p with
  | nil =>
    cases filled
    exact .root target
  | append_singleton fills fill ih =>
    obtain ⟨middle, before, last⟩ := fillAll?_concat.1 filled
    rw [List.length_append, List.length_singleton]
    exact (ih before).fill? last

/-- However a hole of the target type was filled: the placeholder of every open hole stands at the
hole's path; the paths ascend in the lexicographic order, and none leads on from another; the holes
have different numbers, all of them below the next one, which is the number of nodes; the nodes that
are no holes are as many as the fills; and all holes have the target's scope. The next fill fails
only if no hole is open, and changes nothing but the hole that it fills. -/
theorem fillAll?_in_place {fills : List (String × List Ty)}
    (filled : (root target).fillAll? fills = some p) :
    (∀ h ∈ p.holes, p.program.subtree? h.path = some h.placeholder) ∧
    (p.holes.Pairwise fun a b =>
      a.path < b.path ∧ ¬a.path <+: b.path ∧ ¬b.path <+: a.path) ∧
    (p.holes.map Hole.id).Nodup ∧ (∀ h ∈ p.holes, h.id < p.nextId) ∧
    p.nextId = p.program.nodeCount ∧
    p.holes.length ≤ p.program.nodeCount ∧ p.filledCount = fills.length ∧
    (∀ h ∈ p.holes, h.type.scope = target.scope) ∧
    ∀ symbol arguments,
      ((∃ q, p.fill? symbol arguments = some q) ↔ ∃ h, p.selected? = some h) ∧
      ∀ q, p.fill? symbol arguments = some q → FillsFirst symbol arguments p q := by
  have inPlace := InPlace.of_fillAll? filled
  have count := inPlace.count
  refine ⟨inPlace.stands, ?_, inPlace.distinct, inPlace.numbered, inPlace.nextId_eq, by omega, ?_,
    inPlace.scope, fun symbol arguments => ⟨⟨?_, ?_⟩, fun q => fillsFirst_of_fill?⟩⟩
  · exact inPlace.ordered.imp fun left => ⟨left.lt, left.not_prefix, left.not_prefix_symm⟩
  · rw [filledCount]
    omega
  · rintro ⟨q, next⟩
    obtain ⟨selected, rest, -, holes, -⟩ := fill?_eq_some.1 next
    exact ⟨selected, by rw [selected?, holes, List.head?_cons]⟩
  · rintro ⟨h, first⟩
    refine inPlace.exists_fill? (fun none => ?_) symbol arguments
    rw [selected?, none] at first
    cases first

/-- A sum of a negation and something else; what is negated is open, and so is the second
summand. -/
def openSum : PartialProgram where
  program := .node "add" [.node "neg" [.leaf "$3"], .leaf "$2"]
  holes := [⟨3, .bare (.atomic "int"), [0, 0]⟩, ⟨2, .bare (.atomic "int"), [1]⟩]
  nextId := 4

theorem openSum_in_place :
    (root (.bare (.atomic "int"))).fillAll?
      [("add", [.atomic "int", .atomic "int"]), ("neg", [.atomic "int"])] = some openSum ∧
    (∀ h ∈ openSum.holes, openSum.program.subtree? h.path = some h.placeholder) ∧
    openSum.nextId = openSum.program.nodeCount ∧ openSum.filledCount = 2 :=
  have filled := by decide +kernel
  have inPlace := fillAll?_in_place filled
  ⟨filled, inPlace.1, inPlace.2.2.2.2.1, inPlace.2.2.2.2.2.2.1⟩

end PartialProgram

end GrammarSearch
