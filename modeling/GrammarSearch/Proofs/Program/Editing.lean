import GrammarSearch.Program.Path
import Mathlib.Data.List.Basic

/-!
# Editing at a path

What a replacement at a path does to a program, seen from every other path: below the path stands
the replacement (`Program.subtree?_replace?_below`), away from it everything stands as before
(`Program.subtree?_replace?_apart`), and wherever the path does not lead nodes keep their labels
(`Program.rootLabel?_replace?`).

One path runs to the left of another if they part and it takes the earlier child (`LeftOf`).
-/

namespace GrammarSearch

/-! ## Paths -/

/-- The paths part, and the first takes the earlier child. -/
inductive LeftOf : List Nat → List Nat → Prop
  | part {i j : Nat} {path other : List Nat} : i < j → LeftOf (i :: path) (j :: other)
  | step {path other : List Nat} (i : Nat) : LeftOf path other → LeftOf (i :: path) (i :: other)

namespace LeftOf

variable {path other : List Nat}

theorem siblings (path : List Nat) {i j : Nat} (less : i < j) :
    LeftOf (path ++ [i]) (path ++ [j]) := by
  induction path with
  | nil => exact .part less
  | cons k path ih => exact .step k ih

theorem extend (left : LeftOf path other) (below : List Nat) : LeftOf (path ++ below) other := by
  induction left with
  | part less => exact .part less
  | step i _ ih => exact .step i ih

/-- A path to the left comes first in the lexicographic order. -/
theorem lt (left : LeftOf path other) : path < other := by
  induction left with
  | part less => exact .rel less
  | step i _ ih => exact .cons ih

theorem not_prefix (left : LeftOf path other) : ¬path <+: other := by
  induction left with
  | part less => exact fun leads => Nat.ne_of_lt less (List.cons_prefix_cons.1 leads).1
  | step i _ ih => exact fun leads => ih (List.cons_prefix_cons.1 leads).2

theorem not_prefix_symm (left : LeftOf path other) : ¬other <+: path := by
  induction left with
  | part less => exact fun leads => Nat.ne_of_gt less (List.cons_prefix_cons.1 leads).1
  | step i _ ih => exact fun leads => ih (List.cons_prefix_cons.1 leads).2

end LeftOf

namespace Program

variable {p q replacement : Program} {path other : List Nat}

/-! ## Steps -/

theorem subtree?_nil (p : Program) : p.subtree? [] = some p := by
  cases p
  rfl

theorem subtree?_cons (p : Program) (i : Nat) (path : List Nat) :
    p.subtree? (i :: path) = p.children[i]?.bind fun child => child.subtree? path := by
  rw [subtree?]
  cases p.children[i]? <;> rfl

theorem replace?_nil (p replacement : Program) : p.replace? [] replacement = some replacement := by
  cases p
  rfl

/-- A replacement below a child replaces the child. -/
theorem replace?_cons_eq_some {i : Nat} :
    p.replace? (i :: path) replacement = some q ↔
      ∃ child edited, p.children[i]? = some child ∧
        child.replace? path replacement = some edited ∧
        q = .node p.symbol (p.children.set i edited) := by
  rw [replace?]
  cases p.children[i]? with
  | none => simp
  | some child => simp [eq_comm (a := q)]

/-- A part can be replaced exactly where there is one. -/
theorem isSome_replace? (p : Program) (path : List Nat) (replacement : Program) :
    (p.replace? path replacement).isSome = (p.subtree? path).isSome := by
  induction path generalizing p with
  | nil => rw [replace?_nil, subtree?_nil, Option.isSome_some, Option.isSome_some]
  | cons i path ih =>
    rw [replace?, subtree?]
    cases p.children[i]? with
    | none => rfl
    | some child => rw [Option.isSome_map, ih child]

/-! ## The edited program -/

/-- At the path stands the replacement. -/
theorem subtree?_replace?_below (replaced : p.replace? path replacement = some q)
    (below : List Nat) : q.subtree? (path ++ below) = replacement.subtree? below := by
  induction path generalizing p q with
  | nil =>
    rw [replace?_nil, Option.some.injEq] at replaced
    rw [replaced, List.nil_append]
  | cons i path ih =>
    obtain ⟨child, edited, at_i, inside, rfl⟩ := replace?_cons_eq_some.1 replaced
    have bound := (List.getElem?_eq_some_iff.1 at_i).1
    rw [List.cons_append, subtree?_cons, children, List.getElem?_set_self bound, Option.bind_some,
      ih inside]

/-- A path that parts from the edited one leads where it led before. -/
theorem subtree?_replace?_apart (replaced : p.replace? path replacement = some q)
    (notBelow : ¬path <+: other) (notAbove : ¬other <+: path) :
    q.subtree? other = p.subtree? other := by
  induction path generalizing p q other with
  | nil => exact absurd List.nil_prefix notBelow
  | cons i path ih =>
    obtain ⟨child, edited, at_i, inside, rfl⟩ := replace?_cons_eq_some.1 replaced
    cases other with
    | nil => exact absurd List.nil_prefix notAbove
    | cons j other =>
      rw [subtree?_cons, subtree?_cons, children]
      by_cases same : i = j
      · subst same
        have bound := (List.getElem?_eq_some_iff.1 at_i).1
        rw [List.getElem?_set_self bound, at_i, Option.bind_some, Option.bind_some]
        exact ih inside (fun leads => notBelow (List.cons_prefix_cons.2 ⟨rfl, leads⟩))
          fun leads => notAbove (List.cons_prefix_cons.2 ⟨rfl, leads⟩)
      · rw [List.getElem?_set_ne same]

/-- The symbol of the node at a path and the number of its children. -/
def rootLabel? (p : Program) (path : List Nat) : Option (String × Nat) :=
  (p.subtree? path).map fun s => (s.symbol, s.children.length)

/-- Nodes to which the edited path does not lead keep their labels, those above it included. -/
theorem rootLabel?_replace? (replaced : p.replace? path replacement = some q)
    (notBelow : ¬path <+: other) : q.rootLabel? other = p.rootLabel? other := by
  by_cases above : other <+: path
  · obtain ⟨rest, rfl⟩ := above
    induction other generalizing p q with
    | nil =>
      cases rest with
      | nil => exact absurd List.nil_prefix notBelow
      | cons i rest =>
        obtain ⟨child, edited, -, -, rfl⟩ := replace?_cons_eq_some.1 replaced
        rw [rootLabel?, rootLabel?, subtree?_nil, subtree?_nil, Option.map_some, Option.map_some,
          children, List.length_set, symbol]
    | cons i other ih =>
      obtain ⟨child, edited, at_i, inside, rfl⟩ := replace?_cons_eq_some.1 replaced
      have bound := (List.getElem?_eq_some_iff.1 at_i).1
      have kept := ih inside fun leads => notBelow (List.cons_prefix_cons.2 ⟨rfl, leads⟩)
      rw [rootLabel?, subtree?_cons, children, List.getElem?_set_self bound, rootLabel?,
        subtree?_cons, at_i]
      exact kept
  · rw [rootLabel?, rootLabel?, subtree?_replace?_apart replaced notBelow above]

/-! ## Sizes -/

theorem nodeCountList_set {ps : List Program} {i : Nat} {child : Program}
    (at_i : ps[i]? = some child) (edited : Program) :
    nodeCountList (ps.set i edited) + child.nodeCount = nodeCountList ps + edited.nodeCount := by
  induction ps generalizing i with
  | nil => cases at_i
  | cons first ps ih =>
    cases i with
    | zero =>
      obtain rfl := Option.some.inj at_i
      rw [List.set_cons_zero, nodeCountList, nodeCountList]
      omega
    | succ i =>
      have later := ih at_i
      rw [List.set_cons_succ, nodeCountList, nodeCountList]
      omega

/-- A replacement adds the nodes of the new part and takes those of the old one. -/
theorem nodeCount_replace? {old : Program} (found : p.subtree? path = some old)
    (replaced : p.replace? path replacement = some q) :
    q.nodeCount + old.nodeCount = p.nodeCount + replacement.nodeCount := by
  induction path generalizing p q with
  | nil =>
    rw [subtree?_nil, Option.some.injEq] at found
    rw [replace?_nil, Option.some.injEq] at replaced
    rw [found, replaced, Nat.add_comm]
  | cons i path ih =>
    obtain ⟨child, edited, at_i, inside, rfl⟩ := replace?_cons_eq_some.1 replaced
    rw [subtree?_cons, at_i, Option.bind_some] at found
    have counts := ih found inside
    have sets := nodeCountList_set at_i edited
    cases p
    simp only [nodeCount, children] at sets ⊢
    omega

end Program

end GrammarSearch
