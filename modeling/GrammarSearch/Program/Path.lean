import GrammarSearch.Program.Basic

/-!
# Paths

A path leads from the root of a program to one of its nodes: at every step it
names a child by position. The program at a path can be read and replaced; both
fail exactly when the path leaves the program.
-/

namespace GrammarSearch

namespace Program

/-- The program at a path. -/
def subtree? : Program → List Nat → Option Program
  | p, [] => some p
  | p, i :: path =>
    match p.children[i]? with
    | some child => child.subtree? path
    | none => none

/-- The program with the part at a path replaced. -/
def replace? : Program → List Nat → Program → Option Program
  | _, [], replacement => some replacement
  | p, i :: path, replacement =>
    match p.children[i]? with
    | some child =>
      (child.replace? path replacement).map fun edited =>
        .node p.symbol (p.children.set i edited)
    | none => none

end Program

end GrammarSearch
