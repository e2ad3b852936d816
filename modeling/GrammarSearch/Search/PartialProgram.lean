import GrammarSearch.Program.Path
import GrammarSearch.Program.Printer
import GrammarSearch.Search.Graph
import GrammarSearch.Ty.Scope

/-!
# Partial programs

A partial program is a program with typed holes. The program itself holds only a
placeholder for each hole, a leaf `$n` with the hole's number; the type, the
scope and the path of a hole are kept beside it. The first hole is the one that
is filled next. Filling it puts a symbol in its place, applied to fresh holes,
which come before all holes that were open before: so holes are filled from
left to right.
-/

namespace GrammarSearch

/-- A place in a program that is still to be filled. -/
structure Hole where
  id : Nat
  type : ScopedTy
  path : List Nat
deriving DecidableEq

namespace Hole

/-- The symbol of a hole's placeholder. -/
def symbol (h : Hole) : String := "$" ++ toString h.id

/-- The leaf that stands for a hole in the program. -/
def placeholder (h : Hole) : Program := .leaf h.symbol

end Hole

/-- A program with its open holes, in the order in which they will be filled. -/
structure PartialProgram where
  program : Program
  holes : List Hole
  nextId : Nat
deriving DecidableEq

namespace PartialProgram

/-- One hole of the target type. -/
def root (target : ScopedTy) : PartialProgram :=
  let hole : Hole := ⟨0, target, []⟩
  ⟨hole.placeholder, [hole], 1⟩

/-- The hole that is filled next. -/
def selected? (p : PartialProgram) : Option Hole := p.holes.head?

/-- No hole is open. -/
def isComplete (p : PartialProgram) : Bool := p.holes.isEmpty

/-- The number of holes that were filled. -/
def filledCount (p : PartialProgram) : Nat := p.program.nodeCount - p.holes.length

/-- Holes for arguments of the types, below the hole they replace and in its scope, numbered
upwards from `id`; the first of them is the argument at `position`. -/
def freshHoles (replaced : Hole) (id position : Nat) : List Ty → List Hole
  | [] => []
  | t :: ts =>
    ⟨id, replaced.type.withTy t, replaced.path ++ [position]⟩ ::
      freshHoles replaced (id + 1) (position + 1) ts

/-- Fills the first hole with a symbol applied to fresh holes of the types. -/
def fill? (p : PartialProgram) (symbol : String) (arguments : List Ty) : Option PartialProgram :=
  match p.holes with
  | [] => none
  | selected :: rest =>
    let fresh := freshHoles selected p.nextId 0 arguments
    (p.program.replace? selected.path (.node symbol (fresh.map Hole.placeholder))).map
      fun program => ⟨program, fresh ++ rest, p.nextId + arguments.length⟩

/-- The text that identifies a partial program: the canonical text of its program. -/
def identity (p : PartialProgram) : String :=
  match p.program.canonical with
  | .ok text => text
  | .error _ => p.program.text .bare

instance : Fingerprinted PartialProgram where
  fingerprint p := Domain.searchNode.digest p.identity.toUTF8

end PartialProgram

end GrammarSearch
