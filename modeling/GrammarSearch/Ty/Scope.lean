import GrammarSearch.Ty.Environment

/-!
# Scopes

A hole of a partial program is typed in a scope: the environment of its
variables, or the permissive scope, which admits every variable at every type
and is the same inside and outside of every binder.
-/

namespace GrammarSearch

/-- The variables that a hole may use. -/
inductive Scope
  | strict (env : Environment)
  | permissive
deriving DecidableEq, Inhabited

/-- A type and the scope it is to be inhabited in. -/
structure ScopedTy where
  ty : Ty
  scope : Scope
deriving DecidableEq, Inhabited

namespace Scope

/-- The scope without variables. -/
def empty : Scope := .strict .empty

/-- The scope inside a binder of the given types. -/
def enter : Scope → List Ty → Scope
  | .strict env, types => .strict (env.enter types)
  | .permissive, _ => .permissive

/-- The scope outside a binder of the given types. -/
def leave : Scope → List Ty → Except Conflict Scope
  | .strict env, types => (env.leave types).map .strict
  | .permissive, _ => .ok .permissive

/-- The scope admits a variable of the type at the index. -/
def admits : Scope → Ty → Nat → Bool
  | .strict env, t, index => env.get? index == some t
  | .permissive, _, _ => true

/-- One more than the highest bound index; the permissive scope binds none. -/
def size : Scope → Nat
  | .strict env => env.size
  | .permissive => 0

/-- A scope as a JSON value. -/
def toJson : Scope → Json
  | .strict env => .object [("strict", env.toJson)]
  | .permissive => .text "permissive"

/-- Strict scopes come first, in the order of their environments. -/
instance : Ord Scope where
  compare
    | .strict a, .strict b => compare a b
    | .strict _, .permissive => .lt
    | .permissive, .strict _ => .gt
    | .permissive, .permissive => .eq

end Scope

namespace ScopedTy

/-- A type in the scope without variables. -/
def bare (t : Ty) : ScopedTy := ⟨t, .empty⟩

/-- Another type in the same scope. -/
def withTy (s : ScopedTy) (t : Ty) : ScopedTy := ⟨t, s.scope⟩

/-- A scoped type as a JSON value. -/
def toJson (s : ScopedTy) : Json :=
  .object [("type", s.ty.toJson), ("env", s.scope.toJson)]

end ScopedTy

end GrammarSearch
