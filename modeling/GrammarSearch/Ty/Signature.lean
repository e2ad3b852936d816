import GrammarSearch.Ty.Printer

/-!
# Signatures

A signature lists what a production takes and what it returns. As a type it is
an arrow; read back from a type, an arrow is a signature of its own and any
other type is the signature of a constant.
-/

namespace GrammarSearch

/-- The argument types and the return type of a production. -/
structure Signature where
  arguments : List Ty
  result : Ty
deriving DecidableEq, Inhabited

namespace Signature

/-- The signature of a production without arguments. -/
def constant (result : Ty) : Signature := ⟨[], result⟩

/-- The number of arguments. -/
def arity (s : Signature) : Nat := s.arguments.length

/-- The signature as a type. -/
def toTy (s : Signature) : Ty := .arrow s.arguments s.result

/-- The signature that a type describes. -/
def ofTy : Ty → Signature
  | .arrow inputs output => ⟨inputs, output⟩
  | t => constant t

/-- A production of this signature fills a hole of the type. -/
def returns (s : Signature) (t : Ty) : Bool := s.result == t

/-- The text of a signature, always an arrow. -/
def text (s : Signature) : String := s.toTy.text

end Signature

end GrammarSearch
