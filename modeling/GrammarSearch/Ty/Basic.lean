import GrammarSearch.Json.Basic

/-!
# Types

A type is what the productions of a grammar take and return: a name, a list or
a tensor of a type, or an arrow from inputs to an output. Types are compared by
structure. Their order takes the forms in the order of the constructors and
within one form the parts from left to right.
-/

namespace GrammarSearch

/-- A type of the grammar's language. -/
inductive Ty
  /-- A type known only by its name. -/
  | atomic (name : String)
  /-- Lists of elements. -/
  | list (element : Ty)
  /-- Tensors of elements, with their dimensions from the outermost. -/
  | tensor (element : Ty) (shape : List UInt64)
  /-- Functions from inputs to an output. -/
  | arrow (inputs : List Ty) (output : Ty)
deriving Inhabited

namespace Ty

/-! ## Equality -/

mutual

/-- Structural equality. -/
def beq : Ty → Ty → Bool
  | .atomic a, .atomic b => a == b
  | .list a, .list b => a.beq b
  | .tensor a s, .tensor b t => a.beq b && s == t
  | .arrow as a, .arrow bs b => beqList as bs && a.beq b
  | _, _ => false

/-- Structural equality of lists of types. -/
def beqList : List Ty → List Ty → Bool
  | [], [] => true
  | a :: as, b :: bs => a.beq b && beqList as bs
  | _, _ => false

end

mutual

theorem beq_iff : ∀ {a b : Ty}, a.beq b = true ↔ a = b
  | .atomic a, .atomic b => by simp [beq]
  | .list a, .list b => by simp [beq, beq_iff (a := a)]
  | .tensor a s, .tensor b t => by simp [beq, beq_iff (a := a)]
  | .arrow as a, .arrow bs b => by simp [beq, beqList_iff (l := as), beq_iff (a := a)]
  | .atomic _, .list _ | .atomic _, .tensor .. | .atomic _, .arrow ..
  | .list _, .atomic _ | .list _, .tensor .. | .list _, .arrow ..
  | .tensor .., .atomic _ | .tensor .., .list _ | .tensor .., .arrow ..
  | .arrow .., .atomic _ | .arrow .., .list _ | .arrow .., .tensor .. => by simp [beq]

theorem beqList_iff : ∀ {l m : List Ty}, beqList l m = true ↔ l = m
  | [], [] => by simp [beqList]
  | a :: as, b :: bs => by simp [beqList, beq_iff (a := a), beqList_iff (l := as)]
  | [], _ :: _ | _ :: _, [] => by simp [beqList]

end

instance : DecidableEq Ty := fun _ _ => decidable_of_iff _ beq_iff

/-! ## Order -/

/-- The place of a type's form in the order. -/
def form : Ty → Nat
  | .atomic _ => 0
  | .list _ => 1
  | .tensor .. => 2
  | .arrow .. => 3

mutual

/-- The order of types. -/
protected def compare : Ty → Ty → Ordering
  | .atomic a, .atomic b => Ord.compare a b
  | .list a, .list b => a.compare b
  | .tensor a s, .tensor b t => (a.compare b).then (Ord.compare s t)
  | .arrow as a, .arrow bs b => (compareList as bs).then (a.compare b)
  | a, b => Ord.compare a.form b.form

/-- The lexicographic order of lists of types. -/
def compareList : List Ty → List Ty → Ordering
  | [], [] => .eq
  | [], _ :: _ => .lt
  | _ :: _, [] => .gt
  | a :: as, b :: bs => (a.compare b).then (compareList as bs)

end

instance : Ord Ty := ⟨Ty.compare⟩

/-! ## Measures -/

mutual

/-- The height of a type; a name has height one. -/
def depth : Ty → Nat
  | .atomic _ => 1
  | .list element => 1 + element.depth
  | .tensor element _ => 1 + element.depth
  | .arrow inputs output => 1 + max (maxDepth inputs) output.depth

/-- The greatest height among types, zero for none. -/
def maxDepth : List Ty → Nat
  | [] => 0
  | t :: ts => max t.depth (maxDepth ts)

end

/-! ## JSON -/

mutual

/-- A type as a JSON value: one member, named for the type's form. -/
def toJson : Ty → Json
  | .atomic name => .object [("atomic", .text name)]
  | .list element => .object [("list", element.toJson)]
  | .tensor element shape =>
    .object [("tensor", .object [("element", element.toJson),
      ("shape", .array (shape.map fun d => .ofNat d.toNat))])]
  | .arrow inputs output =>
    .object [("arrow", .object [("inputs", .array (toJsonList inputs)),
      ("output", output.toJson)])]

/-- Types as JSON values. -/
def toJsonList : List Ty → List Json
  | [] => []
  | t :: ts => t.toJson :: toJsonList ts

end

end Ty

end GrammarSearch
