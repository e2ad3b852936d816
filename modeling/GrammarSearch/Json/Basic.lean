import GrammarSearch.Binary64.Basic
import GrammarSearch.Keyed

/-!
# JSON values

The library writes programs, types and catalogues as JSON before it hashes
them. An object keeps its members in the order they were written down; a later
member with the key of an earlier one takes its place, so what an object means
is a map from keys to values.
-/

namespace GrammarSearch

/-- A JSON number: an integer, or a word for every number that is not one. -/
inductive Json.Number
  | integer (value : Int)
  | binary (value : Binary64)
deriving DecidableEq

/-- A JSON value. -/
inductive Json
  | null
  | bool (value : Bool)
  | number (value : Json.Number)
  | text (value : String)
  | array (items : List Json)
  | object (members : List (String × Json))

namespace Json

instance : Inhabited Json := ⟨.null⟩

/-- A natural number as a JSON value. -/
def ofNat (n : Nat) : Json :=
  .number (.integer n)

/-- The value of a key: null if the value is no object or has no such member. -/
def get (j : Json) (key : String) : Json :=
  match j with
  | .object members => (members.reverse.lookup key).getD .null
  | _ => .null

mutual

/-- The same value with the members of every object in ascending key order. -/
def sorted : Json → Json
  | .null => .null
  | .bool value => .bool value
  | .number value => .number value
  | .text value => .text value
  | .array items => .array (sortedItems items)
  | .object members => .object (Keyed.sort (sortedMembers members))

/-- The items of an array, each with its objects sorted. -/
def sortedItems : List Json → List Json
  | [] => []
  | item :: items => item.sorted :: sortedItems items

/-- The members of an object, each with the objects in its value sorted. -/
def sortedMembers : List (String × Json) → List (String × Json)
  | [] => []
  | (key, value) :: members => (key, value.sorted) :: sortedMembers members

end

end Json

end GrammarSearch
