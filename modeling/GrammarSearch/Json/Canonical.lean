import GrammarSearch.Json.Printer

/-!
# Canonical JSON

The canonical text of a value is the compact text with the members of every
object in ascending key order. Content is identified by hashing this text, so
it must not depend on how floating point numbers are written: a value that
holds a number other than an integer of 64 bits has no canonical text.
-/

namespace GrammarSearch

namespace Json

/-- A value with this number in it has no canonical text. -/
structure CanonicalError where
  number : Number
deriving DecidableEq

/-- What a diagnostic says of the number. -/
def CanonicalError.message (e : CanonicalError) : String :=
  "non-integer number in canonical JSON: " ++ e.number.text

mutual

/-- The first number that is no 64-bit integer, in the order the text is written. -/
def firstNonWord? : Json → Option Number
  | .null => none
  | .bool _ => none
  | .number value => if value.IsWord then none else some value
  | .text _ => none
  | .array items => firstNonWordItem? items
  | .object members => firstNonWordMember? members

/-- The first such number in the items of an array. -/
def firstNonWordItem? : List Json → Option Number
  | [] => none
  | item :: items => item.firstNonWord?.or (firstNonWordItem? items)

/-- The first such number in the members of an object. -/
def firstNonWordMember? : List (String × Json) → Option Number
  | [] => none
  | (_, value) :: members => value.firstNonWord?.or (firstNonWordMember? members)

end

/-- The canonical text of a value, or the first number that rules it out. -/
def canonical (value : Json) : Except CanonicalError String :=
  let value := value.sorted
  match value.firstNonWord? with
  | some offender => .error ⟨offender⟩
  | none => .ok value.compact

end Json

end GrammarSearch
