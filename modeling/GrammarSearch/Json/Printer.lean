import GrammarSearch.Binary64.Printer
import GrammarSearch.Json.Basic

/-!
# Compact JSON text

The text of a value has no blanks between its tokens. In a string the quotation
mark, the backslash and the C0 control characters are escaped, those that have
a short escape by it; every other character stands for itself.
-/

namespace GrammarSearch

namespace Json

/-- The four hexadecimal digits of an escape. -/
def escapeDigits (n : Nat) : List Char :=
  let digits := Nat.toDigits 16 n
  List.replicate (4 - digits.length) '0' ++ digits

/-- One character of a string. -/
def escapeChar (c : Char) : List Char :=
  match c with
  | '"' => ['\\', '"']
  | '\\' => ['\\', '\\']
  | '\x08' => ['\\', 'b']
  | '\x0c' => ['\\', 'f']
  | '\n' => ['\\', 'n']
  | '\r' => ['\\', 'r']
  | '\t' => ['\\', 't']
  | c => if c.toNat < 0x20 then '\\' :: 'u' :: escapeDigits c.toNat else [c]

/-- A string between its quotation marks. -/
def stringText (s : String) : String :=
  "\"" ++ String.ofList (s.toList.flatMap escapeChar) ++ "\""

/-- A number is an integer that fits a signed or an unsigned 64-bit word. -/
def Number.IsWord : Number → Prop
  | .integer n => -0x8000000000000000 ≤ n ∧ n < 0x10000000000000000
  | .binary _ => False

instance : DecidablePred Number.IsWord
  | .integer _ => inferInstanceAs (Decidable (_ ∧ _))
  | .binary _ => isFalse id

/-- The text of a number. An integer that fits no word is written as the nearest floating
point number. -/
def Number.text (n : Number) : String :=
  match n with
  | .integer value =>
    if n.IsWord then toString value
    else (Binary64.ofInt value).jsonText
  | .binary value => value.jsonText

mutual

/-- The compact text of a value. -/
def compact : Json → String
  | .null => "null"
  | .bool value => if value then "true" else "false"
  | .number value => value.text
  | .text value => stringText value
  | .array items => "[" ++ compactItems items ++ "]"
  | .object members => "\x7b" ++ compactMembers members ++ "\x7d"

/-- The texts of the items of an array, separated by commas. -/
def compactItems : List Json → String
  | [] => ""
  | [item] => item.compact
  | item :: items => item.compact ++ "," ++ compactItems items

/-- The texts of the members of an object, separated by commas. -/
def compactMembers : List (String × Json) → String
  | [] => ""
  | [(key, value)] => stringText key ++ ":" ++ value.compact
  | (key, value) :: members =>
    stringText key ++ ":" ++ value.compact ++ "," ++ compactMembers members

end

end Json

end GrammarSearch
