import GrammarSearch.Binary64.Scaling
import GrammarSearch.Json.Printer
import GrammarSearch.Json.Token

/-!
# Reading JSON

The reader of JSON texts is a machine with a stack, on which a frame stands for
each array and object that is still open. A number without fraction and exponent
is an integer if it fits a 64-bit word and is not `-0`. Every other number is a
floating point number: a significand of as many digits as fit a word, scaled by
a power of ten.
-/

namespace GrammarSearch

namespace Json

/-! ## Words -/

/-- The digits at the front of some characters, of which there must be one, and what follows. -/
def digits? (cs : List Char) : Option (List Char × List Char) :=
  let (digits, rest) := cs.span Char.isDigit
  if digits.isEmpty then none else some (digits, rest)

/-- A fraction at the front of some characters, if there is one, and what follows. -/
def fraction? : List Char → Option (Option (List Char) × List Char)
  | '.' :: cs => (digits? cs).map fun (digits, rest) => (some digits, rest)
  | cs => some (none, cs)

/-- A sign at the front of some characters: whether it is negative, and what follows. -/
def splitSign : List Char → Bool × List Char
  | '-' :: cs => (true, cs)
  | '+' :: cs => (false, cs)
  | cs => (false, cs)

/-- The exponent that some characters make, if there are any. -/
def exponent? : List Char → Option (Option Int)
  | [] => some none
  | mark :: cs => do
    let (negative, cs) := splitSign cs
    let (digits, rest) ← digits? cs
    if (mark = 'e' ∨ mark = 'E') ∧ rest = [] then
      let n : Int := Nat.ofDigitChars 10 digits 0
      return some (if negative then -n else n)
    else none

/-- Appends digits to a significand up to the first one that would make it too great for a
64-bit word: the significand, and the digits left over. -/
def appendDigits (significand : Nat) : List Char → Nat × List Char
  | [] => (significand, [])
  | c :: cs =>
    let longer := significand * 10 + (c.toNat - '0'.toNat)
    if longer < 0x10000000000000000 then appendDigits longer cs else (significand, c :: cs)

/-- The floating point number that digits before and after the point and an exponent make. A
digit of the whole part that the significand has no room for counts as a place; digits of
the fraction that it has no room for are dropped. -/
def float? (negative : Bool) (whole places : List Char) (exponent : Int) : Option Binary64 :=
  let (significand, above) := appendDigits 0 whole
  let (significand, dropped) := appendDigits significand places
  let kept := places.length - dropped.length
  Binary64.scaled? negative significand (exponent + above.length - kept)

/-- The number of a word, given without its sign. -/
def unsigned? (negative : Bool) (cs : List Char) : Option Number := do
  let (whole, cs) ← digits? cs
  let (fraction, cs) ← fraction? cs
  let exponent ← exponent? cs
  if whole.head? = some '0' ∧ 1 < whole.length then none
  else
    let m := Nat.ofDigitChars 10 whole 0
    let n : Int := if negative then -m else m
    let isSignedZero := negative ∧ n = 0
    if fraction.isNone ∧ exponent.isNone ∧ (Number.integer n).IsWord ∧ ¬isSignedZero then
      return .integer n
    else return .binary (← float? negative whole (fraction.getD []) (exponent.getD 0))

/-- The value of a word. -/
def word? (word : String) : Option Json :=
  if word = "null" then some .null
  else if word = "true" then some (.bool true)
  else if word = "false" then some (.bool false)
  else
    match word.toList with
    | '-' :: cs => (unsigned? true cs).map .number
    | cs => (unsigned? false cs).map .number

/-! ## Values -/

/-- An array or object that is still open, with what has been read of it, last first. -/
inductive Frame
  | array (reversed : List Json)
  /-- The value of the key is awaited. -/
  | object (reversed : List (String × Json)) (key : String)

/-- What the tokens so far have left open, innermost first, and what may follow. -/
inductive State
  /-- A value must follow. -/
  | wanted (frames : List Frame)
  /-- After an opening bracket: a value or the closing bracket must follow. -/
  | openedArray (frames : List Frame)
  /-- After an opening brace: a key or the closing brace must follow. -/
  | openedObject (frames : List Frame)
  /-- After a comma in an object: a key must follow. -/
  | member (frames : List Frame) (reversed : List (String × Json))
  /-- After a key: a colon must follow. -/
  | named (frames : List Frame) (reversed : List (String × Json)) (key : String)
  /-- A value is complete; the innermost frame says what may follow. -/
  | complete (frames : List Frame) (value : Json)

namespace State

/-- The state after the first token of a value. -/
def startValue (frames : List Frame) : Token → Option State
  | .openBracket => some (.openedArray frames)
  | .openBrace => some (.openedObject frames)
  | .text value => some (.complete frames (.text value))
  | .word word => (word? word).map (.complete frames)
  | _ => none

/-- The state after a token behind a complete value. -/
def afterValue (value : Json) : List Frame → Token → Option State
  | .array reversed :: frames, .comma => some (.wanted (.array (value :: reversed) :: frames))
  | .array reversed :: frames, .closeBracket =>
    some (.complete frames (.array (value :: reversed).reverse))
  | .object reversed key :: frames, .comma => some (.member frames ((key, value) :: reversed))
  | .object reversed key :: frames, .closeBrace =>
    some (.complete frames (.object ((key, value) :: reversed).reverse))
  | _, _ => none

/-- The state after one more token, unless it is impossible where it stands. -/
def step (state : State) (token : Token) : Option State :=
  match state with
  | .wanted frames => startValue frames token
  | .openedArray frames =>
    if token = .closeBracket then some (.complete frames (.array []))
    else startValue (.array [] :: frames) token
  | .openedObject frames =>
    match token with
    | .closeBrace => some (.complete frames (.object []))
    | .text key => some (.named frames [] key)
    | _ => none
  | .member frames reversed =>
    match token with
    | .text key => some (.named frames reversed key)
    | _ => none
  | .named frames reversed key =>
    if token = .colon then some (.wanted (.object reversed key :: frames)) else none
  | .complete frames value => afterValue value frames token

/-- The value that the tokens make if no token follows. -/
def finish : State → Option Json
  | .complete [] value => some value
  | _ => none

end State

/-- The value that a text denotes. -/
def parse? (s : String) : Option Json := do
  let state ← (← tokens? s).foldlM State.step (.wanted [])
  state.finish

end Json

end GrammarSearch
