import GrammarSearch.Text.Quoted
import GrammarSearch.Ty.Basic
import GrammarSearch.Ty.Token

/-!
# Reading types

The grammar of type texts, over tokens, is

    T ::= word | [ T ] | { T (, dimension)* } | ( ) -> T | ( T (, T)* ) -> T | ( T )

A parenthesised type without an arrow is the type itself. The reader is a
machine with a stack: a frame stands for each construct that is still open, and
every token either moves the machine to a state from which some continuation is
accepted or is the first impossible token, at which the reader stops.
-/

namespace GrammarSearch

namespace Ty

/-- Why a text is no type. -/
inductive ParseError
  | unexpectedEnd
  | unexpectedToken (found : String) (offset : Nat)
  | trailingInput (offset : Nat)
  | invalidDimension (raw : String) (offset : Nat)
deriving DecidableEq

/-- What a diagnostic says. -/
def ParseError.message : ParseError → String
  | .unexpectedEnd => "unexpected end of type string"
  | .unexpectedToken found offset =>
    "unexpected " ++ quoted found ++ " at offset " ++ toString offset
  | .trailingInput offset => "trailing input at offset " ++ toString offset
  | .invalidDimension raw offset =>
    "invalid tensor dimension " ++ quoted raw ++ " at offset " ++ toString offset

/-- A dimension: decimal digits, after an optional plus sign, of a number below `2 ^ 64`. -/
def dimension? (word : String) : Option UInt64 :=
  let digits :=
    match word.toList with
    | '+' :: digits => digits
    | digits => digits
  let n := Nat.ofDigitChars 10 digits 0
  if digits ≠ [] ∧ digits.all Char.isDigit ∧ n < UInt64.size then some (.ofNat n) else none

/-- A construct that is still open, with what has been read of it. -/
inductive Frame
  /-- After `[`: the element is awaited. -/
  | list
  /-- After the opening brace: the element is awaited. -/
  | tensor
  /-- After `(` or a comma: a type is awaited after those before it, last first. -/
  | group (before : List Ty)
  /-- After `->`: the output is awaited. -/
  | arrow (inputs : List Ty)

/-- What the tokens so far have left open, and what may follow. The frames are
those of the open constructs, innermost first. -/
inductive State
  /-- A type must follow. -/
  | wanted (frames : List Frame)
  /-- After `(`: a type or `)` must follow. -/
  | opened (frames : List Frame)
  /-- A type is complete; the innermost frame says what may follow. -/
  | complete (frames : List Frame) (type : Ty)
  /-- After a dimension: a comma or the closing brace must follow. The dimensions are last first. -/
  | shaped (frames : List Frame) (element : Ty) (dimensions : List UInt64)
  /-- After a comma in a tensor: a dimension must follow. -/
  | dimension (frames : List Frame) (element : Ty) (dimensions : List UInt64)
  /-- After `)`: an arrow may follow, and must unless there is exactly one input. -/
  | grouped (frames : List Frame) (inputs : List Ty)

/-- The state before the first token. -/
def State.initial : State := .wanted []

/-- Closes the arrows that end with a complete type: nothing else can follow their output. -/
def closeArrows : List Frame → Ty → List Frame × Ty
  | .arrow inputs :: frames, t => closeArrows frames (.arrow inputs t)
  | frames, t => (frames, t)

/-- The state after a complete type. -/
def State.ofType (frames : List Frame) (t : Ty) : State :=
  let (frames, t) := closeArrows frames t
  .complete frames t

/-- A token that nothing can follow from. -/
def Token.unexpected (token : Token) : ParseError :=
  .unexpectedToken token.lexeme.text token.offset

/-- The state after the first token of a type. -/
def State.startType (frames : List Frame) (token : Token) : Except ParseError State :=
  match token.lexeme with
  | .openBracket => .ok (.wanted (.list :: frames))
  | .openBrace => .ok (.wanted (.tensor :: frames))
  | .openParen => .ok (.opened frames)
  | .word name => .ok (.ofType frames (.atomic name))
  | _ => .error token.unexpected

/-- The state after a token inside a tensor, behind its element or one of its dimensions. -/
def State.continueShape (frames : List Frame) (element : Ty) (dimensions : List UInt64)
    (token : Token) : Except ParseError State :=
  match token.lexeme with
  | .comma => .ok (.dimension frames element dimensions)
  | .closeBrace => .ok (.ofType frames (.tensor element dimensions.reverse))
  | _ => .error token.unexpected

/-- The state after a token behind a complete type. -/
def State.continueType (frames : List Frame) (t : Ty) (token : Token) :
    Except ParseError State :=
  match frames, token.lexeme with
  | [], _ => .error (.trailingInput token.offset)
  | .list :: frames, .closeBracket => .ok (.ofType frames (.list t))
  | .tensor :: frames, _ => continueShape frames t [] token
  | .group before :: frames, .comma => .ok (.wanted (.group (t :: before) :: frames))
  | .group before :: frames, .closeParen => .ok (.grouped frames (t :: before).reverse)
  | _, _ => .error token.unexpected

/-- The state after one more token. -/
def State.step (state : State) (token : Token) : Except ParseError State :=
  match state with
  | .wanted frames => startType frames token
  | .opened frames =>
    if token.lexeme = .closeParen then .ok (.grouped frames [])
    else startType (.group [] :: frames) token
  | .complete frames t => continueType frames t token
  | .shaped frames element dimensions => continueShape frames element dimensions token
  | .dimension frames element dimensions =>
    match dimension? token.lexeme.text with
    | some d => .ok (.shaped frames element (d :: dimensions))
    | none => .error (.invalidDimension token.lexeme.text token.offset)
  | .grouped frames inputs =>
    if token.lexeme = .arrow then .ok (.wanted (.arrow inputs :: frames))
    else
      match inputs with
      | [t] =>
        let (frames, t) := closeArrows frames t
        continueType frames t token
      | _ => .error token.unexpected

/-- The type that the tokens make if no token follows. -/
def State.finish : State → Except ParseError Ty
  | .complete [] t => .ok t
  | .grouped frames [t] =>
    match closeArrows frames t with
    | ([], t) => .ok t
    | _ => .error .unexpectedEnd
  | _ => .error .unexpectedEnd

/-- The type that the remaining tokens complete. -/
def State.run (state : State) : List Token → Except ParseError Ty
  | [] => state.finish
  | token :: rest =>
    match state.step token with
    | .ok state => state.run rest
    | .error e => .error e

/-- The type that a text denotes, or the first reason why it denotes none. -/
def parse (s : String) : Except ParseError Ty :=
  State.initial.run (tokens s)

end Ty

end GrammarSearch
