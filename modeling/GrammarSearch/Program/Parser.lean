import GrammarSearch.Program.Printer
import GrammarSearch.Program.Token

/-!
# Reading programs

The grammar of program texts, over tokens, is

    expression ::= word | ( word expression* )

with at most `maxNesting` lists open at a time, and a text is one expression.
The reader keeps the open lists on a stack and never recurses. A word by itself
is an atom unless its style or the caller says that it is a call without
arguments; inside a list everything but the head is a program.
-/

namespace GrammarSearch

namespace Program

/-- The greatest number of lists that may be open at a time. -/
def maxNesting : Nat := 1024

/-- Why a text is no program. -/
inductive ParseError
  | malformedInput (found : Nat)
  | unbalancedParen (offset : Nat)
  | unexpectedCloseParen (offset : Nat)
  | emptyList (offset : Nat)
  | listHeadNotSymbol (offset : Nat)
  | tooDeep (offset : Nat)
deriving DecidableEq

/-- What a diagnostic says. -/
def ParseError.message : ParseError → String
  | .malformedInput found =>
    "expected exactly one top-level expression, found " ++ toString found
  | .unbalancedParen offset => "unclosed '(' at offset " ++ toString offset
  | .unexpectedCloseParen offset => "unexpected ')' at offset " ++ toString offset
  | .emptyList offset => "empty list at offset " ++ toString offset
  | .listHeadNotSymbol offset =>
    "list at offset " ++ toString offset ++ " does not start with a symbol"
  | .tooDeep offset =>
    "list at offset " ++ toString offset ++ " nests deeper than " ++ toString maxNesting ++
      " levels"

/-- What a text denotes. -/
inductive Parsed
  /-- A word that nothing marks as a call. -/
  | atom (symbol : String)
  /-- A program. -/
  | program (p : Program)
deriving DecidableEq

/-- An atom taken as a call without arguments. -/
def Parsed.toProgram : Parsed → Program
  | .atom symbol => .leaf symbol
  | .program p => p

/-- How words are read: the style of the text, and the symbols that are calls without
arguments wherever they stand. -/
structure Reading where
  style : Style
  calls : List String

/-- What a word denotes outside the head of a list. -/
def Reading.word (reading : Reading) (w : String) : Parsed :=
  let asListed := if w ∈ reading.calls then .program (.leaf w) else .atom w
  match reading.style with
  | .bare => asListed
  | .marked =>
    if leafMark.toList.isPrefixOf w.toList then
      .program (.leaf (String.ofList (w.toList.drop leafMark.length)))
    else if isVariable w then .program (.leaf w)
    else asListed

/-- A list that is still open: where it starts, its head, and its children, last first. -/
structure OpenList where
  offset : Nat
  head? : Option String
  reversed : List Program

/-- The open lists, innermost first, and the expressions found outside of lists, last first. -/
structure State where
  lists : List OpenList
  found : List Parsed

/-- The state before the first token. -/
def State.initial : State := ⟨[], []⟩

/-- The state after a complete expression. -/
def State.add (state : State) (e : Parsed) : State :=
  match state.lists with
  | [] => { state with found := e :: state.found }
  | list :: lists =>
    { state with lists := { list with reversed := e.toProgram :: list.reversed } :: lists }

/-- The state after one more token. -/
def State.step (reading : Reading) (state : State) : Token → Except ParseError State
  | .openParen offset =>
    if maxNesting ≤ state.lists.length then .error (.tooDeep offset)
    else
      match state.lists with
      | ⟨outer, none, _⟩ :: _ => .error (.listHeadNotSymbol outer)
      | lists => .ok { state with lists := ⟨offset, none, []⟩ :: lists }
  | .closeParen offset =>
    match state.lists with
    | [] => .error (.unexpectedCloseParen offset)
    | ⟨start, none, _⟩ :: _ => .error (.emptyList start)
    | ⟨_, some head, reversed⟩ :: lists =>
      .ok ({ state with lists := lists }.add (.program (.node head reversed.reverse)))
  | .word w =>
    match state.lists with
    | ⟨start, none, reversed⟩ :: lists =>
      .ok { state with lists := ⟨start, some w, reversed⟩ :: lists }
    | _ => .ok (state.add (reading.word w))

/-- What the tokens denote if no token follows. -/
def State.finish (state : State) : Except ParseError Parsed :=
  match state.lists, state.found with
  | list :: _, _ => .error (.unbalancedParen list.offset)
  | [], [e] => .ok e
  | [], found => .error (.malformedInput found.length)

/-- What the remaining tokens complete. -/
def State.run (reading : Reading) (state : State) : List Token → Except ParseError Parsed
  | [] => state.finish
  | token :: rest =>
    match state.step reading token with
    | .ok state => state.run reading rest
    | .error e => .error e

/-- What a text denotes, or the first reason why it denotes nothing. -/
def parse (reading : Reading) (s : String) : Except ParseError Parsed :=
  State.initial.run reading (tokens s)

end Program

end GrammarSearch
