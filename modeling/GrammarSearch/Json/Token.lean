import GrammarSearch.Json.Basic

/-!
# Tokens of JSON texts

Brackets, braces, colons and commas are tokens by themselves, and so is a string
from its opening to its closing quotation mark. The characters between blanks
and other tokens make words: the literals and the numbers. In a string an escape
stands for a character; two escapes that are the halves of a surrogate pair
stand for one character, and neither half may stand alone.
-/

namespace GrammarSearch

namespace Json

/-- A token of a JSON text. -/
inductive Token
  | openBrace
  | closeBrace
  | openBracket
  | closeBracket
  | colon
  | comma
  /-- A literal or a number. -/
  | word (text : String)
  /-- A string, given by the text it stands for. -/
  | text (value : String)
deriving DecidableEq

/-- The token that a character makes by itself. -/
def punctuation? : Char → Option Token
  | '\x7b' => some .openBrace
  | '\x7d' => some .closeBrace
  | '[' => some .openBracket
  | ']' => some .closeBracket
  | ':' => some .colon
  | ',' => some .comma
  | _ => none

/-- A character that may stand between tokens. -/
def isSpace (c : Char) : Bool :=
  c == ' ' || c == '\t' || c == '\n' || c == '\r'

/-- The character that a backslash and a character stand for. -/
def escaped? : Char → Option Char
  | '"' => some '"'
  | '\\' => some '\\'
  | '/' => some '/'
  | 'b' => some '\x08'
  | 'f' => some '\x0c'
  | 'n' => some '\n'
  | 'r' => some '\r'
  | 't' => some '\t'
  | _ => none

/-- The value of a hexadecimal digit. -/
def hexValue? (c : Char) : Option Nat :=
  if c.isDigit then some (c.toNat - '0'.toNat)
  else if 'a' ≤ c ∧ c ≤ 'f' then some (c.toNat - 'a'.toNat + 10)
  else if 'A' ≤ c ∧ c ≤ 'F' then some (c.toNat - 'A'.toNat + 10)
  else none

/-- What a string stands for so far: its characters, last first, and the first half of a
surrogate pair if the second half must follow. -/
structure Content where
  reversed : List Char
  half? : Option Nat

namespace Content

/-- One more character. -/
def push (content : Content) (c : Char) : Option Content :=
  match content.half? with
  | none => some { content with reversed := c :: content.reversed }
  | some _ => none

/-- One more escape by number. -/
def pushCode (content : Content) (code : Nat) : Option Content :=
  let isFirst := 0xd800 ≤ code ∧ code < 0xdc00
  let isSecond := 0xdc00 ≤ code ∧ code < 0xe000
  match content.half? with
  | none =>
    if isFirst then some { content with half? := some code }
    else if isSecond then none
    else content.push (Char.ofNat code)
  | some first =>
    if isSecond then
      let c := Char.ofNat (0x10000 + (first - 0xd800) * 0x400 + (code - 0xdc00))
      some ⟨c :: content.reversed, none⟩
    else none

end Content

/-- Where in a token a character stands. -/
inductive Place
  /-- Outside of strings, after the characters of a word, last first. -/
  | word (reversed : List Char)
  /-- In a string. -/
  | text (content : Content)
  /-- In a string, after a backslash. -/
  | escape (content : Content)
  /-- In a string, in the digits of a number: those still to come, and the number so far. -/
  | code (content : Content) (digits value : Nat)

/-- The tokens found so far, last first, and where the next character stands. -/
structure Scan where
  reversed : List Token
  place : Place

namespace Scan

/-- Nothing was read. -/
def initial : Scan := ⟨[], .word []⟩

/-- The tokens found so far and the word that ends here, if there is one. -/
def closeWord (reversed : List Token) (word : List Char) : List Token :=
  if word.isEmpty then reversed else .word (String.ofList word.reverse) :: reversed

/-- One more character, unless it is impossible where it stands. -/
def step (scan : Scan) (c : Char) : Option Scan :=
  match scan.place with
  | .word word =>
    if c = '"' then some ⟨closeWord scan.reversed word, .text ⟨[], none⟩⟩
    else if isSpace c then some ⟨closeWord scan.reversed word, .word []⟩
    else
      match punctuation? c with
      | some token => some ⟨token :: closeWord scan.reversed word, .word []⟩
      | none => some { scan with place := .word (c :: word) }
  | .text content =>
    if c = '\\' then some { scan with place := .escape content }
    else if c.toNat < 0x20 then none
    else if c = '"' then
      if content.half?.isSome then none
      else some ⟨.text (String.ofList content.reversed.reverse) :: scan.reversed, .word []⟩
    else (content.push c).map fun content => { scan with place := .text content }
  | .escape content =>
    if c = 'u' then some { scan with place := .code content 4 0 }
    else do
      let content ← content.push (← escaped? c)
      return { scan with place := .text content }
  | .code content digits value => do
    let value := value * 16 + (← hexValue? c)
    if digits = 1 then
      let content ← content.pushCode value
      return { scan with place := .text content }
    else return { scan with place := .code content (digits - 1) value }

/-- The tokens, if nothing is left open at the end. -/
def finish (scan : Scan) : Option (List Token) :=
  match scan.place with
  | .word word => some (closeWord scan.reversed word).reverse
  | _ => none

end Scan

/-- The tokens of a text, unless some string in it is malformed. -/
def tokens? (s : String) : Option (List Token) :=
  (s.toList.foldlM Scan.step .initial).bind Scan.finish

end Json

end GrammarSearch
