import GrammarSearch.Text.Blank

/-!
# Tokens of type texts

Brackets, braces, parentheses, the comma and the arrow `->` are tokens by
themselves; everything else between blanks and tokens is a word. A hyphen or a
greater sign belongs to a word unless the two stand together. A token remembers
where it starts, counted in bytes of UTF-8.
-/

namespace GrammarSearch

namespace Ty

/-- What a token says. -/
inductive Lexeme
  | openBracket
  | closeBracket
  | openBrace
  | closeBrace
  | openParen
  | closeParen
  | comma
  | arrow
  | word (text : String)
deriving DecidableEq

/-- A lexeme and the byte offset it starts at. -/
structure Token where
  lexeme : Lexeme
  offset : Nat
deriving DecidableEq

/-- The characters of a lexeme. -/
def Lexeme.text : Lexeme → String
  | .openBracket => "["
  | .closeBracket => "]"
  | .openBrace => "\x7b"
  | .closeBrace => "\x7d"
  | .openParen => "("
  | .closeParen => ")"
  | .comma => ","
  | .arrow => "->"
  | .word text => text

/-- The lexeme that a character makes by itself. -/
def punctuation? : Char → Option Lexeme
  | '[' => some .openBracket
  | ']' => some .closeBracket
  | '\x7b' => some .openBrace
  | '\x7d' => some .closeBrace
  | '(' => some .openParen
  | ')' => some .closeParen
  | ',' => some .comma
  | _ => none

/-- The word read so far: the offset of its first character, and its characters, last first. -/
structure Pending where
  start : Nat
  reversed : List Char

/-- The word read so far as tokens: none if there is no word. -/
def Pending.tokens : Option Pending → List Token
  | none => []
  | some word => [⟨.word (String.ofList word.reversed.reverse), word.start⟩]

/-- The word read so far, longer by a character at an offset. -/
def Pending.push (c : Char) (offset : Nat) : Option Pending → Pending
  | none => ⟨offset, [c]⟩
  | some word => ⟨word.start, c :: word.reversed⟩

/-- The tokens of characters that start at an offset, after a word read so far. -/
def scan (offset : Nat) (word : Option Pending) : List Char → List Token
  | [] => Pending.tokens word
  | '-' :: '>' :: rest => Pending.tokens word ++ ⟨.arrow, offset⟩ :: scan (offset + 2) none rest
  | c :: rest =>
    if isBlank c then Pending.tokens word ++ scan (offset + c.utf8Size) none rest
    else
      match punctuation? c with
      | some lexeme => Pending.tokens word ++ ⟨lexeme, offset⟩ :: scan (offset + 1) none rest
      | none => scan (offset + c.utf8Size) (some (Pending.push c offset word)) rest

/-- The tokens of a text. -/
def tokens (s : String) : List Token :=
  scan 0 none s.toList

end Ty

end GrammarSearch
