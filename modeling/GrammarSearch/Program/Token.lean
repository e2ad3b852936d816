import GrammarSearch.Text.Blank

/-!
# Tokens of program texts

Parentheses are tokens by themselves, and the characters between blanks and
parentheses make words. Tokens that can be at fault remember where they start,
counted in bytes of UTF-8.
-/

namespace GrammarSearch

namespace Program

/-- A token of a program text. -/
inductive Token
  | openParen (offset : Nat)
  | closeParen (offset : Nat)
  | word (text : String)
deriving DecidableEq

/-- The word read so far, given last character first, as tokens: none if it is empty. -/
def wordTokens (reversed : List Char) : List Token :=
  if reversed.isEmpty then [] else [.word (String.ofList reversed.reverse)]

/-- The tokens of characters that start at an offset, after a word read so far. -/
def scan (offset : Nat) (word : List Char) : List Char → List Token
  | [] => wordTokens word
  | c :: rest =>
    let next := offset + c.utf8Size
    if c = '(' then wordTokens word ++ .openParen offset :: scan next [] rest
    else if c = ')' then wordTokens word ++ .closeParen offset :: scan next [] rest
    else if isBlank c then wordTokens word ++ scan next [] rest
    else scan next (c :: word) rest

/-- The tokens of a text. -/
def tokens (s : String) : List Token :=
  scan 0 [] s.toList

end Program

end GrammarSearch
