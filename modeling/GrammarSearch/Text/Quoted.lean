import GrammarSearch.Text.Hidden

/-!
# Quoted text

Diagnostics quote the names they speak of. The quoted form of a text is the
text between quotation marks, where the marks themselves, the backslash and the
characters a reader could not see are written as escapes. An apostrophe stands
for itself.
-/

namespace GrammarSearch

/-- The hexadecimal digits of a number, in lower case and without leading zeros. -/
def hexDigits (n : Nat) : String :=
  String.ofList (Nat.toDigits 16 n)

/-- One character inside quotes. -/
def quotedChar (c : Char) : String :=
  match c with
  | '"' => "\\\""
  | '\\' => "\\\\"
  | '\n' => "\\n"
  | '\r' => "\\r"
  | '\t' => "\\t"
  | '\x00' => "\\0"
  | c => if isHidden c then "\\u\x7b" ++ hexDigits c.toNat ++ "\x7d" else c.toString

/-- A text as diagnostics quote it. -/
def quoted (s : String) : String :=
  "\"" ++ String.join (s.toList.map quotedChar) ++ "\""

end GrammarSearch
