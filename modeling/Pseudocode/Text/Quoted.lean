import Pseudocode.Text.Invisible

/-!
# Quoted text

A text between quotes on one line, as dumps show it. Quotes, backslashes and the common controls
have short escapes; other invisible characters are given by their code point.
-/

namespace Pseudocode.Text

/-- One character inside quotes. -/
def quoteChar (c : Char) : List Char :=
  if c == '"' then ['\\', '"']
  else if c == '\\' then ['\\', '\\']
  else if c == '\n' then ['\\', 'n']
  else if c == '\r' then ['\\', 'r']
  else if c == '\t' then ['\\', 't']
  else if c.toNat == 0 then ['\\', '0']
  else if isInvisible c then "\\u\x7b".toList ++ Nat.toDigits 16 c.toNat ++ "\x7d".toList
  else [c]

/-- A text between quotes, with its characters escaped. -/
def quote (text : String) : String :=
  "\"" ++ String.ofList (text.toList.flatMap quoteChar) ++ "\""

end Pseudocode.Text
