import Pseudocode.Diagnostic

/-!
# Diagnostics for other programs

A summary as one line of JSON, with its keys in alphabetical order.
-/

namespace Pseudocode.Diagnostic

/-- Four hexadecimal digits. -/
def hexDigits4 (n : Nat) : List Char :=
  let digits := Nat.toDigits 16 n
  List.replicate (4 - digits.length) '0' ++ digits

/-- One character inside a JSON string. -/
def jsonChar (c : Char) : List Char :=
  if c == '"' then ['\\', '"']
  else if c == '\\' then ['\\', '\\']
  else if c == '\n' then ['\\', 'n']
  else if c == '\r' then ['\\', 'r']
  else if c == '\t' then ['\\', 't']
  else if c.toNat == 8 then ['\\', 'b']
  else if c.toNat == 12 then ['\\', 'f']
  else if c.toNat < 32 then '\\' :: 'u' :: hexDigits4 c.toNat
  else [c]

/-- A text as a JSON string. -/
def jsonString (text : String) : String :=
  "\"" ++ String.ofList (text.toList.flatMap jsonChar) ++ "\""

/-- A summary on one line. -/
def Summary.json (s : Summary) : String :=
  let fields := [
    ("code", (s.code.map jsonString).getD "null"),
    ("column", toString s.position.column),
    ("end", toString s.span.stop),
    ("line", toString s.position.line),
    ("message", jsonString s.message),
    ("start", toString s.span.start)]
  "\x7b" ++ String.intercalate "," (fields.map fun field => jsonString field.1 ++ ":" ++ field.2)
    ++ "\x7d"

end Pseudocode.Diagnostic
