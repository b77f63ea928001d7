import Pseudocode.Error
import Pseudocode.Text.Blank
import Pseudocode.Text.Bytes
import Pseudocode.Text.Word

/-!
# From text to tokens

The lexer cuts the source into tokens from left to right. At each place it skips blanks, or cuts
one lexeme, whose kind is decided by its first character. A lexeme is given by the number of
characters that follow its first one, so that every lexeme takes at least one character and cutting
comes to an end.

Operators are found one character at a time: characters are taken while they are still the
beginning of some operator, and then the longest part of them that is an operator is kept. The
characters given back are read again as the start of the next lexeme.

A source always ends with an empty newline and the empty end of input.
-/

namespace Pseudocode.Lexer

open Text (isBlank isWordStart isWordPart byteLength)

/-- The kind of a lexeme, and how many characters it has after its first. -/
structure Lexeme where
  kind : Kind
  more : Nat
deriving DecidableEq

/-! ## Numbers -/

/-- How many characters go on a number: digits, and one point if there was none. -/
def numberTail (pointSeen : Bool) : List Char → Nat
  | [] => 0
  | c :: rest =>
    if c.isDigit then numberTail pointSeen rest + 1
    else if c == '.' && !pointSeen then numberTail true rest + 1
    else 0

/-! ## Operators -/

/-- Takes characters while they are the beginning of an operator. -/
def munch (taken : List Char) : List Char → List Char
  | [] => taken
  | c :: rest =>
    if isPartialOperator (String.ofList (taken ++ [c])) then munch (taken ++ [c]) rest else taken

/-- The longest operator among the first `length` characters of `taken` or fewer. -/
def longestOperator (taken : List Char) : Nat → Option Lexeme
  | 0 => none
  | length + 1 =>
    match operator? (String.ofList (taken.take (length + 1))) with
    | some kind => some ⟨kind, length⟩
    | none => longestOperator taken length

/-- The operator that the text starts with. A comment goes on up to the end of its line. -/
def operatorLexeme? (c : Char) (rest : List Char) : Option Lexeme :=
  let taken := munch [] (c :: rest)
  match longestOperator taken taken.length with
  | some ⟨.comment, more⟩ =>
    some ⟨.comment, more + ((rest.drop more).takeWhile (· != '\n')).length⟩
  | found => found

/-! ## Cutting the source -/

/-- The lexeme that starts with `c` at byte `offset`, where `c` is no blank. -/
def lexeme (offset : Nat) (c : Char) (rest : List Char) : Except Error Lexeme :=
  if isWordStart c then
    let tail := rest.takeWhile isWordPart
    .ok ⟨(keyword? (String.ofList (c :: tail))).getD .identifier, tail.length⟩
  else if c.isDigit then .ok ⟨.number, numberTail false rest⟩
  else if c == '"' then
    let inner := (rest.takeWhile (· != '"')).length
    match rest.drop inner with
    | [] => .error (.unterminatedString ⟨offset, offset + byteLength (c :: rest)⟩)
    | _ :: _ => .ok ⟨.text, inner + 1⟩
  else
    match operatorLexeme? c rest with
    | some found => .ok found
    | none => .error (.unrecognizedCharacter c ⟨offset, offset + c.utf8Size⟩)

/-- Appends the tokens of the text that starts at byte `offset`. -/
def lexFrom (tokens : Array Token) (offset : Nat) (cs : List Char) : Except Error (Array Token) :=
  match cs with
  | [] => .ok ((tokens.push ⟨"", .newline, offset⟩).push (Token.endAt offset))
  | c :: rest =>
    if c == '\n' then lexFrom (tokens.push ⟨"\n", .newline, offset + 1⟩) (offset + 1) rest
    else if isBlank c then lexFrom tokens (offset + c.utf8Size) rest
    else
      match lexeme offset c rest with
      | .error e => .error e
      | .ok ⟨kind, more⟩ =>
        let text := c :: rest.take more
        let stop := offset + byteLength text
        lexFrom (tokens.push ⟨String.ofList text, kind, stop⟩) stop (rest.drop more)
termination_by cs.length
decreasing_by all_goals simp only [List.length_cons, List.length_drop]; omega

end Pseudocode.Lexer

namespace Pseudocode

/-- The tokens of a source, or the first error in it. -/
def lex (source : String) : Except Error (List Token) :=
  (Lexer.lexFrom #[] 0 source.toList).map Array.toList

end Pseudocode
