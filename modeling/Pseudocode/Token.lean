import Pseudocode.Span

/-!
# Tokens

A token is a piece of the source with a kind. It stores the offset just past its last character, so
that its span follows from its text and cannot disagree with it.

Two tables fix the vocabulary. `keywords` are the reserved words; `operators` are the symbols. `←`,
`≠`, `≤` and `≥` have spellings that a plain keyboard can type, of the same kind as the symbol.
-/

namespace Pseudocode

/-- Reserved words, literals and names, symbols, and what stands between tokens. -/
inductive Kind where
  | procedureWord | forWord | eachWord | inWord | ifWord | elseWord | returnWord
  | modWord | notWord | andWord | orWord | repeatWord | timesWord | untilWord
  | number | text | truth | identifier
  | assign | equal | notEqual | greater | less | greaterEqual | lessEqual
  | add | subtract | multiply | divide
  | openParen | closeParen | openBracket | closeBracket | openBrace | closeBrace | comma | dot
  | newline | comment | endOfInput
deriving DecidableEq

namespace Kind

/-- Newlines and comments stand between tokens and have no part in the grammar. -/
def isInsignificant : Kind → Bool
  | newline | comment => true
  | _ => false

/-- Operators that may follow a complete operand. -/
def isBinaryOperator : Kind → Bool
  | add | subtract | multiply | divide | modWord | andWord | orWord
  | greater | less | equal | notEqual | lessEqual | greaterEqual => true
  | _ => false

/-- How a message names a kind. Fixed spellings stand between backquotes. -/
def describe : Kind → String
  | procedureWord => "`PROCEDURE`"
  | forWord => "`FOR`"
  | eachWord => "`EACH`"
  | inWord => "`IN`"
  | ifWord => "`IF`"
  | elseWord => "`ELSE`"
  | returnWord => "`RETURN`"
  | modWord => "`MOD`"
  | notWord => "`NOT`"
  | andWord => "`AND`"
  | orWord => "`OR`"
  | repeatWord => "`REPEAT`"
  | timesWord => "`TIMES`"
  | untilWord => "`UNTIL`"
  | number => "number"
  | text => "string"
  | truth => "boolean"
  | identifier => "identifier"
  | assign => "`←`"
  | equal => "`=`"
  | notEqual => "`≠`"
  | greater => "`>`"
  | less => "`<`"
  | greaterEqual => "`≥`"
  | lessEqual => "`≤`"
  | add => "`+`"
  | subtract => "`-`"
  | multiply => "`*`"
  | divide => "`/`"
  | openParen => "`(`"
  | closeParen => "`)`"
  | openBracket => "`[`"
  | closeBracket => "`]`"
  | openBrace => "`\x7b`"
  | closeBrace => "`\x7d`"
  | comma => "`,`"
  | dot => "`.`"
  | newline => "newline"
  | comment => "comment"
  | endOfInput => "end of input"

end Kind

/-- A piece of the source: its characters, its kind, and the byte offset just past it. -/
structure Token where
  text : String
  kind : Kind
  stop : Nat
deriving DecidableEq

namespace Token

/-- Where the token begins, as many bytes before its end as its text has. The difference is one of
words of 64 bits: it wraps around for a text that is longer than what stands before its end. -/
def start (t : Token) : Nat :=
  if t.text.utf8ByteSize ≤ t.stop then t.stop - t.text.utf8ByteSize
  else t.stop + UInt64.size - t.text.utf8ByteSize

/-- Where the text fits before the end, nothing wraps around. -/
theorem start_of_le {t : Token} (h : t.text.utf8ByteSize ≤ t.stop) :
    t.start = t.stop - t.text.utf8ByteSize := if_pos h

/-- A token that ends as many bytes behind an offset as its text has starts at that offset. -/
theorem start_add (text : String) (kind : Kind) (offset : Nat) :
    start ⟨text, kind, offset + text.utf8ByteSize⟩ = offset := by
  rw [start_of_le (Nat.le_add_left _ _)]
  exact Nat.add_sub_cancel _ _

/-- Offsets and sizes that are words are subtracted as such. -/
theorem start_eq_word {t : Token} (hstop : t.stop < UInt64.size)
    (hsize : t.text.utf8ByteSize < UInt64.size) :
    t.start = (UInt64.ofNat t.stop - UInt64.ofNat t.text.utf8ByteSize).toNat := by
  rw [UInt64.toNat_sub, UInt64.toNat_ofNat_of_lt' hstop, UInt64.toNat_ofNat_of_lt' hsize]
  unfold UInt64.size at hstop hsize
  unfold start UInt64.size
  split <;> omega

example : start ⟨"x", .identifier, 0⟩ = UInt64.size - 1 := by decide

/-- The bytes that the token covers. -/
def span (t : Token) : Span := ⟨t.start, t.stop⟩

/-- How a message names a token that it found. -/
def describe (t : Token) : String :=
  match t.kind with
  | .endOfInput | .newline | .comment => t.kind.describe
  | .identifier => "identifier `" ++ t.text ++ "`"
  | _ => "`" ++ t.text ++ "`"

/-- The empty token that closes the input at `offset`. -/
def endAt (offset : Nat) : Token := ⟨"", .endOfInput, offset⟩

end Token

/-! ## The vocabulary -/

/-- Reserved words. Letter case counts. -/
def keywords : List (String × Kind) :=
  [("PROCEDURE", .procedureWord), ("FOR", .forWord), ("EACH", .eachWord), ("IN", .inWord),
    ("IF", .ifWord), ("ELSE", .elseWord), ("RETURN", .returnWord), ("MOD", .modWord),
    ("NOT", .notWord), ("AND", .andWord), ("OR", .orWord), ("REPEAT", .repeatWord),
    ("TIMES", .timesWord), ("UNTIL", .untilWord), ("true", .truth), ("false", .truth)]

/-- Symbols. `//` opens a comment. -/
def operators : List (String × Kind) :=
  [("←", .assign), ("<--", .assign), ("=", .equal), ("≠", .notEqual), ("=/=", .notEqual),
    ("!=", .notEqual), ("≤", .lessEqual), ("<==", .lessEqual), ("<=", .lessEqual),
    ("≥", .greaterEqual), (">==", .greaterEqual), (">=", .greaterEqual), ("<", .less),
    (">", .greater), ("+", .add), ("-", .subtract), ("*", .multiply), ("/", .divide),
    ("(", .openParen), (")", .closeParen), ("[", .openBracket), ("]", .closeBracket),
    ("\x7b", .openBrace), ("\x7d", .closeBrace), (",", .comma), (".", .dot), ("//", .comment)]

/-- The kind of a reserved word. -/
def keyword? (word : String) : Option Kind := keywords.lookup word

/-- The kind of a symbol, given in full. -/
def operator? (symbol : String) : Option Kind := operators.lookup symbol

/-- Some operator starts with these characters. So the empty text is partial, and so is every whole
operator. -/
def isPartialOperator (symbol : String) : Bool :=
  operators.any fun entry => symbol.toList.isPrefixOf entry.1.toList

end Pseudocode
