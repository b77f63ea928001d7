/-!
# Lines and columns

Positions that people read: lines and columns are counted from one, and columns count characters. A
byte offset inside a character has the position behind that character, and one beyond the end that
of the end.
-/

namespace Pseudocode.Text

/-- A line and a column. -/
structure Position where
  line : Nat
  column : Nat
deriving DecidableEq

namespace Position

/-- Where every text starts. -/
def first : Position := ⟨1, 1⟩

/-- The position behind a character. -/
def after (p : Position) (c : Char) : Position :=
  if c == '\n' then ⟨p.line + 1, 1⟩ else ⟨p.line, p.column + 1⟩

/-- The position `bytes` further on in the text that starts at `p`. -/
def advance (p : Position) (bytes : Nat) : List Char → Position
  | [] => p
  | c :: rest => if bytes = 0 then p else (p.after c).advance (bytes - c.utf8Size) rest

end Position

/-- The position of a byte offset. -/
def position (cs : List Char) (offset : Nat) : Position := Position.first.advance offset cs

/-- Lines from the one under way, whose characters so far are in `current`, the last one first. -/
def linesFrom (current : List Char) : List Char → List (List Char)
  | [] => [current.reverse]
  | c :: rest =>
    if c == '\n' then current.reverse :: linesFrom [] rest else linesFrom (c :: current) rest

/-- The lines of a text, without the line ends. There is always at least one. -/
def lines (cs : List Char) : List (List Char) := linesFrom [] cs

end Pseudocode.Text
