/-!
# Fields of fixed width

Widths count characters. A text that is too long for its field is not cut.
-/

namespace Pseudocode.Text

/-- A text of spaces. -/
def spaces (count : Nat) : String := String.ofList (List.replicate count ' ')

/-- Fills up on the right. -/
def alignLeft (width : Nat) (text : String) : String := text ++ spaces (width - text.length)

/-- Fills up on the left. -/
def alignRight (width : Nat) (text : String) : String := spaces (width - text.length) ++ text

/-- Puts the text in the middle. Where the space cannot be halved, the larger part stands on the
right. -/
def alignCenter (width : Nat) (text : String) : String :=
  let free := width - text.length
  spaces (free / 2) ++ text ++ spaces (free - free / 2)

/-- The first characters, as many as fit. -/
def cut (width : Nat) (text : String) : String := String.ofList (text.toList.take width)

end Pseudocode.Text
