import Pseudocode.Error

/-!
# Builtin procedures

`DISPLAY` shows a number, a text or a truth value. `LENGTH` counts the characters of a text or the
items of a list.
-/

namespace Pseudocode

/-- The procedures that every program may call without declaring them. -/
inductive Builtin where
  | display
  | length
deriving DecidableEq

/-- A value handed to a builtin, with the span of the expression it came from. -/
structure Argument where
  value : Value
  span : Span

/-- What a builtin does: it shows a line, or answers a value. -/
inductive Response where
  | shows (line : String)
  | answers (value : Value)

namespace Builtin

/-- In the order in which they are installed. -/
def all : List Builtin := [display, length]

/-- The name that calls a builtin. -/
def name : Builtin → String
  | display => "DISPLAY"
  | length => "LENGTH"

/-- How many arguments a builtin takes. -/
def arity : Builtin → Nat
  | display | length => 1

/-- A builtin as it is listed for inspection. -/
def describe (b : Builtin) : String :=
  "Builtin \x7b name: \"" ++ b.name ++ "\", arity: " ++ toString b.arity ++ ", .. \x7d"

/-- The line that `DISPLAY` shows. Lists and null have none. -/
def showLine (a : Argument) : Except Error String :=
  match a.value with
  | .list _ => .error (.invalidArgument .list a.span)
  | .null => .error (.invalidArgument .null a.span)
  | value => .ok value.render

/-- What `LENGTH` answers: characters of a text, items of a list. -/
def count (a : Argument) : Except Error Value :=
  match a.value with
  | .text s => .ok (.number (Float.ofNat s.length))
  | .list items => .ok (.number (Float.ofNat items.length))
  | other => .error (.typeError (.lengthArgument other.tag) a.span)

/-- Calls a builtin with arguments as many as its arity. -/
def call (b : Builtin) : List Argument → Except Halt Response
  | [] => .error (.fault .missingArgument)
  | a :: _ =>
    match b with
    | display => (showLine a).map Response.shows |>.mapError Halt.error
    | length => (count a).map Response.answers |>.mapError Halt.error

end Builtin

end Pseudocode
