import Pseudocode.Number.Decimal

/-!
# Values

What an expression can be: a number, a text, a truth value, a list of values, or null. Values are
immutable, so a list handed to a procedure is shared and never changes.
-/

namespace Pseudocode

/-- The type of a value, as far as operators tell types apart. -/
inductive Tag where
  | number | text | boolean | list | null
deriving DecidableEq

namespace Tag

/-- How a message names a type. -/
def name : Tag → String
  | number => "Number"
  | text => "Text"
  | boolean => "Boolean"
  | list => "List"
  | null => "Null"

end Tag

/-- What expressions evaluate to. -/
inductive Value where
  | number (x : Float)
  | text (s : String)
  | boolean (b : Bool)
  | list (items : List Value)
  | null

namespace Value

/-- The type of a value. -/
def tag : Value → Tag
  | number _ => .number
  | text _ => .text
  | boolean _ => .boolean
  | list _ => .list
  | null => .null

/-- The number, if it is one. -/
def asNumber? : Value → Option Float
  | number x => some x
  | _ => none

/-- The text, if it is one. -/
def asText? : Value → Option String
  | text s => some s
  | _ => none

/-- The truth value, if it is one. -/
def asBoolean? : Value → Option Bool
  | boolean b => some b
  | _ => none

/-- The items, if it is a list. -/
def asList? : Value → Option (List Value)
  | list items => some items
  | _ => none

/-! ## Text of a value

A text stands for itself, except directly inside a list, where it is put between quotes. Quotes
inside it are left as they are. -/

mutual

/-- The text of a value. -/
def render : Value → String
  | number x => Number.render x
  | text s => s
  | boolean b => if b then "true" else "false"
  | list items => "[" ++ String.intercalate ", " (renderItems items) ++ "]"
  | null => "null"

/-- The items of a list, each as it stands in the list's text. -/
def renderItems : List Value → List String
  | [] => []
  | text s :: rest => ("\"" ++ s ++ "\"") :: renderItems rest
  | item :: rest => render item :: renderItems rest

end

/-! ## Equality

Two values are equal when they have the same shape and equal leaves. Numbers compare as numbers do:
not-a-number differs from itself, and the two zeros are equal. -/

mutual

/-- Equality of whole values. -/
def equals : Value → Value → Bool
  | number x, number y => x == y
  | text s, text t => s == t
  | boolean a, boolean b => a == b
  | list xs, list ys => equalItems xs ys
  | null, null => true
  | _, _ => false

/-- Lists of one length whose items are pairwise equal. -/
def equalItems : List Value → List Value → Bool
  | [], [] => true
  | x :: xs, y :: ys => equals x y && equalItems xs ys
  | _, _ => false

end

end Value

end Pseudocode
