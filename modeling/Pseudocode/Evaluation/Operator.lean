import Pseudocode.Error
import Pseudocode.Program

/-!
# Literals and operators

What the leaves and the operators of an expression mean. Both operands of a binary operator are
evaluated before it looks at them, and they have to be of one type. Arithmetic is that of IEEE
doubles: dividing by zero gives an infinite number or none.
-/

namespace Pseudocode

/-- A text literal without the quotes around it. What does not stand between two quotes is left as
it is. -/
def unquote (text : String) : String :=
  match text.toList with
  | '"' :: rest =>
    match rest.reverse with
    | '"' :: inner => String.ofList inner.reverse
    | _ => text
  | _ => text

/-- The value of a literal. -/
def literalValue (token : Token) : Except Error Value :=
  match token.kind with
  | .number =>
    match Number.read? token.text with
    | some x => .ok (.number x)
    | none => .error (.typeError (.numberText token.text) token.span)
  | .text => .ok (.text (unquote token.text))
  | .truth => .ok (.boolean (token.text == "true"))
  | _ => .error (.expectedExpression token)

/-- A sign or a negation. An error points at the whole expression. -/
def applyUnary (whole : Expr) (operator : Token) (operand : Value) : Except Error Value :=
  match operator.kind, operand with
  | .subtract, .number x => .ok (.number (-x))
  | .notWord, .boolean b => .ok (.boolean !b)
  | _, other => .error (.typeError (.unaryOperand operator other.tag) whole.span)

/-- Arithmetic and comparisons of numbers. -/
def numberOperation? (kind : Kind) (x y : Float) : Option Value :=
  match kind with
  | .add => some (.number (x + y))
  | .subtract => some (.number (x - y))
  | .multiply => some (.number (x * y))
  | .divide => some (.number (x / y))
  | .modWord => some (.number (Number.remainder x y))
  | .greater => some (.boolean (x > y))
  | .less => some (.boolean (x < y))
  | .greaterEqual => some (.boolean (x ≥ y))
  | .lessEqual => some (.boolean (x ≤ y))
  | .equal => some (.boolean (x == y))
  | .notEqual => some (.boolean (x != y))
  | _ => none

/-- Texts are joined, and compared for equality. -/
def textOperation? (kind : Kind) (s t : String) : Option Value :=
  match kind with
  | .add => some (.text (s ++ t))
  | .equal => some (.boolean (s == t))
  | .notEqual => some (.boolean (s != t))
  | _ => none

/-- Truth values are connected, and compared for equality. -/
def booleanOperation? (kind : Kind) (a b : Bool) : Option Value :=
  match kind with
  | .andWord => some (.boolean (a && b))
  | .orWord => some (.boolean (a || b))
  | .equal => some (.boolean (a == b))
  | .notEqual => some (.boolean (a != b))
  | _ => none

/-- What an operator makes of two operands of one type. -/
def operation? (kind : Kind) : Value → Value → Option Value
  | .number x, .number y => numberOperation? kind x y
  | .text s, .text t => textOperation? kind s t
  | .boolean a, .boolean b => booleanOperation? kind a b
  | _, _ => none

/-- A binary operator. An error points at the whole expression. -/
def applyBinary (whole : Expr) (operator : Token) (left right : Value) : Except Error Value :=
  if left.tag = right.tag then
    match operation? operator.kind left right with
    | some value => .ok value
    | none => .error (.unsupportedOperator operator left.tag whole.span)
  else .error (.typeMismatch operator left.tag right.tag whole.span)

end Pseudocode
