import Pseudocode.Error
import Pseudocode.Text.Position

/-!
# Diagnostics

An error made ready to be shown: a code, a message, labels that point into the source, and notes.
`Error.diagnostic` says what is shown for each error.
-/

namespace Pseudocode

/-- A remark about a part of the source. -/
structure Label where
  span : Span
  message : String
deriving DecidableEq

/-- What a report shows: a code and a message, labels in their order, and notes. -/
structure Diagnostic where
  code : Option String
  message : String
  labels : List Label
  notes : List String
deriving DecidableEq

namespace Diagnostic

/-- A note that gives advice. -/
def help (advice : String) : String := "help: " ++ advice

/-- The span of the first label. -/
def primarySpan? (d : Diagnostic) : Option Span := d.labels.head?.map Label.span

/-- A diagnostic in a form for other programs: one span, and the position where it starts. -/
structure Summary where
  code : Option String
  message : String
  span : Span
  position : Text.Position

/-- A diagnostic without labels is about the start of the source. -/
def summary (source : String) (d : Diagnostic) : Summary :=
  let span := d.primarySpan?.getD (Span.point 0)
  ⟨d.code, d.message, span, Text.position source.toList span.start⟩

end Diagnostic

namespace Error

/-- The remark that stands below the part of the source in error. -/
def remark : Error → String
  | unrecognizedCharacter .. => "not part of any token"
  | unterminatedString _ => "string starts here"
  | unexpectedToken expected _ => "expected " ++ expected.describe ++ " here"
  | expectedExpression _ => "expected an expression"
  | unterminatedBlock _ => "input ends here"
  | nestingTooDeep _ => "nested too deeply"
  | typeMismatch _ left right _ => left.name ++ " and " ++ right.name
  | undefinedName _ => "not found in this scope"
  | notCallable _ => "not a procedure"
  | recursionLimit _ => "this call"
  | invalidStatement _ | arityMismatch .. | unsupportedOperator .. | typeError ..
  | procedureAsValue _ | invalidArgument .. => ""

/-- Advice that stands below the drawn source. -/
def notes : Error → List String
  | unrecognizedCharacter .. =>
    [Diagnostic.help "type `<--` for `←`, `!=` for `≠`, `<=` for `≤` and `>=` for `≥`"]
  | invalidStatement _ =>
    ["a statement starts with an identifier, PROCEDURE, IF, REPEAT, FOR or RETURN"]
  | unterminatedBlock _ => [Diagnostic.help "close the block with `\x7d`"]
  | nestingTooDeep _ => [Diagnostic.help "split the expression or block into smaller pieces"]
  | recursionLimit _ => ["the procedure probably never reaches a RETURN that stops the recursion"]
  | _ => []

/-- An error has one label, on the part of the source that it is about. -/
def diagnostic (e : Error) : Diagnostic := ⟨some e.code, e.message, [⟨e.span, e.remark⟩], e.notes⟩

end Error

end Pseudocode
