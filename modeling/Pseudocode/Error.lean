import Pseudocode.Token
import Pseudocode.Value

/-!
# Errors

Everything that can be wrong with a program, from an unknown character to a runaway recursion. An
error is a cause with the data that its message and its span are made from. `Error.kind` forgets
the data; the code that a report shows depends on the kind alone, and its first digit tells the
phase: 0 for tokens, 1 for the grammar, 2 for evaluation.
-/

namespace Pseudocode

/-- Blocks and expressions nested more deeply than this are refused. -/
def nestingLimit : Nat := 2000

/-- Procedure calls nested more deeply than this are refused. -/
def callLimit : Nat := 2000

/-- What the grammar had room for. -/
inductive Expected where
  | kind (k : Kind)
  | parameterName
deriving DecidableEq

namespace Expected

/-- How a message names what was wanted. -/
def describe : Expected → String
  | kind k => k.describe
  | parameterName => "parameter name"

end Expected

/-- A value, or the text of a literal, that does not suit its place. -/
inductive TypeFault where
  | ifCondition (found : Tag)
  | untilCondition (found : Tag)
  | repeatCount (found : Tag)
  | forEachList (found : Tag)
  | unaryOperand (operator : Token) (found : Tag)
  | numberText (text : String)
  | lengthArgument (found : Tag)
deriving DecidableEq

namespace TypeFault

/-- What the fault says about the value or text. -/
def message : TypeFault → String
  | ifCondition found => "IF condition must be Boolean, found " ++ found.name
  | untilCondition found => "REPEAT UNTIL condition must be Boolean, found " ++ found.name
  | repeatCount found => "REPEAT expects a Number of times, found " ++ found.name
  | forEachList found => "FOR EACH expects a List, found " ++ found.name
  | unaryOperand operator found => "cannot apply " ++ operator.describe ++ " to " ++ found.name
  | numberText text => "`" ++ text ++ "` is not a valid number"
  | lengthArgument found => "LENGTH expects Text or List, found " ++ found.name

end TypeFault

/-- A value that cannot be displayed. -/
inductive DisplayFault where
  | list
  | null
deriving DecidableEq

namespace DisplayFault

/-- What the fault says about the value. -/
def message : DisplayFault → String
  | list => "cannot display a list directly"
  | null => "cannot display null"

end DisplayFault

/-- A cause, with the tokens, tags and spans that its report needs. -/
inductive Error where
  | unrecognizedCharacter (found : Char) (span : Span)
  | unterminatedString (span : Span)
  | unexpectedToken (expected : Expected) (found : Token)
  | expectedExpression (found : Token)
  | invalidStatement (found : Token)
  | unterminatedBlock (found : Token)
  | nestingTooDeep (span : Span)
  | arityMismatch (name : String) (expected found : Nat) (span : Span)
  | typeMismatch (operator : Token) (left right : Tag) (span : Span)
  | unsupportedOperator (operator : Token) (operand : Tag) (span : Span)
  | undefinedName (name : Token)
  | typeError (fault : TypeFault) (span : Span)
  | notCallable (name : Token)
  | procedureAsValue (name : Token)
  | invalidArgument (fault : DisplayFault) (span : Span)
  | recursionLimit (span : Span)
deriving DecidableEq

/-- An error without its data. -/
inductive ErrorKind where
  | unrecognizedCharacter | unterminatedString
  | unexpectedToken | expectedExpression | invalidStatement | unterminatedBlock | nestingTooDeep
  | arityMismatch | typeMismatch | unsupportedOperator | undefinedName | typeError | notCallable
  | procedureAsValue | invalidArgument | recursionLimit
deriving DecidableEq

namespace ErrorKind

/-- The code of a kind, by phase and then by order. -/
def code : ErrorKind → String
  | unrecognizedCharacter => "E0001"
  | unterminatedString => "E0002"
  | unexpectedToken => "E0101"
  | expectedExpression => "E0102"
  | invalidStatement => "E0103"
  | unterminatedBlock => "E0104"
  | nestingTooDeep => "E0105"
  | arityMismatch => "E0201"
  | typeMismatch => "E0202"
  | unsupportedOperator => "E0203"
  | undefinedName => "E0204"
  | typeError => "E0205"
  | notCallable => "E0206"
  | procedureAsValue => "E0207"
  | invalidArgument => "E0208"
  | recursionLimit => "E0209"

end ErrorKind

namespace Error

/-- Forgets the data of an error. -/
def kind : Error → ErrorKind
  | unrecognizedCharacter .. => .unrecognizedCharacter
  | unterminatedString .. => .unterminatedString
  | unexpectedToken .. => .unexpectedToken
  | expectedExpression .. => .expectedExpression
  | invalidStatement .. => .invalidStatement
  | unterminatedBlock .. => .unterminatedBlock
  | nestingTooDeep .. => .nestingTooDeep
  | arityMismatch .. => .arityMismatch
  | typeMismatch .. => .typeMismatch
  | unsupportedOperator .. => .unsupportedOperator
  | undefinedName .. => .undefinedName
  | typeError .. => .typeError
  | notCallable .. => .notCallable
  | procedureAsValue .. => .procedureAsValue
  | invalidArgument .. => .invalidArgument
  | recursionLimit .. => .recursionLimit

/-- The code of an error, which its kind fixes. -/
def code (e : Error) : String := e.kind.code

/-- The part of the source that the error is about. -/
def span : Error → Span
  | unexpectedToken _ found | expectedExpression found | invalidStatement found
  | unterminatedBlock found => found.span
  | undefinedName name | notCallable name | procedureAsValue name => name.span
  | unrecognizedCharacter _ span | unterminatedString span | nestingTooDeep span
  | arityMismatch _ _ _ span | typeMismatch _ _ _ span | unsupportedOperator _ _ span
  | typeError _ span | invalidArgument _ span | recursionLimit span => span

/-- What the headline of a report says. -/
def message : Error → String
  | unrecognizedCharacter found _ => "unrecognized character `" ++ found.toString ++ "`"
  | unterminatedString _ => "unterminated string literal"
  | unexpectedToken expected found =>
    "expected " ++ expected.describe ++ ", found " ++ found.describe
  | expectedExpression found => "expected an expression, found " ++ found.describe
  | invalidStatement found => found.describe ++ " cannot start a statement"
  | unterminatedBlock _ => "unterminated block: expected `\x7d`"
  | nestingTooDeep _ => "program is nested more than " ++ toString nestingLimit ++ " levels deep"
  | arityMismatch name expected found _ =>
    "`" ++ name ++ "` expects " ++ toString expected
      ++ (if expected = 1 then " argument" else " arguments")
      ++ " but was given " ++ toString found
  | typeMismatch operator left right _ =>
    "left and right hand sides of " ++ operator.describe
      ++ " are of different types: left is " ++ left.name
      ++ ", right is " ++ right.name
  | unsupportedOperator operator operand _ =>
    operator.describe ++ " is not supported for " ++ operand.name ++ " values"
  | undefinedName name => "unresolved name `" ++ name.text ++ "`"
  | typeError fault _ => "type error: " ++ fault.message
  | notCallable name => "`" ++ name.text ++ "` is a value, not a procedure, and cannot be called"
  | procedureAsValue name => "`" ++ name.text ++ "` is a procedure; it can only be called"
  | invalidArgument fault _ => fault.message
  | recursionLimit _ => "procedure calls nested more than " ++ toString callLimit ++ " deep"

end Error

/-- A step that the caller had to rule out. No source text leads to one. -/
inductive Fault where
  /-- The token stream was rewound at its first token. -/
  | rewound
  /-- A builtin was called without the argument it works on. -/
  | missingArgument
deriving DecidableEq

/-- Why a computation ended without a value: the program is in error, a step was taken out of turn,
or the fuel that bounds the computation ran out. -/
inductive Halt where
  | error (e : Error)
  | fault (f : Fault)
  | outOfFuel
deriving DecidableEq

end Pseudocode
