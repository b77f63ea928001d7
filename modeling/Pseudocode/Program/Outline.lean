import Pseudocode.Program
import Pseudocode.Text.Align
import Pseudocode.Text.Quoted

/-!
# Programs laid out for inspection

A dump shows a program as an outline, one item on a line, with everything that belongs to an item
further in.
-/

namespace Pseudocode

/-- A tree of named parts. -/
inductive Outline where
  | atom (text : String)
  | wrap (name : String) (content : Outline)
  | record (name : String) (fields : List (String × Outline))
  | sequence (items : List Outline)

namespace Outline

/-- Moves lines one level further in. -/
def indent (lines : List String) : List String := lines.map fun line => "    " ++ line

/-- Ends the last line with a comma. -/
def comma : List String → List String
  | [] => []
  | [line] => [line ++ ","]
  | line :: rest => line :: comma rest

/-- Puts a name in front of the first line. -/
def named (name : String) : List String → List String
  | [] => []
  | line :: rest => (name ++ ": " ++ line) :: rest

mutual

/-- The lines of an outline. -/
def lines : Outline → List String
  | atom text => [text]
  | wrap name content => (name ++ "(") :: indent (comma (lines content)) ++ [")"]
  | record name fields => (name ++ " \x7b") :: indent (fieldLines fields) ++ ["\x7d"]
  | sequence [] => ["[]"]
  | sequence items => "[" :: indent (itemLines items) ++ ["]"]

/-- The fields of a record, each with its name. -/
def fieldLines : List (String × Outline) → List String
  | [] => []
  | (name, value) :: rest => named name (comma (lines value)) ++ fieldLines rest

/-- The items of a sequence. -/
def itemLines : List Outline → List String
  | [] => []
  | item :: rest => comma (lines item) ++ itemLines rest

end

/-- An outline as one text. -/
def render (o : Outline) : String := String.intercalate "\n" o.lines

end Outline

/-- A kind by name. -/
def Kind.name : Kind → String
  | procedureWord => "Procedure"
  | forWord => "For"
  | eachWord => "Each"
  | inWord => "In"
  | ifWord => "If"
  | elseWord => "Else"
  | returnWord => "Return"
  | modWord => "Mod"
  | notWord => "Not"
  | andWord => "And"
  | orWord => "Or"
  | repeatWord => "Repeat"
  | timesWord => "Times"
  | untilWord => "Until"
  | number => "Number"
  | text => "Str"
  | truth => "Bool"
  | identifier => "Identifier"
  | assign => "Assign"
  | equal => "Equal"
  | notEqual => "NotEqual"
  | greater => "Greater"
  | less => "Less"
  | greaterEqual => "GreaterEqual"
  | lessEqual => "LessEqual"
  | add => "Add"
  | subtract => "Subtract"
  | multiply => "Multiply"
  | divide => "Divide"
  | openParen => "OpenParen"
  | closeParen => "CloseParen"
  | openBracket => "OpenBracket"
  | closeBracket => "CloseBracket"
  | openBrace => "OpenBrace"
  | closeBrace => "CloseBrace"
  | comma => "Comma"
  | dot => "Dot"
  | newline => "Newline"
  | comment => "Comment"
  | endOfInput => "Eof"

namespace Token

/-- A token with its text, kind and end. -/
def outline (t : Token) : Outline :=
  .record "Token" [("text", .atom (Text.quote t.text)), ("kind", .atom t.kind.name),
    ("offset", .atom (toString t.stop))]

/-- A token on one line: its span, the description of its kind, and its text. -/
def row (t : Token) : String :=
  Text.alignRight 5 (toString t.start) ++ ".." ++ Text.alignLeft 5 (toString t.stop) ++ " "
    ++ Text.alignLeft 14 t.kind.describe ++ " " ++ Text.quote t.text

end Token

mutual

/-- An expression by the name of its form, with its parts. -/
def Expr.outline : Expr → Outline
  | .literal token => .wrap "Literal" token.outline
  | .name token => .wrap "Identifier" token.outline
  | .unary operator operand =>
    .record "Unary" [("op", operator.outline), ("operand", operand.outline)]
  | .binary left operator right =>
    .record "Binary" [("left", left.outline), ("op", operator.outline), ("right", right.outline)]
  | .group inner => .wrap "Container" inner.outline
  | .list opening items closing =>
    .record "ListLiteral"
      [("open", opening.outline), ("items", .sequence (Expr.outlines items)),
        ("close", closing.outline)]
  | .call callee arguments closing =>
    .record "Call"
      [("callee", callee.outline), ("args", .sequence (Expr.outlines arguments)),
        ("close", closing.outline)]

/-- The outlines of expressions, in order. -/
def Expr.outlines : List Expr → List Outline
  | [] => []
  | e :: rest => e.outline :: Expr.outlines rest

end

mutual

/-- A statement by the name of its form, with its parts. -/
def Stmt.outline : Stmt → Outline
  | .procedure name params body =>
    .record "MakeProc"
      [("name", name.outline), ("params", .sequence (params.map Token.outline)),
        ("body", .sequence (Stmt.outlines body))]
  | .assign target value => .record "Assign" [("target", target.outline), ("value", value.outline)]
  | .ifThen condition thenBlock =>
    .record "Conditional"
      [("condition", condition.outline), ("then_block", .sequence (Stmt.outlines thenBlock)),
        ("else_block", .atom "None")]
  | .ifThenElse condition thenBlock elseBlock =>
    .record "Conditional"
      [("condition", condition.outline), ("then_block", .sequence (Stmt.outlines thenBlock)),
        ("else_block", .wrap "Some" (.sequence (Stmt.outlines elseBlock)))]
  | .repeatTimes count body =>
    .record "RepeatN" [("count", count.outline), ("body", .sequence (Stmt.outlines body))]
  | .repeatUntil condition body =>
    .record "RepeatUntil" [("condition", condition.outline),
      ("body", .sequence (Stmt.outlines body))]
  | .forEach item list body =>
    .record "For" [("item", item.outline), ("list", list.outline),
      ("body", .sequence (Stmt.outlines body))]
  | .returns value => .wrap "Return" value.outline
  | .expression e => .wrap "Expression" e.outline

/-- The outlines of statements, in order. -/
def Stmt.outlines : List Stmt → List Outline
  | [] => []
  | s :: rest => s.outline :: Stmt.outlines rest

end

/-- The outline of a whole program. -/
def Block.outline (program : Block) : Outline := .sequence (Stmt.outlines program)

end Pseudocode
