import Pseudocode.Token

/-!
# Programs

Expressions and statements keep the tokens they were read from, so that every part of a program can
be pointed at. Parentheses are kept as `Expr.group`, which means nothing beyond what it encloses.
-/

namespace Pseudocode

/-- An expression, with the tokens that its span or its meaning rests on. -/
inductive Expr where
  | literal (token : Token)
  | name (token : Token)
  | unary (operator : Token) (operand : Expr)
  | binary (left : Expr) (operator : Token) (right : Expr)
  | group (inner : Expr)
  | list (opening : Token) (items : List Expr) (closing : Token)
  | call (callee : Token) (arguments : List Expr) (closing : Token)

namespace Expr

/-- From the first token to the last. A group has the span of what it encloses. -/
def span : Expr → Span
  | literal token | name token => token.span
  | unary operator operand => operator.span.merge operand.span
  | binary left _ right => left.span.merge right.span
  | group inner => inner.span
  | list opening _ closing => opening.span.merge closing.span
  | call callee _ closing => callee.span.merge closing.span

end Expr

/-- A statement. An `ELSE IF` is an else block that holds one conditional. -/
inductive Stmt where
  | procedure (name : Token) (params : List Token) (body : List Stmt)
  | assign (target : Token) (value : Expr)
  | ifThen (condition : Expr) (thenBlock : List Stmt)
  | ifThenElse (condition : Expr) (thenBlock elseBlock : List Stmt)
  | repeatTimes (count : Expr) (body : List Stmt)
  | repeatUntil (condition : Expr) (body : List Stmt)
  | forEach (item : Token) (list : Expr) (body : List Stmt)
  | returns (value : Expr)
  | expression (e : Expr)

/-- Statements that run one after another. -/
abbrev Block := List Stmt

end Pseudocode
