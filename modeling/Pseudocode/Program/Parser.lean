import Pseudocode.Program
import Pseudocode.Token.Lexer
import Pseudocode.Token.Stream

/-!
# From tokens to programs

A recursive descent over the token stream. Binary operators share one level of precedence and group
to the right: the right operand is a whole expression. Newlines and comments are skipped wherever a
token is wanted, so a statement may be laid out in any way.

Each block in braces, each expression and each `ELSE IF` is one level further down than what holds
it, and levels beyond `nestingLimit` are refused. The level is a counter of the parser, put back on
the way out.

Every function here calls others with one unit of fuel less. A unit is spent only where a token has
been read or is about to be, so a few units for each token of the input are enough.
-/

namespace Pseudocode

/-- The tokens still to be read, and the nesting level reached. -/
structure Parser where
  stream : TokenStream
  depth : Nat

/-- A parser's step: it moves the stream, also where it fails. -/
abbrev ParseM := EStateM Halt Parser

namespace Parser

/-- Ends parsing with an error of the program. -/
def fail {α : Type} (e : Error) : ParseM α := throw (.error e)

/-! ## Reading tokens -/

/-- Reads a token, whatever it is. -/
def next : ParseM Token := fun p =>
  let (token, after) := p.stream.next
  .ok token { p with stream := after }

/-- Reads the next token that is neither newline nor comment. -/
def nextSignificant : ParseM Token := fun p =>
  let (token, after) := p.stream.nextSignificant
  .ok token { p with stream := after }

/-- Moves in front of the next significant token, and answers it. -/
def jumpToSignificant : ParseM Token := fun p =>
  let (token, after) := p.stream.jumpToSignificant
  .ok token { p with stream := after }

/-- The next significant token, without moving. -/
def peekSignificant : ParseM Token := fun p => .ok p.stream.peekSignificant p

/-- One token back. -/
def back : ParseM Unit := fun p =>
  match p.stream.back? with
  | some before => .ok () { p with stream := before }
  | none => .error (.fault .rewound) p

/-- Reads a significant token of the given kind. -/
def take (kind : Kind) : ParseM Token := fun p =>
  match p.stream.take kind with
  | (.ok token, after) => .ok token { p with stream := after }
  | (.error e, after) => .error (.error e) { p with stream := after }

/-- Runs a parser one level further down. `span` is what opens the level. -/
def nested {α : Type} (span : Span) (inner : ParseM α) : ParseM α := fun p =>
  if p.depth < nestingLimit then
    match inner { p with depth := p.depth + 1 } with
    | .ok a after => .ok a { after with depth := after.depth - 1 }
    | .error e after => .error e { after with depth := after.depth - 1 }
  else .error (.error (.nestingTooDeep span)) p

/-! ## Expressions -/

mutual

/-- A whole expression. -/
def expression : Nat → ParseM Expr
  | 0 => throw .outOfFuel
  | fuel + 1 => do
    let first ← peekSignificant
    nested first.span (operand fuel)

/-- An operand, with all that follows it. -/
def operand : Nat → ParseM Expr
  | 0 => throw .outOfFuel
  | fuel + 1 => do
    let token ← nextSignificant
    match token.kind with
    | .number | .text | .truth => continuation fuel (.literal token)
    | .identifier => continuation fuel (.name token)
    | .openParen => do
      let inner ← expression fuel
      let _ ← take .closeParen
      continuation fuel (.group inner)
    | .openBracket => do
      let (items, closing) ← items fuel .closeBracket []
      continuation fuel (.list token items closing)
    | .subtract | .notWord => do
      let inner ← expression fuel
      pure (.unary token inner)
    | _ => fail (.expectedExpression token)

/-- What may follow an operand: a binary operator with its right operand, or the arguments of a
call behind a name. -/
def continuation : Nat → Expr → ParseM Expr
  | 0, _ => throw .outOfFuel
  | fuel + 1, left => do
    let token ← nextSignificant
    if token.kind.isBinaryOperator then
      let right ← expression fuel
      continuation fuel (.binary left token right)
    else
      match token.kind, left with
      | .openParen, .name callee => do
        let (arguments, closing) ← items fuel .closeParen []
        continuation fuel (.call callee arguments closing)
      | _, _ => do
        back
        pure left

/-- Expressions between commas up to the closing token, which is read too. A comma may stand before
it. -/
def items : Nat → Kind → List Expr → ParseM (List Expr × Token)
  | 0, _, _ => throw .outOfFuel
  | fuel + 1, closer, found => do
    let token ← nextSignificant
    if token.kind = closer then pure (found.reverse, token)
    else
      back
      let item ← expression fuel
      let following ← nextSignificant
      if following.kind = closer then pure ((item :: found).reverse, following)
      else if following.kind = .comma then items fuel closer (item :: found)
      else fail (.unexpectedToken (.kind closer) following)

end

/-! ## Statements -/

/-- The names between the parentheses of a procedure, up to and including the closing one. -/
def params : Nat → List Token → ParseM (List Token)
  | 0, _ => throw .outOfFuel
  | fuel + 1, found => do
    let token ← nextSignificant
    match token.kind with
    | .closeParen => pure found.reverse
    | .identifier => do
      let following ← nextSignificant
      match following.kind with
      | .closeParen => pure (token :: found).reverse
      | .comma => params fuel (token :: found)
      | _ => fail (.unexpectedToken (.kind .closeParen) following)
    | _ => fail (.unexpectedToken .parameterName token)

mutual

/-- Statements up to the brace that closes the block, or up to the end of input for the whole
program. -/
def statements : Nat → Bool → List Stmt → ParseM Block
  | 0, _, _ => throw .outOfFuel
  | fuel + 1, whole, found => do
    let ahead ← jumpToSignificant
    if ahead.kind = .endOfInput then
      if whole then pure found.reverse
      else
        let last ← next
        fail (.unterminatedBlock last)
    else
      let token ← next
      if token.kind = .closeBrace && !whole then pure found.reverse
      else
        let statement ← statement fuel token
        statements fuel whole (statement :: found)

/-- The statement that starts with a token already read. -/
def statement : Nat → Token → ParseM Stmt
  | 0, _ => throw .outOfFuel
  | fuel + 1, token =>
    match token.kind with
    | .procedureWord => do
      let name ← take .identifier
      let _ ← take .openParen
      let params ← params fuel []
      let body ← braced fuel
      pure (.procedure name params body)
    | .ifWord => conditional fuel
    | .repeatWord => do
      let following ← nextSignificant
      if following.kind = .untilWord then
        let condition ← expression fuel
        let body ← braced fuel
        pure (.repeatUntil condition body)
      else
        back
        let count ← expression fuel
        let _ ← take .timesWord
        let body ← braced fuel
        pure (.repeatTimes count body)
    | .forWord => do
      let _ ← take .eachWord
      let item ← take .identifier
      let _ ← take .inWord
      let list ← expression fuel
      let body ← braced fuel
      pure (.forEach item list body)
    | .returnWord => do
      let value ← expression fuel
      pure (.returns value)
    | .identifier => do
      let following ← peekSignificant
      if following.kind = .assign then
        let _ ← take .assign
        let value ← expression fuel
        pure (.assign token value)
      else
        back
        let e ← expression fuel
        pure (.expression e)
    | _ => fail (.invalidStatement token)

/-- What follows an `IF`. An `ELSE IF` is an else block that holds one conditional. -/
def conditional : Nat → ParseM Stmt
  | 0 => throw .outOfFuel
  | fuel + 1 => do
    let _ ← take .openParen
    let condition ← expression fuel
    let _ ← take .closeParen
    let thenBlock ← braced fuel
    let following ← nextSignificant
    if following.kind = .elseWord then
      let opening ← nextSignificant
      if opening.kind = .ifWord then
        let inner ← nested opening.span (conditional fuel)
        pure (.ifThenElse condition thenBlock [inner])
      else
        back
        let elseBlock ← braced fuel
        pure (.ifThenElse condition thenBlock elseBlock)
    else
      back
      pure (.ifThen condition thenBlock)

/-- A block in braces. -/
def braced : Nat → ParseM Block
  | 0 => throw .outOfFuel
  | fuel + 1 => do
    let opening ← take .openBrace
    nested opening.span (statements fuel false [])

end

/-! ## Whole inputs -/

/-- A parser in front of its first token. -/
def ofTokens (tokens : List Token) : Parser := ⟨TokenStream.ofTokens tokens, 0⟩

/-- Fuel for everything that can be read from the tokens. -/
def fuel (p : Parser) : Nat := 4 * p.stream.tokens.size + 8

/-- The whole input as a program. -/
def program : ParseM Block := fun p => statements p.fuel true [] p

/-- The expression that the input starts with. -/
def leadingExpression : ParseM Expr := fun p => expression p.fuel p

end Parser

/-- What a parser answers from the start of the tokens. -/
def ParseM.answer {α : Type} (parse : ParseM α) (tokens : List Token) : Except Halt α :=
  match parse (Parser.ofTokens tokens) with
  | .ok a _ => .ok a
  | .error halt _ => .error halt

/-- Reads a program from its tokens. -/
def parseTokens (tokens : List Token) : Except Halt Block := Parser.program.answer tokens

/-- Reads the expression that the tokens start with. -/
def parseExpression (tokens : List Token) : Except Halt Expr :=
  Parser.leadingExpression.answer tokens

/-- The tokens of a source, or what is wrong with it. -/
def lexSource (source : String) : Except Halt (List Token) :=
  match lex source with
  | .ok tokens => .ok tokens
  | .error e => .error (.error e)

/-- Reads a program from its source. -/
def parseSource (source : String) : Except Halt Block := lexSource source >>= parseTokens

end Pseudocode
