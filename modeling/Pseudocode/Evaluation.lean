import Pseudocode.Evaluation.Machine
import Pseudocode.Evaluation.Operator

/-!
# Evaluation

Expressions and statements are evaluated by recursion on their structure. Only a procedure call
leaves the structure: its body is found when the program runs. The evaluator is therefore given, in
its context, a way to run a procedure's body, and ways to run bodies are built in layers, one for
each call that may be under way at a time. There are at most `callLimit` of these, so that the
layers never give out; the rounds of `REPEAT UNTIL` alone need fuel.

The rule by which assignment writes its value is part of the context too.
-/

namespace Pseudocode

/-- How an assignment of a value to a name in a scope changes the scopes. -/
abbrev AssignRule := Scopes → ScopeId → String → Value → Scopes

/-- What evaluation is given beside the program. -/
structure Context where
  /-- Runs the body of a procedure in the scope made for the call. -/
  invoke : Block → ScopeId → EvalM Flow
  assign : AssignRule
  /-- The number of rounds that a `REPEAT UNTIL` may take. -/
  fuel : Nat

open Machine (fail ofExcept lookup updateScopes define emit inChild calling)

/-- A call has to bring as many arguments as the procedure has parameters. -/
def checkArity (name : String) (expected found : Nat) (span : Span) : EvalM Unit :=
  if expected = found then pure () else fail (.arityMismatch name expected found span)

/-- Binds parameters to arguments in the scope of a call. Of equal parameters the last one
counts. -/
def bindParams (scope : ScopeId) : List Token → List Value → EvalM Unit
  | param :: params, value :: values => do
    define scope param.text (.value value)
    bindParams scope params values
  | _, _ => pure ()

/-- Runs a procedure with its arguments. Without a `RETURN` its value is null. -/
def enter (c : Context) (p : Procedure) (arguments : List Value) (span : Span) : EvalM Value :=
  inChild Machine.global fun scope => do
    bindParams scope p.params arguments
    let flow ← calling span (c.invoke p.body scope)
    pure (flow.value?.getD .null)

/-- Runs a builtin. One that only shows a line has the value null. -/
def respond (b : Builtin) (arguments : List Argument) : EvalM Value :=
  match b.call arguments with
  | .ok (.shows line) => do
    emit line
    pure .null
  | .ok (.answers value) => pure value
  | .error halt => throw halt

mutual

/-- The value of an expression in a scope. -/
def evaluate (c : Context) (scope : ScopeId) : Expr → EvalM Value
  | .literal token => ofExcept (literalValue token)
  | .name token => do
    match ← lookup scope token with
    | .value value => pure value
    | _ => fail (.procedureAsValue token)
  | .unary operator operand => do
    let value ← evaluate c scope operand
    ofExcept (applyUnary (.unary operator operand) operator value)
  | .binary left operator right => do
    let leftValue ← evaluate c scope left
    let rightValue ← evaluate c scope right
    ofExcept (applyBinary (.binary left operator right) operator leftValue rightValue)
  | .group inner => evaluate c scope inner
  | .list _ items _ => do
    let values ← evaluateAll c scope items
    pure (.list values)
  | .call callee arguments closing => do
    let span := (Expr.call callee arguments closing).span
    match ← lookup scope callee with
    | .value _ => fail (.notCallable callee)
    | .procedure p => do
      checkArity p.name.text p.params.length arguments.length span
      let values ← evaluateAll c scope arguments
      enter c p values span
    | .builtin b => do
      checkArity b.name b.arity arguments.length span
      let values ← evaluateAll c scope arguments
      respond b (List.zipWith Argument.mk values (arguments.map Expr.span))

/-- The values of expressions, from left to right. -/
def evaluateAll (c : Context) (scope : ScopeId) : List Expr → EvalM (List Value)
  | [] => pure []
  | e :: rest => do
    let value ← evaluate c scope e
    let values ← evaluateAll c scope rest
    pure (value :: values)

end

/-- The value of a condition. `fault` says what is wrong with a value of another type. -/
def evaluateCondition (c : Context) (scope : ScopeId) (fault : Tag → TypeFault)
    (condition : Expr) : EvalM Bool := do
  match ← evaluate c scope condition with
  | .boolean b => pure b
  | other => fail (.typeError (fault other.tag) condition.span)

/-- The number of rounds of a `REPEAT`. -/
def evaluateCount (c : Context) (scope : ScopeId) (count : Expr) : EvalM Nat := do
  match ← evaluate c scope count with
  | .number x => pure (Number.rounds x)
  | other => fail (.typeError (.repeatCount other.tag) count.span)

/-- The items that a `FOR EACH` goes through. -/
def evaluateItems (c : Context) (scope : ScopeId) (list : Expr) : EvalM (List Value) := do
  match ← evaluate c scope list with
  | .list items => pure items
  | other => fail (.typeError (.forEachList other.tag) list.span)

mutual

/-- Runs a statement in a scope. -/
def execute (c : Context) : Stmt → ScopeId → EvalM Flow
  | .procedure name params body, scope => do
    define scope name.text (.procedure ⟨name, params, body⟩)
    pure .next
  | .assign target value, scope => do
    let result ← evaluate c scope value
    updateScopes fun scopes => c.assign scopes scope target.text result
    pure .next
  | .ifThen condition thenBlock, scope => do
    if ← evaluateCondition c scope .ifCondition condition then
      inChild scope fun inner => executeBlock c thenBlock inner
    else pure .next
  | .ifThenElse condition thenBlock elseBlock, scope => do
    if ← evaluateCondition c scope .ifCondition condition then
      inChild scope fun inner => executeBlock c thenBlock inner
    else inChild scope fun inner => executeBlock c elseBlock inner
  | .repeatTimes count body, scope => do
    let rounds ← evaluateCount c scope count
    repeatTimes (inChild scope fun inner => executeBlock c body inner) rounds
  | .repeatUntil condition body, scope =>
    repeatUntil (evaluateCondition c scope .untilCondition condition)
      (inChild scope fun inner => executeBlock c body inner) c.fuel
  | .forEach item list body, scope => do
    let items ← evaluateItems c scope list
    let round := fun value => inChild scope fun inner => do
      define inner item.text (.value value)
      executeBlock c body inner
    forEach round items
  | .returns value, scope => do
    let result ← evaluate c scope value
    pure (.returned result)
  | .expression e, scope => do
    let _ ← evaluate c scope e
    pure .next

/-- Runs statements in order, up to the first that returns. -/
def executeBlock (c : Context) : Block → ScopeId → EvalM Flow
  | [], _ => pure .next
  | statement :: rest, scope => do
    match ← execute c statement scope with
    | .next => executeBlock c rest scope
    | .returned value => pure (.returned value)

end

/-! ## Layers of calls -/

/-- Runs procedure bodies with `layers` calls under way at a time. -/
def runBody (assign : AssignRule) (fuel : Nat) : Nat → Block → ScopeId → EvalM Flow
  | 0, _, _ => throw .outOfFuel
  | layers + 1, body, scope => executeBlock ⟨runBody assign fuel layers, assign, fuel⟩ body scope

namespace Context

/-- Evaluation with a given rule of assignment. -/
def withRule (assign : AssignRule) (fuel : Nat) : Context :=
  ⟨runBody assign fuel callLimit, assign, fuel⟩

/-- Evaluation as the language has it. -/
def standard (fuel : Nat) : Context := withRule Scopes.assign fuel

end Context

end Pseudocode
