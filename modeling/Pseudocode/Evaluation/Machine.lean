import Pseudocode.Scope

/-!
# The machine that programs run on

Evaluation changes three things: the store of scopes, the number of procedure calls under way, and
the lines shown so far. All three outlive an error, so what a program displayed before it failed
stays displayed.
-/

namespace Pseudocode

/-- The scopes, the number of calls under way, and the lines shown so far. -/
structure Machine where
  scopes : Scopes
  depth : Nat
  output : Array String

/-- How a statement ends: the next one follows, or a `RETURN` leaves the procedure. -/
inductive Flow where
  | next
  | returned (value : Value)

namespace Flow

/-- The value that a `RETURN` carries. -/
def value? : Flow → Option Value
  | next => none
  | returned value => some value

end Flow

/-- A step of evaluation. -/
abbrev EvalM := EStateM Halt Machine

namespace Machine

/-- The index of the global scope. -/
def global : ScopeId := 0

/-- A machine whose global scope holds the builtins and nothing else. -/
def fresh : Machine := ⟨(Scopes.empty.addRoot).install global, 0, #[]⟩

/-- Ends evaluation with an error of the program. -/
def fail {α : Type} (e : Error) : EvalM α := throw (.error e)

/-- A step that changes nothing and may fail. -/
def ofExcept {α : Type} : Except Error α → EvalM α
  | .ok a => pure a
  | .error e => fail e

/-- The binding of a name, seen from a scope. -/
def lookup (scope : ScopeId) (name : Token) : EvalM Binding := fun m =>
  match m.scopes.lookup scope name with
  | .ok binding => .ok binding m
  | .error e => .error (.error e) m

/-- Replaces the scopes by what `change` makes of them. -/
def updateScopes (change : Scopes → Scopes) : EvalM Unit := fun
  | ⟨scopes, depth, output⟩ => .ok () ⟨change scopes, depth, output⟩

/-- Binds a name in one scope. -/
def define (scope : ScopeId) (name : String) (binding : Binding) : EvalM Unit :=
  updateScopes fun scopes => scopes.define scope name binding

/-- Shows a line. -/
def emit (line : String) : EvalM Unit := fun
  | ⟨scopes, depth, output⟩ => .ok () ⟨scopes, depth, output.push line⟩

/-- Releases the scopes from index `size` on. -/
def release (size : Nat) : Machine → Machine
  | ⟨scopes, depth, output⟩ => ⟨scopes.release size, depth, output⟩

/-- Runs `body` in a new scope below `parent`, and releases that scope afterwards. -/
def inChild {α : Type} (parent : ScopeId) (body : ScopeId → EvalM α) : EvalM α := fun
  | ⟨scopes, depth, output⟩ =>
    let scope := scopes.size
    match body scope ⟨scopes.addChild parent, depth, output⟩ with
    | .ok a after => .ok a (after.release scope)
    | .error halt after => .error halt (after.release scope)

/-- Runs `body` as a procedure call, unless too many are under way. `span` is the call. -/
def calling {α : Type} (span : Span) (body : EvalM α) : EvalM α := fun
  | ⟨scopes, depth, output⟩ =>
    if depth < callLimit then
      match body ⟨scopes, depth + 1, output⟩ with
      | .ok a ⟨scopes, depth, output⟩ => .ok a ⟨scopes, depth - 1, output⟩
      | .error halt ⟨scopes, depth, output⟩ => .error halt ⟨scopes, depth - 1, output⟩
    else .error (.error (.recursionLimit span)) ⟨scopes, depth, output⟩

end Machine

/-! ## Loops

Each runs its body until there are no rounds left or the body returns. -/

/-- Runs `body` a number of times. -/
def repeatTimes (body : EvalM Flow) : Nat → EvalM Flow
  | 0 => pure .next
  | count + 1 => do
    match ← body with
    | .next => repeatTimes body count
    | .returned value => pure (.returned value)

/-- Runs `body` while `finished` answers no. The rounds are bounded by fuel, since nothing else
bounds them. -/
def repeatUntil (finished : EvalM Bool) (body : EvalM Flow) : Nat → EvalM Flow
  | 0 => throw .outOfFuel
  | fuel + 1 => do
    if ← finished then pure .next
    else
      match ← body with
      | .next => repeatUntil finished body fuel
      | .returned value => pure (.returned value)

/-- Runs `body` for each item of a list. -/
def forEach (body : Value → EvalM Flow) : List Value → EvalM Flow
  | [] => pure .next
  | item :: rest => do
    match ← body item with
    | .next => forEach body rest
    | .returned value => pure (.returned value)

end Pseudocode
