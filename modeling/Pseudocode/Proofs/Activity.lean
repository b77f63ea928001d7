import Pseudocode.Proofs.Framing
import Pseudocode.Proofs.Parts

/-!
# What goes on during a run

The evaluator answers with the end of a run, and says nothing of what went on until then. Here the
run is opened up. A `Task` is something that the evaluator does in a scope: it evaluates
expressions, runs statements, or goes through the rounds of a loop. A `Moment` is a task at its
beginning, on the machine that it finds, together with the number of procedure bodies that were
entered before and are not left yet. `Starts` says which tasks a task begins while it is at work,
and when; it has one rule for each place where the evaluator goes on to a part of its task. What
happens in a run at any time is a moment that `Reaches` leads to.

Three facts make this of use. The number of calls under way is the same at the end of a task as at
its beginning, however it ends, so that it changes from one moment to the next by the bodies that
are entered in between, and by nothing else (`Starts.depth_cases`). A task that fails makes those
fail that it is part of (`Starts.fails`). And a run cannot go on into its parts for ever, which
gives an induction over all its moments (`Moment.induction`).
-/

namespace Pseudocode

open Machine (fail ofExcept lookup updateScopes define emit inChild calling)

variable {α β : Type}

/-! ## Steps that fail -/

namespace EvalM

/-- The step ends without a value, for this cause. -/
def Fails (step : EvalM α) (m : Machine) (halt : Halt) : Prop := step.answer m = .error halt

variable {m : Machine} {halt : Halt}

theorem not_fails_pure (a : α) : ¬ (pure a : EvalM α).Fails m halt := fun h => nomatch h

/-- A step does not both succeed and fail. -/
theorem not_fails_of_ok {step : EvalM α} {a : α} {m' : Machine} (h : step m = .ok a m') :
    ¬ step.Fails m halt := by
  unfold Fails
  rw [answer_of_ok h]
  exact fun h => nomatch h

theorem fails_throw {cause : Halt} : (throw cause : EvalM α).Fails m halt ↔ cause = halt :=
  ⟨fun h => Except.error.inj h, fun h => congrArg Except.error h⟩

/-- Two steps fail with the first, or with the second on the machine that the first has left. -/
theorem fails_bind {step : EvalM α} {next : α → EvalM β} :
    (step >>= next : EvalM β).Fails m halt ↔
      step.Fails m halt ∨ ∃ a m', step m = .ok a m' ∧ (next a).Fails m' halt := by
  cases h : step m with
  | ok a m' =>
      refine ⟨fun hfails => .inr ⟨a, m', rfl, ?_⟩, ?_⟩
      · rw [Fails, answer_bind_of_ok h] at hfails
        exact hfails
      · rintro (hfails | ⟨a', m'', heq, hfails⟩)
        · exact absurd hfails (not_fails_of_ok h)
        · injection heq with ha hm
          subst ha hm
          rw [Fails, answer_bind_of_ok h]
          exact hfails
  | error cause m' =>
      have hstep : step.Fails m halt ↔ cause = halt := by
        rw [Fails, answer_of_error h]
        exact ⟨fun h => Except.error.inj h, fun h => congrArg Except.error h⟩
      rw [Fails, answer_of_error (bind_of_error h next), hstep]
      refine ⟨fun hfails => .inl (Except.error.inj hfails), ?_⟩
      rintro (hcause | ⟨_, _, heq, _⟩)
      · exact congrArg Except.error hcause
      · exact nomatch heq

theorem Fails.first {step : EvalM α} (h : step.Fails m halt) (next : α → EvalM β) :
    (step >>= next : EvalM β).Fails m halt := fails_bind.mpr (.inl h)

/-- Behind a first step that succeeds, the two fail as the second does. -/
theorem fails_bind_of_ok {step : EvalM α} {next : α → EvalM β} {a : α} {m' : Machine}
    (h : step m = .ok a m') :
    (step >>= next : EvalM β).Fails m halt ↔ (next a).Fails m' halt := by
  unfold Fails
  rw [answer_bind_of_ok h]

/-- A step fails whether or not its answer is kept. -/
theorem fails_discard {step : EvalM α} :
    (step >>= fun _ => (pure () : EvalM Unit)).Fails m halt ↔ step.Fails m halt := by
  refine ⟨fun h => ?_, fun h => h.first _⟩
  rcases fails_bind.mp h with hstep | ⟨a, m', _, hnext⟩
  · exact hstep
  · exact absurd hnext (not_fails_pure ())

end EvalM

open EvalM

/-- The machine on which a block in a scope of its own begins. The index of the scope is the size
that the store had. -/
def Machine.opened (m : Machine) (parent : ScopeId) : Machine :=
  ⟨m.scopes.addChild parent, m.depth, m.output⟩

/-- A block in a scope of its own fails as its statements do: the release of the scope adds no
cause. -/
theorem fails_inChild {m : Machine} {halt : Halt} {parent : ScopeId} {body : ScopeId → EvalM α} :
    (inChild parent body).Fails m halt ↔ (body m.scopes.size).Fails (m.opened parent) halt := by
  unfold Fails
  rw [answer_inChild]
  rfl

/-! ## The depth at the end of a step -/

/-- A step leaves the number of calls under way as it found it, whether it succeeds or fails. -/
def EvalM.KeepsDepth (step : EvalM α) : Prop := ∀ depth, step.Preserves fun m => m.depth = depth

namespace EvalM.KeepsDepth

theorem after {step : EvalM α} (h : step.KeepsDepth) (m : Machine) :
    (step.after m).depth = m.depth :=
  h m.depth m rfl

/-- The depth behind a step that succeeds. -/
theorem of_ok {step : EvalM α} (h : step.KeepsDepth) {m m' : Machine} {a : α}
    (hstep : step m = .ok a m') :
    m'.depth = m.depth := by
  rw [← after_of_ok hstep]
  exact h.after m

theorem bind {step : EvalM α} {next : α → EvalM β} (hstep : step.KeepsDepth)
    (hnext : ∀ a, (next a).KeepsDepth) :
    (step >>= next : EvalM β).KeepsDepth :=
  fun depth => preserves_bind (hstep depth) fun a => hnext a depth

theorem pure (a : α) : (Pure.pure a : EvalM α).KeepsDepth := fun _ => preserves_pure a

theorem throw (halt : Halt) : (MonadExcept.throw halt : EvalM α).KeepsDepth :=
  fun _ => preserves_throw halt

theorem updateScopes (change : Scopes → Scopes) : (Machine.updateScopes change).KeepsDepth :=
  fun _ _ hm => hm

theorem bindParams (scope : ScopeId) (params : List Token) (values : List Value) :
    (Pseudocode.bindParams scope params values).KeepsDepth := by
  induction params generalizing values with
  | nil => exact pure ()
  | cons param params ih =>
      cases values with
      | nil => exact pure ()
      | cons value values =>
          unfold Pseudocode.bindParams
          exact (updateScopes _).bind fun _ => ih values

theorem respond (b : Builtin) (arguments : List Argument) :
    (Pseudocode.respond b arguments).KeepsDepth := by
  unfold Pseudocode.respond
  split
  · exact bind (fun _ _ hm => hm) fun _ => pure _
  · exact pure _
  · exact throw _

/-- Opening and releasing a scope has nothing to do with the depth. -/
theorem inChild {parent : ScopeId} {body : ScopeId → EvalM α} (h : ∀ id, (body id).KeepsDepth) :
    (Machine.inChild parent body).KeepsDepth := by
  rintro _ ⟨scopes, depth, output⟩ rfl
  rw [after_inChild]
  exact (h scopes.size).after _

/-- What is counted on the way in is taken off on the way out, also for an error. At the limit
nothing is counted. -/
theorem calling {span : Span} {body : EvalM α} (h : body.KeepsDepth) :
    (Machine.calling span body).KeepsDepth := by
  rintro _ ⟨scopes, depth, output⟩ rfl
  by_cases hlimit : depth < callLimit
  · rw [after_calling span body scopes output hlimit, h.after]
    exact Nat.add_sub_cancel _ 1
  · rw [after_of_error (calling_of_le span body scopes output (Nat.le_of_not_lt hlimit))]

end EvalM.KeepsDepth

variable {c : Context}

/-- In this context the bodies of procedures leave the depth as they found it. -/
def Context.KeepsDepth (c : Context) : Prop := ∀ body id, (c.invoke body id).KeepsDepth

/-- A procedure call as a whole leaves the depth as it was. -/
theorem keepsDepth_enter (hc : c.KeepsDepth) (p : Procedure) (values : List Value) (span : Span) :
    (enter c p values span).KeepsDepth := by
  unfold enter
  refine .inChild fun id => (KeepsDepth.bindParams id _ _).bind fun _ => ?_
  exact (KeepsDepth.calling (hc p.body id)).bind fun _ => .pure _

mutual

/-- Evaluating an expression leaves the depth as it was, by induction on the expression. -/
theorem keepsDepth_evaluate (hc : c.KeepsDepth) (scope : ScopeId) :
    ∀ e : Expr, (evaluate c scope e).KeepsDepth
  | .literal token => by
      unfold evaluate
      exact fun _ => preserves_ofExcept _
  | .name token => by
      unfold evaluate
      refine KeepsDepth.bind (fun _ => preserves_lookup _ _) fun binding => ?_
      cases binding with
      | value value => exact .pure value
      | procedure p => exact .throw _
      | builtin b => exact .throw _
  | .unary operator operand => by
      unfold evaluate
      exact (keepsDepth_evaluate hc scope operand).bind fun _ _ => preserves_ofExcept _
  | .binary left operator right => by
      unfold evaluate
      refine (keepsDepth_evaluate hc scope left).bind fun _ => ?_
      exact (keepsDepth_evaluate hc scope right).bind fun _ _ => preserves_ofExcept _
  | .group inner => by
      unfold evaluate
      exact keepsDepth_evaluate hc scope inner
  | .list _ items _ => by
      unfold evaluate
      exact (keepsDepth_evaluateAll hc scope items).bind fun _ => .pure _
  | .call callee arguments closing => by
      unfold evaluate
      refine KeepsDepth.bind (fun _ => preserves_lookup _ _) fun binding => ?_
      cases binding with
      | value value => exact .throw _
      | procedure p =>
          refine KeepsDepth.bind (fun _ => preserves_checkArity _ _ _ _) fun _ => ?_
          exact (keepsDepth_evaluateAll hc scope arguments).bind
            fun values => keepsDepth_enter hc p values _
      | builtin b =>
          refine KeepsDepth.bind (fun _ => preserves_checkArity _ _ _ _) fun _ => ?_
          exact (keepsDepth_evaluateAll hc scope arguments).bind fun _ => .respond b _

theorem keepsDepth_evaluateAll (hc : c.KeepsDepth) (scope : ScopeId) :
    ∀ es : List Expr, (evaluateAll c scope es).KeepsDepth
  | [] => by
      unfold evaluateAll
      exact .pure _
  | e :: rest => by
      unfold evaluateAll
      refine (keepsDepth_evaluate hc scope e).bind fun _ => ?_
      exact (keepsDepth_evaluateAll hc scope rest).bind fun _ => .pure _

end

theorem keepsDepth_evaluateCondition (hc : c.KeepsDepth) (scope : ScopeId)
    (fault : Tag → TypeFault) (condition : Expr) :
    (evaluateCondition c scope fault condition).KeepsDepth := by
  refine (keepsDepth_evaluate hc scope condition).bind fun value => ?_
  split
  · exact .pure _
  · exact .throw _

theorem keepsDepth_evaluateCount (hc : c.KeepsDepth) (scope : ScopeId) (count : Expr) :
    (evaluateCount c scope count).KeepsDepth := by
  refine (keepsDepth_evaluate hc scope count).bind fun value => ?_
  split
  · exact .pure _
  · exact .throw _

theorem keepsDepth_evaluateItems (hc : c.KeepsDepth) (scope : ScopeId) (list : Expr) :
    (evaluateItems c scope list).KeepsDepth := by
  refine (keepsDepth_evaluate hc scope list).bind fun value => ?_
  split
  · exact .pure _
  · exact .throw _

mutual

/-- Running a statement leaves the depth as it was, by induction on the statement. -/
theorem keepsDepth_execute (hc : c.KeepsDepth) :
    ∀ (s : Stmt) (scope : ScopeId), (execute c s scope).KeepsDepth
  | .procedure name params body, scope => by
      unfold execute
      exact (KeepsDepth.updateScopes _).bind fun _ => .pure _
  | .assign target value, scope => by
      unfold execute
      exact (keepsDepth_evaluate hc scope value).bind fun _ => (KeepsDepth.updateScopes _).bind
        fun _ => .pure _
  | .ifThen condition thenBlock, scope => by
      unfold execute
      refine (keepsDepth_evaluateCondition hc scope _ condition).bind fun holds => ?_
      cases holds with
      | true => exact .inChild (keepsDepth_executeBlock hc thenBlock)
      | false => exact .pure _
  | .ifThenElse condition thenBlock elseBlock, scope => by
      unfold execute
      refine (keepsDepth_evaluateCondition hc scope _ condition).bind fun holds => ?_
      cases holds with
      | true => exact .inChild (keepsDepth_executeBlock hc thenBlock)
      | false => exact .inChild (keepsDepth_executeBlock hc elseBlock)
  | .repeatTimes count body, scope => by
      unfold execute
      refine (keepsDepth_evaluateCount hc scope count).bind fun rounds depth => ?_
      exact preserves_repeatTimes (KeepsDepth.inChild (keepsDepth_executeBlock hc body) depth)
        rounds
  | .repeatUntil condition body, scope => by
      unfold execute
      intro depth
      exact preserves_repeatUntil (keepsDepth_evaluateCondition hc scope _ condition depth)
        (KeepsDepth.inChild (keepsDepth_executeBlock hc body) depth) c.fuel
  | .forEach item list body, scope => by
      unfold execute
      refine (keepsDepth_evaluateItems hc scope list).bind fun items depth => ?_
      refine preserves_forEach (fun value => KeepsDepth.inChild (fun id => ?_) depth) items
      exact (KeepsDepth.updateScopes _).bind fun _ => keepsDepth_executeBlock hc body id
  | .returns value, scope => by
      unfold execute
      exact (keepsDepth_evaluate hc scope value).bind fun _ => .pure _
  | .expression e, scope => by
      unfold execute
      exact (keepsDepth_evaluate hc scope e).bind fun _ => .pure _

theorem keepsDepth_executeBlock (hc : c.KeepsDepth) :
    ∀ (block : Block) (scope : ScopeId), (executeBlock c block scope).KeepsDepth
  | [], scope => by
      unfold executeBlock
      exact .pure _
  | s :: rest, scope => by
      unfold executeBlock
      exact (keepsDepth_execute hc s scope).bind fun flow depth =>
        preserves_continue (keepsDepth_executeBlock hc rest scope depth) flow

end

/-- The context in which a run goes on once it has entered `bodies` procedure bodies. -/
def Context.within (fuel bodies : Nat) : Context :=
  ⟨runBody Scopes.assign fuel (callLimit - bodies), Scopes.assign, fuel⟩

/-- On every layer of calls, by induction on the layers that are left. -/
theorem Context.keepsDepth_within (fuel bodies : Nat) :
    (Context.within fuel bodies).KeepsDepth := by
  unfold Context.within
  generalize callLimit - bodies = layers
  induction layers with
  | zero => exact fun _ _ => .throw _
  | succ layers ih => exact keepsDepth_executeBlock ih

/-! ## Tasks -/

/-- Something that the evaluator does in a scope. -/
inductive Task where
  | expression (e : Expr) (scope : ScopeId)
  | expressions (es : List Expr) (scope : ScopeId)
  | statement (s : Stmt) (scope : ScopeId)
  | block (body : Block) (scope : ScopeId)
  /-- A number of rounds that are left of a `REPEAT`. -/
  | rounds (body : Block) (scope : ScopeId) (count : Nat)
  /-- A `REPEAT UNTIL` that may take as many rounds more as it has fuel. -/
  | loop (condition : Expr) (body : Block) (scope : ScopeId) (fuel : Nat)
  /-- The values that a `FOR EACH` has not gone through yet. -/
  | items (item : Token) (body : Block) (scope : ScopeId) (values : List Value)

/-- One round of a loop, in a scope of its own. -/
def runRound (c : Context) (body : Block) (scope : ScopeId) : EvalM Flow :=
  inChild scope fun inner => executeBlock c body inner

/-- One round of a `FOR EACH`. -/
def runItem (c : Context) (item : Token) (body : Block) (scope : ScopeId)
    (value : Value) : EvalM Flow :=
  inChild scope fun inner => do
    define inner item.text (.value value)
    executeBlock c body inner

/-- Does what the task asks for, and forgets the answer. -/
def Task.perform (c : Context) : Task → EvalM Unit
  | .expression e scope => evaluate c scope e >>= fun _ => pure ()
  | .expressions es scope => evaluateAll c scope es >>= fun _ => pure ()
  | .statement s scope => execute c s scope >>= fun _ => pure ()
  | .block body scope => executeBlock c body scope >>= fun _ => pure ()
  | .rounds body scope count => repeatTimes (runRound c body scope) count >>= fun _ => pure ()
  | .loop condition body scope fuel =>
    repeatUntil (evaluateCondition c scope .untilCondition condition)
      (runRound c body scope) fuel >>= fun _ => pure ()
  | .items item body scope values =>
      forEach (runItem c item body scope) values >>= fun _ => pure ()

theorem keepsDepth_runRound (hc : c.KeepsDepth) (body : Block) (scope : ScopeId) :
    (runRound c body scope).KeepsDepth :=
  .inChild (keepsDepth_executeBlock hc body)

theorem keepsDepth_runItem (hc : c.KeepsDepth) (item : Token) (body : Block) (scope : ScopeId)
    (value : Value) :
    (runItem c item body scope value).KeepsDepth :=
  .inChild fun id => (KeepsDepth.updateScopes _).bind fun _ => keepsDepth_executeBlock hc body id

/-- **No task changes the depth**, whatever it is and however it ends. -/
theorem keepsDepth_perform (hc : c.KeepsDepth) (task : Task) : (task.perform c).KeepsDepth := by
  cases task with
  | expression e scope => exact (keepsDepth_evaluate hc scope e).bind fun _ => .pure ()
  | expressions es scope => exact (keepsDepth_evaluateAll hc scope es).bind fun _ => .pure ()
  | statement s scope => exact (keepsDepth_execute hc s scope).bind fun _ => .pure ()
  | block body scope => exact (keepsDepth_executeBlock hc body scope).bind fun _ => .pure ()
  | rounds body scope count =>
      refine KeepsDepth.bind (fun depth => ?_) fun _ => .pure ()
      exact preserves_repeatTimes (keepsDepth_runRound hc body scope depth) count
  | loop condition body scope fuel =>
      refine KeepsDepth.bind (fun depth => ?_) fun _ => .pure ()
      exact preserves_repeatUntil (keepsDepth_evaluateCondition hc scope _ condition depth)
        (keepsDepth_runRound hc body scope depth) fuel
  | items item body scope values =>
      refine KeepsDepth.bind (fun depth => ?_) fun _ => .pure ()
      exact preserves_forEach (fun value => keepsDepth_runItem hc item body scope value depth)
        values

/-! ## Moments -/

/-- A task about to begin, with `bodies` procedure bodies of the run under way. -/
structure Moment where
  bodies : Nat
  task : Task
  machine : Machine

/-- How the task of a moment goes on from there. -/
def Moment.perform (fuel : Nat) (w : Moment) : EvalM Unit := w.task.perform (.within fuel w.bodies)

/-- The number of arguments that something which can be called takes. -/
def Binding.arity? : Binding → Option Nat
  | .value _ => none
  | .procedure p => some p.params.length
  | .builtin b => some b.arity

/-- The expression that a statement evaluates first. A `REPEAT UNTIL` has none of its own: its
rounds begin with one. -/
def Stmt.first? : Stmt → Option Expr
  | .procedure .. | .repeatUntil .. => none
  | .assign _ value | .returns value => some value
  | .ifThen condition _ | .ifThenElse condition _ _ => some condition
  | .repeatTimes count _ => some count
  | .forEach _ list _ => some list
  | .expression e => some e

/-- The machine on which a round of a `FOR EACH` begins. -/
def Machine.itemized (m : Machine) (parent : ScopeId) (item : Token) (value : Value) : Machine :=
  ⟨(m.scopes.addChild parent).define m.scopes.size item.text (.value value), m.depth, m.output⟩

/-- The machine with a scope for a call, in which the parameters are bound. -/
def Machine.framed (m : Machine) (p : Procedure) (values : List Value) : Machine :=
  (bindParams m.scopes.size p.params values).after (m.opened Machine.global)

/-- The machine on which the body of a procedure begins, one call deeper. -/
def Machine.called (m : Machine) (p : Procedure) (values : List Value) : Machine :=
  ⟨(m.framed p values).scopes, (m.framed p values).depth + 1, (m.framed p values).output⟩

/-- The second moment is the beginning of a part of what the first one's task does. -/
inductive Starts (fuel : Nat) : Moment → Moment → Prop where
  | operand {n : Nat} {m : Machine} {scope : ScopeId} {operator : Token} {e : Expr} :
      Starts fuel ⟨n, .expression (.unary operator e) scope, m⟩ ⟨n, .expression e scope, m⟩
  | left {n : Nat} {m : Machine} {scope : ScopeId} {operator : Token} {left right : Expr} :
      Starts fuel ⟨n, .expression (.binary left operator right) scope, m⟩
        ⟨n, .expression left scope, m⟩
  | right {n : Nat} {m m' : Machine} {scope : ScopeId} {operator : Token} {left right : Expr}
      {value : Value} :
      evaluate (.within fuel n) scope left m = .ok value m' →
      Starts fuel ⟨n, .expression (.binary left operator right) scope, m⟩
        ⟨n, .expression right scope, m'⟩
  | inner {n : Nat} {m : Machine} {scope : ScopeId} {e : Expr} :
      Starts fuel ⟨n, .expression (.group e) scope, m⟩ ⟨n, .expression e scope, m⟩
  | listItems {n : Nat} {m : Machine} {scope : ScopeId} {opening closing : Token}
      {es : List Expr} :
      Starts fuel ⟨n, .expression (.list opening es closing) scope, m⟩
        ⟨n, .expressions es scope, m⟩
  | arguments {n : Nat} {m : Machine} {scope : ScopeId} {callee closing : Token} {es : List Expr}
      {binding : Binding} :
      m.scopes.lookup scope callee = .ok binding → binding.arity? = some es.length →
      Starts fuel ⟨n, .expression (.call callee es closing) scope, m⟩ ⟨n, .expressions es scope, m⟩
  | body {n : Nat} {m m' : Machine} {scope : ScopeId} {callee closing : Token}
      {es : List Expr} {p : Procedure}
      {values : List Value} :
      m.scopes.lookup scope callee = .ok (.procedure p) → p.params.length = es.length →
      evaluateAll (.within fuel n) scope es m = .ok values m' → m'.depth < callLimit →
      Starts fuel ⟨n, .expression (.call callee es closing) scope, m⟩
        ⟨n + 1, .block p.body m'.scopes.size, m'.called p values⟩
  | firstExpression {n : Nat} {m : Machine} {scope : ScopeId} {e : Expr} {rest : List Expr} :
      Starts fuel ⟨n, .expressions (e :: rest) scope, m⟩ ⟨n, .expression e scope, m⟩
  | moreExpressions {n : Nat} {m m' : Machine} {scope : ScopeId} {e : Expr} {rest : List Expr}
      {value : Value} :
      evaluate (.within fuel n) scope e m = .ok value m' →
      Starts fuel ⟨n, .expressions (e :: rest) scope, m⟩ ⟨n, .expressions rest scope, m'⟩
  | statementOperand {n : Nat} {m : Machine} {scope : ScopeId} {s : Stmt} {e : Expr} :
      s.first? = some e →
      Starts fuel ⟨n, .statement s scope, m⟩ ⟨n, .expression e scope, m⟩
  | thenOnly {n : Nat} {m m' : Machine} {scope : ScopeId} {condition : Expr} {thenBlock : Block} :
      evaluateCondition (.within fuel n) scope .ifCondition condition m = .ok true m' →
      Starts fuel ⟨n, .statement (.ifThen condition thenBlock) scope, m⟩
        ⟨n, .block thenBlock m'.scopes.size, m'.opened scope⟩
  | thenBlock {n : Nat} {m m' : Machine} {scope : ScopeId} {condition : Expr}
      {thenBlock elseBlock : Block} :
      evaluateCondition (.within fuel n) scope .ifCondition condition m = .ok true m' →
      Starts fuel ⟨n, .statement (.ifThenElse condition thenBlock elseBlock) scope, m⟩
        ⟨n, .block thenBlock m'.scopes.size, m'.opened scope⟩
  | elseBlock {n : Nat} {m m' : Machine} {scope : ScopeId} {condition : Expr}
      {thenBlock elseBlock : Block} :
      evaluateCondition (.within fuel n) scope .ifCondition condition m = .ok false m' →
      Starts fuel ⟨n, .statement (.ifThenElse condition thenBlock elseBlock) scope, m⟩
        ⟨n, .block elseBlock m'.scopes.size, m'.opened scope⟩
  | rounds {n : Nat} {m m' : Machine} {scope : ScopeId} {count : Expr} {body : Block} {k : Nat} :
      evaluateCount (.within fuel n) scope count m = .ok k m' →
      Starts fuel ⟨n, .statement (.repeatTimes count body) scope, m⟩ ⟨n, .rounds body scope k, m'⟩
  | loop {n : Nat} {m : Machine} {scope : ScopeId} {condition : Expr} {body : Block} :
      Starts fuel ⟨n, .statement (.repeatUntil condition body) scope, m⟩
        ⟨n, .loop condition body scope fuel, m⟩
  | items {n : Nat} {m m' : Machine} {scope : ScopeId} {item : Token} {list : Expr} {body : Block}
      {values : List Value} :
      evaluateItems (.within fuel n) scope list m = .ok values m' →
      Starts fuel ⟨n, .statement (.forEach item list body) scope, m⟩
        ⟨n, .items item body scope values, m'⟩
  | firstStatement {n : Nat} {m : Machine} {scope : ScopeId} {s : Stmt} {rest : Block} :
      Starts fuel ⟨n, .block (s :: rest) scope, m⟩ ⟨n, .statement s scope, m⟩
  | moreStatements {n : Nat} {m m' : Machine} {scope : ScopeId} {s : Stmt} {rest : Block} :
      execute (.within fuel n) s scope m = .ok .next m' →
      Starts fuel ⟨n, .block (s :: rest) scope, m⟩ ⟨n, .block rest scope, m'⟩
  | round {n : Nat} {m : Machine} {scope : ScopeId} {body : Block} {k : Nat} :
      Starts fuel ⟨n, .rounds body scope (k + 1), m⟩ ⟨n, .block body m.scopes.size, m.opened scope⟩
  | moreRounds {n : Nat} {m m' : Machine} {scope : ScopeId} {body : Block} {k : Nat} :
      runRound (.within fuel n) body scope m = .ok .next m' →
      Starts fuel ⟨n, .rounds body scope (k + 1), m⟩ ⟨n, .rounds body scope k, m'⟩
  | loopCondition {n : Nat} {m : Machine} {scope : ScopeId} {condition : Expr}
      {body : Block} {k : Nat} :
      Starts fuel ⟨n, .loop condition body scope (k + 1), m⟩ ⟨n, .expression condition scope, m⟩
  | loopRound {n : Nat} {m m' : Machine} {scope : ScopeId} {condition : Expr}
      {body : Block} {k : Nat} :
      evaluateCondition (.within fuel n) scope .untilCondition condition m = .ok false m' →
      Starts fuel ⟨n, .loop condition body scope (k + 1), m⟩
        ⟨n, .block body m'.scopes.size, m'.opened scope⟩
  | moreLoop {n : Nat} {m m' m'' : Machine} {scope : ScopeId} {condition : Expr}
      {body : Block} {k : Nat} :
      evaluateCondition (.within fuel n) scope .untilCondition condition m = .ok false m' →
      runRound (.within fuel n) body scope m' = .ok .next m'' →
      Starts fuel ⟨n, .loop condition body scope (k + 1), m⟩ ⟨n, .loop condition body scope k, m''⟩
  | item {n : Nat} {m : Machine} {scope : ScopeId} {item : Token} {body : Block} {value : Value}
      {rest : List Value} :
      Starts fuel ⟨n, .items item body scope (value :: rest), m⟩
        ⟨n, .block body m.scopes.size, m.itemized scope item value⟩
  | moreItems {n : Nat} {m m' : Machine} {scope : ScopeId} {item : Token}
      {body : Block} {value : Value}
      {rest : List Value} :
      runItem (.within fuel n) item body scope value m = .ok .next m' →
      Starts fuel ⟨n, .items item body scope (value :: rest), m⟩
        ⟨n, .items item body scope rest, m'⟩

/-- The second moment comes about while the first one's task is at work. -/
inductive Reaches (fuel : Nat) : Moment → Moment → Prop where
  | refl (w : Moment) : Reaches fuel w w
  | tail {w w' w'' : Moment} : Reaches fuel w w' → Starts fuel w' w'' → Reaches fuel w w''

/-! ## From one moment to the next -/

section

variable {fuel : Nat} {w w' w'' : Moment}

/-- A moment that is started leads on to all that it leads to. -/
theorem Reaches.head (h : Starts fuel w w') (hrest : Reaches fuel w' w'') :
    Reaches fuel w w'' := by
  induction hrest with
  | refl => exact .tail (.refl w) h
  | tail _ hstarts ih => exact .tail ih hstarts

theorem Machine.depth_framed (m : Machine) (p : Procedure) (values : List Value) :
    (m.framed p values).depth = m.depth :=
  (KeepsDepth.bindParams m.scopes.size p.params values).after (m.opened Machine.global)

/-- The body of a procedure begins one call deeper. -/
theorem Machine.depth_called (m : Machine) (p : Procedure) (values : List Value) :
    (m.called p values).depth = m.depth + 1 := congrArg (· + 1) (m.depth_framed p values)

/-- **The depth changes by the bodies that are entered.** What was done before a part began has put
the depth back, so that only the entry to a body is left, and there the limit was not reached. -/
theorem Starts.depth_cases (h : Starts fuel w w') :
    (w'.bodies = w.bodies ∧ w'.machine.depth = w.machine.depth)
      ∨ (w'.bodies = w.bodies + 1 ∧ w'.machine.depth = w.machine.depth + 1
      ∧ w.machine.depth < callLimit) := by
  have hc : ∀ n, (Context.within fuel n).KeepsDepth := Context.keepsDepth_within fuel
  cases h with
  | @body n m m' scope callee closing es p values _ _ hvalues hlimit =>
      have hdepth : m'.depth = m.depth := (keepsDepth_evaluateAll (hc n) scope es).of_ok hvalues
      rw [hdepth] at hlimit
      refine .inr ⟨rfl, ?_, hlimit⟩
      rw [← hdepth]
      exact m'.depth_called p values
  | right hbefore | moreExpressions hbefore =>
      have hdepth := (keepsDepth_evaluate (hc _) _ _).of_ok hbefore
      exact .inl ⟨rfl, hdepth⟩
  | thenOnly hcondition | thenBlock hcondition | elseBlock hcondition | loopRound hcondition =>
      have hdepth := (keepsDepth_evaluateCondition (hc _) _ _ _).of_ok hcondition
      exact .inl ⟨rfl, hdepth⟩
  | rounds hcount =>
      have hdepth := (keepsDepth_evaluateCount (hc _) _ _).of_ok hcount
      exact .inl ⟨rfl, hdepth⟩
  | items hitems =>
      have hdepth := (keepsDepth_evaluateItems (hc _) _ _).of_ok hitems
      exact .inl ⟨rfl, hdepth⟩
  | moreStatements hfirst =>
      have hdepth := (keepsDepth_execute (hc _) _ _).of_ok hfirst
      exact .inl ⟨rfl, hdepth⟩
  | moreRounds hround =>
      have hdepth := (keepsDepth_runRound (hc _) _ _).of_ok hround
      exact .inl ⟨rfl, hdepth⟩
  | moreLoop hcondition hround =>
      have hdepth := (keepsDepth_evaluateCondition (hc _) _ _ _).of_ok hcondition
      have hdepth' := (keepsDepth_runRound (hc _) _ _).of_ok hround
      exact .inl ⟨rfl, hdepth'.trans hdepth⟩
  | moreItems hround =>
      have hdepth := (keepsDepth_runItem (hc _) _ _ _ _).of_ok hround
      exact .inl ⟨rfl, hdepth⟩
  | _ => exact .inl ⟨rfl, rfl⟩

/-- At any time the depth is that of the beginning and one more for each body under way, and within
the limit. -/
theorem Reaches.depth (h : Reaches fuel w w') :
    w.bodies ≤ w'.bodies ∧ w'.machine.depth + w.bodies = w.machine.depth + w'.bodies
      ∧ (w.machine.depth ≤ callLimit → w'.machine.depth ≤ callLimit) := by
  induction h with
  | refl => exact ⟨Nat.le_refl _, rfl, id⟩
  | tail _ hstarts ih =>
      obtain ⟨hbodies, hdepth, hlimit⟩ := ih
      rcases hstarts.depth_cases with ⟨hsame, hdepth'⟩ | ⟨hmore, hdepth', hroom⟩
      · exact ⟨by omega, by omega, fun h => by have := hlimit h; omega⟩
      · exact ⟨by omega, by omega, fun _ => by omega⟩

end

/-! ## Failure of a part -/

section

variable {fuel : Nat} {m : Machine} {halt : Halt} {w w' : Moment}

theorem lookup_eq_ok {m' : Machine} {scope : ScopeId} {name : Token} {binding : Binding} :
    lookup scope name m = .ok binding m' ↔ m.scopes.lookup scope name = .ok binding ∧ m' = m := by
  unfold lookup
  cases m.scopes.lookup scope name with
  | ok found => simp [eq_comm]
  | error e => simp

theorem checkArity_eq_ok {m' : Machine} {name : String} {expected found : Nat} {span : Span} :
    checkArity name expected found span m = .ok () m' ↔ expected = found ∧ m' = m := by
  unfold checkArity
  by_cases h : expected = found
  · rw [if_pos h]
    constructor
    · intro heq
      cases heq
      exact ⟨h, rfl⟩
    · rintro ⟨_, rfl⟩
      rfl
  · rw [if_neg h]
    exact ⟨fun heq => (nomatch heq), fun heq => absurd heq.1 h⟩

/-- Binding parameters does not fail. -/
theorem bindParams_apply (scope : ScopeId) (params : List Token) (values : List Value)
    (m : Machine) :
    bindParams scope params values m = .ok () ((bindParams scope params values).after m) := by
  induction params generalizing values m with
  | nil => rfl
  | cons param params ih =>
      cases values with
      | nil => rfl
      | cons value values => exact ih values _

/-- A call fails as the step does that counts it. The parameters are bound before. -/
theorem fails_enter {p : Procedure} {values : List Value} {span : Span} :
    (enter c p values span).Fails m halt ↔
      (calling span (c.invoke p.body m.scopes.size)).Fails (m.framed p values) halt := by
  unfold enter Machine.framed
  rw [fails_inChild, fails_bind_of_ok (bindParams_apply _ _ _ _)]
  refine ⟨fun h => ?_, fun h => h.first _⟩
  rcases fails_bind.mp h with hcall | ⟨flow, m', _, hpure⟩
  · exact hcall
  · exact absurd hpure (not_fails_pure _)

/-- Below the limit a call fails as the body of the procedure does. -/
theorem fails_enter_of_lt (hlimit : m.depth < callLimit) {p : Procedure} {values : List Value}
    {span : Span} :
    (enter c p values span).Fails m halt ↔
      (c.invoke p.body m.scopes.size).Fails (m.called p values) halt := by
  rw [← m.depth_framed p values] at hlimit
  rw [fails_enter, Fails, answer_calling span _ _ _ hlimit]
  rfl

/-- At the limit a call fails, for this reason and no other. -/
theorem fails_enter_of_le (hlimit : callLimit ≤ m.depth) {p : Procedure} {values : List Value}
    {span : Span} :
    (enter c p values span).Fails m halt ↔ .error (.recursionLimit span) = halt := by
  rw [← m.depth_framed p values] at hlimit
  rw [fails_enter, Fails, answer_of_error (calling_of_le span _ _ _ hlimit)]
  exact fails_throw (m := m.framed p values)

/-- A body that is entered while `bodies` others are under way runs with one more of them. -/
theorem Context.invoke_within {bodies : Nat} (h : bodies < callLimit) (body : Block)
    (scope : ScopeId) :
    (Context.within fuel bodies).invoke body scope =
      executeBlock (.within fuel (bodies + 1)) body scope := by
  have hlayers : callLimit - bodies = callLimit - (bodies + 1) + 1 := by omega
  unfold Context.within
  rw [hlayers]
  rfl

/-- A call goes on to its arguments once something callable is found that takes so many of them. -/
theorem fails_call_of_arguments {scope : ScopeId} {callee closing : Token} {es : List Expr}
    {binding : Binding} (hlookup : m.scopes.lookup scope callee = .ok binding)
    (harity : binding.arity? = some es.length) (h : (evaluateAll c scope es).Fails m halt) :
    (evaluate c scope (.call callee es closing)).Fails m halt := by
  rw [evaluate, fails_bind_of_ok (lookup_eq_ok.mpr ⟨hlookup, rfl⟩)]
  cases binding with
  | value value => cases harity
  | procedure p =>
      exact (fails_bind_of_ok (checkArity_eq_ok.mpr ⟨Option.some.inj harity, rfl⟩)).mpr (h.first _)
  | builtin b =>
      exact (fails_bind_of_ok (checkArity_eq_ok.mpr ⟨Option.some.inj harity, rfl⟩)).mpr (h.first _)

/-- A call of a procedure fails as its entry does, once the arguments are there. -/
theorem fails_call_of_enter {scope : ScopeId} {callee closing : Token} {es : List Expr}
    {p : Procedure} {values : List Value} {m' : Machine}
    (hlookup : m.scopes.lookup scope callee = .ok (.procedure p))
    (harity : p.params.length = es.length) (hvalues : evaluateAll c scope es m = .ok values m')
    (h : (enter c p values (Expr.call callee es closing).span).Fails m' halt) :
    (evaluate c scope (.call callee es closing)).Fails m halt := by
  rw [evaluate, fails_bind_of_ok (lookup_eq_ok.mpr ⟨hlookup, rfl⟩)]
  exact (fails_bind_of_ok (checkArity_eq_ok.mpr ⟨harity, rfl⟩)).mpr
    ((fails_bind_of_ok hvalues).mpr h)

/-- A statement fails with the expression that it evaluates first. -/
theorem fails_execute_of_first {s : Stmt} {e : Expr} {scope : ScopeId} (hfirst : s.first? = some e)
    (h : (evaluate c scope e).Fails m halt) : (execute c s scope).Fails m halt := by
  cases s with
  | procedure name params body => exact nomatch hfirst
  | repeatUntil condition body => exact nomatch hfirst
  | assign target value | returns value | expression value =>
      cases hfirst
      rw [execute]
      exact h.first _
  | ifThen condition thenBlock | ifThenElse condition thenBlock elseBlock | repeatTimes count body
  | forEach item list body =>
      cases hfirst
      rw [execute]
      exact (h.first _).first _

/-- **A part that fails makes the whole fail**, for the same cause. Nothing in the language catches
an error. -/
theorem Starts.fails (h : Starts fuel w w') (hbodies : w.bodies ≤ w.machine.depth)
    (hpart : (w'.perform fuel).Fails w'.machine halt) : (w.perform fuel).Fails w.machine halt := by
  cases h
  all_goals
    replace hpart := fails_discard.mp hpart
    refine fails_discard.mpr ?_
  case operand | left | listItems =>
    rw [evaluate]
    exact hpart.first _
  case right hleft =>
    rw [evaluate, fails_bind_of_ok hleft]
    exact hpart.first _
  case inner =>
    rw [evaluate]
    exact hpart
  case arguments hlookup harity => exact fails_call_of_arguments hlookup harity hpart
  case body n m m' scope callee closing es p values hlookup harity hvalues hlimit =>
    have hdepth : m'.depth = m.depth :=
      (keepsDepth_evaluateAll (Context.keepsDepth_within fuel n) scope es).of_ok hvalues
    have hroom : n < callLimit := by
      have : n ≤ m.depth := hbodies
      omega
    refine fails_call_of_enter hlookup harity hvalues ((fails_enter_of_lt hlimit).mpr ?_)
    rw [Context.invoke_within hroom]
    exact hpart
  case firstExpression =>
    rw [evaluateAll]
    exact hpart.first _
  case moreExpressions hfirst =>
    rw [evaluateAll, fails_bind_of_ok hfirst]
    exact hpart.first _
  case statementOperand hfirst => exact fails_execute_of_first hfirst hpart
  case thenOnly hcondition | thenBlock hcondition | elseBlock hcondition =>
    rw [execute, fails_bind_of_ok hcondition]
    exact fails_inChild.mpr hpart
  case rounds hoperand | items hoperand =>
    rw [execute, fails_bind_of_ok hoperand]
    exact hpart
  case loop =>
    rw [execute]
    exact hpart
  case firstStatement =>
    rw [executeBlock]
    exact hpart.first _
  case moreStatements hfirst =>
    rw [executeBlock, fails_bind_of_ok hfirst]
    exact hpart
  case round => exact (fails_inChild.mpr hpart).first _
  case moreRounds hround => exact (fails_bind_of_ok hround).mpr hpart
  case loopCondition => exact (hpart.first _).first _
  case loopRound hcondition =>
      exact (fails_bind_of_ok hcondition).mpr ((fails_inChild.mpr hpart).first _)
  case moreLoop hcondition hround =>
    exact (fails_bind_of_ok hcondition).mpr ((fails_bind_of_ok hround).mpr hpart)
  case item =>
    -- the item is bound in the scope of the round first, which does not fail
    exact (fails_inChild.mpr ((fails_bind_of_ok rfl).mpr hpart)).first _
  case moreItems hround => exact (fails_bind_of_ok hround).mpr hpart

/-- A moment that is reached and fails makes the whole run fail, for the same cause. -/
theorem Reaches.fails (h : Reaches fuel w w') (hbodies : w.bodies ≤ w.machine.depth)
    (hpart : (w'.perform fuel).Fails w'.machine halt) : (w.perform fuel).Fails w.machine halt := by
  induction h with
  | refl => exact hpart
  | tail hreaches hstarts ih =>
      have hdepth := hreaches.depth
      exact ih (hstarts.fails (by omega) hpart)

end

/-! ## Every run is finitely deep -/

/-- The size of the syntax that a task goes through in each of its rounds. -/
noncomputable def Task.size : Task → Nat
  | .expression e _ => sizeOf e
  | .expressions es _ => sizeOf es
  | .statement s _ => sizeOf s
  | .block body _ | .rounds body _ _ | .items _ body _ _ => sizeOf body
  | .loop condition body _ _ => sizeOf condition + sizeOf body

/-- The rounds of a loop that are left, the end of the loop counted as one. -/
def Task.roundsLeft : Task → Nat
  | .rounds _ _ count => count + 1
  | .loop _ _ _ fuel => fuel + 1
  | .items _ _ _ values => values.length + 1
  | _ => 0

theorem Expr.sizeOf_pos (e : Expr) : 0 < sizeOf e := by
  cases e <;> simp +arith

theorem Block.sizeOf_pos (body : Block) : 0 < sizeOf body := by
  cases body <;> simp +arith

/-- The expression that a statement evaluates first is smaller than the statement. -/
theorem Stmt.sizeOf_first {s : Stmt} {e : Expr} (h : s.first? = some e) : sizeOf e < sizeOf s := by
  cases s <;> cases h <;> simp +arith

variable {fuel : Nat} {w w' : Moment}

/-- A part goes through less syntax than the whole, or has fewer rounds of it, unless it is the
body of a procedure. -/
theorem Starts.size_cases (h : Starts fuel w w') :
    w'.bodies = w.bodies + 1 ∨ w'.task.size < w.task.size
      ∨ (w'.task.size = w.task.size ∧ w'.task.roundsLeft < w.task.roundsLeft) := by
  cases h with
  | body => exact .inl rfl
  | statementOperand hfirst => exact .inr (.inl (Stmt.sizeOf_first hfirst))
  -- a round has the same syntax as the loop, but is none itself
  | round | item | moreRounds | moreLoop | moreItems =>
      exact .inr (.inr ⟨rfl, by simp [Task.roundsLeft]⟩)
  | loopCondition => exact .inr (.inl (Nat.lt_add_of_pos_right (Block.sizeOf_pos _)))
  | loopRound => exact .inr (.inl (Nat.lt_add_of_pos_left (Expr.sizeOf_pos _)))
  | _ => exact .inr (.inl (by simp +arith [Task.size]))

/-- **Induction into a run.** What holds of a moment whenever it holds of all that its task starts,
holds of every moment. On the way into a task the calls that may still be made get fewer, or the
syntax smaller, or the rounds fewer. -/
theorem Moment.induction {motive : Moment → Prop} (fuel : Nat)
    (step : ∀ w, (∀ w', Starts fuel w w' → motive w') → motive w) (w : Moment) : motive w :=
  step w fun w' _ => Moment.induction fuel step w'
termination_by (callLimit - w.machine.depth, w.task.size, w.task.roundsLeft)
decreasing_by
  rename_i hstarts
  rcases hstarts.depth_cases with ⟨hbodies, hdepth⟩ | ⟨_, hdepth, hroom⟩
  · rw [hdepth]
    refine .right _ ?_
    rcases hstarts.size_cases with hmore | hsize | ⟨hsize, hrounds⟩
    · omega
    · exact .left _ _ hsize
    · -- the same syntax once more, in the next round of a loop
      rw [hsize]
      exact .right _ hrounds
  · exact .left _ _ (by omega)

end Pseudocode
