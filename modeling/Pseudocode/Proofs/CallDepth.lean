import Pseudocode.Proofs.Activity

/-!
# The depth of calls

The machine counts the procedure calls that are under way, and refuses a call when `callLimit` of
them are. The count is exact: at any time of a run it is what it was at the beginning, plus one for
each procedure body that is being executed, and at the end it is what it was, however the run ends.
So a machine that is used again after an error has lost none of its calls.

A call is refused only when all that comes before the entry to its body has gone well
(`Moment.Refused`), and the error that says so has no other origin (`Moment.refused_or_handsOn`).
-/

namespace Pseudocode

open Machine (fail ofExcept lookup updateScopes define emit inChild calling)
open EvalM

variable {α β : Type}

/-! ## Steps that do not refuse calls -/

/-- The step does not fail for too many calls. -/
def EvalM.Exempt (step : EvalM α) : Prop :=
  ∀ m span, ¬ step.Fails m (.error (.recursionLimit span))

namespace EvalM.Exempt

theorem pure (a : α) : (Pure.pure a : EvalM α).Exempt := fun _ _ => not_fails_pure a

theorem fail {e : Error} (he : ∀ span, e ≠ .recursionLimit span) :
    (Machine.fail e : EvalM α).Exempt := by
  intro m span h
  exact he span (Halt.error.inj (fails_throw.mp h))

/-- A computation outside the machine that has no such error. -/
theorem ofExcept {r : Except Error α} (hr : ∀ span, r ≠ .error (.recursionLimit span)) :
    (Machine.ofExcept r).Exempt := by
  cases r with
  | ok a => exact pure a
  | error e => exact fail fun span he => hr span (congrArg Except.error he)

theorem updateScopes (change : Scopes → Scopes) : (Machine.updateScopes change).Exempt :=
  fun _ _ h => nomatch h

theorem lookup (scope : ScopeId) (name : Token) : (Machine.lookup scope name).Exempt := by
  intro m span h
  unfold Fails answer Machine.lookup Scopes.lookup at h
  cases hget : m.scopes.get? scope name.text with
  | some binding => simp [hget] at h
  | none => simp [hget] at h

/-- A wrong number of arguments is another error. -/
theorem checkArity (name : String) (expected found : Nat) (span : Span) :
    (Pseudocode.checkArity name expected found span).Exempt := by
  unfold Pseudocode.checkArity
  split
  · exact pure ()
  · exact fail fun _ he => nomatch he

/-- The builtins do not call procedures. -/
theorem respond (b : Builtin) (arguments : List Argument) :
    (Pseudocode.respond b arguments).Exempt := by
  have hcall : ∀ span, b.call arguments ≠ .error (.error (.recursionLimit span)) := by
    intro span h
    cases arguments with
    | nil => exact nomatch h
    | cons a rest =>
        obtain ⟨value, place⟩ := a
        cases b <;> cases value <;> exact nomatch h
  unfold Pseudocode.respond
  intro m span h
  split at h
  case h_3 halt heq =>
    rw [fails_throw] at h
    exact hcall span (h ▸ heq)
  all_goals exact nomatch h

/-- Steps one after another, none of which refuses a call. -/
theorem bind {step : EvalM α} {next : α → EvalM β} (hstep : step.Exempt)
    (hnext : ∀ a, (next a).Exempt) :
    (step >>= next : EvalM β).Exempt := by
  intro m span h
  rcases fails_bind.mp h with hfails | ⟨a, m', _, hfails⟩
  · exact hstep m span hfails
  · exact hnext a m' span hfails

/-- If what follows does not refuse calls, then a refusal is that of the first step. -/
theorem first {step : EvalM α} {next : α → EvalM β} (hnext : ∀ a, (next a).Exempt) {m : Machine}
    {span : Span} (h : (step >>= next : EvalM β).Fails m (.error (.recursionLimit span))) :
    step.Fails m (.error (.recursionLimit span)) := by
  rcases fails_bind.mp h with hstep | ⟨a, m', _, hfails⟩
  · exact hstep
  · exact absurd hfails (hnext a m' span)

end EvalM.Exempt

theorem exempt_literalValue (token : Token) : (ofExcept (literalValue token)).Exempt := by
  refine .ofExcept fun span => ?_
  unfold literalValue
  repeat' split
  all_goals exact fun h => nomatch h

theorem exempt_applyUnary (whole : Expr) (operator : Token) (operand : Value) :
    (ofExcept (applyUnary whole operator operand)).Exempt := by
  refine .ofExcept fun span => ?_
  unfold applyUnary
  split
  all_goals exact fun h => nomatch h

theorem exempt_applyBinary (whole : Expr) (operator : Token) (left right : Value) :
    (ofExcept (applyBinary whole operator left right)).Exempt := by
  refine .ofExcept fun span => ?_
  unfold applyBinary
  repeat' split
  all_goals exact fun h => nomatch h

/-! ## Where a refusal comes from -/

/-- At this moment a call is refused: it is the call of a procedure with as many arguments as that
has parameters, the arguments have values, and as many calls are under way as there may be. -/
def Moment.Refused (fuel : Nat) (w : Moment) (span : Span) : Prop :=
  ∃ callee es closing scope p values m',
    w.task = .expression (.call callee es closing) scope ∧
    span = (Expr.call callee es closing).span
      ∧ w.machine.scopes.lookup scope callee = .ok (.procedure p) ∧ p.params.length = es.length
      ∧ evaluateAll (.within fuel w.bodies) scope es w.machine = .ok values m'
      ∧ m'.depth = callLimit

section

variable {c : Context} {m : Machine} {scope : ScopeId} {span : Span}

/-- A condition is refused by the expression, not by the check of its value. -/
theorem refused_evaluateCondition {fault : Tag → TypeFault} {condition : Expr}
    (h : (evaluateCondition c scope fault condition).Fails m (.error (.recursionLimit span))) :
    (evaluate c scope condition).Fails m (.error (.recursionLimit span)) := by
  refine Exempt.first (fun value => ?_) h
  cases value with
  | boolean b => exact .pure b
  | _ => exact .fail fun _ he => nomatch he

theorem refused_evaluateCount {count : Expr}
    (h : (evaluateCount c scope count).Fails m (.error (.recursionLimit span))) :
    (evaluate c scope count).Fails m (.error (.recursionLimit span)) := by
  refine Exempt.first (fun value => ?_) h
  cases value with
  | number x => exact .pure _
  | _ => exact .fail fun _ he => nomatch he

theorem refused_evaluateItems {list : Expr}
    (h : (evaluateItems c scope list).Fails m (.error (.recursionLimit span))) :
    (evaluate c scope list).Fails m (.error (.recursionLimit span)) := by
  refine Exempt.first (fun value => ?_) h
  cases value with
  | list items => exact .pure items
  | _ => exact .fail fun _ he => nomatch he

end

/-- The task starts a part that fails for too many calls. -/
def Moment.HandsOn (fuel : Nat) (w : Moment) (span : Span) : Prop :=
  ∃ w', Starts fuel w w' ∧ (w'.perform fuel).Fails w'.machine (.error (.recursionLimit span))

section

variable {fuel n : Nat} {m : Machine} {scope : ScopeId} {span : Span}

/-- **The one place where a call is refused.** If a call fails for too many calls, then it is
refused itself, or its arguments or the body of the procedure hand the error on. -/
theorem refused_call {callee closing : Token} {es : List Expr} (hbodies : n ≤ m.depth)
    (hdepth : m.depth ≤ callLimit)
    (h : (evaluate (.within fuel n) scope (.call callee es closing)).Fails m
      (.error (.recursionLimit span))) :
    Moment.Refused fuel ⟨n, .expression (.call callee es closing) scope, m⟩ span
      ∨ Moment.HandsOn fuel ⟨n, .expression (.call callee es closing) scope, m⟩ span := by
  rw [evaluate] at h
  rcases fails_bind.mp h with hfails | ⟨binding, m', hok, hrest⟩
  · exact absurd hfails (Exempt.lookup scope callee m span)
  obtain ⟨hlookup, rfl⟩ := lookup_eq_ok.mp hok
  cases binding with
  | value value =>
      exact absurd hrest
        (Exempt.fail (e := .notCallable callee) (fun _ he => Error.noConfusion he) _ span)
  | builtin b =>
      rcases fails_bind.mp hrest with hfails | ⟨_, m', hok, hcall⟩
      · exact absurd hfails (Exempt.checkArity _ _ _ _ _ span)
      obtain ⟨harity, rfl⟩ := checkArity_eq_ok.mp hok
      have harguments := Exempt.first (fun values => Exempt.respond b _) hcall
      exact .inr ⟨_, .arguments hlookup (congrArg some harity), fails_discard.mpr harguments⟩
  | procedure p =>
      rcases fails_bind.mp hrest with hfails | ⟨_, m', hok, hcall⟩
      · exact absurd hfails (Exempt.checkArity _ _ _ _ _ span)
      obtain ⟨harity, rfl⟩ := checkArity_eq_ok.mp hok
      rcases fails_bind.mp hcall with harguments | ⟨values, m'', hvalues, henter⟩
      · exact .inr ⟨_, .arguments hlookup (congrArg some harity), fails_discard.mpr harguments⟩
      have hsame : m''.depth = m'.depth :=
        (keepsDepth_evaluateAll (Context.keepsDepth_within fuel n) scope es).of_ok hvalues
      by_cases hlimit : m''.depth < callLimit
      · -- the procedure is entered, and the refusal is one within its body
        refine .inr ⟨_, .body hlookup harity hvalues hlimit, fails_discard.mpr ?_⟩
        rw [← Context.invoke_within (by omega)]
        exact (fails_enter_of_lt hlimit).mp henter
      · -- the arguments do not change the depth, so it was at the limit and not beyond
        have hspan := (fails_enter_of_le (Nat.le_of_not_lt hlimit)).mp henter
        injection hspan with hspan
        injection hspan with hspan
        exact .inl ⟨callee, es, closing, scope, p, values, m'', rfl, hspan.symm, hlookup, harity,
          hvalues, by omega⟩

/-- All other expressions hand on what their parts are refused for. -/
theorem refused_expression {e : Expr} (hbodies : n ≤ m.depth) (hdepth : m.depth ≤ callLimit)
    (h : (evaluate (.within fuel n) scope e).Fails m (.error (.recursionLimit span))) :
    Moment.Refused fuel ⟨n, .expression e scope, m⟩ span ∨
      Moment.HandsOn fuel ⟨n, .expression e scope, m⟩ span := by
  cases e with
  | literal token =>
      rw [evaluate] at h
      exact absurd h (exempt_literalValue token m span)
  | name token =>
      rw [evaluate] at h
      have hlookup := Exempt.first (fun binding => ?_) h
      · exact absurd hlookup (Exempt.lookup scope token m span)
      · cases binding with
        | value value => exact .pure value
        | procedure p => exact .fail fun _ he => Error.noConfusion he
        | builtin b => exact .fail fun _ he => Error.noConfusion he
  | unary operator operand =>
      rw [evaluate] at h
      have hoperand := Exempt.first (fun value => exempt_applyUnary _ _ value) h
      exact .inr ⟨_, .operand, fails_discard.mpr hoperand⟩
  | binary left operator right =>
      rw [evaluate] at h
      rcases fails_bind.mp h with hleft | ⟨value, m', hleft, h⟩
      · exact .inr ⟨_, .left, fails_discard.mpr hleft⟩
      · have hright := Exempt.first (fun _ => exempt_applyBinary _ _ _ _) h
        exact .inr ⟨_, .right hleft, fails_discard.mpr hright⟩
  | group inner =>
      rw [evaluate] at h
      exact .inr ⟨_, .inner, fails_discard.mpr h⟩
  | list opening items closing =>
      rw [evaluate] at h
      exact .inr ⟨_, .listItems, fails_discard.mpr (Exempt.first (fun _ => .pure _) h)⟩
  | call callee es closing => exact refused_call hbodies hdepth h

theorem refused_expressions {es : List Expr}
    (h : (evaluateAll (.within fuel n) scope es).Fails m (.error (.recursionLimit span))) :
    Moment.HandsOn fuel ⟨n, .expressions es scope, m⟩ span := by
  cases es with
  | nil =>
      rw [evaluateAll] at h
      exact absurd h (not_fails_pure _)
  | cons e rest =>
      rw [evaluateAll] at h
      rcases fails_bind.mp h with hfirst | ⟨value, m', hfirst, h⟩
      · exact ⟨_, .firstExpression, fails_discard.mpr hfirst⟩
      · exact ⟨_, .moreExpressions hfirst, fails_discard.mpr (Exempt.first (fun _ => .pure _) h)⟩

/-- Statements hand on what their expressions and blocks are refused for. -/
theorem refused_statement {s : Stmt}
    (h : (execute (.within fuel n) s scope).Fails m (.error (.recursionLimit span))) :
    Moment.HandsOn fuel ⟨n, .statement s scope, m⟩ span := by
  cases s with
  | procedure name params body =>
      rw [execute] at h
      cases h
  | assign target value =>
      rw [execute] at h
      have hvalue := Exempt.first (fun _ => .bind (.updateScopes _) fun _ => .pure _) h
      exact ⟨_, .statementOperand rfl, fails_discard.mpr hvalue⟩
  | returns value | expression value =>
      rw [execute] at h
      exact ⟨_, .statementOperand rfl, fails_discard.mpr (Exempt.first (fun _ => .pure _) h)⟩
  | ifThen condition thenBlock =>
      rw [execute] at h
      rcases fails_bind.mp h with hcondition | ⟨holds, m', hcondition, h⟩
      · exact ⟨_, .statementOperand rfl, fails_discard.mpr (refused_evaluateCondition hcondition)⟩
      cases holds with
      | true => exact ⟨_, .thenOnly hcondition, fails_discard.mpr (fails_inChild.mp h)⟩
      | false => exact absurd h (not_fails_pure _)
  | ifThenElse condition thenBlock elseBlock =>
      rw [execute] at h
      rcases fails_bind.mp h with hcondition | ⟨holds, m', hcondition, h⟩
      · exact ⟨_, .statementOperand rfl, fails_discard.mpr (refused_evaluateCondition hcondition)⟩
      cases holds with
      | true => exact ⟨_, .thenBlock hcondition, fails_discard.mpr (fails_inChild.mp h)⟩
      | false => exact ⟨_, .elseBlock hcondition, fails_discard.mpr (fails_inChild.mp h)⟩
  | repeatTimes count body =>
      rw [execute] at h
      rcases fails_bind.mp h with hcount | ⟨k, m', hcount, h⟩
      · exact ⟨_, .statementOperand rfl, fails_discard.mpr (refused_evaluateCount hcount)⟩
      · exact ⟨_, .rounds hcount, fails_discard.mpr h⟩
  | repeatUntil condition body =>
      rw [execute] at h
      exact ⟨_, .loop, fails_discard.mpr h⟩
  | forEach item list body =>
      rw [execute] at h
      rcases fails_bind.mp h with hitems | ⟨values, m', hitems, h⟩
      · exact ⟨_, .statementOperand rfl, fails_discard.mpr (refused_evaluateItems hitems)⟩
      · exact ⟨_, .items hitems, fails_discard.mpr h⟩

/-- After a statement or a round that returned, nothing is left that could be refused. -/
theorem refused_continue {next : EvalM Flow} {flow : Flow}
    (h : (match flow with
      | .next => next
      | .returned value => pure (.returned value) : EvalM Flow).Fails m
          (.error (.recursionLimit span))) :
    flow = .next ∧ next.Fails m (.error (.recursionLimit span)) := by
  cases flow with
  | next => exact ⟨rfl, h⟩
  | returned value => exact absurd h (not_fails_pure _)

theorem refused_block {body : Block}
    (h : (executeBlock (.within fuel n) body scope).Fails m (.error (.recursionLimit span))) :
    Moment.HandsOn fuel ⟨n, .block body scope, m⟩ span := by
  cases body with
  | nil =>
      rw [executeBlock] at h
      exact absurd h (not_fails_pure _)
  | cons s rest =>
      rw [executeBlock] at h
      rcases fails_bind.mp h with hfirst | ⟨flow, m', hfirst, h⟩
      · exact ⟨_, .firstStatement, fails_discard.mpr hfirst⟩
      · obtain ⟨rfl, hrest⟩ := refused_continue h
        exact ⟨_, .moreStatements hfirst, fails_discard.mpr hrest⟩

/-- The rounds of a loop hand on what one of them is refused for. -/
theorem refused_rounds {body : Block} {k : Nat}
    (h : (repeatTimes (runRound (.within fuel n) body scope) k).Fails m
      (.error (.recursionLimit span))) :
    Moment.HandsOn fuel ⟨n, .rounds body scope k, m⟩ span := by
  cases k with
  | zero => exact absurd h (not_fails_pure _)
  | succ k =>
      rcases fails_bind.mp h with hround | ⟨flow, m', hround, h⟩
      · exact ⟨_, .round, fails_discard.mpr (fails_inChild.mp hround)⟩
      · obtain ⟨rfl, hrest⟩ := refused_continue h
        exact ⟨_, .moreRounds hround, fails_discard.mpr hrest⟩

theorem refused_loop {condition : Expr} {body : Block} {k : Nat}
    (h : (repeatUntil (evaluateCondition (.within fuel n) scope .untilCondition condition)
      (runRound (.within fuel n) body scope) k).Fails m (.error (.recursionLimit span))) :
    Moment.HandsOn fuel ⟨n, .loop condition body scope k, m⟩ span := by
  cases k with
  | zero => exact nomatch fails_throw.mp h
  | succ k =>
      rcases fails_bind.mp h with hcondition | ⟨finished, m', hcondition, h⟩
      · exact ⟨_, .loopCondition, fails_discard.mpr (refused_evaluateCondition hcondition)⟩
      cases finished with
      | true => exact absurd h (not_fails_pure _)
      | false =>
          rcases fails_bind.mp h with hround | ⟨flow, m'', hround, h⟩
          · exact ⟨_, .loopRound hcondition, fails_discard.mpr (fails_inChild.mp hround)⟩
          · obtain ⟨rfl, hrest⟩ := refused_continue h
            exact ⟨_, .moreLoop hcondition hround, fails_discard.mpr hrest⟩

theorem refused_items {item : Token} {body : Block} {values : List Value}
    (h : (forEach (runItem (.within fuel n) item body scope) values).Fails m
      (.error (.recursionLimit span))) :
    Moment.HandsOn fuel ⟨n, .items item body scope values, m⟩ span := by
  cases values with
  | nil => exact absurd h (not_fails_pure _)
  | cons value rest =>
      rcases fails_bind.mp h with hround | ⟨flow, m', hround, h⟩
      · have hbody := (fails_bind_of_ok rfl).mp (fails_inChild.mp hround)
        exact ⟨_, .item, fails_discard.mpr hbody⟩
      · obtain ⟨rfl, hrest⟩ := refused_continue h
        exact ⟨_, .moreItems hround, fails_discard.mpr hrest⟩

end

variable {fuel : Nat} {w : Moment} {span : Span}

/-- **A refusal is made at this moment, or comes from a part.** -/
theorem Moment.refused_or_handsOn (hbodies : w.bodies ≤ w.machine.depth)
    (hdepth : w.machine.depth ≤ callLimit)
    (h : (w.perform fuel).Fails w.machine (.error (.recursionLimit span))) :
    w.Refused fuel span ∨ w.HandsOn fuel span := by
  obtain ⟨n, task, m⟩ := w
  cases task with
  | expression e scope => exact refused_expression hbodies hdepth (fails_discard.mp h)
  | expressions es scope => exact .inr (refused_expressions (fails_discard.mp h))
  | statement s scope => exact .inr (refused_statement (fails_discard.mp h))
  | block body scope => exact .inr (refused_block (fails_discard.mp h))
  | rounds body scope count => exact .inr (refused_rounds (fails_discard.mp h))
  | loop condition body scope fuel => exact .inr (refused_loop (fails_discard.mp h))
  | items item body scope values => exact .inr (refused_items (fails_discard.mp h))

/-- Where a call is refused, there the error says so. -/
theorem Moment.Refused.fails (h : w.Refused fuel span) :
    (w.perform fuel).Fails w.machine (.error (.recursionLimit span)) := by
  obtain ⟨n, task, m⟩ := w
  obtain ⟨callee, es, closing, scope, p, values, m', rfl, rfl, hlookup, harity, hvalues, hlimit⟩ :=
    h
  refine fails_discard.mpr (fails_call_of_enter hlookup harity hvalues ?_)
  exact (fails_enter_of_le (Nat.le_of_eq hlimit.symm)).mpr rfl

/-- The arguments of a call do not count: the depth was at the limit before them too. -/
theorem Moment.Refused.depth (h : w.Refused fuel span) : w.machine.depth = callLimit := by
  obtain ⟨_, es, _, scope, _, _, m', _, _, _, _, hvalues, hlimit⟩ := h
  rw [← hlimit]
  exact ((keepsDepth_evaluateAll (Context.keepsDepth_within fuel w.bodies) scope es).of_ok
    hvalues).symm

/-- Every refusal goes back to a moment at which it was made. -/
theorem Moment.exists_refused (w : Moment) (hbodies : w.bodies ≤ w.machine.depth)
    (hdepth : w.machine.depth ≤ callLimit)
    (h : (w.perform fuel).Fails w.machine (.error (.recursionLimit span))) :
    ∃ w', Reaches fuel w w' ∧ w'.Refused fuel span := by
  induction w using Moment.induction fuel with
  | step w ih =>
      rcases w.refused_or_handsOn hbodies hdepth h with hrefused | ⟨w', hstarts, hfails⟩
      · exact ⟨w, .refl w, hrefused⟩
      · -- the part begins with one body more at most, and then there was room for one
        have hbelow := hstarts.depth_cases
        obtain ⟨w'', hreaches, hrefused⟩ := ih w' hstarts (by omega) (by omega) hfails
        exact ⟨w'', .head hstarts hreaches, hrefused⟩

/-- **The depth of calls is exact.** Whatever is done on a machine within the limit, the depth is
in the end what it was in the beginning, on success and on every failure. At each moment in between
it is that and one more for each procedure body under way, it is within the limit, and what begins
there puts it back. Too many calls is the error exactly when at some moment a procedure is to be
entered, with arguments that all have values and are as many as it has parameters, while the depth
is at the limit. -/
theorem callDepth_exact (fuel : Nat) (task : Task) (m : Machine) (hm : m.depth ≤ callLimit) :
    ((task.perform (.standard fuel)).after m).depth = m.depth
      ∧ (∀ w, Reaches fuel ⟨0, task, m⟩ w →
          w.machine.depth = m.depth + w.bodies ∧ w.machine.depth ≤ callLimit
            ∧ ((w.perform fuel).after w.machine).depth = w.machine.depth)
      ∧ ∀ span, (task.perform (.standard fuel)).Fails m (.error (.recursionLimit span)) ↔
          ∃ w, Reaches fuel ⟨0, task, m⟩ w ∧ w.Refused fuel span := by
  have hperform : ∀ w : Moment, (w.perform fuel).KeepsDepth := fun w =>
    keepsDepth_perform (Context.keepsDepth_within fuel w.bodies) w.task
  refine ⟨(hperform ⟨0, task, m⟩).after m, fun w hreaches => ?_, fun span => ⟨fun h => ?_, ?_⟩⟩
  · obtain ⟨_, hdepth, hlimit⟩ := hreaches.depth
    exact ⟨hdepth, hlimit hm, (hperform w).after w.machine⟩
  · exact Moment.exists_refused ⟨0, task, m⟩ (Nat.zero_le _) hm h
  · rintro ⟨w, hreaches, hrefused⟩
    exact hreaches.fails (Nat.zero_le _) hrefused.fails

/-- The procedure `again` calls itself. -/
def again : Procedure :=
  ⟨⟨"again", .identifier, 15⟩, [],
    [.expression (.call ⟨"again", .identifier, 25⟩ [] ⟨")", .closeParen, 27⟩)]⟩

/-- A machine with `again` and room for one more call. -/
def almostFull : Machine :=
  ⟨Machine.fresh.scopes.define Machine.global "again" (.procedure again), 1999, #[]⟩

/-- There `again` is entered once, its own call is refused, and the room for one call is there as
before. -/
theorem callDepth_exact_again :
    almostFull.depth ≤ callLimit ∧
      (((Task.block again.body Machine.global).perform (.standard 0)).after almostFull).depth
        = 1999 ∧
      ∃ w, Reaches 0 ⟨0, .block again.body Machine.global, almostFull⟩ w ∧ w.Refused 0 ⟨20, 27⟩
        ∧ w.bodies = 1 := by
  have hm : almostFull.depth ≤ callLimit := by decide
  obtain ⟨hend, hmoments, hrefusals⟩ :=
    callDepth_exact 0 (.block again.body Machine.global) almostFull hm
  obtain ⟨w, hreaches, hrefused⟩ := (hrefusals ⟨20, 27⟩).mp rfl
  have hdepth : w.machine.depth = 1999 + w.bodies := (hmoments w hreaches).1
  have hlimit : w.machine.depth = 2000 := hrefused.depth
  exact ⟨hm, hend, w, hreaches, hrefused, by omega⟩

end Pseudocode
