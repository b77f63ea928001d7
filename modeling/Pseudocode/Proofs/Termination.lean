import Pseudocode.Proofs.Failure

/-!
# Programs that come to an end

Evaluation is given fuel, and a loop that uses up all of it ends as out of fuel. Nothing else about
a run depends on the fuel: with more of it, a run that ended otherwise does the same again
(`executeProgram_extends`). So a program comes to an end precisely if some fuel is enough for it,
and what it then does is what it does with any fuel beyond.

A program without `REPEAT UNTIL` needs none. Recursion is bounded by the limit on calls, whatever
the program redefines in the meantime; the other loops by a count or by a list that is there when
they begin; and blocks and expressions by their size. In terms of the evaluator, no node but a
`REPEAT UNTIL` can raise the lack of fuel, and every failure is raised by some node.
-/

namespace Pseudocode

open EvalM
open Machine (fail ofExcept lookup updateScopes define emit inChild calling)

variable {α β : Type}

/-! ## More fuel -/

namespace EvalM

/-- `y` does what `x` does, except where `x` runs out of fuel. -/
def Extends (x y : EvalM α) : Prop := ∀ m, x.answer m = .error .outOfFuel ∨ y m = x m

theorem Extends.refl (x : EvalM α) : Extends x x := fun _ => .inr rfl

/-- Steps one after another, either of which may be the one that runs out of fuel. -/
theorem extends_bind {x y : EvalM α} {f g : α → EvalM β} (hstep : Extends x y)
    (hnext : ∀ a, Extends (f a) (g a)) :
    Extends (x >>= f) (y >>= g) := by
  intro m
  cases hx : x m with
  | ok a m' =>
      rcases hstep m with hfuel | hsame
      · rw [answer_of_ok hx] at hfuel
        exact absurd hfuel (by simp)
      · rw [answer_bind_of_ok hx, bind_of_ok hx, bind_of_ok (hsame.trans hx)]
        exact hnext a m'
  | error halt m' =>
      rcases hstep m with hfuel | hsame
      · rw [answer_of_error hx] at hfuel
        left
        rw [answer_of_error (bind_of_error hx f)]
        exact congrArg _ (Except.error.inj hfuel)
      · right
        rw [bind_of_error hx, bind_of_error (hsame.trans hx)]

theorem extends_continue {x y : EvalM Flow} (h : Extends x y) (flow : Flow) :
    Extends
      (match flow with
        | .next => x
        | .returned value => pure (.returned value))
      (match flow with
        | .next => y
        | .returned value => pure (.returned value)) := by
  cases flow with
  | next => exact h
  | returned value => exact Extends.refl _

theorem extends_repeatTimes {x y : EvalM Flow} (hbody : Extends x y) (count : Nat) :
    Extends (repeatTimes x count) (repeatTimes y count) := by
  induction count with
  | zero => exact Extends.refl _
  | succ count ih =>
      unfold repeatTimes
      exact extends_bind hbody (extends_continue ih)

/-- Here the fuel is used: the loop that has less of it stops first. -/
theorem extends_repeatUntil {finished finished' : EvalM Bool} {x y : EvalM Flow}
    (hfinished : Extends finished finished') (hbody : Extends x y) {fuel fuel' : Nat}
    (hfuel : fuel ≤ fuel') :
    Extends (repeatUntil finished x fuel) (repeatUntil finished' y fuel') := by
  induction fuel generalizing fuel' with
  | zero => exact fun _ => .inl rfl
  | succ fuel ih =>
      obtain ⟨fuel', rfl⟩ : ∃ n, fuel' = n + 1 := ⟨fuel' - 1, by omega⟩
      unfold repeatUntil
      refine extends_bind hfinished fun done => ?_
      cases done with
      | true => exact Extends.refl _
      | false => exact extends_bind hbody (extends_continue (ih (Nat.le_of_succ_le_succ hfuel)))

theorem extends_forEach {x y : Value → EvalM Flow} (hbody : ∀ value, Extends (x value) (y value))
    (items : List Value) :
    Extends (forEach x items) (forEach y items) := by
  induction items with
  | nil => exact Extends.refl _
  | cons item rest ih =>
      unfold forEach
      exact extends_bind (hbody item) (extends_continue ih)

/-- A block in a scope of its own. -/
theorem extends_inChild {parent : ScopeId} {x y : ScopeId → EvalM α}
    (h : ∀ id, Extends (x id) (y id)) :
    Extends (inChild parent x) (inChild parent y) := by
  rintro ⟨scopes, depth, output⟩
  rcases h scopes.size ⟨scopes.addChild parent, depth, output⟩ with hfuel | hsame
  · left
    rw [answer_inChild]
    exact hfuel
  · right
    rw [inChild_apply, inChild_apply, hsame]

/-- A call, which is refused or goes on in both. -/
theorem extends_calling {x y : EvalM α} (span : Span) (h : Extends x y) :
    Extends (calling span x) (calling span y) := by
  rintro ⟨scopes, depth, output⟩
  by_cases hlimit : depth < callLimit
  · rcases h ⟨scopes, depth + 1, output⟩ with hfuel | hsame
    · left
      rw [answer_calling span x scopes output hlimit]
      exact hfuel
    · right
      unfold calling
      simp only [hlimit, if_true, hsame]
  · right
    have hlimit := Nat.le_of_not_lt hlimit
    rw [calling_of_le span x scopes output hlimit, calling_of_le span y scopes output hlimit]

end EvalM

/-- `d` has the rule of `c` and at least its fuel, and runs procedure bodies as `c` does, where `c`
has fuel enough. -/
structure Context.Extends (c d : Context) : Prop where
  assign : d.assign = c.assign
  fuel : c.fuel ≤ d.fuel
  invoke : ∀ body id, EvalM.Extends (c.invoke body id) (d.invoke body id)

variable {c d : Context}

theorem extends_enter (h : c.Extends d) (p : Procedure) (values : List Value) (span : Span) :
    EvalM.Extends (enter c p values span) (enter d p values span) := by
  unfold enter
  refine extends_inChild fun id => extends_bind (EvalM.Extends.refl _) fun _ => ?_
  exact extends_bind (extends_calling span (h.invoke p.body id)) fun _ => EvalM.Extends.refl _

mutual

/-- **Expressions do with more fuel what they do with less.** -/
theorem extends_evaluate (h : c.Extends d) (scope : ScopeId) :
    ∀ e : Expr, EvalM.Extends (evaluate c scope e) (evaluate d scope e)
  | .literal token => by
      unfold evaluate
      exact EvalM.Extends.refl _
  | .name token => by
      unfold evaluate
      exact EvalM.Extends.refl _
  | .unary operator operand => by
      unfold evaluate
      exact extends_bind (extends_evaluate h scope operand) fun _ => EvalM.Extends.refl _
  | .binary left operator right => by
      unfold evaluate
      refine extends_bind (extends_evaluate h scope left) fun _ => ?_
      exact extends_bind (extends_evaluate h scope right) fun _ => EvalM.Extends.refl _
  | .group inner => by
      unfold evaluate
      exact extends_evaluate h scope inner
  | .list _ items _ => by
      unfold evaluate
      exact extends_bind (extends_evaluateAll h scope items) fun _ => EvalM.Extends.refl _
  | .call callee arguments closing => by
      unfold evaluate
      refine extends_bind (EvalM.Extends.refl _) fun binding => ?_
      cases binding with
      | value value => exact EvalM.Extends.refl _
      | procedure p =>
          refine extends_bind (EvalM.Extends.refl _) fun _ => ?_
          exact extends_bind (extends_evaluateAll h scope arguments)
            fun values => extends_enter h p values _
      | builtin b =>
          refine extends_bind (EvalM.Extends.refl _) fun _ => ?_
          exact extends_bind (extends_evaluateAll h scope arguments) fun _ => EvalM.Extends.refl _

theorem extends_evaluateAll (h : c.Extends d) (scope : ScopeId) :
    ∀ es : List Expr, EvalM.Extends (evaluateAll c scope es) (evaluateAll d scope es)
  | [] => by
      unfold evaluateAll
      exact EvalM.Extends.refl _
  | e :: rest => by
      unfold evaluateAll
      refine extends_bind (extends_evaluate h scope e) fun _ => ?_
      exact extends_bind (extends_evaluateAll h scope rest) fun _ => EvalM.Extends.refl _

end

mutual

/-- **Statements do with more fuel what they do with less.** -/
theorem extends_execute (h : c.Extends d) :
    ∀ (s : Stmt) (scope : ScopeId), EvalM.Extends (execute c s scope) (execute d s scope)
  | .procedure name params body, scope => by
      unfold execute
      exact EvalM.Extends.refl _
  | .assign target value, scope => by
      unfold execute
      rw [h.assign]
      exact extends_bind (extends_evaluate h scope value) fun _ => EvalM.Extends.refl _
  | .ifThen condition thenBlock, scope => by
      unfold execute
      refine extends_bind (extends_bind (extends_evaluate h scope condition)
        fun _ => EvalM.Extends.refl _) fun holds => ?_
      split
      · exact extends_inChild (extends_executeBlock h thenBlock)
      · exact EvalM.Extends.refl _
  | .ifThenElse condition thenBlock elseBlock, scope => by
      unfold execute
      refine extends_bind (extends_bind (extends_evaluate h scope condition)
        fun _ => EvalM.Extends.refl _) fun holds => ?_
      split
      · exact extends_inChild (extends_executeBlock h thenBlock)
      · exact extends_inChild (extends_executeBlock h elseBlock)
  | .repeatTimes count body, scope => by
      unfold execute
      refine extends_bind (extends_bind (extends_evaluate h scope count)
        fun _ => EvalM.Extends.refl _) fun rounds => ?_
      exact extends_repeatTimes (extends_inChild (extends_executeBlock h body)) rounds
  | .repeatUntil condition body, scope => by
      unfold execute
      exact extends_repeatUntil (extends_bind (extends_evaluate h scope condition)
        fun _ => EvalM.Extends.refl _)
        (extends_inChild (extends_executeBlock h body)) h.fuel
  | .forEach item list body, scope => by
      unfold execute
      refine extends_bind (extends_bind (extends_evaluate h scope list)
        fun _ => EvalM.Extends.refl _) fun items => ?_
      refine extends_forEach (fun value => extends_inChild fun id => ?_) items
      exact extends_bind (EvalM.Extends.refl _) fun _ => extends_executeBlock h body id
  | .returns value, scope => by
      unfold execute
      exact extends_bind (extends_evaluate h scope value) fun _ => EvalM.Extends.refl _
  | .expression e, scope => by
      unfold execute
      exact extends_bind (extends_evaluate h scope e) fun _ => EvalM.Extends.refl _

theorem extends_executeBlock (h : c.Extends d) :
    ∀ (block : Block) (scope : ScopeId),
      EvalM.Extends (executeBlock c block scope) (executeBlock d block scope)
  | [], scope => by
      unfold executeBlock
      exact EvalM.Extends.refl _
  | s :: rest, scope => by
      unfold executeBlock
      exact extends_bind (extends_execute h s scope)
        (extends_continue (extends_executeBlock h rest scope))

end

/-- Every layer of calls, by induction on the layers. -/
theorem Context.extends_layer (rule : AssignRule) {fuel fuel' : Nat} (hfuel : fuel ≤ fuel')
    (layers : Nat) :
    Context.Extends ⟨runBody rule fuel layers, rule, fuel⟩
      ⟨runBody rule fuel' layers, rule, fuel'⟩ := by
  induction layers with
  | zero => exact ⟨rfl, hfuel, fun _ _ => EvalM.Extends.refl _⟩
  | succ layers ih => exact ⟨rfl, hfuel, extends_executeBlock ih⟩

/-- **More fuel changes nothing where there was enough.** -/
theorem executeProgram_extends {fuel fuel' : Nat} (hfuel : fuel ≤ fuel') (program : Block) :
    EvalM.Extends (executeProgram fuel program) (executeProgram fuel' program) := by
  have hcontext : Context.Extends (.standard fuel) (.standard fuel') :=
    Context.extends_layer Scopes.assign hfuel callLimit
  exact extends_bind (extends_executeBlock hcontext program Machine.global)
    fun _ => EvalM.Extends.refl _

/-! ## Programs without `REPEAT UNTIL` -/

/-- Is the statement a `REPEAT UNTIL`? -/
def Stmt.isUntil : Stmt → Bool
  | .repeatUntil .. => true
  | _ => false

/-- **Only `REPEAT UNTIL` can run for ever.** A program that has none in it, also not in the body
of a procedure, comes to an end on a fresh machine, and to the same end whatever the fuel: with a
value, without one, or in an error. -/
theorem executeProgram_terminates {program : Block}
    (h : ∀ s ∈ Block.parts program, s.isUntil = false) :
    ∃ ending, (∀ fuel, executeProgram fuel program Machine.fresh = ending) ∧
      ((∃ value m, ending = .ok (some value) m) ∨ (∃ m, ending = .ok none m) ∨ ∃ e m,
        ending = .error (.error e) m) := by
  have hraises : ∀ halt, (executeProgram 0 program).answer Machine.fresh = .error halt →
      ∃ e, halt = .error e := by
    intro halt hhalt
    rcases (executeProgram_raises hhalt).error_or_endless with herror | ⟨-, condition, body, hloop⟩
    · exact herror
    · exact absurd (h _ hloop) (by simp [Stmt.isUntil])
  refine ⟨executeProgram 0 program Machine.fresh, fun fuel => ?_, ?_⟩
  · rcases executeProgram_extends (Nat.zero_le fuel) program Machine.fresh with hfuel | hsame
    · obtain ⟨e, he⟩ := hraises .outOfFuel hfuel
      exact absurd he (by simp)
    · exact hsame
  · cases hrun : executeProgram 0 program Machine.fresh with
    | ok value m =>
        cases value with
        | some value => exact .inl ⟨value, m, rfl⟩
        | none => exact .inr (.inl ⟨m, rfl⟩)
    | error halt m =>
        obtain ⟨e, rfl⟩ := hraises halt (answer_of_error hrun)
        exact .inr (.inr ⟨e, m, rfl⟩)

/-- A procedure that defines another one of its own name and calls that, which calls the first
again; and a loop that calls it. -/
def runaway : Block :=
  let call : Expr := .call ⟨"f", .identifier, 40⟩ [] ⟨")", .closeParen, 42⟩
  let inner : Stmt := .procedure ⟨"f", .identifier, 28⟩ [] [.returns call]
  [.procedure ⟨"f", .identifier, 11⟩ [] [inner, .returns call],
    .repeatTimes (.literal ⟨"2", .number, 60⟩) [.expression call]]

/-- It comes to an end, although every call of the procedure makes another. -/
theorem executeProgram_terminates_runaway :
    (∀ s ∈ Block.parts runaway, s.isUntil = false) ∧
      ∃ ending, (∀ fuel, executeProgram fuel runaway Machine.fresh = ending) ∧
        ((∃ value m, ending = .ok (some value) m) ∨ (∃ m, ending = .ok none m) ∨ ∃ e m,
          ending = .error (.error e) m) := by
  have huntil : ∀ s ∈ Block.parts runaway, s.isUntil = false := by decide
  exact ⟨huntil, executeProgram_terminates huntil⟩

/-- A loop whose condition never holds uses up its fuel. -/
example :
    (executeProgram 3 [.repeatUntil (.literal ⟨"false", .truth, 20⟩) []]).answer Machine.fresh =
      .error .outOfFuel :=
  rfl

end Pseudocode
