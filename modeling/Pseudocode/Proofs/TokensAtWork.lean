import Pseudocode.Proofs.Activity
import Pseudocode.Proofs.Leakage
import Pseudocode.Proofs.Provenance

/-!
# The tokens that a run works with

A run evaluates expressions that it finds in two places: in the program, and in the bodies of
procedures, which the program has put into scopes before. No expression is made up on the way. So
if every expression of the program consists of tokens of some kind, then so does every expression
that is evaluated at any time of the run (`Reaches.madeOf`).

What the scopes store has to be part of the invariant. It is kept by expressions for the simple
reason that they change no scope, and by statements because a definition stores a part of the
program.
-/

namespace Pseudocode

open Machine (fail ofExcept lookup updateScopes define emit inChild calling Within)
open EvalM

variable {α : Type} {P : Token → Prop}

/-! ## Expressions and statements -/

/-- All tokens of an expression satisfy `P`. -/
def Expr.MadeOf (P : Token → Prop) (e : Expr) : Prop := ∀ x ∈ e.parts, x.NodeOf P

theorem Expr.MadeOf.part {e x : Expr} (h : e.MadeOf P) (hx : x ∈ e.parts) : x.MadeOf P :=
  fun y hy => h y (e.parts_subset hx hy)

theorem Expr.MadeOf.parts {es : List Expr} {e : Expr} (h : e.MadeOf P)
    (hes : ∀ x ∈ Expr.partsAll es, x ∈ e.parts) :
    ∀ x ∈ es, x.MadeOf P :=
  fun x hx y hy => h y (hes y (Expr.mem_partsAll.mpr ⟨x, hx, hy⟩))

/-- All tokens of the expressions in a statement satisfy `P`, wherever the expressions stand. -/
def Stmt.MadeOf (P : Token → Prop) (s : Stmt) : Prop := Stmt.NodesOf P s.parts

/-- All tokens of the expressions in a block satisfy `P`. -/
def Block.MadeOf (P : Token → Prop) (block : Block) : Prop := Stmt.NodesOf P (Block.parts block)

/-- What a statement evaluates is made of such tokens. -/
theorem Stmt.MadeOf.operand {s : Stmt} {e : Expr} (h : s.MadeOf P)
    (he : e ∈ s.operands) : e.MadeOf P :=
  h s s.mem_parts_self e he

/-- So are the blocks inside it. -/
theorem Stmt.MadeOf.block {s : Stmt} {body : Block} (h : s.MadeOf P)
    (hsub : Block.parts body ⊆ s.parts) :
    Block.MadeOf P body := fun x hx => h x (hsub hx)

theorem Block.MadeOf.head {s : Stmt} {rest : Block}
    (h : Block.MadeOf P (s :: rest)) : s.MadeOf P :=
  fun x hx => h x (by rw [Block.parts]; exact List.mem_append_left _ hx)

theorem Block.MadeOf.tail {s : Stmt} {rest : Block} (h : Block.MadeOf P (s :: rest)) :
    Block.MadeOf P rest :=
  fun x hx => h x (by rw [Block.parts]; exact List.mem_append_right _ hx)

/-! ## Machines -/

/-- The procedures that are stored have bodies whose tokens satisfy `P`. The global scope, from
which they are called, is there. -/
structure Machine.MadeOf (P : Token → Prop) (m : Machine) : Prop where
  rooted : m.scopes.Rooted
  stored : ∀ p, m.scopes.Stores p → Block.MadeOf P p.body

/-- A fresh machine stores no procedure. -/
theorem Machine.madeOf_fresh : Machine.fresh.MadeOf P :=
  ⟨Scopes.rooted_fresh, fun _ hp => absurd hp Scopes.not_stores_fresh⟩

namespace Machine.MadeOf

variable {m : Machine}

/-- Only the scopes matter. -/
theorem of_scopes {m' : Machine} (h : m.MadeOf P) (heq : m'.scopes = m.scopes) : m'.MadeOf P :=
  ⟨heq ▸ h.rooted, heq ▸ h.stored⟩

theorem opened (h : m.MadeOf P) (parent : ScopeId) : (m.opened parent).MadeOf P :=
  ⟨h.rooted.addChild parent, fun p hp => h.stored p hp.of_addChild⟩

/-- A procedure that is stored has to be made of such tokens itself. -/
theorem define (h : m.MadeOf P) {binding : Binding}
    (hbinding : ∀ p, binding = .procedure p → Block.MadeOf P p.body) (id : ScopeId)
    (name : String) (depth : Nat) (output : Array String) :
    Machine.MadeOf P ⟨m.scopes.define id name binding, depth, output⟩ :=
  ⟨h.rooted.define id name binding, fun p hp => hp.of_define.elim (hbinding p) (h.stored p)⟩

theorem itemized (h : m.MadeOf P) (parent : ScopeId) (item : Token) (value : Value) :
    (m.itemized parent item value).MadeOf P :=
  (h.opened parent).define (fun _ hp => Binding.noConfusion hp) _ _ _ _

/-- A procedure that is found by its name is made of such tokens. -/
theorem body {scope : ScopeId} {name : Token} {p : Procedure} (h : m.MadeOf P)
    (hlookup : m.scopes.lookup scope name = .ok (.procedure p)) : Block.MadeOf P p.body := by
  unfold Scopes.lookup at hlookup
  split at hlookup
  · rename_i binding hget
    injection hlookup with heq
    exact h.stored p (.of_get? (heq ▸ hget))
  · exact nomatch hlookup

end Machine.MadeOf

/-! ## Steps -/

/-- A step that changes no scope stores nothing. -/
theorem preserves_madeOf {step : EvalM α}
    (h : ∀ m, m.scopes.Rooted → step.Preserves (Within [] m)) :
    step.Preserves (Machine.MadeOf P) :=
  fun m hm => hm.of_scopes (h m hm.rooted m (.refl [] m)).scopes.eq

/-- A block in a scope of its own. Releasing the scope stores nothing. -/
theorem preserves_madeOf_inChild {parent : ScopeId} {body : ScopeId → EvalM α}
    (h : ∀ id, (body id).Preserves (Machine.MadeOf P)) :
    (inChild parent body).Preserves (Machine.MadeOf P) := by
  rintro ⟨scopes, depth, output⟩ hm
  have hinside := h scopes.size _ (hm.opened parent)
  rw [after_inChild]
  exact ⟨hinside.rooted.release hm.rooted.exists_global,
    fun p hp => hinside.stored p hp.of_release⟩

theorem preserves_madeOf_bindParams (id : ScopeId) (params : List Token) (values : List Value) :
    (bindParams id params values).Preserves (Machine.MadeOf P) := by
  induction params generalizing values with
  | nil => exact preserves_pure ()
  | cons param params ih =>
      cases values with
      | nil => exact preserves_pure ()
      | cons value values =>
          unfold bindParams
          refine preserves_bind (fun m hm => ?_) fun _ => ih values
          exact hm.define (fun _ hp => Binding.noConfusion hp) _ _ _ _

/-- A call binds values, and stores no procedure. -/
theorem Machine.MadeOf.called {m : Machine} (h : m.MadeOf P) (p : Procedure)
    (values : List Value) :
    (m.called p values).MadeOf P :=
  (preserves_madeOf_bindParams m.scopes.size p.params values _ (h.opened Machine.global)).of_scopes
    rfl

theorem Context.framed_within (fuel bodies : Nat) : (Context.within fuel bodies).Framed :=
  ⟨Scopes.assign_changedOnly, runBody_writesFrom Scopes.assign_changedOnly fuel _⟩

section

variable (fuel n : Nat) (scope : ScopeId)

/-- An expression stores nothing, since it changes no scope. -/
theorem preserves_madeOf_evaluate (e : Expr) :
    (evaluate (.within fuel n) scope e).Preserves (Machine.MadeOf P) :=
  preserves_madeOf fun _ hm => evaluate_preserves (Context.framed_within fuel n) hm scope e

theorem preserves_madeOf_evaluateAll (es : List Expr) :
    (evaluateAll (.within fuel n) scope es).Preserves (Machine.MadeOf P) :=
  preserves_madeOf fun _ hm => evaluateAll_preserves (Context.framed_within fuel n) hm scope es

theorem preserves_madeOf_condition (fault : Tag → TypeFault) (condition : Expr) :
    (evaluateCondition (.within fuel n) scope fault condition).Preserves (Machine.MadeOf P) :=
  preserves_madeOf fun _ hm => evaluateCondition_preserves
    (Context.framed_within fuel n) hm scope fault condition

theorem preserves_madeOf_count (count : Expr) :
    (evaluateCount (.within fuel n) scope count).Preserves (Machine.MadeOf P) :=
  preserves_madeOf fun _ hm => evaluateCount_preserves
    (Context.framed_within fuel n) hm scope count

theorem preserves_madeOf_items (list : Expr) :
    (evaluateItems (.within fuel n) scope list).Preserves (Machine.MadeOf P) :=
  preserves_madeOf fun _ hm => evaluateItems_preserves (Context.framed_within fuel n) hm scope list

end

section

variable (fuel n : Nat)

mutual

/-- A statement stores only procedures that are defined in it. -/
theorem preserves_madeOf_execute : ∀ (s : Stmt) (scope : ScopeId), s.MadeOf P →
    (execute (.within fuel n) s scope).Preserves (Machine.MadeOf P)
  | .procedure name params body, scope, h => by
      unfold execute
      refine preserves_bind (fun m hm => ?_) fun _ => preserves_pure _
      refine hm.define (fun p hp => ?_) _ _ _ _
      injection hp with hp
      subst hp
      exact h.block (by rw [Stmt.parts]; exact List.subset_cons_self _ _)
  | .assign target value, scope, h => by
      unfold execute
      refine preserves_bind (preserves_madeOf_evaluate fuel n scope value)
        fun result => preserves_bind (fun m hm => ?_) fun _ => preserves_pure _
      exact ⟨hm.rooted.changed (Scopes.assign_changedOnly _ _ _ _),
        fun p hp => hm.stored p hp.of_assign⟩
  | .ifThen condition thenBlock, scope, h => by
      unfold execute
      refine preserves_bind (preserves_madeOf_condition fuel n scope _ condition) fun holds => ?_
      have hthen : Block.MadeOf P thenBlock :=
        h.block (by rw [Stmt.parts]; exact List.subset_cons_self _ _)
      cases holds with
      | true =>
          exact preserves_madeOf_inChild fun id => preserves_madeOf_executeBlock thenBlock id hthen
      | false => exact preserves_pure _
  | .ifThenElse condition thenBlock elseBlock, scope, h => by
      unfold execute
      refine preserves_bind (preserves_madeOf_condition fuel n scope _ condition) fun holds => ?_
      have hthen : Block.MadeOf P thenBlock := h.block fun x hx => by simp [Stmt.parts, hx]
      have helse : Block.MadeOf P elseBlock := h.block fun x hx => by simp [Stmt.parts, hx]
      cases holds with
      | true =>
          exact preserves_madeOf_inChild fun id => preserves_madeOf_executeBlock thenBlock id hthen
      | false =>
          exact preserves_madeOf_inChild fun id => preserves_madeOf_executeBlock elseBlock id helse
  | .repeatTimes count body, scope, h => by
      unfold execute
      have hbody : Block.MadeOf P body :=
        h.block (by rw [Stmt.parts]; exact List.subset_cons_self _ _)
      refine preserves_bind (preserves_madeOf_count fuel n scope count) fun rounds => ?_
      exact preserves_repeatTimes (preserves_madeOf_inChild
        fun id => preserves_madeOf_executeBlock body id hbody) rounds
  | .repeatUntil condition body, scope, h => by
      unfold execute
      have hbody : Block.MadeOf P body :=
        h.block (by rw [Stmt.parts]; exact List.subset_cons_self _ _)
      refine preserves_repeatUntil (preserves_madeOf_condition fuel n scope _ condition) ?_ _
      exact preserves_madeOf_inChild fun id => preserves_madeOf_executeBlock body id hbody
  | .forEach item list body, scope, h => by
      unfold execute
      have hbody : Block.MadeOf P body :=
        h.block (by rw [Stmt.parts]; exact List.subset_cons_self _ _)
      refine preserves_bind (preserves_madeOf_items fuel n scope list) fun items => ?_
      refine preserves_forEach (fun value => preserves_madeOf_inChild fun id => ?_) items
      refine preserves_bind (fun m hm => ?_) fun _ => preserves_madeOf_executeBlock body id hbody
      exact hm.define (fun _ hp => Binding.noConfusion hp) _ _ _ _
  | .returns value, scope, h => by
      unfold execute
      exact preserves_bind (preserves_madeOf_evaluate fuel n scope value)
        fun _ => preserves_pure _
  | .expression e, scope, h => by
      unfold execute
      exact preserves_bind (preserves_madeOf_evaluate fuel n scope e)
        fun _ => preserves_pure _

/-- Nor does a block store other procedures than those defined in it. -/
theorem preserves_madeOf_executeBlock : ∀ (block : Block) (scope : ScopeId), Block.MadeOf P block →
    (executeBlock (.within fuel n) block scope).Preserves (Machine.MadeOf P)
  | [], scope, _ => by
      unfold executeBlock
      exact preserves_pure _
  | s :: rest, scope, h => by
      unfold executeBlock
      exact preserves_bind (preserves_madeOf_execute s scope h.head)
        (preserves_continue (preserves_madeOf_executeBlock rest scope h.tail))

end

theorem preserves_madeOf_runRound {body : Block} (h : Block.MadeOf P body) (scope : ScopeId) :
    (runRound (.within fuel n) body scope).Preserves (Machine.MadeOf P) :=
  preserves_madeOf_inChild fun id => preserves_madeOf_executeBlock fuel n body id h

theorem preserves_madeOf_runItem {body : Block} (h : Block.MadeOf P body) (scope : ScopeId)
    (item : Token) (value : Value) :
    (runItem (.within fuel n) item body scope value).Preserves (Machine.MadeOf P) := by
  refine preserves_madeOf_inChild fun id => ?_
  refine preserves_bind (fun m hm => ?_) fun _ => preserves_madeOf_executeBlock fuel n body id h
  exact hm.define (fun _ hp => Binding.noConfusion hp) _ _ _ _

end

/-! ## Moments -/

/-- All tokens of the expressions that a task may come to satisfy `P`. -/
def Task.MadeOf (P : Token → Prop) : Task → Prop
  | .expression e _ => e.MadeOf P
  | .expressions es _ => ∀ e ∈ es, e.MadeOf P
  | .statement s _ => s.MadeOf P
  | .block body _ | .rounds body _ _ | .items _ body _ _ => Block.MadeOf P body
  | .loop condition body _ _ => condition.MadeOf P ∧ Block.MadeOf P body

/-- The task and the machine of a moment are made of such tokens. -/
structure Moment.MadeOf (P : Token → Prop) (w : Moment) : Prop where
  task : w.task.MadeOf P
  machine : w.machine.MadeOf P

theorem Stmt.mem_operands_of_first {s : Stmt} {e : Expr} (h : s.first? = some e) :
    e ∈ s.operands := by
  cases s <;> cases h <;> exact List.mem_singleton_self _

/-- An invariant holds behind a step that succeeds. -/
theorem EvalM.Preserves.of_ok {inv : Machine → Prop} {step : EvalM α} (h : step.Preserves inv)
    {m m' : Machine} {a : α} (hm : inv m) (hstep : step m = .ok a m') : inv m' := by
  rw [← after_of_ok hstep]
  exact h m hm

variable {fuel : Nat} {w w' : Moment}

/-- A part of a task has its expressions from the task or, if it is the body of a procedure, from
the machine. -/
theorem Starts.madeOf (h : Starts fuel w w') (hw : w.MadeOf P) : w'.MadeOf P := by
  obtain ⟨htask, hm⟩ := hw
  cases h with
  | operand | left | inner => exact ⟨htask.part (by simp [Expr.parts, Expr.mem_parts_self]), hm⟩
  | right hleft =>
      refine ⟨htask.part (by simp [Expr.parts, Expr.mem_parts_self]), ?_⟩
      exact (preserves_madeOf_evaluate fuel _ _ _).of_ok hm hleft
  | listItems | arguments => exact ⟨htask.parts (by simp +contextual [Expr.parts]), hm⟩
  | body hlookup _ hvalues _ =>
      -- the one part that does not stand in the task: its statements are those that were stored
      refine ⟨hm.body hlookup, Machine.MadeOf.called ?_ _ _⟩
      exact (preserves_madeOf_evaluateAll fuel _ _ _).of_ok hm hvalues
  | firstExpression => exact ⟨htask _ List.mem_cons_self, hm⟩
  | moreExpressions hfirst =>
      exact ⟨fun e he => htask e (List.mem_cons_of_mem _ he),
        (preserves_madeOf_evaluate fuel _ _ _).of_ok hm hfirst⟩
  | statementOperand hfirst => exact ⟨htask.operand (Stmt.mem_operands_of_first hfirst), hm⟩
  | thenOnly hcondition | thenBlock hcondition | elseBlock hcondition =>
      refine ⟨htask.block fun x hx => by simp [Stmt.parts, hx], Machine.MadeOf.opened ?_ _⟩
      exact (preserves_madeOf_condition fuel _ _ _ _).of_ok hm hcondition
  | rounds hcount =>
      exact ⟨htask.block fun x hx => by simp [Stmt.parts, hx],
        (preserves_madeOf_count fuel _ _ _).of_ok hm hcount⟩
  | loop =>
      exact ⟨⟨htask.operand List.mem_cons_self, htask.block fun x hx => by simp [Stmt.parts, hx]⟩,
        hm⟩
  | items hitems =>
      exact ⟨htask.block fun x hx => by simp [Stmt.parts, hx],
        (preserves_madeOf_items fuel _ _ _).of_ok hm hitems⟩
  | firstStatement => exact ⟨htask.head, hm⟩
  | moreStatements hfirst =>
      exact ⟨htask.tail, (preserves_madeOf_execute fuel _ _ _ htask.head).of_ok hm hfirst⟩
  | round => exact ⟨htask, hm.opened _⟩
  | moreRounds hround => exact ⟨htask, (preserves_madeOf_runRound fuel _ htask _).of_ok hm hround⟩
  | loopCondition => exact ⟨htask.1, hm⟩
  | loopRound hcondition =>
      exact ⟨htask.2, ((preserves_madeOf_condition fuel _ _ _ _).of_ok hm hcondition).opened _⟩
  | moreLoop hcondition hround =>
      have hm' := (preserves_madeOf_condition fuel _ _ _ _).of_ok hm hcondition
      exact ⟨htask, (preserves_madeOf_runRound fuel _ htask.2 _).of_ok hm' hround⟩
  | item => exact ⟨htask, hm.itemized _ _ _⟩
  | moreItems hround =>
      exact ⟨htask, (preserves_madeOf_runItem fuel _ htask _ _ _).of_ok hm hround⟩

/-- **Every expression of a run consists of tokens of the program.** -/
theorem Reaches.madeOf (h : Reaches fuel w w') (hw : w.MadeOf P) : w'.MadeOf P := by
  induction h with
  | refl => exact hw
  | tail _ hstarts ih => exact hstarts.madeOf ih

end Pseudocode
