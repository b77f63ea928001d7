import Pseudocode.Proofs.Counterpart

/-!
# Parentheses mean nothing

A program keeps the parentheses that it was read with. `Block.ungrouped` takes them all away, also
in the bodies of its procedures, and what is left runs as the program did: the same lines, then the
same value or the same error (`executeProgram_ungrouped`).

The two runs store different procedures, so they are compared as programs that are alike. That
leaves the errors. An error points at the span of an expression, which is put together from the
spans of its parts; it stays as it was because a group has the span of what it encloses.
-/

namespace Pseudocode

/-! ## Taking the parentheses away -/

mutual

/-- The expression with every group replaced by what it encloses. -/
def Expr.ungrouped : Expr → Expr
  | .literal token => .literal token
  | .name token => .name token
  | .unary operator operand => .unary operator operand.ungrouped
  | .binary left operator right => .binary left.ungrouped operator right.ungrouped
  | .group inner => inner.ungrouped
  | .list opening items closing => .list opening (Expr.ungroupedAll items) closing
  | .call callee arguments closing => .call callee (Expr.ungroupedAll arguments) closing

/-- Expressions without their groups. -/
def Expr.ungroupedAll : List Expr → List Expr
  | [] => []
  | e :: rest => e.ungrouped :: Expr.ungroupedAll rest

end

mutual

/-- The statement without the groups of its expressions and blocks. -/
def Stmt.ungrouped : Stmt → Stmt
  | .procedure name params body => .procedure name params (Block.ungrouped body)
  | .assign target value => .assign target value.ungrouped
  | .ifThen condition thenBlock => .ifThen condition.ungrouped (Block.ungrouped thenBlock)
  | .ifThenElse condition thenBlock elseBlock =>
    .ifThenElse condition.ungrouped (Block.ungrouped thenBlock) (Block.ungrouped elseBlock)
  | .repeatTimes count body => .repeatTimes count.ungrouped (Block.ungrouped body)
  | .repeatUntil condition body => .repeatUntil condition.ungrouped (Block.ungrouped body)
  | .forEach item list body => .forEach item list.ungrouped (Block.ungrouped body)
  | .returns value => .returns value.ungrouped
  | .expression e => .expression e.ungrouped

/-- The block without any group, also in the bodies of the procedures it declares. -/
def Block.ungrouped : List Stmt → List Stmt
  | [] => []
  | s :: rest => s.ungrouped :: Block.ungrouped rest

end

/-- Is the expression in parentheses? -/
def Expr.isGroup : Expr → Bool
  | .group _ => true
  | _ => false

/-! ## None is left -/

mutual

/-- No part of what is left is a group. -/
theorem Expr.isGroup_ungrouped : ∀ e : Expr, ∀ x ∈ e.ungrouped.parts, x.isGroup = false
  | .literal _ => List.forall_mem_singleton.mpr rfl
  | .name _ => List.forall_mem_singleton.mpr rfl
  | .unary _ operand => by
      rw [Expr.ungrouped, Expr.parts]
      exact List.forall_mem_cons.mpr ⟨rfl, operand.isGroup_ungrouped⟩
  | .binary left _ right => by
      rw [Expr.ungrouped, Expr.parts]
      exact List.forall_mem_cons.mpr
        ⟨rfl, List.forall_mem_append.mpr ⟨left.isGroup_ungrouped, right.isGroup_ungrouped⟩⟩
  | .group inner => by
      rw [Expr.ungrouped]
      exact inner.isGroup_ungrouped
  | .list _ items _ => by
      rw [Expr.ungrouped, Expr.parts]
      exact List.forall_mem_cons.mpr ⟨rfl, Expr.isGroup_ungroupedAll items⟩
  | .call _ arguments _ => by
      rw [Expr.ungrouped, Expr.parts]
      exact List.forall_mem_cons.mpr ⟨rfl, Expr.isGroup_ungroupedAll arguments⟩

theorem Expr.isGroup_ungroupedAll :
    ∀ es : List Expr, ∀ x ∈ Expr.partsAll (Expr.ungroupedAll es), x.isGroup = false
  | [] => fun _ hx => absurd hx List.not_mem_nil
  | e :: rest => by
      rw [Expr.ungroupedAll, Expr.partsAll]
      exact List.forall_mem_append.mpr ⟨e.isGroup_ungrouped, Expr.isGroup_ungroupedAll rest⟩

end

/-- No expression that the statement itself evaluates has a group in it. -/
def Stmt.Plain (s : Stmt) : Prop := ∀ e ∈ s.operands, ∀ x ∈ e.parts, x.isGroup = false

/-- A statement that evaluates one expression, without its groups. -/
theorem Stmt.plain_of_operands {s : Stmt} {e : Expr}
    (h : s.operands = [e.ungrouped]) : s.Plain := by
  intro e' he'
  rw [h, List.mem_singleton] at he'
  rw [he']
  exact e.isGroup_ungrouped

mutual

theorem Stmt.plain_ungrouped : ∀ s : Stmt, ∀ x ∈ s.ungrouped.parts, x.Plain
  | .procedure name params body => by
      rw [Stmt.ungrouped, Stmt.parts]
      exact List.forall_mem_cons.mpr ⟨fun _ he => absurd he List.not_mem_nil,
        Block.plain_ungrouped body⟩
  | .assign target value => List.forall_mem_singleton.mpr (Stmt.plain_of_operands rfl)
  | .ifThen condition thenBlock => by
      rw [Stmt.ungrouped, Stmt.parts]
      exact List.forall_mem_cons.mpr ⟨Stmt.plain_of_operands rfl, Block.plain_ungrouped thenBlock⟩
  | .ifThenElse condition thenBlock elseBlock => by
      rw [Stmt.ungrouped, Stmt.parts]
      exact List.forall_mem_cons.mpr ⟨Stmt.plain_of_operands rfl,
        List.forall_mem_append.mpr ⟨Block.plain_ungrouped thenBlock,
          Block.plain_ungrouped elseBlock⟩⟩
  | .repeatTimes count body => by
      rw [Stmt.ungrouped, Stmt.parts]
      exact List.forall_mem_cons.mpr ⟨Stmt.plain_of_operands rfl, Block.plain_ungrouped body⟩
  | .repeatUntil condition body => by
      rw [Stmt.ungrouped, Stmt.parts]
      exact List.forall_mem_cons.mpr ⟨Stmt.plain_of_operands rfl, Block.plain_ungrouped body⟩
  | .forEach item list body => by
      rw [Stmt.ungrouped, Stmt.parts]
      exact List.forall_mem_cons.mpr ⟨Stmt.plain_of_operands rfl, Block.plain_ungrouped body⟩
  | .returns value => List.forall_mem_singleton.mpr (Stmt.plain_of_operands rfl)
  | .expression e => List.forall_mem_singleton.mpr (Stmt.plain_of_operands rfl)

/-- Nor is there a group in any statement of what is left. -/
theorem Block.plain_ungrouped : ∀ block : List Stmt,
    ∀ x ∈ Block.parts (Block.ungrouped block), x.Plain
  | [] => fun _ hx => absurd hx List.not_mem_nil
  | s :: rest => by
      rw [Block.ungrouped, Block.parts]
      exact List.forall_mem_append.mpr ⟨s.plain_ungrouped, Block.plain_ungrouped rest⟩

end

/-! ## Errors stay as they were -/

/-- The span stays, since a group has the span of what it encloses. -/
theorem Expr.span_ungrouped (e : Expr) : e.ungrouped.span = e.span := by
  match e with
  | .literal _ => rfl
  | .name _ => rfl
  | .unary _ operand => rw [Expr.ungrouped, Expr.span, Expr.span, operand.span_ungrouped]
  | .binary left _ right =>
      rw [Expr.ungrouped, Expr.span, Expr.span, left.span_ungrouped, right.span_ungrouped]
  | .group inner => rw [Expr.ungrouped, Expr.span, inner.span_ungrouped]
  | .list _ _ _ => rfl
  | .call _ _ _ => rfl

theorem eq_of_mem_zip_ungrouped {es : List Expr} {x y : Expr}
    (h : (x, y) ∈ es.zip (Expr.ungroupedAll es)) :
    y = x.ungrouped := by
  induction es with
  | nil => exact absurd h List.not_mem_nil
  | cons e rest ih =>
      rw [Expr.ungroupedAll, List.zip_cons_cons] at h
      rcases List.mem_cons.mp h with h | h
      · injection h with hx hy
        rw [hx, hy]
      · exact ih h

/-- Nothing is wanted but that the errors are equal. -/
def Tolerance.sameErrors : Tolerance := .anyValue (fun e e' => e' = e) fun _ _ => True

/-- At a node that is no group nothing has changed, as far as the evaluator sees it, and its span
is the same. -/
theorem Expr.node_ungrouped {e : Expr} (h : e.isGroup = false) :
    e.Node .sameErrors e.ungrouped := by
  have hspan := e.span_ungrouped
  refine ⟨?_, ?_⟩
  · cases e with
    | literal token => exact ⟨⟨rfl, rfl⟩, fun _ _ => trivial⟩
    | group inner => exact absurd h (by simp [Expr.isGroup])
    | list opening items closing => exact trivial
    | _ => rfl
  · intro error error' hboth
    -- an error comes with a node of the same form on the other side, so that the cases name both
    generalize hx : e.ungrouped = x at hboth hspan
    cases hboth with
    | literal he he' =>
        injection hx with hx
        subst hx
        exact Except.error.inj (he'.symm.trans he)
    | invalidArgument hmem =>
        injection hx with hcallee harguments
        rw [← harguments] at hmem
        rw [eq_of_mem_zip_ungrouped hmem, Expr.span_ungrouped]
        rfl
    | lengthArgument hmem =>
        injection hx with hcallee harguments
        rw [← harguments] at hmem
        rw [eq_of_mem_zip_ungrouped hmem, Expr.span_ungrouped]
        rfl
    | _ =>
        injection hx
        subst_vars
        simp only [hspan, Tolerance.sameErrors, Tolerance.anyValue]

/-! ## The two programs are alike -/

mutual

/-- An expression is like itself without groups, by induction on the expression. -/
theorem Expr.like_ungrouped : ∀ e : Expr, e.Like .sameErrors e.ungrouped
  | .literal _ => .literal (Expr.node_ungrouped rfl)
  | .name _ => .name (Expr.node_ungrouped rfl)
  | .unary _ operand => .unary (Expr.node_ungrouped rfl) operand.like_ungrouped
  | .binary left _ right =>
      .binary (Expr.node_ungrouped rfl) left.like_ungrouped right.like_ungrouped
  | .group inner => .ungroup inner.like_ungrouped
  | .list _ items _ => .list (Expr.likeAll_ungrouped items)
  | .call _ arguments _ => .call (Expr.node_ungrouped rfl) (Expr.likeAll_ungrouped arguments)

theorem Expr.likeAll_ungrouped : ∀ es : List Expr,
    Expr.LikeAll .sameErrors es (Expr.ungroupedAll es)
  | [] => .nil
  | e :: rest => .cons e.like_ungrouped (Expr.likeAll_ungrouped rest)

end

theorem Stmt.node_ungrouped (s : Stmt) : s.Node .sameErrors s.ungrouped := by
  refine ⟨?_, ?_⟩
  · cases s with
    | procedure name params body => exact ⟨⟨rfl, rfl⟩, trivial⟩
    | assign target value => rfl
    | forEach item list body => rfl
    | _ => exact trivial
  · intro error error' hboth
    generalize hx : s.ungrouped = x at hboth
    cases hboth with
    | _ =>
        injection hx
        subst_vars
        simp only [Expr.span_ungrouped, Tolerance.sameErrors, Tolerance.anyValue]

mutual

theorem Stmt.like_ungrouped : ∀ s : Stmt, s.Like .sameErrors s.ungrouped
  | .procedure _ _ body => .procedure (Stmt.node_ungrouped _) (Block.like_ungrouped body)
  | .assign _ value => .assign (Stmt.node_ungrouped _) value.like_ungrouped
  | .ifThen condition thenBlock =>
      .ifThen (Stmt.node_ungrouped _) condition.like_ungrouped (Block.like_ungrouped thenBlock)
  | .ifThenElse condition thenBlock elseBlock =>
      .ifThenElse (Stmt.node_ungrouped _) condition.like_ungrouped (Block.like_ungrouped thenBlock)
        (Block.like_ungrouped elseBlock)
  | .repeatTimes count body =>
      .repeatTimes (Stmt.node_ungrouped _) count.like_ungrouped (Block.like_ungrouped body)
  | .repeatUntil condition body =>
      .repeatUntil (Stmt.node_ungrouped _) condition.like_ungrouped (Block.like_ungrouped body)
  | .forEach _ list body =>
      .forEach (Stmt.node_ungrouped _) list.like_ungrouped (Block.like_ungrouped body)
  | .returns value => .returns value.like_ungrouped
  | .expression e => .expression e.like_ungrouped

/-- A program is like itself without groups. -/
theorem Block.like_ungrouped : ∀ block : List Stmt,
    Block.Like .sameErrors block (Block.ungrouped block)
  | [] => .nil
  | s :: rest => .cons s.like_ungrouped (Block.like_ungrouped rest)

end

/-- Outcomes that are alike, with equal errors, are equal. -/
theorem Outcome.Like.eq {o o' : Outcome}
    (h : Outcome.Like (fun e e' => e' = e) o o') : o' = o := by
  obtain ⟨output, result⟩ := o
  obtain ⟨output', result'⟩ := o'
  obtain ⟨houtput, hresult⟩ := h
  dsimp only at houtput hresult
  subst houtput
  cases hresult with
  | ok value => rfl
  | error hhalt =>
      cases hhalt with
      | error he => rw [he]
      | fault f => rfl
      | outOfFuel => rfl

/-- **Parentheses are transparent.** A program without any of its parentheses, also in procedure
bodies, displays the same lines on a fresh machine and ends with the same value, in the same error
with the same span, or for lack of fuel, however much fuel there is. -/
theorem executeProgram_ungrouped (fuel : Nat) (program : Block) :
    (executeProgram fuel (Block.ungrouped program)).outcome = (executeProgram fuel program).outcome
      ∧ ∀ e ∈ Block.expressions (Block.ungrouped program), e.isGroup = false := by
  refine ⟨(Outcome.like_of_program fuel (Block.like_ungrouped program)).eq, ?_⟩
  intro e he
  obtain ⟨s, hs, he⟩ := List.mem_flatMap.mp he
  obtain ⟨operand, hoperand, he⟩ := List.mem_flatMap.mp he
  exact Block.plain_ungrouped program s hs operand hoperand e he

end Pseudocode
