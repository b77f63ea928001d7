import Pseudocode.Evaluation.Operator

/-!
# The nodes of a program, and what they can raise

A program is a tree of statements and expressions, and whatever happens in a run of it happens at
one of its nodes. `parts` lists the nodes. `Expr.Raises` and `Stmt.Raises` say, for one node, in
which ways evaluation can end at that node when everything below it went well, without saying when
it does.

Where something is to be shown of all failures of a program, it is shown of what each node can
raise. A program all of whose nodes raise only what is allowed is `Confined`, and so are its parts.
-/

namespace Pseudocode

/-! ## The parts of a program -/

mutual

/-- An expression and all expressions inside it. -/
def Expr.parts : Expr → List Expr
  | .literal token => [.literal token]
  | .name token => [.name token]
  | .unary operator operand => .unary operator operand :: operand.parts
  | .binary left operator right => .binary left operator right :: (left.parts ++ right.parts)
  | .group inner => .group inner :: inner.parts
  | .list opening items closing => .list opening items closing :: Expr.partsAll items
  | .call callee arguments closing => .call callee arguments closing :: Expr.partsAll arguments

/-- Expressions and all expressions inside them. -/
def Expr.partsAll : List Expr → List Expr
  | [] => []
  | e :: rest => e.parts ++ Expr.partsAll rest

end

/-- The expressions that a statement itself evaluates. -/
def Stmt.operands : Stmt → List Expr
  | .procedure .. => []
  | .assign _ value => [value]
  | .ifThen condition _ => [condition]
  | .ifThenElse condition _ _ => [condition]
  | .repeatTimes count _ => [count]
  | .repeatUntil condition _ => [condition]
  | .forEach _ list _ => [list]
  | .returns value => [value]
  | .expression e => [e]

mutual

/-- A statement and all statements inside it, those of procedure bodies included. -/
def Stmt.parts : Stmt → List Stmt
  | .procedure name params body => .procedure name params body :: Block.parts body
  | .assign target value => [.assign target value]
  | .ifThen condition thenBlock => .ifThen condition thenBlock :: Block.parts thenBlock
  | .ifThenElse condition thenBlock elseBlock =>
    .ifThenElse condition thenBlock elseBlock :: (Block.parts thenBlock ++ Block.parts elseBlock)
  | .repeatTimes count body => .repeatTimes count body :: Block.parts body
  | .repeatUntil condition body => .repeatUntil condition body :: Block.parts body
  | .forEach item list body => .forEach item list body :: Block.parts body
  | .returns value => [.returns value]
  | .expression e => [.expression e]

/-- All statements of a block, and those inside them. -/
def Block.parts : List Stmt → List Stmt
  | [] => []
  | s :: rest => s.parts ++ Block.parts rest

end

/-- All expressions of a program, wherever they stand. -/
def Block.expressions (block : Block) : List Expr :=
  (Block.parts block).flatMap fun s => s.operands.flatMap Expr.parts

theorem Expr.mem_parts_self (e : Expr) : e ∈ e.parts := by
  cases e <;> exact List.mem_cons_self

theorem Expr.mem_partsAll {x : Expr} {es : List Expr} :
    x ∈ Expr.partsAll es ↔ ∃ e ∈ es, x ∈ e.parts := by
  induction es with
  | nil => simp [Expr.partsAll]
  | cons e rest ih => simp [Expr.partsAll, ih]

mutual

/-- Parts of a part are parts. -/
theorem Expr.parts_subset : ∀ (e : Expr) {x : Expr}, x ∈ e.parts → x.parts ⊆ e.parts
  | .literal token, x, h => by
      obtain rfl := List.mem_singleton.mp h
      exact List.Subset.refl _
  | .name token, x, h => by
      obtain rfl := List.mem_singleton.mp h
      exact List.Subset.refl _
  | .unary operator operand, x, h => by
      rcases List.mem_cons.mp h with rfl | h
      · exact List.Subset.refl _
      · exact fun y hy => List.mem_cons_of_mem _ (operand.parts_subset h hy)
  | .binary left operator right, x, h => by
      rcases List.mem_cons.mp h with rfl | h
      · exact List.Subset.refl _
      rcases List.mem_append.mp h with h | h
      · exact fun y hy => List.mem_cons_of_mem _ (List.mem_append_left _ (left.parts_subset h hy))
      · exact fun y hy => List.mem_cons_of_mem _
          (List.mem_append_right _ (right.parts_subset h hy))
  | .group inner, x, h => by
      rcases List.mem_cons.mp h with rfl | h
      · exact List.Subset.refl _
      · exact fun y hy => List.mem_cons_of_mem _ (inner.parts_subset h hy)
  | .list opening items closing, x, h => by
      rcases List.mem_cons.mp h with rfl | h
      · exact List.Subset.refl _
      · exact fun y hy => List.mem_cons_of_mem _ (Expr.partsAll_subset items h hy)
  | .call callee arguments closing, x, h => by
      rcases List.mem_cons.mp h with rfl | h
      · exact List.Subset.refl _
      · exact fun y hy => List.mem_cons_of_mem _ (Expr.partsAll_subset arguments h hy)

/-- The same for a list of expressions. -/
theorem Expr.partsAll_subset : ∀ (es : List Expr) {x : Expr}, x ∈ Expr.partsAll es →
    x.parts ⊆ Expr.partsAll es
  | [], x, h => absurd h List.not_mem_nil
  | e :: rest, x, h => by
      rcases List.mem_append.mp h with h | h
      · exact fun y hy => List.mem_append_left _ (e.parts_subset h hy)
      · exact fun y hy => List.mem_append_right _ (Expr.partsAll_subset rest h hy)

end

theorem Stmt.mem_parts_self (s : Stmt) : s ∈ s.parts := by
  cases s <;> exact List.mem_cons_self

/-! ## What a node can raise -/

/-- The errors in which the evaluation of an expression can end at the expression itself, when all
its parts have values. -/
inductive Expr.Raises : Expr → Error → Prop where
  | literal {token : Token} {e : Error} : literalValue token = .error e → Raises (.literal token) e
  | undefinedName {token : Token} : Raises (.name token) (.undefinedName token)
  | procedureAsValue {token : Token} : Raises (.name token) (.procedureAsValue token)
  | unaryOperand {operator : Token} {operand : Expr} {found : Tag} :
      Raises (.unary operator operand)
        (.typeError (.unaryOperand operator found) (Expr.unary operator operand).span)
  | typeMismatch {operator : Token} {left right : Expr} {leftTag rightTag : Tag} :
      Raises (.binary left operator right)
        (.typeMismatch operator leftTag rightTag (Expr.binary left operator right).span)
  | unsupportedOperator {operator : Token} {left right : Expr} {found : Tag} :
      Raises (.binary left operator right)
        (.unsupportedOperator operator found (Expr.binary left operator right).span)
  | undefinedCallee {callee closing : Token} {arguments : List Expr} :
      Raises (.call callee arguments closing) (.undefinedName callee)
  | notCallable {callee closing : Token} {arguments : List Expr} :
      Raises (.call callee arguments closing) (.notCallable callee)
  | arityMismatch {callee closing : Token} {arguments : List Expr} {name : String}
      {expected : Nat} :
      Raises (.call callee arguments closing)
        (.arityMismatch name expected arguments.length (Expr.call callee arguments closing).span)
  | recursionLimit {callee closing : Token} {arguments : List Expr} :
      Raises (.call callee arguments closing)
        (.recursionLimit (Expr.call callee arguments closing).span)
  | invalidArgument {callee closing : Token} {arguments : List Expr} {argument : Expr}
      {fault : DisplayFault} :
      argument ∈ arguments →
        Raises (.call callee arguments closing) (.invalidArgument fault argument.span)
  | lengthArgument {callee closing : Token} {arguments : List Expr}
      {argument : Expr} {found : Tag} :
      argument ∈ arguments →
      Raises (.call callee arguments closing) (.typeError (.lengthArgument found) argument.span)

/-- The ways in which a statement can end that are not those of its expressions or of the
statements inside it. -/
inductive Stmt.Raises : Stmt → Halt → Prop where
  | ifThen {condition : Expr} {thenBlock : Block} {found : Tag} :
      Raises (.ifThen condition thenBlock)
        (.error (.typeError (.ifCondition found) condition.span))
  | ifThenElse {condition : Expr} {thenBlock elseBlock : Block} {found : Tag} :
      Raises (.ifThenElse condition thenBlock elseBlock)
        (.error (.typeError (.ifCondition found) condition.span))
  | repeatCount {count : Expr} {body : Block} {found : Tag} :
      Raises (.repeatTimes count body) (.error (.typeError (.repeatCount found) count.span))
  | untilCondition {condition : Expr} {body : Block} {found : Tag} :
      Raises (.repeatUntil condition body)
        (.error (.typeError (.untilCondition found) condition.span))
  | endless {condition : Expr} {body : Block} : Raises (.repeatUntil condition body) .outOfFuel
  | forEachList {item : Token} {list : Expr} {body : Block} {found : Tag} :
      Raises (.forEach item list body) (.error (.typeError (.forEachList found) list.span))

/-- A node of the program can raise this. -/
inductive Block.Raises (block : Block) : Halt → Prop where
  | expression {x : Expr} {e : Error} :
      x ∈ Block.expressions block → x.Raises e → Raises block (.error e)
  | statement {s : Stmt} {halt : Halt} : s ∈ Block.parts block → s.Raises halt → Raises block halt

/-- All that is raised are errors, but for a loop without a bound that the fuel does not last
for. -/
theorem Block.Raises.error_or_endless {program : Block} {halt : Halt}
    (h : Block.Raises program halt) :
    (∃ e, halt = .error e)
      ∨ halt = .outOfFuel ∧ ∃ condition body,
      Stmt.repeatUntil condition body ∈ Block.parts program := by
  cases h with
  | expression _ _ => exact .inl ⟨_, rfl⟩
  | statement hs hraises =>
      cases hraises with
      | endless => exact .inr ⟨rfl, _, _, hs⟩
      | _ => exact .inl ⟨_, rfl⟩

/-! ## Programs that raise only what is allowed -/

section Confined

variable (allowed : Halt → Prop)

/-- No part of the expression raises what is not allowed. -/
def Expr.Confined (e : Expr) : Prop :=
  ∀ x ∈ e.parts, ∀ error, x.Raises error → allowed (.error error)

/-- The statement without the statements inside it. -/
def Stmt.NodeConfined (s : Stmt) : Prop :=
  (∀ halt, s.Raises halt → allowed halt) ∧ ∀ e ∈ s.operands, e.Confined allowed

/-- No part of the statement raises what is not allowed. -/
def Stmt.Confined (s : Stmt) : Prop := ∀ x ∈ s.parts, x.NodeConfined allowed

/-- No statement of the block raises what is not allowed. -/
def Block.Confined (block : Block) : Prop := ∀ x ∈ Block.parts block, x.NodeConfined allowed

end Confined

/-- Every block is confined to what its nodes can raise. -/
theorem Block.confined_raises (block : Block) : Block.Confined (Block.Raises block) block := by
  intro s hs
  refine ⟨fun halt h => .statement hs h, fun e he x hx error h => .expression ?_ h⟩
  exact List.mem_flatMap.mpr ⟨s, hs, List.mem_flatMap.mpr ⟨e, he, hx⟩⟩

variable {allowed : Halt → Prop}

namespace Expr.Confined

/-- The expression itself raises only what is allowed. -/
theorem raises {e : Expr} {error : Error} (h : e.Confined allowed) (he : e.Raises error) :
    allowed (.error error) :=
  h e e.mem_parts_self error he

theorem operand {operator : Token} {operand : Expr}
    (h : (Expr.unary operator operand).Confined allowed) :
    operand.Confined allowed :=
  fun x hx => h x (List.mem_cons_of_mem _ hx)

theorem left {operator : Token} {left right : Expr}
    (h : (Expr.binary left operator right).Confined allowed) :
    left.Confined allowed :=
  fun x hx => h x (List.mem_cons_of_mem _ (List.mem_append_left _ hx))

theorem right {operator : Token} {left right : Expr}
    (h : (Expr.binary left operator right).Confined allowed) :
    right.Confined allowed :=
  fun x hx => h x (List.mem_cons_of_mem _ (List.mem_append_right _ hx))

theorem inner {inner : Expr} (h : (Expr.group inner).Confined allowed) : inner.Confined allowed :=
  fun x hx => h x (List.mem_cons_of_mem _ hx)

theorem items {opening closing : Token} {items : List Expr}
    (h : (Expr.list opening items closing).Confined allowed) :
    ∀ e ∈ items, e.Confined allowed :=
  fun e he x hx => h x (List.mem_cons_of_mem _ (Expr.mem_partsAll.mpr ⟨e, he, hx⟩))

/-- The arguments of a call are confined with it. -/
theorem arguments {callee closing : Token} {arguments : List Expr}
    (h : (Expr.call callee arguments closing).Confined allowed) :
    ∀ e ∈ arguments, e.Confined allowed :=
  fun e he x hx => h x (List.mem_cons_of_mem _ (Expr.mem_partsAll.mpr ⟨e, he, hx⟩))

end Expr.Confined

namespace Stmt.Confined

/-- The statement itself raises only what is allowed. -/
theorem raises {s : Stmt} {halt : Halt} (h : s.Confined allowed)
    (hs : s.Raises halt) : allowed halt :=
  (h s s.mem_parts_self).1 halt hs

/-- What a statement evaluates is confined with it. -/
theorem operand {s : Stmt} {e : Expr} (h : s.Confined allowed) (he : e ∈ s.operands) :
    e.Confined allowed :=
  (h s s.mem_parts_self).2 e he

/-- The statements of a block that stands inside. -/
theorem block {s : Stmt} {block : Block} (h : s.Confined allowed)
    (hsub : ∀ x ∈ Block.parts block, x ∈ s.parts) :
    Block.Confined allowed block :=
  fun x hx => h x (hsub x hx)

end Stmt.Confined

theorem Block.Confined.head {s : Stmt} {rest : Block} (h : Block.Confined allowed (s :: rest)) :
    s.Confined allowed :=
  fun x hx => h x (List.mem_append_left _ hx)

theorem Block.Confined.tail {s : Stmt} {rest : Block} (h : Block.Confined allowed (s :: rest)) :
    Block.Confined allowed rest :=
  fun x hx => h x (List.mem_append_right _ hx)

end Pseudocode
