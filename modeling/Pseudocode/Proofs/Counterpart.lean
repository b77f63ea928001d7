import Pseudocode.Proofs.Lockstep
import Pseudocode.Proofs.Parts
import Pseudocode.Proofs.Replacement

/-!
# Programs that run alike

When do two programs run in lockstep? They need not be equal: evaluation looks at the kinds of
operators, at the texts of names and literals, and at the shape of the program, and the rest goes
into errors only. `Block.Like` says that two programs agree in what evaluation looks at, that an
error which a node of the one raises and the error which its counterpart raises in the same place
are as the comparison wants them, and the same of the procedures they define.

What is wanted of errors, procedures and values differs from one comparison to the next, and is
collected in a `Tolerance`. Whatever it is, programs that are alike run in lockstep
(`inStep_executeProgram`): the proof goes through the evaluator once, for all comparisons. Compared
with itself a program says something as well, namely that all its values are as the tolerance wants
them.

Two differences in shape do no harm: parentheses, and what follows a `RETURN`.
-/

namespace Pseudocode

open Machine (fail ofExcept lookup updateScopes define emit inChild calling)

/-! ## What is compared -/

/-- What is wanted of two runs that are compared: how errors and procedures of the one are related
to those of the other, and which values occur. The operations make no other values out of these. -/
structure Tolerance where
  errors : Error → Error → Prop
  procedures : Procedure → Procedure → Prop
  values : Value → Prop
  number : ∀ x, values (.number x)
  boolean : ∀ b, values (.boolean b)
  null : values .null
  append : ∀ s t, values (.text s) → values (.text t) → values (.text (s ++ t))
  list : ∀ items, values (.list items) ↔ ∀ v ∈ items, values v

/-- Of values nothing is wanted. -/
def Tolerance.anyValue (errors : Error → Error → Prop)
    (procedures : Procedure → Procedure → Prop) : Tolerance where
  errors := errors
  procedures := procedures
  values _ := True
  number _ := trivial
  boolean _ := trivial
  null := trivial
  append _ _ _ _ := trivial
  list _ := ⟨fun _ _ _ => trivial, fun _ => trivial⟩

/-- Errors that two nodes raise in the same place, on the same values. -/
inductive Expr.RaisesBoth : Expr → Expr → Error → Error → Prop where
  | literal {token token' : Token} {e e' : Error} :
      literalValue token = .error e → literalValue token' = .error e' →
      RaisesBoth (.literal token) (.literal token') e e'
  | undefinedName {token token' : Token} :
      RaisesBoth (.name token) (.name token') (.undefinedName token) (.undefinedName token')
  | procedureAsValue {token token' : Token} :
      RaisesBoth (.name token) (.name token') (.procedureAsValue token) (.procedureAsValue token')
  | unaryOperand {operator operator' : Token} {operand operand' : Expr} {found : Tag} :
      RaisesBoth (.unary operator operand) (.unary operator' operand')
        (.typeError (.unaryOperand operator found) (Expr.unary operator operand).span)
        (.typeError (.unaryOperand operator' found) (Expr.unary operator' operand').span)
  | typeMismatch {operator operator' : Token} {left left' right right' : Expr}
      {leftTag rightTag : Tag} :
      RaisesBoth (.binary left operator right) (.binary left' operator' right')
        (.typeMismatch operator leftTag rightTag (Expr.binary left operator right).span)
        (.typeMismatch operator' leftTag rightTag (Expr.binary left' operator' right').span)
  | unsupportedOperator {operator operator' : Token}
      {left left' right right' : Expr} {found : Tag} :
      RaisesBoth (.binary left operator right) (.binary left' operator' right')
        (.unsupportedOperator operator found (Expr.binary left operator right).span)
        (.unsupportedOperator operator' found (Expr.binary left' operator' right').span)
  | undefinedCallee {callee callee' closing closing' : Token} {arguments arguments' : List Expr} :
      RaisesBoth (.call callee arguments closing) (.call callee' arguments' closing')
        (.undefinedName callee) (.undefinedName callee')
  | notCallable {callee callee' closing closing' : Token} {arguments arguments' : List Expr} :
      RaisesBoth (.call callee arguments closing) (.call callee' arguments' closing')
        (.notCallable callee) (.notCallable callee')
  | arityMismatch {callee callee' closing closing' : Token}
      {arguments arguments' : List Expr} {name : String}
      {expected : Nat} :
      RaisesBoth (.call callee arguments closing) (.call callee' arguments' closing')
        (.arityMismatch name expected arguments.length (Expr.call callee arguments closing).span)
        (.arityMismatch name expected arguments.length
          (Expr.call callee' arguments' closing').span)
  | recursionLimit {callee callee' closing closing' : Token} {arguments arguments' : List Expr} :
      RaisesBoth (.call callee arguments closing) (.call callee' arguments' closing')
        (.recursionLimit (Expr.call callee arguments closing).span)
        (.recursionLimit (Expr.call callee' arguments' closing').span)
  | invalidArgument {callee callee' closing closing' : Token} {arguments arguments' : List Expr}
      {argument argument' : Expr} {fault : DisplayFault} :
        (argument, argument') ∈ arguments.zip arguments' →
      RaisesBoth (.call callee arguments closing) (.call callee' arguments' closing')
        (.invalidArgument fault argument.span) (.invalidArgument fault argument'.span)
  | lengthArgument {callee callee' closing closing' : Token} {arguments arguments' : List Expr}
      {argument argument' : Expr} {found : Tag} :
        (argument, argument') ∈ arguments.zip arguments' →
      RaisesBoth (.call callee arguments closing) (.call callee' arguments' closing')
        (.typeError (.lengthArgument found) argument.span)
        (.typeError (.lengthArgument found) argument'.span)

/-- The same for statements: the errors that two of them raise themselves. -/
inductive Stmt.RaisesBoth : Stmt → Stmt → Error → Error → Prop where
  | ifThen {condition condition' : Expr} {thenBlock thenBlock' : Block} {found : Tag} :
      RaisesBoth (.ifThen condition thenBlock) (.ifThen condition' thenBlock')
        (.typeError (.ifCondition found) condition.span)
        (.typeError (.ifCondition found) condition'.span)
  | ifThenElse {condition condition' : Expr}
      {thenBlock thenBlock' elseBlock elseBlock' : Block} {found : Tag} :
      RaisesBoth (.ifThenElse condition thenBlock elseBlock)
        (.ifThenElse condition' thenBlock' elseBlock')
        (.typeError (.ifCondition found) condition.span)
          (.typeError (.ifCondition found) condition'.span)
  | repeatCount {count count' : Expr} {body body' : Block} {found : Tag} :
      RaisesBoth (.repeatTimes count body) (.repeatTimes count' body')
        (.typeError (.repeatCount found) count.span) (.typeError (.repeatCount found) count'.span)
  | untilCondition {condition condition' : Expr} {body body' : Block} {found : Tag} :
      RaisesBoth (.repeatUntil condition body) (.repeatUntil condition' body')
        (.typeError (.untilCondition found) condition.span)
        (.typeError (.untilCondition found) condition'.span)
  | forEachList {item item' : Token} {list list' : Expr} {body body' : Block} {found : Tag} :
      RaisesBoth (.forEach item list body) (.forEach item' list' body')
        (.typeError (.forEachList found) list.span) (.typeError (.forEachList found) list'.span)

/-- The first of the two errors is one that the first node can raise. -/
theorem Expr.RaisesBoth.raises {x x' : Expr} {e e' : Error} (h : x.RaisesBoth x' e e') :
    x.Raises e := by
  cases h with
  | literal h _ => exact .literal h
  | undefinedName => exact .undefinedName
  | procedureAsValue => exact .procedureAsValue
  | unaryOperand => exact .unaryOperand
  | typeMismatch => exact .typeMismatch
  | unsupportedOperator => exact .unsupportedOperator
  | undefinedCallee => exact .undefinedCallee
  | notCallable => exact .notCallable
  | arityMismatch => exact .arityMismatch
  | recursionLimit => exact .recursionLimit
  | invalidArgument h => exact .invalidArgument (List.of_mem_zip h).1
  | lengthArgument h => exact .lengthArgument (List.of_mem_zip h).1

/-- The same for statements. -/
theorem Stmt.RaisesBoth.raises {s s' : Stmt} {e e' : Error} (h : s.RaisesBoth s' e e') :
    s.Raises (.error e) := by
  cases h with
  | ifThen => exact .ifThen
  | ifThenElse => exact .ifThenElse
  | repeatCount => exact .repeatCount
  | untilCondition => exact .untilCondition
  | forEachList => exact .forEachList

/-! ## How runs end -/

/-- Both runs end without a value, and for the same cause. Of errors it is said how they are
related. -/
inductive Halt.Like (errors : Error → Error → Prop) : Halt → Halt → Prop where
  | error {e e' : Error} : errors e e' → Like errors (.error e) (.error e')
  | fault (f : Fault) : Like errors (.fault f) (.fault f)
  | outOfFuel : Like errors .outOfFuel .outOfFuel

/-- The same value, or ends without one for the same cause. -/
inductive Outcome.Agree (errors : Error → Error → Prop) :
    Except Halt (Option Value) → Except Halt (Option Value) → Prop where
  | ok (value : Option Value) : Agree errors (.ok value) (.ok value)
  | error {halt halt' : Halt} : Halt.Like errors halt halt' →
      Agree errors (.error halt) (.error halt')

/-- Runs that display the same lines and then end alike. -/
structure Outcome.Like (errors : Error → Error → Prop) (o o' : Outcome) : Prop where
  output : o'.output = o.output
  result : Outcome.Agree errors o.result o'.result

/-! ## Nodes -/

section Likeness

variable (T : Tolerance)

/-- Two expressions agree in what evaluation looks at, as far as the nodes at their top go. -/
def Expr.Alike : Expr → Expr → Prop
  | .literal token, .literal token' =>
    (token'.kind = token.kind ∧ token'.text = token.text) ∧ ∀ v,
      literalValue token = .ok v → T.values v
  | .name token, .name token' => token'.text = token.text
  | .unary operator _, .unary operator' _ => operator'.kind = operator.kind
  | .binary _ operator _, .binary _ operator' _ => operator'.kind = operator.kind
  | .group _, .group _ => True
  | .list .., .list .. => True
  | .call callee _ _, .call callee' _ _ => callee'.text = callee.text
  | _, _ => False

/-- The same for statements. -/
def Stmt.Alike : Stmt → Stmt → Prop
  | .procedure name params body, .procedure name' params' body' =>
    (name'.text = name.text ∧ params'.map Token.text = params.map Token.text)
      ∧ T.procedures ⟨name, params, body⟩ ⟨name', params', body'⟩
  | .assign target _, .assign target' _ => target'.text = target.text
  | .ifThen .., .ifThen .. => True
  | .ifThenElse .., .ifThenElse .. => True
  | .repeatTimes .., .repeatTimes .. => True
  | .repeatUntil .., .repeatUntil .. => True
  | .forEach item _ _, .forEach item' _ _ => item'.text = item.text
  | .returns _, .returns _ => True
  | .expression _, .expression _ => True
  | _, _ => False

/-- Nodes that are alike and whose errors are as wanted. -/
structure Expr.Node (x x' : Expr) : Prop where
  alike : x.Alike T x'
  errors : ∀ e e', x.RaisesBoth x' e e' → T.errors e e'

/-- Statements that are alike and whose errors are as wanted. -/
structure Stmt.Node (s s' : Stmt) : Prop where
  alike : s.Alike T s'
  errors : ∀ e e', s.RaisesBoth s' e e' → T.errors e e'

/-! ## Programs -/

mutual

/-- Expressions that are alike throughout. On the left there may be parentheses that are missing on
the right. -/
inductive Expr.Like : Expr → Expr → Prop where
  | literal {token token' : Token} : Expr.Node T (.literal token) (.literal token') →
      Like (.literal token) (.literal token')
  | name {token token' : Token} : Expr.Node T (.name token) (.name token') →
      Like (.name token) (.name token')
  | unary {operator operator' : Token} {operand operand' : Expr} :
      Expr.Node T (.unary operator operand) (.unary operator' operand') → Like operand operand' →
      Like (.unary operator operand) (.unary operator' operand')
  | binary {operator operator' : Token} {left left' right right' : Expr} :
      Expr.Node T (.binary left operator right) (.binary left' operator' right') →
      Like left left' → Like right right' →
      Like (.binary left operator right) (.binary left' operator' right')
  | group {inner inner' : Expr} : Like inner inner' → Like (.group inner) (.group inner')
  | ungroup {inner inner' : Expr} : Like inner inner' → Like (.group inner) inner'
  | list {opening opening' closing closing' : Token} {items items' : List Expr} :
      LikeAll items items' →
      Like (.list opening items closing) (.list opening' items' closing')
  | call {callee callee' closing closing' : Token} {arguments arguments' : List Expr} :
      Expr.Node T (.call callee arguments closing) (.call callee' arguments' closing') →
      LikeAll arguments arguments' →
      Like (.call callee arguments closing) (.call callee' arguments' closing')

/-- Expressions that are alike one by one. -/
inductive Expr.LikeAll : List Expr → List Expr → Prop where
  | nil : LikeAll [] []
  | cons {e e' : Expr} {rest rest' : List Expr} :
      Like e e' → LikeAll rest rest' → LikeAll (e :: rest) (e' :: rest')

end

mutual

/-- Statements that are alike throughout, with their expressions and blocks. -/
inductive Stmt.Like : Stmt → Stmt → Prop where
  | procedure {name name' : Token} {params params' : List Token} {body body' : Block} :
      Stmt.Node T (.procedure name params body) (.procedure name' params' body') →
      Block.Like body body' →
      Stmt.Like (.procedure name params body) (.procedure name' params' body')
  | assign {target target' : Token} {value value' : Expr} :
      Stmt.Node T (.assign target value) (.assign target' value') → value.Like T value' →
      Stmt.Like (.assign target value) (.assign target' value')
  | ifThen {condition condition' : Expr} {thenBlock thenBlock' : Block} :
      Stmt.Node T (.ifThen condition thenBlock) (.ifThen condition' thenBlock') →
      condition.Like T condition' →
      Block.Like thenBlock thenBlock' →
      Stmt.Like (.ifThen condition thenBlock) (.ifThen condition' thenBlock')
  | ifThenElse {condition condition' : Expr} {thenBlock thenBlock' elseBlock elseBlock' : Block} :
      Stmt.Node T (.ifThenElse condition thenBlock elseBlock)
        (.ifThenElse condition' thenBlock' elseBlock') →
      condition.Like T condition' → Block.Like thenBlock thenBlock' →
      Block.Like elseBlock elseBlock' →
      Stmt.Like (.ifThenElse condition thenBlock elseBlock)
        (.ifThenElse condition' thenBlock' elseBlock')
  | repeatTimes {count count' : Expr} {body body' : Block} :
      Stmt.Node T (.repeatTimes count body) (.repeatTimes count' body') → count.Like T count' →
      Block.Like body body' →
      Stmt.Like (.repeatTimes count body) (.repeatTimes count' body')
  | repeatUntil {condition condition' : Expr} {body body' : Block} :
      Stmt.Node T (.repeatUntil condition body) (.repeatUntil condition' body') →
      condition.Like T condition' →
      Block.Like body body' →
      Stmt.Like (.repeatUntil condition body) (.repeatUntil condition' body')
  | forEach {item item' : Token} {list list' : Expr} {body body' : Block} :
      Stmt.Node T (.forEach item list body) (.forEach item' list' body') → list.Like T list' →
      Block.Like body body' →
      Stmt.Like (.forEach item list body) (.forEach item' list' body')
  | returns {value value' : Expr} : value.Like T value' →
      Stmt.Like (.returns value) (.returns value')
  | expression {e e' : Expr} : e.Like T e' → Stmt.Like (.expression e) (.expression e')

/-- Blocks whose statements are alike. Behind a `RETURN` anything may follow. -/
inductive Block.Like : List Stmt → List Stmt → Prop where
  | nil : Block.Like [] []
  | cons {s s' : Stmt} {rest rest' : List Stmt} :
      Stmt.Like s s' → Block.Like rest rest' → Block.Like (s :: rest) (s' :: rest')
  | returns {value value' : Expr} {rest rest' : List Stmt} : value.Like T value' →
      Block.Like (.returns value :: rest) (.returns value' :: rest')

end

/-! ## Machines -/

/-- What two runs in lockstep bind a name to. -/
inductive Binding.Like : Binding → Binding → Prop where
  | value {v : Value} : T.values v → Like (.value v) (.value v)
  | procedure {p p' : Procedure} :
      (p'.name.text = p.name.text ∧ p'.params.map Token.text = p.params.map Token.text) →
      T.procedures p p' → Block.Like T p.body p'.body → Like (.procedure p) (.procedure p')
  | builtin (b : Builtin) : Like (.builtin b) (.builtin b)

/-- Two steps in lockstep with the same answer. -/
abbrev EvalM.InStep {α : Type} (x y : EvalM α) (P : α → Prop) : Prop :=
  Relates x y (Machine.Linked (Binding.Like T)) (Halt.Like T.errors) (Same P)

end Likeness

theorem Expr.LikeAll.length_eq {T : Tolerance} {es es' : List Expr} (h : Expr.LikeAll T es es') :
    es'.length = es.length := by
  induction es generalizing es' with
  | nil => cases h; rfl
  | cons e rest ih =>
      cases h with
      | cons _ hrest => rw [List.length_cons, List.length_cons, ih hrest]

/-! ## A program and itself with other tokens -/

/-- A procedure with every token changed. -/
def Procedure.mapTokens (f : Token → Token) (p : Procedure) : Procedure :=
  ⟨f p.name, p.params.map f, Block.mapTokens f p.body⟩

section MapTokens

variable {T : Tolerance} {f : Token → Token}

mutual

/-- An expression is like itself after a change of tokens, if every node in it is. -/
theorem Expr.like_mapTokens : ∀ e : Expr, (∀ x ∈ e.parts, x.Node T (x.mapTokens f)) →
    e.Like T (e.mapTokens f)
  | .literal token, h => .literal (h _ List.mem_cons_self)
  | .name token, h => .name (h _ List.mem_cons_self)
  | .unary operator operand, h => by
      rw [Expr.parts, List.forall_mem_cons] at h
      exact .unary h.1 (operand.like_mapTokens h.2)
  | .binary left operator right, h => by
      rw [Expr.parts, List.forall_mem_cons, List.forall_mem_append] at h
      exact .binary h.1 (left.like_mapTokens h.2.1) (right.like_mapTokens h.2.2)
  | .group inner, h => by
      rw [Expr.parts, List.forall_mem_cons] at h
      exact .group (inner.like_mapTokens h.2)
  | .list opening items closing, h => by
      rw [Expr.parts, List.forall_mem_cons] at h
      exact .list (Expr.likeAll_mapTokens items h.2)
  | .call callee arguments closing, h => by
      rw [Expr.parts, List.forall_mem_cons] at h
      exact .call h.1 (Expr.likeAll_mapTokens arguments h.2)

theorem Expr.likeAll_mapTokens : ∀ es : List Expr,
    (∀ x ∈ Expr.partsAll es, x.Node T (x.mapTokens f)) →
    Expr.LikeAll T es (Expr.mapTokensAll f es)
  | [], _ => .nil
  | e :: rest, h => by
      rw [Expr.partsAll, List.forall_mem_append] at h
      exact .cons (e.like_mapTokens h.1) (Expr.likeAll_mapTokens rest h.2)

end

variable (T f) in
/-- A statement and its expressions, without the statements inside it, are alike after a change of
tokens. -/
def Stmt.Unchanged (s : Stmt) : Prop :=
  s.Node T (s.mapTokens f) ∧ ∀ e ∈ s.operands, ∀ x ∈ e.parts, x.Node T (x.mapTokens f)

theorem Stmt.Unchanged.operand {s : Stmt} {e : Expr} (h : s.Unchanged T f) (he : e ∈ s.operands) :
    e.Like T (e.mapTokens f) :=
  e.like_mapTokens (h.2 e he)

mutual

theorem Stmt.like_mapTokens : ∀ s : Stmt, (∀ x ∈ s.parts, x.Unchanged T f) →
    s.Like T (s.mapTokens f)
  | .procedure name params body, h => by
      rw [Stmt.parts, List.forall_mem_cons] at h
      exact .procedure h.1.1 (Block.like_mapTokens body h.2)
  | .assign target value, h => by
      rw [Stmt.parts, List.forall_mem_singleton] at h
      exact .assign h.1 (h.operand List.mem_cons_self)
  | .ifThen condition thenBlock, h => by
      rw [Stmt.parts, List.forall_mem_cons] at h
      exact .ifThen h.1.1 (h.1.operand List.mem_cons_self) (Block.like_mapTokens thenBlock h.2)
  | .ifThenElse condition thenBlock elseBlock, h => by
      rw [Stmt.parts, List.forall_mem_cons, List.forall_mem_append] at h
      exact .ifThenElse h.1.1 (h.1.operand List.mem_cons_self)
        (Block.like_mapTokens thenBlock h.2.1)
        (Block.like_mapTokens elseBlock h.2.2)
  | .repeatTimes count body, h => by
      rw [Stmt.parts, List.forall_mem_cons] at h
      exact .repeatTimes h.1.1 (h.1.operand List.mem_cons_self) (Block.like_mapTokens body h.2)
  | .repeatUntil condition body, h => by
      rw [Stmt.parts, List.forall_mem_cons] at h
      exact .repeatUntil h.1.1 (h.1.operand List.mem_cons_self) (Block.like_mapTokens body h.2)
  | .forEach item list body, h => by
      rw [Stmt.parts, List.forall_mem_cons] at h
      exact .forEach h.1.1 (h.1.operand List.mem_cons_self) (Block.like_mapTokens body h.2)
  | .returns value, h => by
      rw [Stmt.parts, List.forall_mem_singleton] at h
      exact .returns (h.operand List.mem_cons_self)
  | .expression e, h => by
      rw [Stmt.parts, List.forall_mem_singleton] at h
      exact .expression (h.operand List.mem_cons_self)

/-- A program is like itself after a change of tokens, if that is so of each statement in it. -/
theorem Block.like_mapTokens : ∀ block : List Stmt, (∀ x ∈ Block.parts block, x.Unchanged T f) →
    Block.Like T block (Block.mapTokens f block)
  | [], _ => .nil
  | s :: rest, h => by
      rw [Block.parts, List.forall_mem_append] at h
      exact .cons (s.like_mapTokens h.1) (Block.like_mapTokens rest h.2)

end

end MapTokens

/-! ## Literals and operators -/

open EvalM

variable {T : Tolerance}

/-- Of equal kind and text, two literals have the same value or both none. -/
theorem literalValue_both {token token' : Token}
    (h : token'.kind = token.kind ∧ token'.text = token.text) :
    (∃ v, literalValue token = .ok v ∧ literalValue token' = .ok v)
      ∨ ∃ e e', literalValue token = .error e ∧ literalValue token' = .error e' := by
  unfold literalValue
  rw [h.1, h.2]
  cases token.kind with
  | number =>
      cases Number.read? token.text with
      | none => exact .inr ⟨_, _, rfl, rfl⟩
      | some x => exact .inl ⟨_, rfl, rfl⟩
  | text => exact .inl ⟨_, rfl, rfl⟩
  | truth => exact .inl ⟨_, rfl, rfl⟩
  | _ => exact .inr ⟨_, _, rfl, rfl⟩

/-- Two signs of one kind do the same to a value, or both raise an error. -/
theorem applyUnary_both {operator operator' : Token} {operand operand' : Expr}
    (hkind : operator'.kind = operator.kind) (value : Value) :
    (∃ v, applyUnary (.unary operator operand) operator value = .ok v
        ∧ applyUnary (.unary operator' operand') operator' value = .ok v ∧ T.values v)
      ∨ ∃ e e', applyUnary (.unary operator operand) operator value = .error e
        ∧ applyUnary (.unary operator' operand') operator' value = .error e'
        ∧ (Expr.unary operator operand).RaisesBoth (.unary operator' operand') e e' := by
  unfold applyUnary
  rw [hkind]
  split
  · exact .inl ⟨_, rfl, rfl, T.number _⟩
  · exact .inl ⟨_, rfl, rfl, T.boolean _⟩
  · exact .inr ⟨_, _, rfl, rfl, .unaryOperand⟩

/-- What an operator makes of wanted values is wanted. -/
theorem operation?_values {kind : Kind} {left right value : Value} (hleft : T.values left)
    (hright : T.values right) (h : operation? kind left right = some value) : T.values value := by
  unfold operation? at h
  split at h
  · unfold numberOperation? at h
    split at h <;> cases h <;> first | exact T.number _ | exact T.boolean _
  · unfold textOperation? at h
    split at h <;> cases h <;> first | exact T.append _ _ hleft hright | exact T.boolean _
  · unfold booleanOperation? at h
    split at h <;> cases h <;> exact T.boolean _
  · cases h

/-- Two operators of one kind do the same to two values, or both raise an error. -/
theorem applyBinary_both {operator operator' : Token} {left left' right right' : Expr}
    (hkind : operator'.kind = operator.kind) {x y : Value} (hx : T.values x) (hy : T.values y) :
    (∃ v, applyBinary (.binary left operator right) operator x y = .ok v
        ∧ applyBinary (.binary left' operator' right') operator' x y = .ok v ∧ T.values v)
      ∨ ∃ e e', applyBinary (.binary left operator right) operator x y = .error e
        ∧ applyBinary (.binary left' operator' right') operator' x y = .error e'
        ∧ (Expr.binary left operator right).RaisesBoth (.binary left' operator' right') e e' := by
  unfold applyBinary
  rw [hkind]
  split
  · cases hresult : operation? operator.kind x y with
    | some v => exact .inl ⟨v, rfl, rfl, operation?_values hx hy hresult⟩
    | none => exact .inr ⟨_, _, rfl, rfl, .unsupportedOperator⟩
  · exact .inr ⟨_, _, rfl, rfl, .typeMismatch⟩

/-! ## Calls -/

/-- A builtin is given the same values on both sides. Only the spans differ, and they go into
errors. -/
theorem inStep_respond (b : Builtin) {values : List Value} {es es' : List Expr}
    (hlength : es'.length = es.length)
    (hdisplay : ∀ e e', (e, e') ∈ es.zip es' →
      ∀ fault, T.errors (.invalidArgument fault e.span) (.invalidArgument fault e'.span))
    (hcount : ∀ e e', (e, e') ∈ es.zip es' →
      ∀ found, T.errors (.typeError (.lengthArgument found) e.span)
        (.typeError (.lengthArgument found) e'.span)) :
    InStep T (respond b (List.zipWith Argument.mk values (es.map Expr.span)))
      (respond b (List.zipWith Argument.mk values (es'.map Expr.span))) T.values := by
  have hnone : InStep T (respond b []) (respond b []) T.values := relates_throw (.fault _)
  cases values with
  | nil => exact hnone
  | cons value values =>
      cases es with
      | nil =>
          obtain rfl : es' = [] := List.eq_nil_of_length_eq_zero hlength
          exact hnone
      | cons e es =>
          cases es' with
          | nil => exact nomatch hlength
          | cons e' es' =>
              have hdisplay := hdisplay e e' List.mem_cons_self
              have hcount := hcount e e' List.mem_cons_self
              have hshow : ∀ line,
                  InStep T (do emit line; pure .null) (do emit line; pure .null) T.values :=
                fun line => relates_bind (relates_emit line)
                  fun _ _ _ => relates_pure ⟨rfl, T.null⟩
              cases b with
              | display =>
                  cases value with
                  | list items => exact relates_throw (.error (hdisplay _))
                  | null => exact relates_throw (.error (hdisplay _))
                  | _ => exact hshow _
              | length =>
                  cases value with
                  | text s => exact relates_pure ⟨rfl, T.number _⟩
                  | list items => exact relates_pure ⟨rfl, T.number _⟩
                  | _ => exact relates_throw (.error (hcount _))

/-- A context in which the bodies of procedures that are alike run in lockstep, and assignment
follows the rule of the language. -/
structure Context.InStep (T : Tolerance) (c : Context) : Prop where
  assign : c.assign = Scopes.assign
  invoke : ∀ body body' id, Block.Like T body body' →
    EvalM.InStep T (c.invoke body id) (c.invoke body' id) (Flow.Carries T.values)

variable {c : Context}

/-- Calls of procedures that are alike run in lockstep, up to the limit, where both are refused. -/
theorem inStep_enter (hc : c.InStep T) {p p' : Procedure}
    (hp : Binding.Like T (.procedure p) (.procedure p')) {span span' : Span}
    (hlimit : T.errors (.recursionLimit span) (.recursionLimit span')) {values : List Value}
    (hvalues : ∀ v ∈ values, T.values v) :
    InStep T (enter c p values span) (enter c p' values span') T.values := by
  cases hp with
  | procedure htexts _ hbody =>
      unfold enter
      refine relates_inChild fun id => ?_
      refine relates_bind (relates_bindParams (fun v hv => .value (hvalues v hv)) id htexts.2)
        fun _ _ _ => ?_
      refine relates_bind_same (relates_calling (.error hlimit) (hc.invoke _ _ id hbody))
        fun flow hflow => ?_
      refine relates_pure ⟨rfl, ?_⟩
      cases flow with
      | next => exact T.null
      | returned value => exact hflow value rfl

/-! ## Expressions -/

mutual

/-- **Expressions that are alike are evaluated in lockstep**, by induction on how they are
alike. -/
theorem inStep_evaluate (hc : c.InStep T) (scope : ScopeId) : ∀ {x x' : Expr}, x.Like T x' →
    InStep T (evaluate c scope x) (evaluate c scope x') T.values
  | _, _, .literal h => by
      unfold evaluate
      refine relates_ofExcept ?_
      rcases literalValue_both h.alike.1 with ⟨v, hv, hv'⟩ | ⟨e, e', he, he'⟩
      · exact .inl ⟨v, v, hv, hv', rfl, h.alike.2 v hv⟩
      · exact .inr ⟨e, e', he, he', .error (h.errors e e' (.literal he he'))⟩
  | _, _, .name h => by
      unfold evaluate
      refine relates_bind (relates_lookup h.alike (.error (h.errors _ _ .undefinedName)))
        fun b b' hb => ?_
      cases hb with
      | value hv => exact relates_pure ⟨rfl, hv⟩
      | procedure _ _ _ => exact relates_throw (.error (h.errors _ _ .procedureAsValue))
      | builtin _ => exact relates_throw (.error (h.errors _ _ .procedureAsValue))
  | _, _, .unary h hoperand => by
      unfold evaluate
      refine relates_bind_same (inStep_evaluate hc scope hoperand)
        fun value _ => relates_ofExcept ?_
      rcases applyUnary_both (T := T) h.alike value with ⟨v, hv, hv', hvalue⟩ | ⟨e,
        e', he, he', hboth⟩
      · exact .inl ⟨v, v, hv, hv', rfl, hvalue⟩
      · exact .inr ⟨e, e', he, he', .error (h.errors e e' hboth)⟩
  | _, _, .binary h hleft hright => by
      unfold evaluate
      refine relates_bind_same (inStep_evaluate hc scope hleft) fun x hx => ?_
      refine relates_bind_same (inStep_evaluate hc scope hright) fun y hy => relates_ofExcept ?_
      rcases applyBinary_both h.alike hx hy with ⟨v, hv, hv', hvalue⟩ | ⟨e, e', he, he', hboth⟩
      · exact .inl ⟨v, v, hv, hv', rfl, hvalue⟩
      · exact .inr ⟨e, e', he, he', .error (h.errors e e' hboth)⟩
  | _, _, .group h => by
      unfold evaluate
      exact inStep_evaluate hc scope h
  | _, _, .ungroup h => by
      rw [evaluate]
      exact inStep_evaluate hc scope h
  | _, _, .list h => by
      unfold evaluate
      exact relates_bind_same (inStep_evaluateAll hc scope h) fun values hvalues =>
        relates_pure ⟨rfl, (T.list values).mpr hvalues⟩
  | _, _, @Expr.Like.call _ callee callee' closing closing' arguments arguments' h harguments => by
      have hvalues := inStep_evaluateAll hc scope harguments
      have hlength := harguments.length_eq
      unfold evaluate
      refine relates_bind (relates_lookup h.alike (.error (h.errors _ _ .undefinedCallee)))
        fun b b' hb => ?_
      have harity : ∀ name expected, InStep T
          (checkArity name expected arguments.length (Expr.call callee arguments closing).span)
          (checkArity name expected arguments'.length (Expr.call callee' arguments' closing').span)
            fun _ => True := by
        intro name expected
        rw [hlength]
        exact relates_checkArity (.error (h.errors _ _ .arityMismatch))
      cases hb with
      | value _ => exact relates_throw (.error (h.errors _ _ .notCallable))
      | @procedure p p' htexts hprocedures hbody =>
          have hparams : p'.params.length = p.params.length := by
            simpa using congrArg List.length htexts.2
          dsimp only
          rw [htexts.1, hparams]
          refine relates_bind_same (harity _ _) fun _ _ => ?_
          refine relates_bind_same hvalues fun values hv => ?_
          exact inStep_enter hc (.procedure htexts hprocedures hbody)
            (h.errors _ _ .recursionLimit) hv
      | builtin b =>
          refine relates_bind_same (harity _ _) fun _ _ => ?_
          refine relates_bind_same hvalues fun values _ => ?_
          exact inStep_respond b hlength (fun e e' hmem _ => h.errors _ _ (.invalidArgument hmem))
            fun e e' hmem _ => h.errors _ _ (.lengthArgument hmem)

theorem inStep_evaluateAll (hc : c.InStep T) (scope : ScopeId) :
    ∀ {es es' : List Expr}, Expr.LikeAll T es es' →
    InStep T (evaluateAll c scope es) (evaluateAll c scope es')
      fun values => ∀ v ∈ values, T.values v
  | _, _, .nil => by
      unfold evaluateAll
      exact relates_pure ⟨rfl, fun _ h => absurd h List.not_mem_nil⟩
  | _, _, .cons h hrest => by
      unfold evaluateAll
      refine relates_bind_same (inStep_evaluate hc scope h) fun value hvalue => ?_
      refine relates_bind_same (inStep_evaluateAll hc scope hrest) fun values hvalues => ?_
      exact relates_pure ⟨rfl, List.forall_mem_cons.mpr ⟨hvalue, hvalues⟩⟩

end

theorem inStep_evaluateCondition (hc : c.InStep T) (scope : ScopeId) {fault : Tag → TypeFault}
    {x x' : Expr} (h : x.Like T x')
    (hfault : ∀ found,
      T.errors (.typeError (fault found) x.span) (.typeError (fault found) x'.span)) :
    InStep T (evaluateCondition c scope fault x) (evaluateCondition c scope fault x')
      fun _ => True := by
  refine relates_bind_same (inStep_evaluate hc scope h) fun value _ => ?_
  cases value with
  | boolean b => exact relates_pure ⟨rfl, trivial⟩
  | _ => exact relates_throw (.error (hfault _))

theorem inStep_evaluateCount (hc : c.InStep T) (scope : ScopeId) {x x' : Expr} (h : x.Like T x')
    (hfault : ∀ found, T.errors (.typeError (.repeatCount found) x.span)
      (.typeError (.repeatCount found) x'.span)) :
    InStep T (evaluateCount c scope x) (evaluateCount c scope x') fun _ => True := by
  refine relates_bind_same (inStep_evaluate hc scope h) fun value _ => ?_
  cases value with
  | number b => exact relates_pure ⟨rfl, trivial⟩
  | _ => exact relates_throw (.error (hfault _))

theorem inStep_evaluateItems (hc : c.InStep T) (scope : ScopeId) {x x' : Expr} (h : x.Like T x')
    (hfault : ∀ found, T.errors (.typeError (.forEachList found) x.span)
      (.typeError (.forEachList found) x'.span)) :
    InStep T (evaluateItems c scope x) (evaluateItems c scope x') fun items => ∀ v ∈ items,
      T.values v := by
  refine relates_bind_same (inStep_evaluate hc scope h) fun value hvalue => ?_
  cases value with
  | list items => exact relates_pure ⟨rfl, (T.list items).mp hvalue⟩
  | _ => exact relates_throw (.error (hfault _))

/-! ## Statements -/

mutual

/-- **Statements that are alike run in lockstep.** -/
theorem inStep_execute (hc : c.InStep T) : ∀ {s s' : Stmt}, s.Like T s' → ∀ scope,
    InStep T (execute c s scope) (execute c s' scope) (Flow.Carries T.values)
  | _, _, @Stmt.Like.procedure _ name name' params params' body body' h hbody, scope => by
      have hb :
          Binding.Like T (.procedure ⟨name, params, body⟩) (.procedure ⟨name', params', body'⟩) :=
        .procedure h.alike.1 h.alike.2 hbody
      unfold execute
      exact relates_bind (relates_define hb scope h.alike.1.1) fun _ _ _ => relates_next
  | _, _, @Stmt.Like.assign _ target target' _ _ h hvalue, scope => by
      have htarget : target'.text = target.text := h.alike
      unfold execute
      refine relates_bind_same (inStep_evaluate hc scope hvalue) fun result hresult => ?_
      rw [hc.assign, htarget]
      exact relates_bind (relates_updateScopes
        fun s t hst => hst.assign (.value hresult) scope target.text)
        fun _ _ _ => relates_next
  | _, _, .ifThen h hcondition hthen, scope => by
      unfold execute
      refine relates_bind_same (inStep_evaluateCondition hc scope hcondition
        fun _ => h.errors _ _ .ifThen) fun holds _ => ?_
      cases holds with
      | true => exact relates_inChild fun id => inStep_executeBlock hc hthen id
      | false => exact relates_next
  | _, _, .ifThenElse h hcondition hthen helse, scope => by
      unfold execute
      refine relates_bind_same (inStep_evaluateCondition hc scope hcondition
        fun _ => h.errors _ _ .ifThenElse)
        fun holds _ => ?_
      cases holds with
      | true => exact relates_inChild fun id => inStep_executeBlock hc hthen id
      | false => exact relates_inChild fun id => inStep_executeBlock hc helse id
  | _, _, .repeatTimes h hcount hbody, scope => by
      unfold execute
      refine relates_bind_same (inStep_evaluateCount hc scope hcount
        fun _ => h.errors _ _ .repeatCount) fun rounds _ => ?_
      exact relates_repeatTimes (relates_inChild fun id => inStep_executeBlock hc hbody id) rounds
  | _, _, .repeatUntil h hcondition hbody, scope => by
      unfold execute
      refine relates_repeatUntil .outOfFuel ?_
        (relates_inChild fun id => inStep_executeBlock hc hbody id) c.fuel
      exact inStep_evaluateCondition hc scope hcondition fun _ => h.errors _ _ .untilCondition
  | _, _, .forEach h hlist hbody, scope => by
      unfold execute
      refine relates_bind_same (inStep_evaluateItems hc scope hlist
        fun _ => h.errors _ _ .forEachList)
        fun items hitems => ?_
      refine relates_forEach fun value hvalue => relates_inChild fun id => ?_
      exact relates_bind (relates_define (.value (hitems value hvalue)) id h.alike) fun _ _ _ =>
        inStep_executeBlock hc hbody id
  | _, _, .returns h, scope => by
      unfold execute
      exact relates_bind_same (inStep_evaluate hc scope h)
        fun _ hresult => relates_returned hresult
  | _, _, .expression h, scope => by
      unfold execute
      exact relates_bind_same (inStep_evaluate hc scope h) fun _ _ => relates_next

theorem inStep_executeBlock (hc : c.InStep T) :
    ∀ {block block' : List Stmt}, Block.Like T block block' → ∀ scope,
    InStep T (executeBlock c block scope) (executeBlock c block' scope) (Flow.Carries T.values)
  | _, _, .nil, scope => by
      unfold executeBlock
      exact relates_next
  | _, _, .cons h hrest, scope => by
      unfold executeBlock
      exact relates_bind_same (inStep_execute hc h scope)
        (relates_continue (inStep_executeBlock hc hrest scope))
  | _, _, .returns h, scope => by
      unfold executeBlock execute
      -- the value is returned before the rest is reached
      rw [bind_assoc, bind_assoc]
      exact relates_bind_same (inStep_evaluate hc scope h)
        fun _ hresult => relates_returned hresult

end

/-! ## Layers of calls -/

/-- Every layer of calls runs bodies that are alike in lockstep, by induction on the layers. -/
theorem Context.inStep_layer (T : Tolerance) (fuel layers : Nat) :
    Context.InStep T ⟨runBody Scopes.assign fuel layers, Scopes.assign, fuel⟩ := by
  induction layers with
  | zero => exact ⟨rfl, fun _ _ _ _ => relates_throw .outOfFuel⟩
  | succ layers ih => exact ⟨rfl, fun _ _ id h => inStep_executeBlock ih h id⟩

/-- **Programs that are alike run in lockstep.** On machines that are linked they end with the same
value, or in errors that are as wanted, after the same output, and the machines are linked
again. -/
theorem inStep_executeProgram (fuel : Nat) {program program' : Block}
    (h : Block.Like T program program') :
    InStep T (executeProgram fuel program) (executeProgram fuel program') fun result => ∀ v,
      result = some v → T.values v := by
  have hblock := inStep_executeBlock (Context.inStep_layer T fuel callLimit) h Machine.global
  exact relates_bind_same hblock fun flow hflow => relates_pure ⟨rfl, hflow⟩

/-- A fresh machine holds only builtins, and so is linked with itself in every comparison. -/
theorem Machine.linked_fresh (T : Tolerance) :
    Machine.Linked (Binding.Like T) Machine.fresh Machine.fresh := by
  have hempty : ∀ i name b, Scopes.empty.addRoot.getLocal? i name = some b →
      Binding.Like T b b := by
    intro i name b h
    cases i <;> exact absurd h (by simp [Scopes.getLocal?, Scopes.addRoot, Scopes.empty])
  exact ⟨(Scopes.Linked.refl hempty).install .builtin Machine.global, rfl, rfl⟩

/-- On linked machines, programs that are alike leave linked machines and give answers that
agree. -/
theorem executeProgram_like (fuel : Nat) {program program' : Block}
    (h : Block.Like T program program') {m n : Machine}
    (hlinked : Machine.Linked (Binding.Like T) m n) :
    Machine.Linked (Binding.Like T) ((executeProgram fuel program).after m)
      ((executeProgram fuel program').after n)
      ∧ Outcome.Agree T.errors ((executeProgram fuel program).answer m)
        ((executeProgram fuel program').answer n)
      ∧ ∀ v, (executeProgram fuel program).answer m = .ok (some v) → T.values v := by
  have hrun := inStep_executeProgram fuel h m n hlinked
  unfold after answer
  cases hx : executeProgram fuel program m with
  | ok value m' =>
      cases hy : executeProgram fuel program' n with
      | ok value' n' =>
          rw [hx, hy] at hrun
          obtain ⟨⟨rfl, hvalues⟩, hlinked'⟩ := hrun
          exact ⟨hlinked', .ok _, fun v hv => hvalues v (Except.ok.inj hv)⟩
      | error halt' n' => rw [hx, hy] at hrun; exact hrun.elim
  | error halt m' =>
      cases hy : executeProgram fuel program' n with
      | ok value' n' => rw [hx, hy] at hrun; exact hrun.elim
      | error halt' n' =>
          rw [hx, hy] at hrun
          exact ⟨hrun.2, .error hrun.1, fun v hv => nomatch hv⟩

/-- On fresh machines nothing is to be asked of the stores. -/
theorem Outcome.like_of_program (fuel : Nat) {program program' : Block}
    (h : Block.Like T program program') :
    Outcome.Like T.errors (executeProgram fuel program).outcome
      (executeProgram fuel program').outcome := by
  obtain ⟨hlinked, hagree, -⟩ := executeProgram_like fuel h (Machine.linked_fresh T)
  rw [outcome_eq, outcome_eq]
  exact ⟨hlinked.output, hagree⟩

end Pseudocode
