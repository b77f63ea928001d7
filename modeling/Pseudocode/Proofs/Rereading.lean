import Pseudocode.Proofs.Counterpart
import Pseudocode.Proofs.Reading

/-!
# Reading other tokens of the same kinds

The readers decide everything by the kinds of tokens. If tokens are changed and keep their kinds, a
reading of them takes the same way: it finds the same phrase with the tokens changed, or it is
refused with the same kind of error, and it runs out of fuel where it did before. Unlike the rule
about phrases of the grammar, this says something about lists that are no programs as well.
-/

namespace Pseudocode

theorem Expr.mapTokensAll_eq_map (f : Token → Token) (es : List Expr) :
    Expr.mapTokensAll f es = es.map (Expr.mapTokens f) := by
  induction es with
  | nil => rfl
  | cons e rest ih => rw [Expr.mapTokensAll, ih, List.map_cons]

theorem Block.mapTokens_eq_map (f : Token → Token) (block : Block) :
    Block.mapTokens f block = block.map (Stmt.mapTokens f) := by
  induction block with
  | nil => rfl
  | cons s rest ih => rw [Block.mapTokens, ih, List.map_cons]

/-- Errors with the same code, whatever they point at. -/
def Error.SameKind (e e' : Error) : Prop := e'.kind = e.kind

namespace Reading

open Grammar (KeepsKind)

variable {α β γ δ : Type} {limit : Nat} {closing : Token} {f : Token → Token} {ts : List Token}

/-- `y` is read from the changed tokens the way `x` is read from the tokens themselves, and `g`
tells what becomes of the phrase. -/
def Echoes (f : Token → Token) (g : α → β) (x : Except Halt (α × List Token))
    (y : Except Halt (β × List Token)) : Prop :=
  match x, y with
  | .ok (a, us), .ok (b, vs) => b = g a ∧ vs = us.map f
  | .error halt, .error halt' => Halt.Like Error.SameKind halt halt'
  | _, _ => False

/-- A phrase that is found on both sides, with what is left changed in the same way. -/
theorem echoes_ok {g : α → β} {a : α} {b : β} {us vs : List Token} (hb : b = g a)
    (hvs : vs = us.map f) :
    Echoes f g (.ok (a, us)) (.ok (b, vs)) := ⟨hb, hvs⟩

/-- A refusal on both sides, for errors of the same kind. -/
theorem echoes_error {g : α → β} {e e' : Error} (h : e'.kind = e.kind) :
    Echoes f g (.error (.error e)) (.error (.error e')) := .error h

/-- Readings in two parts echo a change of tokens if both parts do. -/
theorem Echoes.bind {g : α → β} {g' : γ → δ} {x : Except Halt (α × List Token)}
    {y : Except Halt (β × List Token)} {next : α × List Token → Except Halt (γ × List Token)}
    {next' : β × List Token → Except Halt (δ × List Token)} (h : Echoes f g x y)
    (hnext : ∀ a us, Echoes f g' (next (a, us)) (next' (g a, us.map f))) :
    Echoes f g' (x >>= next) (y >>= next') := by
  match x, y with
  | .ok (a, us), .ok (b, vs) =>
      obtain ⟨rfl, rfl⟩ := h
      exact hnext a us
  | .error halt, .error halt' => exact h
  | .ok _, .error _ => exact h.elim
  | .error _, .ok _ => exact h.elim

theorem peek_map (f : Token → Token) (closing : Token) (ts : List Token) :
    peek (f closing) (ts.map f) = f (peek closing ts) := by
  cases ts <;> rfl

/-- The next token is of the same kind after the change. -/
theorem kind_peek_map (hf : KeepsKind f) (closing : Token) (ts : List Token) :
    (peek (f closing) (ts.map f)).kind = (peek closing ts).kind := by
  rw [peek_map]
  exact hf _

/-- A token of a given kind is there on both sides or on neither. -/
theorem echoes_take (hf : KeepsKind f) (kind : Kind) :
    Echoes f f (take closing kind ts) (take (f closing) kind (ts.map f)) := by
  unfold take
  rw [kind_peek_map hf]
  split
  · exact echoes_ok (peek_map f closing ts) List.map_tail.symm
  · exact echoes_error rfl

/-- The limit on nesting is met on both sides or on neither. The spans, which go into the error,
are free. -/
theorem echoes_nested {g : α → β} {span span' : Span}
    {inner : Nat → List Token → Except Halt (α × List Token)}
    {inner' : Nat → List Token → Except Halt (β × List Token)} {depth : Nat} {us : List Token}
    (h : Echoes f g (inner (depth + 1) ts) (inner' (depth + 1) us)) :
    Echoes f g (nested limit span inner depth ts) (nested limit span' inner' depth us) := by
  unfold nested
  split
  · exact h
  · exact echoes_error rfl

/-! ## Expressions -/

/-- The readers of expressions echo a change of tokens. -/
structure ExpressionsEcho (limit : Nat) (closing : Token) (f : Token → Token)
    (fuel : Nat) : Prop where
  expression : ∀ depth ts, Echoes f (Expr.mapTokens f) (expression limit closing fuel depth ts)
    (expression limit (f closing) fuel depth (ts.map f))
  operand : ∀ depth ts, Echoes f (Expr.mapTokens f) (operand limit closing fuel depth ts)
    (operand limit (f closing) fuel depth (ts.map f))
  continuation :
    ∀ left depth ts, Echoes f (Expr.mapTokens f) (continuation limit closing fuel left depth ts)
    (continuation limit (f closing) fuel (left.mapTokens f) depth (ts.map f))
  items : ∀ closer found depth ts, Echoes f (fun x => (Expr.mapTokensAll f x.1, f x.2))
    (items limit closing fuel closer found depth ts)
    (items limit (f closing) fuel closer (Expr.mapTokensAll f found) depth (ts.map f))

/-- The step for operands: they are told apart by the kind of their first token. -/
theorem operand_echoes {fuel : Nat} (hf : KeepsKind f)
    (ih : ExpressionsEcho limit closing f fuel) (depth : Nat) (ts : List Token) :
    Echoes f (Expr.mapTokens f) (operand limit closing (fuel + 1) depth ts)
      (operand limit (f closing) (fuel + 1) depth (ts.map f)) := by
  have hunary : Echoes f (Expr.mapTokens f)
      (expression limit closing fuel depth ts.tail >>=
        fun x => pure (Expr.unary (peek closing ts) x.1, x.2))
      (expression limit (f closing) fuel depth (ts.tail.map f) >>= fun x =>
        pure (Expr.unary (f (peek closing ts)) x.1, x.2)) :=
    (ih.expression depth ts.tail).bind fun x us => echoes_ok rfl rfl
  rw [operand, operand, kind_peek_map hf, peek_map, ← List.map_tail]
  cases (peek closing ts).kind
  case number => exact ih.continuation _ _ _
  case text => exact ih.continuation _ _ _
  case truth => exact ih.continuation _ _ _
  case identifier => exact ih.continuation _ _ _
  case openParen =>
    refine (ih.expression _ _).bind fun inner us => ?_
    refine (echoes_take hf _).bind fun closer vs => ?_
    exact ih.continuation (.group inner) _ _
  case openBracket =>
    exact (ih.items _ [] _ _).bind fun x us =>
      ih.continuation (.list (peek closing ts) x.1 x.2) _ _
  case subtract => exact hunary
  case notWord => exact hunary
  all_goals exact echoes_error rfl

/-- The step for what follows an operand: an operator, or the arguments of a call. -/
theorem continuation_echoes {fuel : Nat} (hf : KeepsKind f)
    (ih : ExpressionsEcho limit closing f fuel) (left : Expr) (depth : Nat) (ts : List Token) :
    Echoes f (Expr.mapTokens f) (continuation limit closing (fuel + 1) left depth ts)
      (continuation limit (f closing) (fuel + 1) (left.mapTokens f) depth (ts.map f)) := by
  unfold continuation
  rw [kind_peek_map hf, peek_map, ← List.map_tail]
  by_cases hbinary : (peek closing ts).kind.isBinaryOperator = true
  · rw [if_pos hbinary, if_pos hbinary]
    exact (ih.expression _ _).bind fun right us =>
      ih.continuation (.binary left (peek closing ts) right) _ _
  · rw [if_neg hbinary, if_neg hbinary]
    -- only a name with a parenthesis behind it is read further
    cases left
    case name callee =>
      rw [Expr.mapTokens]
      cases (peek closing ts).kind
      case openParen =>
          exact (ih.items _ [] _ _).bind fun x us => ih.continuation (.call callee x.1 x.2) _ _
      all_goals exact echoes_ok rfl rfl
    all_goals
      cases (peek closing ts).kind <;> exact echoes_ok rfl rfl

theorem items_echo {fuel : Nat} (hf : KeepsKind f) (ih : ExpressionsEcho limit closing f fuel)
    (closer : Kind) (found : List Expr) (depth : Nat) (ts : List Token) :
    Echoes f (fun x => (Expr.mapTokensAll f x.1, f x.2))
      (items limit closing (fuel + 1) closer found depth ts)
      (items limit (f closing) (fuel + 1) closer (Expr.mapTokensAll f found) depth
        (ts.map f)) := by
  have hdone : ∀ (es : List Expr) (us : List Token),
      Echoes f (fun x : List Expr × Token => (Expr.mapTokensAll f x.1, f x.2))
        (.ok ((es.reverse, peek closing us), us.tail))
        (.ok (((Expr.mapTokensAll f es).reverse, f (peek closing us)), us.tail.map f)) := by
    intro es us
    refine echoes_ok ?_ rfl
    rw [Expr.mapTokensAll_eq_map, Expr.mapTokensAll_eq_map, List.map_reverse]
  rw [items, items, kind_peek_map hf, peek_map, ← List.map_tail]
  by_cases hcloser : (peek closing ts).kind = closer
  · rw [if_pos hcloser, if_pos hcloser]
    exact hdone found ts
  · rw [if_neg hcloser, if_neg hcloser]
    refine (ih.expression _ _).bind fun item us => ?_
    dsimp only
    rw [kind_peek_map hf, peek_map, ← List.map_tail]
    split
    · exact hdone (item :: found) us
    · split
      · exact ih.items closer (item :: found) _ _
      · exact echoes_error rfl

/-- **Reading an expression echoes a change of tokens**, with any fuel. -/
theorem expressions_echo (limit : Nat) (closing : Token) (hf : KeepsKind f) (fuel : Nat) :
    ExpressionsEcho limit closing f fuel := by
  induction fuel with
  | zero =>
      refine ⟨?_, ?_, ?_, ?_⟩
      · intro depth ts
        rw [expression, expression]
        exact .outOfFuel
      · intro depth ts
        rw [operand, operand]
        exact .outOfFuel
      · intro left depth ts
        rw [continuation, continuation]
        exact .outOfFuel
      · intro closer found depth ts
        rw [items, items]
        exact .outOfFuel
  | succ fuel ih =>
      refine ⟨?_, operand_echoes hf ih, continuation_echoes hf ih, items_echo hf ih⟩
      intro depth ts
      rw [expression, expression]
      exact echoes_nested (ih.operand _ _)

/-! ## Statements -/

theorem params_echo (hf : KeepsKind f) (fuel : Nat) (found ts : List Token) :
    Echoes f (List.map f) (params closing fuel found ts)
      (params (f closing) fuel (found.map f) (ts.map f)) := by
  induction fuel generalizing found ts with
  | zero =>
      rw [params, params]
      exact .outOfFuel
  | succ fuel ih =>
      rw [params, params, kind_peek_map hf, peek_map, ← List.map_tail, kind_peek_map hf]
      cases (peek closing ts).kind
      case closeParen => exact echoes_ok (List.map_reverse).symm rfl
      case identifier =>
        cases (peek closing ts.tail).kind
        case closeParen => exact echoes_ok (by simp) List.map_tail.symm
        case comma =>
          dsimp only
          rw [← List.map_tail]
          exact ih (peek closing ts :: found) _
        all_goals exact echoes_error rfl
      all_goals exact echoes_error rfl

/-- The readers of statements echo a change of tokens. -/
structure StatementsEcho (limit : Nat) (closing : Token) (f : Token → Token)
    (fuel : Nat) : Prop where
  statements : ∀ whole found depth ts,
    Echoes f (Block.mapTokens f) (statements limit closing fuel whole found depth ts)
    (statements limit (f closing) fuel whole (Block.mapTokens f found) depth (ts.map f))
  statement : ∀ depth ts, Echoes f (Stmt.mapTokens f) (statement limit closing fuel depth ts)
    (statement limit (f closing) fuel depth (ts.map f))
  conditional : ∀ depth ts, Echoes f (Stmt.mapTokens f) (conditional limit closing fuel depth ts)
    (conditional limit (f closing) fuel depth (ts.map f))
  braced : ∀ depth ts, Echoes f (Block.mapTokens f) (braced limit closing fuel depth ts)
    (braced limit (f closing) fuel depth (ts.map f))

theorem statements_echoes {fuel : Nat} (hf : KeepsKind f)
    (ih : StatementsEcho limit closing f fuel) (whole : Bool) (found : List Stmt) (depth : Nat)
    (ts : List Token) :
    Echoes f (Block.mapTokens f) (statements limit closing (fuel + 1) whole found depth ts)
      (statements limit (f closing) (fuel + 1) whole (Block.mapTokens f found) depth
        (ts.map f)) := by
  have hfound : (Block.mapTokens f found).reverse = Block.mapTokens f found.reverse := by
    rw [Block.mapTokens_eq_map, Block.mapTokens_eq_map, List.map_reverse]
  rw [statements, statements, kind_peek_map hf, peek_map, ← List.map_tail, hfound]
  split
  · split
    · exact echoes_ok rfl rfl
    · exact echoes_error rfl
  · split
    · exact echoes_ok rfl rfl
    · exact (ih.statement _ _).bind fun first us => ih.statements whole (first :: found) _ _

/-- The step for statements: they are told apart by the kinds of their first two tokens. -/
theorem statement_echoes {fuel : Nat} (hf : KeepsKind f)
    (ih : StatementsEcho limit closing f fuel) (depth : Nat) (ts : List Token) :
    Echoes f (Stmt.mapTokens f) (statement limit closing (fuel + 1) depth ts)
      (statement limit (f closing) (fuel + 1) depth (ts.map f)) := by
  have ihe := expressions_echo limit closing hf fuel
  rw [statement, statement, kind_peek_map hf, peek_map, ← List.map_tail, kind_peek_map hf,
    ← List.map_tail]
  cases (peek closing ts).kind
  case procedureWord =>
    refine (echoes_take hf _).bind fun name us => ?_
    refine (echoes_take hf _).bind fun opening us => ?_
    refine (params_echo hf fuel [] us).bind fun params us => ?_
    exact (ih.braced _ _).bind fun body us => echoes_ok rfl rfl
  case ifWord => exact ih.conditional _ _
  case repeatWord =>
    dsimp only
    split
    · refine (ihe.expression _ _).bind fun condition us => ?_
      exact (ih.braced _ _).bind fun body us => echoes_ok rfl rfl
    · refine (ihe.expression _ _).bind fun count us => ?_
      refine (echoes_take hf _).bind fun word us => ?_
      exact (ih.braced _ _).bind fun body us => echoes_ok rfl rfl
  case forWord =>
    refine (echoes_take hf _).bind fun word us => ?_
    refine (echoes_take hf _).bind fun item us => ?_
    refine (echoes_take hf _).bind fun word' us => ?_
    refine (ihe.expression _ _).bind fun list us => ?_
    exact (ih.braced _ _).bind fun body us => echoes_ok rfl rfl
  case returnWord => exact (ihe.expression _ _).bind fun value us => echoes_ok rfl rfl
  case identifier =>
    dsimp only
    split
    · exact (ihe.expression _ _).bind fun value us => echoes_ok rfl rfl
    · exact (ihe.expression _ _).bind fun e us => echoes_ok rfl rfl
  all_goals exact echoes_error rfl

theorem conditional_echoes {fuel : Nat} (hf : KeepsKind f)
    (ih : StatementsEcho limit closing f fuel) (depth : Nat) (ts : List Token) :
    Echoes f (Stmt.mapTokens f) (conditional limit closing (fuel + 1) depth ts)
      (conditional limit (f closing) (fuel + 1) depth (ts.map f)) := by
  rw [conditional, conditional]
  refine (echoes_take hf _).bind fun opening us => ?_
  refine ((expressions_echo limit closing hf fuel).expression _ _).bind fun condition us => ?_
  refine (echoes_take hf _).bind fun closer us => ?_
  refine (ih.braced _ _).bind fun thenBlock us => ?_
  dsimp only
  rw [kind_peek_map hf, ← List.map_tail, kind_peek_map hf, ← List.map_tail]
  split
  · split
    · exact (echoes_nested (ih.conditional _ _)).bind fun inner us => echoes_ok rfl rfl
    · exact (ih.braced _ _).bind fun elseBlock us => echoes_ok rfl rfl
  · exact echoes_ok rfl rfl

/-- **Reading statements echoes a change of tokens**, with any fuel. -/
theorem statements_echo (limit : Nat) (closing : Token) (hf : KeepsKind f) (fuel : Nat) :
    StatementsEcho limit closing f fuel := by
  induction fuel with
  | zero =>
      refine ⟨?_, ?_, ?_, ?_⟩
      · intro whole found depth ts
        rw [statements, statements]
        exact .outOfFuel
      · intro depth ts
        rw [statement, statement]
        exact .outOfFuel
      · intro depth ts
        rw [conditional, conditional]
        exact .outOfFuel
      · intro depth ts
        rw [braced, braced]
        exact .outOfFuel
  | succ fuel ih =>
      refine ⟨statements_echoes hf ih, statement_echoes hf ih, conditional_echoes hf ih, ?_⟩
      intro depth ts
      rw [braced, braced]
      refine (echoes_take hf _).bind fun opening us => ?_
      exact echoes_nested (ih.statements false [] _ _)

end Reading

end Pseudocode
