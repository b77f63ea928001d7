import Pseudocode.Proofs.Refusal

/-!
# Layout has no part in the grammar

Newlines and comments can be taken out of the tokens, and what is read from them stays the same,
whether it is a program or an error. The parser itself never learns of them, for it reads the
significant tokens ahead of it and nothing else (`parseTokens_eq_read`). But it is given fuel by
the number of all tokens, so that with fewer tokens it reads the same list with less fuel.

This makes no difference, because the fuel shows in an answer in one way only. With more of it a
reading that ended otherwise ends the same way (`statements_settle`), and a reading with the fuel
that a parser gives it does end otherwise (`statements_end`).
-/

namespace Pseudocode

namespace Reading

variable {α β : Type} {limit : Nat} {closing : Token} {ts : List Token}

/-! ## More fuel -/

/-- `y` is what `x` is, unless `x` ran out of fuel. -/
def Settles (x y : Except Halt α) : Prop := x = .error .outOfFuel ∨ y = x

theorem Settles.refl (x : Except Halt α) : Settles x x := .inr rfl

/-- In two parts of a reading, either may be the one that ran out of fuel. -/
theorem Settles.bind {x y : Except Halt α} {f g : α → Except Halt β} (h : Settles x y)
    (hnext : ∀ a, Settles (f a) (g a)) :
    Settles (x >>= f) (y >>= g) := by
  rcases h with hfuel | hsame
  · left
    rw [hfuel]
    rfl
  · rw [hsame]
    cases x with
    | ok a => exact hnext a
    | error halt => exact Settles.refl _

theorem settles_nested {span : Span}
    {inner inner' : Nat → List Token → Except Halt (α × List Token)} {depth : Nat}
    (h : Settles (inner (depth + 1) ts) (inner' (depth + 1) ts)) :
    Settles (nested limit span inner depth ts) (nested limit span inner' depth ts) := by
  unfold nested
  by_cases hlimit : depth < limit
  · rw [if_pos hlimit, if_pos hlimit]
    exact h
  · rw [if_neg hlimit, if_neg hlimit]
    exact Settles.refl _

/-! ## Expressions -/

/-- What the readers of expressions answer with some fuel, they answer with more of it. -/
structure ExpressionsSettle (limit : Nat) (closing : Token) (fuel fuel' : Nat) : Prop where
  expression : ∀ depth ts,
    Settles (expression limit closing fuel depth ts) (expression limit closing fuel' depth ts)
  operand : ∀ depth ts,
    Settles (operand limit closing fuel depth ts) (operand limit closing fuel' depth ts)
  continuation : ∀ left depth ts,
    Settles (continuation limit closing fuel left depth ts)
      (continuation limit closing fuel' left depth ts)
  items : ∀ closer found depth ts,
    Settles (items limit closing fuel closer found depth ts)
      (items limit closing fuel' closer found depth ts)

/-- The step for operands. Both sides see the same tokens and so go the same way. -/
theorem operand_settles {fuel fuel' : Nat} (ih : ExpressionsSettle limit closing fuel fuel')
    (depth : Nat) (ts : List Token) :
    Settles (operand limit closing (fuel + 1) depth ts)
      (operand limit closing (fuel' + 1) depth ts) := by
  have hunary : Settles
      (expression limit closing fuel depth ts.tail >>=
        fun x => pure (Expr.unary (peek closing ts) x.1, x.2))
      (expression limit closing fuel' depth ts.tail >>=
        fun x => pure (Expr.unary (peek closing ts) x.1, x.2)) :=
    (ih.expression depth ts.tail).bind fun x => Settles.refl _
  rw [operand, operand]
  cases (peek closing ts).kind
  case number => exact ih.continuation _ _ _
  case text => exact ih.continuation _ _ _
  case truth => exact ih.continuation _ _ _
  case identifier => exact ih.continuation _ _ _
  case openParen =>
    refine (ih.expression _ _).bind fun x => ?_
    refine (Settles.refl _).bind fun y => ?_
    exact ih.continuation _ _ _
  case openBracket => exact (ih.items _ _ _ _).bind fun x => ih.continuation _ _ _
  case subtract => exact hunary
  case notWord => exact hunary
  all_goals exact Settles.refl _

theorem continuation_settles {fuel fuel' : Nat} (ih : ExpressionsSettle limit closing fuel fuel')
    (left : Expr) (depth : Nat) (ts : List Token) :
    Settles (continuation limit closing (fuel + 1) left depth ts)
      (continuation limit closing (fuel' + 1) left depth ts) := by
  unfold continuation
  by_cases hbinary : (peek closing ts).kind.isBinaryOperator = true
  · rw [if_pos hbinary, if_pos hbinary]
    exact (ih.expression _ _).bind fun x => ih.continuation _ _ _
  · rw [if_neg hbinary, if_neg hbinary]
    -- only a name with a parenthesis behind it is read further
    cases left
    case name callee =>
      cases (peek closing ts).kind
      case openParen => exact (ih.items _ _ _ _).bind fun x => ih.continuation _ _ _
      all_goals exact Settles.refl _
    all_goals
      cases (peek closing ts).kind <;> exact Settles.refl _

theorem items_settles {fuel fuel' : Nat} (ih : ExpressionsSettle limit closing fuel fuel')
    (closer : Kind) (found : List Expr) (depth : Nat) (ts : List Token) :
    Settles (items limit closing (fuel + 1) closer found depth ts)
      (items limit closing (fuel' + 1) closer found depth ts) := by
  rw [items, items]
  by_cases hcloser : (peek closing ts).kind = closer
  · rw [if_pos hcloser, if_pos hcloser]
    exact Settles.refl _
  · rw [if_neg hcloser, if_neg hcloser]
    refine (ih.expression _ _).bind fun x => ?_
    dsimp only
    split
    · exact Settles.refl _
    · split
      · exact ih.items _ _ _ _
      · exact Settles.refl _

/-- **Readers of expressions answer with more fuel what they answer with less.** -/
theorem expressions_settle (limit : Nat) (closing : Token) {fuel fuel' : Nat}
    (hle : fuel ≤ fuel') :
    ExpressionsSettle limit closing fuel fuel' := by
  induction fuel generalizing fuel' with
  | zero =>
      refine ⟨?_, ?_, ?_, ?_⟩
      · intro depth ts
        rw [expression]
        exact .inl rfl
      · intro depth ts
        rw [operand]
        exact .inl rfl
      · intro left depth ts
        rw [continuation]
        exact .inl rfl
      · intro closer found depth ts
        rw [items]
        exact .inl rfl
  | succ fuel ih =>
      obtain ⟨fuel', rfl⟩ : ∃ n, fuel' = n + 1 := ⟨fuel' - 1, by omega⟩
      have ih : ExpressionsSettle limit closing fuel fuel' := ih (Nat.le_of_succ_le_succ hle)
      refine ⟨?_, operand_settles ih, continuation_settles ih, items_settles ih⟩
      intro depth ts
      rw [expression, expression]
      exact settles_nested (ih.operand _ _)

/-! ## Statements -/

theorem params_settle (closing : Token) {fuel fuel' : Nat} (hle : fuel ≤ fuel')
    (found ts : List Token) :
    Settles (params closing fuel found ts) (params closing fuel' found ts) := by
  induction fuel generalizing fuel' found ts with
  | zero =>
      rw [params]
      exact .inl rfl
  | succ fuel ih =>
      obtain ⟨fuel', rfl⟩ : ∃ n, fuel' = n + 1 := ⟨fuel' - 1, by omega⟩
      rw [params, params]
      cases (peek closing ts).kind
      case identifier =>
        cases (peek closing ts.tail).kind
        case comma => exact ih (Nat.le_of_succ_le_succ hle) _ _
        all_goals exact Settles.refl _
      all_goals exact Settles.refl _

/-- What the readers of statements answer with some fuel, they answer with more of it. -/
structure StatementsSettle (limit : Nat) (closing : Token) (fuel fuel' : Nat) : Prop where
  statements : ∀ whole found depth ts,
    Settles (statements limit closing fuel whole found depth ts)
      (statements limit closing fuel' whole found depth ts)
  statement : ∀ depth ts,
    Settles (statement limit closing fuel depth ts) (statement limit closing fuel' depth ts)
  conditional : ∀ depth ts,
    Settles (conditional limit closing fuel depth ts) (conditional limit closing fuel' depth ts)
  braced : ∀ depth ts,
    Settles (braced limit closing fuel depth ts) (braced limit closing fuel' depth ts)

theorem statements_settles {fuel fuel' : Nat} (ih : StatementsSettle limit closing fuel fuel')
    (whole : Bool) (found : List Stmt) (depth : Nat) (ts : List Token) :
    Settles (statements limit closing (fuel + 1) whole found depth ts)
      (statements limit closing (fuel' + 1) whole found depth ts) := by
  rw [statements, statements]
  by_cases hend : (peek closing ts).kind = .endOfInput
  · rw [if_pos hend, if_pos hend]
    exact Settles.refl _
  · rw [if_neg hend, if_neg hend]
    split
    · exact Settles.refl _
    · exact (ih.statement _ _).bind fun x => ih.statements _ _ _ _

/-- The step for statements. -/
theorem statement_settles {fuel fuel' : Nat} (hle : fuel ≤ fuel')
    (ih : StatementsSettle limit closing fuel fuel') (depth : Nat) (ts : List Token) :
    Settles (statement limit closing (fuel + 1) depth ts)
      (statement limit closing (fuel' + 1) depth ts) := by
  have ihe := expressions_settle limit closing hle
  rw [statement, statement]
  cases (peek closing ts).kind
  case procedureWord =>
    refine (Settles.refl _).bind fun name => ?_
    refine (Settles.refl _).bind fun opening => ?_
    refine (params_settle closing hle _ _).bind fun params => ?_
    exact (ih.braced _ _).bind fun body => Settles.refl _
  case ifWord => exact ih.conditional _ _
  case repeatWord =>
    dsimp only
    split
    · refine (ihe.expression _ _).bind fun condition => ?_
      exact (ih.braced _ _).bind fun body => Settles.refl _
    · refine (ihe.expression _ _).bind fun count => ?_
      refine (Settles.refl _).bind fun word => ?_
      exact (ih.braced _ _).bind fun body => Settles.refl _
  case forWord =>
    refine (Settles.refl _).bind fun word => ?_
    refine (Settles.refl _).bind fun item => ?_
    refine (Settles.refl _).bind fun word' => ?_
    refine (ihe.expression _ _).bind fun list => ?_
    exact (ih.braced _ _).bind fun body => Settles.refl _
  case returnWord => exact (ihe.expression _ _).bind fun value => Settles.refl _
  case identifier =>
    dsimp only
    split
    · exact (ihe.expression _ _).bind fun value => Settles.refl _
    · exact (ihe.expression _ _).bind fun e => Settles.refl _
  all_goals exact Settles.refl _

theorem conditional_settles {fuel fuel' : Nat} (hle : fuel ≤ fuel')
    (ih : StatementsSettle limit closing fuel fuel') (depth : Nat) (ts : List Token) :
    Settles (conditional limit closing (fuel + 1) depth ts)
      (conditional limit closing (fuel' + 1) depth ts) := by
  rw [conditional, conditional]
  refine (Settles.refl _).bind fun opening => ?_
  refine ((expressions_settle limit closing hle).expression _ _).bind fun condition => ?_
  refine (Settles.refl _).bind fun closer => ?_
  refine (ih.braced _ _).bind fun thenBlock => ?_
  dsimp only
  split
  · split
    · exact (settles_nested (ih.conditional _ _)).bind fun inner => Settles.refl _
    · exact (ih.braced _ _).bind fun elseBlock => Settles.refl _
  · exact Settles.refl _

/-- **Readers of statements answer with more fuel what they answer with less.** -/
theorem statements_settle (limit : Nat) (closing : Token) {fuel fuel' : Nat} (hle : fuel ≤ fuel') :
    StatementsSettle limit closing fuel fuel' := by
  induction fuel generalizing fuel' with
  | zero =>
      refine ⟨?_, ?_, ?_, ?_⟩
      · intro whole found depth ts
        rw [statements]
        exact .inl rfl
      · intro depth ts
        rw [statement]
        exact .inl rfl
      · intro depth ts
        rw [conditional]
        exact .inl rfl
      · intro depth ts
        rw [braced]
        exact .inl rfl
  | succ fuel ih =>
      obtain ⟨fuel', rfl⟩ : ∃ n, fuel' = n + 1 := ⟨fuel' - 1, by omega⟩
      have hle : fuel ≤ fuel' := Nat.le_of_succ_le_succ hle
      have ih : StatementsSettle limit closing fuel fuel' := ih hle
      refine ⟨statements_settles ih, statement_settles hle ih, conditional_settles hle ih, ?_⟩
      intro depth ts
      rw [braced, braced]
      refine (Settles.refl _).bind fun opening => ?_
      exact settles_nested (ih.statements _ _ _ _)

/-! ## Enough fuel -/

/-- A reading that comes to an end has fuel enough. -/
theorem Ends.ne_outOfFuel {n : Nat} {x : Except Halt (α × List Token)} (h : Ends closing ts n x) :
    x ≠ .error .outOfFuel := by
  rintro rfl
  exact h

/-- A reading that has ended is not changed by more fuel. -/
theorem Ends.eq_of_settles {n : Nat} {x y : Except Halt (α × List Token)}
    (h : Ends closing ts n x) (hxy : Settles x y) :
    y = x := by
  rcases hxy with hfuel | hsame
  · exact absurd hfuel h.ne_outOfFuel
  · exact hsame

end Reading

/-! ## Taking out the layout -/

/-- The end of input is significant. -/
theorem significant_concat (body : List Token) {last : Token} (h : last.kind = .endOfInput) :
    significant (body ++ [last]) = significant body ++ [last] := by
  simp [significant, h, Kind.isInsignificant]

theorem significant_significant (ts : List Token) :
    significant (significant ts) = significant ts := by
  simp [significant]

/-- Reading an expression from closed tokens is reading it from the significant ones among them. -/
theorem parseExpression_eq_read (body : List Token) {last : Token} (h : last.kind = .endOfInput) :
    parseExpression (body ++ [last]) =
      (Reading.expression nestingLimit last (4 * (body.length + 1) + 8) 0 (significant body)).map
        Prod.fst := by
  have hagrees :=
    (Parser.expressions_agree last (4 * (body.length + 1) + 8)).expression
      (Parser.shows_ofTokens body h)
  rw [← Parser.fuel_ofTokens body h] at hagrees ⊢
  exact ParseM.answer_eq hagrees

/-- A program is read from the significant tokens as from all of them. -/
theorem parseTokens_significant_body (body : List Token) {last : Token}
    (h : last.kind = .endOfInput) :
    parseTokens (significant body ++ [last]) = parseTokens (body ++ [last]) := by
  have hlength : (significant body).length ≤ body.length := List.length_filter_le _ _
  have hends : Reading.Ends last (significant body) 0 (Reading.statements nestingLimit last
      (4 * ((significant body).length + 1) + 8) true [] 0 (significant body)) :=
    (Reading.statements_end nestingLimit h _).statements (by omega)
  have hle : 4 * ((significant body).length + 1) + 8 ≤ 4 * (body.length + 1) + 8 := by omega
  rw [parseTokens_eq_read _ h, parseTokens_eq_read _ h, significant_significant,
    hends.eq_of_settles ((Reading.statements_settle nestingLimit last hle).statements true [] 0 _)]

/-- So is an expression. -/
theorem parseExpression_significant_body (body : List Token) {last : Token}
    (h : last.kind = .endOfInput) :
    parseExpression (significant body ++ [last]) = parseExpression (body ++ [last]) := by
  have hlength : (significant body).length ≤ body.length := List.length_filter_le _ _
  have hends : Reading.Ends last (significant body) 1 (Reading.expression nestingLimit last
      (4 * ((significant body).length + 1) + 8) 0 (significant body)) :=
    (Reading.expressions_end nestingLimit h _).expression (by omega)
  have hle : 4 * ((significant body).length + 1) + 8 ≤ 4 * (body.length + 1) + 8 := by omega
  rw [parseExpression_eq_read _ h, parseExpression_eq_read _ h, significant_significant,
    hends.eq_of_settles ((Reading.expressions_settle nestingLimit last hle).expression 0 _)]

/--
**Newlines and comments never affect the grammar.**

Of tokens that end with the end of input, the same is read whether or not newlines and comments
stand among them: the same program with the same tokens, or the same error at the same place, and
it is always one of the two. The same holds for a single expression.
-/
theorem parseTokens_significant (ts : List Token)
    (h : ts.getLast?.map Token.kind = some .endOfInput) :
    parseTokens (significant ts) = parseTokens ts
    ∧ parseExpression (significant ts) = parseExpression ts
    ∧ ((∃ program, parseTokens ts = .ok program) ∨ ∃ e, parseTokens ts = .error (.error e)) := by
  obtain ⟨last, hts, hlast⟩ := Option.map_eq_some_iff.mp h
  obtain ⟨body, rfl⟩ := List.getLast?_eq_some_iff.mp hts
  rw [significant_concat body hlast]
  refine ⟨parseTokens_significant_body body hlast, parseExpression_significant_body body hlast, ?_⟩
  cases hparse : parseTokens (body ++ [last]) with
  | ok program => exact .inl ⟨program, rfl⟩
  | error halt =>
      obtain ⟨e, t, rfl, -, -⟩ := refuses_of_parseTokens hlast hparse
      exact .inr ⟨e, rfl⟩

/-- An assignment on three lines, with a comment behind its target. -/
theorem parseTokens_significant_three_lines :
    parseTokens [⟨"x", .identifier, 1⟩, ⟨"←", .assign, 11⟩, ⟨"1", .number, 13⟩, Token.endAt 13] =
      parseTokens [⟨"x", .identifier, 1⟩, ⟨"// é", .comment, 7⟩, ⟨"\n", .newline, 8⟩,
        ⟨"←", .assign, 11⟩, ⟨"\n", .newline, 12⟩, ⟨"1", .number, 13⟩, ⟨"", .newline, 13⟩,
        Token.endAt 13] :=
  (parseTokens_significant [⟨"x", .identifier, 1⟩, ⟨"// é", .comment, 7⟩, ⟨"\n", .newline, 8⟩,
    ⟨"←", .assign, 11⟩, ⟨"\n", .newline, 12⟩, ⟨"1", .number, 13⟩, ⟨"", .newline, 13⟩,
    Token.endAt 13] rfl).1

end Pseudocode
