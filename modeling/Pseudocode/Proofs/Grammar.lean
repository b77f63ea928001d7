import Pseudocode.Program

/-!
# The grammar of programs

Which lists of significant tokens are programs, and which program each of them is. There is one
relation for each phrase of the language; it holds between the tokens of the phrase and what the
phrase means. Tokens are put one behind the other and nothing is looked ahead at, so the relations
say nothing of how a phrase is found.

Nesting is not part of the grammar. How deeply a phrase is nested is read off what it means: the
depth of a phrase is the number of levels below the one it stands on. A block in braces, an
`ELSE IF`, and an expression each open a level; inside an expression so do a right operand, the
operand of a sign or a negation, what stands between parentheses, an item and an argument.
-/

namespace Pseudocode

/-! ## Depth -/

mutual

/-- How many levels an expression opens below its own. -/
def Expr.depth : Expr → Nat
  | .literal _ | .name _ => 0
  | .unary _ operand => operand.depth + 1
  | .binary left _ right => max left.depth (right.depth + 1)
  | .group inner => inner.depth + 1
  | .list _ items _ => Expr.depthAll items
  | .call _ arguments _ => Expr.depthAll arguments

/-- Items, each of which is one level further down. -/
def Expr.depthAll : List Expr → Nat
  | [] => 0
  | e :: rest => max (e.depth + 1) (Expr.depthAll rest)

end

mutual

/-- How many levels a statement opens below its own. -/
def Stmt.depth : Stmt → Nat
  | .procedure _ _ body => Block.depth body + 1
  | .assign _ value => value.depth + 1
  | .ifThen condition thenBlock => max (condition.depth + 1) (Block.depth thenBlock + 1)
  | .ifThenElse condition thenBlock elseBlock =>
    max (condition.depth + 1) (max (Block.depth thenBlock + 1) (Block.depth elseBlock + 1))
  | .repeatTimes count body => max (count.depth + 1) (Block.depth body + 1)
  | .repeatUntil condition body => max (condition.depth + 1) (Block.depth body + 1)
  | .forEach _ list body => max (list.depth + 1) (Block.depth body + 1)
  | .returns value => value.depth + 1
  | .expression e => e.depth + 1

/-- Statements side by side, which stand on one level. -/
def Block.depth : List Stmt → Nat
  | [] => 0
  | s :: rest => max s.depth (Block.depth rest)

end

namespace Grammar

/-! ## Expressions -/

/-- What may stand between two operands. -/
def binaryOperators : List Kind :=
  [.add, .subtract, .multiply, .divide, .modWord, .andWord, .orWord,
    .greater, .less, .equal, .notEqual, .lessEqual, .greaterEqual]

/-- The list has the kinds that the parser goes on for. -/
theorem mem_binaryOperators {k : Kind} : k ∈ binaryOperators ↔ k.isBinaryOperator = true := by
  cases k <;> decide

mutual

/-- An operand, an operand with an operator and a whole expression behind it, or a sign before an
expression. -/
inductive Expression : List Token → Expr → Prop where
  | primary {ws : List Token} {e : Expr} : Primary ws e → Expression ws e
  | binary {ws vs : List Token} {operator : Token} {left right : Expr} :
      Primary ws left → operator.kind ∈ binaryOperators → Expression vs right →
      Expression (ws ++ operator :: vs) (.binary left operator right)
  | unary {ws : List Token} {operator : Token} {operand : Expr} :
      operator.kind = .subtract ∨ operator.kind = .notWord → Expression ws operand →
      Expression (operator :: ws) (.unary operator operand)

/-- A literal, a name, a call, an expression in parentheses, or a list. -/
inductive Primary : List Token → Expr → Prop where
  | literal {t : Token} : t.kind = .number ∨ t.kind = .text ∨ t.kind = .truth →
      Primary [t] (.literal t)
  | name {t : Token} : t.kind = .identifier → Primary [t] (.name t)
  | call {ws : List Token} {callee opening closer : Token} {arguments : List Expr} :
      callee.kind = .identifier → opening.kind = .openParen → Items ws arguments →
      closer.kind = .closeParen →
      Primary (callee :: opening :: (ws ++ [closer])) (.call callee arguments closer)
  | group {ws : List Token} {opening closer : Token} {inner : Expr} :
      opening.kind = .openParen → Expression ws inner → closer.kind = .closeParen →
      Primary (opening :: (ws ++ [closer])) (.group inner)
  | list {ws : List Token} {opening closer : Token} {items : List Expr} :
      opening.kind = .openBracket → Items ws items → closer.kind = .closeBracket →
      Primary (opening :: (ws ++ [closer])) (.list opening items closer)

/-- Expressions between commas. A comma may stand behind the last. -/
inductive Items : List Token → List Expr → Prop where
  | nil : Items [] []
  | one {ws : List Token} {e : Expr} : Expression ws e → Items ws [e]
  | cons {ws vs : List Token} {comma : Token} {e : Expr} {rest : List Expr} :
      Expression ws e → comma.kind = .comma → Items vs rest → Items (ws ++ comma :: vs) (e :: rest)

end

/-! ## Statements -/

/-- Names between commas. A comma may stand behind the last. -/
inductive Params : List Token → List Token → Prop where
  | nil : Params [] []
  | one {t : Token} : t.kind = .identifier → Params [t] [t]
  | cons {t comma : Token} {ws rest : List Token} :
      t.kind = .identifier → comma.kind = .comma → Params ws rest →
      Params (t :: comma :: ws) (t :: rest)

mutual

/-- A statement: a declaration, a branch, a loop, a `RETURN`, an assignment, or an expression that
begins with a name. -/
inductive Statement : List Token → Stmt → Prop where
  | procedure {ps bs params : List Token} {word name opening closer : Token} {body : Block} :
      word.kind = .procedureWord → name.kind = .identifier → opening.kind = .openParen →
      Params ps params →
      closer.kind = .closeParen → Braced bs body →
      Statement (word :: name :: opening :: (ps ++ closer :: bs)) (.procedure name params body)
  | conditional {ws : List Token} {s : Stmt} : Conditional ws s → Statement ws s
  | repeatUntil {es bs : List Token} {word untilWord : Token} {condition : Expr} {body : Block} :
      word.kind = .repeatWord → untilWord.kind = .untilWord → Expression es condition →
      Braced bs body →
      Statement (word :: untilWord :: (es ++ bs)) (.repeatUntil condition body)
  | repeatTimes {es bs : List Token} {word timesWord : Token} {count : Expr} {body : Block} :
      word.kind = .repeatWord → Expression es count → timesWord.kind = .timesWord →
      Braced bs body →
      Statement (word :: (es ++ timesWord :: bs)) (.repeatTimes count body)
  | forEach {es bs : List Token} {word eachWord item inWord : Token} {list : Expr} {body : Block} :
      word.kind = .forWord → eachWord.kind = .eachWord → item.kind = .identifier →
      inWord.kind = .inWord →
      Expression es list → Braced bs body →
      Statement (word :: eachWord :: item :: inWord :: (es ++ bs)) (.forEach item list body)
  | returns {es : List Token} {word : Token} {value : Expr} :
      word.kind = .returnWord → Expression es value → Statement (word :: es) (.returns value)
  | assign {es : List Token} {target arrow : Token} {value : Expr} :
      target.kind = .identifier → arrow.kind = .assign → Expression es value →
      Statement (target :: arrow :: es) (.assign target value)
  | expression {ws : List Token} {first : Token} {e : Expr} :
      first.kind = .identifier → Expression (first :: ws) e →
      Statement (first :: ws) (.expression e)

/-- An `IF` with its block, and what may follow: an else block, or a conditional that stands for
one. -/
inductive Conditional : List Token → Stmt → Prop where
  | ifThen {es bs : List Token} {word opening closer : Token} {condition : Expr}
      {thenBlock : Block} :
      word.kind = .ifWord → opening.kind = .openParen → Expression es condition →
        closer.kind = .closeParen →
      Braced bs thenBlock →
      Conditional (word :: opening :: (es ++ closer :: bs)) (.ifThen condition thenBlock)
  | ifThenElse {es bs vs : List Token} {word opening closer elseWord : Token} {condition : Expr}
      {thenBlock elseBlock : Block} :
      word.kind = .ifWord → opening.kind = .openParen → Expression es condition →
        closer.kind = .closeParen →
      Braced bs thenBlock → elseWord.kind = .elseWord → Braced vs elseBlock →
      Conditional (word :: opening :: (es ++ closer :: (bs ++ elseWord :: vs)))
        (.ifThenElse condition thenBlock elseBlock)
  | elseIf {es bs vs : List Token} {word opening closer elseWord : Token} {condition : Expr}
      {thenBlock : Block}
      {inner : Stmt} :
      word.kind = .ifWord → opening.kind = .openParen → Expression es condition →
        closer.kind = .closeParen →
      Braced bs thenBlock → elseWord.kind = .elseWord → Conditional vs inner →
      Conditional (word :: opening :: (es ++ closer :: (bs ++ elseWord :: vs)))
        (.ifThenElse condition thenBlock [inner])

/-- A block in braces. -/
inductive Braced : List Token → Block → Prop where
  | mk {ws : List Token} {opening closer : Token} {body : Block} :
      opening.kind = .openBrace → Statements ws body → closer.kind = .closeBrace →
      Braced (opening :: (ws ++ [closer])) body

/-- Statements one behind the other. A whole program is of this form. -/
inductive Statements : List Token → Block → Prop where
  | nil : Statements [] []
  | cons {ws vs : List Token} {s : Stmt} {rest : Block} :
      Statement ws s → Statements vs rest → Statements (ws ++ vs) (s :: rest)

end

/-! ## First tokens -/

/-- An expression may begin with such a token. -/
def startsExpression : Kind → Bool
  | .number | .text | .truth | .identifier
  | .openParen | .openBracket | .subtract | .notWord => true
  | _ => false

/-- A statement may begin with such a token. -/
def startsStatement : Kind → Bool
  | .procedureWord | .ifWord | .repeatWord | .forWord | .returnWord | .identifier => true
  | _ => false

/-- A token that begins an expression is not of a kind that begins none. -/
theorem ne_of_startsExpression {j k : Kind} (hj : startsExpression j = true)
    (hk : startsExpression k = false) :
    j ≠ k := by
  rintro rfl
  rw [hk] at hj
  exact Bool.noConfusion hj

theorem ne_of_startsStatement {j k : Kind} (hj : startsStatement j = true)
    (hk : startsStatement k = false) :
    j ≠ k := by
  rintro rfl
  rw [hk] at hj
  exact Bool.noConfusion hj

theorem Primary.starts {ws : List Token} {e : Expr} (h : Primary ws e) :
    ∃ t vs, ws = t :: vs ∧ startsExpression t.kind = true := by
  cases h with
  | @literal t hkind => exact ⟨t, [], rfl, by rcases hkind with hk | hk | hk <;> rw [hk] <;> rfl⟩
  | @name t hkind => exact ⟨t, [], rfl, by rw [hkind]; rfl⟩
  | call hkind _ _ _ => exact ⟨_, _, rfl, by rw [hkind]; rfl⟩
  | group hkind _ _ => exact ⟨_, _, rfl, by rw [hkind]; rfl⟩
  | list hkind _ _ => exact ⟨_, _, rfl, by rw [hkind]; rfl⟩

/-- An expression begins with a token that may begin one. -/
theorem Expression.starts {ws : List Token} {e : Expr} (h : Expression ws e) :
    ∃ t vs, ws = t :: vs ∧ startsExpression t.kind = true := by
  cases h with
  | primary hprimary => exact hprimary.starts
  | binary hprimary _ _ =>
      obtain ⟨t, vs, rfl, hkind⟩ := hprimary.starts
      exact ⟨t, _, rfl, hkind⟩
  | unary hkind _ => exact ⟨_, _, rfl, by rcases hkind with hk | hk <;> rw [hk] <;> rfl⟩

theorem Primary.length_pos {ws : List Token} {e : Expr} (h : Primary ws e) : 0 < ws.length := by
  obtain ⟨t, vs, rfl, -⟩ := h.starts
  exact Nat.succ_pos _

/-- An expression has at least one token. -/
theorem Expression.length_pos {ws : List Token} {e : Expr} (h : Expression ws e) :
    0 < ws.length := by
  obtain ⟨t, vs, rfl, -⟩ := h.starts
  exact Nat.succ_pos _

/-- Behind a name at the start of an expression, only an operator or the arguments of a call can go
on. -/
theorem Primary.second {first t : Token} {vs : List Token} {e : Expr}
    (hfirst : first.kind = .identifier) (h : Primary (first :: t :: vs) e) :
    t.kind = .openParen := by
  generalize hws : first :: t :: vs = ws at h
  cases h with
  | literal _ => exact absurd hws (by simp)
  | name _ => exact absurd hws (by simp)
  | call _ hopening _ _ =>
      injection hws with _ hrest
      injection hrest with ht _
      rw [ht]
      exact hopening
  | group hopening _ _ =>
      injection hws with hhead _
      rw [hhead, hopening] at hfirst
      exact absurd hfirst (by decide)
  | list hopening _ _ =>
      injection hws with hhead _
      rw [hhead, hopening] at hfirst
      exact absurd hfirst (by decide)

/-- The same for whole expressions. -/
theorem Expression.second {first t : Token} {vs : List Token} {e : Expr}
    (hfirst : first.kind = .identifier) (h : Expression (first :: t :: vs) e) :
    t.kind.isBinaryOperator = true ∨ t.kind = .openParen := by
  generalize hws : first :: t :: vs = ws at h
  cases h with
  | primary hprimary =>
      subst hws
      exact .inr (hprimary.second hfirst)
  | @binary ls _ operator _ _ hprimary hoperator _ =>
      obtain ⟨t', ls', rfl, -⟩ := hprimary.starts
      rw [List.cons_append] at hws
      injection hws with hhead hrest
      subst hhead
      cases ls' with
      | nil =>
          injection hrest with ht _
          subst ht
          exact .inl (mem_binaryOperators.mp hoperator)
      | cons t'' ls'' =>
          injection hrest with ht _
          subst ht
          exact .inr (hprimary.second hfirst)
  | unary hkind _ =>
      injection hws with hhead _
      subst hhead
      rw [hfirst] at hkind
      exact absurd hkind (by decide)

theorem Conditional.starts {ws : List Token} {s : Stmt} (h : Conditional ws s) :
    ∃ t vs, ws = t :: vs ∧ t.kind = .ifWord := by
  cases h with
  | ifThen hword _ _ _ _ => exact ⟨_, _, rfl, hword⟩
  | ifThenElse hword _ _ _ _ _ _ => exact ⟨_, _, rfl, hword⟩
  | elseIf hword _ _ _ _ _ _ => exact ⟨_, _, rfl, hword⟩

/-- A statement begins with a token that may begin one. -/
theorem Statement.starts {ws : List Token} {s : Stmt} (h : Statement ws s) :
    ∃ t vs, ws = t :: vs ∧ startsStatement t.kind = true := by
  cases h with
  | procedure hword _ _ _ _ _ => exact ⟨_, _, rfl, by rw [hword]; rfl⟩
  | conditional hconditional =>
      obtain ⟨t, vs, rfl, hword⟩ := hconditional.starts
      exact ⟨t, vs, rfl, by rw [hword]; rfl⟩
  | repeatUntil hword _ _ _ => exact ⟨_, _, rfl, by rw [hword]; rfl⟩
  | repeatTimes hword _ _ _ => exact ⟨_, _, rfl, by rw [hword]; rfl⟩
  | forEach hword _ _ _ _ _ => exact ⟨_, _, rfl, by rw [hword]; rfl⟩
  | returns hword _ => exact ⟨_, _, rfl, by rw [hword]; rfl⟩
  | assign htarget _ _ => exact ⟨_, _, rfl, by rw [htarget]; rfl⟩
  | expression hfirst _ => exact ⟨_, _, rfl, by rw [hfirst]; rfl⟩

end Grammar

end Pseudocode
