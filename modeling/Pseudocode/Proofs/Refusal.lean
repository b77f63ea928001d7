import Pseudocode.Proofs.Reading

/-!
# How reading ends

A reading ends in one of two ways. It finds its phrase and leaves the tokens behind it, or it
refuses a token, and then the error names that token. Running out of fuel is neither, so it has to
be shown that the fuel suffices: each of the readers calls the others at most a fixed number of
times before a token is taken, and four steps for each token are always enough. What is left over
after a phrase is therefore measured along the way.
-/

namespace Pseudocode

/-- An error of the grammar that is about this token. -/
inductive Refuses (t : Token) : Error → Prop where
  | unexpectedToken {expected : Expected} : Refuses t (.unexpectedToken expected t)
  | expectedExpression : Refuses t (.expectedExpression t)
  | invalidStatement : Refuses t (.invalidStatement t)
  | unterminatedBlock : Refuses t (.unterminatedBlock t)
  | nestingTooDeep : Refuses t (.nestingTooDeep t.span)

/-- An error about a token points at it. -/
theorem Refuses.span {t : Token} {e : Error} (h : Refuses t e) : e.span = t.span := by
  cases h <;> rfl

namespace Reading

variable {α β : Type} {limit : Nat} {closing : Token} {ts : List Token} {n k : Nat}

/-- At least `n` tokens of `ts` were taken and the rest of them is left, or one of `ts` or the
closing token was refused. -/
def Ends (closing : Token) (ts : List Token) (n : Nat) : Except Halt (α × List Token) → Prop
  | .ok (_, us) => us <:+ ts ∧ us.length + n ≤ ts.length
  | .error (.error e) => ∃ t ∈ closing :: ts, Refuses t e
  | .error _ => False

theorem peek_mem (ts : List Token) : peek closing ts ∈ closing :: ts := by
  cases ts with
  | nil => exact List.mem_cons_self
  | cons t us => exact List.mem_cons_of_mem _ List.mem_cons_self

theorem peek_tail_mem (ts : List Token) : peek closing ts.tail ∈ closing :: ts := by
  cases ts with
  | nil => exact List.mem_cons_self
  | cons t us => exact List.cons_subset_cons _ (List.subset_cons_self t us) (peek_mem us)

theorem ends_refuse {e : Error} {t : Token} (ht : t ∈ closing :: ts) (h : Refuses t e) :
    Ends closing ts n (.error (.error e) : Except Halt (α × List Token)) := ⟨t, ht, h⟩

theorem ends_stop {a : α} : Ends closing ts 0 (.ok (a, ts)) := ⟨List.suffix_refl _, Nat.le_refl _⟩

/-- What ends on the rest of the tokens ends on all of them. -/
theorem Ends.of_suffix {us : List Token} {x : Except Halt (α × List Token)} (hsuffix : us <:+ ts)
    (hlength : us.length + k ≤ ts.length) (h : Ends closing us (n - k) x) :
    Ends closing ts n x := by
  match x with
  | .ok (a, vs) => exact ⟨h.1.trans hsuffix, by have := h.2; omega⟩
  | .error (.error e) =>
      obtain ⟨t, ht, hrefuses⟩ := h
      exact ⟨t, List.cons_subset_cons _ hsuffix.subset ht, hrefuses⟩
  | .error (.fault f) => exact h
  | .error .outOfFuel => exact h

theorem Ends.weaken {x : Except Halt (α × List Token)} (h : Ends closing ts k x) (hle : n ≤ k) :
    Ends closing ts n x := by
  match x with
  | .ok (a, us) => exact ⟨h.1, by have := h.2; omega⟩
  | .error (.error e) => exact h
  | .error (.fault f) => exact h
  | .error .outOfFuel => exact h

/-- What is read in two parts. The second part reads what the first has left. -/
theorem Ends.bind {x : Except Halt (α × List Token)}
    {f : α × List Token → Except Halt (β × List Token)} (hx : Ends closing ts k x)
    (hf : ∀ a us, us.length + k ≤ ts.length → Ends closing us (n - k) (f (a, us))) :
    Ends closing ts n (x >>= f) := by
  match x with
  | .ok (a, us) => exact (hf a us hx.2).of_suffix hx.1 hx.2
  | .error (.error e) => exact hx
  | .error (.fault f) => exact hx
  | .error .outOfFuel => exact hx

/-- A token that is there has been taken before the reading went on. -/
theorem Ends.behind {x : Except Halt (α × List Token)} (hclosing : closing.kind = .endOfInput)
    (hpeek : (peek closing ts).kind ≠ .endOfInput)
    (h : ts.tail.length < ts.length → Ends closing ts.tail (n - 1) x) :
    Ends closing ts n x := by
  cases ts with
  | nil => exact absurd hclosing hpeek
  | cons t us => exact (h (Nat.lt_succ_self _)).of_suffix (List.suffix_cons t us) (Nat.le_refl _)

/-- Taking a token takes one, or refuses it. -/
theorem ends_take {kind : Kind} (hclosing : closing.kind = .endOfInput)
    (hkind : kind ≠ .endOfInput) :
    Ends closing ts 1 (take closing kind ts) := by
  unfold take
  split
  · rename_i hpeek
    exact Ends.behind hclosing (by rw [hpeek]; exact hkind) (fun _ => ends_stop)
  · exact ends_refuse (peek_mem ts) .unexpectedToken

/-- At the limit, the token that opens the level is refused. -/
theorem ends_nested {t : Token} {us : List Token}
    {inner : Nat → List Token → Except Halt (α × List Token)} {depth : Nat}
    (ht : t ∈ closing :: ts) (h : Ends closing ts n (inner (depth + 1) us)) :
    Ends closing ts n (nested limit t.span inner depth us) := by
  unfold nested
  split
  · exact h
  · exact ends_refuse ht .nestingTooDeep

/-! ## Expressions -/

/-- With so much fuel the readers of expressions end, and all but `continuation` take a token. -/
structure ExpressionsEnd (limit : Nat) (closing : Token) (fuel : Nat) : Prop where
  expression : ∀ {depth : Nat} {ts : List Token}, 4 * ts.length + 2 ≤ fuel →
    Ends closing ts 1 (expression limit closing fuel depth ts)
  operand : ∀ {depth : Nat} {ts : List Token}, 4 * ts.length + 1 ≤ fuel →
    Ends closing ts 1 (operand limit closing fuel depth ts)
  continuation : ∀ {left : Expr} {depth : Nat} {ts : List Token}, 4 * ts.length + 1 ≤ fuel →
    Ends closing ts 0 (continuation limit closing fuel left depth ts)
  items : ∀ {closer : Kind} {found : List Expr} {depth : Nat} {ts : List Token},
    closer ≠ .endOfInput →
    4 * ts.length + 3 ≤ fuel → Ends closing ts 1 (items limit closing fuel closer found depth ts)

/-- The step for operands. -/
theorem operand_ends {fuel depth : Nat} (hclosing : closing.kind = .endOfInput)
    (ih : ExpressionsEnd limit closing fuel) (hfuel : 4 * ts.length + 1 ≤ fuel + 1) :
    Ends closing ts 1 (operand limit closing (fuel + 1) depth ts) := by
  rw [operand]
  -- a leaf, and what may go on behind it
  have hleaf : ∀ left, (peek closing ts).kind ≠ .endOfInput →
      Ends closing ts 1 (continuation limit closing fuel left depth ts.tail) := by
    intro left hpeek
    exact Ends.behind hclosing hpeek fun hlt => ih.continuation (by omega)
  have hunary : (peek closing ts).kind ≠ .endOfInput →
      Ends closing ts 1 (expression limit closing fuel depth ts.tail >>= fun x =>
        pure (Expr.unary (peek closing ts) x.1, x.2)) := by
    intro hpeek
    refine Ends.behind hclosing hpeek fun hlt => ?_
    exact (ih.expression (by omega)).bind fun inner us _ => ends_stop
  cases hk : (peek closing ts).kind <;> simp only
  case number => exact hleaf _ (by simp [hk])
  case text => exact hleaf _ (by simp [hk])
  case truth => exact hleaf _ (by simp [hk])
  case identifier => exact hleaf _ (by simp [hk])
  case subtract => exact hunary (by simp [hk])
  case notWord => exact hunary (by simp [hk])
  case openParen =>
    refine Ends.behind hclosing (by simp [hk]) fun hlt => ?_
    refine (ih.expression (by omega)).bind fun inner us hus => ?_
    refine (ends_take hclosing (by decide)).bind fun closer vs hvs => ?_
    exact ih.continuation (by omega)
  case openBracket =>
    refine Ends.behind hclosing (by simp [hk]) fun hlt => ?_
    refine (ih.items (by decide) (by omega)).bind fun items us hus => ?_
    exact ih.continuation (by omega)
  all_goals exact ends_refuse (peek_mem ts) .expectedExpression

theorem continuation_ends {fuel depth : Nat} {left : Expr} (hclosing : closing.kind = .endOfInput)
    (ih : ExpressionsEnd limit closing fuel) (hfuel : 4 * ts.length + 1 ≤ fuel + 1) :
    Ends closing ts 0 (continuation limit closing (fuel + 1) left depth ts) := by
  unfold continuation
  split
  · rename_i hbinary
    have hpeek : (peek closing ts).kind ≠ .endOfInput := by
      intro hend
      rw [hend] at hbinary
      exact absurd hbinary (by decide)
    refine Ends.behind hclosing hpeek fun hlt => ?_
    refine (ih.expression (by omega)).bind fun right us hus => ?_
    exact ih.continuation (by omega)
  · split
    · rename_i callee hopen
      refine Ends.behind hclosing (by rw [hopen]; decide) fun hlt => ?_
      refine (ih.items (by decide) (by omega)).bind fun arguments us hus => ?_
      exact ih.continuation (by omega)
    · exact ends_stop

theorem items_ends {fuel depth : Nat} {closer : Kind} {found : List Expr}
    (hclosing : closing.kind = .endOfInput) (ih : ExpressionsEnd limit closing fuel)
    (hcloser : closer ≠ .endOfInput) (hfuel : 4 * ts.length + 3 ≤ fuel + 1) :
    Ends closing ts 1 (items limit closing (fuel + 1) closer found depth ts) := by
  rw [items]
  split
  · rename_i hlast
    exact Ends.behind hclosing (by rw [hlast]; exact hcloser) fun _ => ends_stop
  · refine (ih.expression (by omega)).bind fun item us hus => ?_
    dsimp only
    split
    · rename_i hlast
      exact Ends.behind hclosing (by rw [hlast]; exact hcloser) fun _ => ends_stop
    · split
      · rename_i hcomma
        refine Ends.behind hclosing (by rw [hcomma]; decide) fun hlt => ?_
        exact (ih.items hcloser (by omega)).weaken (Nat.zero_le _)
      · exact ends_refuse (peek_mem us) .unexpectedToken

/-- **Readers of expressions end**, by induction on the fuel. -/
theorem expressions_end (limit : Nat) (hclosing : closing.kind = .endOfInput) (fuel : Nat) :
    ExpressionsEnd limit closing fuel := by
  induction fuel with
  | zero => constructor <;> intros <;> omega
  | succ fuel ih =>
      refine ⟨?_, operand_ends hclosing ih, continuation_ends hclosing ih, items_ends hclosing ih⟩
      intro depth ts hfuel
      rw [expression]
      exact ends_nested (peek_mem ts) (ih.operand (by omega))

/-! ## Statements -/

theorem params_end (hclosing : closing.kind = .endOfInput) (fuel : Nat) :
    ∀ {found ts : List Token}, 4 * ts.length + 1 ≤ fuel →
      Ends closing ts 1 (params closing fuel found ts) := by
  induction fuel with
  | zero => intros; omega
  | succ fuel ih =>
      intro found ts hfuel
      rw [params]
      cases hk : (peek closing ts).kind <;> simp only
      case closeParen => exact Ends.behind hclosing (by simp [hk]) fun _ => ends_stop
      case identifier =>
        refine Ends.behind hclosing (by simp [hk]) fun hlt => ?_
        cases hk' : (peek closing ts.tail).kind <;> simp only
        case closeParen =>
          exact Ends.behind hclosing (by simp [hk']) fun _ => ends_stop
        case comma =>
          refine Ends.behind hclosing (by simp [hk']) fun hlt' => ?_
          exact (ih (by omega)).weaken (Nat.zero_le _)
        all_goals exact ends_refuse (peek_mem ts.tail) .unexpectedToken
      all_goals exact ends_refuse (peek_mem ts) .unexpectedToken

/-- With so much fuel the readers of statements end. A whole program may be empty. -/
structure StatementsEnd (limit : Nat) (closing : Token) (fuel : Nat) : Prop where
  statements : ∀ {whole : Bool} {found : List Stmt} {depth : Nat} {ts : List Token},
    4 * ts.length + 4 ≤ fuel →
    Ends closing ts 0 (statements limit closing fuel whole found depth ts)
  statement : ∀ {depth : Nat} {ts : List Token}, 4 * ts.length + 3 ≤ fuel →
    Ends closing ts 1 (statement limit closing fuel depth ts)
  conditional : ∀ {depth : Nat} {ts : List Token}, 4 * ts.length + 1 ≤ fuel →
    Ends closing ts 1 (conditional limit closing fuel depth ts)
  braced : ∀ {depth : Nat} {ts : List Token}, 4 * ts.length + 1 ≤ fuel →
    Ends closing ts 1 (braced limit closing fuel depth ts)

theorem statements_end_step {fuel depth : Nat} {whole : Bool} {found : List Stmt}
    (hclosing : closing.kind = .endOfInput) (ih : StatementsEnd limit closing fuel)
    (hfuel : 4 * ts.length + 4 ≤ fuel + 1) :
    Ends closing ts 0 (statements limit closing (fuel + 1) whole found depth ts) := by
  rw [statements]
  split
  · split
    · exact ends_stop
    · exact ends_refuse (peek_mem ts) .unterminatedBlock
  · rename_i hpeek
    split
    · exact Ends.behind hclosing hpeek fun _ => ends_stop
    · refine (ih.statement (by omega)).bind fun first us hus => ?_
      exact ih.statements (by omega)

/-- The step for statements. -/
theorem statement_ends {fuel depth : Nat} (hclosing : closing.kind = .endOfInput)
    (ih : StatementsEnd limit closing fuel) (hfuel : 4 * ts.length + 3 ≤ fuel + 1) :
    Ends closing ts 1 (statement limit closing (fuel + 1) depth ts) := by
  have ihe := expressions_end limit hclosing fuel
  rw [statement]
  cases hk : (peek closing ts).kind <;> simp only
  case procedureWord =>
    refine Ends.behind hclosing (by simp [hk]) fun hlt => ?_
    refine (ends_take hclosing (by decide)).bind fun name us hus => ?_
    refine (ends_take hclosing (by decide)).bind fun opening vs hvs => ?_
    refine (params_end hclosing fuel (by omega)).bind fun params ws hws => ?_
    exact (ih.braced (by omega)).bind fun body xs _ => ends_stop
  case ifWord =>
    refine Ends.behind hclosing (by simp [hk]) fun hlt => ?_
    exact (ih.conditional (by omega)).weaken (Nat.zero_le _)
  case repeatWord =>
    refine Ends.behind hclosing (by simp [hk]) fun hlt => ?_
    split
    · rename_i huntil
      refine Ends.behind hclosing (by simp [huntil]) fun hlt' => ?_
      refine (ihe.expression (by omega)).bind fun condition us hus => ?_
      exact (ih.braced (by omega)).bind fun body vs _ => ends_stop
    · refine (ihe.expression (by omega)).bind fun count us hus => ?_
      refine (ends_take hclosing (by decide)).bind fun word vs hvs => ?_
      exact (ih.braced (by omega)).bind fun body ws _ => ends_stop
  case forWord =>
    refine Ends.behind hclosing (by simp [hk]) fun hlt => ?_
    refine (ends_take hclosing (by decide)).bind fun word us hus => ?_
    refine (ends_take hclosing (by decide)).bind fun item vs hvs => ?_
    refine (ends_take hclosing (by decide)).bind fun word' ws hws => ?_
    refine (ihe.expression (by omega)).bind fun list xs hxs => ?_
    exact (ih.braced (by omega)).bind fun body ys _ => ends_stop
  case returnWord =>
    refine Ends.behind hclosing (by simp [hk]) fun hlt => ?_
    exact (ihe.expression (by omega)).bind fun value us _ => ends_stop
  case identifier =>
    split
    · rename_i harrow
      refine Ends.behind hclosing (by simp [hk]) fun hlt => ?_
      refine Ends.behind hclosing (by simp [harrow]) fun hlt' => ?_
      exact (ihe.expression (by omega)).bind fun value us _ => ends_stop
    · -- the name is left for the expression, so no token pays for this call
      exact (ihe.expression (by omega)).bind fun e us _ => ends_stop
  all_goals exact ends_refuse (peek_mem ts) .invalidStatement

theorem conditional_ends {fuel depth : Nat} (hclosing : closing.kind = .endOfInput)
    (ih : StatementsEnd limit closing fuel) (hfuel : 4 * ts.length + 1 ≤ fuel + 1) :
    Ends closing ts 1 (conditional limit closing (fuel + 1) depth ts) := by
  rw [conditional]
  refine (ends_take hclosing (by decide)).bind fun opening us hus => ?_
  refine ((expressions_end limit hclosing fuel).expression (by omega)).bind
    fun condition vs hvs => ?_
  refine (ends_take hclosing (by decide)).bind fun closer ws hws => ?_
  refine (ih.braced (by omega)).bind fun thenBlock xs hxs => ?_
  dsimp only
  split
  · rename_i helse
    split
    · rename_i hif
      -- the error of a chain that is too long names its `IF`
      have hinner :
          Ends closing xs 0 (conditional limit closing fuel (depth + 1) xs.tail.tail) := by
        refine Ends.behind hclosing (by simp [helse]) fun hlt => ?_
        refine Ends.behind hclosing (by simp [hif]) fun hlt' => ?_
        exact (ih.conditional (by omega)).weaken (Nat.zero_le _)
      exact (ends_nested (peek_tail_mem xs) hinner).bind fun inner ys _ => ends_stop
    · refine Ends.behind hclosing (by simp [helse]) fun hlt => ?_
      exact (ih.braced (by omega)).bind fun elseBlock ys _ => ends_stop
  · exact ends_stop

theorem braced_ends {fuel depth : Nat} (hclosing : closing.kind = .endOfInput)
    (ih : StatementsEnd limit closing fuel) (hfuel : 4 * ts.length + 1 ≤ fuel + 1) :
    Ends closing ts 1 (braced limit closing (fuel + 1) depth ts) := by
  rw [braced, take]
  split
  · rename_i hopening
    -- the error of a block that is nested too deeply names its brace, which has been taken by then
    refine ends_nested (peek_mem ts) ?_
    exact Ends.behind hclosing (by simp [hopening]) fun hlt => ih.statements (by omega)
  · exact ends_refuse (peek_mem ts) .unexpectedToken

/-- **Readers of statements end**, by induction on the fuel. -/
theorem statements_end (limit : Nat) (hclosing : closing.kind = .endOfInput) (fuel : Nat) :
    StatementsEnd limit closing fuel := by
  induction fuel with
  | zero => constructor <;> intros <;> omega
  | succ fuel ih =>
      exact ⟨statements_end_step hclosing ih, statement_ends hclosing ih,
        conditional_ends hclosing ih, braced_ends hclosing ih⟩

end Reading

/-- Closed tokens are a program, or one of the significant ones among them or the last is
refused. -/
theorem refuses_of_parseTokens {body : List Token} {last : Token} {halt : Halt}
    (hlast : last.kind = .endOfInput) (h : parseTokens (body ++ [last]) = .error halt) :
    ∃ e t, halt = .error e ∧ t ∈ last :: significant body ∧ Refuses t e := by
  rw [parseTokens_eq_read body hlast] at h
  have hlength : (significant body).length ≤ body.length := List.length_filter_le _ _
  have hends : Reading.Ends last (significant body) 0
      (Reading.statements nestingLimit last (4 * (body.length + 1) + 8) true [] 0
        (significant body)) :=
    (Reading.statements_end nestingLimit hlast _).statements (by omega)
  revert h hends
  cases Reading.statements nestingLimit last (4 * (body.length + 1) + 8) true [] 0
    (significant body) with
  | ok x => exact fun h => absurd h (by simp [Except.map])
  | error halt' =>
      intro h hends
      injection h with h
      subst h
      match halt', hends with
      | .error e, ⟨t, ht, hrefuses⟩ => exact ⟨e, t, rfl, ht, hrefuses⟩

end Pseudocode
