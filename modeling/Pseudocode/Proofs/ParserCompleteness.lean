import Pseudocode.Proofs.ParserSoundness

/-!
# The parser accepts exactly the grammar

Every phrase of the grammar that is not nested too deeply is read, if what follows it cannot be
mistaken for a part of it. A phrase has no end mark, an expression statement simply stops and the
next statement begins, so completeness has to speak of the token behind the phrase: neither a
binary operator nor an opening parenthesis may follow an expression, and behind a statement there
may be no arrow and no `ELSE` either.

The fuel of a reader counts how far its calls are nested. Four units for each token of the phrase
are enough.

With soundness this makes the parser accept exactly the grammar. And since a reader gives one
answer, no list of tokens means two programs.
-/

namespace Pseudocode

open Grammar

namespace Reading

variable {limit : Nat} {closing : Token}

/-! ## What may follow -/

/-- An expression ends before such tokens. -/
def Stops (closing : Token) (us : List Token) : Prop :=
  (peek closing us).kind.isBinaryOperator = false ∧ (peek closing us).kind ≠ .openParen

/-- A statement ends before such tokens. -/
def Follows (closing : Token) (us : List Token) : Prop :=
  Stops closing us ∧ (peek closing us).kind ≠ .assign ∧ (peek closing us).kind ≠ .elseWord

/-- An expression ends before such a token. -/
theorem stops_cons {t : Token} {us : List Token} (h : t.kind.isBinaryOperator = false)
    (h' : t.kind ≠ .openParen) :
    Stops closing (t :: us) := ⟨h, h'⟩

theorem take_cons {kind : Kind} {t : Token} {us : List Token} (h : t.kind = kind) :
    take closing kind (t :: us) = .ok (t, us) := if_pos h

/-- Below the limit, a level is entered. -/
theorem nested_of_lt {α : Type} {span : Span}
    {inner : Nat → List Token → Except Halt (α × List Token)} {depth : Nat} {ts : List Token}
    (h : depth < limit) : nested limit span inner depth ts = inner (depth + 1) ts := if_pos h

/-! ## Completeness of expressions -/

/-- With this fuel, expressions are read in full. -/
structure ExpressionsComplete (limit : Nat) (closing : Token) (fuel : Nat) : Prop where
  expression : ∀ {depth : Nat} {ws us : List Token} {e : Expr}, Expression ws e →
    Stops closing us →
    depth + 1 + e.depth ≤ limit → 4 * ws.length ≤ fuel →
    expression limit closing fuel depth (ws ++ us) = .ok (e, us)
  operand : ∀ {depth : Nat} {ws us : List Token} {e : Expr}, Expression ws e → Stops closing us →
    depth + e.depth ≤ limit → 4 * ws.length ≤ fuel + 1 →
    operand limit closing fuel depth (ws ++ us) = .ok (e, us)
  binary : ∀ {depth : Nat} {vs us : List Token} {operator : Token} {left right : Expr},
    operator.kind.isBinaryOperator = true → Expression vs right → Stops closing us →
    depth + 1 + right.depth ≤ limit → 4 * vs.length + 5 ≤ fuel →
    continuation limit closing fuel left depth (operator :: (vs ++ us)) =
      .ok (.binary left operator right, us)
  items :
    ∀ {closer : Kind} {depth : Nat} {ws us : List Token} {found rest : List Expr} {last : Token},
    closer = .closeParen ∨ closer = .closeBracket → last.kind = closer → Items ws rest →
    depth + Expr.depthAll rest ≤ limit → 4 * ws.length + 1 ≤ fuel →
    items limit closing fuel closer found depth (ws ++ last :: us) =
      .ok ((found.reverse ++ rest, last), us)

/-- Behind an operand, an operator and its right operand are read. -/
theorem binary_complete {fuel : Nat} (ih : ∀ n < fuel, ExpressionsComplete limit closing n)
    {depth : Nat} {vs us : List Token} {operator : Token} {left right : Expr}
    (hoperator : operator.kind.isBinaryOperator = true) (hright : Expression vs right)
    (hstops : Stops closing us) (hdepth : depth + 1 + right.depth ≤ limit)
    (hfuel : 4 * vs.length + 5 ≤ fuel) :
    continuation limit closing fuel left depth (operator :: (vs ++ us)) =
      .ok (.binary left operator right, us) := by
  -- one unit for this round, and one for the round that finds no further operator
  obtain ⟨fuel, rfl⟩ : ∃ n, fuel = n + 2 := ⟨fuel - 2, by omega⟩
  have hread := (ih (fuel + 1) (by omega)).expression hright hstops hdepth (by omega)
  unfold continuation
  rw [if_pos (show (peek closing (operator :: (vs ++ us))).kind.isBinaryOperator =
    true from hoperator), List.tail_cons, hread]
  exact continuation_stop fuel hstops.1 (fun callee hname => Expr.noConfusion hname)

/-- An operand is read up to its last token, and then what follows it is looked at. A call takes
two rounds for that. -/
theorem operand_primary {fuel : Nat} (ih : ∀ n < fuel, ExpressionsComplete limit closing n)
    {depth : Nat} {ws rest : List Token} {e : Expr} {x : Except Halt (Expr × List Token)}
    (h : Primary ws e) (hdepth : depth + e.depth ≤ limit) (hfuel : 4 * ws.length ≤ fuel + 1)
    (hx : ∀ f, fuel ≤ f + 2 → f < fuel → continuation limit closing f e depth rest = x) :
    operand limit closing fuel depth (ws ++ rest) = x := by
  have hpos := h.length_pos
  obtain ⟨fuel, rfl⟩ : ∃ n, fuel = n + 2 := ⟨fuel - 2, by omega⟩
  have hlast := hx (fuel + 1) (by omega) (by omega)
  rw [operand]
  cases h with
  | @literal t hkind =>
      rcases hkind with hk | hk | hk
      all_goals simp only [List.singleton_append, peek, List.headD_cons, hk]; exact hlast
  | @name t hkind =>
      simp only [List.singleton_append, peek, List.headD_cons, hkind]
      exact hlast
  | @call vs callee opening closer arguments hcallee hopening hitems hcloser =>
      rw [Expr.depth] at hdepth
      simp only [List.length_cons, List.length_append, List.length_nil] at hfuel
      have hread : items limit closing fuel .closeParen [] depth (vs ++ closer :: rest) =
          .ok ((arguments, closer), rest) :=
        (ih fuel (by omega)).items (.inl rfl) hcloser hitems hdepth (by omega)
      simp only [List.cons_append, List.append_assoc, List.nil_append, peek, List.headD_cons,
        hcallee, List.tail_cons]
      -- the first round of the continuation turns the name
      -- into a call, the second looks behind the call
      unfold continuation
      simp only [peek, List.headD_cons, hopening, Kind.isBinaryOperator, List.tail_cons,
        Bool.false_eq_true, if_false]
      rw [hread]
      exact hx fuel (by omega) (by omega)
  | @group vs opening closer inner hopening hinner hcloser =>
      rw [Expr.depth] at hdepth
      simp only [List.length_cons, List.length_append, List.length_nil] at hfuel
      have hstops : Stops closing (closer :: rest) :=
        stops_cons (by rw [hcloser]; rfl) (by rw [hcloser]; decide)
      have hread :=
        (ih (fuel + 1) (by omega)).expression hinner hstops
          (by omega : depth + 1 + inner.depth ≤ limit)
        (by omega)
      simp only [List.cons_append, List.append_assoc, List.nil_append, peek, List.headD_cons,
        hopening, List.tail_cons]
      rw [hread]
      show (take closing .closeParen (closer :: rest) >>= _) = x
      rw [take_cons hcloser]
      exact hlast
  | @list vs opening closer items hopening hitems hcloser =>
      rw [Expr.depth] at hdepth
      simp only [List.length_cons, List.length_append, List.length_nil] at hfuel
      have hread :
          Reading.items limit closing (fuel + 1) .closeBracket [] depth (vs ++ closer :: rest) =
            .ok ((items, closer), rest) :=
        (ih (fuel + 1) (by omega)).items (.inr rfl) hcloser hitems hdepth (by omega)
      simp only [List.cons_append, List.append_assoc, List.nil_append, peek, List.headD_cons,
        hopening, List.tail_cons]
      rw [hread]
      exact hlast

/-- The step for expressions: an operand, an operator behind one, or a sign. -/
theorem operand_complete {fuel : Nat} (ih : ∀ n < fuel, ExpressionsComplete limit closing n)
    {depth : Nat} {ws us : List Token} {e : Expr} (h : Expression ws e)
    (hstops : Stops closing us) (hdepth : depth + e.depth ≤ limit)
    (hfuel : 4 * ws.length ≤ fuel + 1) :
    operand limit closing fuel depth (ws ++ us) = .ok (e, us) := by
  cases h with
  | primary hprimary =>
      refine operand_primary ih hprimary hdepth hfuel ?_
      intro f hf _
      have hpos := hprimary.length_pos
      obtain ⟨f, rfl⟩ : ∃ n, f = n + 1 := ⟨f - 1, by omega⟩
      exact continuation_stop f hstops.1 (fun _ _ => hstops.2)
  | @binary ls vs operator left right hprimary hoperator hright =>
      rw [Expr.depth] at hdepth
      simp only [List.length_append, List.length_cons] at hfuel
      rw [List.append_assoc, List.cons_append]
      refine operand_primary ih hprimary (by omega) (by omega) ?_
      intro f hf hlt
      have hpos := hprimary.length_pos
      exact (ih f hlt).binary (mem_binaryOperators.mp hoperator) hright hstops
        (by omega) (by omega)
  | @unary vs operator inner hkind hinner =>
      simp only [Expr.depth, List.length_cons] at hdepth hfuel
      obtain ⟨fuel, rfl⟩ : ∃ n, fuel = n + 1 := ⟨fuel - 1, by omega⟩
      have hread :=
        (ih fuel (by omega)).expression hinner hstops (by omega : depth + 1 + inner.depth ≤ limit)
        (by omega)
      rw [operand]
      rcases hkind with hk | hk
      all_goals
        simp only [List.cons_append, peek, List.headD_cons, hk, List.tail_cons]
        rw [hread]
        rfl

/-- Items are read up to the closing token, by the cases of the grammar. -/
theorem items_complete {fuel : Nat} (ih : ∀ n < fuel, ExpressionsComplete limit closing n)
    {closer : Kind} {depth : Nat} {ws us : List Token} {found rest : List Expr} {last : Token}
    (hcloser : closer = .closeParen ∨ closer = .closeBracket) (hlast : last.kind = closer)
    (h : Items ws rest) (hdepth : depth + Expr.depthAll rest ≤ limit)
    (hfuel : 4 * ws.length + 1 ≤ fuel) :
    items limit closing fuel closer found depth (ws ++ last :: us) =
      .ok ((found.reverse ++ rest, last), us) := by
  obtain ⟨fuel, rfl⟩ : ∃ n, fuel = n + 1 := ⟨fuel - 1, by omega⟩
  have hstops : Stops closing (last :: us) := by
    rcases hcloser with hk | hk
    · exact stops_cons (by rw [hlast, hk]; rfl) (by rw [hlast, hk]; decide)
    · exact stops_cons (by rw [hlast, hk]; rfl) (by rw [hlast, hk]; decide)
  have hnever : startsExpression closer = false := by
    rcases hcloser with rfl | rfl <;> rfl
  rw [items]
  cases h with
  | nil =>
      rw [List.nil_append, if_pos (show (peek closing (last :: us)).kind = closer from hlast),
        List.append_nil]
      rfl
  | one hitem =>
      rw [Expr.depthAll, Expr.depthAll] at hdepth
      have hread :=
        (ih fuel (by omega)).expression hitem hstops (by omega : depth + 1 + _ ≤ limit) (by omega)
      obtain ⟨t, vs, rfl, hstarts⟩ := hitem.starts
      rw [if_neg (show (peek closing (t :: vs ++ last :: us)).kind ≠
        closer from ne_of_startsExpression hstarts hnever), hread]
      show (if (peek closing (last :: us)).kind = closer then _ else _) = _
      rw [if_pos (show (peek closing (last :: us)).kind = closer from hlast), List.reverse_cons]
      rfl
  | @cons ws vs comma item rest hitem hcomma hrest =>
      rw [Expr.depthAll] at hdepth
      simp only [List.length_append, List.length_cons] at hfuel
      have hstops' : Stops closing (comma :: (vs ++ last :: us)) :=
        stops_cons (by rw [hcomma]; rfl) (by rw [hcomma]; decide)
      have hread :=
        (ih fuel (by omega)).expression hitem hstops' (by omega : depth + 1 + _ ≤ limit) (by omega)
      have hmore : items limit closing fuel closer (item :: found) depth (vs ++ last :: us) =
          .ok (((item :: found).reverse ++ rest, last), us) :=
        (ih fuel (by omega)).items hcloser hlast hrest (by omega) (by omega)
      have hne : comma.kind ≠ closer := by
        rw [hcomma]
        rcases hcloser with rfl | rfl <;> decide
      rw [List.append_assoc, List.cons_append]
      obtain ⟨t, xs, rfl, hstarts⟩ := hitem.starts
      rw [if_neg (show (peek closing (t :: xs ++ comma :: (vs ++ last :: us))).kind ≠ closer from
          ne_of_startsExpression hstarts hnever), hread]
      show (if (peek closing (comma :: (vs ++ last :: us))).kind = closer then _ else _) = _
      rw [if_neg (show (peek closing (comma :: (vs ++ last :: us))).kind ≠ closer from hne),
        if_pos (show (peek closing (comma :: (vs ++ last :: us))).kind = .comma from hcomma)]
      rw [List.tail_cons, hmore, List.reverse_cons, List.append_assoc, List.singleton_append]

/-- **Expressions that are not nested too deeply are read in full**, by induction on the fuel. -/
theorem expressions_complete (limit : Nat) (closing : Token) (fuel : Nat) :
    ExpressionsComplete limit closing fuel := by
  induction fuel using Nat.strongRecOn with
  | ind fuel ih =>
      refine ⟨?_, operand_complete ih, binary_complete ih, items_complete ih⟩
      intro depth ws us e h hstops hdepth hfuel
      have hpos := h.length_pos
      obtain ⟨fuel, rfl⟩ : ∃ n, fuel = n + 1 := ⟨fuel - 1, by omega⟩
      rw [expression, nested_of_lt (by omega)]
      exact (ih fuel (Nat.lt_succ_self _)).operand h hstops (by omega) hfuel

/-! ## Completeness of statements -/

/-- Parameters are read up to the closing parenthesis. -/
theorem params_complete {closer : Token} {us : List Token} (hcloser : closer.kind = .closeParen)
    (fuel : Nat) :
    ∀ {found ws rest : List Token}, Params ws rest → ws.length + 1 ≤ fuel →
    params closing fuel found (ws ++ closer :: us) = .ok (found.reverse ++ rest, us) := by
  induction fuel with
  | zero =>
      intro found ws rest _ hfuel
      omega
  | succ fuel ih =>
      intro found ws rest h hfuel
      rw [params]
      cases h with
      | nil =>
          simp only [List.nil_append, peek, List.headD_cons, hcloser, List.tail_cons,
            List.append_nil]
      | one hkind =>
          simp only [List.cons_append, List.nil_append, peek, List.headD_cons, hkind,
            List.tail_cons, hcloser, List.reverse_cons]
      | cons hkind hcomma hrest =>
          simp only [List.length_cons] at hfuel
          simp only [List.cons_append, peek, List.headD_cons, hkind, List.tail_cons, hcomma]
          rw [ih hrest (by omega), List.reverse_cons, List.append_assoc, List.singleton_append]

/-- With this fuel, statements are read in full. -/
structure StatementsComplete (limit : Nat) (closing : Token) (fuel : Nat) : Prop where
  statements : ∀ {whole : Bool} {depth : Nat} {ws vs us : List Token} {found rest : List Stmt},
    Statements ws rest →
    EndsBlock closing whole vs us → depth + Block.depth rest ≤ limit → 4 * ws.length + 2 ≤ fuel →
    statements limit closing fuel whole found depth (ws ++ vs) = .ok (found.reverse ++ rest, us)
  statement : ∀ {depth : Nat} {ws us : List Token} {s : Stmt}, Statement ws s →
    Follows closing us →
    depth + s.depth ≤ limit → 4 * ws.length + 1 ≤ fuel →
    statement limit closing fuel depth (ws ++ us) = .ok (s, us)
  conditional : ∀ {depth : Nat} {word : Token} {ws us : List Token} {s : Stmt},
    Conditional (word :: ws) s →
    (peek closing us).kind ≠ .elseWord → depth + s.depth ≤ limit → 4 * ws.length ≤ fuel →
    conditional limit closing fuel depth (ws ++ us) = .ok (s, us)
  braced : ∀ {depth : Nat} {ws us : List Token} {body : Block}, Braced ws body →
    depth + 1 + Block.depth body ≤ limit → 4 * ws.length ≤ fuel →
    braced limit closing fuel depth (ws ++ us) = .ok (body, us)

/-- A statement may be followed by statements and by the end of its block. -/
theorem follows_statements {whole : Bool} {ws vs us : List Token} {rest : List Stmt}
    (h : Statements ws rest) (hends : EndsBlock closing whole vs us) :
    Follows closing (ws ++ vs) := by
  cases h with
  | nil =>
      cases whole with
      | true =>
          obtain ⟨rfl, hend⟩ := hends
          refine ⟨⟨?_, ?_⟩, ?_, ?_⟩ <;> rw [List.nil_append, hend] <;> decide
      | false =>
          obtain ⟨closer, rfl, hbrace⟩ := hends
          refine ⟨⟨?_, ?_⟩, ?_, ?_⟩ <;> simp [peek, hbrace, Kind.isBinaryOperator]
  | cons hfirst _ =>
      obtain ⟨t, xs, rfl, hstarts⟩ := hfirst.starts
      have hne : ∀ k, startsStatement k = false → t.kind ≠ k :=
        fun k => ne_of_startsStatement hstarts
      refine ⟨⟨?_, hne _ rfl⟩, hne _ rfl, hne _ rfl⟩
      show t.kind.isBinaryOperator = false
      revert hstarts
      cases t.kind <;> decide

theorem statements_complete_step {fuel : Nat}
    (ih : ∀ n < fuel, StatementsComplete limit closing n) {whole : Bool} {depth : Nat}
    {ws vs us : List Token} {found rest : List Stmt} (h : Statements ws rest)
    (hends : EndsBlock closing whole vs us) (hdepth : depth + Block.depth rest ≤ limit)
    (hfuel : 4 * ws.length + 2 ≤ fuel) :
    statements limit closing fuel whole found depth (ws ++ vs) =
      .ok (found.reverse ++ rest, us) := by
  obtain ⟨fuel, rfl⟩ : ∃ n, fuel = n + 1 := ⟨fuel - 1, by omega⟩
  rw [statements]
  cases h with
  | nil =>
      rw [List.nil_append, List.append_nil]
      cases whole with
      | true =>
          obtain ⟨rfl, hend⟩ := hends
          rw [if_pos hend]
          rfl
      | false =>
          obtain ⟨closer, rfl, hbrace⟩ := hends
          have hend : (peek closing (closer :: us)).kind ≠ .endOfInput := by
            show closer.kind ≠ .endOfInput
            rw [hbrace]
            decide
          rw [if_neg hend]
          simp [peek, hbrace]
  | @cons ws xs first rest hfirst hrest =>
      rw [Block.depth] at hdepth
      simp only [List.length_append] at hfuel
      have hfollows := follows_statements hrest hends
      rw [List.append_assoc]
      have hread :=
        (ih fuel (by omega)).statement hfirst hfollows
          (by omega : depth + first.depth ≤ limit) (by omega)
      obtain ⟨t, ys, rfl, hstarts⟩ := hfirst.starts
      have hend : (peek closing (t :: ys ++ (xs ++ vs))).kind ≠ .endOfInput :=
        ne_of_startsStatement hstarts rfl
      have hmore : statements limit closing fuel whole (first :: found) depth (xs ++ vs) =
          .ok ((first :: found).reverse ++ rest, us) :=
        (ih fuel (by omega)).statements hrest hends (by omega)
          (by simp only [List.length_cons] at hfuel; omega)
      have hbrace :
          ¬ (decide ((peek closing (t :: ys ++ (xs ++ vs))).kind = .closeBrace) && !whole)
            = true := by
        have hkind : t.kind ≠ .closeBrace := ne_of_startsStatement hstarts rfl
        simp [peek, hkind]
      rw [if_neg hend, if_neg hbrace, hread]
      show statements limit closing fuel whole (first :: found) depth (xs ++ vs) = _
      rw [hmore, List.reverse_cons, List.append_assoc, List.singleton_append]

/-- The part that all conditionals have: behind it, what follows decides. -/
theorem conditional_head {fuel : Nat} (ih : StatementsComplete limit closing fuel) {depth : Nat}
    {opening closer : Token} {es bs rest : List Token} {condition : Expr} {thenBlock : Block}
    (hopening : opening.kind = .openParen) (hexpr : Expression es condition)
    (hcloser : closer.kind = .closeParen) (hthen : Braced bs thenBlock)
    (hcondition : depth + 1 + condition.depth ≤ limit)
    (hblock : depth + 1 + Block.depth thenBlock ≤ limit) (hfuel : 4 * es.length ≤ fuel)
    (hfuel' : 4 * bs.length ≤ fuel) :
    conditional limit closing (fuel + 1) depth (opening :: (es ++ closer :: (bs ++ rest))) =
      if (peek closing rest).kind = .elseWord then
        if (peek closing rest.tail).kind = .ifWord then do
          let (inner, us) ← nested limit (peek closing rest.tail).span
            (conditional limit closing fuel) depth
            rest.tail.tail
          pure (.ifThenElse condition thenBlock [inner], us)
        else do
          let (elseBlock, us) ← braced limit closing fuel depth rest.tail
          pure (.ifThenElse condition thenBlock elseBlock, us)
      else pure (.ifThen condition thenBlock, rest) := by
  have he := expressions_complete limit closing fuel
  have hstops : Stops closing (closer :: (bs ++ rest)) :=
    stops_cons (by rw [hcloser]; rfl) (by rw [hcloser]; decide)
  rw [conditional, take_cons hopening]
  show (expression limit closing fuel depth (es ++ closer :: (bs ++ rest)) >>= _) = _
  rw [he.expression hexpr hstops hcondition hfuel]
  show (take closing .closeParen (closer :: (bs ++ rest)) >>= _) = _
  rw [take_cons hcloser]
  show (braced limit closing fuel depth (bs ++ rest) >>= _) = _
  rw [ih.braced hthen hblock hfuel']
  rfl

theorem conditional_complete {fuel : Nat} (ih : ∀ n < fuel, StatementsComplete limit closing n)
    {depth : Nat} {word : Token} {ws us : List Token} {s : Stmt} (h : Conditional (word :: ws) s)
    (helse : (peek closing us).kind ≠ .elseWord) (hdepth : depth + s.depth ≤ limit)
    (hfuel : 4 * ws.length ≤ fuel) :
    conditional limit closing fuel depth (ws ++ us) = .ok (s, us) := by
  have hpos : 0 < ws.length := by
    cases h with
    | ifThen _ _ _ _ _ => exact Nat.succ_pos _
    | ifThenElse _ _ _ _ _ _ _ => exact Nat.succ_pos _
    | elseIf _ _ _ _ _ _ _ => exact Nat.succ_pos _
  obtain ⟨fuel, rfl⟩ : ∃ n, fuel = n + 1 := ⟨fuel - 1, by omega⟩
  have ih := ih fuel (Nat.lt_succ_self _)
  cases h with
  | ifThen _ hopening hexpr hcloser hthen =>
      simp only [Stmt.depth, List.length_cons, List.length_append] at hdepth hfuel
      simp only [List.cons_append, List.append_assoc]
      rw [conditional_head ih hopening hexpr hcloser hthen (by omega) (by omega) (by omega)
        (by omega), if_neg helse]
      rfl
  | @ifThenElse es bs vs _ opening closer elseWord condition thenBlock elseBlock _ hopening hexpr
      hcloser hthen hword
      hblock =>
      simp only [Stmt.depth, List.length_cons, List.length_append] at hdepth hfuel
      simp only [List.cons_append, List.append_assoc]
      -- a block begins with a brace, so that it is not taken for an `ELSE IF`
      have hif : (peek closing (vs ++ us)).kind ≠ .ifWord := by
        cases hblock with
        | mk hbrace _ _ =>
            rw [List.cons_append, peek, List.headD_cons, hbrace]
            decide
      have hread : braced limit closing fuel depth (vs ++ us) = .ok (elseBlock, us) :=
        ih.braced hblock (by omega) (by omega)
      rw [conditional_head ih hopening hexpr hcloser hthen (by omega) (by omega)
        (by omega) (by omega),
        if_pos (show (peek closing (elseWord :: (vs ++ us))).kind = .elseWord from hword),
        List.tail_cons, if_neg hif, hread]
      rfl
  | @elseIf es bs vs _ opening closer elseWord condition thenBlock inner _ hopening hexpr hcloser
      hthen hword hinner =>
      simp only [Stmt.depth, Block.depth, List.length_cons, List.length_append] at hdepth hfuel
      simp only [List.cons_append, List.append_assoc]
      obtain ⟨ifWord, xs, rfl, hif⟩ := hinner.starts
      rw [List.length_cons] at hfuel
      have hread : conditional limit closing fuel (depth + 1) (xs ++ us) = .ok (inner, us) :=
        ih.conditional hinner helse (by omega) (by omega)
      rw [conditional_head ih hopening hexpr hcloser hthen (by omega) (by omega)
        (by omega) (by omega),
        if_pos (show (peek closing (elseWord :: (ifWord :: xs ++ us))).kind =
          .elseWord from hword), List.tail_cons,
          if_pos (show (peek closing (ifWord :: xs ++ us)).kind = .ifWord from hif),
          nested_of_lt (by omega), List.cons_append, List.tail_cons, hread]
      rfl

/-- An expression ends where a block begins, since a block begins with a brace. -/
theorem stops_braced {bs : List Token} {body : Block} (us : List Token) (hbody : Braced bs body) :
    Stops closing (bs ++ us) := by
  cases hbody with
  | mk hopening _ _ => exact stops_cons (by rw [hopening]; rfl) (by rw [hopening]; decide)

/-- The step for statements, one case for each rule of the grammar. -/
theorem statement_complete {fuel : Nat} (ih : ∀ n < fuel, StatementsComplete limit closing n)
    {depth : Nat} {ws us : List Token} {s : Stmt} (h : Statement ws s)
    (hfollows : Follows closing us) (hdepth : depth + s.depth ≤ limit)
    (hfuel : 4 * ws.length + 1 ≤ fuel) :
    statement limit closing fuel depth (ws ++ us) = .ok (s, us) := by
  obtain ⟨fuel, rfl⟩ : ∃ n, fuel = n + 1 := ⟨fuel - 1, by omega⟩
  have he := expressions_complete limit closing fuel
  have ih := ih fuel (Nat.lt_succ_self _)
  unfold statement
  cases h with
  | @procedure ps bs params word name opening closer body hword hname hopening hparams
      hcloser hbody =>
      simp only [Stmt.depth, List.length_cons, List.length_append] at hdepth hfuel
      simp only [List.cons_append, List.append_assoc, peek, List.headD_cons, hword, List.tail_cons]
      rw [take_cons hname]
      show (take closing .openParen (opening :: (ps ++ closer :: (bs ++ us))) >>= _) = _
      rw [take_cons hopening]
      show (Reading.params closing fuel [] (ps ++ closer :: (bs ++ us)) >>= _) = _
      rw [params_complete hcloser fuel hparams (by omega)]
      show (braced limit closing fuel depth (bs ++ us) >>= _) = _
      rw [ih.braced hbody (by omega) (by omega)]
      rfl
  | conditional hconditional =>
      obtain ⟨word, xs, rfl, hword⟩ := hconditional.starts
      rw [List.length_cons] at hfuel
      simp only [List.cons_append, peek, List.headD_cons, hword, List.tail_cons]
      exact ih.conditional hconditional hfollows.2.2 hdepth (by omega)
  | @repeatUntil es bs word untilWord condition body hword huntil hexpr hbody =>
      simp only [Stmt.depth, List.length_cons, List.length_append] at hdepth hfuel
      simp only [List.cons_append, List.append_assoc, peek, List.headD_cons, hword, List.tail_cons,
        huntil, if_true]
      rw [he.expression hexpr (stops_braced us hbody) (by omega) (by omega)]
      show (braced limit closing fuel depth (bs ++ us) >>= _) = _
      rw [ih.braced hbody (by omega) (by omega)]
      rfl
  | @repeatTimes es bs word timesWord count body hword hexpr htimes hbody =>
      simp only [Stmt.depth, List.length_cons, List.length_append] at hdepth hfuel
      have hstops : Stops closing (timesWord :: (bs ++ us)) :=
        stops_cons (by rw [htimes]; rfl) (by rw [htimes]; decide)
      have hread : expression limit closing fuel depth (es ++ timesWord :: (bs ++ us)) =
          .ok (count, timesWord :: (bs ++ us)) := he.expression hexpr hstops (by omega) (by omega)
      have huntil : (peek closing (es ++ timesWord :: (bs ++ us))).kind ≠ .untilWord := by
        obtain ⟨t, xs, rfl, hstarts⟩ := hexpr.starts
        exact ne_of_startsExpression hstarts rfl
      simp only [List.cons_append, List.append_assoc, List.tail_cons]
      rw [show (peek closing (word :: (es ++ timesWord :: (bs ++ us)))).kind =
        .repeatWord from hword]
      simp only [if_neg huntil]
      rw [hread]
      show (take closing .timesWord (timesWord :: (bs ++ us)) >>= _) = _
      rw [take_cons htimes]
      show (braced limit closing fuel depth (bs ++ us) >>= _) = _
      rw [ih.braced hbody (by omega) (by omega)]
      rfl
  | @forEach es bs word eachWord item inWord list body hword heach hitem hin hexpr hbody =>
      simp only [Stmt.depth, List.length_cons, List.length_append] at hdepth hfuel
      simp only [List.cons_append, List.append_assoc, peek, List.headD_cons, hword, List.tail_cons]
      rw [take_cons heach]
      show (take closing .identifier (item :: inWord :: (es ++ (bs ++ us))) >>= _) = _
      rw [take_cons hitem]
      show (take closing .inWord (inWord :: (es ++ (bs ++ us))) >>= _) = _
      rw [take_cons hin]
      show (expression limit closing fuel depth (es ++ (bs ++ us)) >>= _) = _
      rw [he.expression hexpr (stops_braced us hbody) (by omega) (by omega)]
      show (braced limit closing fuel depth (bs ++ us) >>= _) = _
      rw [ih.braced hbody (by omega) (by omega)]
      rfl
  | returns hword hexpr =>
      simp only [Stmt.depth, List.length_cons] at hdepth hfuel
      simp only [List.cons_append, peek, List.headD_cons, hword, List.tail_cons]
      rw [he.expression hexpr hfollows.1 (by omega) (by omega)]
      rfl
  | assign htarget harrow hexpr =>
      simp only [Stmt.depth, List.length_cons] at hdepth hfuel
      simp only [List.cons_append, peek, List.headD_cons, htarget, List.tail_cons, harrow, if_true]
      rw [he.expression hexpr hfollows.1 (by omega) (by omega)]
      rfl
  | @expression vs first e hfirst hexpr =>
      simp only [Stmt.depth] at hdepth
      have hread : expression limit closing fuel depth (first :: vs ++ us) = .ok (e, us) :=
        he.expression hexpr hfollows.1 (by omega) (by omega)
      -- an arrow behind the name would make it an assignment:
      -- neither the expression nor what follows provides one
      have hassign : (peek closing (vs ++ us)).kind ≠ .assign := by
        cases vs with
        | nil => exact hfollows.2.1
        | cons t xs =>
            intro hk
            have hsecond := hexpr.second hfirst
            rw [show t.kind = .assign from hk] at hsecond
            exact absurd hsecond (by decide)
      rw [show (peek closing (first :: vs ++ us)).kind = .identifier from hfirst]
      show (if (peek closing (vs ++ us)).kind = .assign then _ else _) = _
      rw [if_neg hassign, hread]
      rfl

/-- **Statements that are not nested too deeply are read in full**, by induction on the fuel. -/
theorem statements_complete (limit : Nat) (closing : Token) (fuel : Nat) :
    StatementsComplete limit closing fuel := by
  induction fuel using Nat.strongRecOn with
  | ind fuel ih =>
      refine ⟨statements_complete_step ih, statement_complete ih, conditional_complete ih, ?_⟩
      intro depth ws us body h hdepth hfuel
      cases h with
      | @mk ws opening closer _ hopening hbody hcloser =>
          simp only [List.length_cons, List.length_append, List.length_nil] at hfuel
          obtain ⟨fuel, rfl⟩ : ∃ n, fuel = n + 1 := ⟨fuel - 1, by omega⟩
          have hends : EndsBlock closing false (closer :: us) us := ⟨closer, rfl, hcloser⟩
          have hread : statements limit closing fuel false [] (depth + 1) (ws ++ closer :: us) =
              .ok (body, us) :=
            (ih fuel (Nat.lt_succ_self _)).statements hbody hends (by omega) (by omega)
          simp only [List.cons_append, List.append_assoc, List.nil_append]
          rw [braced, take_cons hopening]
          show nested limit opening.span (statements limit closing fuel false []) depth
            (ws ++ closer :: us) = _
          rw [nested_of_lt (by omega), hread]

/-! ## Whole programs -/

/-- A whole program that is in the grammar is read to the end. -/
theorem statements_whole {ws : List Token} {program : Block}
    (hclosing : closing.kind = .endOfInput) (h : Statements ws program)
    (hdepth : Block.depth program ≤ limit) {fuel : Nat} (hfuel : 4 * ws.length + 2 ≤ fuel) :
    statements limit closing fuel true [] 0 ws = .ok (program, []) := by
  have hends : EndsBlock closing true [] [] := ⟨rfl, hclosing⟩
  have hread : statements limit closing fuel true [] 0 (ws ++ []) = .ok (program, []) :=
    (statements_complete limit closing fuel).statements h hends
      (by rw [Nat.zero_add]; exact hdepth) hfuel
  rw [List.append_nil] at hread
  exact hread

end Reading

/-- **No list of tokens means two programs.** Both would be read from it, by a reader whose limit
lets both pass. -/
theorem Grammar.Statements.unique {ws : List Token} {p q : Block} (hp : Statements ws p)
    (hq : Statements ws q) :
    p = q := by
  have hclosing : (Token.endAt 0).kind = .endOfInput := rfl
  have hread :=
    Reading.statements_whole hclosing hp
      (Nat.le_max_left (Block.depth p) (Block.depth q)) (Nat.le_refl _)
  rw [Reading.statements_whole hclosing hq (Nat.le_max_right (Block.depth p) (Block.depth q))
    (Nat.le_refl _)] at hread
  injection hread with hread
  injection hread with heq _
  exact heq.symm

theorem significant_length_le (ts : List Token) : (significant ts).length ≤ ts.length :=
  List.length_filter_le _ _

/--
**The parser accepts exactly its grammar.**

Of tokens with one end of input, at their end, a program is read precisely if it is what the
significant tokens mean in the grammar and none of its levels lies beyond the limit. And no list of
tokens means two programs.
-/
theorem parseTokens_accepts_grammar (body : List Token) (last : Token)
    (hlast : last.kind = .endOfInput) (hbody : ∀ t ∈ body, t.kind ≠ .endOfInput)
    (program : Block) :
    (parseTokens (body ++ [last]) = .ok program ↔
      Statements (significant body) program ∧ Block.depth program ≤ nestingLimit)
    ∧ ∀ (ws : List Token) (p q : Block), Statements ws p → Statements ws q → p = q := by
  refine ⟨⟨?_, ?_⟩, fun ws p q hp hq => hp.unique hq⟩
  · intro h
    rw [parseTokens_eq_read body hlast] at h
    cases hread :
      Reading.statements nestingLimit last (4 * (body.length + 1) + 8) true [] 0
        (significant body) with
    | error halt =>
        rw [hread] at h
        exact absurd h (by simp [Except.map])
    | ok x =>
        obtain ⟨all, us⟩ := x
        rw [hread] at h
        injection h with h
        obtain ⟨ws, vs, rest, hall, hts, hstatements, ⟨hvs, hend⟩, hdepth⟩ :=
          (Reading.statements_sound _ hlast _).statements (Nat.zero_le _) hread
        -- the program stopped at an end of input, and there is none but the last
        have hnil : us = [] := by
          cases us with
          | nil => rfl
          | cons t xs =>
              have hmem : t ∈ significant body := by
                rw [hts, hvs]
                exact List.mem_append_right _ (List.mem_cons_self ..)
              exact absurd hend (hbody t (List.mem_filter.1 hmem).1)
        rw [hvs, hnil, List.append_nil] at hts
        rw [List.reverse_nil, List.nil_append] at hall
        subst hall h
        rw [hts]
        exact ⟨hstatements, by rw [Nat.zero_add] at hdepth; exact hdepth⟩
  · rintro ⟨h, hdepth⟩
    rw [parseTokens_eq_read body hlast, Reading.statements_whole hlast h hdepth]
    · rfl
    · have := significant_length_le body
      omega

/-- Two lines, `x ← 2 - -1` and `f(x,)`. A minus stands between two operands and another one before
the second of them, and a comma stands behind the only argument of the call. -/
theorem parseTokens_assignment_and_call :
    parseTokens ([⟨"x", .identifier, 1⟩, ⟨"←", .assign, 5⟩, ⟨"2", .number, 7⟩, ⟨"-", .subtract, 9⟩,
        ⟨"-", .subtract, 11⟩, ⟨"1", .number, 12⟩, ⟨"\n", .newline, 13⟩, ⟨"f", .identifier, 14⟩,
        ⟨"(", .openParen, 15⟩, ⟨"x", .identifier, 16⟩, ⟨",", .comma, 17⟩, ⟨")", .closeParen, 18⟩,
        ⟨"", .newline, 18⟩] ++ [⟨"", .endOfInput, 18⟩]) =
      .ok [.assign ⟨"x", .identifier, 1⟩ (.binary (.literal ⟨"2", .number, 7⟩)
          ⟨"-", .subtract, 9⟩ (.unary ⟨"-", .subtract, 11⟩ (.literal ⟨"1", .number, 12⟩))),
        .expression (.call ⟨"f", .identifier, 14⟩ [.name ⟨"x", .identifier, 16⟩]
          ⟨")", .closeParen, 18⟩)] := by
  refine ((parseTokens_accepts_grammar _ _ rfl (by decide) _).1).2 ⟨?_, by decide⟩
  have hnegated : Expression [⟨"-", .subtract, 11⟩, ⟨"1", .number, 12⟩] _ :=
    .unary (.inl rfl) (.primary (.literal (.inl rfl)))
  have hvalue : Expression ([⟨"2", .number, 7⟩] ++ ⟨"-", .subtract, 9⟩ :: _) _ :=
    .binary (.literal (.inl rfl)) (by decide) hnegated
  have hcall : Primary (⟨"f", .identifier, 14⟩ :: ⟨"(", .openParen, 15⟩ ::
      (([⟨"x", .identifier, 16⟩] ++ ⟨",", .comma, 17⟩ :: []) ++ [⟨")", .closeParen, 18⟩])) _ :=
    .call rfl rfl (.cons (.primary (.name rfl)) rfl .nil) rfl
  have hassign : Statement (⟨"x", .identifier, 1⟩ :: ⟨"←", .assign, 5⟩ :: _) _ :=
    .assign rfl rfl hvalue
  exact .cons hassign (.cons (.expression rfl (.primary hcall)) .nil)

end Pseudocode
