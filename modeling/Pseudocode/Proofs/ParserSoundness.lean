import Pseudocode.Proofs.Grammar
import Pseudocode.Proofs.Reading

/-!
# What the parser reads is in the grammar

What is read from a list of tokens is a phrase of the grammar whose tokens stand at the front of
the list, and it is not nested beyond the limit.

Operators need care. The grammar gives a right operand all that follows, while the reader goes on
looking for operators after it has read one. It finds none: behind an expression that was read
there is never a binary operator. This is part of what is proved of every reader of expressions.
-/

namespace Pseudocode

open Grammar

namespace Reading

variable {limit : Nat} {closing : Token}

/-! ## What a successful step has seen -/

/-- A reading in two parts that succeeds has read both. -/
theorem bind_eq_ok {α β : Type} {x : Except Halt α} {f : α → Except Halt β} {b : β}
    (h : x >>= f = .ok b) :
    ∃ a, x = .ok a ∧ f a = .ok b := by
  cases x with
  | ok a => exact ⟨a, rfl, h⟩
  | error halt => exact absurd h (by simp [bind, Except.bind])

theorem ok_inj {α : Type} {a b : α} {us vs : List Token}
    (h : (.ok (a, us) : Except Halt (α × List Token)) = .ok (b, vs)) :
    a = b ∧ us = vs := by
  injection h with h
  exact Prod.mk.inj h

/-- A token other than the end of input is really there. -/
theorem eq_peek_cons (hclosing : closing.kind = .endOfInput) (ts : List Token)
    (h : (peek closing ts).kind ≠ .endOfInput) : ts = peek closing ts :: ts.tail := by
  cases ts with
  | nil => exact absurd hclosing h
  | cons t us => rfl

/-- A token that was taken stood at the front. -/
theorem take_eq_ok {kind : Kind} {ts us : List Token} {t : Token}
    (hclosing : closing.kind = .endOfInput) (hkind : kind ≠ .endOfInput)
    (h : take closing kind ts = .ok (t, us)) : ts = t :: us ∧ t.kind = kind := by
  unfold take at h
  split at h
  · rename_i hpeek
    obtain ⟨rfl, rfl⟩ := ok_inj h
    exact ⟨eq_peek_cons hclosing _ (by rw [hpeek]; exact hkind), hpeek⟩
  · exact absurd h (by simp)

/-- A level that was entered is within the limit. -/
theorem nested_eq_ok {α : Type} {span : Span}
    {inner : Nat → List Token → Except Halt (α × List Token)} {depth : Nat} {ts : List Token}
    {x : α × List Token} (h : nested limit span inner depth ts = .ok x) :
    depth < limit ∧ inner (depth + 1) ts = .ok x := by
  unfold nested at h
  split at h
  · exact ⟨by assumption, h⟩
  · exact absurd h (by simp)

/-- Where neither an operator nor the arguments of a call can follow, an operand is complete. -/
theorem continuation_stop {left : Expr} {depth : Nat} {ts : List Token} (fuel : Nat)
    (hbinary : (peek closing ts).kind.isBinaryOperator = false)
    (hcall : ∀ callee, left = .name callee → (peek closing ts).kind ≠ .openParen) :
    continuation limit closing (fuel + 1) left depth ts = .ok (left, ts) := by
  unfold continuation
  rw [if_neg (by rw [hbinary]; exact Bool.noConfusion)]
  split
  · rename_i callee hopen
    exact absurd hopen (hcall callee rfl)
  · rfl

/-! ## Soundness of expressions -/

/-- An expression on level `depth` whose first tokens `ls` were read before is completed by the
first tokens of `ts`, and `us` is left. It stays within the limit, and no operator follows it. -/
def Completes (limit : Nat) (closing : Token) (depth : Nat) (ls ts us : List Token)
    (e : Expr) : Prop :=
  ∃ ws, ts = ws ++ us ∧ Expression (ls ++ ws) e ∧ depth + e.depth ≤ limit
    ∧ (peek closing us).kind.isBinaryOperator = false

theorem completes_nil {depth : Nat} {ts us : List Token} {e : Expr} :
    Completes limit closing depth [] ts us e ↔
      ∃ ws, ts = ws ++ us ∧ Expression ws e ∧ depth + e.depth ≤ limit
        ∧ (peek closing us).kind.isBinaryOperator = false := Iff.rfl

/-- What the readers of expressions find is in the grammar, and fits below the limit. -/
structure ExpressionsSound (limit : Nat) (closing : Token) (fuel : Nat) : Prop where
  expression : ∀ {depth : Nat} {ts us : List Token} {e : Expr},
    expression limit closing fuel depth ts = .ok (e, us) →
    Completes limit closing (depth + 1) [] ts us e
  operand : ∀ {depth : Nat} {ts us : List Token} {e : Expr}, depth ≤ limit →
    operand limit closing fuel depth ts = .ok (e, us) → Completes limit closing depth [] ts us e
  continuation : ∀ {depth : Nat} {ls ts us : List Token} {left e : Expr}, Primary ls left →
    depth + left.depth ≤ limit → continuation limit closing fuel left depth ts = .ok (e, us) →
    Completes limit closing depth ls ts us e
  items :
    ∀ {closer : Kind} {depth : Nat} {ts us : List Token} {found all : List Expr} {last : Token},
    closer ≠ .endOfInput → depth ≤ limit →
    items limit closing fuel closer found depth ts = .ok ((all, last), us) →
    ∃ ws rest, all = found.reverse ++ rest ∧ ts = ws ++ last :: us ∧ Items ws rest ∧
      last.kind = closer
      ∧ depth + Expr.depthAll rest ≤ limit

/-- A complete operand is followed by an operator and the rest of the expression, by the arguments
of a call, or by nothing that belongs to it. -/
theorem continuation_sound {fuel : Nat} (hclosing : closing.kind = .endOfInput)
    (ih : ExpressionsSound limit closing fuel) {depth : Nat} {ls ts us : List Token}
    {left e : Expr} (hleft : Primary ls left) (hdepth : depth + left.depth ≤ limit)
    (h : continuation limit closing (fuel + 1) left depth ts = .ok (e, us)) :
    Completes limit closing depth ls ts us e := by
  unfold continuation at h
  split at h
  · -- behind a right operand no operator is left, so that the next round ends the loop
    rename_i hbinary
    obtain ⟨⟨right, vs⟩, hright, h⟩ := bind_eq_ok h
    obtain ⟨ws, hvs, hexpr, hlevel, hstop⟩ := completes_nil.1 (ih.expression hright)
    have hcons := eq_peek_cons hclosing ts (by
      intro hend
      rw [hend] at hbinary
      exact absurd hbinary (by decide))
    cases fuel with
    | zero => exact absurd h (by simp [continuation])
    | succ fuel =>
        dsimp only at h
        rw [continuation_stop fuel hstop (fun callee hname => Expr.noConfusion hname)] at h
        obtain ⟨rfl, rfl⟩ := ok_inj h
        refine ⟨peek closing ts :: ws, ?_,
          .binary hleft (mem_binaryOperators.mpr hbinary) hexpr, ?_, hstop⟩
        · rw [List.cons_append, ← hvs]
          exact hcons
        · rw [Expr.depth]
          omega
  · rename_i hbinary
    split at h
    · rename_i callee hopen
      obtain ⟨⟨⟨arguments, closer⟩, vs⟩, hitems, h⟩ := bind_eq_ok h
      have hcons := eq_peek_cons hclosing ts (by rw [hopen]; exact Kind.noConfusion)
      have hname : ∃ t, ls = [t] ∧ t = callee ∧ t.kind = .identifier := by
        cases hleft with
        | name hkind => exact ⟨_, rfl, rfl, hkind⟩
      obtain ⟨t, rfl, rfl, hkind⟩ := hname
      have hlimit : depth ≤ limit := Nat.le_trans (Nat.le_add_right _ _) hdepth
      obtain ⟨ws, rest, hall, hts, hlist, hcloser, hlevel⟩ :=
        ih.items Kind.noConfusion hlimit hitems
      rw [List.reverse_nil, List.nil_append] at hall
      subst hall
      have hcall : Primary (t :: peek closing ts :: (ws ++ [closer])) (.call t arguments closer) :=
        .call hkind hopen hlist hcloser
      -- the call is an operand in turn, and an operator may follow it
      obtain ⟨xs, hvs, hexpr, hlevel', hstop⟩ :=
        ih.continuation hcall (by rw [Expr.depth]; exact hlevel) h
      refine ⟨peek closing ts :: (ws ++ closer :: xs), ?_, ?_, hlevel', hstop⟩
      · rw [hcons, hts, hvs]
        simp [peek]
      · simpa using hexpr
    · obtain ⟨rfl, rfl⟩ := ok_inj h
      refine ⟨[], rfl, ?_, hdepth, by simpa using hbinary⟩
      rw [List.append_nil]
      exact .primary hleft

/-- What was completed behind the tokens `t :: ls` is complete from `t` on. -/
theorem Completes.prepend {depth : Nat} {t : Token} {ls vs ts us : List Token} {e : Expr}
    (h : Completes limit closing depth (t :: ls) vs us e) (hts : ts = t :: (ls ++ vs)) :
    Completes limit closing depth [] ts us e := by
  obtain ⟨ws, hvs, hexpr, hlevel, hstop⟩ := h
  refine ⟨(t :: ls) ++ ws, ?_, hexpr, hlevel, hstop⟩
  rw [hts, hvs, List.cons_append, List.cons_append, List.append_assoc]

/-- The step for expressions, by the kind of the first token. -/
theorem operand_sound {fuel : Nat} (hclosing : closing.kind = .endOfInput)
    (ih : ExpressionsSound limit closing fuel) {depth : Nat} {ts us : List Token} {e : Expr}
    (hdepth : depth ≤ limit) (h : operand limit closing (fuel + 1) depth ts = .ok (e, us)) :
    Completes limit closing depth [] ts us e := by
  rw [operand] at h
  have hcons : (peek closing ts).kind ≠ .endOfInput → ts = peek closing ts :: ts.tail :=
    eq_peek_cons hclosing ts
  -- three kinds of literals and two of signs, each read alike up to the kind
  have hliteral : ∀ {k : Kind}, (peek closing ts).kind = k → k = .number ∨ k = .text ∨ k = .truth →
      continuation limit closing fuel (.literal (peek closing ts)) depth ts.tail = .ok (e, us) →
      Completes limit closing depth [] ts us e := by
    intro k hk hkind h
    have hthere := hcons (by rcases hkind with rfl | rfl | rfl <;> simp [hk])
    exact (ih.continuation (.literal (by rw [hk]; exact hkind)) hdepth h).prepend hthere
  have hunary : ∀ {k : Kind}, (peek closing ts).kind = k → k = .subtract ∨ k = .notWord →
      (expression limit closing fuel depth ts.tail >>=
        fun x => pure (.unary (peek closing ts) x.1, x.2))
        = .ok (e, us) →
      Completes limit closing depth [] ts us e := by
    intro k hk hkind h
    obtain ⟨⟨inner, vs⟩, hinner, h⟩ := bind_eq_ok h
    obtain ⟨rfl, rfl⟩ := ok_inj h
    obtain ⟨ws, htail, hexpr, hlevel, hstop⟩ := completes_nil.1 (ih.expression hinner)
    refine ⟨peek closing ts :: ws, ?_, .unary (by rw [hk]; exact hkind) hexpr, ?_, hstop⟩
    · rw [List.cons_append, ← htail]
      exact hcons (by rcases hkind with rfl | rfl <;> simp [hk])
    · simp only [Expr.depth]
      omega
  cases hk : (peek closing ts).kind <;> simp only [hk] at h
  case number => exact hliteral hk (.inl rfl) h
  case text => exact hliteral hk (.inr (.inl rfl)) h
  case truth => exact hliteral hk (.inr (.inr rfl)) h
  case identifier =>
    exact (ih.continuation (.name hk) hdepth h).prepend (hcons (by simp [hk]))
  case subtract => exact hunary hk (.inl rfl) h
  case notWord => exact hunary hk (.inr rfl) h
  case openParen =>
    obtain ⟨⟨inner, vs⟩, hinner, h⟩ := bind_eq_ok h
    obtain ⟨⟨closer, xs⟩, htake, h⟩ := bind_eq_ok h
    dsimp only at htake h
    obtain ⟨ws, htail, hexpr, hlevel, -⟩ := completes_nil.1 (ih.expression hinner)
    obtain ⟨hvs, hcloser⟩ := take_eq_ok hclosing (by decide) htake
    have hgroup := ih.continuation (.group hk hexpr hcloser) (by rw [Expr.depth]; omega) h
    refine hgroup.prepend ?_
    rw [List.append_assoc, List.singleton_append, ← hvs]
    rw [← htail]
    exact hcons (by simp [hk])
  case openBracket =>
    obtain ⟨⟨⟨items, closer⟩, vs⟩, hitems, h⟩ := bind_eq_ok h
    obtain ⟨ws, rest, hall, htail, hlist, hcloser, hlevel⟩ :=
      ih.items Kind.noConfusion hdepth hitems
    rw [List.reverse_nil, List.nil_append] at hall
    subst hall
    have hlist := ih.continuation (.list hk hlist hcloser) (by rw [Expr.depth]; exact hlevel) h
    refine hlist.prepend ?_
    rw [List.append_assoc, List.singleton_append, ← htail]
    exact hcons (by simp [hk])
  all_goals exact absurd h (by simp)

/-- The step for items between commas. -/
theorem items_sound {fuel : Nat} (hclosing : closing.kind = .endOfInput)
    (ih : ExpressionsSound limit closing fuel) {closer : Kind} {depth : Nat} {ts us : List Token}
    {found all : List Expr} {last : Token} (hcloser : closer ≠ .endOfInput)
    (hdepth : depth ≤ limit)
    (h : items limit closing (fuel + 1) closer found depth ts = .ok ((all, last), us)) :
    ∃ ws rest, all = found.reverse ++ rest ∧ ts = ws ++ last :: us ∧ Items ws rest ∧
      last.kind = closer
      ∧ depth + Expr.depthAll rest ≤ limit := by
  rw [items] at h
  split at h
  · rename_i hlast
    injection h with h
    injection h with h hus
    injection h with hall hl
    subst hall hl hus
    refine ⟨[], [], (List.append_nil _).symm, ?_, .nil, hlast, ?_⟩
    · exact eq_peek_cons hclosing _ (by rw [hlast]; exact hcloser)
    · rw [Expr.depthAll]
      exact hdepth
  · obtain ⟨⟨item, vs⟩, hitem, h⟩ := bind_eq_ok h
    obtain ⟨ws, hts, hexpr, hlevel, -⟩ := completes_nil.1 (ih.expression hitem)
    dsimp only at h
    split at h
    · rename_i hlast
      injection h with h
      injection h with h hus
      injection h with hall hl
      subst hall hl hus
      refine ⟨ws, [item], List.reverse_cons, ?_, .one hexpr, hlast, ?_⟩
      · rw [hts, ← eq_peek_cons hclosing _ (by rw [hlast]; exact hcloser)]
      · rw [Expr.depthAll, Expr.depthAll]
        omega
    · split at h
      · rename_i hcomma
        obtain ⟨xs, rest, hall, htail, hlist, hlast, hlevel'⟩ := ih.items hcloser hdepth h
        refine ⟨ws ++ peek closing vs :: xs, item :: rest, ?_, ?_,
          .cons hexpr hcomma hlist, hlast, ?_⟩
        · rw [hall, List.reverse_cons, List.append_assoc, List.singleton_append]
        · rw [List.append_assoc, List.cons_append, ← htail, hts,
            ← eq_peek_cons hclosing _ (by rw [hcomma]; exact Kind.noConfusion)]
        · rw [Expr.depthAll]
          omega
      · exact absurd h (by simp)

/-- **Expressions that are read are in the grammar**, by induction on the fuel. -/
theorem expressions_sound (limit : Nat) (hclosing : closing.kind = .endOfInput) (fuel : Nat) :
    ExpressionsSound limit closing fuel := by
  induction fuel with
  | zero =>
      refine ⟨?_, ?_, ?_, ?_⟩
      · intro depth ts us e h
        exact absurd h (by simp [expression])
      · intro depth ts us e _ h
        exact absurd h (by simp [operand])
      · intro depth ls ts us left e _ _ h
        exact absurd h (by simp [continuation])
      · intro closer depth ts us found all last _ _ h
        exact absurd h (by simp [items])
  | succ fuel ih =>
      refine ⟨?_, operand_sound hclosing ih, continuation_sound hclosing ih,
        items_sound hclosing ih⟩
      intro depth ts us e h
      rw [expression] at h
      obtain ⟨hlevel, h⟩ := nested_eq_ok h
      exact ih.operand hlevel h

/-! ## Soundness of statements -/

/-- Parameters that are read are in the grammar. -/
theorem params_sound (hclosing : closing.kind = .endOfInput) (fuel : Nat) :
    ∀ {found all ts us : List Token}, params closing fuel found ts = .ok (all, us) →
    ∃ ws closer rest, all = found.reverse ++ rest ∧ ts = ws ++ closer :: us ∧ Params ws rest
      ∧ closer.kind = .closeParen := by
  induction fuel with
  | zero =>
      intro found all ts us h
      exact absurd h (by simp [params])
  | succ fuel ih =>
      intro found all ts us h
      rw [params] at h
      cases hk : (peek closing ts).kind <;> simp only [hk] at h
      case closeParen =>
        obtain ⟨rfl, rfl⟩ := ok_inj h
        exact ⟨[], peek closing ts, [], (List.append_nil _).symm,
          eq_peek_cons hclosing _ (by simp [hk]), .nil, hk⟩
      case identifier =>
        have hts := eq_peek_cons hclosing ts (by simp [hk])
        cases hk' : (peek closing ts.tail).kind <;> simp only [hk'] at h
        case closeParen =>
          obtain ⟨rfl, rfl⟩ := ok_inj h
          refine ⟨[peek closing ts], peek closing ts.tail, [peek closing ts], List.reverse_cons,
            ?_, .one hk, hk'⟩
          rw [List.singleton_append, ← eq_peek_cons hclosing _ (by simp [hk'])]
          exact hts
        case comma =>
          obtain ⟨ws, closer, rest, hall, htail, hlist, hcloser⟩ := ih h
          refine ⟨peek closing ts :: peek closing ts.tail :: ws, closer,
            peek closing ts :: rest, ?_, ?_, .cons hk hk' hlist, hcloser⟩
          · rw [hall, List.reverse_cons, List.append_assoc, List.singleton_append]
          · rw [List.cons_append, List.cons_append, ← htail,
              ← eq_peek_cons hclosing _ (by simp [hk'])]
            exact hts
        all_goals exact absurd h (by simp)
      all_goals exact absurd h (by simp)

/-- What ends a block: for a whole program the end of input, which stays, and otherwise a brace,
which is taken. -/
def EndsBlock (closing : Token) (whole : Bool) (ts us : List Token) : Prop :=
  match whole with
  | true => ts = us ∧ (peek closing us).kind = .endOfInput
  | false => ∃ closer, ts = closer :: us ∧ closer.kind = .closeBrace

/-- What the readers of statements find is in the grammar, and fits below the limit. -/
structure StatementsSound (limit : Nat) (closing : Token) (fuel : Nat) : Prop where
  statements :
    ∀ {whole : Bool} {depth : Nat} {ts us : List Token} {found all : List Stmt}, depth ≤ limit →
    statements limit closing fuel whole found depth ts = .ok (all, us) →
    ∃ ws vs rest, all = found.reverse ++ rest ∧ ts = ws ++ vs ∧ Statements ws rest ∧
      EndsBlock closing whole vs us
      ∧ depth + Block.depth rest ≤ limit
  statement : ∀ {depth : Nat} {ts us : List Token} {s : Stmt},
    statement limit closing fuel depth ts = .ok (s, us) →
    ∃ ws, ts = ws ++ us ∧ Statement ws s ∧ depth + s.depth ≤ limit
  conditional : ∀ {depth : Nat} {ts us : List Token} {s : Stmt} {word : Token},
    word.kind = .ifWord →
    conditional limit closing fuel depth ts = .ok (s, us) →
    ∃ ws, ts = ws ++ us ∧ Conditional (word :: ws) s ∧ depth + s.depth ≤ limit
  braced : ∀ {depth : Nat} {ts us : List Token} {body : Block},
    braced limit closing fuel depth ts = .ok (body, us) →
    ∃ ws, ts = ws ++ us ∧ Braced ws body ∧ depth + 1 + Block.depth body ≤ limit

theorem statements_sound_step {fuel : Nat} (hclosing : closing.kind = .endOfInput)
    (ih : StatementsSound limit closing fuel) {whole : Bool} {depth : Nat} {ts us : List Token}
    {found all : List Stmt} (hdepth : depth ≤ limit)
    (h : statements limit closing (fuel + 1) whole found depth ts = .ok (all, us)) :
    ∃ ws vs rest, all = found.reverse ++ rest ∧ ts = ws ++ vs ∧ Statements ws rest ∧
      EndsBlock closing whole vs us
      ∧ depth + Block.depth rest ≤ limit := by
  rw [statements] at h
  split at h
  · rename_i hend
    split at h
    · rename_i hwhole
      obtain ⟨rfl, rfl⟩ := ok_inj h
      subst hwhole
      exact ⟨[], ts, [], (List.append_nil _).symm, rfl, .nil, ⟨rfl, hend⟩,
        by rw [Block.depth]; exact hdepth⟩
    · exact absurd h (by simp)
  · rename_i hend
    split at h
    · rename_i hbrace
      obtain ⟨rfl, rfl⟩ := ok_inj h
      simp only [Bool.and_eq_true, decide_eq_true_eq, Bool.not_eq_true'] at hbrace
      obtain ⟨hbrace, rfl⟩ := hbrace
      exact ⟨[], ts, [], (List.append_nil _).symm, rfl, .nil,
        ⟨_, eq_peek_cons hclosing _ hend, hbrace⟩, by rw [Block.depth]; exact hdepth⟩
    · obtain ⟨⟨first, vs⟩, hfirst, h⟩ := bind_eq_ok h
      obtain ⟨ws, hts, hstatement, hlevel⟩ := ih.statement hfirst
      obtain ⟨xs, vs', rest, hall, hvs, hrest, hends, hlevel'⟩ := ih.statements hdepth h
      refine ⟨ws ++ xs, vs', first :: rest, ?_, ?_, .cons hstatement hrest, hends, ?_⟩
      · rw [hall, List.reverse_cons, List.append_assoc, List.singleton_append]
      · rw [hts, List.append_assoc, ← hvs]
      · rw [Block.depth]
        omega

/-- The step for conditionals, by what follows the first block. -/
theorem conditional_sound {fuel : Nat} (hclosing : closing.kind = .endOfInput)
    (ih : StatementsSound limit closing fuel) {depth : Nat} {ts us : List Token} {s : Stmt}
    {word : Token} (hword : word.kind = .ifWord)
    (h : conditional limit closing (fuel + 1) depth ts = .ok (s, us)) :
    ∃ ws, ts = ws ++ us ∧ Conditional (word :: ws) s ∧ depth + s.depth ≤ limit := by
  rw [conditional] at h
  obtain ⟨⟨opening, ts₁⟩, hopening, h⟩ := bind_eq_ok h
  obtain ⟨⟨condition, ts₂⟩, hcondition, h⟩ := bind_eq_ok h
  obtain ⟨⟨closer, ts₃⟩, hcloser, h⟩ := bind_eq_ok h
  obtain ⟨⟨thenBlock, ts₄⟩, hthen, h⟩ := bind_eq_ok h
  dsimp only at hopening hcondition hcloser hthen h
  obtain ⟨hts, hopening⟩ := take_eq_ok hclosing (by decide) hopening
  obtain ⟨es, hts₁, hexpr, hlevel, -⟩ :=
    completes_nil.1 ((expressions_sound limit hclosing fuel).expression hcondition)
  obtain ⟨hts₂, hcloser⟩ := take_eq_ok hclosing (by decide) hcloser
  obtain ⟨bs, hts₃, hthen, hlevel'⟩ := ih.braced hthen
  split at h
  · rename_i helse
    have hts₄ := eq_peek_cons hclosing ts₄ (by simp [helse])
    split at h
    · rename_i hif
      obtain ⟨⟨inner, vs⟩, hinner, h⟩ := bind_eq_ok h
      obtain ⟨rfl, rfl⟩ := ok_inj h
      obtain ⟨-, hinner⟩ := nested_eq_ok hinner
      obtain ⟨ws, htail, hconditional, hlevel''⟩ := ih.conditional hif hinner
      have hts₄' := eq_peek_cons hclosing ts₄.tail (by simp [hif])
      refine ⟨opening :: (es ++ closer :: (bs ++ peek closing ts₄ :: peek closing ts₄.tail :: ws)),
        ?_, .elseIf hword hopening hexpr hcloser hthen helse hconditional, ?_⟩
      · simp only [List.cons_append, List.append_assoc]
        rw [← htail, ← hts₄', ← hts₄, ← hts₃, ← hts₂, ← hts₁, ← hts]
      · simp only [Stmt.depth, Block.depth]
        omega
    · obtain ⟨⟨elseBlock, vs⟩, hblock, h⟩ := bind_eq_ok h
      obtain ⟨rfl, rfl⟩ := ok_inj h
      obtain ⟨ws, htail, hblock, hlevel''⟩ := ih.braced hblock
      refine ⟨opening :: (es ++ closer :: (bs ++ peek closing ts₄ :: ws)), ?_,
        .ifThenElse hword hopening hexpr hcloser hthen helse hblock, ?_⟩
      · simp only [List.cons_append, List.append_assoc]
        rw [← htail, ← hts₄, ← hts₃, ← hts₂, ← hts₁, ← hts]
      · simp only [Stmt.depth]
        omega
  · obtain ⟨rfl, rfl⟩ := ok_inj h
    refine ⟨opening :: (es ++ closer :: bs), ?_, .ifThen hword hopening hexpr hcloser hthen, ?_⟩
    · simp only [List.cons_append, List.append_assoc]
      rw [← hts₃, ← hts₂, ← hts₁, ← hts]
    · simp only [Stmt.depth]
      omega

theorem procedure_sound {fuel : Nat} (hclosing : closing.kind = .endOfInput)
    (ih : StatementsSound limit closing fuel) {depth : Nat} {ts us : List Token} {s : Stmt}
    (hk : (peek closing ts).kind = .procedureWord)
    (h : statement limit closing (fuel + 1) depth ts = .ok (s, us)) :
    ∃ ws, ts = ws ++ us ∧ Statement ws s ∧ depth + s.depth ≤ limit := by
  unfold statement at h
  simp only [hk] at h
  have hts := eq_peek_cons hclosing ts (by simp [hk])
  obtain ⟨⟨name, ts₁⟩, hname, h⟩ := bind_eq_ok h
  obtain ⟨⟨opening, ts₂⟩, hopening, h⟩ := bind_eq_ok h
  obtain ⟨⟨params, ts₃⟩, hparams, h⟩ := bind_eq_ok h
  obtain ⟨⟨body, ts₄⟩, hbody, h⟩ := bind_eq_ok h
  dsimp only at hname hopening hparams hbody
  obtain ⟨rfl, rfl⟩ := ok_inj h
  obtain ⟨hts₀, hname⟩ := take_eq_ok hclosing (by decide) hname
  obtain ⟨hts₁, hopening⟩ := take_eq_ok hclosing (by decide) hopening
  obtain ⟨ps, closer, rest, hall, hts₂, hparams, hcloser⟩ := params_sound hclosing fuel hparams
  obtain ⟨bs, hts₃, hbody, hlevel⟩ := ih.braced hbody
  rw [List.reverse_nil, List.nil_append] at hall
  subst hall
  refine ⟨peek closing ts :: name :: opening :: (ps ++ closer :: bs), ?_,
    .procedure hk hname hopening hparams hcloser hbody, ?_⟩
  · simp only [List.cons_append, List.append_assoc]
    rw [← hts₃, ← hts₂, ← hts₁, ← hts₀]
    exact hts
  · simp only [Stmt.depth]
    omega

/-- A `REPEAT` is told apart by the word behind it. -/
theorem repeat_sound {fuel : Nat} (hclosing : closing.kind = .endOfInput)
    (ih : StatementsSound limit closing fuel) {depth : Nat} {ts us : List Token} {s : Stmt}
    (hk : (peek closing ts).kind = .repeatWord)
    (h : statement limit closing (fuel + 1) depth ts = .ok (s, us)) :
    ∃ ws, ts = ws ++ us ∧ Statement ws s ∧ depth + s.depth ≤ limit := by
  have he := expressions_sound limit hclosing fuel
  unfold statement at h
  simp only [hk] at h
  have hts := eq_peek_cons hclosing ts (by simp [hk])
  split at h
  · rename_i huntil
    have hts₀ := eq_peek_cons hclosing ts.tail (by simp [huntil])
    obtain ⟨⟨condition, ts₁⟩, hcondition, h⟩ := bind_eq_ok h
    obtain ⟨⟨body, ts₂⟩, hbody, h⟩ := bind_eq_ok h
    dsimp only at hcondition hbody
    obtain ⟨rfl, rfl⟩ := ok_inj h
    obtain ⟨es, htail, hexpr, hlevel, -⟩ := completes_nil.1 (he.expression hcondition)
    obtain ⟨bs, hts₁, hbody, hlevel'⟩ := ih.braced hbody
    refine ⟨peek closing ts :: peek closing ts.tail :: (es ++ bs), ?_,
      .repeatUntil hk huntil hexpr hbody, ?_⟩
    · simp only [List.cons_append, List.append_assoc]
      rw [← hts₁, ← htail, ← hts₀]
      exact hts
    · simp only [Stmt.depth]
      omega
  · obtain ⟨⟨count, ts₁⟩, hcount, h⟩ := bind_eq_ok h
    obtain ⟨⟨word, ts₂⟩, hword, h⟩ := bind_eq_ok h
    obtain ⟨⟨body, ts₃⟩, hbody, h⟩ := bind_eq_ok h
    dsimp only at hcount hword hbody
    obtain ⟨rfl, rfl⟩ := ok_inj h
    obtain ⟨es, htail, hexpr, hlevel, -⟩ := completes_nil.1 (he.expression hcount)
    obtain ⟨hts₁, hword⟩ := take_eq_ok hclosing (by decide) hword
    obtain ⟨bs, hts₂, hbody, hlevel'⟩ := ih.braced hbody
    refine ⟨peek closing ts :: (es ++ word :: bs), ?_, .repeatTimes hk hexpr hword hbody, ?_⟩
    · simp only [List.cons_append, List.append_assoc]
      rw [← hts₂, ← hts₁, ← htail]
      exact hts
    · simp only [Stmt.depth]
      omega

theorem forEach_sound {fuel : Nat} (hclosing : closing.kind = .endOfInput)
    (ih : StatementsSound limit closing fuel) {depth : Nat} {ts us : List Token} {s : Stmt}
    (hk : (peek closing ts).kind = .forWord)
    (h : statement limit closing (fuel + 1) depth ts = .ok (s, us)) :
    ∃ ws, ts = ws ++ us ∧ Statement ws s ∧ depth + s.depth ≤ limit := by
  have he := expressions_sound limit hclosing fuel
  unfold statement at h
  simp only [hk] at h
  have hts := eq_peek_cons hclosing ts (by simp [hk])
  obtain ⟨⟨eachWord, ts₁⟩, heach, h⟩ := bind_eq_ok h
  obtain ⟨⟨item, ts₂⟩, hitem, h⟩ := bind_eq_ok h
  obtain ⟨⟨inWord, ts₃⟩, hin, h⟩ := bind_eq_ok h
  obtain ⟨⟨list, ts₄⟩, hlist, h⟩ := bind_eq_ok h
  obtain ⟨⟨body, ts₅⟩, hbody, h⟩ := bind_eq_ok h
  dsimp only at heach hitem hin hlist hbody
  obtain ⟨rfl, rfl⟩ := ok_inj h
  obtain ⟨hts₀, heach⟩ := take_eq_ok hclosing (by decide) heach
  obtain ⟨hts₁, hitem⟩ := take_eq_ok hclosing (by decide) hitem
  obtain ⟨hts₂, hin⟩ := take_eq_ok hclosing (by decide) hin
  obtain ⟨es, hts₃, hexpr, hlevel, -⟩ := completes_nil.1 (he.expression hlist)
  obtain ⟨bs, hts₄, hbody, hlevel'⟩ := ih.braced hbody
  refine ⟨peek closing ts :: eachWord :: item :: inWord :: (es ++ bs), ?_,
    .forEach hk heach hitem hin hexpr hbody, ?_⟩
  · simp only [List.cons_append, List.append_assoc]
    rw [← hts₄, ← hts₃, ← hts₂, ← hts₁, ← hts₀]
    exact hts
  · simp only [Stmt.depth]
    omega

/-- A line that begins with an identifier is an assignment or an expression. -/
theorem line_sound {fuel : Nat} (hclosing : closing.kind = .endOfInput) {depth : Nat}
    {ts us : List Token} {s : Stmt} (hk : (peek closing ts).kind = .identifier)
    (h : statement limit closing (fuel + 1) depth ts = .ok (s, us)) :
    ∃ ws, ts = ws ++ us ∧ Statement ws s ∧ depth + s.depth ≤ limit := by
  have he := expressions_sound limit hclosing fuel
  unfold statement at h
  simp only [hk] at h
  have hts := eq_peek_cons hclosing ts (by simp [hk])
  split at h
  · rename_i hassign
    have hts₀ := eq_peek_cons hclosing ts.tail (by simp [hassign])
    obtain ⟨⟨value, ts₁⟩, hvalue, h⟩ := bind_eq_ok h
    obtain ⟨rfl, rfl⟩ := ok_inj h
    obtain ⟨es, htail, hexpr, hlevel, -⟩ := completes_nil.1 (he.expression hvalue)
    refine ⟨peek closing ts :: peek closing ts.tail :: es, ?_, .assign hk hassign hexpr, ?_⟩
    · simp only [List.cons_append]
      rw [← htail, ← hts₀]
      exact hts
    · simp only [Stmt.depth]
      omega
  · obtain ⟨⟨e, ts₁⟩, hvalue, h⟩ := bind_eq_ok h
    obtain ⟨rfl, rfl⟩ := ok_inj h
    obtain ⟨es, hes, hexpr, hlevel, -⟩ := completes_nil.1 (he.expression hvalue)
    -- the tokens of the expression begin with the identifier, since no expression is empty
    obtain ⟨first, ws, rfl, -⟩ := hexpr.starts
    have hfirst : first = peek closing ts := by
      rw [hes]
      rfl
    refine ⟨first :: ws, hes, .expression (by rw [hfirst]; exact hk) hexpr, ?_⟩
    simp only [Stmt.depth]
    omega

/-- The step for statements, by the kind of the first token. -/
theorem statement_sound {fuel : Nat} (hclosing : closing.kind = .endOfInput)
    (ih : StatementsSound limit closing fuel) {depth : Nat} {ts us : List Token} {s : Stmt}
    (h : statement limit closing (fuel + 1) depth ts = .ok (s, us)) :
    ∃ ws, ts = ws ++ us ∧ Statement ws s ∧ depth + s.depth ≤ limit := by
  have hread := h
  unfold statement at h
  cases hk : (peek closing ts).kind <;> simp only [hk] at h
  case procedureWord => exact procedure_sound hclosing ih hk hread
  case ifWord =>
    obtain ⟨ws, htail, hconditional, hlevel⟩ := ih.conditional hk h
    refine ⟨peek closing ts :: ws, ?_, .conditional hconditional, hlevel⟩
    rw [List.cons_append, ← htail]
    exact eq_peek_cons hclosing _ (by simp [hk])
  case repeatWord => exact repeat_sound hclosing ih hk hread
  case forWord => exact forEach_sound hclosing ih hk hread
  case returnWord =>
    have he := expressions_sound limit hclosing fuel
    obtain ⟨⟨value, ts₁⟩, hvalue, h⟩ := bind_eq_ok h
    obtain ⟨rfl, rfl⟩ := ok_inj h
    obtain ⟨es, htail, hexpr, hlevel, -⟩ := completes_nil.1 (he.expression hvalue)
    refine ⟨peek closing ts :: es, ?_, .returns hk hexpr, ?_⟩
    · rw [List.cons_append, ← htail]
      exact eq_peek_cons hclosing _ (by simp [hk])
    · simp only [Stmt.depth]
      omega
  case identifier => exact line_sound hclosing hk hread
  all_goals exact absurd h (by simp)

/-- **Statements that are read are in the grammar**, by induction on the fuel. -/
theorem statements_sound (limit : Nat) (hclosing : closing.kind = .endOfInput) (fuel : Nat) :
    StatementsSound limit closing fuel := by
  induction fuel with
  | zero =>
      refine ⟨?_, ?_, ?_, ?_⟩
      · intro whole depth ts us found all _ h
        exact absurd h (by simp [statements])
      · intro depth ts us s h
        exact absurd h (by simp [statement])
      · intro depth ts us s word _ h
        exact absurd h (by simp [conditional])
      · intro depth ts us body h
        exact absurd h (by simp [braced])
  | succ fuel ih =>
      refine ⟨statements_sound_step hclosing ih, statement_sound hclosing ih,
        conditional_sound hclosing ih, ?_⟩
      intro depth ts us body h
      rw [braced] at h
      obtain ⟨⟨opening, vs⟩, hopening, h⟩ := bind_eq_ok h
      obtain ⟨hts, hopening⟩ := take_eq_ok hclosing (by decide) hopening
      obtain ⟨hlevel, h⟩ := nested_eq_ok h
      obtain ⟨ws, xs, rest, hall, hvs, hstatements, ⟨closer, hxs, hcloser⟩, hlevel'⟩ :=
        ih.statements hlevel h
      rw [List.reverse_nil, List.nil_append] at hall
      subst hall
      refine ⟨opening :: (ws ++ [closer]), ?_, .mk hopening hstatements hcloser, hlevel'⟩
      rw [List.cons_append, List.append_assoc, List.singleton_append, ← hxs, ← hvs]
      exact hts

end Reading

/-- What is read from closed tokens is a program of the grammar, made of the significant tokens up
to an end of input. -/
theorem statements_of_parseTokens {body : List Token} {last : Token} {program : Block}
    (hlast : last.kind = .endOfInput) (h : parseTokens (body ++ [last]) = .ok program) :
    ∃ ws vs, significant body = ws ++ vs ∧ Grammar.Statements ws program
      ∧ (Reading.peek last vs).kind = .endOfInput ∧ Block.depth program ≤ nestingLimit := by
  rw [parseTokens_eq_read body hlast] at h
  cases hread :
    Reading.statements nestingLimit last (4 * (body.length + 1) + 8) true [] 0
      (significant body) with
  | error halt => rw [hread] at h; exact absurd h (by simp [Except.map])
  | ok found =>
      obtain ⟨all, us⟩ := found
      rw [hread] at h
      injection h with h
      obtain ⟨ws, vs, rest, hall, hbody, hstatements, ⟨rfl, hends⟩, hdepth⟩ :=
        (Reading.statements_sound nestingLimit hlast _).statements (Nat.zero_le _) hread
      rw [List.reverse_nil, List.nil_append] at hall
      dsimp only at h
      rw [← h, hall]
      exact ⟨ws, vs, hbody, hstatements, hends, by omega⟩

end Pseudocode
