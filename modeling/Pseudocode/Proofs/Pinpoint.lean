import Pseudocode.Proofs.Layout
import Pseudocode.Proofs.ParserCompleteness

/-!
# A syntax error is about the first token that cannot stand where it does

Where reading a program fails, it fails at the earliest token that is wrong: the tokens before it
can be completed to a program, and with it they cannot, whatever comes behind. Only the limit on
nesting is apart from this. It is not of the grammar, and refuses programs that are in it.

Both halves come from one property of the readers (`Pinpoints`). What a reader does is settled by
the tokens that it takes and the one that it looks at last, so that it does the same on every list
that agrees with the first one so far, and with any higher limit. If such a list were in the
grammar, a reader with a limit high enough would accept it. And at each place where a reader gives
up, what is open at that place can be closed.
-/

namespace Pseudocode

open Grammar

namespace Reading

variable {α β : Type} {limit : Nat} {closing : Token} {Open Open' : List Token → Prop}
  {ts : List Token}

/-- A phrase of this form can begin with these tokens. -/
def Opens (Phrase : List Token → α → Prop) (before : List Token) : Prop :=
  ∃ more a, Phrase (before ++ more) a

theorem opens {Phrase : List Token → α → Prop} {before ws : List Token} {a : α} (h : Phrase ws a)
    (hbefore : before <+: ws) : Opens Phrase before := by
  obtain ⟨more, rfl⟩ := hbefore
  exact ⟨more, a, h⟩

/-- What a reader made of `ts` was settled by the tokens that it took and the one that it looked at
last. It makes the same of any list that goes on otherwise behind that one, with this limit and
with a higher one. Where it refused a token, the tokens before are `Open` to a completion. -/
structure Pinpoints (limit : Nat) (closing : Token) (Open : List Token → Prop) (ts : List Token)
    (read : Nat → List Token → Except Halt (α × List Token)) : Prop where
  found : ∀ {a : α} {us : List Token}, read limit ts = .ok (a, us) →
    ∃ ws, ts = ws ++ us
      ∧ ∀ l us', limit ≤ l → peek closing us' = peek closing us → read l (ws ++ us') = .ok (a, us')
  refused : ∀ {e : Error}, read limit ts = .error (.error e) → (∀ span, e ≠ .nestingTooDeep span) →
    ∃ before rest, ts = before ++ rest ∧ Refuses (peek closing rest) e ∧ Open before
      ∧ ∀ l rest', limit ≤ l → peek closing rest' = peek closing rest →
        read l (before ++ rest') = .error (.error e)

theorem peek_append (ws : List Token) {us vs : List Token}
    (h : peek closing us = peek closing vs) :
    peek closing (ws ++ us) = peek closing (ws ++ vs) := by
  cases ws with
  | nil => exact h
  | cons w ws => rfl

namespace Pinpoints

variable {read read' : Nat → List Token → Except Halt (α × List Token)}

/-- A reader may be replaced by one that does the same for any higher limit, on lists that have the
same next token. -/
theorem congr (h : ∀ l us, limit ≤ l → peek closing us = peek closing ts → read l us = read' l us)
    (hread : Pinpoints limit closing Open ts read') : Pinpoints limit closing Open ts read := by
  have hts : read limit ts = read' limit ts := h limit ts (Nat.le_refl _) rfl
  constructor
  · intro a us hok
    rw [hts] at hok
    obtain ⟨ws, rfl, hagain⟩ := hread.found hok
    refine ⟨ws, rfl, fun l us' hl hpeek => ?_⟩
    rw [h l _ hl (peek_append ws hpeek)]
    exact hagain l us' hl hpeek
  · intro e herror hlimit
    rw [hts] at herror
    obtain ⟨before, rest, rfl, hrefuses, hopen, hagain⟩ := hread.refused herror hlimit
    refine ⟨before, rest, rfl, hrefuses, hopen, fun l rest' hl hpeek => ?_⟩
    rw [h l _ hl (peek_append before hpeek)]
    exact hagain l rest' hl hpeek

theorem mono (h : ∀ before, Open before → Open' before)
    (hread : Pinpoints limit closing Open ts read) :
    Pinpoints limit closing Open' ts read := by
  refine ⟨hread.found, fun herror hlimit => ?_⟩
  obtain ⟨before, rest, hts, hrefuses, hopen, hagain⟩ := hread.refused herror hlimit
  exact ⟨before, rest, hts, hrefuses, h before hopen, hagain⟩

/-- A reader that takes the next token and looks at the one behind it. -/
theorem behind_peek (hclosing : closing.kind = .endOfInput)
    (hpeek : (peek closing ts).kind ≠ .endOfInput)
    (h : ∀ l us, peek closing us = peek closing ts.tail →
      read l (peek closing ts :: us) = read' l us)
    (hread : Pinpoints limit closing (fun before => Open (peek closing ts :: before))
      ts.tail read') :
    Pinpoints limit closing Open ts read := by
  have hts := eq_peek_cons hclosing ts hpeek
  constructor
  · intro a us hok
    rw [hts, h limit ts.tail rfl] at hok
    obtain ⟨ws, htail, hagain⟩ := hread.found hok
    refine ⟨peek closing ts :: ws, ?_, fun l us' hl hus => ?_⟩
    · rw [List.cons_append, ← htail]
      exact hts
    · rw [List.cons_append, h l _ (by rw [htail]; exact peek_append ws hus)]
      exact hagain l us' hl hus
  · intro e herror hlimit
    rw [hts, h limit ts.tail rfl] at herror
    obtain ⟨before, rest, htail, hrefuses, hopen, hagain⟩ := hread.refused herror hlimit
    refine ⟨peek closing ts :: before, rest, ?_, hrefuses, hopen, fun l rest' hl hrest => ?_⟩
    · rw [List.cons_append, ← htail]
      exact hts
    · rw [List.cons_append, h l _ (by rw [htail]; exact peek_append before hrest)]
      exact hagain l rest' hl hrest

/-- A reader that takes the next token, and then pinpoints what is behind it. -/
theorem behind (hclosing : closing.kind = .endOfInput)
    (hpeek : (peek closing ts).kind ≠ .endOfInput)
    (hread :
      Pinpoints limit closing (fun before => Open (peek closing ts :: before)) ts.tail read) :
    Pinpoints limit closing Open ts (fun l us => read l us.tail) :=
  behind_peek hclosing hpeek (fun _ _ _ => rfl) hread

/-- A reader that takes nothing. -/
theorem answer {a : α} (h : ∀ l us, peek closing us = peek closing ts → read l us = .ok (a, us)) :
    Pinpoints limit closing Open ts read := by
  constructor
  · intro b us hok
    rw [h limit ts rfl] at hok
    obtain ⟨rfl, rfl⟩ := ok_inj hok
    exact ⟨[], rfl, fun l us' _ hpeek => h l us' hpeek⟩
  · intro e herror
    rw [h limit ts rfl] at herror
    exact absurd herror (by simp)

/-- A reader that refuses the next token, where what is open before it can be closed. -/
theorem refuse {e : Error} (hopen : Open []) (hrefuses : Refuses (peek closing ts) e)
    (h : ∀ l us, peek closing us = peek closing ts → read l us = .error (.error e)) :
    Pinpoints limit closing Open ts read := by
  constructor
  · intro a us hok
    rw [h limit ts rfl] at hok
    exact absurd hok (by simp)
  · intro e' herror _
    rw [h limit ts rfl] at herror
    injection herror with herror
    injection herror with herror
    subst herror
    exact ⟨[], ts, rfl, hrefuses, hopen, fun l rest' _ hpeek => h l rest' hpeek⟩

/-- A reader that ended for a reason that is not of the grammar. -/
theorem halted {halt : Halt} (h : read limit ts = .error halt)
    (hhalt : ∀ e, halt = .error e → ∃ span, e = .nestingTooDeep span) :
    Pinpoints limit closing Open ts read := by
  constructor
  · intro a us hok
    exact absurd (h.symm.trans hok) (by simp)
  · intro e herror hlimit
    rw [h] at herror
    injection herror with herror
    obtain ⟨span, he⟩ := hhalt e herror
    exact absurd he (hlimit span)

theorem exhausted (h : read limit ts = .error .outOfFuel) : Pinpoints limit closing Open ts read :=
  halted h fun _ he => Halt.noConfusion he

theorem nested {span : Span} {inner : Nat → Nat → List Token → Except Halt (α × List Token)}
    {depth : Nat}
    (h : depth < limit → Pinpoints limit closing Open ts (fun l us => inner l (depth + 1) us)) :
    Pinpoints limit closing Open ts (fun l us => nested l span (inner l) depth us) := by
  by_cases hdepth : depth < limit
  · exact congr (fun l us hl _ => if_pos (Nat.lt_of_lt_of_le hdepth hl)) (h hdepth)
  · exact halted (if_neg hdepth) fun e he => ⟨span, (Halt.error.inj he).symm⟩

/-- What is read in two parts. The tokens of the first part stand before all that the second one
looks at. -/
theorem bind {next : Nat → α × List Token → Except Halt (β × List Token)}
    (hread : Pinpoints limit closing Open ts read)
    (hnext : ∀ a ws us, ts = ws ++ us → read limit ts = .ok (a, us) →
      Pinpoints limit closing (fun before => Open (ws ++ before)) us
        (fun l us => next l (a, us))) :
    Pinpoints limit closing Open ts (fun l us => read l us >>= next l) := by
  constructor
  · intro b vs hok
    obtain ⟨⟨a, us⟩, hfirst, hok⟩ := bind_eq_ok hok
    obtain ⟨ws, hts, hagain⟩ := hread.found hfirst
    obtain ⟨ws', rfl, hagain'⟩ := (hnext a ws us hts hfirst).found hok
    refine ⟨ws ++ ws', by rw [hts, List.append_assoc], fun l vs' hl hpeek => ?_⟩
    rw [List.append_assoc, hagain l (ws' ++ vs') hl (peek_append ws' hpeek)]
    exact hagain' l vs' hl hpeek
  · intro e herror hlimit
    cases hfirst : read limit ts with
    | error halt =>
        -- the second part was never read, here or on any
        -- list that looks the same up to the refused token
        rw [hfirst] at herror
        have hhalt : (.error halt : Except Halt (β × List Token)) = .error (.error e) := herror
        injection hhalt with hhalt
        rw [hhalt] at hfirst
        obtain ⟨before, rest, hts, hrefuses, hopen, hagain⟩ := hread.refused hfirst hlimit
        refine ⟨before, rest, hts, hrefuses, hopen, fun l rest' hl hpeek => ?_⟩
        rw [hagain l rest' hl hpeek]
        rfl
    | ok x =>
        obtain ⟨a, us⟩ := x
        rw [hfirst] at herror
        obtain ⟨ws, hts, hagain⟩ := hread.found hfirst
        obtain ⟨before, rest, rfl, hrefuses, hopen, hagain'⟩ :=
          (hnext a ws us hts hfirst).refused herror hlimit
        refine ⟨ws ++ before, rest, by rw [hts, List.append_assoc], hrefuses, hopen,
          fun l rest' hl hpeek => ?_⟩
        rw [List.append_assoc, hagain l (before ++ rest') hl (peek_append before hpeek)]
        exact hagain' l rest' hl hpeek

/-- What is read and then made a part of something. -/
theorem wrap (f : α → β) (hread : Pinpoints limit closing Open ts read) :
    Pinpoints limit closing Open ts (fun l us => read l us >>= fun x => pure (f x.1, x.2)) :=
  hread.bind fun a _ _ _ _ => .answer (a := f a) fun _ _ _ => rfl

/-- A token of a given kind and what is read behind it. -/
theorem bind_take {kind : Kind} {next : Nat → Token × List Token → Except Halt (β × List Token)}
    (hclosing : closing.kind = .endOfInput) (hkind : kind ≠ .endOfInput) (hopen : Open [])
    (hnext : ∀ t us, t.kind = kind →
      Pinpoints limit closing (fun before => Open (t :: before)) us (fun l us => next l (t, us))) :
    Pinpoints limit closing Open ts (fun l us => take closing kind us >>= next l) := by
  by_cases hpeek : (peek closing ts).kind = kind
  · refine (behind hclosing (by rw [hpeek]; exact hkind) (hnext _ ts.tail hpeek)).congr
      fun l us _ hus => ?_
    rw [take, hus, if_pos hpeek]
    rfl
  · refine refuse (e := .unexpectedToken (.kind kind) (peek closing ts)) hopen .unexpectedToken
      fun l us hus => ?_
    rw [take, hus, if_neg hpeek]
    rfl

end Pinpoints

/-! ## Expressions -/

/-- A token that stands for any of its kind. -/
def mark (kind : Kind) : Token := ⟨"", kind, 0⟩

theorem mark_kind (kind : Kind) : (mark kind).kind = kind := rfl

theorem expression_mark : Expression [mark .truth] (.literal (mark .truth)) :=
  .primary (.literal (.inr (.inr (mark_kind .truth))))

/-- What the readers of expressions refuse stands behind tokens that an expression can begin
with. -/
structure ExpressionsPinpoint (limit : Nat) (closing : Token) (fuel : Nat) : Prop where
  expression : ∀ depth ts,
    Pinpoints limit closing (Opens Expression) ts (fun l us => expression l closing fuel depth us)
  operand : ∀ {depth : Nat} (ts : List Token), depth ≤ limit →
    Pinpoints limit closing (Opens Expression) ts (fun l us => operand l closing fuel depth us)
  continuation : ∀ {depth : Nat} {ls : List Token} {left : Expr} (ts : List Token),
    Primary ls left →
    depth + left.depth ≤ limit →
    Pinpoints limit closing (fun before => Opens Expression (ls ++ before)) ts
      (fun l us => continuation l closing fuel left depth us)
  items : ∀ {depth : Nat} {closer : Kind} (found : List Expr) (ts : List Token),
    closer ≠ .endOfInput →
    depth ≤ limit →
    Pinpoints limit closing (Opens Items) ts
      (fun l us => items l closing fuel closer found depth us)

variable {fuel depth : Nat}

/-- An expression and what is read behind it. -/
theorem ExpressionsPinpoint.bind_expression (hclosing : closing.kind = .endOfInput)
    (h : ExpressionsPinpoint limit closing fuel)
    {next : Nat → Expr × List Token → Except Halt (β × List Token)}
    (hopen : ∀ before more e, Expression (before ++ more) e → Open before)
    (hnext : ∀ e ws us, Expression ws e → depth + 1 + e.depth ≤ limit →
      (peek closing us).kind.isBinaryOperator = false →
      Pinpoints limit closing (fun before => Open (ws ++ before)) us
        (fun l us => next l (e, us))) :
    Pinpoints limit closing Open ts (fun l us =>
      Reading.expression l closing fuel depth us >>= next l) := by
  refine ((h.expression depth ts).mono fun before ⟨more, e, he⟩ => hopen before more e he).bind ?_
  intro e ws us hts hread
  obtain ⟨ws', hts', hexpr, hlevel, hstop⟩ :=
    completes_nil.1 ((expressions_sound limit hclosing fuel).expression hread)
  obtain rfl : ws = ws' := List.append_cancel_right (hts.symm.trans hts')
  exact hnext e ws us hexpr hlevel hstop

/-- The items up to their closing token, and what is read behind it. -/
theorem ExpressionsPinpoint.bind_items (hclosing : closing.kind = .endOfInput)
    (h : ExpressionsPinpoint limit closing fuel) {closer : Kind} (hcloser : closer ≠ .endOfInput)
    (hdepth : depth ≤ limit)
    {next : Nat → (List Expr × Token) × List Token → Except Halt (β × List Token)}
    (hopen : ∀ before more all, Items (before ++ more) all → Open before)
    (hnext : ∀ all last ws us, Items ws all → last.kind = closer →
      depth + Expr.depthAll all ≤ limit →
      Pinpoints limit closing (fun before => Open (ws ++ last :: before)) us
        (fun l us => next l ((all, last), us))) :
    Pinpoints limit closing Open ts (fun l us =>
      Reading.items l closing fuel closer [] depth us >>= next l) := by
  refine ((h.items [] ts hcloser hdepth).mono
    fun before ⟨more, all, hall⟩ => hopen before more all hall).bind ?_
  rintro ⟨all, last⟩ ws us hts hread
  obtain ⟨ws', rest, hall, hts', hitems, hlast, hlevel⟩ :=
    (expressions_sound limit hclosing fuel).items hcloser hdepth hread
  obtain rfl : all = rest := hall
  obtain rfl : ws = ws' ++ [last] := List.append_cancel_right (by rw [← hts, hts']; simp)
  simpa using hnext all last ws' us hitems hlast hlevel

/-- The step for expressions, by the kind of the first token. -/
theorem operand_pinpoints (hclosing : closing.kind = .endOfInput)
    (ih : ExpressionsPinpoint limit closing fuel) (ts : List Token) (hdepth : depth ≤ limit) :
    Pinpoints limit closing (Opens Expression) ts
      (fun l us => operand l closing (fuel + 1) depth us) := by
  -- all the lists in question have one next token, so that one case of the reader covers them
  refine Pinpoints.congr (fun l us _ hpeek => by rw [operand, hpeek]) ?_
  have hsign : (peek closing ts).kind = .subtract ∨ (peek closing ts).kind = .notWord →
      Pinpoints limit closing (fun before => Opens Expression (peek closing ts :: before)) ts.tail
        (fun l us => expression l closing fuel depth us >>=
          fun x => pure (Expr.unary (peek closing ts) x.1, x.2)) := by
    intro hk
    refine ((ih.expression depth ts.tail).mono ?_).wrap (Expr.unary (peek closing ts))
    rintro before ⟨more, e, he⟩
    exact opens (.unary hk he) (by simp)
  cases hk : (peek closing ts).kind <;> dsimp only
  case number =>
      exact .behind hclosing (by simp [hk]) (ih.continuation ts.tail (.literal (.inl hk)) hdepth)
  case text =>
      exact .behind hclosing (by simp [hk])
        (ih.continuation ts.tail (.literal (.inr (.inl hk))) hdepth)
  case truth =>
      exact .behind hclosing (by simp [hk])
        (ih.continuation ts.tail (.literal (.inr (.inr hk))) hdepth)
  case identifier =>
      exact .behind hclosing (by simp [hk]) (ih.continuation ts.tail (.name hk) hdepth)
  case subtract => exact .behind hclosing (by simp [hk]) (hsign (.inl hk))
  case notWord => exact .behind hclosing (by simp [hk]) (hsign (.inr hk))
  case openParen =>
    refine .behind hclosing (by simp [hk])
      (ih.bind_expression hclosing ?_ fun inner ws us hinner hlevel _ => ?_)
    · rintro before more e he
      exact opens (.primary (.group hk he (mark_kind _))) (by simp)
    · dsimp only
      refine .bind_take hclosing (by decide) ?_ fun closer vs hcloser => ?_
      · exact opens (.primary (.group hk hinner (mark_kind _))) (by simp)
      · simpa using ih.continuation vs (.group hk hinner hcloser) (by rw [Expr.depth]; omega)
  case openBracket =>
    refine .behind hclosing (by simp [hk]) (ih.bind_items hclosing (by decide) hdepth ?_ ?_)
    · rintro before more all hall
      exact opens (.primary (.list hk hall (mark_kind _))) (by simp)
    · intro all last ws us hall hlast hlevel
      simpa using ih.continuation us (.list hk hall hlast) (by rw [Expr.depth]; exact hlevel)
  all_goals exact .refuse (opens expression_mark (by simp)) .expectedExpression fun l us _ => rfl

theorem continuation_pinpoints (hclosing : closing.kind = .endOfInput)
    (ih : ExpressionsPinpoint limit closing fuel) {ls : List Token} {left : Expr} (ts : List Token)
    (hleft : Primary ls left) (hdepth : depth + left.depth ≤ limit) :
    Pinpoints limit closing (fun before => Opens Expression (ls ++ before)) ts
      (fun l us => continuation l closing (fuel + 1) left depth us) := by
  refine Pinpoints.congr (fun l us _ hpeek => by unfold continuation; rw [hpeek]) ?_
  by_cases hbinary : (peek closing ts).kind.isBinaryOperator = true
  · simp only [if_pos hbinary]
    have hpeek : (peek closing ts).kind ≠ .endOfInput := by
      intro hend
      rw [hend] at hbinary
      exact absurd hbinary (by decide)
    refine .behind hclosing hpeek (ih.bind_expression hclosing ?_ fun right ws us _ _ hstop => ?_)
    · rintro before more e he
      exact opens (.binary hleft (mem_binaryOperators.mpr hbinary) he) (by simp)
    · -- no operator is left behind a right operand, so that the next round ends the loop
      cases fuel with
      | zero => exact .exhausted (by rw [continuation])
      | succ fuel =>
          refine .answer (a := .binary left (peek closing ts) right) fun l vs hvs => ?_
          exact continuation_stop fuel (by rw [hvs]; exact hstop)
            fun callee hname => Expr.noConfusion hname
  · simp only [if_neg hbinary]
    cases left
    case name callee =>
      cases hk : (peek closing ts).kind
      case openParen =>
        obtain ⟨t, rfl, rfl, hname⟩ : ∃ t, ls = [t] ∧ t = callee ∧ t.kind = .identifier := by
          cases hleft with
          | name hkind => exact ⟨_, rfl, rfl, hkind⟩
        have hlimit : depth ≤ limit := Nat.le_trans (Nat.le_add_right _ _) hdepth
        refine .behind hclosing (by simp [hk]) (ih.bind_items hclosing (by decide) hlimit ?_ ?_)
        · rintro before more all hall
          exact opens (.primary (.call hname hk hall (mark_kind _))) (by simp)
        · -- the call is an operand in turn, and an operator may follow it
          intro all last ws us hall hlast hlevel
          simpa using ih.continuation us (.call hname hk hall hlast)
            (by rw [Expr.depth]; exact hlevel)
      all_goals exact .answer fun l us _ => rfl
    all_goals cases (peek closing ts).kind <;> exact .answer fun l us _ => rfl

theorem items_pinpoints (hclosing : closing.kind = .endOfInput)
    (ih : ExpressionsPinpoint limit closing fuel) {closer : Kind} (found : List Expr)
    (ts : List Token) (hcloser : closer ≠ .endOfInput) (hdepth : depth ≤ limit) :
    Pinpoints limit closing (Opens Items) ts
      (fun l us => items l closing (fuel + 1) closer found depth us) := by
  refine Pinpoints.congr (fun l us _ hpeek => by rw [items, hpeek]) ?_
  by_cases hlast : (peek closing ts).kind = closer
  · simp only [if_pos hlast]
    exact .behind hclosing (by rw [hlast]; exact hcloser) (.answer fun l us _ => rfl)
  · simp only [if_neg hlast]
    refine ih.bind_expression hclosing ?_ fun item ws us hitem _ _ => ?_
    · rintro before more e he
      exact opens (.one he) (by simp)
    · refine Pinpoints.congr (fun l us _ hpeek => by rw [hpeek]) ?_
      by_cases hlast : (peek closing us).kind = closer
      · simp only [if_pos hlast]
        exact .behind hclosing (by rw [hlast]; exact hcloser) (.answer fun l us _ => rfl)
      · simp only [if_neg hlast]
        by_cases hcomma : (peek closing us).kind = .comma
        · simp only [if_pos hcomma]
          refine .behind hclosing (by simp [hcomma]) ((ih.items _ us.tail hcloser hdepth).mono ?_)
          -- the items may end behind a comma, so nothing has to be added to complete them
          rintro before ⟨more, rest, hrest⟩
          exact opens (.cons hitem hcomma hrest) (by simp)
        · simp only [if_neg hcomma]
          exact .refuse (opens (.one hitem) (by simp)) .unexpectedToken fun l us _ => rfl

/-- **Readers of expressions refuse the first token that is wrong**, by induction on the fuel. -/
theorem expressions_pinpoint (hclosing : closing.kind = .endOfInput) (fuel : Nat) :
    ExpressionsPinpoint limit closing fuel := by
  induction fuel with
  | zero =>
      refine ⟨?_, ?_, ?_, ?_⟩
      · exact fun depth ts => .exhausted (by rw [expression])
      · exact fun ts _ => .exhausted (by rw [operand])
      · exact fun ts _ _ => .exhausted (by rw [continuation])
      · exact fun found ts _ _ => .exhausted (by rw [items])
  | succ fuel ih =>
      refine ⟨?_, operand_pinpoints hclosing ih, continuation_pinpoints hclosing ih,
        items_pinpoints hclosing ih⟩
      intro depth ts
      refine Pinpoints.congr (fun l us _ hpeek => by rw [expression, hpeek]) ?_
      exact .nested fun hdepth => ih.operand ts hdepth

/-! ## Statements -/

theorem params_pinpoint (hclosing : closing.kind = .endOfInput) (fuel : Nat)
    (found ts : List Token) :
    Pinpoints limit closing (Opens Params) ts (fun _ us => params closing fuel found us) := by
  induction fuel generalizing found ts with
  | zero => exact .exhausted (by rw [params])
  | succ fuel ih =>
      refine Pinpoints.congr (fun _ us _ hpeek => by rw [params, hpeek]) ?_
      cases hk : (peek closing ts).kind <;> dsimp only
      case closeParen => exact .behind hclosing (by simp [hk]) (.answer fun _ us _ => rfl)
      case identifier =>
        refine .behind_peek hclosing (by simp [hk])
          (fun _ us hpeek => by rw [List.tail_cons, hpeek]) ?_
        cases hk' : (peek closing ts.tail).kind <;> dsimp only
        case closeParen => exact .behind hclosing (by simp [hk']) (.answer fun _ us _ => rfl)
        case comma =>
          refine .behind hclosing (by simp [hk']) ((ih _ ts.tail.tail).mono ?_)
          rintro before ⟨more, rest, hrest⟩
          exact opens (.cons hk hk' hrest) (by simp)
        all_goals exact .refuse (opens (.one hk) (by simp)) .unexpectedToken fun _ us _ => rfl
      all_goals exact .refuse (opens .nil (by simp)) .unexpectedToken fun _ us _ => rfl

/-- The names up to their closing parenthesis, and what is read behind it. -/
theorem Pinpoints.bind_params (hclosing : closing.kind = .endOfInput)
    {next : Nat → List Token × List Token → Except Halt (β × List Token)}
    (hopen : ∀ before more all, Params (before ++ more) all → Open before)
    (hnext : ∀ all closer ws us, Params ws all → closer.kind = .closeParen →
      Pinpoints limit closing (fun before => Open (ws ++ closer :: before)) us
        (fun l us => next l (all, us))) :
    Pinpoints limit closing Open ts (fun l us => params closing fuel [] us >>= next l) := by
  have hparams : Pinpoints limit closing Open ts (fun _ us => params closing fuel [] us) :=
    (params_pinpoint hclosing fuel [] ts).mono
      fun before ⟨more, all, hall⟩ => hopen before more all hall
  refine hparams.bind ?_
  intro all ws us hts hread
  obtain ⟨ws', closer, rest, hall, hts', hparams, hcloser⟩ := params_sound hclosing fuel hread
  obtain rfl : all = rest := hall
  obtain rfl : ws = ws' ++ [closer] := List.append_cancel_right (by rw [← hts, hts']; simp)
  simpa using hnext all closer ws' us hparams hcloser

/-- What the readers of statements refuse stands behind tokens that such a phrase can begin
with. -/
structure StatementsPinpoint (limit : Nat) (closing : Token) (fuel : Nat) : Prop where
  statements :
    ∀ {depth : Nat} (whole : Bool) (found : List Stmt) (ts : List Token), depth ≤ limit →
    Pinpoints limit closing (Opens Statements) ts
      (fun l us => statements l closing fuel whole found depth us)
  statement : ∀ (depth : Nat) (ts : List Token),
    Pinpoints limit closing (Opens Statement) ts (fun l us => statement l closing fuel depth us)
  conditional : ∀ {word : Token} (depth : Nat) (ts : List Token), word.kind = .ifWord →
    Pinpoints limit closing (fun before => Opens Conditional (word :: before)) ts
      (fun l us => conditional l closing fuel depth us)
  braced : ∀ (depth : Nat) (ts : List Token),
    Pinpoints limit closing (Opens Braced) ts (fun l us => braced l closing fuel depth us)

/-- A block in braces and what is read behind it. -/
theorem StatementsPinpoint.bind_braced (hclosing : closing.kind = .endOfInput)
    (h : StatementsPinpoint limit closing fuel)
    {next : Nat → Block × List Token → Except Halt (β × List Token)}
    (hopen : ∀ before more body, Braced (before ++ more) body → Open before)
    (hnext : ∀ body ws us, Braced ws body →
      Pinpoints limit closing (fun before => Open (ws ++ before)) us
        (fun l us => next l (body, us))) :
    Pinpoints limit closing Open ts (fun l us =>
      Reading.braced l closing fuel depth us >>= next l) := by
  refine ((h.braced depth ts).mono fun before ⟨more, body, hbody⟩ =>
    hopen before more body hbody).bind ?_
  intro body ws us hts hread
  obtain ⟨ws', hts', hbody, -⟩ := (statements_sound limit hclosing fuel).braced hread
  obtain rfl : ws = ws' := List.append_cancel_right (hts.symm.trans hts')
  exact hnext body ws us hbody

theorem statements_pinpoints (hclosing : closing.kind = .endOfInput)
    (ih : StatementsPinpoint limit closing fuel) (whole : Bool) (found : List Stmt)
    (ts : List Token) (hdepth : depth ≤ limit) :
    Pinpoints limit closing (Opens Statements) ts
      (fun l us => statements l closing (fuel + 1) whole found depth us) := by
  refine Pinpoints.congr (fun l us _ hpeek => by rw [statements, hpeek]) ?_
  by_cases hend : (peek closing ts).kind = .endOfInput
  · simp only [if_pos hend]
    cases whole with
    | true => exact .answer fun l us _ => rfl
    | false => exact .refuse (opens .nil (by simp)) .unterminatedBlock fun l us _ => rfl
  · simp only [if_neg hend]
    by_cases hbrace : ((peek closing ts).kind = .closeBrace && !whole) = true
    · simp only [if_pos hbrace]
      exact .behind hclosing hend (.answer fun l us _ => rfl)
    · simp only [if_neg hbrace]
      refine ((ih.statement depth ts).mono ?_).bind fun first ws us hts hread => ?_
      · rintro before ⟨more, s, hs⟩
        exact opens (.cons hs .nil) (by simp)
      · -- what was taken is a statement, and completes with whatever completes the rest
        obtain ⟨ws', hts', hfirst, -⟩ := (statements_sound limit hclosing fuel).statement hread
        obtain rfl : ws = ws' := List.append_cancel_right (hts.symm.trans hts')
        refine (ih.statements whole (first :: found) us hdepth).mono ?_
        rintro before ⟨more, rest, hrest⟩
        exact opens (.cons hfirst hrest) (by simp)

theorem braced_mark : Braced [mark .openBrace, mark .closeBrace] [] :=
  .mk (mark_kind .openBrace) .nil (mark_kind .closeBrace)

/-- The step for conditionals. -/
theorem conditional_pinpoints (hclosing : closing.kind = .endOfInput)
    (ih : StatementsPinpoint limit closing fuel) {word : Token} (depth : Nat) (ts : List Token)
    (hword : word.kind = .ifWord) :
    Pinpoints limit closing (fun before => Opens Conditional (word :: before)) ts
      (fun l us => conditional l closing (fuel + 1) depth us) := by
  have hexpressions : ExpressionsPinpoint limit closing fuel := expressions_pinpoint hclosing fuel
  refine Pinpoints.congr (fun l us _ _ => by rw [conditional]) ?_
  refine .bind_take hclosing (by decide) ?_ fun opening us₁ hopening => ?_
  · exact opens (.ifThen hword (mark_kind _) expression_mark (mark_kind _) braced_mark) (by simp)
  refine hexpressions.bind_expression hclosing ?_ fun condition es us₂ hcondition _ _ => ?_
  · rintro before more e he
    exact opens (.ifThen hword hopening he (mark_kind _) braced_mark) (by simp)
  dsimp only
  refine .bind_take hclosing (by decide) ?_ fun closer us₃ hcloser => ?_
  · exact opens (.ifThen hword hopening hcondition (mark_kind _) braced_mark) (by simp)
  refine ih.bind_braced hclosing ?_ fun thenBlock bs us₄ hthen => ?_
  · rintro before more body hbody
    exact opens (.ifThen hword hopening hcondition hcloser hbody) (by simp)
  refine Pinpoints.congr (fun l us _ hpeek => by rw [hpeek]) ?_
  by_cases helse : (peek closing us₄).kind = .elseWord
  · simp only [if_pos helse]
    refine .behind_peek hclosing (by simp [helse])
      (fun l us hpeek => by rw [List.tail_cons, hpeek]) ?_
    by_cases hif : (peek closing us₄.tail).kind = .ifWord
    · simp only [if_pos hif]
      refine .behind hclosing (by simp [hif])
        (.wrap (fun inner => Stmt.ifThenElse condition thenBlock [inner]) (.nested fun _ => ?_))
      refine (ih.conditional (depth + 1) us₄.tail.tail hif).mono ?_
      rintro before ⟨more, inner, hinner⟩
      exact opens (.elseIf hword hopening hcondition hcloser hthen helse hinner) (by simp)
    · simp only [if_neg hif]
      refine ((ih.braced depth us₄.tail).mono ?_).wrap (Stmt.ifThenElse condition thenBlock)
      rintro before ⟨more, body, hbody⟩
      exact opens (.ifThenElse hword hopening hcondition hcloser hthen helse hbody) (by simp)
  · simp only [if_neg helse]
    exact .answer fun l us _ => rfl

theorem braced_pinpoints (hclosing : closing.kind = .endOfInput)
    (ih : StatementsPinpoint limit closing fuel) (depth : Nat) (ts : List Token) :
    Pinpoints limit closing (Opens Braced) ts
      (fun l us => braced l closing (fuel + 1) depth us) := by
  refine Pinpoints.congr (fun l us _ _ => by rw [braced]) ?_
  refine .bind_take hclosing (by decide) (opens braced_mark (by simp))
    fun opening us hopening => ?_
  refine .nested fun hdepth => (ih.statements false [] us hdepth).mono ?_
  rintro before ⟨more, body, hbody⟩
  exact opens (.mk hopening hbody (mark_kind _)) (by simp)

theorem expression_cons (t : Token) (us : List Token) :
    expression limit closing (fuel + 1) depth (t :: us) =
      nested limit t.span (fun d vs => operand limit closing fuel d (t :: vs)) depth us := by
  rw [expression]
  rfl

/-- What is refused in an operand that begins with a name stands behind the name. -/
theorem name_pinpoints (hclosing : closing.kind = .endOfInput) {t : Token}
    (hk : t.kind = .identifier) (us : List Token) (hdepth : depth ≤ limit) :
    Pinpoints limit closing (fun before => Opens Expression (t :: before)) us
      (fun l us => operand l closing fuel depth (t :: us)) := by
  cases fuel with
  | zero => exact .exhausted (by rw [operand])
  | succ fuel =>
      refine Pinpoints.congr (fun l us _ _ => ?_)
        ((expressions_pinpoint hclosing fuel).continuation us (.name hk) hdepth)
      simp only [operand, peek, List.headD_cons, hk, List.tail_cons]

/-- The step for statements. Behind a name, an assignment and an expression are still both open. -/
theorem statement_pinpoints (hclosing : closing.kind = .endOfInput)
    (ih : StatementsPinpoint limit closing fuel) (depth : Nat) (ts : List Token) :
    Pinpoints limit closing (Opens Statement) ts
      (fun l us => statement l closing (fuel + 1) depth us) := by
  have hexpressions : ExpressionsPinpoint limit closing fuel := expressions_pinpoint hclosing fuel
  refine Pinpoints.congr (fun l us _ hpeek => by rw [statement, hpeek]) ?_
  cases hk : (peek closing ts).kind <;> dsimp only
  case procedureWord =>
    refine .behind hclosing (by simp [hk])
      (.bind_take hclosing (by decide) ?_ fun name us₁ hname => ?_)
    · exact opens (.procedure hk (mark_kind _) (mark_kind _) .nil (mark_kind _) braced_mark)
        (by simp)
    dsimp only
    refine .bind_take hclosing (by decide) ?_ fun opening us₂ hopening => ?_
    · exact opens (.procedure hk hname (mark_kind _) .nil (mark_kind _) braced_mark) (by simp)
    refine .bind_params hclosing ?_ fun params closer ps us₃ hparams hcloser => ?_
    · rintro before more all hall
      exact opens (.procedure hk hname hopening hall (mark_kind _) braced_mark) (by simp)
    refine ((ih.braced depth us₃).mono ?_).wrap (Stmt.procedure name params)
    rintro before ⟨more, body, hbody⟩
    exact opens (.procedure hk hname hopening hparams hcloser hbody) (by simp)
  case ifWord =>
    refine .behind hclosing (by simp [hk]) ((ih.conditional depth ts.tail hk).mono ?_)
    rintro before ⟨more, s, hs⟩
    exact opens (.conditional hs) (by simp)
  case repeatWord =>
    refine .behind_peek hclosing (by simp [hk])
      (fun l us hpeek => by rw [List.tail_cons, hpeek]) ?_
    by_cases huntil : (peek closing ts.tail).kind = .untilWord
    · simp only [if_pos huntil]
      refine .behind hclosing (by simp [huntil])
        (hexpressions.bind_expression hclosing ?_ fun condition es us hcondition _ _ => ?_)
      · rintro before more e he
        exact opens (.repeatUntil hk huntil he braced_mark) (by simp)
      refine ((ih.braced depth us).mono ?_).wrap (Stmt.repeatUntil condition)
      rintro before ⟨more, body, hbody⟩
      exact opens (.repeatUntil hk huntil hcondition hbody) (by simp)
    · simp only [if_neg huntil]
      refine hexpressions.bind_expression hclosing ?_ fun count es us hcount _ _ => ?_
      · rintro before more e he
        exact opens (.repeatTimes hk he (mark_kind _) braced_mark) (by simp)
      dsimp only
      refine .bind_take hclosing (by decide) ?_ fun timesWord vs htimes => ?_
      · exact opens (.repeatTimes hk hcount (mark_kind _) braced_mark) (by simp)
      refine ((ih.braced depth vs).mono ?_).wrap (Stmt.repeatTimes count)
      rintro before ⟨more, body, hbody⟩
      exact opens (.repeatTimes hk hcount htimes hbody) (by simp)
  case forWord =>
    refine .behind hclosing (by simp [hk])
      (.bind_take hclosing (by decide) ?_ fun eachWord us₁ heach => ?_)
    · exact opens (.forEach hk (mark_kind _) (mark_kind _)
        (mark_kind _) expression_mark braced_mark) (by simp)
    dsimp only
    refine .bind_take hclosing (by decide) ?_ fun item us₂ hitem => ?_
    · exact opens (.forEach hk heach (mark_kind _) (mark_kind _) expression_mark braced_mark)
        (by simp)
    dsimp only
    refine .bind_take hclosing (by decide) ?_ fun inWord us₃ hin => ?_
    · exact opens (.forEach hk heach hitem (mark_kind _) expression_mark braced_mark) (by simp)
    refine hexpressions.bind_expression hclosing ?_ fun list es us₄ hlist _ _ => ?_
    · rintro before more e he
      exact opens (.forEach hk heach hitem hin he braced_mark) (by simp)
    refine ((ih.braced depth us₄).mono ?_).wrap (Stmt.forEach item list)
    rintro before ⟨more, body, hbody⟩
    exact opens (.forEach hk heach hitem hin hlist hbody) (by simp)
  case returnWord =>
    refine .behind hclosing (by simp [hk])
      (((hexpressions.expression depth ts.tail).mono ?_).wrap Stmt.returns)
    rintro before ⟨more, e, he⟩
    exact opens (.returns hk he) (by simp)
  case identifier =>
    by_cases harrow : (peek closing ts.tail).kind = .assign
    · refine .behind_peek hclosing (by simp [hk])
        (fun l us hpeek => by rw [List.tail_cons, hpeek, if_pos harrow]) ?_
      refine .behind hclosing (by simp [harrow])
        (((hexpressions.expression depth ts.tail.tail).mono ?_).wrap
          (Stmt.assign (peek closing ts)))
      rintro before ⟨more, e, he⟩
      exact opens (.assign hk harrow he) (by simp)
    · -- that no arrow follows is known of the token behind
      -- the name, so the name has to be taken first
      cases fuel with
      | zero => exact .exhausted (by simp only [if_neg harrow, expression]; rfl)
      | succ fuel =>
          refine .behind_peek hclosing (by simp [hk])
            (fun l us hpeek => by rw [List.tail_cons, hpeek, if_neg harrow, expression_cons]) ?_
          refine .wrap Stmt.expression (.nested fun hlevel => ?_)
          refine (name_pinpoints hclosing hk ts.tail hlevel).mono ?_
          rintro before ⟨more, e, he⟩
          exact opens (.expression hk he) (by simp)
  all_goals
    exact .refuse (opens (.returns (mark_kind _) expression_mark) (by simp)) .invalidStatement
      fun l us _ => rfl

/-- **Readers of statements refuse the first token that is wrong**, by induction on the fuel. -/
theorem statements_pinpoint (hclosing : closing.kind = .endOfInput) (fuel : Nat) :
    StatementsPinpoint limit closing fuel := by
  induction fuel with
  | zero =>
      refine ⟨?_, ?_, ?_, ?_⟩
      · exact fun whole found ts _ => .exhausted (by rw [statements])
      · exact fun depth ts => .exhausted (by rw [statement])
      · exact fun depth ts _ => .exhausted (by rw [conditional])
      · exact fun depth ts => .exhausted (by rw [braced])
  | succ fuel ih =>
      exact ⟨statements_pinpoints hclosing ih, statement_pinpoints hclosing ih,
        conditional_pinpoints hclosing ih, braced_pinpoints hclosing ih⟩

/-! ## Whole programs -/

/-- What is refused however high the limit is no program of the grammar. -/
theorem not_statements_of_refused {e : Error} {ws : List Token}
    (hclosing : closing.kind = .endOfInput)
    (h : ∀ l, limit ≤ l → statements l closing fuel true [] 0 ws = .error (.error e))
    (program : Block) :
    ¬ Statements ws program := by
  intro hprogram
  -- with a limit that lets the program pass, and the fuel that it needs, it would be read
  have herror := h (max limit (Block.depth program)) (Nat.le_max_left _ _)
  have hread :=
    statements_whole hclosing hprogram (Nat.le_max_right limit _) (Nat.le_max_right fuel _)
  have hsettle := statements_settle (max limit (Block.depth program)) closing
    (Nat.le_max_left fuel (4 * ws.length + 2))
  rcases hsettle.statements true [] 0 ws with hfuel | hsame
  · exact absurd (herror.symm.trans hfuel) (by simp)
  · rw [hread, herror] at hsame
    exact absurd hsame (by simp)

end Reading

/-- **A syntax error is about the first token that cannot stand where it does.** The tokens before
it begin a program of the grammar, but with this token behind them they begin none. At the end of
input they are none. -/
theorem parseTokens_error_first (body : List Token) (last : Token)
    (hlast : last.kind = .endOfInput) (hbody : ∀ t ∈ body, t.kind ≠ .endOfInput) (e : Error)
    (h : parseTokens (body ++ [last]) = .error (.error e))
    (hlimit : ∀ span, e ≠ .nestingTooDeep span) :
    ∃ before t after, significant (body ++ [last]) = before ++ t :: after ∧ t.span = e.span
      ∧ (∃ more program, Statements (before ++ more) program)
      ∧ (t.kind ≠ .endOfInput → ∀ more program, ¬ Statements (before ++ t :: more) program)
      ∧ (t.kind = .endOfInput → ∀ program, ¬ Statements before program) := by
  rw [parseTokens_eq_read body hlast] at h
  have hread :
      Reading.statements nestingLimit last (4 * (body.length + 1) + 8) true [] 0 (significant body)
      = .error (.error e) := by
    revert h
    cases Reading.statements nestingLimit last (4 * (body.length + 1) + 8) true [] 0
      (significant body) with
    | ok x => exact fun h => absurd h (by simp [Except.map])
    | error halt =>
        intro h
        injection h with h
        rw [h]
  obtain ⟨before, rest, hts, hrefuses, hopen, hagain⟩ :=
    ((Reading.statements_pinpoint hlast _).statements true [] (significant body)
      (Nat.zero_le _)).refused hread hlimit
  rw [significant_concat body hlast, hts]
  cases rest with
  | nil =>
      have hwhole : ∀ l, nestingLimit ≤ l →
          Reading.statements l last (4 * (body.length + 1) + 8) true [] 0 before =
            .error (.error e) := by
        intro l hl
        have hagain := hagain l [] hl rfl
        rw [List.append_nil] at hagain
        exact hagain
      refine ⟨before, last, [], by simp, hrefuses.span.symm, hopen, absurd hlast, fun _ => ?_⟩
      exact Reading.not_statements_of_refused hlast hwhole
  | cons t after =>
      have hmem : t ∈ significant body := by simp [hts]
      have hkind : t.kind ≠ .endOfInput := hbody t (List.mem_filter.mp hmem).1
      refine ⟨before, t, after ++ [last], by simp, hrefuses.span.symm, hopen, fun _ more => ?_,
        fun hend => absurd hend hkind⟩
      exact Reading.not_statements_of_refused hlast fun l hl => hagain l (t :: more) hl rfl

/-- A bracket in the place of a parenthesis, behind a newline that does not count. -/
theorem parseTokens_error_first_bracket :
    parseTokens
      ([⟨"RETURN", .returnWord, 6⟩, ⟨"\n", .newline, 7⟩, ⟨"(", .openParen, 8⟩, ⟨"1", .number, 9⟩,
        ⟨"]", .closeBracket, 10⟩] ++ [Token.endAt 10]) =
      .error (.error (.unexpectedToken (.kind .closeParen) ⟨"]", .closeBracket, 10⟩))
    ∧ ∃ before t after,
      [⟨"RETURN", .returnWord, 6⟩, ⟨"(", .openParen, 8⟩, ⟨"1", .number, 9⟩,
        ⟨"]", .closeBracket, 10⟩, Token.endAt 10] = before ++ t :: after
        ∧ t.span = Token.span ⟨"]", .closeBracket, 10⟩
        ∧ (∃ more program, Statements (before ++ more) program)
        ∧ (t.kind ≠ .endOfInput → ∀ more program, ¬ Statements (before ++ t :: more) program)
        ∧ (t.kind = .endOfInput → ∀ program, ¬ Statements before program) := by
  have hread : parseTokens ([⟨"RETURN", .returnWord, 6⟩, ⟨"\n", .newline, 7⟩, ⟨"(", .openParen, 8⟩,
        ⟨"1", .number, 9⟩, ⟨"]", .closeBracket, 10⟩] ++ [Token.endAt 10]) =
      .error (.error (.unexpectedToken (.kind .closeParen) ⟨"]", .closeBracket, 10⟩)) := by
    rw [parseTokens_eq_read _ rfl]
    simp [significant, Kind.isInsignificant, Reading.statements, Reading.statement,
      Reading.expression, Reading.nested, Reading.operand, Reading.continuation, Reading.take,
      Reading.peek, Kind.isBinaryOperator, nestingLimit, Except.map, bind, Except.bind]
  exact ⟨hread, parseTokens_error_first _ (Token.endAt 10) rfl (by decide) _ hread
    fun _ h => Error.noConfusion h⟩

end Pseudocode
