import Pseudocode.Proofs.Excerpt
import Pseudocode.Proofs.Layout
import Pseudocode.Proofs.ParserCompleteness
import Pseudocode.Proofs.Spans

/-!
# The text of an expression

The span of an expression is what errors show of it. Unless the expression starts or ends with a
group, whose parentheses are in no span, the source within the span is the text of the expression:
read on its own it is the same expression again (`parseSource_span_slice`).

There are three steps. The tokens of an expression stand side by side among those of the source, so
they are an expression on their own (`Grammar.Statements.phrases`). The span runs from the first of
these tokens to the last (`Grammar.Expression.span_eq`). And from the start of one token to the
stop of another, a source is cut on its own as it is cut in full (`lex_between`).
-/

namespace Pseudocode

/-! ## Phrases inside phrases -/

namespace Grammar

/-- The expression is made of some of these tokens, side by side, and it is nested less than
`depth` levels deep. -/
def Phrase (ws : List Token) (depth : Nat) (x : Expr) : Prop :=
  ∃ vs, vs <:+: ws ∧ Expression vs x ∧ x.depth < depth

variable {ws vs : List Token} {depth depth' : Nat}

theorem infix_behind {us : List Token} {t : Token} (h : us <:+: vs) : us <:+: ws ++ t :: vs :=
  List.infix_append_of_infix_right (List.infix_cons h)

/-- A phrase among some tokens is one among more of them. -/
theorem Phrase.mono {x : Expr} (h : Phrase ws depth x) (hws : ws <:+: vs)
    (hdepth : depth ≤ depth') :
    Phrase vs depth' x := by
  obtain ⟨us, hus, hx, hlt⟩ := h
  exact ⟨us, hus.trans hws, hx, Nat.lt_of_lt_of_le hlt hdepth⟩

theorem Expression.phrase {e : Expr} (h : Expression ws e) : Phrase ws (e.depth + 1) e :=
  ⟨ws, List.infix_rfl, h, Nat.lt_succ_self _⟩

mutual

/-- The parts of an expression are phrases among its tokens. The other phrases of the grammar
follow the same rule. -/
theorem Expression.phrases : ∀ {ws : List Token} {e : Expr}, Expression ws e →
    ∀ x ∈ e.parts, Phrase ws (e.depth + 1) x
  | _, _, .primary hprimary => hprimary.phrases
  | _, _, .binary hleft hoperator hright => by
      rw [Expr.parts, List.forall_mem_cons, List.forall_mem_append, Expr.depth]
      refine ⟨(Expression.binary hleft hoperator hright).phrase, fun x hx => ?_, fun x hx => ?_⟩
      · exact (hleft.phrases x hx).mono List.infix_append_left (by omega)
      · exact (hright.phrases x hx).mono (infix_behind List.infix_rfl) (by omega)
  | _, _, .unary hoperator hoperand => by
      rw [Expr.parts, List.forall_mem_cons, Expr.depth]
      refine ⟨(Expression.unary hoperator hoperand).phrase, fun x hx => ?_⟩
      exact (hoperand.phrases x hx).mono (List.infix_cons List.infix_rfl) (Nat.le_succ _)

theorem Primary.phrases : ∀ {ws : List Token} {e : Expr}, Primary ws e →
    ∀ x ∈ e.parts, Phrase ws (e.depth + 1) x
  | _, _, .literal hkind => by
      rw [Expr.parts, List.forall_mem_singleton]
      exact (Expression.primary (.literal hkind)).phrase
  | _, _, .name hkind => by
      rw [Expr.parts, List.forall_mem_singleton]
      exact (Expression.primary (.name hkind)).phrase
  | _, _, .call hcallee hopening harguments hcloser => by
      rw [Expr.parts, List.forall_mem_cons, Expr.depth]
      refine ⟨(Expression.primary (.call hcallee hopening harguments hcloser)).phrase,
        fun x hx => ?_⟩
      exact (harguments.phrases x hx).mono ⟨[_, _], [_], rfl⟩ (Nat.le_succ _)
  | _, _, .group hopening hinner hcloser => by
      rw [Expr.parts, List.forall_mem_cons, Expr.depth]
      refine ⟨(Expression.primary (.group hopening hinner hcloser)).phrase, fun x hx => ?_⟩
      exact (hinner.phrases x hx).mono ⟨[_], [_], rfl⟩ (Nat.le_succ _)
  | _, _, .list hopening hitems hcloser => by
      rw [Expr.parts, List.forall_mem_cons, Expr.depth]
      refine ⟨(Expression.primary (.list hopening hitems hcloser)).phrase, fun x hx => ?_⟩
      exact (hitems.phrases x hx).mono ⟨[_], [_], rfl⟩ (Nat.le_succ _)

theorem Items.phrases : ∀ {ws : List Token} {es : List Expr}, Items ws es →
    ∀ x ∈ Expr.partsAll es, Phrase ws (Expr.depthAll es) x
  | _, _, .nil => fun x hx => absurd hx List.not_mem_nil
  | _, _, .one hitem => by
      rw [Expr.partsAll, Expr.partsAll, List.append_nil, Expr.depthAll]
      exact fun x hx => (hitem.phrases x hx).mono List.infix_rfl (Nat.le_max_left _ _)
  | _, _, .cons hitem _ hrest => by
      rw [Expr.partsAll, List.forall_mem_append, Expr.depthAll]
      refine ⟨fun x hx => ?_, fun x hx => ?_⟩
      · exact (hitem.phrases x hx).mono List.infix_append_left (Nat.le_max_left _ _)
      · exact (hrest.phrases x hx).mono (infix_behind List.infix_rfl) (Nat.le_max_right _ _)

end

/-- All expressions of these statements are phrases among the tokens. -/
def PhrasesOf (ws : List Token) (depth : Nat) (statements : List Stmt) : Prop :=
  ∀ s ∈ statements, ∀ e ∈ s.operands, ∀ x ∈ e.parts, Phrase ws depth x

theorem PhrasesOf.mono {statements : List Stmt} (h : PhrasesOf ws depth statements)
    (hws : ws <:+: vs) (hdepth : depth ≤ depth') : PhrasesOf vs depth' statements :=
  fun s hs e he x hx => (h s hs e he x hx).mono hws hdepth

theorem phrasesOf_nil : PhrasesOf ws depth [] := fun _ hs => absurd hs List.not_mem_nil

theorem phrasesOf_append {some more : List Stmt} (h : PhrasesOf ws depth some)
    (h' : PhrasesOf ws depth more) :
    PhrasesOf ws depth (some ++ more) := List.forall_mem_append.mpr ⟨h, h'⟩

/-- A statement with one expression of its own, before the statements inside it. -/
theorem phrasesOf_cons {s : Stmt} {e : Expr} {es : List Token} {inside : List Stmt}
    (he : Expression es e) (hs : s.operands = [e]) (hes : es <:+: ws)
    (hdepth : e.depth + 1 ≤ depth) (hinside : PhrasesOf ws depth inside) :
    PhrasesOf ws depth (s :: inside) := by
  refine List.forall_mem_cons.mpr ⟨?_, hinside⟩
  rw [hs]
  exact List.forall_mem_singleton.mpr fun x hx => (he.phrases x hx).mono hes hdepth

mutual

/-- The expressions of a statement are phrases among its tokens. -/
theorem Statement.phrases : ∀ {ws : List Token} {s : Stmt}, Statement ws s →
    PhrasesOf ws s.depth s.parts
  | _, _, .procedure _ _ _ _ _ hbody => by
      rw [Stmt.parts, Stmt.depth]
      refine List.forall_mem_cons.mpr ⟨fun e he => absurd he List.not_mem_nil, ?_⟩
      exact hbody.phrases.mono
        (List.infix_cons (List.infix_cons (List.infix_cons (infix_behind List.infix_rfl))))
        (Nat.le_succ _)
  | _, _, .conditional hconditional => hconditional.phrases
  | _, _, .repeatUntil _ _ hcondition hbody => by
      rw [Stmt.parts, Stmt.depth]
      refine phrasesOf_cons hcondition rfl ⟨[_, _], _, rfl⟩ (Nat.le_max_left _ _) ?_
      exact hbody.phrases.mono (List.infix_cons (List.infix_cons List.infix_append_right))
        (by omega)
  | _, _, .repeatTimes _ hcount _ hbody => by
      rw [Stmt.parts, Stmt.depth]
      refine phrasesOf_cons hcount rfl ⟨[_], _, rfl⟩ (Nat.le_max_left _ _) ?_
      exact hbody.phrases.mono (List.infix_cons (infix_behind List.infix_rfl)) (by omega)
  | _, _, .forEach _ _ _ _ hlist hbody => by
      rw [Stmt.parts, Stmt.depth]
      refine phrasesOf_cons hlist rfl ⟨[_, _, _, _], _, rfl⟩ (Nat.le_max_left _ _) ?_
      exact hbody.phrases.mono
        (List.infix_cons (List.infix_cons
          (List.infix_cons (List.infix_cons List.infix_append_right)))) (by omega)
  | _, _, .returns _ hvalue => by
      rw [Stmt.parts, Stmt.depth]
      exact phrasesOf_cons hvalue rfl (List.infix_cons List.infix_rfl)
        (Nat.le_refl _) phrasesOf_nil
  | _, _, .assign _ _ hvalue => by
      rw [Stmt.parts, Stmt.depth]
      exact phrasesOf_cons hvalue rfl (List.infix_cons (List.infix_cons List.infix_rfl))
        (Nat.le_refl _) phrasesOf_nil
  | _, _, .expression _ hexpression => by
      rw [Stmt.parts, Stmt.depth]
      exact phrasesOf_cons hexpression rfl List.infix_rfl (Nat.le_refl _) phrasesOf_nil

theorem Conditional.phrases : ∀ {ws : List Token} {s : Stmt}, Conditional ws s →
    PhrasesOf ws s.depth s.parts
  | _, _, .ifThen _ _ hcondition _ hthen => by
      rw [Stmt.parts, Stmt.depth]
      refine phrasesOf_cons hcondition rfl ⟨[_, _], _, rfl⟩ (Nat.le_max_left _ _) ?_
      exact hthen.phrases.mono (List.infix_cons (List.infix_cons (infix_behind List.infix_rfl)))
        (by omega)
  | _, _, .ifThenElse _ _ hcondition _ hthen _ helse => by
      rw [Stmt.parts, Stmt.depth]
      refine phrasesOf_cons hcondition rfl ⟨[_, _], _, rfl⟩ (Nat.le_max_left _ _)
        (phrasesOf_append ?_ ?_)
      · exact hthen.phrases.mono
          (List.infix_cons (List.infix_cons (infix_behind List.infix_append_left))) (by omega)
      · exact helse.phrases.mono
          (List.infix_cons (List.infix_cons (infix_behind (infix_behind List.infix_rfl))))
          (by omega)
  | _, _, .elseIf _ _ hcondition _ hthen _ hinner => by
      -- the conditional behind `ELSE` is all there is in the else block
      rw [Stmt.parts, Block.parts, Block.parts, List.append_nil, Stmt.depth,
        Block.depth, Block.depth]
      refine phrasesOf_cons hcondition rfl ⟨[_, _], _, rfl⟩ (Nat.le_max_left _ _)
        (phrasesOf_append ?_ ?_)
      · exact hthen.phrases.mono
          (List.infix_cons (List.infix_cons (infix_behind List.infix_append_left))) (by omega)
      · exact hinner.phrases.mono
          (List.infix_cons (List.infix_cons (infix_behind (infix_behind List.infix_rfl))))
          (by omega)

theorem Braced.phrases : ∀ {ws : List Token} {body : Block}, Braced ws body →
    PhrasesOf ws (Block.depth body) (Block.parts body)
  | _, _, .mk _ hbody _ => hbody.phrases.mono ⟨[_], [_], rfl⟩ (Nat.le_refl _)

/-- **The expressions of a program are phrases among its tokens.** -/
theorem Statements.phrases : ∀ {ws : List Token} {block : Block}, Statements ws block →
    PhrasesOf ws (Block.depth block) (Block.parts block)
  | _, _, .nil => phrasesOf_nil
  | _, _, .cons hfirst hrest => by
      rw [Block.parts, Block.depth]
      refine phrasesOf_append ?_ ?_
      · exact hfirst.phrases.mono List.infix_append_left (Nat.le_max_left _ _)
      · exact hrest.phrases.mono List.infix_append_right (Nat.le_max_right _ _)

end

end Grammar

/-! ## Where a span starts and stops -/

/-- The expression does not start with a group. -/
def Expr.opensPlainly : Expr → Bool
  | .binary left _ _ => left.opensPlainly
  | .group _ => false
  | _ => true

/-- The expression does not end with a group. -/
def Expr.closesPlainly : Expr → Bool
  | .binary _ _ right => right.closesPlainly
  | .unary _ operand => operand.closesPlainly
  | .group _ => false
  | _ => true

/-- The token lies between the two offsets. -/
def Token.Between (low high : Nat) (t : Token) : Prop := low ≤ t.start ∧ t.stop ≤ high

/-- An expression lies where its tokens lie. -/
theorem Expr.span_between {low high : Nat} :
    ∀ e : Expr, (∀ x ∈ e.parts, x.NodeOf (Token.Between low high)) →
    low ≤ e.span.start ∧ e.span.stop ≤ high
  | .literal token, h => (h _ (Expr.mem_parts_self _)).1
  | .name token, h => h _ (Expr.mem_parts_self _)
  | .unary operator operand, h => by
      rw [Expr.parts, List.forall_mem_cons] at h
      obtain ⟨hstart, hstop⟩ := operand.span_between h.2
      exact ⟨Nat.le_min.mpr ⟨h.1.1, hstart⟩, Nat.max_le.mpr ⟨h.1.2, hstop⟩⟩
  | .binary left operator right, h => by
      rw [Expr.parts, List.forall_mem_cons, List.forall_mem_append] at h
      obtain ⟨hleft, hleft'⟩ := left.span_between h.2.1
      obtain ⟨hright, hright'⟩ := right.span_between h.2.2
      exact ⟨Nat.le_min.mpr ⟨hleft, hright⟩, Nat.max_le.mpr ⟨hleft', hright'⟩⟩
  | .group inner, h => by
      rw [Expr.parts, List.forall_mem_cons] at h
      exact inner.span_between h.2
  | .list opening items closing, h => by
      obtain ⟨hopening, hclosing⟩ := h _ (Expr.mem_parts_self _)
      exact ⟨Nat.le_min.mpr ⟨hopening.1, hclosing.1⟩, Nat.max_le.mpr ⟨hopening.2, hclosing.2⟩⟩
  | .call callee arguments closing, h => by
      obtain ⟨hcallee, hclosing⟩ := h _ (Expr.mem_parts_self _)
      exact ⟨Nat.le_min.mpr ⟨hcallee.1, hclosing.1⟩, Nat.max_le.mpr ⟨hcallee.2, hclosing.2⟩⟩

namespace Grammar

theorem Primary.span_start_le {ws : List Token} {e : Expr} (h : Primary ws e)
    (hopens : e.opensPlainly = true) :
    ∃ first rest, ws = first :: rest ∧ e.span.start ≤ first.start := by
  cases h with
  | literal _ => exact ⟨_, _, rfl, Nat.le_refl _⟩
  | name _ => exact ⟨_, _, rfl, Nat.le_refl _⟩
  | call _ _ _ _ => exact ⟨_, _, rfl, Nat.min_le_left _ _⟩
  | group _ _ _ => exact Bool.noConfusion hopens
  | list _ _ _ => exact ⟨_, _, rfl, Nat.min_le_left _ _⟩

/-- The span reaches back to the first token. -/
theorem Expression.span_start_le {ws : List Token} {e : Expr} (h : Expression ws e)
    (hopens : e.opensPlainly = true) :
    ∃ first rest, ws = first :: rest ∧ e.span.start ≤ first.start := by
  cases h with
  | primary hprimary => exact hprimary.span_start_le hopens
  | binary hleft _ _ =>
      obtain ⟨first, rest, rfl, hstart⟩ := hleft.span_start_le hopens
      exact ⟨first, _, rfl, Nat.le_trans (Nat.min_le_left _ _) hstart⟩
  | unary _ _ => exact ⟨_, _, rfl, Nat.min_le_left _ _⟩

theorem Primary.le_span_stop {ws : List Token} {e : Expr} (h : Primary ws e)
    (hcloses : e.closesPlainly = true) :
    ∃ init last, ws = init ++ [last] ∧ last.stop ≤ e.span.stop := by
  cases h with
  | literal _ => exact ⟨[], _, rfl, Nat.le_refl _⟩
  | name _ => exact ⟨[], _, rfl, Nat.le_refl _⟩
  | call _ _ _ _ => exact ⟨_ :: _ :: _, _, rfl, Nat.le_max_right _ _⟩
  | group _ _ _ => exact Bool.noConfusion hcloses
  | list _ _ _ => exact ⟨_ :: _, _, rfl, Nat.le_max_right _ _⟩

/-- The span reaches up to the last token. -/
theorem Expression.le_span_stop : ∀ {ws : List Token} {e : Expr}, Expression ws e →
    e.closesPlainly = true →
    ∃ init last, ws = init ++ [last] ∧ last.stop ≤ e.span.stop
  | _, _, .primary hprimary, hcloses => hprimary.le_span_stop hcloses
  | _, _, .binary _ _ hright, hcloses => by
      obtain ⟨init, last, rfl, hstop⟩ := hright.le_span_stop hcloses
      exact ⟨_, last, (List.append_assoc _ (_ :: init) _).symm,
        Nat.le_trans hstop (Nat.le_max_right _ _)⟩
  | _, _, .unary _ hoperand, hcloses => by
      obtain ⟨init, last, rfl, hstop⟩ := hoperand.le_span_stop hcloses
      exact ⟨_ :: init, last, rfl, Nat.le_trans hstop (Nat.le_max_right _ _)⟩

/-- The span of an expression without a group at its ends is what lies between the ends of its
tokens. -/
theorem Expression.span_eq {ws : List Token} {e : Expr} (h : Expression ws e)
    (hplaced : ∀ t ∈ ws, t.Placed) (hordered : ws.Pairwise fun a b => a.stop ≤ b.start)
    (hopens : e.opensPlainly = true) (hcloses : e.closesPlainly = true) :
    ∃ first last, ws.head? = some first ∧ ws.getLast? = some last ∧
      e.span = ⟨first.start, last.stop⟩ := by
  obtain ⟨first, rest, hfirst, hstart⟩ := h.span_start_le hopens
  obtain ⟨init, last, hlast, hstop⟩ := h.le_span_stop hcloses
  have hfirstPlaced : first.Placed := hplaced first (by rw [hfirst]; exact List.mem_cons_self)
  have hlastPlaced : last.Placed := hplaced last (by rw [hlast]; exact List.mem_concat_self)
  have hbetween : ∀ t ∈ ws, t.Between first.start last.stop := by
    intro t ht
    constructor
    · rw [hfirst, List.pairwise_cons] at hordered
      rw [hfirst] at ht
      rcases List.mem_cons.mp ht with rfl | ht
      · exact Nat.le_refl _
      · exact Nat.le_trans hfirstPlaced.start_le (hordered.1 t ht)
    · rw [hlast, List.pairwise_append] at hordered
      rw [hlast] at ht
      rcases List.mem_append.mp ht with ht | ht
      · exact Nat.le_trans (hordered.2.2 t ht last List.mem_cons_self) hlastPlaced.start_le
      · obtain rfl := List.mem_singleton.mp ht
        exact Nat.le_refl _
  obtain ⟨hstart', hstop'⟩ := e.span_between (h.nodes hbetween)
  refine ⟨first, last, by rw [hfirst, List.head?_cons], by rw [hlast, List.getLast?_concat], ?_⟩
  rw [← Nat.le_antisymm hstart hstart', ← Nat.le_antisymm hstop' hstop]

end Grammar

/-! ## The tokens between two tokens -/

/-- What is not significant can be left out before the first significant token. -/
theorem significant_from {ts rest : List Token} {first : Token}
    (h : significant ts = first :: rest) :
    ∃ skipped more, ts = skipped ++ first :: more ∧
      significant (first :: more) = first :: rest := by
  obtain ⟨skipped, more, rfl, hskipped, -, -⟩ := List.filter_eq_cons_iff.mp h
  refine ⟨skipped, more, rfl, ?_⟩
  rw [significant, List.filter_append, List.filter_eq_nil_iff.mpr hskipped] at h
  exact h

/-- It can be left out behind the last one as well. -/
theorem significant_upto {ts init : List Token} {last : Token}
    (h : significant ts = init ++ [last]) :
    ∃ before skipped, ts = before ++ [last] ++ skipped ∧
      significant (before ++ [last]) = init ++ [last] := by
  obtain ⟨front, back, rfl, hfront, hback⟩ := List.filter_eq_append_iff.mp h
  obtain ⟨middle, skipped, rfl, hmiddle, hlast, -⟩ := List.filter_eq_cons_iff.mp hback
  refine ⟨front ++ middle, skipped, by simp, ?_⟩
  have hkept : significant [last] = [last] :=
    List.filter_eq_self.mpr (List.forall_mem_singleton.mpr hlast)
  rw [significant, List.filter_append, List.filter_append, hfront,
    List.filter_eq_nil_iff.mpr hmiddle, List.append_nil]
  exact congrArg _ hkept

/-- Significant tokens that stand side by side are what is significant in a stretch of the tokens,
and the stretch can be taken to start and to end with one of them. -/
theorem exists_stretch {body vs : List Token} {first last : Token} (h : vs <:+: significant body)
    (hfirst : vs.head? = some first) (hlast : vs.getLast? = some last) :
    ∃ front stretch back, body = front ++ (stretch ++ back) ∧ significant stretch = vs
      ∧ stretch.head? = some first ∧ stretch.getLast? = some last := by
  obtain ⟨before, after, hbody⟩ := h
  obtain ⟨rest, hrest⟩ := List.head?_eq_some_iff.mp hfirst
  obtain ⟨init, hinit⟩ := List.getLast?_eq_some_iff.mp hlast
  obtain ⟨body, back, rfl, hbody, -⟩ := List.filter_eq_append_iff.mp hbody.symm
  obtain ⟨front, middle, rfl, -, hmiddle⟩ := List.filter_eq_append_iff.mp hbody
  obtain ⟨skipped, more, rfl, hmore⟩ := significant_from (hmiddle.trans hrest)
  obtain ⟨start, behind, htrimmed, hstretch⟩ :=
    significant_upto (hmore.trans (hrest.symm.trans hinit))
  refine ⟨front ++ skipped, start ++ [last], behind ++ back, ?_, hstretch.trans hinit.symm, ?_,
    List.getLast?_concat⟩
  · rw [htrimmed]
    simp only [List.append_assoc]
  · have hhead : ((start ++ [last]) ++ behind).head? = some first := by
      rw [← htrimmed, List.head?_cons]
    rwa [List.head?_append, Option.or_of_isSome (by simp)] at hhead

theorem Lexer.Lies.text_ne {offset : Nat} {cs : List Char} {t : Token}
    (h : Lexer.Lies offset cs t) : t.text ≠ "" := by
  obtain ⟨-, text, -, -, hspelled, htext, -⟩ := h
  intro hempty
  rw [htext] at hempty
  exact hspelled.ne_nil (String.ofList_injective hempty)

/-- From the first to the last of some significant tokens that stand side by side, a source has
these on its own. -/
theorem lex_significant_between {source : String} {body vs : List Token} {first last : Token}
    (hlex : lex source = .ok (body ++ [Token.endAt source.utf8ByteSize]))
    (hlies : ∀ t ∈ significant body, Lexer.Lies 0 source.toList t) (hvs : vs <:+: significant body)
    (hfirst : vs.head? = some first) (hlast : vs.getLast? = some last) :
    ∃ before slice after : String, source = before ++ slice ++ after ∧
      before.utf8ByteSize = first.start
      ∧ (before ++ slice).utf8ByteSize = last.stop
      ∧ ∃ ts, lex slice = .ok (ts ++ [Token.endAt slice.utf8ByteSize])
        ∧ (significant ts).map (Token.moved first.start) = vs := by
  have hne : first.text ≠ "" ∧ last.text ≠ "" :=
    ⟨(hlies first (hvs.subset (List.mem_of_mem_head? hfirst))).text_ne,
      (hlies last (hvs.subset (List.mem_of_getLast? hlast))).text_ne⟩
  obtain ⟨front, stretch, back, rfl, rfl, hfirst, hlast⟩ := exists_stretch hvs hfirst hlast
  rw [List.append_assoc, List.append_assoc] at hlex
  obtain ⟨before, slice, after, hsource, hstart, hstop, ts, hslice, rfl⟩ :=
    lex_between hlex hfirst hlast hne
  refine ⟨before, slice, after, hsource, hstart, hstop, _, hslice, ?_⟩
  rw [← Grammar.significant_map (Token.keepsKind_moved first.start), List.map_append]
  simp [significant, Token.moved, Kind.isInsignificant]

/-! ## Reading the text of an expression -/

/-- Tokens that are an expression are read as this expression, up to the end of input. -/
theorem leadingExpression_of_grammar {body : List Token} {last : Token} {e : Expr}
    (hlast : last.kind = .endOfInput) (h : Grammar.Expression (significant body) e)
    (hdepth : e.depth < nestingLimit) :
    ∃ rest, Parser.leadingExpression (Parser.ofTokens (body ++ [last])) = .ok e rest
      ∧ rest.stream.peekSignificant = last := by
  have hread :
      Reading.expression nestingLimit last (4 * (body.length + 1) + 8) 0 (significant body ++ [])
      = .ok (e, []) := by
    have hstops : Reading.Stops last [] := by
      show last.kind.isBinaryOperator = false ∧ last.kind ≠ .openParen
      rw [hlast]
      decide
    have hlength := significant_length_le body
    exact (Reading.expressions_complete _ _ _).expression h hstops (by omega) (by omega)
  rw [List.append_nil] at hread
  have hagrees :=
    (Parser.expressions_agree last (4 * (body.length + 1) + 8)).expression
      (Parser.shows_ofTokens body hlast)
  rw [hread] at hagrees
  unfold Parser.leadingExpression
  rw [Parser.fuel_ofTokens body hlast]
  revert hagrees
  cases Parser.expression (4 * (body.length + 1) + 8) (Parser.ofTokens (body ++ [last])) with
  | error halt q => exact False.elim
  | ok a q =>
      rintro ⟨rfl, hq⟩
      exact ⟨q, rfl, hq.peekSignificant⟩

/-- Tokens that are those of an expression once they are moved are read as this expression, except
for where it stands. -/
theorem leadingExpression_moved {ts vs : List Token} {last : Token} {x : Expr} {n : Nat}
    (hlast : last.kind = .endOfInput) (hx : Grammar.Expression vs x)
    (hdepth : x.depth < nestingLimit) (hts : (significant ts).map (Token.moved n) = vs) :
    ∃ y rest, Parser.leadingExpression (Parser.ofTokens (ts ++ [last])) = .ok y rest
      ∧ rest.stream.peekSignificant = last ∧ y.mapTokens (Token.moved n) = x := by
  have hmap : vs.map id = (significant ts).map (Token.moved n) := by rw [List.map_id, hts]
  obtain ⟨y, hy, hyx⟩ := hx.replace (f := id) (fun _ => rfl) (Token.keepsKind_moved n) hmap
  rw [Expr.mapTokens_id] at hyx
  have hydepth : y.depth < nestingLimit := by rwa [← Expr.depth_mapTokens (Token.moved n), hyx]
  obtain ⟨rest, hread, hpeek⟩ := leadingExpression_of_grammar hlast hy hydepth
  exact ⟨y, rest, hread, hpeek, hyx⟩

theorem extract_between (before slice after : String) :
    (before ++ slice ++ after).toByteArray.extract before.utf8ByteSize
      (before ++ slice).utf8ByteSize
      = slice.toByteArray := by
  rw [String.append_assoc, String.toByteArray_append, String.toByteArray_append,
    String.utf8ByteSize_append, ← String.size_toByteArray, ← String.size_toByteArray]
  exact extract_middle _ _ _

/--
**The span of an expression cuts out its text.**

Take an expression of a program that was read, unless it starts or ends with a group. The bytes of
the source within its span are a text that can be cut into tokens. Up to their end the tokens are
read as one expression. This is the expression that was taken, except that each of its tokens has
fewer bytes before it, by as many as stand before the span.
-/
theorem parseSource_span_slice {source : String} {program : Block} {x : Expr}
    (h : parseSource source = .ok program) (hx : x ∈ Block.expressions program)
    (hopens : x.opensPlainly = true) (hcloses : x.closesPlainly = true) :
    ∃ slice tokens y rest, x.span.stop ≤ source.utf8ByteSize
      ∧ source.toByteArray.extract x.span.start x.span.stop = slice.toByteArray
      ∧ lex slice = .ok tokens
      ∧ Parser.leadingExpression (Parser.ofTokens tokens) = .ok y rest
      ∧ rest.stream.peekSignificant = Token.endAt slice.utf8ByteSize
      ∧ y.mapTokens (Token.moved x.span.start) = x := by
  obtain ⟨body, hlex, hlies, hstatements, hdepth⟩ := statements_of_parseSource h
  obtain ⟨s, hs, hx⟩ := List.mem_flatMap.mp hx
  obtain ⟨e, he, hx⟩ := List.mem_flatMap.mp hx
  obtain ⟨vs, hvs, hexpression, hlt⟩ := hstatements.phrases s hs e he x hx
  have hordered : vs.Pairwise fun a b => a.stop ≤ b.start := by
    have hsublist : List.Sublist vs (body ++ [Token.endAt source.utf8ByteSize]) :=
      (hvs.sublist.trans List.filter_sublist).trans (List.sublist_append_left _ _)
    exact (cuts_of_lex hlex).ordered.sublist hsublist
  have hplaced : ∀ t ∈ vs, t.Placed := fun t ht => (hlies t (hvs.subset ht)).placed
  obtain ⟨first, last, hfirst, hlast, hspan⟩ := hexpression.span_eq hplaced hordered hopens hcloses
  obtain ⟨before, slice, after, rfl, hstart, hstop, ts, hslice, hts⟩ :=
    lex_significant_between hlex hlies hvs hfirst hlast
  have hend : (Token.endAt slice.utf8ByteSize).kind = .endOfInput := rfl
  obtain ⟨y, rest, hread, hpeek, hyx⟩ :=
    leadingExpression_moved hend hexpression (Nat.lt_of_lt_of_le hlt hdepth) hts
  have hle : (before ++ slice).utf8ByteSize ≤ (before ++ slice ++ after).utf8ByteSize := by
    simp only [String.utf8ByteSize_append]
    exact Nat.le_add_right _ _
  rw [← hstart] at hyx
  rw [hspan, ← hstart, ← hstop]
  exact ⟨slice, _, y, rest, hle, extract_between before slice after, hslice, hread, hpeek, hyx⟩

/-- The minus and the text behind it, cut out of `x←-"é"` where they take five bytes behind the
first four. -/
theorem parseSource_span_slice_negated_text :
    ∃ slice tokens y rest, "x←-\"é\"".toByteArray.extract 4 9 = slice.toByteArray ∧
      lex slice = .ok tokens
      ∧ Parser.leadingExpression (Parser.ofTokens tokens) = .ok y rest
      ∧ rest.stream.peekSignificant = Token.endAt slice.utf8ByteSize
      ∧ y.mapTokens (Token.moved 4) = .unary ⟨"-", .subtract, 5⟩
        (.literal ⟨"\"é\"", .text, 9⟩) := by
  have hmem : Expr.unary ⟨"-", .subtract, 5⟩ (.literal ⟨"\"é\"", .text, 9⟩) ∈ Block.expressions
      [.assign ⟨"x", .identifier, 1⟩
        (.unary ⟨"-", .subtract, 5⟩ (.literal ⟨"\"é\"", .text, 9⟩))] := List.mem_cons_self
  obtain ⟨slice, tokens, y, rest, -, hslice, hrest⟩ :=
    parseSource_span_slice parseSource_negated_text hmem rfl rfl
  exact ⟨slice, tokens, y, rest, hslice, hrest⟩

end Pseudocode
