import Pseudocode.Proofs.Grammar
import Pseudocode.Proofs.Stream

/-!
# Other tokens of the same kinds

The grammar looks at the kinds of tokens and at nothing else of them. So the tokens of a phrase can
be replaced, one by one, by tokens of the same kinds. What comes out is a phrase again, and it
means what the phrase meant before, with the tokens replaced.

That two lists of tokens agree in some respect is said by two functions that forget, or change, the
rest: `ws.map f = vs.map g`. With one function on both sides the lists agree in what it keeps. With
the identity on one side the tokens of this side are those of the other, changed.
-/

namespace Pseudocode

/-! ## The tokens of a program, changed -/

mutual

/-- The expression with every token changed. -/
def Expr.mapTokens (f : Token → Token) : Expr → Expr
  | .literal token => .literal (f token)
  | .name token => .name (f token)
  | .unary operator operand => .unary (f operator) (operand.mapTokens f)
  | .binary left operator right => .binary (left.mapTokens f) (f operator) (right.mapTokens f)
  | .group inner => .group (inner.mapTokens f)
  | .list opening items closing => .list (f opening) (Expr.mapTokensAll f items) (f closing)
  | .call callee arguments closing => .call (f callee) (Expr.mapTokensAll f arguments) (f closing)

/-- Expressions with every token changed. -/
def Expr.mapTokensAll (f : Token → Token) : List Expr → List Expr
  | [] => []
  | e :: rest => e.mapTokens f :: Expr.mapTokensAll f rest

end

mutual

/-- The statement with every token changed, also in its blocks. -/
def Stmt.mapTokens (f : Token → Token) : Stmt → Stmt
  | .procedure name params body => .procedure (f name) (params.map f) (Block.mapTokens f body)
  | .assign target value => .assign (f target) (value.mapTokens f)
  | .ifThen condition thenBlock => .ifThen (condition.mapTokens f) (Block.mapTokens f thenBlock)
  | .ifThenElse condition thenBlock elseBlock =>
    .ifThenElse (condition.mapTokens f) (Block.mapTokens f thenBlock) (Block.mapTokens f elseBlock)
  | .repeatTimes count body => .repeatTimes (count.mapTokens f) (Block.mapTokens f body)
  | .repeatUntil condition body => .repeatUntil (condition.mapTokens f) (Block.mapTokens f body)
  | .forEach item list body => .forEach (f item) (list.mapTokens f) (Block.mapTokens f body)
  | .returns value => .returns (value.mapTokens f)
  | .expression e => .expression (e.mapTokens f)

/-- The block with every token changed. -/
def Block.mapTokens (f : Token → Token) : List Stmt → List Stmt
  | [] => []
  | s :: rest => s.mapTokens f :: Block.mapTokens f rest

end

/-! ## Depth -/

mutual

theorem Expr.depth_mapTokens (f : Token → Token) : ∀ e : Expr, (e.mapTokens f).depth = e.depth
  | .literal _ => rfl
  | .name _ => rfl
  | .unary _ operand => by rw [Expr.mapTokens, Expr.depth, Expr.depth, operand.depth_mapTokens f]
  | .binary left _ right => by
      rw [Expr.mapTokens, Expr.depth, Expr.depth, left.depth_mapTokens f, right.depth_mapTokens f]
  | .group inner => by rw [Expr.mapTokens, Expr.depth, Expr.depth, inner.depth_mapTokens f]
  | .list _ items _ => by
      rw [Expr.mapTokens, Expr.depth, Expr.depth, Expr.depthAll_mapTokens f items]
  | .call _ arguments _ => by
      rw [Expr.mapTokens, Expr.depth, Expr.depth, Expr.depthAll_mapTokens f arguments]

theorem Expr.depthAll_mapTokens (f : Token → Token) : ∀ es : List Expr,
    Expr.depthAll (Expr.mapTokensAll f es) = Expr.depthAll es
  | [] => rfl
  | e :: rest => by
      rw [Expr.mapTokensAll, Expr.depthAll, Expr.depthAll, e.depth_mapTokens f,
        Expr.depthAll_mapTokens f rest]

end

mutual

/-- How deeply a statement is nested does not depend on its tokens. -/
theorem Stmt.depth_mapTokens (f : Token → Token) : ∀ s : Stmt, (s.mapTokens f).depth = s.depth
  | .procedure _ _ body => by
      rw [Stmt.mapTokens, Stmt.depth, Stmt.depth, Block.depth_mapTokens f body]
  | .assign _ value => by rw [Stmt.mapTokens, Stmt.depth, Stmt.depth, value.depth_mapTokens f]
  | .ifThen condition thenBlock => by
      rw [Stmt.mapTokens, Stmt.depth, Stmt.depth, condition.depth_mapTokens f,
        Block.depth_mapTokens f thenBlock]
  | .ifThenElse condition thenBlock elseBlock => by
      rw [Stmt.mapTokens, Stmt.depth, Stmt.depth, condition.depth_mapTokens f,
        Block.depth_mapTokens f thenBlock, Block.depth_mapTokens f elseBlock]
  | .repeatTimes count body => by
      rw [Stmt.mapTokens, Stmt.depth, Stmt.depth, count.depth_mapTokens f,
        Block.depth_mapTokens f body]
  | .repeatUntil condition body => by
      rw [Stmt.mapTokens, Stmt.depth, Stmt.depth, condition.depth_mapTokens f,
        Block.depth_mapTokens f body]
  | .forEach _ list body => by
      rw [Stmt.mapTokens, Stmt.depth, Stmt.depth, list.depth_mapTokens f,
        Block.depth_mapTokens f body]
  | .returns value => by rw [Stmt.mapTokens, Stmt.depth, Stmt.depth, value.depth_mapTokens f]
  | .expression e => by rw [Stmt.mapTokens, Stmt.depth, Stmt.depth, e.depth_mapTokens f]

/-- How deeply a program is nested does not depend on its tokens. -/
theorem Block.depth_mapTokens (f : Token → Token) : ∀ block : List Stmt,
    Block.depth (Block.mapTokens f block) = Block.depth block
  | [] => rfl
  | s :: rest => by
      rw [Block.mapTokens, Block.depth, Block.depth, s.depth_mapTokens f,
        Block.depth_mapTokens f rest]

end

namespace Grammar

/-! ## Lists of tokens that agree -/

/-- A change of tokens that the grammar does not see. -/
def KeepsKind (f : Token → Token) : Prop := ∀ t, (f t).kind = t.kind

variable {f g : Token → Token}

/-- Tokens that agree after changes which keep the kind are of one kind. -/
theorem kind_eq {t u : Token} (hf : KeepsKind f) (hg : KeepsKind g) (h : f t = g u) :
    u.kind = t.kind := by
  rw [← hf t, ← hg u, h]

theorem split_cons {t : Token} {ws vs : List Token} (h : (t :: ws).map f = vs.map g) :
    ∃ u us, vs = u :: us ∧ f t = g u ∧ ws.map f = us.map g := by
  obtain ⟨u, us, rfl, hu, hus⟩ := List.map_eq_cons_iff.mp h.symm
  exact ⟨u, us, rfl, hu.symm, hus.symm⟩

/-- A list that agrees with two lists one behind the other falls into two parts, which agree with
these. -/
theorem split_append {ws us vs : List Token} (h : (ws ++ us).map f = vs.map g) :
    ∃ xs ys, vs = xs ++ ys ∧ ws.map f = xs.map g ∧ us.map f = ys.map g := by
  rw [List.map_append] at h
  obtain ⟨xs, ys, rfl, hxs, hys⟩ := List.map_eq_append_iff.mp h.symm
  exact ⟨xs, ys, rfl, hxs.symm, hys.symm⟩

theorem split_nil {vs : List Token} (h : ([] : List Token).map f = vs.map g) : vs = [] :=
  List.map_eq_nil_iff.mp h.symm

/-- Skipping newlines and comments commutes with a change of tokens. -/
theorem significant_map (hf : KeepsKind f) (ts : List Token) :
    significant (ts.map f) = (significant ts).map f := by
  unfold significant
  rw [List.filter_map]
  refine congrArg (List.map f) (List.filter_congr fun t _ => ?_)
  exact congrArg (fun k : Kind => !k.isInsignificant) (hf t)

/-! ## Phrases with other tokens -/

mutual

/-- Tokens that agree with those of an expression make an expression, and this agrees with the
first one. The other phrases of the grammar follow the same rule. -/
theorem Expression.replace (hf : KeepsKind f) (hg : KeepsKind g) :
    ∀ {ws vs : List Token} {e : Expr}, Expression ws e →
    ws.map f = vs.map g → ∃ e', Expression vs e' ∧ e'.mapTokens g = e.mapTokens f
  | _, _, _, .primary hprimary, h => by
      obtain ⟨e', hprimary', he⟩ := hprimary.replace hf hg h
      exact ⟨e', .primary hprimary', he⟩
  | _, _, _, .binary hleft hoperator hright, h => by
      obtain ⟨ls, _, rfl, hls, h⟩ := split_append h
      obtain ⟨operator', rs, rfl, ht, hrs⟩ := split_cons h
      obtain ⟨left', hleft', hl⟩ := hleft.replace hf hg hls
      obtain ⟨right', hright', hr⟩ := hright.replace hf hg hrs
      refine ⟨.binary left' operator' right',
        .binary hleft' (by rwa [kind_eq hf hg ht]) hright', ?_⟩
      rw [Expr.mapTokens, Expr.mapTokens, hl, hr, ht]
  | _, _, _, .unary hoperator hoperand, h => by
      obtain ⟨operator', os, rfl, ht, hos⟩ := split_cons h
      obtain ⟨operand', hoperand', ho⟩ := hoperand.replace hf hg hos
      refine ⟨.unary operator' operand', .unary (by rwa [kind_eq hf hg ht]) hoperand', ?_⟩
      rw [Expr.mapTokens, Expr.mapTokens, ho, ht]

theorem Primary.replace (hf : KeepsKind f) (hg : KeepsKind g) :
    ∀ {ws vs : List Token} {e : Expr}, Primary ws e →
    ws.map f = vs.map g → ∃ e', Primary vs e' ∧ e'.mapTokens g = e.mapTokens f
  | _, _, _, .literal hkind, h => by
      obtain ⟨t', _, rfl, ht, h⟩ := split_cons h
      obtain rfl := split_nil h
      exact ⟨.literal t', .literal (by rwa [kind_eq hf hg ht]),
        by rw [Expr.mapTokens, Expr.mapTokens, ht]⟩
  | _, _, _, .name hkind, h => by
      obtain ⟨t', _, rfl, ht, h⟩ := split_cons h
      obtain rfl := split_nil h
      exact ⟨.name t', .name (by rwa [kind_eq hf hg ht]),
        by rw [Expr.mapTokens, Expr.mapTokens, ht]⟩
  | _, _, _, .call hcallee hopening harguments hcloser, h => by
      obtain ⟨callee', _, rfl, ht, h⟩ := split_cons h
      obtain ⟨opening', _, rfl, ho, h⟩ := split_cons h
      obtain ⟨as, _, rfl, has, h⟩ := split_append h
      obtain ⟨closer', _, rfl, hc, h⟩ := split_cons h
      obtain rfl := split_nil h
      obtain ⟨arguments', harguments', ha⟩ := harguments.replace hf hg has
      refine ⟨.call callee' arguments' closer',
        .call (by rwa [kind_eq hf hg ht]) (by rwa [kind_eq hf hg ho]) harguments'
        (by rwa [kind_eq hf hg hc]), ?_⟩
      rw [Expr.mapTokens, Expr.mapTokens, ha, ht, hc]
  | _, _, _, .group hopening hinner hcloser, h => by
      obtain ⟨opening', _, rfl, ho, h⟩ := split_cons h
      obtain ⟨is, _, rfl, his, h⟩ := split_append h
      obtain ⟨closer', _, rfl, hc, h⟩ := split_cons h
      obtain rfl := split_nil h
      obtain ⟨inner', hinner', hi⟩ := hinner.replace hf hg his
      refine ⟨.group inner',
        .group (by rwa [kind_eq hf hg ho]) hinner' (by rwa [kind_eq hf hg hc]), ?_⟩
      rw [Expr.mapTokens, Expr.mapTokens, hi]
  | _, _, _, .list hopening hitems hcloser, h => by
      obtain ⟨opening', _, rfl, ho, h⟩ := split_cons h
      obtain ⟨is, _, rfl, his, h⟩ := split_append h
      obtain ⟨closer', _, rfl, hc, h⟩ := split_cons h
      obtain rfl := split_nil h
      obtain ⟨items', hitems', hi⟩ := hitems.replace hf hg his
      refine ⟨.list opening' items' closer',
        .list (by rwa [kind_eq hf hg ho]) hitems' (by rwa [kind_eq hf hg hc]), ?_⟩
      rw [Expr.mapTokens, Expr.mapTokens, hi, ho, hc]

theorem Items.replace (hf : KeepsKind f) (hg : KeepsKind g) :
    ∀ {ws vs : List Token} {es : List Expr}, Items ws es →
    ws.map f = vs.map g → ∃ es', Items vs es' ∧ Expr.mapTokensAll g es' = Expr.mapTokensAll f es
  | _, _, _, .nil, h => by
      obtain rfl := split_nil h
      exact ⟨[], .nil, rfl⟩
  | _, _, _, .one hitem, h => by
      obtain ⟨e', hitem', he⟩ := hitem.replace hf hg h
      exact ⟨[e'], .one hitem',
        by rw [Expr.mapTokensAll, Expr.mapTokensAll, he, Expr.mapTokensAll, Expr.mapTokensAll]⟩
  | _, _, _, .cons hitem hcomma hrest, h => by
      obtain ⟨is, _, rfl, his, h⟩ := split_append h
      obtain ⟨comma', rs, rfl, hc, hrs⟩ := split_cons h
      obtain ⟨e', hitem', he⟩ := hitem.replace hf hg his
      obtain ⟨rest', hrest', hr⟩ := hrest.replace hf hg hrs
      refine ⟨e' :: rest', .cons hitem' (by rwa [kind_eq hf hg hc]) hrest', ?_⟩
      rw [Expr.mapTokensAll, Expr.mapTokensAll, he, hr]

end

/-- Parameters are replaced as the tokens between the parentheses are. -/
theorem Params.replace (hf : KeepsKind f) (hg : KeepsKind g) :
    ∀ {ws vs params : List Token}, Params ws params →
    ws.map f = vs.map g → ∃ params', Params vs params' ∧ params'.map g = params.map f
  | _, _, _, .nil, h => by
      obtain rfl := split_nil h
      exact ⟨[], .nil, rfl⟩
  | _, _, _, .one hkind, h => by
      obtain ⟨t', _, rfl, ht, h⟩ := split_cons h
      obtain rfl := split_nil h
      exact ⟨[t'], .one (by rwa [kind_eq hf hg ht]),
        by rw [List.map_singleton, List.map_singleton, ht]⟩
  | _, _, _, .cons hkind hcomma hrest, h => by
      obtain ⟨t', _, rfl, ht, h⟩ := split_cons h
      obtain ⟨comma', rs, rfl, hc, hrs⟩ := split_cons h
      obtain ⟨rest', hrest', hr⟩ := hrest.replace hf hg hrs
      refine ⟨t' :: rest', .cons (by rwa [kind_eq hf hg ht]) (by rwa [kind_eq hf hg hc]) hrest',
        ?_⟩
      rw [List.map_cons, List.map_cons, ht, hr]

mutual

/-- Statements, and the conditionals, blocks and statement lists inside them, by induction on the
grammar. -/
theorem Statement.replace (hf : KeepsKind f) (hg : KeepsKind g) :
    ∀ {ws vs : List Token} {s : Stmt}, Statement ws s →
    ws.map f = vs.map g → ∃ s', Statement vs s' ∧ s'.mapTokens g = s.mapTokens f
  | _, _, _, .procedure hword hname hopening hparams hcloser hbody, h => by
      obtain ⟨word', _, rfl, hw, h⟩ := split_cons h
      obtain ⟨name', _, rfl, hn, h⟩ := split_cons h
      obtain ⟨opening', _, rfl, ho, h⟩ := split_cons h
      obtain ⟨ps, _, rfl, hps, h⟩ := split_append h
      obtain ⟨closer', bs, rfl, hc, hbs⟩ := split_cons h
      obtain ⟨params', hparams', hp⟩ := hparams.replace hf hg hps
      obtain ⟨body', hbody', hb⟩ := hbody.replace hf hg hbs
      refine ⟨.procedure name' params' body',
        .procedure (by rwa [kind_eq hf hg hw]) (by rwa [kind_eq hf hg hn])
        (by rwa [kind_eq hf hg ho]) hparams' (by rwa [kind_eq hf hg hc]) hbody', ?_⟩
      rw [Stmt.mapTokens, Stmt.mapTokens, hn, hp, hb]
  | _, _, _, .conditional hconditional, h => by
      obtain ⟨s', hconditional', hs⟩ := hconditional.replace hf hg h
      exact ⟨s', .conditional hconditional', hs⟩
  | _, _, _, .repeatUntil hword huntil hcondition hbody, h => by
      obtain ⟨word', _, rfl, hw, h⟩ := split_cons h
      obtain ⟨until', _, rfl, hu, h⟩ := split_cons h
      obtain ⟨es, bs, rfl, hes, hbs⟩ := split_append h
      obtain ⟨condition', hcondition', he⟩ := hcondition.replace hf hg hes
      obtain ⟨body', hbody', hb⟩ := hbody.replace hf hg hbs
      refine ⟨.repeatUntil condition' body',
        .repeatUntil (by rwa [kind_eq hf hg hw]) (by rwa [kind_eq hf hg hu]) hcondition'
        hbody', ?_⟩
      rw [Stmt.mapTokens, Stmt.mapTokens, he, hb]
  | _, _, _, .repeatTimes hword hcount htimes hbody, h => by
      obtain ⟨word', _, rfl, hw, h⟩ := split_cons h
      obtain ⟨es, _, rfl, hes, h⟩ := split_append h
      obtain ⟨times', bs, rfl, ht, hbs⟩ := split_cons h
      obtain ⟨count', hcount', he⟩ := hcount.replace hf hg hes
      obtain ⟨body', hbody', hb⟩ := hbody.replace hf hg hbs
      refine ⟨.repeatTimes count' body',
        .repeatTimes (by rwa [kind_eq hf hg hw]) hcount' (by rwa [kind_eq hf hg ht])
        hbody', ?_⟩
      rw [Stmt.mapTokens, Stmt.mapTokens, he, hb]
  | _, _, _, .forEach hword heach hitem hin hlist hbody, h => by
      obtain ⟨word', _, rfl, hw, h⟩ := split_cons h
      obtain ⟨each', _, rfl, hea, h⟩ := split_cons h
      obtain ⟨item', _, rfl, hit, h⟩ := split_cons h
      obtain ⟨in', _, rfl, hi, h⟩ := split_cons h
      obtain ⟨es, bs, rfl, hes, hbs⟩ := split_append h
      obtain ⟨list', hlist', he⟩ := hlist.replace hf hg hes
      obtain ⟨body', hbody', hb⟩ := hbody.replace hf hg hbs
      refine ⟨.forEach item' list' body',
        .forEach (by rwa [kind_eq hf hg hw]) (by rwa [kind_eq hf hg hea])
        (by rwa [kind_eq hf hg hit]) (by rwa [kind_eq hf hg hi]) hlist' hbody', ?_⟩
      rw [Stmt.mapTokens, Stmt.mapTokens, hit, he, hb]
  | _, _, _, .returns hword hvalue, h => by
      obtain ⟨word', es, rfl, hw, hes⟩ := split_cons h
      obtain ⟨value', hvalue', hv⟩ := hvalue.replace hf hg hes
      refine ⟨.returns value', .returns (by rwa [kind_eq hf hg hw]) hvalue', ?_⟩
      rw [Stmt.mapTokens, Stmt.mapTokens, hv]
  | _, _, _, .assign htarget harrow hvalue, h => by
      obtain ⟨target', _, rfl, ht, h⟩ := split_cons h
      obtain ⟨arrow', es, rfl, ha, hes⟩ := split_cons h
      obtain ⟨value', hvalue', hv⟩ := hvalue.replace hf hg hes
      refine ⟨.assign target' value',
        .assign (by rwa [kind_eq hf hg ht]) (by rwa [kind_eq hf hg ha]) hvalue', ?_⟩
      rw [Stmt.mapTokens, Stmt.mapTokens, ht, hv]
  | _, _, _, .expression hfirst hexpression, h => by
      obtain ⟨e', hexpression', he⟩ := hexpression.replace hf hg h
      obtain ⟨first', ws', rfl, ht, -⟩ := split_cons h
      refine ⟨.expression e', .expression (by rwa [kind_eq hf hg ht]) hexpression', ?_⟩
      rw [Stmt.mapTokens, Stmt.mapTokens, he]

theorem Conditional.replace (hf : KeepsKind f) (hg : KeepsKind g) :
    ∀ {ws vs : List Token} {s : Stmt}, Conditional ws s →
    ws.map f = vs.map g → ∃ s', Conditional vs s' ∧ s'.mapTokens g = s.mapTokens f
  | _, _, _, .ifThen hword hopening hcondition hcloser hthen, h => by
      obtain ⟨word', _, rfl, hw, h⟩ := split_cons h
      obtain ⟨opening', _, rfl, ho, h⟩ := split_cons h
      obtain ⟨es, _, rfl, hes, h⟩ := split_append h
      obtain ⟨closer', bs, rfl, hc, hbs⟩ := split_cons h
      obtain ⟨condition', hcondition', he⟩ := hcondition.replace hf hg hes
      obtain ⟨then', hthen', ht⟩ := hthen.replace hf hg hbs
      refine ⟨.ifThen condition' then',
        .ifThen (by rwa [kind_eq hf hg hw]) (by rwa [kind_eq hf hg ho]) hcondition'
        (by rwa [kind_eq hf hg hc]) hthen', ?_⟩
      rw [Stmt.mapTokens, Stmt.mapTokens, he, ht]
  | _, _, _, .ifThenElse hword hopening hcondition hcloser hthen helse hblock, h => by
      obtain ⟨word', _, rfl, hw, h⟩ := split_cons h
      obtain ⟨opening', _, rfl, ho, h⟩ := split_cons h
      obtain ⟨es, _, rfl, hes, h⟩ := split_append h
      obtain ⟨closer', _, rfl, hc, h⟩ := split_cons h
      obtain ⟨bs, _, rfl, hbs, h⟩ := split_append h
      obtain ⟨else', vs, rfl, hel, hvs⟩ := split_cons h
      obtain ⟨condition', hcondition', he⟩ := hcondition.replace hf hg hes
      obtain ⟨then', hthen', ht⟩ := hthen.replace hf hg hbs
      obtain ⟨block', hblock', hb⟩ := hblock.replace hf hg hvs
      refine ⟨.ifThenElse condition' then' block',
        .ifThenElse (by rwa [kind_eq hf hg hw]) (by rwa [kind_eq hf hg ho])
        hcondition' (by rwa [kind_eq hf hg hc]) hthen' (by rwa [kind_eq hf hg hel]) hblock', ?_⟩
      rw [Stmt.mapTokens, Stmt.mapTokens, he, ht, hb]
  | _, _, _, .elseIf hword hopening hcondition hcloser hthen helse hinner, h => by
      obtain ⟨word', _, rfl, hw, h⟩ := split_cons h
      obtain ⟨opening', _, rfl, ho, h⟩ := split_cons h
      obtain ⟨es, _, rfl, hes, h⟩ := split_append h
      obtain ⟨closer', _, rfl, hc, h⟩ := split_cons h
      obtain ⟨bs, _, rfl, hbs, h⟩ := split_append h
      obtain ⟨else', vs, rfl, hel, hvs⟩ := split_cons h
      obtain ⟨condition', hcondition', he⟩ := hcondition.replace hf hg hes
      obtain ⟨then', hthen', ht⟩ := hthen.replace hf hg hbs
      obtain ⟨inner', hinner', hi⟩ := hinner.replace hf hg hvs
      refine ⟨.ifThenElse condition' then' [inner'],
        .elseIf (by rwa [kind_eq hf hg hw]) (by rwa [kind_eq hf hg ho])
        hcondition' (by rwa [kind_eq hf hg hc]) hthen' (by rwa [kind_eq hf hg hel]) hinner', ?_⟩
      simp only [Stmt.mapTokens, Block.mapTokens, he, ht, hi]

theorem Braced.replace (hf : KeepsKind f) (hg : KeepsKind g) :
    ∀ {ws vs : List Token} {body : Block}, Braced ws body →
    ws.map f = vs.map g → ∃ body', Braced vs body' ∧
      Block.mapTokens g body' = Block.mapTokens f body
  | _, _, _, .mk hopening hbody hcloser, h => by
      obtain ⟨opening', _, rfl, ho, h⟩ := split_cons h
      obtain ⟨bs, _, rfl, hbs, h⟩ := split_append h
      obtain ⟨closer', _, rfl, hc, h⟩ := split_cons h
      obtain rfl := split_nil h
      obtain ⟨body', hbody', hb⟩ := hbody.replace hf hg hbs
      exact ⟨body', .mk (by rwa [kind_eq hf hg ho]) hbody' (by rwa [kind_eq hf hg hc]), hb⟩

/-- **Tokens that agree with those of a program make a program**, which agrees with the first
one. -/
theorem Statements.replace (hf : KeepsKind f) (hg : KeepsKind g) :
    ∀ {ws vs : List Token} {block : Block},
    Statements ws block → ws.map f = vs.map g →
    ∃ block', Statements vs block' ∧ Block.mapTokens g block' = Block.mapTokens f block
  | _, _, _, .nil, h => by
      obtain rfl := split_nil h
      exact ⟨[], .nil, rfl⟩
  | _, _, _, .cons hfirst hrest, h => by
      obtain ⟨xs, ys, rfl, hxs, hys⟩ := split_append h
      obtain ⟨s', hfirst', hs⟩ := hfirst.replace hf hg hxs
      obtain ⟨rest', hrest', hr⟩ := hrest.replace hf hg hys
      exact ⟨s' :: rest', .cons hfirst' hrest', by rw [Block.mapTokens, Block.mapTokens, hs, hr]⟩

end

end Grammar

end Pseudocode
