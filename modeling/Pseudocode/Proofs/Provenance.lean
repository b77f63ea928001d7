import Pseudocode.Proofs.Failure
import Pseudocode.Proofs.Lexing
import Pseudocode.Proofs.ParserSoundness
import Pseudocode.Proofs.Refusal

/-!
# Where the tokens of a program come from

A node of a program holds the tokens that the evaluator works with and that its errors point at.
Reading makes none of them up: each token of each node is one of the tokens that were read, and a
literal is of a kind that has a value. So what the lexer guarantees of every token of a source
holds throughout a program that was read from it, in the bodies of its procedures as well
(`nodes_of_parseSource`).

A source that is no program fails in one of two ways, each with its place in the source
(`parseSource_fails`). A run can fail in these ways, or at a node of the program that was read, and
in no other (`run_fails`).
-/

namespace Pseudocode

/-- The tokens of the node itself satisfy `P`, and a literal has one of the kinds of literals. -/
def Expr.NodeOf (P : Token → Prop) : Expr → Prop
  | .literal token => P token ∧ (token.kind = .number ∨ token.kind = .text ∨ token.kind = .truth)
  | .name token => P token
  | .unary operator _ => P operator
  | .binary _ operator _ => P operator
  | .group _ => True
  | .list opening _ closing => P opening ∧ P closing
  | .call callee _ closing => P callee ∧ P closing

/-- All expressions of these statements are made of such tokens. -/
def Stmt.NodesOf (P : Token → Prop) (statements : List Stmt) : Prop :=
  ∀ s ∈ statements, ∀ e ∈ s.operands, ∀ x ∈ e.parts, x.NodeOf P

namespace Grammar

variable {P : Token → Prop}

mutual

/-- The nodes of an expression are made of its tokens. The other phrases of the grammar follow the
same rule. -/
theorem Expression.nodes : ∀ {ws : List Token} {e : Expr}, Expression ws e → (∀ t ∈ ws, P t) →
    ∀ x ∈ e.parts, x.NodeOf P
  | _, _, .primary hprimary, hws => hprimary.nodes hws
  | _, _, .binary hleft _ hright, hws => by
      obtain ⟨hls, hoperator, hrs⟩ : _ ∧ _ ∧ _ := by
        simpa only [List.forall_mem_append, List.forall_mem_cons] using hws
      rw [Expr.parts, List.forall_mem_cons, List.forall_mem_append]
      exact ⟨hoperator, hleft.nodes hls, hright.nodes hrs⟩
  | _, _, .unary _ hoperand, hws => by
      obtain ⟨hoperator, hos⟩ := List.forall_mem_cons.mp hws
      rw [Expr.parts, List.forall_mem_cons]
      exact ⟨hoperator, hoperand.nodes hos⟩

theorem Primary.nodes : ∀ {ws : List Token} {e : Expr}, Primary ws e → (∀ t ∈ ws, P t) →
    ∀ x ∈ e.parts, x.NodeOf P
  | _, _, .literal hkind, hws => by
      rw [Expr.parts, List.forall_mem_singleton]
      exact ⟨hws _ List.mem_cons_self, hkind⟩
  | _, _, .name _, hws => by
      rw [Expr.parts, List.forall_mem_singleton]
      exact hws _ List.mem_cons_self
  | _, _, .call _ _ harguments _, hws => by
      obtain ⟨hcallee, -, has, hcloser, -⟩ : _ ∧ _ ∧ _ ∧ _ ∧ _ := by
        simpa only [List.forall_mem_append, List.forall_mem_cons] using hws
      rw [Expr.parts, List.forall_mem_cons]
      exact ⟨⟨hcallee, hcloser⟩, harguments.nodes has⟩
  | _, _, .group _ hinner _, hws => by
      obtain ⟨-, his, -⟩ : _ ∧ _ ∧ _ := by
        simpa only [List.forall_mem_append, List.forall_mem_cons] using hws
      rw [Expr.parts, List.forall_mem_cons]
      exact ⟨trivial, hinner.nodes his⟩
  | _, _, .list _ hitems _, hws => by
      obtain ⟨hopening, his, hcloser, -⟩ : _ ∧ _ ∧ _ ∧ _ := by
        simpa only [List.forall_mem_append, List.forall_mem_cons] using hws
      rw [Expr.parts, List.forall_mem_cons]
      exact ⟨⟨hopening, hcloser⟩, hitems.nodes his⟩

theorem Items.nodes : ∀ {ws : List Token} {es : List Expr}, Items ws es → (∀ t ∈ ws, P t) →
    ∀ x ∈ Expr.partsAll es, x.NodeOf P
  | _, _, .nil, _ => fun x hx => absurd hx List.not_mem_nil
  | _, _, .one hitem, hws => by
      rw [Expr.partsAll, Expr.partsAll, List.append_nil]
      exact hitem.nodes hws
  | _, _, .cons hitem _ hrest, hws => by
      obtain ⟨his, -, hrs⟩ : _ ∧ _ ∧ _ := by
        simpa only [List.forall_mem_append, List.forall_mem_cons] using hws
      rw [Expr.partsAll, List.forall_mem_append]
      exact ⟨hitem.nodes his, hrest.nodes hrs⟩

end

/-- A statement with one expression of its own, before the statements inside it. -/
theorem nodesOf_cons {s : Stmt} {e : Expr} {inside : List Stmt} (hs : s.operands = [e])
    (he : ∀ x ∈ e.parts, x.NodeOf P) (hinside : Stmt.NodesOf P inside) :
    Stmt.NodesOf P (s :: inside) := by
  refine List.forall_mem_cons.mpr ⟨?_, hinside⟩
  rw [hs]
  exact List.forall_mem_singleton.mpr he

theorem nodesOf_append {some more : List Stmt} (h : Stmt.NodesOf P some)
    (h' : Stmt.NodesOf P more) :
    Stmt.NodesOf P (some ++ more) := List.forall_mem_append.mpr ⟨h, h'⟩

theorem nodesOf_nil : Stmt.NodesOf P [] := fun _ hs => absurd hs List.not_mem_nil

mutual

/-- The expressions of a statement are made of its tokens, also those of the blocks inside it. -/
theorem Statement.nodes : ∀ {ws : List Token} {s : Stmt}, Statement ws s → (∀ t ∈ ws, P t) →
    Stmt.NodesOf P s.parts
  | _, _, .procedure _ _ _ _ _ hbody, hws => by
      obtain ⟨-, -, -, -, -, hbs⟩ : _ ∧ _ ∧ _ ∧ _ ∧ _ ∧ _ := by
        simpa only [List.forall_mem_append, List.forall_mem_cons] using hws
      -- a definition evaluates nothing; its body is evaluated by calls
      rw [Stmt.parts]
      exact List.forall_mem_cons.mpr ⟨fun e he => absurd he List.not_mem_nil, hbody.nodes hbs⟩
  | _, _, .conditional hconditional, hws => hconditional.nodes hws
  | _, _, .repeatUntil _ _ hcondition hbody, hws => by
      obtain ⟨-, -, hes, hbs⟩ : _ ∧ _ ∧ _ ∧ _ := by
        simpa only [List.forall_mem_append, List.forall_mem_cons] using hws
      rw [Stmt.parts]
      exact nodesOf_cons rfl (hcondition.nodes hes) (hbody.nodes hbs)
  | _, _, .repeatTimes _ hcount _ hbody, hws => by
      obtain ⟨-, hes, -, hbs⟩ : _ ∧ _ ∧ _ ∧ _ := by
        simpa only [List.forall_mem_append, List.forall_mem_cons] using hws
      rw [Stmt.parts]
      exact nodesOf_cons rfl (hcount.nodes hes) (hbody.nodes hbs)
  | _, _, .forEach _ _ _ _ hlist hbody, hws => by
      obtain ⟨-, -, -, -, hes, hbs⟩ : _ ∧ _ ∧ _ ∧ _ ∧ _ ∧ _ := by
        simpa only [List.forall_mem_append, List.forall_mem_cons] using hws
      rw [Stmt.parts]
      exact nodesOf_cons rfl (hlist.nodes hes) (hbody.nodes hbs)
  | _, _, .returns _ hvalue, hws => by
      obtain ⟨-, hes⟩ := List.forall_mem_cons.mp hws
      rw [Stmt.parts]
      exact nodesOf_cons rfl (hvalue.nodes hes) nodesOf_nil
  | _, _, .assign _ _ hvalue, hws => by
      obtain ⟨-, -, hes⟩ : _ ∧ _ ∧ _ := by simpa only [List.forall_mem_cons] using hws
      rw [Stmt.parts]
      exact nodesOf_cons rfl (hvalue.nodes hes) nodesOf_nil
  | _, _, .expression _ hexpression, hws => by
      rw [Stmt.parts]
      exact nodesOf_cons rfl (hexpression.nodes hws) nodesOf_nil

theorem Conditional.nodes : ∀ {ws : List Token} {s : Stmt}, Conditional ws s → (∀ t ∈ ws, P t) →
    Stmt.NodesOf P s.parts
  | _, _, .ifThen _ _ hcondition _ hthen, hws => by
      obtain ⟨-, -, hes, -, hbs⟩ : _ ∧ _ ∧ _ ∧ _ ∧ _ := by
        simpa only [List.forall_mem_append, List.forall_mem_cons] using hws
      rw [Stmt.parts]
      exact nodesOf_cons rfl (hcondition.nodes hes) (hthen.nodes hbs)
  | _, _, .ifThenElse _ _ hcondition _ hthen _ helse, hws => by
      obtain ⟨-, -, hes, -, hbs, -, hvs⟩ : _ ∧ _ ∧ _ ∧ _ ∧ _ ∧ _ ∧ _ := by
        simpa only [List.forall_mem_append, List.forall_mem_cons] using hws
      rw [Stmt.parts]
      exact nodesOf_cons rfl (hcondition.nodes hes)
        (nodesOf_append (hthen.nodes hbs) (helse.nodes hvs))
  | _, _, .elseIf _ _ hcondition _ hthen _ hinner, hws => by
      obtain ⟨-, -, hes, -, hbs, -, hvs⟩ : _ ∧ _ ∧ _ ∧ _ ∧ _ ∧ _ ∧ _ := by
        simpa only [List.forall_mem_append, List.forall_mem_cons] using hws
      -- the conditional behind `ELSE` is all there is in the else block
      rw [Stmt.parts, Block.parts, Block.parts, List.append_nil]
      exact nodesOf_cons rfl (hcondition.nodes hes)
        (nodesOf_append (hthen.nodes hbs) (hinner.nodes hvs))

theorem Braced.nodes : ∀ {ws : List Token} {body : Block}, Braced ws body → (∀ t ∈ ws, P t) →
    Stmt.NodesOf P (Block.parts body)
  | _, _, .mk _ hbody _, hws => by
      obtain ⟨-, hbs, -⟩ : _ ∧ _ ∧ _ := by
        simpa only [List.forall_mem_append, List.forall_mem_cons] using hws
      exact hbody.nodes hbs

/-- **The expressions of a program are made of its tokens.** -/
theorem Statements.nodes : ∀ {ws : List Token} {block : Block}, Statements ws block →
    (∀ t ∈ ws, P t) →
    Stmt.NodesOf P (Block.parts block)
  | _, _, .nil, _ => nodesOf_nil
  | _, _, .cons hfirst hrest, hws => by
      obtain ⟨hfs, hrs⟩ := List.forall_mem_append.mp hws
      rw [Block.parts]
      exact nodesOf_append (hfirst.nodes hfs) (hrest.nodes hrs)

end

end Grammar

/-! ## Sources -/

/-- A program that was read is made of all the significant tokens of its source. -/
theorem statements_of_parseSource {source : String} {program : Block}
    (h : parseSource source = .ok program) :
    ∃ body, lex source = .ok (body ++ [Token.endAt source.utf8ByteSize])
      ∧ (∀ t ∈ significant body, Lexer.Lies 0 source.toList t)
      ∧ Grammar.Statements (significant body) program ∧ Block.depth program ≤ nestingLimit := by
  obtain ⟨tokens, hlex, hparse⟩ := Reading.bind_eq_ok h
  unfold lexSource at hlex
  split at hlex
  · rename_i ts hts
    injection hlex with hlex
    obtain ⟨body, rfl, hlies⟩ := lies_of_lex hts
    rw [← hlex] at hparse
    obtain ⟨ws, vs, hbody, hstatements, hends, hdepth⟩ := statements_of_parseTokens rfl hparse
    -- nothing is left over, since the end of input comes only once
    obtain rfl : vs = [] := by
      cases vs with
      | nil => rfl
      | cons t rest =>
          obtain ⟨-, text, -, -, hspelled, -, -⟩ := hlies t (by rw [hbody]; simp)
          have hshape := hspelled.shape
          rw [show t.kind = .endOfInput from hends] at hshape
          exact hshape.elim
    rw [List.append_nil] at hbody
    exact ⟨body, hts, hlies, hbody ▸ hstatements, hdepth⟩
  · exact absurd hlex (by simp)

/-- Every token of every expression in a program that was read is a piece of its source. -/
theorem nodes_of_parseSource {source : String} {program : Block}
    (h : parseSource source = .ok program) :
    Stmt.NodesOf (Lexer.Lies 0 source.toList) (Block.parts program) := by
  obtain ⟨body, -, hlies, hstatements, -⟩ := statements_of_parseSource h
  exact hstatements.nodes hlies

/-- Why a source is no program: it cannot be cut into tokens, or one of its tokens is refused. -/
inductive Fails (source : String) : Error → Prop where
  | stuck {before rest : List Char} {c : Char} {e : Error} : source.toList = before ++ c :: rest →
      Lexer.Stuck (Text.byteLength before) c rest e → Fails source e
  | refused {t : Token} {e : Error} :
      t = Token.endAt source.utf8ByteSize ∨ Lexer.Lies 0 source.toList t →
      Refuses t e → Fails source e

/-- **Reading a source fails only for a reason that lies in the source.** -/
theorem parseSource_fails {source : String} {halt : Halt} (h : parseSource source = .error halt) :
    ∃ e, halt = .error e ∧ Fails source e := by
  unfold parseSource lexSource at h
  cases hlex : lex source with
  | error e =>
      rw [hlex] at h
      injection h with h
      obtain ⟨before, c, rest, hsource, hstuck⟩ := stuck_of_lex hlex
      exact ⟨e, h.symm, .stuck hsource hstuck⟩
  | ok ts =>
      rw [hlex] at h
      obtain ⟨body, rfl, hlies⟩ := lies_of_lex hlex
      obtain ⟨e, t, rfl, ht, hrefuses⟩ := refuses_of_parseTokens rfl h
      exact ⟨e, rfl, .refused ((List.mem_cons.mp ht).imp_right (hlies t)) hrefuses⟩

/-! ## Runs -/

/-- What was wrong when a run failed: the source, or something that a node of the program can
raise. -/
theorem run_fails {fuel : Nat} {source : String} {halt : Halt}
    (h : (run fuel source).result = .error halt) :
    (parseSource source = .error halt ∧ ∃ e, halt = .error e ∧ Fails source e)
      ∨ ∃ program, parseSource source = .ok program ∧ Block.Raises program halt := by
  unfold run at h
  cases hparse : parseSource source with
  | error halt' =>
      rw [hparse] at h
      injection h with h
      subst h
      exact .inl ⟨rfl, parseSource_fails hparse⟩
  | ok program =>
      rw [hparse, runParsed, EvalM.outcome_eq] at h
      exact .inr ⟨program, rfl, executeProgram_raises h⟩

end Pseudocode
