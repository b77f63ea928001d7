import Pseudocode.Proofs.ParserSoundness
import Pseudocode.Proofs.Refusal
import Pseudocode.Proofs.Rereading

/-!
# Offsets and the spelling of operators do not matter

A token carries its text and its offset, and both are kept in the program and in the procedures
that it stores. What for? For errors alone, except that names and literals mean what their text
says. `Token.gist` is what is left of a token when the rest is forgotten: its kind, and the text of
a name or a literal. Lists of tokens with the same gist are read alike and run alike, down to the
kinds of their errors (`parseTokens_respelled`).

Neither list is compared with the other directly. Each is compared with its gist, which is a list
of tokens too, and a program read from a list of tokens runs in lockstep with the program read from
the gist.
-/

namespace Pseudocode

open Grammar (KeepsKind)
open TokenStream (closed)

/-- Kinds of tokens that mean what their text says. -/
def Kind.isWorded : Kind → Bool
  | .identifier | .number | .text | .truth => true
  | _ => false

/-- What is left of a token when its offset is forgotten, and its text too unless it is a name or a
literal. -/
def Token.gist (t : Token) : Token := ⟨if t.kind.isWorded then t.text else "", t.kind, 0⟩

theorem Token.keepsKind_gist : KeepsKind Token.gist := fun _ => rfl

/-- A name or a literal keeps its text. -/
theorem Token.text_gist {t : Token} (h : t.kind.isWorded = true) : t.gist.text = t.text := if_pos h

/-! ## Names and literals of a program -/

/-- Where evaluation looks at the text of a token, the token is a name or a literal. -/
def Expr.Worded : Expr → Prop
  | .literal token => token.kind.isWorded = true
  | .name token => token.kind.isWorded = true
  | .call callee _ _ => callee.kind.isWorded = true
  | _ => True

/-- What a statement binds is a name. -/
def Stmt.Worded : Stmt → Prop
  | .procedure name params _ => name.kind.isWorded = true ∧ ∀ param ∈ params,
      param.kind.isWorded = true
  | .assign target _ => target.kind.isWorded = true
  | .forEach item _ _ => item.kind.isWorded = true
  | _ => True

/-- A statement and its expressions, without the statements inside it. -/
def Stmt.NodesWorded (s : Stmt) : Prop := s.Worded ∧ ∀ e ∈ s.operands, ∀ x ∈ e.parts, x.Worded

theorem isWorded_of_identifier {t : Token} (h : t.kind = .identifier) :
    t.kind.isWorded = true := by
  rw [h]
  rfl

namespace Grammar

mutual

/-- Expressions that are read hold names and literals where evaluation looks at texts. -/
theorem Expression.worded : ∀ {ws : List Token} {e : Expr}, Expression ws e →
    ∀ x ∈ e.parts, x.Worded
  | _, _, .primary hprimary => hprimary.worded
  | _, _, .binary hleft _ hright => by
      rw [Expr.parts, List.forall_mem_cons, List.forall_mem_append]
      exact ⟨trivial, hleft.worded, hright.worded⟩
  | _, _, .unary _ hoperand => by
      rw [Expr.parts, List.forall_mem_cons]
      exact ⟨trivial, hoperand.worded⟩

theorem Primary.worded : ∀ {ws : List Token} {e : Expr}, Primary ws e → ∀ x ∈ e.parts, x.Worded
  | _, _, .literal hkind => by
      rw [Expr.parts, List.forall_mem_singleton]
      rcases hkind with h | h | h <;> exact (congrArg Kind.isWorded h).trans rfl
  | _, _, .name hkind => by
      rw [Expr.parts, List.forall_mem_singleton]
      exact isWorded_of_identifier hkind
  | _, _, .call hkind _ harguments _ => by
      rw [Expr.parts, List.forall_mem_cons]
      exact ⟨isWorded_of_identifier hkind, harguments.worded⟩
  | _, _, .group _ hinner _ => by
      rw [Expr.parts, List.forall_mem_cons]
      exact ⟨trivial, hinner.worded⟩
  | _, _, .list _ hitems _ => by
      rw [Expr.parts, List.forall_mem_cons]
      exact ⟨trivial, hitems.worded⟩

theorem Items.worded : ∀ {ws : List Token} {es : List Expr}, Items ws es →
    ∀ x ∈ Expr.partsAll es, x.Worded
  | _, _, .nil => fun x hx => absurd hx List.not_mem_nil
  | _, _, .one hitem => by
      rw [Expr.partsAll, Expr.partsAll, List.append_nil]
      exact hitem.worded
  | _, _, .cons hitem _ hrest => by
      rw [Expr.partsAll, List.forall_mem_append]
      exact ⟨hitem.worded, hrest.worded⟩

end

theorem Params.worded {ws params : List Token} (h : Params ws params) :
    ∀ t ∈ params, t.kind.isWorded = true := by
  induction h with
  | nil => exact fun t ht => absurd ht List.not_mem_nil
  | one hkind => exact List.forall_mem_singleton.mpr (isWorded_of_identifier hkind)
  | cons hkind _ _ ih => exact List.forall_mem_cons.mpr ⟨isWorded_of_identifier hkind, ih⟩

theorem Expression.nodeWorded {ws : List Token} {e : Expr} {s : Stmt} (h : Expression ws e)
    (hs : s.Worded) (hoperands : s.operands = [e]) : s.NodesWorded := by
  refine ⟨hs, ?_⟩
  rw [hoperands]
  exact List.forall_mem_singleton.mpr h.worded

mutual

/-- So do statements, with the statements inside them. -/
theorem Statement.worded : ∀ {ws : List Token} {s : Stmt}, Statement ws s →
    ∀ x ∈ s.parts, x.NodesWorded
  | _, _, .procedure _ hname _ hparams _ hbody => by
      rw [Stmt.parts, List.forall_mem_cons]
      refine ⟨⟨⟨isWorded_of_identifier hname, hparams.worded⟩, ?_⟩, hbody.worded⟩
      exact fun e he => absurd he List.not_mem_nil
  | _, _, .conditional hconditional => hconditional.worded
  | _, _, .repeatUntil _ _ hcondition hbody => by
      rw [Stmt.parts, List.forall_mem_cons]
      exact ⟨hcondition.nodeWorded trivial rfl, hbody.worded⟩
  | _, _, .repeatTimes _ hcount _ hbody => by
      rw [Stmt.parts, List.forall_mem_cons]
      exact ⟨hcount.nodeWorded trivial rfl, hbody.worded⟩
  | _, _, .forEach _ _ hitem _ hlist hbody => by
      rw [Stmt.parts, List.forall_mem_cons]
      exact ⟨hlist.nodeWorded (isWorded_of_identifier hitem) rfl, hbody.worded⟩
  | _, _, .returns _ hvalue => by
      rw [Stmt.parts, List.forall_mem_singleton]
      exact hvalue.nodeWorded trivial rfl
  | _, _, .assign htarget _ hvalue => by
      rw [Stmt.parts, List.forall_mem_singleton]
      exact hvalue.nodeWorded (isWorded_of_identifier htarget) rfl
  | _, _, .expression _ hexpression => by
      rw [Stmt.parts, List.forall_mem_singleton]
      exact hexpression.nodeWorded trivial rfl

theorem Conditional.worded : ∀ {ws : List Token} {s : Stmt}, Conditional ws s →
    ∀ x ∈ s.parts, x.NodesWorded
  | _, _, .ifThen _ _ hcondition _ hthen => by
      rw [Stmt.parts, List.forall_mem_cons]
      exact ⟨hcondition.nodeWorded trivial rfl, hthen.worded⟩
  | _, _, .ifThenElse _ _ hcondition _ hthen _ helse => by
      rw [Stmt.parts, List.forall_mem_cons, List.forall_mem_append]
      exact ⟨hcondition.nodeWorded trivial rfl, hthen.worded, helse.worded⟩
  | _, _, .elseIf _ _ hcondition _ hthen _ hinner => by
      rw [Stmt.parts, List.forall_mem_cons, List.forall_mem_append, Block.parts, Block.parts,
        List.append_nil]
      exact ⟨hcondition.nodeWorded trivial rfl, hthen.worded, hinner.worded⟩

theorem Braced.worded : ∀ {ws : List Token} {body : Block}, Braced ws body →
    ∀ x ∈ Block.parts body, x.NodesWorded
  | _, _, .mk _ hbody _ => hbody.worded

/-- So do programs. -/
theorem Statements.worded : ∀ {ws : List Token} {block : Block}, Statements ws block →
    ∀ x ∈ Block.parts block, x.NodesWorded
  | _, _, .nil => fun x hx => absurd hx List.not_mem_nil
  | _, _, .cons hfirst hrest => by
      rw [Block.parts, List.forall_mem_append]
      exact ⟨hfirst.worded, hrest.worded⟩

end

end Grammar

/-! ## A program and its gist -/

/-- Errors have to be of the same kind. -/
def Tolerance.kinds : Tolerance := .anyValue Error.SameKind fun _ _ => True

/-- What is wrong with a literal depends on its kind. -/
theorem kind_literalValue_error {token : Token} {e : Error} (h : literalValue token = .error e) :
    e.kind = if token.kind = .number then .typeError else .expectedExpression := by
  unfold literalValue at h
  cases hkind : token.kind with
  | number =>
      rw [hkind] at h
      cases hread : Number.read? token.text with
      | none =>
          rw [hread] at h
          exact Except.error.inj h ▸ rfl
      | some x => rw [hread] at h; exact nomatch h
  | text => rw [hkind] at h; exact nomatch h
  | truth => rw [hkind] at h; exact nomatch h
  | _ =>
      rw [hkind] at h
      exact Except.error.inj h ▸ rfl

/-- A node and its gist are alike, and their errors of the same kind. -/
theorem Expr.node_gist {x : Expr} (h : x.Worded) : x.Node .kinds (x.mapTokens Token.gist) where
  alike := by
    cases x with
    | literal token => exact ⟨⟨rfl, Token.text_gist h⟩, fun _ _ => trivial⟩
    | name token => exact Token.text_gist h
    | unary operator operand => exact rfl
    | binary left operator right => exact rfl
    | group inner => exact trivial
    | list opening items closing => exact trivial
    | call callee arguments closing => exact Token.text_gist h
  errors e e' hboth := by
    generalize hx : x.mapTokens Token.gist = x' at hboth
    cases hboth with
    | @literal token token' _ _ he he' =>
        have hkind : token'.kind = token.kind := by
          injection hx with hx
          rw [← hx]
          rfl
        show e'.kind = e.kind
        rw [kind_literalValue_error he, kind_literalValue_error he', hkind]
    | _ => rfl

theorem Stmt.node_gist {s : Stmt} (h : s.Worded) : s.Node .kinds (s.mapTokens Token.gist) where
  alike := by
    cases s with
    | procedure name params body =>
        refine ⟨⟨Token.text_gist h.1, ?_⟩, trivial⟩
        rw [List.map_map]
        exact List.map_congr_left fun param hparam => Token.text_gist (h.2 param hparam)
    | assign target value => exact Token.text_gist h
    | forEach item list body => exact Token.text_gist h
    | _ => exact trivial
  errors e e' hboth := by
    generalize s.mapTokens Token.gist = s' at hboth
    cases hboth <;> rfl

/-- A program is like its gist. -/
theorem Block.like_gist {program : Block} (h : ∀ s ∈ Block.parts program, s.NodesWorded) :
    Block.Like .kinds program (Block.mapTokens Token.gist program) :=
  Block.like_mapTokens program fun s hs =>
    ⟨Stmt.node_gist (h s hs).1, fun e he x hx => Expr.node_gist ((h s hs).2 e he x hx)⟩

/-! ## Reading the gist -/

/-- Tokens may be closed before they are read. -/
theorem parseTokens_closed (ts : List Token) : parseTokens (closed ts) = parseTokens ts := by
  unfold parseTokens ParseM.answer Parser.ofTokens
  rw [TokenStream.ofTokens_closed]

/-- Closing commutes with taking the gist. -/
theorem closed_map_gist (ts : List Token) :
    closed (ts.map Token.gist) = (closed ts).map Token.gist := by
  rcases List.eq_nil_or_concat ts with rfl | ⟨body, last, rfl⟩
  · rfl
  · rw [List.concat_eq_append, List.map_append, List.map_singleton, TokenStream.closed_concat,
      TokenStream.closed_concat]
    by_cases h : last.kind = .endOfInput
    · rw [if_pos h, if_pos (show last.gist.kind = .endOfInput from h), List.map_append,
        List.map_singleton]
    · rw [if_neg h, if_neg (show ¬ last.gist.kind = .endOfInput from h), List.map_append,
        List.map_append]
      rfl

/-- Tokens and their gist are both read, or both refused. -/
theorem parseTokens_gist (ts : List Token) :
    (∃ program, parseTokens ts = .ok program ∧
      parseTokens (ts.map Token.gist) = .ok (Block.mapTokens Token.gist program)
        ∧ ∀ s ∈ Block.parts program, s.NodesWorded)
      ∨ ∃ e e', parseTokens ts = .error (.error e)
      ∧ parseTokens (ts.map Token.gist) = .error (.error e')
        ∧ e'.kind = e.kind := by
  obtain ⟨body, last, hclosed, hlast⟩ := TokenStream.exists_closed ts
  have hparse : parseTokens ts = parseTokens (body ++ [last]) := by
    rw [← parseTokens_closed ts, hclosed]
  have hgist : parseTokens (ts.map Token.gist) =
      parseTokens (body.map Token.gist ++ [last.gist]) := by
    rw [← parseTokens_closed (ts.map Token.gist), closed_map_gist, hclosed, List.map_append,
      List.map_singleton]
  have hechoes :=
    (Reading.statements_echo nestingLimit last Token.keepsKind_gist
      (4 * (body.length + 1) + 8)).statements
    true [] 0 (significant body)
  have hread := parseTokens_eq_read body hlast
  have hread' :=
    parseTokens_eq_read (body.map Token.gist) (show last.gist.kind = .endOfInput from hlast)
  rw [List.length_map, Grammar.significant_map Token.keepsKind_gist] at hread'
  rw [hparse, hgist]
  generalize Reading.statements nestingLimit last (4 * (body.length + 1) + 8) true [] 0
    (significant body) = x
    at hechoes hread
  change Reading.Echoes Token.gist (Block.mapTokens Token.gist) x
    (Reading.statements nestingLimit last.gist
    (4 * (body.length + 1) + 8) true [] 0 ((significant body).map Token.gist)) at hechoes
  generalize Reading.statements nestingLimit last.gist (4 * (body.length + 1) + 8) true [] 0
    ((significant body).map Token.gist) = y at hechoes hread'
  match x, y with
  | .ok (program, us), .ok (program', vs) =>
      obtain ⟨rfl, -⟩ := hechoes
      obtain ⟨ws, _, -, hstatements, -, -⟩ := statements_of_parseTokens hlast hread
      exact .inl ⟨program, hread, hread', hstatements.worded⟩
  | .error halt, .error halt' =>
      -- closed tokens are refused with an error, and not for lack of fuel
      obtain ⟨e, -, rfl, -, -⟩ := refuses_of_parseTokens hlast hread
      cases hechoes with
      | error hkind => exact .inr ⟨e, _, hread, hread', hkind⟩
  | .ok _, .error _ => exact hechoes.elim
  | .error _, .ok _ => exact hechoes.elim

/-! ## Two spellings of one program -/

/-- Runs that both agree with a third agree with each other. -/
theorem Outcome.Like.respelled {o o' gist : Outcome} (h : o.Like Error.SameKind gist)
    (h' : o'.Like Error.SameKind gist) :
    o.Like Error.SameKind o' := by
  refine ⟨h'.output.symm.trans h.output, ?_⟩
  obtain ⟨-, h⟩ := h
  obtain ⟨-, h'⟩ := h'
  generalize o.result = r at h ⊢
  generalize o'.result = r' at h' ⊢
  generalize gist.result = g at h h'
  cases h with
  | ok value =>
      cases h' with
      | ok _ => exact .ok value
  | error hhalt =>
      cases h' with
      | error hhalt' =>
          refine .error ?_
          cases hhalt with
          | error hkind =>
              cases hhalt' with
              | error hkind' => exact .error (Eq.trans (Eq.symm hkind') hkind)
          | fault f => cases hhalt'; exact .fault f
          | outOfFuel => cases hhalt'; exact .outOfFuel

/-- A program runs as the program read from the gist of its tokens. -/
theorem runParsed_gist (fuel : Nat) (ts : List Token) :
    (runParsed fuel (parseTokens ts)).Like Error.SameKind
      (runParsed fuel (parseTokens (ts.map Token.gist))) := by
  rcases parseTokens_gist ts with
    ⟨program, hparse, hparse', hworded⟩ | ⟨e, e', hparse, hparse', hkind⟩
  · rw [hparse, hparse']
    exact Outcome.like_of_program fuel (Block.like_gist hworded)
  · rw [hparse, hparse']
    exact ⟨rfl, .error (.error hkind)⟩

/--
**Offsets and the spelling of operators never influence behaviour.**

Take two lists of tokens of the same gist: as long as each other, with the same kinds, and with the
same texts where a token is a name or a literal. Either both are programs, and the two programs
differ in nothing but what the gist forgets, or both are refused with the same kind of error. Run
on fresh machines they display the same lines and then end with the same value, or in errors of the
same kind.
-/
theorem parseTokens_respelled (ts us : List Token) (h : ts.map Token.gist = us.map Token.gist)
    (fuel : Nat) :
    ((∃ p q, parseTokens ts = .ok p ∧ parseTokens us = .ok q
          ∧ Block.mapTokens Token.gist p = Block.mapTokens Token.gist q)
        ∨ ∃ e e', parseTokens ts = .error (.error e) ∧ parseTokens us = .error (.error e')
          ∧ e'.kind = e.kind)
      ∧ (runParsed fuel (parseTokens ts)).Like Error.SameKind
        (runParsed fuel (parseTokens us)) := by
  have hus := parseTokens_gist us
  have hrun := runParsed_gist fuel us
  rw [← h] at hus hrun
  refine ⟨?_, (runParsed_gist fuel ts).respelled hrun⟩
  rcases parseTokens_gist ts with ⟨p, hp, hp', -⟩ | ⟨e, e', he, he', hkind⟩
  · rcases hus with ⟨q, hq, hq', -⟩ | ⟨d, d', -, hq', -⟩
    · exact .inl ⟨p, q, hp, hq, Except.ok.inj (hp'.symm.trans hq')⟩
    · exact nomatch hp'.symm.trans hq'
  · rcases hus with ⟨q, -, hq', -⟩ | ⟨d, d', hd, hd', hkind'⟩
    · exact nomatch he'.symm.trans hq'
    · have heq : e' = d' := Halt.error.inj (Except.error.inj (he'.symm.trans hd'))
      exact .inr ⟨e, d, he, hd, by rw [← hkind', ← heq, hkind]⟩

/-- An assignment and a comparison of unequal types, as they are typed on a plain keyboard and as
they are printed. The first token of what is printed has an offset that is too small for its
text. -/
theorem parseTokens_respelled_arrow :
    let typed : List Token :=
      [⟨"x", .identifier, 1⟩, ⟨"<--", .assign, 5⟩, ⟨"1", .number, 7⟩, ⟨"\n", .newline, 8⟩,
      ⟨"x", .identifier, 9⟩, ⟨"<==", .lessEqual, 13⟩, ⟨"\"a\"", .text, 17⟩, Token.endAt 17]
    let printed : List Token :=
      [⟨"x", .identifier, 0⟩, ⟨"←", .assign, 4⟩, ⟨"1", .number, 5⟩, ⟨"", .newline, 5⟩,
      ⟨"x", .identifier, 7⟩, ⟨"≤", .lessEqual, 10⟩, ⟨"\"a\"", .text, 13⟩, Token.endAt 13]
    typed.map Token.gist = printed.map Token.gist
      ∧ (runParsed 0 (parseTokens typed)).Like Error.SameKind
        (runParsed 0 (parseTokens printed)) := by
  intro typed printed
  have hgist : typed.map Token.gist = printed.map Token.gist := rfl
  exact ⟨hgist, (parseTokens_respelled typed printed hgist 0).2⟩

end Pseudocode
