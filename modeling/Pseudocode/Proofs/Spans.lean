import Pseudocode.Proofs.Provenance

/-!
# Errors point into the source

Offsets count bytes, and an offset inside a character points nowhere. The span of every error of
every run is a range of the source between two boundaries of characters. It is never empty, except
where the source ended too early.

A token that was cut from the source covers some of its characters (`Lexer.Lies.covers`). Spans of
expressions are merged from those of their tokens, and merging keeps to boundaries
(`Span.Covers.merge`). So do the spans in errors: each is that of a token, of an expression, or of
what the lexer stuck at.
-/

namespace Pseudocode

open Text (byteLength byteLength_append byteLength_cons byteLength_pos)

/-- From one boundary of characters of the source to a later one. -/
structure Span.Covers (source : String) (span : Span) : Prop where
  start : String.Pos.Raw.IsValid source ⟨span.start⟩
  stop : String.Pos.Raw.IsValid source ⟨span.stop⟩
  lt : span.start < span.stop

/-- Merging keeps to boundaries. -/
theorem Span.Covers.merge {source : String} {a b : Span} (ha : a.Covers source)
    (hb : b.Covers source) :
    (a.merge b).Covers source := by
  obtain ⟨ha₁, ha₂, ha⟩ := ha
  obtain ⟨hb₁, hb₂, hb⟩ := hb
  refine ⟨?_, ?_, ?_⟩
  · rcases Nat.le_total a.start b.start with h | h
    · simpa only [Span.merge, Nat.min_eq_left h] using ha₁
    · simpa only [Span.merge, Nat.min_eq_right h] using hb₁
  · rcases Nat.le_total a.stop b.stop with h | h
    · simpa only [Span.merge, Nat.max_eq_right h] using hb₂
    · simpa only [Span.merge, Nat.max_eq_left h] using ha₂
  · simp only [Span.merge]
    omega

/-! ## Boundaries -/

/-- A character boundary lies behind every part that the source starts with. -/
theorem isValid_byteLength {source : String} {before after : List Char}
    (h : source.toList = before ++ after) :
    String.Pos.Raw.IsValid source ⟨byteLength before⟩ := by
  refine String.Pos.Raw.isValid_iff_exists_append.mpr
    ⟨String.ofList before, String.ofList after, ?_, ?_⟩
  · rw [← String.ofList_append, ← h, String.ofList_toList]
  · rw [String.rawEndPos, Text.utf8ByteSize_ofList]

theorem covers_piece {source : String} (before text after : List Char)
    (h : source.toList = before ++ (text ++ after)) (htext : text ≠ []) :
    Span.Covers source ⟨byteLength before, byteLength before + byteLength text⟩ where
  start := isValid_byteLength h
  stop := by
    rw [← List.append_assoc] at h
    rw [← byteLength_append]
    exact isValid_byteLength h
  lt := Nat.lt_add_of_pos_right (byteLength_pos htext)

/-- A token that lies in the source covers some of its characters. -/
theorem Lexer.Lies.covers {source : String} {t : Token} (h : Lexer.Lies 0 source.toList t) :
    t.span.Covers source := by
  obtain ⟨before, text, after, hsource, hspelled, htext, hstop⟩ := h
  rw [Nat.zero_add, byteLength_append] at hstop
  have hspan : t.span = ⟨byteLength before, byteLength before + byteLength text⟩ := by
    have hsize : t.text.utf8ByteSize = byteLength text := by rw [htext, Text.utf8ByteSize_ofList]
    rw [Token.span, Token.start_of_le (by omega), hstop, hsize, Nat.add_sub_cancel]
  rw [hspan]
  exact covers_piece before text after hsource hspelled.ne_nil

/-- So does what the lexer stuck at. -/
theorem Lexer.Stuck.covers {source : String} {before rest : List Char} {c : Char} {e : Error}
    (hsource : source.toList = before ++ c :: rest)
    (h : Lexer.Stuck (byteLength before) c rest e) :
    e.span.Covers source := by
  cases h with
  | unrecognized => exact covers_piece before [c] rest hsource (List.cons_ne_nil _ _)
  | unterminated _ _ =>
      exact covers_piece before (c :: rest) [] (by rw [List.append_nil, hsource])
        (List.cons_ne_nil _ _)

/-! ## Expressions -/

variable {source : String}

/-- The span of an expression is merged from spans of its tokens. -/
theorem Expr.covers_span : ∀ (e : Expr), (∀ x ∈ e.parts, x.NodeOf (Lexer.Lies 0 source.toList)) →
    e.span.Covers source
  | .literal token, h => (h _ (Expr.mem_parts_self _)).1.covers
  | .name token, h => (h _ (Expr.mem_parts_self _)).covers
  | .unary operator operand, h => by
      rw [Expr.parts, List.forall_mem_cons] at h
      exact h.1.covers.merge (operand.covers_span h.2)
  | .binary left operator right, h => by
      rw [Expr.parts, List.forall_mem_cons, List.forall_mem_append] at h
      exact (left.covers_span h.2.1).merge (right.covers_span h.2.2)
  | .group inner, h => by
      rw [Expr.parts, List.forall_mem_cons] at h
      exact inner.covers_span h.2
  | .list opening items closing, h =>
      (h _ (Expr.mem_parts_self _)).1.covers.merge (h _ (Expr.mem_parts_self _)).2.covers
  | .call callee arguments closing, h =>
      (h _ (Expr.mem_parts_self _)).1.covers.merge (h _ (Expr.mem_parts_self _)).2.covers

theorem span_of_literalValue {token : Token} {e : Error} (h : literalValue token = .error e) :
    e.span = token.span := by
  unfold literalValue at h
  split at h
  · split at h
    · exact absurd h (by simp)
    · injection h with h
      rw [← h]
      rfl
  · exact absurd h (by simp)
  · exact absurd h (by simp)
  · injection h with h
    rw [← h]
    rfl

/-- The error of an expression is about a part of it. -/
theorem Expr.Raises.covers {x : Expr} {e : Error} (hraises : x.Raises e)
    (h : ∀ y ∈ x.parts, y.NodeOf (Lexer.Lies 0 source.toList)) : e.span.Covers source := by
  -- two builtins complain about an argument, whose tokens lie inside the call
  have hargument : ∀ {callee closing : Token} {arguments : List Expr} {argument : Expr},
      x = .call callee arguments closing → argument ∈ arguments → argument.span.Covers source := by
    rintro callee closing arguments argument rfl hmem
    refine argument.covers_span fun y hy => h y ?_
    exact List.mem_cons_of_mem _ (Expr.mem_partsAll.mpr ⟨argument, hmem, hy⟩)
  have hself := h x x.mem_parts_self
  cases hraises with
  | literal hvalue =>
      rw [span_of_literalValue hvalue]
      exact hself.1.covers
  | undefinedName => exact hself.covers
  | procedureAsValue => exact hself.covers
  | unaryOperand => exact Expr.covers_span _ h
  | typeMismatch => exact Expr.covers_span _ h
  | unsupportedOperator => exact Expr.covers_span _ h
  | undefinedCallee => exact hself.1.covers
  | notCallable => exact hself.1.covers
  | arityMismatch => exact Expr.covers_span _ h
  | recursionLimit => exact Expr.covers_span _ h
  | invalidArgument hmem => exact hargument rfl hmem
  | lengthArgument hmem => exact hargument rfl hmem

/-- The error of a statement is about its operand. -/
theorem Stmt.Raises.covers {s : Stmt} {e : Error} (hraises : s.Raises (.error e))
    (h : ∀ operand ∈ s.operands, operand.span.Covers source) : e.span.Covers source := by
  cases hraises <;> exact h _ List.mem_cons_self

/-- **What a program raises points into its source.** -/
theorem Block.Raises.covers {program : Block} {e : Error}
    (h : Stmt.NodesOf (Lexer.Lies 0 source.toList) (Block.parts program))
    (hraises : Block.Raises program (.error e)) :
    e.span.Covers source := by
  cases hraises with
  | expression hx hraises =>
      obtain ⟨s, hs, hx⟩ := List.mem_flatMap.mp hx
      obtain ⟨operand, hoperand, hx⟩ := List.mem_flatMap.mp hx
      exact hraises.covers fun y hy => h s hs operand hoperand y (operand.parts_subset hx hy)
  | statement hs hraises =>
      exact hraises.covers fun operand hoperand => operand.covers_span (h _ hs operand hoperand)

/-! ## Runs -/

/-- A source that is no program has its error at some of its characters, or at its end. -/
theorem Fails.covers {e : Error} (h : Fails source e) :
    e.span.Covers source ∨ e.span = ⟨source.utf8ByteSize, source.utf8ByteSize⟩ := by
  cases h with
  | stuck hsource hstuck => exact .inl (hstuck.covers hsource)
  | refused htoken hrefuses =>
      rw [hrefuses.span]
      rcases htoken with rfl | hlies
      · exact .inr rfl
      · exact .inl hlies.covers

/-- **Every error has a range in the source.** However a run fails, unless it would go on for ever,
its error carries a span within the source whose ends are boundaries of characters, and an empty
span only at the end of the source. -/
theorem run_error_span {fuel : Nat} {source : String} {halt : Halt}
    (h : (run fuel source).result = .error halt) :
    halt = .outOfFuel ∨ ∃ e, halt = .error e ∧ e.span.start ≤ e.span.stop ∧
      e.span.stop ≤ source.utf8ByteSize
      ∧ String.Pos.Raw.IsValid source ⟨e.span.start⟩ ∧ String.Pos.Raw.IsValid source ⟨e.span.stop⟩
      ∧ (e.span.start = e.span.stop → e.span.start = source.utf8ByteSize) := by
  have hcovers : halt = .outOfFuel ∨ ∃ e, halt = .error e
      ∧ (e.span.Covers source ∨ e.span = ⟨source.utf8ByteSize, source.utf8ByteSize⟩) := by
    rcases run_fails h with ⟨-, e, rfl, hfails⟩ | ⟨program, hparse, hraises⟩
    · exact .inr ⟨e, rfl, hfails.covers⟩
    · rcases hraises.error_or_endless with ⟨e, rfl⟩ | ⟨hfuel, -⟩
      · exact .inr ⟨e, rfl, .inl (Block.Raises.covers (nodes_of_parseSource hparse) hraises)⟩
      · exact .inl hfuel
  refine hcovers.imp_right fun ⟨e, hhalt, hspan⟩ => ⟨e, hhalt, ?_⟩
  rcases hspan with ⟨hstart, hstop, hlt⟩ | hend
  · exact ⟨Nat.le_of_lt hlt, hstop.le_utf8ByteSize, hstart, hstop,
      fun heq => absurd heq (Nat.ne_of_lt hlt)⟩
  · have hvalid : String.Pos.Raw.IsValid source ⟨source.utf8ByteSize⟩ :=
      String.Pos.Raw.isValid_rawEndPos
    rw [hend]
    exact ⟨Nat.le_refl _, Nat.le_refl _, hvalid, hvalid, fun _ => rfl⟩

/-- A source with characters of one, two and three bytes, cut lexeme by lexeme. -/
theorem lex_negated_text :
    lex "x←-\"é\"" =
      .ok ([⟨"x", .identifier, 1⟩, ⟨"←", .assign, 4⟩, ⟨"-", .subtract, 5⟩, ⟨"\"é\"", .text, 9⟩,
        ⟨"", .newline, 9⟩] ++ [Token.endAt 9]) := by
  have hcut :=
    calc Lexer.lexFrom #[] 0 ['x', '←', '-', '"', 'é', '"']
      _ = Lexer.lexFrom #[⟨"x", .identifier, 1⟩] 1 ['←', '-', '"', 'é', '"'] := by
          rw [Lexer.lexFrom.eq_2]; rfl
      _ = Lexer.lexFrom #[⟨"x", .identifier, 1⟩, ⟨"←", .assign, 4⟩] 4 ['-', '"', 'é', '"'] := by
          rw [Lexer.lexFrom.eq_2]; rfl
      _ = Lexer.lexFrom #[⟨"x", .identifier, 1⟩, ⟨"←", .assign, 4⟩, ⟨"-", .subtract, 5⟩] 5
            ['"', 'é', '"'] := by
          rw [Lexer.lexFrom.eq_2]; rfl
      _ = Lexer.lexFrom #[⟨"x", .identifier, 1⟩, ⟨"←", .assign, 4⟩, ⟨"-", .subtract, 5⟩,
            ⟨"\"é\"", .text, 9⟩] 9 [] := by
          rw [Lexer.lexFrom.eq_2]; rfl
  have hchars : "x←-\"é\"".toList = ['x', '←', '-', '"', 'é', '"'] := rfl
  rw [lex, hchars, hcut, Lexer.lexFrom]
  rfl

/-- It is the assignment of a negated text. -/
theorem parseSource_negated_text : parseSource "x←-\"é\"" = .ok [.assign ⟨"x", .identifier, 1⟩
    (.unary ⟨"-", .subtract, 5⟩ (.literal ⟨"\"é\"", .text, 9⟩))] := by
  rw [parseSource, lexSource, lex_negated_text]
  refine (parseTokens_eq_read _ rfl).trans ?_
  simp [significant, Kind.isInsignificant, Reading.statements, Reading.statement,
    Reading.expression, Reading.nested, Reading.operand, Reading.continuation, Reading.peek,
    nestingLimit, Kind.isBinaryOperator, Token.endAt, Except.map, bind, pure,
    Except.bind, Except.pure]

/-- Negating a text is an error, from the minus to the closing quote. -/
theorem run_error_span_negated_text :
    (run 0 "x←-\"é\"").result = .error
      (.error (.typeError (.unaryOperand ⟨"-", .subtract, 5⟩ .text) ⟨4, 9⟩))
      ∧ String.Pos.Raw.IsValid "x←-\"é\"" ⟨4⟩ ∧ String.Pos.Raw.IsValid "x←-\"é\"" ⟨9⟩ := by
  have hrun : (run 0 "x←-\"é\"").result
      = .error (.error (.typeError (.unaryOperand ⟨"-", .subtract, 5⟩ .text) ⟨4, 9⟩)) := by
    rw [run, parseSource_negated_text]
    rfl
  rcases run_error_span hrun with hfuel | ⟨e, he, -, -, hstart, hstop, -⟩
  · exact absurd hfuel (by simp)
  · injection he with he
    rw [← he] at hstart hstop
    exact ⟨hrun, hstart, hstop⟩

end Pseudocode
