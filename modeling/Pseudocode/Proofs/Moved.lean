import Pseudocode.Proofs.Counterpart
import Pseudocode.Proofs.Provenance

/-!
# A program further on in a source

If something is put in front of a source, all its tokens move by the same number of bytes. A
program made of moved tokens runs as the program did, and where it fails it points at the same
place, moved (`Block.like_moved`).

The start of a token is computed from its end and its text. It moves along only if the token does
not start before the source does, which every token that was read from a source has.

Procedures that were stored earlier do not move. A program whose tokens stay where they are is
alike to itself (`Block.like_self`), whatever its tokens are.
-/

namespace Pseudocode

/-! ## Leaving tokens as they are -/

mutual

/-- Tokens that stay make the same expression. -/
theorem Expr.mapTokens_id : ∀ e : Expr, e.mapTokens id = e
  | .literal _ => rfl
  | .name _ => rfl
  | .unary _ operand => by rw [Expr.mapTokens, operand.mapTokens_id]; rfl
  | .binary left _ right => by rw [Expr.mapTokens, left.mapTokens_id, right.mapTokens_id]; rfl
  | .group inner => by rw [Expr.mapTokens, inner.mapTokens_id]
  | .list _ items _ => by rw [Expr.mapTokens, Expr.mapTokensAll_id items]; rfl
  | .call _ arguments _ => by rw [Expr.mapTokens, Expr.mapTokensAll_id arguments]; rfl

theorem Expr.mapTokensAll_id : ∀ es : List Expr, Expr.mapTokensAll id es = es
  | [] => rfl
  | e :: rest => by rw [Expr.mapTokensAll, e.mapTokens_id, Expr.mapTokensAll_id rest]

end

mutual

theorem Stmt.mapTokens_id : ∀ s : Stmt, s.mapTokens id = s
  | .procedure _ params body => by rw [Stmt.mapTokens, Block.mapTokens_id body, List.map_id]; rfl
  | .assign _ value => by rw [Stmt.mapTokens, value.mapTokens_id]; rfl
  | .ifThen condition thenBlock => by
      rw [Stmt.mapTokens, condition.mapTokens_id, Block.mapTokens_id thenBlock]
  | .ifThenElse condition thenBlock elseBlock => by
      rw [Stmt.mapTokens, condition.mapTokens_id, Block.mapTokens_id thenBlock,
        Block.mapTokens_id elseBlock]
  | .repeatTimes count body => by rw [Stmt.mapTokens, count.mapTokens_id, Block.mapTokens_id body]
  | .repeatUntil condition body => by
      rw [Stmt.mapTokens, condition.mapTokens_id, Block.mapTokens_id body]
  | .forEach _ list body => by rw [Stmt.mapTokens, list.mapTokens_id, Block.mapTokens_id body]; rfl
  | .returns value => by rw [Stmt.mapTokens, value.mapTokens_id]
  | .expression e => by rw [Stmt.mapTokens, e.mapTokens_id]

/-- Tokens that stay make the same program. -/
theorem Block.mapTokens_id : ∀ block : List Stmt, Block.mapTokens id block = block
  | [] => rfl
  | s :: rest => by rw [Block.mapTokens, s.mapTokens_id, Block.mapTokens_id rest]

end

theorem eq_of_mem_zip_self {α : Type} {xs : List α} {x y : α}
    (h : (x, y) ∈ xs.zip xs) : y = x := by
  induction xs with
  | nil => exact absurd h List.not_mem_nil
  | cons z rest ih =>
      rcases List.mem_cons.mp h with h | h
      · injection h with hx hy
        rw [hx, hy]
      · exact ih h

/-- Compared with itself a node raises the same error twice. -/
theorem Expr.RaisesBoth.eq_of_self {x : Expr} {e e' : Error}
    (h : x.RaisesBoth x e e') : e' = e := by
  cases h with
  | literal he he' => exact Except.error.inj (he'.symm.trans he)
  | invalidArgument hmem => rw [eq_of_mem_zip_self hmem]
  | lengthArgument hmem => rw [eq_of_mem_zip_self hmem]
  | _ => rfl

theorem Stmt.RaisesBoth.eq_of_self {s : Stmt} {e e' : Error}
    (h : s.RaisesBoth s e e') : e' = e := by
  cases h <;> rfl

/-- With other tokens of the same kinds and texts, an expression is alike. -/
theorem Expr.alike_mapTokens {T : Tolerance} {f : Token → Token} (hkind : Grammar.KeepsKind f)
    (htext : ∀ t, (f t).text = t.text) (x : Expr)
    (hvalues : ∀ t v, x = .literal t → literalValue t = .ok v → T.values v) :
    x.Alike T (x.mapTokens f) := by
  cases x with
  | literal token => exact ⟨⟨hkind token, htext token⟩, fun v hv => hvalues token v rfl hv⟩
  | name token => exact htext token
  | unary operator operand => exact hkind operator
  | binary left operator right => exact hkind operator
  | group inner => exact trivial
  | list opening items closing => exact trivial
  | call callee arguments closing => exact htext callee

/-- The procedure is declared somewhere in the program. -/
def Procedure.DeclaredIn (p : Procedure) (block : Block) : Prop :=
  .procedure p.name p.params p.body ∈ Block.parts block

/-- A program is alike to itself, if its errors, its literals and its procedures are as wanted. -/
theorem Block.like_self {T : Tolerance} {block : Block}
    (herrors : ∀ e, Block.Raises block (.error e) → T.errors e e)
    (hprocedures : ∀ p : Procedure, p.DeclaredIn block → T.procedures p p)
    (hliterals : ∀ t v, Expr.literal t ∈ Block.expressions block →
      literalValue t = .ok v → T.values v) :
    Block.Like T block block := by
  have hlike : Block.Like T block (Block.mapTokens id block) := by
    refine Block.like_mapTokens block fun s hs => ⟨⟨?_, ?_⟩, fun e he x hx => ⟨?_, ?_⟩⟩
    · rw [s.mapTokens_id]
      cases s with
      | procedure name params body => exact ⟨⟨rfl, rfl⟩, hprocedures _ hs⟩
      | _ => first | exact rfl | exact trivial
    · intro e e' hboth
      rw [s.mapTokens_id] at hboth
      rw [hboth.eq_of_self]
      exact herrors e (.statement hs hboth.raises)
    · have hmem : x ∈ Block.expressions block :=
        List.mem_flatMap.mpr ⟨s, hs, List.mem_flatMap.mpr ⟨e, he, hx⟩⟩
      exact x.alike_mapTokens (fun _ => rfl) (fun _ => rfl)
        fun t v ht hv => hliterals t v (ht ▸ hmem) hv
    · intro e₁ e₂ hboth
      have hmem : x ∈ Block.expressions block :=
        List.mem_flatMap.mpr ⟨s, hs, List.mem_flatMap.mpr ⟨e, he, hx⟩⟩
      rw [x.mapTokens_id] at hboth
      rw [hboth.eq_of_self]
      exact herrors e₁ (.expression hmem hboth.raises)
  rwa [Block.mapTokens_id] at hlike

/-! ## Moving -/

/-- The span `n` bytes further on. -/
def Span.moved (n : Nat) (s : Span) : Span := ⟨n + s.start, n + s.stop⟩

/-- The token `n` bytes further on. -/
def Token.moved (n : Nat) (t : Token) : Token := { t with stop := n + t.stop }

/-- The fault further on. Only that of a sign holds a token. -/
def TypeFault.moved (n : Nat) : TypeFault → TypeFault
  | .unaryOperand operator found => .unaryOperand (operator.moved n) found
  | fault => fault

/-- The error `n` bytes further on. Nothing else about it changes. -/
def Error.moved (n : Nat) : Error → Error
  | .unrecognizedCharacter found span => .unrecognizedCharacter found (span.moved n)
  | .unterminatedString span => .unterminatedString (span.moved n)
  | .unexpectedToken expected found => .unexpectedToken expected (found.moved n)
  | .expectedExpression found => .expectedExpression (found.moved n)
  | .invalidStatement found => .invalidStatement (found.moved n)
  | .unterminatedBlock found => .unterminatedBlock (found.moved n)
  | .nestingTooDeep span => .nestingTooDeep (span.moved n)
  | .arityMismatch name expected found span => .arityMismatch name expected found (span.moved n)
  | .typeMismatch operator left right span =>
      .typeMismatch (operator.moved n) left right (span.moved n)
  | .unsupportedOperator operator operand span =>
      .unsupportedOperator (operator.moved n) operand (span.moved n)
  | .undefinedName name => .undefinedName (name.moved n)
  | .typeError fault span => .typeError (fault.moved n) (span.moved n)
  | .notCallable name => .notCallable (name.moved n)
  | .procedureAsValue name => .procedureAsValue (name.moved n)
  | .invalidArgument fault span => .invalidArgument fault (span.moved n)
  | .recursionLimit span => .recursionLimit (span.moved n)

theorem Token.keepsKind_moved (n : Nat) : Grammar.KeepsKind (Token.moved n) := fun _ => rfl

/-- Spans may be merged before or after they are moved. -/
theorem Span.merge_moved (n : Nat) (a b : Span) :
    (a.moved n).merge (b.moved n) = (a.merge b).moved n := by
  simp only [Span.merge, Span.moved, Nat.add_min_add_left, Nat.add_max_add_left]

/-- The token does not start before the source does. -/
def Token.Placed (t : Token) : Prop := t.text.utf8ByteSize ≤ t.stop

theorem Token.Placed.start_le {t : Token} (h : t.Placed) : t.start ≤ t.stop := by
  rw [Token.start_of_le h]
  exact Nat.sub_le _ _

/-- The span of a token moves with it. -/
theorem Token.Placed.span_moved {t : Token} (h : t.Placed) (n : Nat) :
    (t.moved n).span = t.span.moved n := by
  have hstart : (t.moved n).start = n + t.start := by
    rw [Token.start_of_le h, Token.start_of_le (Nat.le_add_left_of_le h)]
    exact Nat.add_sub_assoc h n
  rw [Token.span, hstart]
  rfl

/-- A token that lies in a text does not start before it. -/
theorem Lexer.Lies.placed {cs : List Char} {t : Token} {offset : Nat}
    (h : Lexer.Lies offset cs t) : t.Placed := by
  obtain ⟨before, text, after, -, -, htext, hstop⟩ := h
  unfold Token.Placed
  rw [htext, hstop, Text.utf8ByteSize_ofList, Text.byteLength_append]
  omega

/-- The span of an expression moves with its tokens, by induction on the expression. -/
theorem Expr.span_moved (n : Nat) : ∀ e : Expr, (∀ x ∈ e.parts, x.NodeOf Token.Placed) →
    (e.mapTokens (Token.moved n)).span = e.span.moved n
  | .literal token, h => (h _ (Expr.mem_parts_self _)).1.span_moved n
  | .name token, h => (h _ (Expr.mem_parts_self _)).span_moved n
  | .unary operator operand, h => by
      rw [Expr.parts, List.forall_mem_cons] at h
      rw [Expr.mapTokens, Expr.span, Expr.span, h.1.span_moved n, operand.span_moved n h.2,
        Span.merge_moved]
  | .binary left operator right, h => by
      rw [Expr.parts, List.forall_mem_cons, List.forall_mem_append] at h
      rw [Expr.mapTokens, Expr.span, Expr.span, left.span_moved n h.2.1, right.span_moved n h.2.2,
        Span.merge_moved]
  | .group inner, h => by
      rw [Expr.parts, List.forall_mem_cons] at h
      exact inner.span_moved n h.2
  | .list opening items closing, h => by
      have hself := h _ (Expr.mem_parts_self _)
      rw [Expr.mapTokens, Expr.span, Expr.span, hself.1.span_moved n, hself.2.span_moved n,
        Span.merge_moved]
  | .call callee arguments closing, h => by
      have hself := h _ (Expr.mem_parts_self _)
      rw [Expr.mapTokens, Expr.span, Expr.span, hself.1.span_moved n, hself.2.span_moved n,
        Span.merge_moved]

/-- A literal without a value has none further on. -/
theorem literalValue_moved {token : Token} {e e' : Error} {n : Nat} (h : token.Placed)
    (he : literalValue token = .error e) (he' : literalValue (token.moved n) = .error e') :
    e' = e.moved n := by
  unfold literalValue at he he'
  have hkind : (token.moved n).kind = token.kind := rfl
  have htext : (token.moved n).text = token.text := rfl
  rw [hkind, htext] at he'
  cases hk : token.kind with
  | number =>
      rw [hk] at he he'
      cases hread : Number.read? token.text with
      | none =>
          rw [hread] at he he'
          rw [← Except.error.inj he, ← Except.error.inj he', h.span_moved n]
          rfl
      | some x => rw [hread] at he; exact nomatch he
  | text => rw [hk] at he; exact nomatch he
  | truth => rw [hk] at he; exact nomatch he
  | _ =>
      rw [hk] at he he'
      rw [← Except.error.inj he, ← Except.error.inj he']
      rfl

theorem eq_of_mem_zip_mapTokens {f : Token → Token} {es : List Expr} {x y : Expr}
    (h : (x, y) ∈ es.zip (Expr.mapTokensAll f es)) : x ∈ es ∧ y = x.mapTokens f := by
  induction es with
  | nil => exact absurd h List.not_mem_nil
  | cons e rest ih =>
      rcases List.mem_cons.mp h with h | h
      · injection h with hx hy
        subst hx hy
        exact ⟨List.mem_cons_self, rfl⟩
      · exact (ih h).imp_left (List.mem_cons_of_mem e)

/-- A node and the same node further on raise the same error, further on. -/
theorem Expr.RaisesBoth.moved {x : Expr} {n : Nat} {e e' : Error}
    (h : x.RaisesBoth (x.mapTokens (Token.moved n)) e e')
    (hplaced : ∀ y ∈ x.parts, y.NodeOf Token.Placed) : e' = e.moved n := by
  have hspan := x.span_moved n hplaced
  have hself := hplaced x x.mem_parts_self
  -- an argument of a call is a part of it
  have hargument : ∀ {callee closing : Token} {arguments : List Expr} {argument : Expr},
      x = .call callee arguments closing → argument ∈ arguments →
      (argument.mapTokens (Token.moved n)).span = argument.span.moved n := by
    rintro callee closing arguments argument rfl hmem
    refine argument.span_moved n fun y hy => hplaced y ?_
    exact List.mem_cons_of_mem _ (Expr.mem_partsAll.mpr ⟨argument, hmem, hy⟩)
  generalize hx : x.mapTokens (Token.moved n) = x' at h hspan
  cases h with
  | literal he he' =>
      injection hx with hx
      rw [← hx] at he'
      exact literalValue_moved hself.1 he he'
  | undefinedName => injection hx with hx; rw [← hx]; rfl
  | procedureAsValue => injection hx with hx; rw [← hx]; rfl
  | unaryOperand => injection hx with ho _; rw [hspan, ← ho]; rfl
  | typeMismatch => injection hx with _ ho _; rw [hspan, ← ho]; rfl
  | unsupportedOperator => injection hx with _ ho _; rw [hspan, ← ho]; rfl
  | undefinedCallee => injection hx with hc _ _; rw [← hc]; rfl
  | notCallable => injection hx with hc _ _; rw [← hc]; rfl
  | arityMismatch => rw [hspan]; rfl
  | recursionLimit => rw [hspan]; rfl
  | invalidArgument hmem =>
      injection hx with _ ha _
      rw [← ha] at hmem
      obtain ⟨hsource, rfl⟩ := eq_of_mem_zip_mapTokens hmem
      rw [hargument rfl hsource]
      rfl
  | lengthArgument hmem =>
      injection hx with _ ha _
      rw [← ha] at hmem
      obtain ⟨hsource, rfl⟩ := eq_of_mem_zip_mapTokens hmem
      rw [hargument rfl hsource]
      rfl

/-- The same for statements. -/
theorem Stmt.RaisesBoth.moved {s : Stmt} {n : Nat} {e e' : Error}
    (h : s.RaisesBoth (s.mapTokens (Token.moved n)) e e')
    (hplaced : ∀ x ∈ s.operands, ∀ y ∈ x.parts, y.NodeOf Token.Placed) : e' = e.moved n := by
  have hoperand : ∀ x ∈ s.operands, (x.mapTokens (Token.moved n)).span = x.span.moved n :=
    fun x hx => x.span_moved n (hplaced x hx)
  generalize hs : s.mapTokens (Token.moved n) = s' at h
  cases h with
  | ifThen => injection hs with hc _; rw [← hc, hoperand _ List.mem_cons_self]; rfl
  | ifThenElse => injection hs with hc _ _; rw [← hc, hoperand _ List.mem_cons_self]; rfl
  | repeatCount => injection hs with hc _; rw [← hc, hoperand _ List.mem_cons_self]; rfl
  | untilCondition => injection hs with hc _; rw [← hc, hoperand _ List.mem_cons_self]; rfl
  | forEachList => injection hs with _ hl _; rw [← hl, hoperand _ List.mem_cons_self]; rfl

/-- A program that was read from a source is alike to itself further on. -/
theorem Block.like_moved {T : Tolerance} {n : Nat} {block : Block}
    (hplaced : Stmt.NodesOf Token.Placed (Block.parts block))
    (herrors : ∀ e, Block.Raises block (.error e) → T.errors e (e.moved n))
    (hprocedures : ∀ p : Procedure, p.DeclaredIn block →
      T.procedures p (p.mapTokens (Token.moved n)))
    (hvalues : ∀ v, T.values v) :
    Block.Like T block (Block.mapTokens (Token.moved n) block) := by
  refine Block.like_mapTokens block fun s hs => ⟨⟨?_, ?_⟩, fun e he x hx => ⟨?_, ?_⟩⟩
  · cases s with
    | procedure name params body =>
        refine ⟨⟨rfl, ?_⟩, hprocedures ⟨name, params, body⟩ hs⟩
        rw [List.map_map]
        rfl
    | _ => first | exact rfl | exact trivial
  · intro e e' hboth
    rw [hboth.moved (hplaced s hs)]
    exact herrors e (.statement hs hboth.raises)
  · exact x.alike_mapTokens (Token.keepsKind_moved n) (fun _ => rfl) fun _ v _ _ => hvalues v
  · intro e₁ e₂ hboth
    rw [hboth.moved fun y hy => hplaced s hs e he y (e.parts_subset hx hy)]
    exact herrors e₁
      (.expression (List.mem_flatMap.mpr ⟨s, hs, List.mem_flatMap.mpr ⟨e, he, hx⟩⟩) hboth.raises)

end Pseudocode
