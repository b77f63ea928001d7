import Pseudocode.Proofs.Coverage
import Pseudocode.Proofs.Moved
import Pseudocode.Proofs.Scanner
import Pseudocode.Proofs.Stream
import Pseudocode.Proofs.TokensAtWork

/-!
# Nothing is done out of turn

Some operations have no answer in some states, and rely on their callers not to be used there. The
scanner reads its table by an index. The span of a token starts as many bytes before its end as it
has, which have to be there. A token stream can be taken back one token only behind the first. A
token is read from an array by an index. And a builtin looks at its first argument.

Each of them is safe by something that is settled elsewhere: the scanner does what the lexer does
and that comes to an end, tokens are pieces of the source, the parser takes back only what it has
read, a stream ends with the end of input, and the number of arguments is checked against the arity
before any of them is evaluated. Together they say that no source can lead to such a state, whether
it is cut into tokens, read, or run (`run_safe`).
-/

namespace Pseudocode

open EvalM

/-! ## Tokens -/

theorem Lexer.Piece.placed {offset : Nat} {cs : List Char} {t : Token}
    (h : Lexer.Piece offset cs t) : t.Placed := by
  obtain ⟨before, text, after, -, htext, hstop⟩ := h
  unfold Token.Placed
  rw [htext, hstop, Text.utf8ByteSize_ofList, Text.byteLength_append]
  omega

/-- Every token of a source has room for its text in front of its end. -/
theorem placed_of_lex {source : String} {tokens : List Token} (h : lex source = .ok tokens) :
    ∀ t ∈ tokens, t.Placed :=
  fun t ht => ((cuts_of_lex h).pieces t ht).placed

/-! ## Token streams -/

namespace TokenStream

/-- A step forwards was made before the step back that a jump ends with. -/
theorem cursor_nextSignificant (s : TokenStream) : s.cursor < s.nextSignificant.2.cursor := by
  fun_induction nextSignificant s with
  | case1 s _ ih => exact Nat.lt_of_succ_lt ih
  | case2 s _ => exact Nat.lt_succ_self _

end TokenStream

/-! ## Builtins -/

/-- What comes after a step that succeeds is done on the machine that the step has left. -/
theorem EvalM.bind_eq_ok {α β : Type} {step : EvalM α} {next : α → EvalM β} {m m'' : Machine}
    {b : β} (h : (step >>= next : EvalM β) m = .ok b m'') :
    ∃ a m', step m = .ok a m' ∧ next a m' = .ok b m'' := by
  cases hstep : step m with
  | ok a m' =>
      rw [bind_of_ok hstep] at h
      exact ⟨a, m', rfl, h⟩
  | error halt m' =>
      rw [bind_of_error hstep] at h
      exact nomatch h

/-- There are as many values as expressions. -/
theorem length_evaluateAll {c : Context} {scope : ScopeId} {es : List Expr} {values : List Value}
    {m m' : Machine} (h : evaluateAll c scope es m = .ok values m') :
    values.length = es.length := by
  induction es generalizing m values with
  | nil =>
      rw [evaluateAll] at h
      cases h
      rfl
  | cons e rest ih =>
      rw [evaluateAll] at h
      obtain ⟨value, _, -, hmore⟩ := bind_eq_ok h
      obtain ⟨values', _, hvalues, hpure⟩ := bind_eq_ok hmore
      cases hpure
      exact congrArg (· + 1) (ih hvalues)

/-- At this moment a builtin is called with these arguments. The name that is called stands for it,
and the number of arguments has been checked and their values are there. -/
def Moment.Calls (fuel : Nat) (w : Moment) (b : Builtin) (arguments : List Argument) : Prop :=
  ∃ callee es closing scope values m', w.task = .expression (.call callee es closing) scope
    ∧ w.machine.scopes.lookup scope callee = .ok (.builtin b)
    ∧ (do checkArity b.name b.arity es.length (Expr.call callee es closing).span
          evaluateAll (.within fuel w.bodies) scope es : EvalM (List Value)) w.machine =
        .ok values m'
    ∧ arguments = List.zipWith Argument.mk values (es.map Expr.span)

/-- A builtin is called with as many arguments as it takes, so that it has a first one. -/
theorem Moment.Calls.arity {fuel : Nat} {w : Moment} {b : Builtin} {arguments : List Argument}
    (h : w.Calls fuel b arguments) : arguments.length = b.arity ∧ arguments ≠ [] := by
  obtain ⟨callee, es, closing, scope, values, m', -, -, hsteps, rfl⟩ := h
  obtain ⟨_, m, hcheck, hvalues⟩ := bind_eq_ok hsteps
  obtain ⟨harity, rfl⟩ := checkArity_eq_ok.mp hcheck
  have hlength := length_evaluateAll hvalues
  refine ⟨?_, arguments_ne_nil hlength harity⟩
  rw [List.length_zipWith, List.length_map, hlength, Nat.min_self, harity]

/-! ## Sources -/

/-- **No run of a source ends in a fault.** -/
theorem run_ne_fault (fuel : Nat) (source : String) (fault : Fault) :
    (run fuel source).result ≠ .error (.fault fault) := by
  intro h
  rcases run_fails h with ⟨-, e, he, -⟩ | ⟨program, -, hraises⟩
  · exact nomatch he
  · rcases hraises.error_or_endless with ⟨e, he⟩ | ⟨he, -⟩
    · exact nomatch he
    · exact nomatch he

/-- **No source leads to a step that cannot be made.**

The scanner, which comes to what the lexer gives, never asks for an entry that its table does not
have. Every token that the lexer gives has room for its text in front of its end. Wherever the
cursor of the stream of these tokens is, the index that it stands for is one of a token, and behind
every significant token the stream can be taken back. The parser takes the stream back at its
beginning for no source. When a program was read and is run, all tokens of the expressions that are
evaluated at any moment have room for their texts, and every builtin that is called gets as many
arguments as it takes, of which there is a first. So the run never ends with a step out of turn. -/
theorem run_safe (fuel : Nat) (source : String) :
    (∀ s, Lexer.Scanner.Reaches source .initial s → s.Running source → s.step source ≠ .outOfRange)
      ∧ (∀ result, Lexer.Scanner.Scans source .initial result ↔
        Lexer.lexFrom #[] 0 source.toList = result)
      ∧ (∀ tokens, lex source = .ok tokens →
        (∀ t ∈ (TokenStream.ofTokens tokens).tokens, t.text.utf8ByteSize ≤ t.stop)
          ∧ 0 < (TokenStream.ofTokens tokens).tokens.size
          ∧ ∀ cursor, min cursor ((TokenStream.ofTokens tokens).tokens.size - 1) <
          (TokenStream.ofTokens tokens).tokens.size)
      ∧ (∀ s : TokenStream, s.nextSignificant.2.back?.isSome = true)
      ∧ (∀ fault, parseSource source ≠ .error (.fault fault))
      ∧ (∀ program, parseSource source = .ok program →
          ∀ w, Reaches fuel ⟨0, .block program Machine.global, Machine.fresh⟩ w →
            w.task.MadeOf (fun t => t.text.utf8ByteSize ≤ t.stop)
              ∧ ∀ b arguments, w.Calls fuel b arguments → arguments.length = b.arity
              ∧ arguments ≠ [])
      ∧ ∀ fault, (run fuel source).result ≠ .error (.fault fault) := by
  refine ⟨?_, fun result => Lexer.Scanner.scans_iff_lexFrom, ?_, ?_, ?_, ?_,
    run_ne_fault fuel source⟩
  · intro s hreaches hrunning
    exact (Lexer.Scanner.scans_iff_lexFrom.mpr rfl).step_ne_outOfRange hreaches hrunning
  · intro tokens hlex
    have hsize := (TokenStream.ofTokens tokens).size_pos
    refine ⟨fun t ht => placed_of_lex hlex t ?_, hsize, fun cursor => by omega⟩
    -- the lexer gives an end of input, so that the stream adds none
    obtain ⟨body, rfl, -⟩ := lies_of_lex hlex
    have htokens : (TokenStream.ofTokens (body ++ [Token.endAt source.utf8ByteSize])).tokens = _ :=
      TokenStream.close_of_closed body rfl
    rw [htokens] at ht
    exact List.mem_toArray.mp ht
  · intro s
    have hcursor := s.cursor_nextSignificant
    unfold TokenStream.back?
    rw [if_neg (by omega)]
    rfl
  · intro fault hparse
    obtain ⟨e, he, -⟩ := parseSource_fails hparse
    exact nomatch he
  · intro program hparse w hreaches
    obtain ⟨body, -, hlies, hstatements, -⟩ := statements_of_parseSource hparse
    have hprogram : Block.MadeOf Token.Placed program :=
      hstatements.nodes fun t ht => (hlies t ht).placed
    have hw := hreaches.madeOf ⟨hprogram, Machine.madeOf_fresh⟩
    exact ⟨hw.task, fun b arguments hcalls => hcalls.arity⟩

/-- The only expression of the source `LENGTH("é")`. -/
def lengthOfText : Expr :=
  .call ⟨"LENGTH", .identifier, 6⟩ [.literal ⟨"\"é\"", .text, 11⟩] ⟨")", .closeParen, 12⟩

/-- Its tokens, the text with a character of two bytes. -/
theorem lex_length_of_text :
    lex "LENGTH(\"é\")" =
      .ok ([⟨"LENGTH", .identifier, 6⟩, ⟨"(", .openParen, 7⟩, ⟨"\"é\"", .text, 11⟩,
        ⟨")", .closeParen, 12⟩, ⟨"", .newline, 12⟩] ++ [Token.endAt 12]) := by
  have hcut :=
    calc Lexer.lexFrom #[] 0 ['L', 'E', 'N', 'G', 'T', 'H', '(', '"', 'é', '"', ')']
      _ = Lexer.lexFrom #[⟨"LENGTH", .identifier, 6⟩] 6 ['(', '"', 'é', '"', ')'] := by
          rw [Lexer.lexFrom.eq_2]; rfl
      _ = Lexer.lexFrom #[⟨"LENGTH", .identifier, 6⟩, ⟨"(", .openParen, 7⟩] 7
            ['"', 'é', '"', ')'] := by
          rw [Lexer.lexFrom.eq_2]; rfl
      _ = Lexer.lexFrom #[⟨"LENGTH", .identifier, 6⟩, ⟨"(", .openParen, 7⟩,
            ⟨"\"é\"", .text, 11⟩] 11 [')'] := by
          rw [Lexer.lexFrom.eq_2]; rfl
      _ = Lexer.lexFrom #[⟨"LENGTH", .identifier, 6⟩, ⟨"(", .openParen, 7⟩, ⟨"\"é\"", .text, 11⟩,
            ⟨")", .closeParen, 12⟩] 12 [] := by
          rw [Lexer.lexFrom.eq_2]; rfl
  have hchars : "LENGTH(\"é\")".toList =
      ['L', 'E', 'N', 'G', 'T', 'H', '(', '"', 'é', '"', ')'] := rfl
  rw [lex, hchars, hcut, Lexer.lexFrom]
  rfl

/-- It is read as the expression. -/
theorem parseSource_length_of_text :
    parseSource "LENGTH(\"é\")" = .ok [.expression lengthOfText] := by
  rw [parseSource, lexSource, lex_length_of_text]
  refine (parseTokens_eq_read _ rfl).trans ?_
  simp [significant, Kind.isInsignificant, Reading.statements, Reading.statement,
    Reading.expression, Reading.nested, Reading.operand, Reading.continuation, Reading.items,
    Reading.peek, nestingLimit, Kind.isBinaryOperator, Token.endAt, Except.map, bind, pure,
    Except.bind, Except.pure, lengthOfText]

/-- There `LENGTH` is called, with one argument. -/
theorem run_safe_length :
    parseSource "LENGTH(\"é\")" = .ok [.expression lengthOfText] ∧
      ∃ w arguments,
      Reaches 0 ⟨0, .block [.expression lengthOfText] Machine.global, Machine.fresh⟩ w
        ∧ w.Calls 0 .length arguments ∧ arguments.length = 1 := by
  have hreaches : Reaches 0 ⟨0, .block [.expression lengthOfText] Machine.global, Machine.fresh⟩
      ⟨0, .expression lengthOfText Machine.global, Machine.fresh⟩ :=
    .tail (.tail (.refl _) .firstStatement) (.statementOperand rfl)
  have hcalls : Moment.Calls 0 ⟨0, .expression lengthOfText Machine.global, Machine.fresh⟩ .length
      [⟨.text "é", ⟨7, 11⟩⟩] := ⟨_, _, _, _, [.text "é"], Machine.fresh, rfl, rfl, rfl, rfl⟩
  obtain ⟨-, -, -, -, -, hmoments, -⟩ := run_safe 0 "LENGTH(\"é\")"
  obtain ⟨-, hbuiltins⟩ := hmoments _ parseSource_length_of_text _ hreaches
  exact ⟨parseSource_length_of_text, _, _, hreaches, hcalls, (hbuiltins _ _ hcalls).1⟩

end Pseudocode
