import Pseudocode.Proofs.LongestMatch
import Pseudocode.Proofs.ParserCompleteness
import Pseudocode.Proofs.Replacement

/-!
# What is written can be read

A program is written by putting its tokens one behind the other, with a space between any two of
them. Read again, it is the same program, except that its tokens know other places.

Three things come together. A space ends every token, so the lexer cuts the text where it was put
together (`longestMatch_spaced`). It gives each token a new place, which the grammar does not see
(`Statements.replace`). And the parser finds whatever is in the grammar and not nested too deeply.

Which tokens a program is written with is not settled by the program alone: an arrow has two
spellings, a comma may stand behind the last item, and an `ELSE IF` means what an else block with
one conditional means. Every choice will do. `Block.written` makes one.
-/

namespace Pseudocode

open Grammar
open Text (isBlank isWordStart isWordPart byteLength)

/-- The text of the token is one of those that its kind can have. Comments are no part of a
program. -/
def Token.WellSpelled (t : Token) : Prop := Lexer.Spelled t.kind t.text.toList ∧ t.kind ≠ .comment

/-- The token without its place. -/
def Token.unplaced (t : Token) : Token := { t with stop := 0 }

theorem keepsKind_unplaced : KeepsKind Token.unplaced := fun _ => rfl

/-- The texts of the tokens with a space between any two. -/
def spaced (ts : List Token) : String := String.intercalate " " (ts.map Token.text)

/-! ## Spaces end tokens -/

namespace Lexer

/-- A beginning of a text without the character ends before it. -/
theorem prefix_of_not_mem {c : Char} {text before after : List Char}
    (h : text <+: before ++ c :: after) (hclean : c ∉ text) :
    text <+: before := by
  rcases Nat.lt_or_ge before.length text.length with hlt | hge
  · -- a longer text would have the character in it
    exfalso
    obtain ⟨more, rfl⟩ : before <+: text :=
      List.prefix_of_prefix_length_le (List.prefix_append _ _) h (Nat.le_of_lt hlt)
    have hmore : more <+: c :: after := (List.prefix_append_right_inj before).mp h
    cases more with
    | nil => exact absurd hlt (by simp)
    | cons d more =>
        obtain ⟨rfl, -⟩ := List.cons_prefix_cons.mp hmore
        exact hclean (by simp)
  · exact List.prefix_of_prefix_length_le h (List.prefix_append _ _) hge

/-- A text ends before a character that no text of its class has in it. -/
theorem longest_of_not_mem {P : List Char → Prop} {text rest : List Char} (htext : P text)
    (hclean : ∀ c ∈ rest.head?, ∀ other, P other → c ∉ other) : Longest P text rest where
  mem := htext
  longest other hother hP := by
    cases rest with
    | nil =>
        rw [List.append_nil] at hother
        exact hother.length_le
    | cons c after => exact (prefix_of_not_mem hother (hclean c rfl other hP)).length_le

/-! No word, number or symbol has a blank in it. -/

/-- No blank is in a word. -/
theorem blank_not_mem_word {blank : Char} {cs : List Char} (hblank : isBlank blank = true)
    (h : WordText cs) : blank ∉ cs := by
  intro hmem
  rw [isBlank_of_isWordPart (h _ hmem)] at hblank
  exact absurd hblank (by simp)

theorem NumberText.digit_or_point {c : Char} {cs : List Char} (h : NumberText cs) (hmem : c ∈ cs) :
    c.isDigit = true ∨ c = '.' := by
  cases h with
  | whole _ hall => exact .inl (hall _ hmem)
  | point _ hall hfraction =>
      rcases List.mem_append.mp hmem with hmem | hmem
      · exact .inl (hall _ hmem)
      · rcases List.mem_cons.mp hmem with rfl | hmem
        · exact .inr rfl
        · exact .inl (hfraction _ hmem)

theorem blank_not_mem_number {blank : Char} {cs : List Char} (hblank : isBlank blank = true)
    (h : NumberText cs) :
    blank ∉ cs := by
  intro hmem
  rcases h.digit_or_point hmem with hdigit | rfl
  · rw [isBlank_of_isWordPart (isWordPart_iff.mpr (.inr hdigit))] at hblank
    exact absurd hblank (by simp)
  · exact absurd hblank (by decide)

theorem blank_not_mem_symbol {blank : Char} {cs : List Char} (hblank : isBlank blank = true)
    (h : Symbol cs) : blank ∉ cs := by
  have hall : ∀ entry ∈ operators, (entry.1.toList.all fun c => !isBlank c) = true := by decide
  obtain ⟨kind, hmem⟩ := h
  have hentry := hall _ hmem
  rw [String.toList_ofList, List.all_eq_true] at hentry
  intro hblank_mem
  exact absurd (hentry _ hblank_mem) (by simp [hblank])

/-- Symbols begin with characters that nothing else begins with. -/
theorem startsSymbol_of_mem {kind : Kind} {c : Char} {tail : List Char}
    (h : (String.ofList (c :: tail), kind) ∈ operators) : StartsSymbol c := by
  have hall : ∀ entry ∈ operators, (entry.1.toList.head?.all fun d =>
      !isBlank d && !isWordStart d && !d.isDigit && d != '"') = true := by decide
  have hfirst := hall _ h
  simp only [String.toList_ofList, List.head?_cons, Option.all_some, Bool.and_eq_true,
    Bool.not_eq_true', bne_iff_ne]
    at hfirst
  obtain ⟨⟨⟨hblank, hword⟩, hdigit⟩, hquote⟩ := hfirst
  exact ⟨hblank, hword, hdigit, hquote⟩

/-- A word is taken whole if something follows that cannot be part of it. -/
theorem takes_word {kind : Kind} {c : Char} {tail rest : List Char}
    (hstart : isWordStart c = true) (htail : ∀ x ∈ tail, isWordPart x = true)
    (hkind : (keyword? (String.ofList (c :: tail))).getD .identifier = kind)
    (hrest : ∀ d ∈ rest.head?, isWordPart d = false) : Takes kind (c :: tail) rest := by
  have hword : WordText (c :: tail) :=
    List.forall_mem_cons.mpr ⟨isWordPart_iff.mpr (.inl hstart), htail⟩
  refine .word hstart (longest_of_not_mem hword fun d hd other hother hmem => ?_)
    (wordKind_iff.mpr hkind)
  have hpart := hother d hmem
  rw [hrest d hd] at hpart
  exact absurd hpart (by simp)

/-- The same of a number. -/
theorem takes_number {text rest : List Char} (h : NumberText text)
    (hrest : ∀ d ∈ rest.head?, isWordPart d = false ∧ d ≠ '.') : Takes .number text rest := by
  obtain ⟨c, tail, rfl, hdigit⟩ := h.head
  refine .number hdigit (longest_of_not_mem h fun d hd other hother hmem => ?_)
  obtain ⟨hpart, hpoint⟩ := hrest d hd
  rcases hother.digit_or_point hmem with hdigit | rfl
  · rw [isWordPart_iff.mpr (.inr hdigit)] at hpart
    exact absurd hpart (by simp)
  · exact hpoint rfl

/-- A token is taken from the front of a text if a space follows it, or nothing does. -/
theorem takes_of_spelled {kind : Kind} {text rest : List Char} (h : Spelled kind text)
    (hkind : kind ≠ .comment) (hrest : ∀ c ∈ rest.head?, c = ' ') : Takes kind text rest := by
  cases h with
  | word hstart htail => exact takes_word hstart htail rfl fun c hc => by rw [hrest c hc]; decide
  | number hnumber => exact takes_number hnumber fun c hc => by rw [hrest c hc]; decide
  | text hinner => exact .text hinner
  | symbol hoperator _ =>
      obtain ⟨c, tail, rfl⟩ := List.exists_cons_of_ne_nil (ne_nil_of_operator hoperator)
      have hmem := operator_eq_some_iff.mp hoperator
      have hlongest := longest_of_not_mem ⟨kind, hmem⟩
          fun c hc _ => blank_not_mem_symbol (by rw [hrest c hc]; decide)
      refine .symbol (startsSymbol_of_mem hmem) hlongest hmem ?_
      intro hslashes
      rw [hslashes] at hoperator
      exact hkind (Option.some.inj hoperator).symm
  | comment _ _ => exact absurd rfl hkind

/-- The tokens as they lie in a text that starts at byte `offset`, with one space between any
two. -/
def placed (offset : Nat) : List Token → List Token
  | [] => []
  | t :: rest =>
    { t with stop := offset + t.text.utf8ByteSize } ::
      placed (offset + t.text.utf8ByteSize + 1) rest

/-- Putting tokens in their places changes only the places. -/
theorem map_unplaced_placed (offset : Nat) (ts : List Token) :
    (placed offset ts).map Token.unplaced = ts.map Token.unplaced := by
  induction ts generalizing offset with
  | nil => rfl
  | cons t rest ih =>
      rw [placed, List.map_cons, List.map_cons, ih]
      rfl

theorem toList_spaced_singleton (t : Token) : (spaced [t]).toList = t.text.toList := by
  unfold spaced
  simp

theorem toList_spaced_cons (t u : Token) (rest : List Token) :
    (spaced (t :: u :: rest)).toList = t.text.toList ++ ' ' :: (spaced (u :: rest)).toList := by
  unfold spaced
  simp [String.toList_intercalate, List.intercalate]

/-- One token at the front, and behind it the rest of the match. -/
theorem longestMatch_token {offset : Nat} {t : Token} {rest : List Char} {ts : List Token}
    (h : t.WellSpelled) (hrest : ∀ c ∈ rest.head?, c = ' ')
    (hmatch : LongestMatch (offset + t.text.utf8ByteSize) rest (.ok ts)) :
    LongestMatch offset (t.text.toList ++ rest)
      (.ok ({ t with stop := offset + t.text.utf8ByteSize } :: ts)) := by
  have htake :=
    LongestMatch.take (takes_of_spelled h.1 h.2 hrest) (by rw [byteLength_toList]; exact hmatch)
  rw [byteLength_toList, String.ofList_toList] at htake
  exact htake

/-- A text of tokens with spaces between them is cut into these tokens. -/
theorem longestMatch_spaced : ∀ (ts : List Token), (∀ t ∈ ts, t.WellSpelled) →
    ∀ offset : Nat, ∃ stop,
    LongestMatch offset (spaced ts).toList
      (.ok (placed offset ts ++ [⟨"", .newline, stop⟩, Token.endAt stop]))
  | [], _, offset => ⟨offset, .done⟩
  | [t], h, offset => by
      refine ⟨offset + t.text.utf8ByteSize, ?_⟩
      rw [toList_spaced_singleton, ← List.append_nil t.text.toList]
      exact longestMatch_token (h t List.mem_cons_self) (fun c hc => absurd hc (by simp)) .done
  | t :: u :: rest, h, offset => by
      obtain ⟨ht, hrest⟩ := List.forall_mem_cons.mp h
      obtain ⟨stop, hmatch⟩ :=
        longestMatch_spaced (u :: rest) hrest (offset + t.text.utf8ByteSize + 1)
      refine ⟨stop, ?_⟩
      rw [toList_spaced_cons]
      exact longestMatch_token ht (fun c hc => (Option.some.inj hc).symm)
        (.skip (by decide) (by decide) hmatch)

end Lexer

/-! ## Spaced tokens are read -/

/-- The lexer finds the tokens in their new places, and the two that every source ends with. -/
theorem lex_spaced {ts : List Token} (h : ∀ t ∈ ts, t.WellSpelled) :
    ∃ stop, lex (spaced ts) =
      .ok (Lexer.placed 0 ts ++ [⟨"", .newline, stop⟩] ++ [Token.endAt stop]) := by
  obtain ⟨stop, hmatch⟩ := Lexer.longestMatch_spaced ts h 0
  refine ⟨stop, ?_⟩
  rw [lex_eq_of_longestMatch hmatch, List.append_assoc]
  rfl

/-- Newlines and comments are not spelled. -/
theorem Token.WellSpelled.significant {t : Token} (h : t.WellSpelled) :
    t.kind.isInsignificant = false := by
  obtain ⟨hspelled, hcomment⟩ := h
  have hshape := hspelled.shape
  revert hshape hcomment
  cases t.kind with
  | newline => exact fun _ hshape => absurd hshape id
  | comment => exact fun hcomment => absurd rfl hcomment
  | _ => exact fun _ _ => rfl

theorem significant_placed {ts : List Token} (h : ∀ t ∈ ts, t.WellSpelled) (offset stop : Nat) :
    significant (Lexer.placed offset ts ++ [⟨"", .newline, stop⟩]) = Lexer.placed offset ts := by
  induction ts generalizing offset with
  | nil => rfl
  | cons t rest ih =>
      obtain ⟨ht, hrest⟩ := List.forall_mem_cons.mp h
      have hkept := ih hrest (offset + t.text.utf8ByteSize + 1)
      unfold significant at hkept ⊢
      rw [Lexer.placed, List.cons_append,
        List.filter_cons_of_pos (by simp [ht.significant]), hkept]

theorem parseSource_of_lex {source : String} {ts : List Token} (h : lex source = .ok ts) :
    parseSource source = parseTokens ts := by
  rw [parseSource, lexSource, h]
  rfl

/-- Tokens that are a program are read as this program. -/
theorem parseTokens_of_grammar {body : List Token} {last : Token} {program : Block}
    (hlast : last.kind = .endOfInput) (h : Statements (significant body) program)
    (hdepth : Block.depth program ≤ nestingLimit) :
    parseTokens (body ++ [last]) = .ok program := by
  have hlength := significant_length_le body
  rw [parseTokens_eq_read body hlast, Reading.statements_whole hlast h hdepth]
  · rfl
  · omega

/-- A source whose tokens are a program is read as this program. -/
theorem parseSource_of_grammar {source : String} {body : List Token} {last : Token}
    {program : Block} (hlex : lex source = .ok (body ++ [last]))
    (hlast : last.kind = .endOfInput) (h : Statements (significant body) program)
    (hdepth : Block.depth program ≤ nestingLimit) : parseSource source = .ok program :=
  (parseSource_of_lex hlex).trans (parseTokens_of_grammar hlast h hdepth)

/-- Written with spaces, the tokens of a program are read as the same program with other places. -/
theorem parseSource_spaced {ws : List Token} {program : Block} (h : Statements ws program)
    (hdepth : Block.depth program ≤ nestingLimit) (hspelled : ∀ t ∈ ws, t.WellSpelled) :
    ∃ again, parseSource (spaced ws) = .ok again
      ∧ Block.mapTokens Token.unplaced again = Block.mapTokens Token.unplaced program := by
  obtain ⟨again, hagain, hsame⟩ :=
    h.replace keepsKind_unplaced keepsKind_unplaced (Lexer.map_unplaced_placed 0 ws).symm
  have hdepth' : Block.depth again ≤ nestingLimit := by
    rw [← Block.depth_mapTokens Token.unplaced again, hsame, Block.depth_mapTokens]
    exact hdepth
  obtain ⟨stop, hlex⟩ := lex_spaced hspelled
  exact ⟨again, parseSource_of_grammar hlex rfl
    (by rw [significant_placed hspelled]; exact hagain) hdepth', hsame⟩

/-! ## Writing a program -/

/-- A token with a text of its own, wherever it stands. -/
def Token.plain (text : String) (kind : Kind) : Token := ⟨text, kind, 0⟩

/-- The tokens of a block, between braces. -/
def braces (body : List Token) : List Token :=
  Token.plain "\x7b" .openBrace :: (body ++ [Token.plain "\x7d" .closeBrace])

/-- The tokens of an expression, between parentheses. -/
def parens (inner : List Token) : List Token :=
  Token.plain "(" .openParen :: (inner ++ [Token.plain ")" .closeParen])

theorem parens_append (inner rest : List Token) :
    parens inner ++ rest = Token.plain "(" .openParen ::
      (inner ++ Token.plain ")" .closeParen :: rest) := by
  rw [parens, List.cons_append, List.append_assoc, List.singleton_append]

/-- Parts of a list with commas between any two. -/
def commas : List (List Token) → List Token
  | [] => []
  | [part] => part
  | part :: rest => part ++ Token.plain "," .comma :: commas rest

mutual

/-- The tokens of an expression. -/
def Expr.written : Expr → List Token
  | .literal token | .name token => [token]
  | .unary operator operand => operator :: operand.written
  | .binary left operator right => left.written ++ operator :: right.written
  | .group inner => parens inner.written
  | .list opening items closing => opening :: (commas (Expr.writtenAll items) ++ [closing])
  | .call callee arguments closing =>
    callee :: Token.plain "(" .openParen :: (commas (Expr.writtenAll arguments) ++ [closing])

/-- The tokens of each of several expressions. -/
def Expr.writtenAll : List Expr → List (List Token)
  | [] => []
  | e :: rest => e.written :: Expr.writtenAll rest

end

mutual

/-- The tokens of a statement. -/
def Stmt.written : Stmt → List Token
  | .procedure name params body =>
    Token.plain "PROCEDURE" .procedureWord :: name ::
      (parens (commas (params.map fun param => [param])) ++ braces (Block.written body))
  | .assign target value => target :: Token.plain "←" .assign :: value.written
  | .ifThen condition thenBlock =>
    Token.plain "IF" .ifWord :: (parens condition.written ++ braces (Block.written thenBlock))
  | .ifThenElse condition thenBlock elseBlock =>
    Token.plain "IF" .ifWord :: (parens condition.written ++
      (braces (Block.written thenBlock)
        ++ Token.plain "ELSE" .elseWord :: braces (Block.written elseBlock)))
  | .repeatTimes count body =>
    Token.plain "REPEAT" .repeatWord ::
      (count.written ++ Token.plain "TIMES" .timesWord :: braces (Block.written body))
  | .repeatUntil condition body =>
    Token.plain "REPEAT" .repeatWord :: Token.plain "UNTIL" .untilWord ::
      (condition.written ++ braces (Block.written body))
  | .forEach item list body =>
    Token.plain "FOR" .forWord :: Token.plain "EACH" .eachWord :: item ::
      Token.plain "IN" .inWord ::
      (list.written ++ braces (Block.written body))
  | .returns value => Token.plain "RETURN" .returnWord :: value.written
  | .expression e => e.written

/-- The tokens of a program in order, those that it does not hold in one fixed spelling each. -/
def Block.written : List Stmt → List Token
  | [] => []
  | s :: rest => s.written ++ Block.written rest

end

/-- A program as a text. -/
def Block.print (program : Block) : String := spaced (Block.written program)

/-! ## Only the tokens that a program holds can be misspelled -/

mutual

/-- The tokens that an expression holds. -/
def Expr.tokens : Expr → List Token
  | .literal token | .name token => [token]
  | .unary operator operand => operator :: operand.tokens
  | .binary left operator right => left.tokens ++ operator :: right.tokens
  | .group inner => inner.tokens
  | .list opening items closing => opening :: (Expr.tokensAll items ++ [closing])
  | .call callee arguments closing => callee :: (Expr.tokensAll arguments ++ [closing])

/-- The tokens that several expressions hold. -/
def Expr.tokensAll : List Expr → List Token
  | [] => []
  | e :: rest => e.tokens ++ Expr.tokensAll rest

end

mutual

/-- The tokens that a statement holds. -/
def Stmt.tokens : Stmt → List Token
  | .procedure name params body => name :: (params ++ Block.tokens body)
  | .assign target value => target :: value.tokens
  | .ifThen condition thenBlock => condition.tokens ++ Block.tokens thenBlock
  | .ifThenElse condition thenBlock elseBlock =>
    condition.tokens ++ (Block.tokens thenBlock ++ Block.tokens elseBlock)
  | .repeatTimes count body => count.tokens ++ Block.tokens body
  | .repeatUntil condition body => condition.tokens ++ Block.tokens body
  | .forEach item list body => item :: (list.tokens ++ Block.tokens body)
  | .returns value => value.tokens
  | .expression e => e.tokens

/-- The tokens that a program holds. Keywords of statements, commas, braces and most parentheses
are not among them. -/
def Block.tokens : List Stmt → List Token
  | [] => []
  | s :: rest => s.tokens ++ Block.tokens rest

end

theorem wellSpelled_of_operator {t : Token} (h : (t.text, t.kind) ∈ operators)
    (hkind : t.kind ≠ .comment) :
    t.WellSpelled := by
  refine ⟨.symbol ?_ hkind, hkind⟩
  rw [String.ofList_toList]
  exact Lexer.operator_eq_some_iff.mpr h

/-- Reserved words are spelled as the table has them. -/
theorem wellSpelled_of_keyword {t : Token} (h : (t.text, t.kind) ∈ keywords) : t.WellSpelled := by
  have hall : ∀ entry ∈ keywords, entry.1.toList.head?.any isWordStart = true ∧
      entry.1.toList.all isWordPart = true
      ∧ entry.2 ≠ .comment := by decide
  obtain ⟨hstart, hparts, hkind⟩ := hall _ h
  have hword : (keyword? (String.ofList t.text.toList)).getD .identifier = t.kind := by
    rw [String.ofList_toList]
    exact Lexer.wordKind_iff.mp (.inl h)
  refine ⟨?_, hkind⟩
  rw [← hword]
  cases htext : t.text.toList with
  | nil => rw [htext] at hstart; exact absurd hstart (by simp)
  | cons c tail =>
      rw [htext] at hstart hparts
      obtain ⟨-, htail⟩ := List.forall_mem_cons.mp (List.all_eq_true.mp hparts)
      exact .word (by simpa using hstart) htail

theorem wellSpelled_parens {inner : List Token} (h : ∀ t ∈ inner, t.WellSpelled) :
    ∀ t ∈ parens inner, t.WellSpelled := by
  rw [parens, List.forall_mem_cons, List.forall_mem_append, List.forall_mem_singleton]
  exact ⟨wellSpelled_of_operator (by decide) nofun, h, wellSpelled_of_operator (by decide) nofun⟩

theorem wellSpelled_braces {body : List Token} (h : ∀ t ∈ body, t.WellSpelled) :
    ∀ t ∈ braces body, t.WellSpelled := by
  rw [braces, List.forall_mem_cons, List.forall_mem_append, List.forall_mem_singleton]
  exact ⟨wellSpelled_of_operator (by decide) nofun, h, wellSpelled_of_operator (by decide) nofun⟩

/-- Commas between well spelled parts. -/
theorem wellSpelled_commas : ∀ {parts : List (List Token)},
    (∀ part ∈ parts, ∀ t ∈ part, t.WellSpelled) →
    ∀ t ∈ commas parts, t.WellSpelled
  | [], _ => fun t ht => absurd ht List.not_mem_nil
  | [part], h => h part List.mem_cons_self
  | part :: next :: rest, h => by
      obtain ⟨hpart, hrest⟩ := List.forall_mem_cons.mp h
      rw [commas, List.forall_mem_append, List.forall_mem_cons]
      · exact ⟨hpart, wellSpelled_of_operator (by decide) nofun, wellSpelled_commas hrest⟩
      · exact nofun

mutual

/-- An expression is written in well spelled tokens, if those that it holds are. -/
theorem Expr.wellSpelled_written : ∀ {e : Expr}, (∀ t ∈ e.tokens, t.WellSpelled) →
    ∀ t ∈ e.written, t.WellSpelled
  | .literal _, h => by
      rw [Expr.tokens] at h
      rw [Expr.written]
      exact h
  | .name _, h => by
      rw [Expr.tokens] at h
      rw [Expr.written]
      exact h
  | .unary _ operand, h => by
      rw [Expr.tokens, List.forall_mem_cons] at h
      rw [Expr.written, List.forall_mem_cons]
      exact ⟨h.1, Expr.wellSpelled_written h.2⟩
  | .binary left _ right, h => by
      rw [Expr.tokens, List.forall_mem_append, List.forall_mem_cons] at h
      obtain ⟨hleft, hoperator, hright⟩ := h
      rw [Expr.written, List.forall_mem_append, List.forall_mem_cons]
      exact ⟨Expr.wellSpelled_written hleft, hoperator, Expr.wellSpelled_written hright⟩
  | .group inner, h => by
      rw [Expr.tokens] at h
      rw [Expr.written]
      exact wellSpelled_parens (Expr.wellSpelled_written h)
  | .list _ items _, h => by
      rw [Expr.tokens, List.forall_mem_cons, List.forall_mem_append] at h
      obtain ⟨hopening, hitems, hclosing⟩ := h
      rw [Expr.written, List.forall_mem_cons, List.forall_mem_append]
      exact ⟨hopening, wellSpelled_commas (Expr.wellSpelled_writtenAll hitems), hclosing⟩
  | .call _ arguments _, h => by
      rw [Expr.tokens, List.forall_mem_cons, List.forall_mem_append] at h
      obtain ⟨hcallee, harguments, hclosing⟩ := h
      rw [Expr.written, List.forall_mem_cons, List.forall_mem_cons, List.forall_mem_append]
      exact ⟨hcallee, wellSpelled_of_operator (by decide) nofun,
        wellSpelled_commas (Expr.wellSpelled_writtenAll harguments), hclosing⟩

theorem Expr.wellSpelled_writtenAll :
    ∀ {es : List Expr}, (∀ t ∈ Expr.tokensAll es, t.WellSpelled) →
    ∀ part ∈ Expr.writtenAll es, ∀ t ∈ part, t.WellSpelled
  | [], _ => fun part hpart => absurd hpart (by simp [Expr.writtenAll])
  | e :: rest, h => by
      rw [Expr.tokensAll, List.forall_mem_append] at h
      rw [Expr.writtenAll, List.forall_mem_cons]
      exact ⟨Expr.wellSpelled_written h.1, Expr.wellSpelled_writtenAll h.2⟩

end

mutual

theorem Stmt.wellSpelled_written : ∀ {s : Stmt}, (∀ t ∈ s.tokens, t.WellSpelled) →
    ∀ t ∈ s.written, t.WellSpelled
  | .procedure _ params body, h => by
      rw [Stmt.tokens, List.forall_mem_cons, List.forall_mem_append] at h
      obtain ⟨hname, hparams, hbody⟩ := h
      have hcommas : ∀ t ∈ commas (params.map fun param => [param]), t.WellSpelled := by
        refine wellSpelled_commas fun part hpart => ?_
        obtain ⟨param, hparam, rfl⟩ := List.mem_map.mp hpart
        exact List.forall_mem_singleton.mpr (hparams param hparam)
      rw [Stmt.written, List.forall_mem_cons, List.forall_mem_cons, List.forall_mem_append]
      exact ⟨wellSpelled_of_keyword (by decide), hname, wellSpelled_parens hcommas,
        wellSpelled_braces (Block.wellSpelled_written hbody)⟩
  | .assign _ value, h => by
      rw [Stmt.tokens, List.forall_mem_cons] at h
      rw [Stmt.written, List.forall_mem_cons, List.forall_mem_cons]
      exact ⟨h.1, wellSpelled_of_operator (by decide) nofun, Expr.wellSpelled_written h.2⟩
  | .ifThen condition thenBlock, h => by
      rw [Stmt.tokens, List.forall_mem_append] at h
      rw [Stmt.written, List.forall_mem_cons, List.forall_mem_append]
      exact ⟨wellSpelled_of_keyword (by decide), wellSpelled_parens (Expr.wellSpelled_written h.1),
        wellSpelled_braces (Block.wellSpelled_written h.2)⟩
  | .ifThenElse condition thenBlock elseBlock, h => by
      rw [Stmt.tokens, List.forall_mem_append, List.forall_mem_append] at h
      obtain ⟨hcondition, hthen, helse⟩ := h
      rw [Stmt.written, List.forall_mem_cons, List.forall_mem_append, List.forall_mem_append,
        List.forall_mem_cons]
      exact ⟨wellSpelled_of_keyword (by decide),
        wellSpelled_parens (Expr.wellSpelled_written hcondition),
        wellSpelled_braces (Block.wellSpelled_written hthen), wellSpelled_of_keyword (by decide),
        wellSpelled_braces (Block.wellSpelled_written helse)⟩
  | .repeatTimes count body, h => by
      rw [Stmt.tokens, List.forall_mem_append] at h
      rw [Stmt.written, List.forall_mem_cons, List.forall_mem_append, List.forall_mem_cons]
      exact ⟨wellSpelled_of_keyword (by decide), Expr.wellSpelled_written h.1,
        wellSpelled_of_keyword (by decide), wellSpelled_braces (Block.wellSpelled_written h.2)⟩
  | .repeatUntil condition body, h => by
      rw [Stmt.tokens, List.forall_mem_append] at h
      rw [Stmt.written, List.forall_mem_cons, List.forall_mem_cons, List.forall_mem_append]
      exact ⟨wellSpelled_of_keyword (by decide), wellSpelled_of_keyword (by decide),
        Expr.wellSpelled_written h.1, wellSpelled_braces (Block.wellSpelled_written h.2)⟩
  | .forEach _ list body, h => by
      rw [Stmt.tokens, List.forall_mem_cons, List.forall_mem_append] at h
      obtain ⟨hitem, hlist, hbody⟩ := h
      rw [Stmt.written]
      simp only [List.forall_mem_cons, List.forall_mem_append]
      exact ⟨wellSpelled_of_keyword (by decide), wellSpelled_of_keyword (by decide), hitem,
        wellSpelled_of_keyword (by decide), Expr.wellSpelled_written hlist,
        wellSpelled_braces (Block.wellSpelled_written hbody)⟩
  | .returns value, h => by
      rw [Stmt.tokens] at h
      rw [Stmt.written, List.forall_mem_cons]
      exact ⟨wellSpelled_of_keyword (by decide), Expr.wellSpelled_written h⟩
  | .expression e, h => by
      rw [Stmt.tokens] at h
      rw [Stmt.written]
      exact Expr.wellSpelled_written h

/-- A program is written in well spelled tokens, if those that it holds are. -/
theorem Block.wellSpelled_written :
    ∀ {block : List Stmt}, (∀ t ∈ Block.tokens block, t.WellSpelled) →
    ∀ t ∈ Block.written block, t.WellSpelled
  | [], _ => fun t ht => absurd ht (by simp [Block.written])
  | s :: rest, h => by
      rw [Block.tokens, List.forall_mem_append] at h
      rw [Block.written, List.forall_mem_append]
      exact ⟨Stmt.wellSpelled_written h.1, Block.wellSpelled_written h.2⟩

end

/-! ## What is written is in the grammar -/

namespace Grammar

mutual

/-- What is written for an expression is this expression. -/
theorem Expression.written : ∀ {ws : List Token} {e : Expr}, Expression ws e →
    Expression e.written e
  | _, _, .primary hprimary => .primary hprimary.written
  | _, _, .binary hleft hoperator hright => by
      rw [Expr.written]
      exact .binary hleft.written hoperator hright.written
  | _, _, .unary hoperator hoperand => by
      rw [Expr.written]
      exact .unary hoperator hoperand.written

theorem Primary.written : ∀ {ws : List Token} {e : Expr}, Primary ws e → Primary e.written e
  | _, _, .literal hkind => by
      rw [Expr.written]
      exact .literal hkind
  | _, _, .name hkind => by
      rw [Expr.written]
      exact .name hkind
  | _, _, .call hcallee _ harguments hcloser => by
      rw [Expr.written]
      exact .call hcallee rfl harguments.written hcloser
  | _, _, .group _ hinner _ => by
      rw [Expr.written]
      exact .group rfl hinner.written rfl
  | _, _, .list hopening hitems hcloser => by
      rw [Expr.written]
      exact .list hopening hitems.written hcloser

theorem Items.written : ∀ {ws : List Token} {es : List Expr}, Items ws es →
    Items (commas (Expr.writtenAll es)) es
  | _, _, .nil => .nil
  | _, _, .one hitem => .one hitem.written
  | _, _, @Items.cons _ _ _ e rest hitem _ hrest => by
      have hrest := hrest.written
      cases rest with
      | nil => exact .one hitem.written
      | cons e' rest => exact .cons hitem.written rfl hrest

end

/-- However an expression was written before, it starts with a token of the same kind. -/
theorem Primary.kind_head_written {ws : List Token} {e : Expr} (h : Primary ws e) :
    e.written.head?.map Token.kind = ws.head?.map Token.kind := by
  cases h with
  | literal _ => rw [Expr.written]
  | name _ => rw [Expr.written]
  | call _ _ _ _ => rw [Expr.written, List.head?_cons, List.head?_cons]
  | group hopening _ _ =>
      rw [Expr.written, parens, List.head?_cons, List.head?_cons, Option.map_some,
        Option.map_some, hopening]
      rfl
  | list _ _ _ => rw [Expr.written, List.head?_cons, List.head?_cons]

/-- The same for whole expressions. -/
theorem Expression.kind_head_written {ws : List Token} {e : Expr} (h : Expression ws e) :
    e.written.head?.map Token.kind = ws.head?.map Token.kind := by
  cases h with
  | primary hprimary => exact hprimary.kind_head_written
  | binary hleft _ _ =>
      have hkind := hleft.kind_head_written
      obtain ⟨t, vs, rfl, -⟩ := hleft.starts
      obtain ⟨t', ht', hsame⟩ := Option.map_eq_some_iff.mp hkind
      rw [Expr.written, List.head?_append, ht']
      exact congrArg some hsame
  | unary _ _ => rw [Expr.written, List.head?_cons, List.head?_cons]

theorem Params.written : ∀ {ws params : List Token}, Params ws params →
    Params (commas (params.map fun param => [param])) params
  | _, _, .nil => .nil
  | _, _, .one hkind => .one hkind
  | _, _, @Params.cons t _ _ rest hkind _ hrest => by
      have hrest := hrest.written
      cases rest with
      | nil => exact .one hkind
      | cons t' rest => exact .cons hkind rfl hrest

mutual

/-- What is written for a statement is this statement. -/
theorem Statement.written : ∀ {ws : List Token} {s : Stmt}, Statement ws s → Statement s.written s
  | _, _, .procedure _ hname _ hparams _ hbody => by
      rw [Stmt.written, parens_append]
      exact .procedure rfl hname rfl hparams.written rfl hbody.written
  | _, _, .conditional hconditional => .conditional hconditional.written
  | _, _, .repeatUntil _ _ hcondition hbody => by
      rw [Stmt.written]
      exact .repeatUntil rfl rfl hcondition.written hbody.written
  | _, _, .repeatTimes _ hcount _ hbody => by
      rw [Stmt.written]
      exact .repeatTimes rfl hcount.written rfl hbody.written
  | _, _, .forEach _ _ hitem _ hlist hbody => by
      rw [Stmt.written]
      exact .forEach rfl rfl hitem rfl hlist.written hbody.written
  | _, _, .returns _ hvalue => by
      rw [Stmt.written]
      exact .returns rfl hvalue.written
  | _, _, .assign htarget _ hvalue => by
      rw [Stmt.written]
      exact .assign htarget rfl hvalue.written
  | _, _, .expression hfirst hexpression => by
      have hkind := hexpression.kind_head_written
      have hwritten := hexpression.written
      obtain ⟨t, ts, hts, -⟩ := hwritten.starts
      rw [hts] at hkind hwritten
      rw [Stmt.written, hts]
      exact .expression ((Option.some.inj hkind).trans hfirst) hwritten

theorem Conditional.written : ∀ {ws : List Token} {s : Stmt}, Conditional ws s →
    Conditional s.written s
  | _, _, .ifThen _ _ hcondition _ hthen => by
      rw [Stmt.written, parens_append]
      exact .ifThen rfl rfl hcondition.written rfl hthen.written
  | _, _, .ifThenElse _ _ hcondition _ hthen _ helse => by
      rw [Stmt.written, parens_append]
      exact .ifThenElse rfl rfl hcondition.written rfl hthen.written rfl helse.written
  | _, _, .elseIf _ _ hcondition _ hthen _ hinner => by
      -- an `ELSE IF` is written as the else block that it stands for
      rw [Stmt.written, parens_append]
      have hblock := Statements.cons (.conditional hinner.written) .nil
      exact .ifThenElse rfl rfl hcondition.written rfl hthen.written rfl (.mk rfl hblock rfl)

theorem Braced.written : ∀ {ws : List Token} {body : Block}, Braced ws body →
    Braced (braces (Block.written body)) body
  | _, _, .mk _ hbody _ => .mk rfl hbody.written rfl

/-- **What is written for a program is this program.** -/
theorem Statements.written : ∀ {ws : List Token} {block : Block}, Statements ws block →
    Statements (Block.written block) block
  | _, _, .nil => .nil
  | _, _, .cons hfirst hrest => by
      rw [Block.written]
      exact .cons hfirst.written hrest.written

end

end Grammar

/--
**What is written can be read.**

A program of the grammar that is not nested too deeply, written with a space between any two of its
tokens, is read as the same program up to the places of its tokens. This holds for the tokens that
the program was derived from, whatever their spellings. It holds as well for those that it is
printed with, whatever it was derived from, if the tokens that the program holds are well spelled.
-/
theorem parseSource_print {ws : List Token} {program : Block} (h : Statements ws program)
    (hdepth : Block.depth program ≤ nestingLimit) :
    ((∀ t ∈ ws, t.WellSpelled) → ∃ again, parseSource (spaced ws) = .ok again
      ∧ Block.mapTokens Token.unplaced again = Block.mapTokens Token.unplaced program)
    ∧ ((∀ t ∈ Block.tokens program, t.WellSpelled) →
      ∃ again, parseSource (Block.print program) = .ok again
      ∧ Block.mapTokens Token.unplaced again = Block.mapTokens Token.unplaced program) :=
  ⟨parseSource_spaced h hdepth, fun hspelled =>
    parseSource_spaced h.written hdepth (Block.wellSpelled_written hspelled)⟩

/-- An assignment of a call, with the arrow of a plain keyboard and a comma behind the last
argument. -/
theorem parseSource_print_call :
    (∃ again, parseSource "x <-- - f ( \"a b\" , 1. , )" = .ok again ∧
      Block.mapTokens Token.unplaced again =
        [.assign (.plain "x" .identifier) (.unary (.plain "-" .subtract)
          (.call (.plain "f" .identifier)
            [.literal (.plain "\"a b\"" .text), .literal (.plain "1." .number)]
            (.plain ")" .closeParen)))])
    ∧ ∃ again, parseSource "x ← - f ( \"a b\" , 1. )" = .ok again ∧
      Block.mapTokens Token.unplaced again =
        [.assign (.plain "x" .identifier) (.unary (.plain "-" .subtract)
          (.call (.plain "f" .identifier)
            [.literal (.plain "\"a b\"" .text), .literal (.plain "1." .number)]
            (.plain ")" .closeParen)))] := by
  have hitems :
      Items [.plain "\"a b\"" .text, .plain "," .comma, .plain "1." .number, .plain "," .comma]
        [.literal (.plain "\"a b\"" .text), .literal (.plain "1." .number)] :=
    .cons (.primary (.literal (.inr (.inl rfl)))) rfl
      (.cons (.primary (.literal (.inl rfl))) rfl .nil)
  have hcall :
      Expression [.plain "-" .subtract, .plain "f" .identifier, .plain "(" .openParen,
        .plain "\"a b\"" .text, .plain "," .comma, .plain "1." .number, .plain "," .comma,
        .plain ")" .closeParen] _ :=
    .unary (.inl rfl) (.primary (.call rfl rfl hitems rfl))
  have hprogram :
      Statements [.plain "x" .identifier, .plain "<--" .assign, .plain "-" .subtract,
        .plain "f" .identifier, .plain "(" .openParen, .plain "\"a b\"" .text, .plain "," .comma,
        .plain "1." .number, .plain "," .comma, .plain ")" .closeParen] _ :=
    .cons (.assign rfl rfl hcall) .nil
  have hnone : ∀ {P : Char → Prop}, ∀ c ∈ ([] : List Char), P c :=
    fun c hc => absurd hc List.not_mem_nil
  have hx : (Token.plain "x" .identifier).WellSpelled :=
    ⟨@Lexer.Spelled.word 'x' [] (by decide) hnone, by decide⟩
  have hf : (Token.plain "f" .identifier).WellSpelled :=
    ⟨@Lexer.Spelled.word 'f' [] (by decide) hnone, by decide⟩
  have htext : (Token.plain "\"a b\"" .text).WellSpelled :=
    ⟨@Lexer.Spelled.text ['a', ' ', 'b'] (by decide), by decide⟩
  have hnumber : (Token.plain "1." .number).WellSpelled :=
    ⟨.number (@Lexer.NumberText.point ['1'] [] (by decide)
      (List.forall_mem_singleton.mpr (by decide)) hnone), by decide⟩
  have harrow : (Token.plain "<--" .assign).WellSpelled :=
    wellSpelled_of_operator (by decide) nofun
  have hminus : (Token.plain "-" .subtract).WellSpelled :=
    wellSpelled_of_operator (by decide) nofun
  have hopen : (Token.plain "(" .openParen).WellSpelled :=
    wellSpelled_of_operator (by decide) nofun
  have hcomma : (Token.plain "," .comma).WellSpelled := wellSpelled_of_operator (by decide) nofun
  have hclose : (Token.plain ")" .closeParen).WellSpelled :=
    wellSpelled_of_operator (by decide) nofun
  have hnil : ∀ t ∈ ([] : List Token), t.WellSpelled := fun t ht => absurd ht List.not_mem_nil
  obtain ⟨hgiven, hprinted⟩ := parseSource_print hprogram (by decide)
  refine ⟨hgiven ?_, hprinted ?_⟩
  · simp only [List.forall_mem_cons]
    exact ⟨hx, harrow, hminus, hf, hopen, htext, hcomma, hnumber, hcomma, hclose, hnil⟩
  · simp only [Block.tokens, Stmt.tokens, Expr.tokens, Expr.tokensAll, List.append_nil,
      List.cons_append, List.nil_append, List.forall_mem_cons]
    exact ⟨hx, hminus, hf, htext, hnumber, hclose, hnil⟩

end Pseudocode
