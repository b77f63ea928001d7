import Pseudocode.Proofs.Provenance

/-!
# Codes tell the phase

The code of an error tells which phase found it: the first two digits are 00 for tokens, 01 for the
grammar and 02 for evaluation. What an evaluator can do wrong with a literal would break this, for
it has no better error than those of the grammar for a literal of a kind that has no value. It
never meets one. Literals are cut by the lexer, which gives them a kind that fits their text, and
the parser takes no other kind for a literal.

A number is the one literal whose text could still be refused. Every text that the lexer takes for
a number is read as one (`Number.exists_read`).
-/

namespace Pseudocode

/-! ## Numbers are read -/

namespace Number

open Lexer (NumberText)

theorem takeWhile_digits (digits rest : List Char) (hdigits : ∀ c ∈ digits, c.isDigit = true)
    (hrest : ∀ c ∈ rest.head?, c.isDigit = false) :
    (digits ++ rest).takeWhile Char.isDigit = digits ∧
      (digits ++ rest).dropWhile Char.isDigit = rest := by
  induction digits with
  | nil =>
      cases rest with
      | nil => exact ⟨rfl, rfl⟩
      | cons c rest =>
          have hc := hrest c rfl
          simp [hc]
  | cons c digits ih =>
      have hc := hdigits c List.mem_cons_self
      obtain ⟨htake, hdrop⟩ := ih fun x hx => hdigits x (List.mem_cons_of_mem _ hx)
      simp only [List.cons_append, List.takeWhile_cons, List.dropWhile_cons, hc, if_true]
      exact ⟨by rw [htake], hdrop⟩

theorem readDecimal_whole {digits : List Char} (hne : digits ≠ [])
    (hall : ∀ c ∈ digits, c.isDigit = true) :
    readDecimal? digits = some (ofDecimal (ofDigits digits) 0) := by
  obtain ⟨htake, hdrop⟩ := takeWhile_digits digits [] hall (fun c hc => absurd hc (by simp))
  rw [List.append_nil] at htake hdrop
  simp [readDecimal?, htake, hdrop, hne, readExponent?]

/-- Digits with a point among them are read as a decimal fraction. -/
theorem readDecimal_point {digits fraction : List Char} (hne : digits ≠ [])
    (hall : ∀ c ∈ digits, c.isDigit = true) (hfraction : ∀ c ∈ fraction, c.isDigit = true) :
    readDecimal? (digits ++ '.' :: fraction) =
      some (ofDecimal (ofDigits (digits ++ fraction)) (-(fraction.length : Int))) := by
  obtain ⟨htake, hdrop⟩ := takeWhile_digits digits ('.' :: fraction) hall (fun c hc => by
    obtain rfl : '.' = c := by simpa using hc
    decide)
  obtain ⟨htake', hdrop'⟩ :=
    takeWhile_digits fraction [] hfraction (fun c hc => absurd hc (by simp))
  rw [List.append_nil] at htake' hdrop'
  simp [readDecimal?, htake, hdrop, htake', hdrop', hne, readExponent?]

/-- A text that starts with a digit has no sign and is no name of a number. -/
theorem read_of_digit {text : String} {c : Char} {rest : List Char}
    (htext : text.toList = c :: rest) (hdigit : c.isDigit = true) :
    read? text = readDecimal? text.toList := by
  have hlower : c.toLower = c := by
    have hcode : 48 ≤ c.toNat ∧ c.toNat ≤ 57 := Char.isDigit_iff_toNat.mp hdigit
    refine dif_neg fun hupper => ?_
    have h65 : 65 ≤ c.toNat := hupper.1
    omega
  have hmagnitude : readMagnitude? (c :: rest) = readDecimal? (c :: rest) := by
    have hname : ∀ d tail, d.isDigit = false →
        (((c :: rest).map Char.toLower == d :: tail) = true) = False := by
      intro d tail hd
      rw [List.map_cons, hlower, beq_iff_eq, eq_iff_iff, iff_false]
      intro h
      rw [(List.cons.inj h).1, hd] at hdigit
      exact absurd hdigit (by simp)
    unfold readMagnitude?
    dsimp only
    rw [if_neg, if_neg]
    · exact fun h => (hname 'n' _ (by decide)).mp h
    · rw [Bool.or_eq_true]
      exact fun h => h.elim (fun h => (hname 'i' _ (by decide)).mp h)
        fun h => (hname 'i' _ (by decide)).mp h
  unfold read?
  rw [htext]
  split
  · rename_i hcs
    obtain ⟨rfl, -⟩ := List.cons.inj hcs
    exact absurd hdigit (by decide)
  · rename_i hcs
    obtain ⟨rfl, -⟩ := List.cons.inj hcs
    exact absurd hdigit (by decide)
  · exact hmagnitude

/-- A text of digits, with a point among them or without, is the text of a number. -/
theorem exists_read {text : String} (h : NumberText text.toList) : ∃ x, read? text = some x := by
  obtain ⟨c, rest, hhead, hdigit⟩ := h.head
  rw [read_of_digit hhead hdigit]
  generalize text.toList = cs at h
  cases h with
  | whole hne hall => exact ⟨_, readDecimal_whole hne hall⟩
  | point hne hall hfraction => exact ⟨_, readDecimal_point hne hall hfraction⟩

end Number

/-! ## Literals have values -/

/-- A token whose text fits a kind that has values. -/
inductive Token.Literal (t : Token) : Prop where
  | number : t.kind = .number → Lexer.NumberText t.text.toList → Literal t
  | text {inner : List Char} : t.kind = .text → t.text.toList = '"' :: (inner ++ ['"']) →
      '"' ∉ inner → Literal t
  | truth : t.kind = .truth → t.text = "true" ∨ t.text = "false" → Literal t

/-- A token of the lexer that is of such a kind has such a text. -/
theorem Lexer.Lies.literal {offset : Nat} {cs : List Char} {t : Token} (h : Lexer.Lies offset cs t)
    (hkind : t.kind = .number ∨ t.kind = .text ∨ t.kind = .truth) : t.Literal := by
  obtain ⟨before, text, after, -, hspelled, htext, -⟩ := h
  have hshape := hspelled.shape
  rcases hkind with hkind | hkind | hkind
  · rw [hkind] at hshape
    exact .number hkind (by rw [htext, String.toList_ofList]; exact hshape)
  · rw [hkind] at hshape
    obtain ⟨inner, hinner, hquote⟩ := hshape
    exact .text hkind (by rw [htext, String.toList_ofList]; exact hinner) hquote
  · rw [hkind] at hshape
    exact .truth hkind (by rw [htext]; exact hshape)

/-- A literal whose text fits its kind has a value. -/
theorem Token.Literal.exists_value {t : Token} (h : t.Literal) :
    ∃ value, literalValue t = .ok value := by
  unfold literalValue
  cases h with
  | number hkind hnumber =>
      obtain ⟨x, hx⟩ := Number.exists_read hnumber
      exact ⟨.number x, by rw [hkind, hx]⟩
  | text hkind _ _ => exact ⟨.text (unquote t.text), by rw [hkind]⟩
  | truth hkind _ => exact ⟨.boolean (t.text == "true"), by rw [hkind]⟩

/-- Every literal of a program that was read has a value. -/
theorem literal_of_parseSource {source : String} {program : Block} {token : Token}
    (h : parseSource source = .ok program) (hmem : .literal token ∈ Block.expressions program) :
    token.Literal := by
  obtain ⟨s, hs, hmem⟩ := List.mem_flatMap.mp hmem
  obtain ⟨operand, hoperand, hmem⟩ := List.mem_flatMap.mp hmem
  obtain ⟨hlies, hkind⟩ := nodes_of_parseSource h s hs operand hoperand _ hmem
  exact hlies.literal hkind

/-! ## Codes -/

/-- Errors of the lexer and of the grammar. -/
def syntaxCodes : List String := ["E0001", "E0002", "E0101", "E0102", "E0103", "E0104", "E0105"]

/-- Errors of evaluation. -/
def evaluationCodes : List String :=
  ["E0201", "E0202", "E0203", "E0204", "E0205", "E0206", "E0207", "E0208", "E0209"]

/-- Reading fails with the codes of the first two phases. -/
theorem Fails.code {source : String} {e : Error} (h : Fails source e) : e.code ∈ syntaxCodes := by
  cases h with
  | stuck _ hstuck => cases hstuck <;> simp [Error.code, Error.kind, ErrorKind.code, syntaxCodes]
  | refused _ hrefuses => cases hrefuses <;>
      simp [Error.code, Error.kind, ErrorKind.code, syntaxCodes]

/-- An error that evaluation finds, other than that the text of a number is none. -/
def Error.OfEvaluation (e : Error) : Prop :=
  e.code ∈ evaluationCodes ∧ ∀ text span, e ≠ .typeError (.numberText text) span

theorem Expr.Raises.ofEvaluation {x : Expr} {e : Error} (h : x.Raises e)
    (hliteral : ∀ token, x = .literal token → token.Literal) : e.OfEvaluation := by
  cases h with
  | literal hvalue =>
      obtain ⟨value, hok⟩ := (hliteral _ rfl).exists_value
      rw [hok] at hvalue
      exact absurd hvalue (by simp)
  | _ => simp [Error.OfEvaluation, Error.code, Error.kind, ErrorKind.code, evaluationCodes]

theorem Stmt.Raises.ofEvaluation {s : Stmt} {e : Error} (h : s.Raises (.error e)) :
    e.OfEvaluation := by
  cases h <;> simp [Error.OfEvaluation, Error.code, Error.kind, ErrorKind.code, evaluationCodes]

/-- A program that was read raises only errors of evaluation. -/
theorem Block.Raises.ofEvaluation {source : String} {program : Block} {e : Error}
    (hparse : parseSource source = .ok program) (h : Block.Raises program (.error e)) :
    e.OfEvaluation := by
  cases h with
  | expression hx hraises =>
      exact hraises.ofEvaluation fun token htoken => literal_of_parseSource hparse (htoken ▸ hx)
  | statement _ hraises => exact hraises.ofEvaluation

/-! ## Runs -/

/-- A source that is no program is not run at all. -/
theorem run_unread {source : String} {halt : Halt} (fuel : Nat)
    (h : parseSource source = .error halt) :
    ∃ e, halt = .error e ∧ e.code ∈ syntaxCodes ∧ run fuel source = ⟨#[], .error (.error e)⟩ := by
  obtain ⟨e, rfl, hfails⟩ := parseSource_fails h
  exact ⟨e, rfl, hfails.code, by rw [run, h, runParsed]⟩

/-- A source that is a program is run, and ends in no error of the syntax. -/
theorem run_read {fuel : Nat} {source : String} {program : Block} {halt : Halt}
    (hparse : parseSource source = .ok program) (h : (run fuel source).result = .error halt) :
    halt = .outOfFuel ∨ ∃ e, halt = .error e ∧ e.OfEvaluation := by
  rcases run_fails h with ⟨herror, -⟩ | ⟨program', hparse', hraises⟩
  · rw [hparse] at herror
    exact absurd herror (by simp)
  · rcases hraises.error_or_endless with ⟨e, rfl⟩ | ⟨hfuel, -⟩
    · exact .inr ⟨e, rfl, hraises.ofEvaluation hparse'⟩
    · exact .inl hfuel

/-- **Codes separate the phases.** A run ends in an error of the syntax precisely if the source is
no program; it is then the error of reading it, and nothing was displayed. A program that was read
ends in errors of evaluation only, and each of its literals has a text of its kind and evaluates to
a value wherever it is met. -/
theorem run_error_phase (fuel : Nat) (source : String) :
    ((∃ e, (run fuel source).result = .error (.error e) ∧ e.code ∈ syntaxCodes) ↔
      ∃ halt, parseSource source = .error halt)
    ∧ (∀ halt, parseSource source = .error halt →
        ∃ e, halt = .error e ∧ e.code ∈ syntaxCodes ∧ run fuel source = ⟨#[], .error (.error e)⟩)
    ∧ ∀ program, parseSource source = .ok program →
        (∀ halt, (run fuel source).result = .error halt →
          halt = .outOfFuel ∨ ∃ e, halt = .error e ∧ e.code ∈ evaluationCodes
            ∧ ∀ text span, e ≠ .typeError (.numberText text) span)
        ∧ ∀ token, .literal token ∈ Block.expressions program →
            token.Literal ∧ ∃ value, ∀ c scope m,
            evaluate c scope (.literal token) m = .ok value m := by
  refine ⟨⟨?_, ?_⟩, fun halt => run_unread fuel,
    fun program hparse => ⟨fun halt => run_read hparse, ?_⟩⟩
  · rintro ⟨e, hrun, hcode⟩
    cases hparse : parseSource source with
    | error halt => exact ⟨halt, rfl⟩
    | ok program =>
        -- no code belongs to both phases
        have hapart : ∀ code ∈ evaluationCodes, code ∉ syntaxCodes := by decide
        rcases run_read hparse hrun with hfuel | ⟨e', he, hevaluation, -⟩
        · exact absurd hfuel (by simp)
        · injection he with he
          subst he
          exact absurd hcode (hapart _ hevaluation)
  · rintro ⟨halt, hparse⟩
    obtain ⟨e, -, hcode, hrun⟩ := run_unread fuel hparse
    exact ⟨e, by rw [hrun], hcode⟩
  · intro token hmem
    have hliteral := literal_of_parseSource hparse hmem
    obtain ⟨value, hvalue⟩ := hliteral.exists_value
    refine ⟨hliteral, value, fun c scope m => ?_⟩
    rw [evaluate, hvalue]
    rfl

end Pseudocode
