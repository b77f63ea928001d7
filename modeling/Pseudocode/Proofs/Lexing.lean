import Pseudocode.Proofs.Stream
import Pseudocode.Token.Lexer

/-!
# What the tokens of a source are

`Spelled` is the vocabulary of the language as a relation: which texts a token of each kind can
have. `Cuts` says how tokens lie in a text. They stand one behind the other from its first byte on,
each is spelled as its kind asks, nothing but blanks lies between them, and an empty newline and
the end of input stand behind the last.

The lexer finds such a cut or points at the place where it stuck (`cuts_of_lexFrom`,
`stuck_of_lexFrom`). How it came to its tokens is of no interest after that: what is said about the
tokens of a source is said about cuts.
-/

namespace Pseudocode

/-! ## Byte lengths -/

namespace Text

@[simp] theorem byteLength_nil : byteLength [] = 0 := rfl

@[simp] theorem byteLength_cons (c : Char) (cs : List Char) :
    byteLength (c :: cs) = c.utf8Size + byteLength cs := rfl

@[simp] theorem byteLength_append (cs ds : List Char) :
    byteLength (cs ++ ds) = byteLength cs + byteLength ds := by
  induction cs with
  | nil => simp
  | cons c cs ih => rw [List.cons_append, byteLength_cons, byteLength_cons, ih, Nat.add_assoc]

theorem byteLength_pos {cs : List Char} (h : cs ≠ []) : 0 < byteLength cs := by
  cases cs with
  | nil => exact absurd rfl h
  | cons c cs => exact Nat.lt_of_lt_of_le c.utf8Size_pos (Nat.le_add_right _ _)

/-- The size of a text is the number of bytes of its characters. -/
@[simp] theorem utf8ByteSize_ofList (cs : List Char) :
    (String.ofList cs).utf8ByteSize = byteLength cs := by
  induction cs with
  | nil => rfl
  | cons c cs ih =>
      rw [String.ofList_cons, String.utf8ByteSize_append, String.utf8ByteSize_singleton, ih,
        byteLength_cons]

end Text

namespace Lexer

open Text (isBlank isWordStart isWordPart byteLength byteLength_append)

/-! ## The vocabulary -/

/-- Digits, with a point behind them and then further digits, or without. -/
inductive NumberText : List Char → Prop where
  | whole {digits : List Char} : digits ≠ [] → (∀ c ∈ digits, c.isDigit = true) → NumberText digits
  | point {digits fraction : List Char} : digits ≠ [] → (∀ c ∈ digits, c.isDigit = true) →
      (∀ c ∈ fraction, c.isDigit = true) → NumberText (digits ++ '.' :: fraction)

/-- The texts of each kind of token. Newlines and the end of input are not spelled. -/
inductive Spelled : Kind → List Char → Prop where
  | word {c : Char} {tail : List Char} : isWordStart c = true → (∀ x ∈ tail, isWordPart x = true) →
      Spelled ((keyword? (String.ofList (c :: tail))).getD .identifier) (c :: tail)
  | number {cs : List Char} : NumberText cs → Spelled .number cs
  | text {inner : List Char} : '"' ∉ inner → Spelled .text ('"' :: (inner ++ ['"']))
  | symbol {kind : Kind} {cs : List Char} :
      operator? (String.ofList cs) = some kind → kind ≠ .comment →
      Spelled kind cs
  | comment {opening line : List Char} :
      operator? (String.ofList opening) = some .comment → '\n' ∉ line →
      Spelled .comment (opening ++ line)

theorem mem_of_lookup {table : List (String × Kind)} {word : String} {kind : Kind}
    (h : table.lookup word = some kind) : (word, kind) ∈ table := by
  obtain ⟨before, after, htable, -⟩ := List.lookup_eq_some_iff.mp h
  rw [htable]
  exact List.mem_append_right _ List.mem_cons_self

/-- A number starts with a digit. -/
theorem NumberText.head {cs : List Char} (h : NumberText cs) :
    ∃ c rest, cs = c :: rest ∧ c.isDigit = true := by
  have hdigits : ∀ {digits : List Char}, digits ≠ [] → (∀ c ∈ digits, c.isDigit = true) →
      ∃ c rest, digits = c :: rest ∧ c.isDigit = true := by
    intro digits hne hall
    obtain ⟨c, rest, rfl⟩ := List.exists_cons_of_ne_nil hne
    exact ⟨c, rest, rfl, hall c List.mem_cons_self⟩
  cases h with
  | whole hne hall => exact hdigits hne hall
  | point hne hall _ =>
      obtain ⟨c, rest, rfl, hc⟩ := hdigits hne hall
      exact ⟨c, _, rfl, hc⟩

theorem ne_nil_of_operator {cs : List Char} {kind : Kind}
    (h : operator? (String.ofList cs) = some kind) : cs ≠ [] := by
  have hall : ∀ entry ∈ operators, entry.1 ≠ "" := by decide
  rintro rfl
  exact hall _ (mem_of_lookup h) rfl

/-- No token of the vocabulary is empty. -/
theorem Spelled.ne_nil {kind : Kind} {cs : List Char} (h : Spelled kind cs) : cs ≠ [] := by
  cases h with
  | word _ _ => exact List.cons_ne_nil _ _
  | number hnumber =>
      obtain ⟨c, rest, rfl, -⟩ := hnumber.head
      exact List.cons_ne_nil _ _
  | text _ => exact List.cons_ne_nil _ _
  | symbol hoperator _ => exact ne_nil_of_operator hoperator
  | comment hoperator _ => exact List.append_ne_nil_of_left_ne_nil (ne_nil_of_operator hoperator) _

/-- What the kind of a token says about its text where no table lists the texts, and for the truth
values. -/
def Shape : Kind → List Char → Prop
  | .number, cs => NumberText cs
  | .text, cs => ∃ inner, cs = '"' :: (inner ++ ['"']) ∧ '"' ∉ inner
  | .truth, cs => String.ofList cs = "true" ∨ String.ofList cs = "false"
  | .newline, _ | .endOfInput, _ => False
  | _, _ => True

theorem shape_of_keyword {cs : List Char} :
    Shape ((keyword? (String.ofList cs)).getD .identifier) cs := by
  have hall : ∀ entry ∈ keywords, Shape entry.2 entry.1.toList := by simp [keywords, Shape]
  cases h : keyword? (String.ofList cs) with
  | none => trivial
  | some kind =>
      have hentry := hall _ (mem_of_lookup h)
      rwa [String.toList_ofList] at hentry

theorem shape_of_operator {cs : List Char} {kind : Kind}
    (h : operator? (String.ofList cs) = some kind) :
    Shape kind cs := by
  have hall : ∀ entry ∈ operators, Shape entry.2 cs := by simp [operators, Shape]
  exact hall _ (mem_of_lookup h)

/-- The vocabulary gives each kind the texts that it should. -/
theorem Spelled.shape {kind : Kind} {cs : List Char} (h : Spelled kind cs) : Shape kind cs := by
  cases h with
  | word _ _ => exact shape_of_keyword
  | number hnumber => exact hnumber
  | text hinner => exact ⟨_, rfl, hinner⟩
  | symbol hoperator _ => exact shape_of_operator hoperator
  | comment _ _ => trivial

/-! ## One lexeme -/

theorem take_takeWhile (p : Char → Bool) (cs : List Char) :
    cs.take (cs.takeWhile p).length = cs.takeWhile p :=
  (List.prefix_iff_eq_take.mp (List.takeWhile_prefix p)).symm

/-- Behind the first characters that pass a test stands what is left when these are dropped. -/
theorem drop_takeWhile (p : Char → Bool) (cs : List Char) :
    cs.drop (cs.takeWhile p).length = cs.dropWhile p := by
  have h := List.takeWhile_append_dropWhile (p := p) (l := cs)
  calc cs.drop (cs.takeWhile p).length
      = (cs.takeWhile p ++ cs.dropWhile p).drop (cs.takeWhile p).length := by rw [h]
    _ = cs.dropWhile p := List.drop_left

theorem not_mem_takeWhile_bne (stop : Char) (cs : List Char) :
    stop ∉ cs.takeWhile (· != stop) := by
  intro hmem
  have h := List.all_eq_true.mp List.all_takeWhile stop hmem
  simp at h

/-- Behind the point of a number only digits go on. -/
theorem digits_numberTail_true (cs : List Char) :
    numberTail true cs ≤ cs.length ∧ ∀ c ∈ cs.take (numberTail true cs), c.isDigit = true := by
  induction cs with
  | nil => simp [numberTail]
  | cons c cs ih =>
      unfold numberTail
      by_cases hdigit : c.isDigit = true
      · simpa [hdigit] using ih
      · simp [hdigit]

/-- What is taken behind digits makes them a number. -/
theorem numberText_numberTail (digits cs : List Char) (hne : digits ≠ [])
    (hall : ∀ c ∈ digits, c.isDigit = true) :
    numberTail false cs ≤ cs.length ∧ NumberText (digits ++ cs.take (numberTail false cs)) := by
  induction cs generalizing digits with
  | nil => simpa [numberTail] using NumberText.whole hne hall
  | cons c cs ih =>
      unfold numberTail
      by_cases hdigit : c.isDigit = true
      · -- the digit joins those before it
        have h := ih (digits ++ [c]) (by simp) (by simpa [or_imp, forall_and, hdigit] using hall)
        simpa [hdigit] using h
      · by_cases hpoint : c = '.'
        · obtain ⟨hle, hfraction⟩ := digits_numberTail_true cs
          simpa [hpoint] using ⟨hle, NumberText.point hne hall hfraction⟩
        · simpa [hdigit, hpoint] using NumberText.whole hne hall

/-- Characters are taken from the front. -/
theorem munch_eq_take (taken cs : List Char) : ∃ n, munch taken cs = taken ++ cs.take n := by
  induction cs generalizing taken with
  | nil => exact ⟨0, by simp [munch]⟩
  | cons c cs ih =>
      unfold munch
      split
      · obtain ⟨n, hn⟩ := ih (taken ++ [c])
        exact ⟨n + 1, by rw [hn, List.append_assoc, List.singleton_append, List.take_succ_cons]⟩
      · exact ⟨0, by simp⟩

/-- What is found among the characters taken is an operator. -/
theorem longestOperator_eq_some {taken : List Char} {length : Nat} {found : Lexeme}
    (h : longestOperator taken length = some found) :
    found.more < length ∧ operator? (String.ofList (taken.take (found.more + 1))) =
      some found.kind := by
  induction length with
  | zero => exact absurd h (by simp [longestOperator])
  | succ length ih =>
      unfold longestOperator at h
      split at h
      · rename_i kind hkind
        injection h with h
        subst h
        exact ⟨Nat.lt_succ_self _, hkind⟩
      · obtain ⟨hlt, hoperator⟩ := ih h
        exact ⟨Nat.lt_succ_of_lt hlt, hoperator⟩

/-- The symbol that was found stands at the front of the text. -/
theorem longestOperator_munch {c : Char} {rest : List Char} {found : Lexeme}
    (h : longestOperator (munch [] (c :: rest)) (munch [] (c :: rest)).length = some found) :
    found.more ≤ rest.length ∧ operator? (String.ofList (c :: rest.take found.more)) =
      some found.kind := by
  obtain ⟨hlt, hoperator⟩ := longestOperator_eq_some h
  obtain ⟨n, hn⟩ := munch_eq_take [] (c :: rest)
  rw [List.nil_append] at hn
  rw [hn, List.length_take, List.length_cons] at hlt
  refine ⟨by omega, ?_⟩
  rwa [hn, List.take_take, Nat.min_eq_left (by omega), List.take_succ_cons] at hoperator

/-- An operator or a comment that is found is spelled as one. -/
theorem spelled_of_operatorLexeme {c : Char} {rest : List Char} {kind : Kind} {more : Nat}
    (h : operatorLexeme? c rest = some ⟨kind, more⟩) :
    more ≤ rest.length ∧ Spelled kind (c :: rest.take more) := by
  unfold operatorLexeme? at h
  dsimp only at h
  split at h
  · rename_i before hfound
    injection h with h
    injection h with hkind hmore
    subst hkind hmore
    obtain ⟨hle, hoperator⟩ := longestOperator_munch hfound
    -- behind the symbol that opens a comment its line goes on
    have hline : rest.take (before + ((rest.drop before).takeWhile (· != '\n')).length)
        = rest.take before ++ (rest.drop before).takeWhile (· != '\n') := by
      rw [List.take_add, take_takeWhile]
    constructor
    · have hprefix := (List.takeWhile_prefix (p := (· != '\n')) (l := rest.drop before)).length_le
      rw [List.length_drop] at hprefix
      dsimp only at hle
      omega
    · rw [hline, ← List.cons_append]
      exact .comment hoperator (not_mem_takeWhile_bne _ _)
  · rename_i found hcomment
    obtain ⟨hle, hoperator⟩ := longestOperator_munch h
    exact ⟨hle, .symbol hoperator (fun hkind => hcomment more (by rw [h, ← hkind]))⟩

/-- **What the lexer takes is spelled as its kind asks.** The first character decides between the
classes. -/
theorem spelled_of_lexeme {offset : Nat} {c : Char} {rest : List Char} {kind : Kind} {more : Nat}
    (h : lexeme offset c rest = .ok ⟨kind, more⟩) :
    more ≤ rest.length ∧ Spelled kind (c :: rest.take more) := by
  unfold lexeme at h
  dsimp only at h
  split at h
  · rename_i hstart
    injection h with h
    injection h with hkind hmore
    subst hkind hmore
    refine ⟨(List.takeWhile_prefix isWordPart).length_le, ?_⟩
    rw [take_takeWhile]
    exact .word hstart (fun x hx => List.all_eq_true.mp List.all_takeWhile x hx)
  split at h
  · rename_i hdigit
    injection h with h
    injection h with hkind hmore
    subst hkind hmore
    obtain ⟨hle, hnumber⟩ := numberText_numberTail [c] rest (by simp) (by simpa using hdigit)
    exact ⟨hle, .number hnumber⟩
  split at h
  · rename_i hquote
    have hc : c = '"' := by simpa using hquote
    split at h
    · exact absurd h (by simp)
    · rename_i x after hdrop
      injection h with h
      injection h with hkind hmore
      subst hkind hmore hc
      -- what ends the text is a quote, and it belongs to the text
      have hx : x = '"' := by
        rw [drop_takeWhile] at hdrop
        have := List.head_dropWhile_not (· != '"') (l := rest) (by rw [hdrop]; simp)
        simpa [hdrop] using this
      have hrest : rest.take ((rest.takeWhile (· != '"')).length + 1) =
          rest.takeWhile (· != '"') ++ ['"'] := by
        rw [List.take_add, take_takeWhile, hdrop, hx]
        rfl
      refine ⟨?_, ?_⟩
      · have := congrArg List.length hdrop
        rw [List.length_drop, List.length_cons] at this
        omega
      · rw [hrest]
        exact .text (not_mem_takeWhile_bne _ _)
  · split at h
    · rename_i found hfound
      injection h with h
      subst h
      exact spelled_of_operatorLexeme hfound
    · exact absurd h (by simp)

/-- No lexeme starts with `c` at byte `offset`: it starts none, or a text that is not closed. -/
inductive Stuck (offset : Nat) (c : Char) (rest : List Char) : Error → Prop where
  | unrecognized : Stuck offset c rest (.unrecognizedCharacter c ⟨offset, offset + c.utf8Size⟩)
  | unterminated : c = '"' → '"' ∉ rest →
      Stuck offset c rest (.unterminatedString ⟨offset, offset + byteLength (c :: rest)⟩)

/-- **Where the lexer takes nothing, no lexeme starts.** -/
theorem stuck_of_lexeme {offset : Nat} {c : Char} {rest : List Char} {e : Error}
    (h : lexeme offset c rest = .error e) : Stuck offset c rest e := by
  unfold lexeme at h
  dsimp only at h
  split at h
  · exact absurd h (by simp)
  split at h
  · exact absurd h (by simp)
  split at h
  · rename_i hquote
    split at h
    · rename_i hdrop
      injection h with h
      subst h
      refine .unterminated (by simpa using hquote) ?_
      -- the characters before the next quote are all there are
      have hrest := List.takeWhile_append_dropWhile (p := (· != '"')) (l := rest)
      rw [← drop_takeWhile, hdrop, List.append_nil] at hrest
      rw [← hrest]
      exact not_mem_takeWhile_bne _ _
    · exact absurd h (by simp)
  · split at h
    · exact absurd h (by simp)
    · injection h with h
      subst h
      exact .unrecognized

/-! ## Cuts -/

/-- The text that starts at byte `offset` is cut into the tokens. -/
inductive Cuts : Nat → List Char → List Token → Prop where
  | nil {offset : Nat} : Cuts offset [] [⟨"", .newline, offset⟩, Token.endAt offset]
  | newline {offset : Nat} {rest : List Char} {ts : List Token} :
      Cuts (offset + 1) rest ts → Cuts offset ('\n' :: rest) (⟨"\n", .newline, offset + 1⟩ :: ts)
  | blank {offset : Nat} {c : Char} {rest : List Char} {ts : List Token} :
      isBlank c = true → c ≠ '\n' →
      Cuts (offset + c.utf8Size) rest ts → Cuts offset (c :: rest) ts
  | lexeme {offset : Nat} {kind : Kind} {text rest : List Char} {ts : List Token} :
      Spelled kind text →
      Cuts (offset + byteLength text) rest ts →
      Cuts offset (text ++ rest) (⟨String.ofList text, kind, offset + byteLength text⟩ :: ts)

/-- The tokens that are added are a cut of the rest of the text, by induction on its length. -/
theorem cuts_of_lexFrom {tokens out : Array Token} {offset : Nat} {cs : List Char}
    (h : lexFrom tokens offset cs = .ok out) :
    ∃ ts, out.toList = tokens.toList ++ ts ∧ Cuts offset cs ts := by
  fun_induction lexFrom tokens offset cs with
  | case1 tokens offset =>
      injection h with h
      subst h
      exact ⟨_, by simp, .nil⟩
  | case2 tokens offset c rest hnewline ih =>
      obtain ⟨ts, hout, hcuts⟩ := ih h
      have hc : c = '\n' := by simpa using hnewline
      subst hc
      exact ⟨_ :: ts, by simp [hout], .newline hcuts⟩
  | case3 tokens offset c rest hnewline hblank ih =>
      obtain ⟨ts, hout, hcuts⟩ := ih h
      exact ⟨ts, hout, .blank hblank (by simpa using hnewline) hcuts⟩
  | case4 tokens offset c rest _ _ e hlexeme => exact absurd h (by simp)
  | case5 tokens offset c rest _ _ kind more hlexeme text stop ih =>
      obtain ⟨ts, hout, hcuts⟩ := ih h
      obtain ⟨-, hspelled⟩ := spelled_of_lexeme hlexeme
      refine ⟨⟨String.ofList text, kind, stop⟩ :: ts, by simp [hout], ?_⟩
      have hrest : c :: rest = text ++ rest.drop more := by simp [text]
      rw [hrest]
      exact .lexeme hspelled hcuts

/-- An error is about a place in the rest of the text. -/
theorem stuck_of_lexFrom {tokens : Array Token} {offset : Nat} {cs : List Char} {e : Error}
    (h : lexFrom tokens offset cs = .error e) :
    ∃ before c rest, cs = before ++ c :: rest ∧ Stuck (offset + byteLength before) c rest e := by
  fun_induction lexFrom tokens offset cs with
  | case1 tokens offset => exact absurd h (by simp)
  | case2 tokens offset c rest hnewline ih =>
      obtain ⟨before, d, after, hrest, hstuck⟩ := ih h
      have hc : c = '\n' := by simpa using hnewline
      refine ⟨c :: before, d, after, by rw [hrest, List.cons_append], ?_⟩
      subst hc
      rwa [Nat.add_assoc] at hstuck
  | case3 tokens offset c rest _ _ ih =>
      obtain ⟨before, d, after, hrest, hstuck⟩ := ih h
      refine ⟨c :: before, d, after, by rw [hrest, List.cons_append], ?_⟩
      rwa [Nat.add_assoc] at hstuck
  | case4 tokens offset c rest _ _ e' hlexeme =>
      injection h with h
      subst h
      exact ⟨[], c, rest, rfl, stuck_of_lexeme hlexeme⟩
  | case5 tokens offset c rest _ _ kind more hlexeme text stop ih =>
      obtain ⟨before, d, after, hrest, hstuck⟩ := ih h
      refine ⟨text ++ before, d, after, ?_, ?_⟩
      · rw [List.append_assoc, ← hrest]
        simp [text]
      · rw [byteLength_append, ← Nat.add_assoc]
        exact hstuck

/-! ## Where tokens lie -/

/-- The token is a piece of the text that starts at byte `offset`, spelled as its kind asks. -/
def Lies (offset : Nat) (cs : List Char) (t : Token) : Prop :=
  ∃ before text after, cs = before ++ (text ++ after) ∧ Spelled t.kind text ∧
    t.text = String.ofList text
    ∧ t.stop = offset + byteLength (before ++ text)

/-- A token that lies in the rest of a text lies in the text. -/
theorem Lies.append_left {offset : Nat} {cs : List Char} {t : Token} (before : List Char)
    (h : Lies (offset + byteLength before) cs t) : Lies offset (before ++ cs) t := by
  obtain ⟨skipped, text, after, hcs, hspelled, htext, hstop⟩ := h
  refine ⟨before ++ skipped, text, after, by rw [hcs, List.append_assoc], hspelled, htext, ?_⟩
  rw [hstop, List.append_assoc, byteLength_append before, Nat.add_assoc]

/-- A cut ends with the end of input, and all that is significant before it is a piece of the
text. -/
theorem Cuts.lies {offset : Nat} {cs : List Char} {ts : List Token} (h : Cuts offset cs ts) :
    ∃ body, ts = body ++ [Token.endAt (offset + byteLength cs)] ∧ ∀ t ∈ significant body,
      Lies offset cs t := by
  induction h with
  | @nil offset =>
      -- the newline that is added is a piece of nothing, but it is not significant
      exact ⟨[⟨"", .newline, offset⟩], rfl, by simp [significant, Kind.isInsignificant]⟩
  | @newline offset rest ts _ ih =>
      obtain ⟨body, hts, hlies⟩ := ih
      refine ⟨⟨"\n", .newline, offset + 1⟩ :: body, ?_, ?_⟩
      · rw [hts, List.cons_append, Text.byteLength_cons, Nat.add_assoc]
        rfl
      · intro t ht
        have ht : t ∈ significant body := by simpa [significant, Kind.isInsignificant] using ht
        exact (hlies t ht).append_left ['\n']
  | @blank offset c rest ts _ _ _ ih =>
      obtain ⟨body, hts, hlies⟩ := ih
      refine ⟨body, ?_, fun t ht => (hlies t ht).append_left [c]⟩
      rw [hts, Text.byteLength_cons, Nat.add_assoc]
  | @lexeme offset kind text rest ts hspelled _ ih =>
      obtain ⟨body, hts, hlies⟩ := ih
      refine ⟨_ :: body, by rw [hts, List.cons_append, byteLength_append, Nat.add_assoc], ?_⟩
      intro t ht
      obtain ⟨hmem, hsignificant⟩ := List.mem_filter.mp ht
      rcases List.mem_cons.mp hmem with rfl | hmem
      · exact ⟨[], text, rest, rfl, hspelled, rfl, rfl⟩
      · exact (hlies t (List.mem_filter.mpr ⟨hmem, hsignificant⟩)).append_left text

end Lexer

/-- The tokens of a source are a cut of it. -/
theorem cuts_of_lex {source : String} {ts : List Token} (h : lex source = .ok ts) :
    Lexer.Cuts 0 source.toList ts := by
  unfold lex at h
  cases hfrom : Lexer.lexFrom #[] 0 source.toList with
  | error e => rw [hfrom] at h; exact absurd h (by simp [Except.map])
  | ok out =>
      rw [hfrom] at h
      injection h with h
      obtain ⟨ts', hout, hcuts⟩ := Lexer.cuts_of_lexFrom hfrom
      rw [List.nil_append] at hout
      rw [← h, hout]
      exact hcuts

theorem byteLength_toList (source : String) :
    Text.byteLength source.toList = source.utf8ByteSize := by
  rw [← Text.utf8ByteSize_ofList, String.ofList_toList]

/-- What is known of the tokens of a source. -/
theorem lies_of_lex {source : String} {ts : List Token} (h : lex source = .ok ts) :
    ∃ body, ts = body ++ [Token.endAt source.utf8ByteSize]
      ∧ ∀ t ∈ significant body, Lexer.Lies 0 source.toList t := by
  obtain ⟨body, hbody, hlies⟩ := (cuts_of_lex h).lies
  refine ⟨body, ?_, hlies⟩
  rw [hbody, Nat.zero_add, byteLength_toList]

/-- Where a source could not be cut. -/
theorem stuck_of_lex {source : String} {e : Error} (h : lex source = .error e) :
    ∃ before c rest, source.toList = before ++ c :: rest ∧
      Lexer.Stuck (Text.byteLength before) c rest e := by
  unfold lex at h
  cases hfrom : Lexer.lexFrom #[] 0 source.toList with
  | ok out => rw [hfrom] at h; exact absurd h (by simp [Except.map])
  | error e' =>
      rw [hfrom] at h
      injection h with h
      subst h
      obtain ⟨before, c, rest, hsource, hstuck⟩ := Lexer.stuck_of_lexFrom hfrom
      exact ⟨before, c, rest, hsource, by rwa [Nat.zero_add] at hstuck⟩

end Pseudocode
