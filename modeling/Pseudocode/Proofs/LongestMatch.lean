import Pseudocode.Proofs.Lexing

/-!
# The lexer takes the longest match

`LongestMatch` says what the tokens of a text are without saying how they are found. At each place
blanks are skipped, and then the first character chooses a class of texts: words, numbers, texts in
quotes, or the symbols of the table. What is taken is the longest text of the class that the rest
of the source starts with. Where there is none, the source has an error there.

The lexer finds symbols in another way. It takes characters as long as they could still become a
symbol, and then gives back what did not become one. That this is the same rests on two facts:
every beginning of a symbol is taken on the way to it (`prefix_munch`), and among the beginnings
that were taken the longest symbol is chosen (`exists_longestOperator`).
-/

namespace Pseudocode

namespace Lexer

open Text (isBlank isWordStart isWordPart byteLength byteLength_append byteLength_cons)

/-! ## Longest texts of a class -/

/-- `text` is of class `P`, and no longer text that `text ++ rest` starts with is. -/
structure Longest (P : List Char → Prop) (text rest : List Char) : Prop where
  mem : P text
  longest : ∀ other, other <+: text ++ rest → P other → other.length ≤ text.length

/-- There is only one longest text at each place. -/
theorem Longest.unique {P : List Char → Prop} {text text' rest rest' : List Char}
    (h : Longest P text rest) (h' : Longest P text' rest') (heq : text ++ rest = text' ++ rest') :
    text = text' := by
  have hle : text'.length ≤ text.length := h.longest text' ⟨rest', heq.symm⟩ h'.mem
  have hge : text.length ≤ text'.length := h'.longest text ⟨rest, heq⟩ h.mem
  exact (List.append_inj heq (Nat.le_antisymm hge hle)).1

/-- What is left out behind a text does not make it shorter. -/
theorem Longest.truncate {P : List Char → Prop} {text rest more : List Char}
    (h : Longest P text (rest ++ more)) :
    Longest P text rest where
  mem := h.mem
  longest other hother hP := by
    refine h.longest other (hother.trans ?_) hP
    rw [← List.append_assoc]
    exact List.prefix_append _ _

/-- Among texts whose characters all pass a test, the longest one is the obvious one. -/
theorem longest_takeWhile (p : Char → Bool) (cs : List Char) :
    Longest (fun text => ∀ c ∈ text, p c = true) (cs.takeWhile p) (cs.dropWhile p) where
  mem c hc := List.all_eq_true.mp List.all_takeWhile c hc
  longest other hother hall := by
    rw [List.takeWhile_append_dropWhile] at hother
    obtain ⟨rest, rfl⟩ := hother
    rw [List.takeWhile_append_of_pos hall, List.length_append]
    exact Nat.le_add_right _ _

/-! ## The rules -/

/-- A word: letters, digits and underscores. -/
def WordText (cs : List Char) : Prop := ∀ c ∈ cs, isWordPart c = true

/-- An entry of the table of operators. -/
def Symbol (cs : List Char) : Prop := ∃ kind, (String.ofList cs, kind) ∈ operators

/-- The kind that a word has by the table of reserved words. -/
def WordKind (word : String) (kind : Kind) : Prop :=
  (word, kind) ∈ keywords ∨ kind = .identifier ∧ ∀ reserved, (word, reserved) ∉ keywords

/-- Any character but a blank and those that start a word, a number or a text. -/
structure StartsSymbol (c : Char) : Prop where
  not_blank : isBlank c = false
  not_word : isWordStart c = false
  not_digit : c.isDigit = false
  not_quote : c ≠ '"'

/-- From a source that goes on with `text ++ rest`, a token of the kind is taken, which has this
text. -/
inductive Takes : Kind → List Char → List Char → Prop where
  | word {kind : Kind} {c : Char} {tail rest : List Char} :
      isWordStart c = true → Longest WordText (c :: tail) rest →
      WordKind (String.ofList (c :: tail)) kind → Takes kind (c :: tail) rest
  | number {c : Char} {tail rest : List Char} :
      c.isDigit = true → Longest NumberText (c :: tail) rest →
      Takes .number (c :: tail) rest
  | text {inner rest : List Char} : '"' ∉ inner → Takes .text ('"' :: (inner ++ ['"'])) rest
  | symbol {kind : Kind} {c : Char} {tail rest : List Char} :
      StartsSymbol c → Longest Symbol (c :: tail) rest →
      (String.ofList (c :: tail), kind) ∈ operators → c :: tail ≠ ['/', '/'] →
      Takes kind (c :: tail) rest
  | comment {line rest : List Char} : Longest Symbol ['/', '/'] (line ++ rest) → '\n' ∉ line →
      (∀ c ∈ rest.head?, c = '\n') → Takes .comment ('/' :: '/' :: line) rest

/-- The text that starts at byte `offset` has these tokens, or this error. -/
inductive LongestMatch : Nat → List Char → Except Error (List Token) → Prop where
  | done {offset : Nat} : LongestMatch offset [] (.ok [⟨"", .newline, offset⟩, Token.endAt offset])
  | skip {offset : Nat} {c : Char} {rest : List Char} {result : Except Error (List Token)} :
      isBlank c = true → c ≠ '\n' →
      LongestMatch (offset + c.utf8Size) rest result → LongestMatch offset (c :: rest) result
  | newline {offset : Nat} {rest : List Char} {result : Except Error (List Token)} :
      LongestMatch (offset + 1) rest result →
      LongestMatch offset ('\n' :: rest) (result.map (⟨"\n", .newline, offset + 1⟩ :: ·))
  | take {offset : Nat} {kind : Kind} {text rest : List Char}
      {result : Except Error (List Token)} : Takes kind text rest →
      LongestMatch (offset + byteLength text) rest result →
      LongestMatch offset (text ++ rest)
        (result.map (⟨String.ofList text, kind, offset + byteLength text⟩ :: ·))
  | unterminated {offset : Nat} {rest : List Char} : '"' ∉ rest →
      LongestMatch offset ('"' :: rest)
        (.error (.unterminatedString ⟨offset, offset + byteLength ('"' :: rest)⟩))
  | unrecognized {offset : Nat} {c : Char} {rest : List Char} : StartsSymbol c →
      (∀ entry ∈ operators, ¬ entry.1.toList <+: c :: rest) →
      LongestMatch offset (c :: rest)
        (.error (.unrecognizedCharacter c ⟨offset, offset + c.utf8Size⟩))

/-! ## The tables -/

theorem lookup_of_mem {table : List (String × Kind)} (hdistinct : (table.map Prod.fst).Nodup)
    {word : String} {kind : Kind} (h : (word, kind) ∈ table) : table.lookup word = some kind := by
  obtain ⟨before, after, rfl⟩ := List.append_of_mem h
  rw [List.map_append, List.map_cons, List.nodup_append] at hdistinct
  refine List.lookup_eq_some_iff.mpr ⟨before, after, rfl, ?_⟩
  intro entry hentry
  have hne : entry.1 ≠ word := hdistinct.2.2 _ (List.mem_map_of_mem hentry) _ List.mem_cons_self
  simpa using Ne.symm hne

theorem operator_eq_some_iff {symbol : String} {kind : Kind} :
    operator? symbol = some kind ↔ (symbol, kind) ∈ operators :=
  ⟨mem_of_lookup, lookup_of_mem (by decide)⟩

/-- The kind of a word by the table is the one that the lexer looks up. -/
theorem wordKind_iff {word : String} {kind : Kind} :
    WordKind word kind ↔ (keyword? word).getD .identifier = kind := by
  have hmem : ∀ {k : Kind}, (word, k) ∈ keywords → keyword? word = some k :=
    lookup_of_mem (by decide)
  constructor
  · rintro (hkeyword | ⟨rfl, hnone⟩)
    · rw [hmem hkeyword]
      rfl
    · cases hword : keyword? word with
      | none => rfl
      | some k => exact absurd (mem_of_lookup hword) (hnone k)
  · intro h
    cases hword : keyword? word with
    | none =>
        rw [hword] at h
        refine .inr ⟨h.symm, fun k hk => ?_⟩
        rw [hmem hk] at hword
        exact absurd hword (by simp)
    | some k =>
        rw [hword] at h
        exact .inl (h ▸ mem_of_lookup hword)

/-- No symbol but `//` opens a comment. -/
theorem comment_symbol {symbol : String} (h : (symbol, .comment) ∈ operators) : symbol = "//" := by
  have hall : ∀ entry ∈ operators, entry.2 = .comment → entry.1 = "//" := by decide
  exact hall _ h rfl

/-! ## Numbers -/

theorem numberTail_digits (pointSeen : Bool) (digits rest : List Char)
    (h : ∀ c ∈ digits, c.isDigit = true) :
    numberTail pointSeen (digits ++ rest) = digits.length + numberTail pointSeen rest := by
  induction digits with
  | nil => simp
  | cons c digits ih =>
      obtain ⟨hc, hdigits⟩ := List.forall_mem_cons.mp h
      rw [List.cons_append, numberTail, if_pos hc, ih hdigits, List.length_cons]
      omega

/-- A number that a text starts with is taken whole. -/
theorem NumberText.length_le {text : List Char} (h : NumberText text) (rest : List Char) :
    text.length ≤ numberTail false (text ++ rest) := by
  cases h with
  | whole _ hall =>
      rw [numberTail_digits false text rest hall]
      exact Nat.le_add_right _ _
  | @point digits fraction _ hall hfraction =>
      have hpoint : numberTail false ('.' :: (fraction ++ rest)) =
          numberTail true (fraction ++ rest) + 1 := rfl
      rw [List.append_assoc, numberTail_digits false digits _ hall, List.cons_append, hpoint,
        numberTail_digits true fraction rest hfraction, List.length_append, List.length_cons]
      omega

/-- The lexer takes the longest number. -/
theorem longest_number {c : Char} (hdigit : c.isDigit = true) (rest : List Char) :
    Longest NumberText (c :: rest.take (numberTail false rest))
      (rest.drop (numberTail false rest)) := by
  obtain ⟨hle, hnumber⟩ := numberText_numberTail [c] rest (by simp) (by simpa using hdigit)
  refine ⟨hnumber, fun other hother hP => ?_⟩
  obtain ⟨after, hafter⟩ := hother
  have htail : numberTail false (other ++ after) = numberTail false rest + 1 := by
    rw [hafter, List.cons_append, List.take_append_drop, numberTail, if_pos hdigit]
  have hlength := hP.length_le after
  rw [htail] at hlength
  rw [List.length_cons, List.length_take, Nat.min_eq_left hle]
  exact hlength

/-! ## Symbols -/

theorem isPartialOperator_of_prefix {symbol : List Char} (h : Symbol symbol) {front : List Char}
    (hfront : front <+: symbol) :
    isPartialOperator (String.ofList front) = true := by
  obtain ⟨kind, hmem⟩ := h
  refine List.any_eq_true.mpr ⟨_, hmem, ?_⟩
  rw [String.toList_ofList, String.toList_ofList]
  exact List.isPrefixOf_iff_prefix.mpr hfront

/-- Characters that could become a symbol, one after the other, are all taken. -/
theorem munch_append {taken cs : List Char} (rest : List Char)
    (h : ∀ front, front <+: cs → isPartialOperator (String.ofList (taken ++ front)) = true) :
    taken ++ cs <+: munch taken (cs ++ rest) := by
  induction cs generalizing taken with
  | nil =>
      obtain ⟨n, hn⟩ := munch_eq_take taken rest
      rw [List.append_nil, List.nil_append, hn]
      exact List.prefix_append _ _
  | cons c cs ih =>
      have hc : isPartialOperator (String.ofList (taken ++ [c])) = true := h [c] ⟨cs, rfl⟩
      have hcs : ∀ front, front <+: cs →
          isPartialOperator (String.ofList (taken ++ [c] ++ front)) = true := by
        intro front hfront
        rw [List.append_assoc]
        exact h (c :: front) ((List.cons_prefix_cons).mpr ⟨rfl, hfront⟩)
      have hmunch := ih hcs
      rw [List.append_assoc] at hmunch
      rw [List.cons_append, munch, if_pos hc]
      exact hmunch

/-- A symbol that a text starts with is taken on the way to the end of it, and maybe beyond. -/
theorem prefix_munch {symbol cs : List Char} (h : Symbol symbol) (hcs : symbol <+: cs) :
    symbol <+: munch [] cs := by
  obtain ⟨rest, rfl⟩ := hcs
  have hmunch : [] ++ symbol <+: munch [] (symbol ++ rest) :=
    munch_append rest fun front hfront => isPartialOperator_of_prefix h hfront
  exact hmunch

/-- A symbol among the characters taken is found, or a longer one is. -/
theorem exists_longestOperator {symbol taken : List Char} (h : Symbol symbol)
    (htaken : symbol <+: taken) :
    ∃ found, longestOperator taken taken.length = some found ∧ symbol.length ≤ found.more + 1 := by
  obtain ⟨kind, hmem⟩ := h
  have hoperator : operator? (String.ofList (taken.take symbol.length)) = some kind := by
    rw [← List.prefix_iff_eq_take.mp htaken]
    exact operator_eq_some_iff.mpr hmem
  have hpos : symbol ≠ [] := ne_nil_of_operator (operator_eq_some_iff.mpr hmem)
  -- the search goes down from all characters taken, and the symbol lies on its way
  have hsearch : ∀ length, symbol.length ≤ length →
      ∃ found, longestOperator taken length = some found ∧ symbol.length ≤ found.more + 1 := by
    intro length hle
    induction length with
    | zero => exact absurd (List.length_eq_zero_iff.mp (Nat.le_zero.mp hle)) hpos
    | succ length ih =>
        rw [longestOperator]
        rcases Nat.lt_or_ge length symbol.length with hlt | hge
        · have heq : length + 1 = symbol.length := by omega
          rw [heq, hoperator]
          exact ⟨⟨kind, length⟩, rfl, by omega⟩
        · split
          · exact ⟨_, rfl, by dsimp only; omega⟩
          · exact ih hge
  exact hsearch taken.length htaken.length_le

/-- The lexer takes the longest symbol, with the kind that the table gives it. -/
theorem longest_symbol {c : Char} {rest : List Char} {found : Lexeme}
    (h : longestOperator (munch [] (c :: rest)) (munch [] (c :: rest)).length = some found) :
    Longest Symbol (c :: rest.take found.more) (rest.drop found.more)
      ∧ (String.ofList (c :: rest.take found.more), found.kind) ∈ operators := by
  obtain ⟨hle, hoperator⟩ := longestOperator_munch h
  have hmem := operator_eq_some_iff.mp hoperator
  refine ⟨⟨⟨_, hmem⟩, fun other hother hsymbol => ?_⟩, hmem⟩
  rw [List.cons_append, List.take_append_drop] at hother
  obtain ⟨found', hfound', hlength⟩ := exists_longestOperator hsymbol (prefix_munch hsymbol hother)
  rw [h] at hfound'
  injection hfound' with hfound'
  rw [List.length_cons, List.length_take, Nat.min_eq_left hle, hfound']
  exact hlength

/-- If it finds none, the text starts with none. -/
theorem not_prefix_of_none {c : Char} {rest : List Char}
    (h : longestOperator (munch [] (c :: rest)) (munch [] (c :: rest)).length = none) :
    ∀ entry ∈ operators, ¬ entry.1.toList <+: c :: rest := by
  intro entry hentry hprefix
  have hsymbol : Symbol entry.1.toList := ⟨entry.2, by rw [String.ofList_toList]; exact hentry⟩
  obtain ⟨found, hfound, -⟩ := exists_longestOperator hsymbol (prefix_munch hsymbol hprefix)
  rw [h] at hfound
  exact absurd hfound (by simp)

/-- A longest symbol is the one that is found. -/
theorem longestOperator_of_longest {kind : Kind} {c : Char} {tail rest : List Char}
    (h : Longest Symbol (c :: tail) rest) (hmem : (String.ofList (c :: tail), kind) ∈ operators) :
    longestOperator (munch [] (c :: (tail ++ rest))) (munch [] (c :: (tail ++ rest))).length =
      some ⟨kind, tail.length⟩ := by
  obtain ⟨⟨kind', more⟩, hfound, -⟩ :=
    exists_longestOperator h.mem (prefix_munch h.mem (List.prefix_append (c :: tail) rest))
  rw [List.cons_append] at hfound
  obtain ⟨hlongest, hmem'⟩ := longest_symbol hfound
  obtain ⟨hle, -⟩ := longestOperator_munch hfound
  have htail : c :: tail = c :: (tail ++ rest).take more :=
    h.unique hlongest (by rw [List.cons_append, List.cons_append, List.take_append_drop])
  have hmore : tail.length = more := by
    have hlength := congrArg List.length htail
    rw [List.length_cons, List.length_cons, List.length_take, Nat.min_eq_left hle] at hlength
    exact Nat.succ.inj hlength
  have hkind : some kind = some kind' := by
    rw [← operator_eq_some_iff.mpr hmem, htail, operator_eq_some_iff.mpr hmem']
  rw [hfound, hmore, Option.some.inj hkind]

/-! ## First characters -/

/-- Words start with letters and underscores, by code points. -/
theorem isWordStart_iff {c : Char} : isWordStart c = true ↔
    65 ≤ c.toNat ∧ c.toNat ≤ 90 ∨ 97 ≤ c.toNat ∧ c.toNat ≤ 122 ∨ c.toNat = 95 := by
  have hupper : c.isUpper = true ↔ 65 ≤ c.toNat ∧ c.toNat ≤ 90 := by
    show decide (c.val ≥ 'A'.val ∧ c.val ≤ 'Z'.val) = true ↔ _
    exact decide_eq_true_iff
  have hlower : c.isLower = true ↔ 97 ≤ c.toNat ∧ c.toNat ≤ 122 := by
    show (decide (c.val ≥ 'a'.val) && decide (c.val ≤ 'z'.val)) = true ↔ _
    rw [Bool.and_eq_true, decide_eq_true_iff, decide_eq_true_iff]
    exact Iff.rfl
  have hunderscore : (c == '_') = true ↔ c.toNat = 95 := by
    rw [beq_iff_eq, ← Char.toNat_inj]
    exact Iff.rfl
  show ((c.isUpper || c.isLower) || c == '_') = true ↔ _
  rw [Bool.or_eq_true, Bool.or_eq_true, hupper, hlower, hunderscore, or_assoc]

theorem isWordPart_iff {c : Char} :
    isWordPart c = true ↔ isWordStart c = true ∨ c.isDigit = true := by
  show ((c.isAlpha || c.isDigit) || c == '_') = true ↔ (c.isAlpha || c == '_') = true ∨ _
  rw [Bool.or_eq_true, Bool.or_eq_true, Bool.or_eq_true]
  exact or_right_comm

theorem isWordStart_of_isDigit {c : Char} (h : c.isDigit = true) : isWordStart c = false := by
  have hcode : 48 ≤ c.toNat ∧ c.toNat ≤ 57 := Char.isDigit_iff_toNat.mp h
  rw [Bool.eq_false_iff, ne_eq, isWordStart_iff]
  omega

/-- No blank is part of a word. -/
theorem isBlank_of_isWordPart {c : Char} (h : isWordPart c = true) : isBlank c = false := by
  have hcode : isWordStart c = true ∨ 48 ≤ c.toNat ∧ c.toNat ≤ 57 :=
    (isWordPart_iff.mp h).imp_right Char.isDigit_iff_toNat.mp
  rw [isWordStart_iff] at hcode
  simp only [isBlank, Text.blankRanges, List.any_cons, List.any_nil, Bool.or_false,
    Bool.or_eq_false_iff, Bool.and_eq_false_iff, decide_eq_false_iff_not]
  omega

/-- The first character chooses the class. -/
theorem first_cases {c : Char} (h : isBlank c = false) :
    isWordStart c = true ∨ c.isDigit = true ∨ c = '"' ∨ StartsSymbol c := by
  cases hword : isWordStart c with
  | true => exact .inl rfl
  | false =>
      cases hdigit : c.isDigit with
      | true => exact .inr (.inl rfl)
      | false =>
          by_cases hquote : c = '"'
          · exact .inr (.inr (.inl hquote))
          · exact .inr (.inr (.inr ⟨h, hword, hdigit, hquote⟩))

/-- The lexer takes the longest word. -/
theorem longest_word {c : Char} {rest : List Char} (h : isWordStart c = true) :
    Longest WordText (c :: rest.takeWhile isWordPart) (rest.dropWhile isWordPart) := by
  have hpart : isWordPart c = true := isWordPart_iff.mpr (.inl h)
  have hall := longest_takeWhile isWordPart (c :: rest)
  rw [List.takeWhile_cons_of_pos hpart, List.dropWhile_cons_of_pos hpart] at hall
  exact hall

/-! ## One lexeme -/

theorem lexeme_word {offset : Nat} {c : Char} {rest : List Char} (h : isWordStart c = true) :
    lexeme offset c rest =
      .ok ⟨(keyword? (String.ofList (c :: rest.takeWhile isWordPart))).getD .identifier,
      (rest.takeWhile isWordPart).length⟩ := if_pos h

theorem lexeme_number {offset : Nat} {c : Char} {rest : List Char} (h : c.isDigit = true) :
    lexeme offset c rest = .ok ⟨.number, numberTail false rest⟩ := by
  rw [lexeme, if_neg (by simp [isWordStart_of_isDigit h]), if_pos h]

theorem lexeme_symbol {offset : Nat} {c : Char} {rest : List Char} {found : Lexeme}
    (h : StartsSymbol c) (hfound : operatorLexeme? c rest = some found) :
    lexeme offset c rest = .ok found := by
  obtain ⟨-, hword, hdigit, hquote⟩ := h
  rw [lexeme, if_neg (by simp [hword]), if_neg (by simp [hdigit]),
    if_neg (by simpa using hquote), hfound]

theorem lexeme_unrecognized {offset : Nat} {c : Char} {rest : List Char} (h : StartsSymbol c)
    (hnone : operatorLexeme? c rest = none) :
    lexeme offset c rest = .error (.unrecognizedCharacter c ⟨offset, offset + c.utf8Size⟩) := by
  obtain ⟨-, hword, hdigit, hquote⟩ := h
  rw [lexeme, if_neg (by simp [hword]), if_neg (by simp [hdigit]),
    if_neg (by simpa using hquote), hnone]

/-- The characters of a text up to the first `stop`, where there is one or the text ends. -/
theorem takeWhile_bne {stop : Char} {line rest : List Char} (hline : stop ∉ line)
    (hrest : ∀ c ∈ rest.head?, c = stop) :
    (line ++ rest).takeWhile (· != stop) = line := by
  have hall : ∀ c ∈ line, (c != stop) = true := by
    intro c hc
    rw [bne_iff_ne]
    exact fun heq => hline (heq ▸ hc)
  rw [List.takeWhile_append_of_pos hall]
  cases rest with
  | nil => simp
  | cons c rest =>
      have hc : c = stop := hrest c rfl
      rw [List.takeWhile_cons_of_neg (by simp [hc]), List.append_nil]

theorem lexeme_text {offset : Nat} {inner rest : List Char} (h : '"' ∉ inner) :
    lexeme offset '"' (inner ++ '"' :: rest) = .ok ⟨.text, inner.length + 1⟩ := by
  have hinner : (inner ++ '"' :: rest).takeWhile (· != '"') = inner :=
    takeWhile_bne h (fun c hc => (Option.some.inj hc).symm)
  rw [lexeme, if_neg (by decide), if_neg (by decide), if_pos (by decide)]
  dsimp only
  rw [hinner, List.drop_left]

theorem lexeme_unterminated {offset : Nat} {rest : List Char} (h : '"' ∉ rest) :
    lexeme offset '"' rest =
      .error (.unterminatedString ⟨offset, offset + byteLength ('"' :: rest)⟩) := by
  have hrest : rest.takeWhile (· != '"') = rest := by
    have hall : (rest ++ []).takeWhile (· != '"') = rest :=
      takeWhile_bne h (fun c hc => absurd hc (by simp))
    rwa [List.append_nil] at hall
  rw [lexeme, if_neg (by decide), if_neg (by decide), if_pos (by decide)]
  dsimp only
  rw [hrest, List.drop_length]

/-- Where an operator is looked for and found, the rules take it. -/
theorem takes_of_operatorLexeme {c : Char} {rest : List Char} {kind : Kind} {more : Nat}
    (hstarts : StartsSymbol c) (h : operatorLexeme? c rest = some ⟨kind, more⟩) :
    Takes kind (c :: rest.take more) (rest.drop more) := by
  unfold operatorLexeme? at h
  dsimp only at h
  split at h
  · rename_i before hfound
    injection h with h
    injection h with hkind hmore
    subst hkind hmore
    obtain ⟨hlongest, hmem⟩ := longest_symbol hfound
    have hopening : c :: rest.take before = ['/', '/'] := by
      have htext := congrArg String.toList (comment_symbol hmem)
      rwa [String.toList_ofList] at htext
    obtain ⟨rfl, hslash⟩ := List.cons.inj hopening
    dsimp only at hlongest
    rw [hslash] at hlongest
    -- the line behind the two slashes is taken too
    have htake : rest.take (before + ((rest.drop before).takeWhile (· != '\n')).length)
        = '/' :: (rest.drop before).takeWhile (· != '\n') := by
      rw [List.take_add, take_takeWhile, hslash]
      rfl
    have hdrop : rest.drop (before + ((rest.drop before).takeWhile (· != '\n')).length)
        = (rest.drop before).dropWhile (· != '\n') := by
      rw [← List.drop_drop, drop_takeWhile]
    rw [htake, hdrop]
    refine .comment ?_ (not_mem_takeWhile_bne _ _) ?_
    · rw [List.takeWhile_append_dropWhile]
      exact hlongest
    · intro d hd
      have hstop := List.head?_dropWhile_not (· != '\n') (rest.drop before)
      rw [Option.mem_def.mp hd] at hstop
      simpa using hstop
  · rename_i hcomment
    obtain ⟨hlongest, hmem⟩ := longest_symbol h
    refine .symbol hstarts hlongest hmem ?_
    intro hslashes
    -- two slashes would have been the beginning of a comment
    have hkind : some Kind.comment = some kind := by
      rw [← operator_eq_some_iff.mpr hmem, hslashes]
      rfl
    rw [← Option.some.inj hkind] at h
    exact hcomment more h

/-- Where an operator is looked for in vain, no symbol stands at the front. -/
theorem not_prefix_of_operatorLexeme {c : Char} {rest : List Char}
    (h : operatorLexeme? c rest = none) :
    ∀ entry ∈ operators, ¬ entry.1.toList <+: c :: rest := by
  unfold operatorLexeme? at h
  dsimp only at h
  split at h
  · exact absurd h (by simp)
  · exact not_prefix_of_none h

theorem operatorLexeme_of_longest {kind : Kind} {c : Char} {tail rest : List Char}
    (h : Longest Symbol (c :: tail) rest) (hmem : (String.ofList (c :: tail), kind) ∈ operators)
    (hne : c :: tail ≠ ['/', '/']) :
    operatorLexeme? c (tail ++ rest) = some ⟨kind, tail.length⟩ := by
  have hkind : kind ≠ .comment := by
    rintro rfl
    have htext := congrArg String.toList (comment_symbol hmem)
    rw [String.toList_ofList] at htext
    exact hne htext
  unfold operatorLexeme?
  dsimp only
  rw [longestOperator_of_longest h hmem]
  cases kind <;> first | rfl | exact absurd rfl hkind

theorem operatorLexeme_comment {line rest : List Char}
    (h : Longest Symbol ['/', '/'] (line ++ rest)) (hline : '\n' ∉ line)
    (hrest : ∀ c ∈ rest.head?, c = '\n') :
    operatorLexeme? '/' ('/' :: (line ++ rest)) = some ⟨.comment, line.length + 1⟩ := by
  have hfound :
      longestOperator (munch [] ('/' :: '/' :: (line ++ rest)))
        (munch [] ('/' :: '/' :: (line ++ rest))).length
      = some ⟨.comment, 1⟩ := longestOperator_of_longest h (by decide)
  unfold operatorLexeme?
  dsimp only
  rw [hfound]
  dsimp only
  rw [List.drop_succ_cons, List.drop_zero, takeWhile_bne hline hrest, Nat.add_comm]

theorem operatorLexeme_none {c : Char} {rest : List Char}
    (h : ∀ entry ∈ operators, ¬ entry.1.toList <+: c :: rest) :
    operatorLexeme? c rest = none := by
  have hnone : longestOperator (munch [] (c :: rest)) (munch [] (c :: rest)).length = none := by
    cases hfound : longestOperator (munch [] (c :: rest)) (munch [] (c :: rest)).length with
    | none => rfl
    | some found =>
        obtain ⟨-, hmem⟩ := longest_symbol hfound
        refine absurd ?_ (h _ hmem)
        rw [String.toList_ofList, List.cons_prefix_cons]
        exact ⟨rfl, List.take_prefix _ _⟩
  unfold operatorLexeme?
  dsimp only
  rw [hnone]

/-- What the rules take is the lexeme that the lexer finds. -/
theorem lexeme_of_takes {kind : Kind} {text rest : List Char} (h : Takes kind text rest)
    (offset : Nat) :
    ∃ c tail, text = c :: tail ∧ isBlank c = false ∧
      lexeme offset c (tail ++ rest) = .ok ⟨kind, tail.length⟩ := by
  cases h with
  | @word _ c tail _ hstart hlongest hkind =>
      refine ⟨c, tail, rfl, isBlank_of_isWordPart (isWordPart_iff.mpr (.inl hstart)), ?_⟩
      have htail : c :: tail = c :: (tail ++ rest).takeWhile isWordPart :=
        hlongest.unique (longest_word hstart)
          (by rw [List.cons_append, List.cons_append, List.takeWhile_append_dropWhile])
      rw [lexeme_word hstart, ← htail, wordKind_iff.mp hkind, ← (List.cons.inj htail).2]
  | @number c tail _ hdigit hlongest =>
      refine ⟨c, tail, rfl, isBlank_of_isWordPart (isWordPart_iff.mpr (.inr hdigit)), ?_⟩
      have htail : c :: tail = c :: (tail ++ rest).take (numberTail false (tail ++ rest)) :=
        hlongest.unique (longest_number hdigit _)
          (by rw [List.cons_append, List.cons_append, List.take_append_drop])
      have hle := (numberText_numberTail [c] (tail ++ rest) (by simp) (by simpa using hdigit)).1
      have hlength := congrArg List.length htail
      rw [List.length_cons, List.length_cons, List.length_take, Nat.min_eq_left hle] at hlength
      rw [lexeme_number hdigit, Nat.succ.inj hlength]
  | @text inner _ hinner =>
      refine ⟨'"', inner ++ ['"'], rfl, by decide, ?_⟩
      rw [List.append_assoc, List.singleton_append, lexeme_text hinner, List.length_append]
      rfl
  | @symbol _ c tail _ hstarts hlongest hmem hne =>
      exact ⟨c, tail, rfl, hstarts.not_blank,
        lexeme_symbol hstarts (operatorLexeme_of_longest hlongest hmem hne)⟩
  | @comment line _ hlongest hline hrest =>
      have hslash : StartsSymbol '/' := ⟨by decide, by decide, by decide, by decide⟩
      exact ⟨'/', '/' :: line, rfl, hslash.not_blank,
        lexeme_symbol hslash (operatorLexeme_comment hlongest hline hrest)⟩

/-! ## Whole texts -/

/-- The lexer gives the tokens or the error that the rules give, behind the tokens that it has
already. -/
theorem lexFrom_of_longestMatch {offset : Nat} {cs : List Char}
    {result : Except Error (List Token)} (h : LongestMatch offset cs result)
    (tokens : Array Token) :
    (lexFrom tokens offset cs).map Array.toList = result.map (tokens.toList ++ ·) := by
  induction h generalizing tokens with
  | done =>
      rw [lexFrom]
      simp [Except.map]
  | @skip offset c rest result hblank hne _ ih =>
      rw [lexFrom, if_neg (by simpa using hne), if_pos hblank]
      exact ih tokens
  | @newline offset rest result _ ih =>
      rw [lexFrom, if_pos (by decide), ih]
      cases result <;> simp [Except.map]
  | @take offset kind text rest result htakes _ ih =>
      obtain ⟨c, tail, rfl, hblank, hlexeme⟩ := lexeme_of_takes htakes offset
      have hne : c ≠ '\n' := by
        rintro rfl
        exact absurd hblank (by decide)
      rw [List.cons_append, lexFrom, if_neg (by simpa using hne),
        if_neg (by simp [hblank]), hlexeme]
      dsimp only
      rw [List.take_left, List.drop_left, ih]
      cases result <;> simp [Except.map]
  | @unterminated offset rest hrest =>
      rw [lexFrom, if_neg (by decide), if_neg (by decide), lexeme_unterminated hrest]
      rfl
  | @unrecognized offset c rest hstarts hnone =>
      have hne : c ≠ '\n' := by
        rintro rfl
        exact absurd hstarts.not_blank (by decide)
      rw [lexFrom, if_neg (by simpa using hne), if_neg (by simp [hstarts.not_blank]),
        lexeme_unrecognized hstarts (operatorLexeme_none hnone)]
      rfl

/-- At a character that is no blank the rules take a token, or there is one of the two errors. -/
theorem takes_or_stuck {c : Char} (rest : List Char) (h : isBlank c = false) :
    (∃ kind text more, c :: rest = text ++ more ∧ text ≠ [] ∧ Takes kind text more)
      ∨ c = '"' ∧ '"' ∉ rest
      ∨ StartsSymbol c ∧ ∀ entry ∈ operators, ¬ entry.1.toList <+: c :: rest := by
  rcases first_cases h with hword | hdigit | rfl | hsymbol
  · refine .inl ⟨_, c :: rest.takeWhile isWordPart, rest.dropWhile isWordPart, ?_,
      List.cons_ne_nil _ _, .word hword (longest_word hword) (wordKind_iff.mpr rfl)⟩
    rw [List.cons_append, List.takeWhile_append_dropWhile]
  · refine .inl ⟨_, _, _, ?_, List.cons_ne_nil _ _, .number hdigit (longest_number hdigit rest)⟩
    rw [List.cons_append, List.take_append_drop]
  · by_cases hquote : '"' ∈ rest
    · obtain ⟨inner, after, rfl, hinner⟩ := List.eq_append_cons_of_mem hquote
      exact .inl ⟨_, _, after, by simp, List.cons_ne_nil _ _, .text hinner⟩
    · exact .inr (.inl ⟨rfl, hquote⟩)
  · cases hfound : operatorLexeme? c rest with
    | none => exact .inr (.inr ⟨hsymbol, not_prefix_of_operatorLexeme hfound⟩)
    | some found =>
        refine .inl ⟨_, _, _, ?_, List.cons_ne_nil _ _, takes_of_operatorLexeme hsymbol hfound⟩
        rw [List.cons_append, List.take_append_drop]

/-- The rules apply to every text. -/
theorem exists_longestMatch (offset : Nat) (cs : List Char) :
    ∃ result, LongestMatch offset cs result := by
  match cs with
  | [] => exact ⟨_, .done⟩
  | c :: rest =>
      by_cases hnewline : c = '\n'
      · subst hnewline
        obtain ⟨result, h⟩ := exists_longestMatch (offset + 1) rest
        exact ⟨_, .newline h⟩
      · cases hblank : isBlank c with
        | true =>
            obtain ⟨result, h⟩ := exists_longestMatch (offset + c.utf8Size) rest
            exact ⟨_, .skip hblank hnewline h⟩
        | false =>
            rcases takes_or_stuck rest hblank with ⟨kind, text, more, hcs, htext, htakes⟩ | ⟨rfl,
              hrest⟩ | ⟨hstarts, hnone⟩
            · have hshorter : more.length < rest.length + 1 := by
                have hlength := congrArg List.length hcs
                have hpos := List.length_pos_iff.mpr htext
                rw [List.length_cons, List.length_append] at hlength
                omega
              obtain ⟨result, h⟩ := exists_longestMatch (offset + byteLength text) more
              rw [hcs]
              exact ⟨_, .take htakes h⟩
            · exact ⟨_, .unterminated hrest⟩
            · exact ⟨_, .unrecognized hstarts hnone⟩
termination_by cs.length

/-! ## Sources that are cut short -/

/-- A token is taken all the same if the source ends somewhere behind it. -/
theorem Takes.truncate {kind : Kind} {text rest more : List Char}
    (h : Takes kind text (rest ++ more)) :
    Takes kind text rest := by
  generalize hall : rest ++ more = all at h
  cases h with
  | word hstart hlongest hkind => exact .word hstart (hall ▸ hlongest).truncate hkind
  | number hdigit hlongest => exact .number hdigit (hall ▸ hlongest).truncate
  | text hinner => exact .text hinner
  | symbol hstarts hlongest hmem hne => exact .symbol hstarts (hall ▸ hlongest).truncate hmem hne
  | @comment line _ hlongest hline hrest =>
      subst hall
      rw [← List.append_assoc] at hlongest
      refine .comment hlongest.truncate hline ?_
      intro c hc
      refine hrest c ?_
      rw [Option.mem_def] at hc ⊢
      rw [List.head?_append, hc]
      rfl

theorem eq_error_of_map {f : List Token → List Token} {result : Except Error (List Token)}
    {e : Error} (h : result.map f = .error e) : result = .error e := by
  cases result with
  | ok ts => exact absurd h (by simp [Except.map])
  | error e' => exact h

/-- Up to a character that is not recognized, a text has tokens and no error. -/
theorem LongestMatch.before_unrecognized {offset : Nat} {cs : List Char}
    {result : Except Error (List Token)} {c : Char} {span : Span}
    (h : LongestMatch offset cs result)
    (hresult : result = .error (.unrecognizedCharacter c span)) :
    ∃ before after ts, cs = before ++ c :: after ∧ span.start = offset + byteLength before
      ∧ LongestMatch offset before (.ok ts) := by
  induction h with
  | done => exact absurd hresult (by simp)
  | @skip offset d rest result hblank hne _ ih =>
      obtain ⟨before, after, ts, rfl, hstart, hbefore⟩ := ih hresult
      refine ⟨d :: before, after, ts, rfl, ?_, .skip hblank hne hbefore⟩
      rw [hstart, byteLength_cons, Nat.add_assoc]
  | @newline offset rest result _ ih =>
      obtain ⟨before, after, ts, rfl, hstart, hbefore⟩ := ih (eq_error_of_map hresult)
      refine ⟨'\n' :: before, after, _, rfl, ?_, .newline hbefore⟩
      rw [hstart, byteLength_cons, Nat.add_assoc]
      rfl
  | @take offset kind text rest result htakes _ ih =>
      obtain ⟨before, after, ts, rfl, hstart, hbefore⟩ := ih (eq_error_of_map hresult)
      refine ⟨text ++ before, after, _, (List.append_assoc _ _ _).symm, ?_,
        .take htakes.truncate hbefore⟩
      rw [hstart, byteLength_append, Nat.add_assoc]
  | unterminated _ => exact absurd hresult (by simp)
  | @unrecognized offset d rest _ _ =>
      injection hresult with hresult
      injection hresult with hd hspan
      subst hd hspan
      exact ⟨[], rest, _, rfl, rfl, .done⟩

end Lexer

theorem lex_eq_of_longestMatch {source : String} {result : Except Error (List Token)}
    (h : Lexer.LongestMatch 0 source.toList result) : lex source = result := by
  refine (Lexer.lexFrom_of_longestMatch h #[]).trans ?_
  cases result <;> rfl

/--
**The lexer is longest-match tokenisation.**

Whatever a source is, the lexer gives precisely the tokens, or the error, that the rules of
`LongestMatch` give to it. If it stops at a character that is not recognized, the part of the
source before that character has tokens.
-/
theorem lex_longest_match (source : String) :
    (∀ result, lex source = result ↔ Lexer.LongestMatch 0 source.toList result)
    ∧ ∀ c span, lex source = .error (.unrecognizedCharacter c span) →
        ∃ before after : String, source = before ++ after ∧ before.utf8ByteSize = span.start
          ∧ ∃ ts, lex before = .ok ts := by
  have hrules : ∀ result, lex source = result ↔ Lexer.LongestMatch 0 source.toList result := by
    intro result
    refine ⟨fun h => ?_, lex_eq_of_longestMatch⟩
    obtain ⟨result', hmatch⟩ := Lexer.exists_longestMatch 0 source.toList
    rw [← h, lex_eq_of_longestMatch hmatch]
    exact hmatch
  refine ⟨hrules, fun c span h => ?_⟩
  obtain ⟨before, after, ts, hsource, hstart, hbefore⟩ := ((hrules _).mp h).before_unrecognized rfl
  refine ⟨String.ofList before, String.ofList (c :: after), ?_, ?_, ts, ?_⟩
  · rw [← String.ofList_append, ← hsource, String.ofList_toList]
  · rw [Text.utf8ByteSize_ofList, hstart, Nat.zero_add]
  · refine lex_eq_of_longestMatch ?_
    rw [String.toList_ofList]
    exact hbefore

end Pseudocode
