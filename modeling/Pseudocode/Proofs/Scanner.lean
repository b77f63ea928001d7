import Pseudocode.Proofs.LongestMatch

/-!
# The lexer as a machine

The lexer is given by what it cuts off at each place. Here the same is done by a machine that reads
a table of the source's characters one entry at a time. It has a mode, which says what the
characters that it is taking will become, and it leaves an entry unread when that ends a token, so
that it reads the entry again as the start of the next one. Of an operator it may have taken too
many characters. It then goes back to the entry behind the last of them that it keeps.

A step reads entries by their index, and an index may be out of range. The machine comes to the
tokens, or to the error, that the lexer gives (`scans_iff_lexFrom`). As it always comes to one of
them, none of its steps reads out of range (`Scans.step_ne_outOfRange`).
-/

namespace Pseudocode.Lexer

open Text (isBlank isWordStart isWordPart byteLength)

/-! ## The machine -/

/-- What the characters being taken are part of. -/
inductive Mode where
  | idle
  | word
  | number
  | symbol
  | comment
  | text

/-- The mode for what starts with this character. -/
def Mode.ofFirst (c : Char) : Mode :=
  if isWordStart c then .word else if c.isDigit then .number
    else if c == '"' then .text else .symbol

/-- A place in the table, what is being taken there, and the tokens made so far. -/
structure Scanner where
  /-- The index of the entry that is read next. -/
  pos : Nat
  mode : Mode
  /-- The characters that were taken since the last token. -/
  pending : List Char
  /-- The index of the first of them. -/
  start : Nat
  tokens : Array Token

/-- What a step of the machine leads to. -/
inductive Move where
  | to (s : Scanner)
  | refused (e : Error)
  /-- An entry is asked for that the table does not have. -/
  | outOfRange

/-- Each character with the byte at which it stands, and a newline behind the last one. -/
def entriesFrom (offset : Nat) : List Char → List (Nat × Char)
  | [] => [(offset, '\n')]
  | c :: rest => (offset, c) :: entriesFrom (offset + c.utf8Size) rest

/-- The table of a source. -/
def entries (source : String) : List (Nat × Char) := entriesFrom 0 source.toList

/-- Goes on with an entry of the table. -/
def readAt (source : String) (index : Nat) (next : Nat → Char → Move) : Move :=
  match (entries source)[index]? with
  | some (offset, c) => next offset c
  | none => .outOfRange

namespace Scanner

/-- The machine at the beginning of a source. -/
def initial : Scanner := ⟨0, .idle, [], 0, #[]⟩

/-- Takes characters. -/
def taken (s : Scanner) (cs : List Char) : Scanner :=
  { s with pos := s.pos + cs.length, pending := s.pending ++ cs }

/-- Makes a token of the characters that were taken. -/
def emit (s : Scanner) (kind : Kind) (stop : Nat) : Scanner :=
  { s with
    tokens := s.tokens.push ⟨String.ofList s.pending, kind, stop⟩
    pending := []
    mode := .idle }

/-- Gives back characters up to the last `keep` of them or fewer that are an operator. -/
def backOff (source : String) (s : Scanner) : Nat → Move
  | 0 => readAt source s.start fun offset c =>
      .refused (.unrecognizedCharacter c ⟨offset, offset + c.utf8Size⟩)
  | keep + 1 =>
    let kept : Scanner :=
      { s with pending := s.pending.take (keep + 1), pos := s.start + (keep + 1) }
    match operator? (String.ofList kept.pending) with
    | some kind =>
      if kind = .comment then .to { kept with mode := .comment }
      else readAt source kept.pos fun stop _ => .to (kept.emit kind stop)
    | none => backOff source s keep

/-- A character after those of an operator. -/
def readSymbol (source : String) (s : Scanner) (offset : Nat) (c : Char) : Move :=
  if isPartialOperator (String.ofList (s.pending ++ [c])) then .to (s.taken [c])
  else if s.pending.isEmpty then .refused (.unrecognizedCharacter c ⟨offset, offset + c.utf8Size⟩)
  else
    match operator? (String.ofList s.pending) with
    | some kind =>
      if kind = .comment then .to { s with mode := .comment } else .to (s.emit kind offset)
    | none => s.backOff source (s.pending.length - 1)

/-- The character behind the last one of the source is being read. -/
def AtEnd (source : String) (s : Scanner) : Prop := s.pos + 1 = (entries source).length

instance (source : String) (s : Scanner) : Decidable (s.AtEnd source) :=
  inferInstanceAs (Decidable (_ = _))

/-- What the machine does with the character that it reads. -/
def read (source : String) (s : Scanner) (offset : Nat) (c : Char) : Move :=
  match s.mode with
  | .idle =>
    if c == '\n' then
      let text := if s.AtEnd source then "" else "\n"
      .to { s with
        pos := s.pos + 1
        tokens := s.tokens.push ⟨text, .newline, offset + text.utf8ByteSize⟩ }
    else if isBlank c then .to { s with pos := s.pos + 1 }
    else .to { s with mode := .ofFirst c, start := s.pos }
  | .word =>
    if isWordPart c then .to (s.taken [c])
    else .to (s.emit ((keyword? (String.ofList s.pending)).getD .identifier) offset)
  | .number =>
    if c.isDigit || (c == '.' && !s.pending.contains '.') then .to (s.taken [c])
    else .to (s.emit .number offset)
  | .symbol => s.readSymbol source offset c
  | .comment => if c == '\n' then .to (s.emit .comment offset) else .to (s.taken [c])
  | .text =>
    if s.pending.isEmpty then .to (s.taken [c])
    else if s.AtEnd source then
      readAt source s.start fun start _ =>
        .refused (.unterminatedString ⟨start, source.utf8ByteSize⟩)
    else if c == '"' then .to ((s.taken [c]).emit .text (offset + 1))
    else .to (s.taken [c])

/-- One step of the machine. -/
def step (source : String) (s : Scanner) : Move := readAt source s.pos (s.read source)

/-- There is an entry left to read. -/
def Running (source : String) (s : Scanner) : Prop := s.pos < (entries source).length

instance (source : String) (s : Scanner) : Decidable (s.Running source) :=
  inferInstanceAs (Decidable (_ < _))

/-- The machine comes to this state while it works. -/
inductive Reaches (source : String) : Scanner → Scanner → Prop where
  | refl (s : Scanner) : Reaches source s s
  | head {s s' s'' : Scanner} : s.Running source → s.step source = .to s' → Reaches source s' s'' →
      Reaches source s s''

/-- What the machine comes to in the end: tokens when no entry is left, or an error. -/
inductive Scans (source : String) : Scanner → Except Error (Array Token) → Prop where
  | done {s : Scanner} : ¬ s.Running source →
      Scans source s (.ok (s.tokens.push (Token.endAt source.utf8ByteSize)))
  | refused {s : Scanner} {e : Error} :
      s.Running source → s.step source = .refused e → Scans source s (.error e)
  | step {s s' : Scanner} {result : Except Error (Array Token)} :
      s.Running source → s.step source = .to s' → Scans source s' result → Scans source s result

end Scanner

/-! ## What the table holds -/

/-- Behind a front part, the table is that of the rest. -/
theorem entriesFrom_drop (offset : Nat) (front rest : List Char) :
    (entriesFrom offset (front ++ rest)).drop front.length =
      entriesFrom (offset + byteLength front) rest := by
  induction front generalizing offset with
  | nil => simp
  | cons c front ih =>
      rw [List.cons_append, entriesFrom, List.length_cons, List.drop_succ_cons, ih,
        Text.byteLength_cons, Nat.add_assoc]

theorem length_entriesFrom (offset : Nat) (cs : List Char) :
    (entriesFrom offset cs).length = cs.length + 1 := by
  induction cs generalizing offset with
  | nil => rfl
  | cons c cs ih => rw [entriesFrom, List.length_cons, List.length_cons, ih]

/-- At this index of the table begin the entries of `cs`, the first of which is at byte
`offset`. -/
def Sees (source : String) (index offset : Nat) (cs : List Char) : Prop :=
  ∃ front, source.toList = front ++ cs ∧ index = front.length ∧ offset = byteLength front

namespace Sees

variable {source : String} {index offset : Nat} {cs : List Char}

theorem start (source : String) : Sees source 0 0 source.toList := ⟨[], rfl, rfl, rfl⟩

/-- Further on in the table, less is seen. -/
theorem drop {front : List Char} (h : Sees source index offset (front ++ cs)) :
    Sees source (index + front.length) (offset + byteLength front) cs := by
  obtain ⟨before, hsource, rfl, rfl⟩ := h
  exact ⟨before ++ front, by rw [hsource, List.append_assoc], by rw [List.length_append],
    by rw [Text.byteLength_append]⟩

theorem tail {c : Char} (h : Sees source index offset (c :: cs)) :
    Sees source (index + [c].length) (offset + byteLength [c]) cs :=
  drop (show Sees source index offset ([c] ++ cs) from h)

theorem length (h : Sees source index offset cs) :
    (entries source).length = index + cs.length + 1 := by
  obtain ⟨before, hsource, rfl, rfl⟩ := h
  rw [entries, length_entriesFrom, hsource, List.length_append]

/-- The bytes before and those of the characters that are seen are all. -/
theorem bytes (h : Sees source index offset cs) :
    source.utf8ByteSize = offset + byteLength cs := by
  obtain ⟨before, hsource, rfl, rfl⟩ := h
  rw [← byteLength_toList, hsource, Text.byteLength_append]

/-- The entry there is the first of the characters, or the newline behind the last. -/
theorem entry (h : Sees source index offset cs) :
    (entries source)[index]? = some (offset, cs.headD '\n') := by
  obtain ⟨before, hsource, rfl, rfl⟩ := h
  have hdrop := entriesFrom_drop 0 before cs
  rw [← hsource, Nat.zero_add] at hdrop
  rw [← Nat.add_zero before.length, ← List.getElem?_drop]
  unfold entries
  rw [hdrop]
  cases cs <;> rfl

theorem readAt (h : Sees source index offset cs) (next : Nat → Char → Move) :
    Lexer.readAt source index next = next offset (cs.headD '\n') := by
  unfold Lexer.readAt
  rw [h.entry]

end Sees

namespace Scanner

variable {source : String} {s : Scanner} {offset : Nat} {cs : List Char}
  {result : Except Error (Array Token)}

theorem running_of_sees (h : Sees source s.pos offset cs) : s.Running source := by
  have := h.length
  unfold Running
  omega

theorem atEnd_iff (h : Sees source s.pos offset cs) : s.AtEnd source ↔ cs = [] := by
  have := h.length
  unfold AtEnd
  rw [← List.length_eq_zero_iff]
  omega

theorem step_of_sees (h : Sees source s.pos offset cs) :
    s.step source = s.read source offset (cs.headD '\n') :=
  h.readAt _

/-! ## Taking characters -/

@[simp] theorem taken_nil (s : Scanner) : s.taken [] = s := by
  simp [taken]

@[simp] theorem taken_taken (s : Scanner) (front rest : List Char) :
    (s.taken front).taken rest = s.taken (front ++ rest) := by
  simp [taken, Nat.add_assoc]

theorem sees_taken {front : List Char} (h : Sees source s.pos offset (front ++ cs)) :
    Sees source (s.taken front).pos (offset + byteLength front) cs := h.drop

/-- Characters that the machine takes one by one it has then taken all. -/
theorem scans_of_taken {front : List Char} (h : Sees source s.pos offset (front ++ cs))
    (hread : ∀ before c after, front = before ++ c :: after →
      ∀ start, ¬ (s.taken before).AtEnd source →
      (s.taken before).read source start c = .to (s.taken (before ++ [c])))
    (hnext : Scans source (s.taken front) result) : Scans source s result := by
  induction front generalizing s offset with
  | nil => rwa [taken_nil] at hnext
  | cons c front ih =>
      have hmore : ¬ s.AtEnd source := by
        rw [atEnd_iff h]
        simp
      have hstep : s.step source = .to (s.taken [c]) := by
        rw [step_of_sees h]
        simpa using hread [] c front rfl offset (by simpa using hmore)
      refine .step (running_of_sees h) hstep (ih (sees_taken h) ?_ ?_)
      · intro before d after hfront start hend
        rw [taken_taken] at hend ⊢
        rw [taken_taken]
        exact hread (c :: before) d after (by rw [hfront, List.cons_append]) start hend
      · rwa [taken_taken]

/-- The character at which taking stops. -/
theorem headD_dropWhile (p : Char → Bool) (cs : List Char) (last : Char) (hlast : p last = false) :
    p ((cs.dropWhile p).headD last) = false := by
  induction cs with
  | nil => exact hlast
  | cons c cs ih =>
      rw [List.dropWhile_cons]
      split
      · exact ih
      · rename_i hc
        simpa using hc

theorem of_takeWhile {p : Char → Bool} {before after : List Char} {c : Char}
    (h : cs.takeWhile p = before ++ c :: after) :
    p c = true :=
  List.all_eq_true.mp List.all_takeWhile c (by rw [h]; simp)

/-! ## Words, comments and texts -/

theorem read_word (hmode : s.mode = .word) (start : Nat) (c : Char) :
    s.read source start c = if isWordPart c then .to (s.taken [c])
      else .to (s.emit ((keyword? (String.ofList s.pending)).getD .identifier) start) := by
  unfold read
  rw [hmode]

/-- The machine takes a word to its end, and makes a token of it. -/
theorem scans_word (h : Sees source s.pos offset cs) (hmode : s.mode = .word)
    (hnext : Scans source ((s.taken (cs.takeWhile isWordPart)).emit
      ((keyword? (String.ofList (s.pending ++ cs.takeWhile isWordPart))).getD .identifier)
      (offset + byteLength (cs.takeWhile isWordPart))) result) : Scans source s result := by
  rw [← List.takeWhile_append_dropWhile (p := isWordPart) (l := cs)] at h
  refine scans_of_taken h ?_ (.step (running_of_sees (sees_taken h)) ?_ hnext)
  · intro before c after hfront start _
    rw [read_word (s := s.taken before) hmode, if_pos (of_takeWhile hfront), taken_taken]
  · have hstop := headD_dropWhile isWordPart cs '\n' (by decide)
    rw [step_of_sees (sees_taken h), read_word (s := s.taken _) hmode,
      if_neg (by rw [hstop]; decide)]
    rfl

theorem read_comment (hmode : s.mode = .comment) (start : Nat) (c : Char) :
    s.read source start c = if c == '\n' then .to (s.emit .comment start)
      else .to (s.taken [c]) := by
  unfold read
  rw [hmode]

/-- The machine takes a comment to the end of its line. -/
theorem scans_comment (h : Sees source s.pos offset cs) (hmode : s.mode = .comment)
    (hnext : Scans source ((s.taken (cs.takeWhile (· != '\n'))).emit .comment
      (offset + byteLength (cs.takeWhile (· != '\n')))) result) : Scans source s result := by
  rw [← List.takeWhile_append_dropWhile (p := (· != '\n')) (l := cs)] at h
  refine scans_of_taken h ?_ (.step (running_of_sees (sees_taken h)) ?_ hnext)
  · intro before c after hfront start _
    have hc : (c == '\n') = false := by simpa using of_takeWhile hfront
    rw [read_comment (s := s.taken before) hmode, hc, taken_taken]
    rfl
  · have hstop : ((cs.dropWhile (· != '\n')).headD '\n' == '\n') = true := by
      simpa using headD_dropWhile (· != '\n') cs '\n' (by decide)
    rw [step_of_sees (sees_taken h), read_comment (s := s.taken _) hmode, hstop]
    rfl

theorem read_text (hmode : s.mode = .text) (hpending : s.pending ≠ []) (start : Nat) (c : Char) :
    s.read source start c =
      if s.AtEnd source then
        readAt source s.start fun start _ =>
          .refused (.unterminatedString ⟨start, source.utf8ByteSize⟩)
      else if c == '"' then .to ((s.taken [c]).emit .text (start + 1))
      else .to (s.taken [c]) := by
  unfold read
  rw [hmode]
  simp [hpending]

/-- The machine takes the first quote of a text, and then all characters that are no quotes. -/
theorem scans_opened {inner rest : List Char}
    (h : Sees source s.pos offset ('"' :: inner ++ rest)) (hmode : s.mode = .text)
    (hpending : s.pending = []) (hinner : '"' ∉ inner)
    (hnext : Scans source (s.taken ('"' :: inner)) result) :
    Scans source s result := by
  refine scans_of_taken h ?_ hnext
  intro before c after hfront start hmore
  cases before with
  | nil =>
      injection hfront with hc
      subst hc
      rw [taken_nil, read, hmode]
      simp [hpending]
  | cons quote before =>
      injection hfront with hquote hfront
      have hc : (c == '"') = false := by
        rw [beq_eq_false_iff_ne]
        rintro rfl
        exact hinner (by rw [hfront]; simp)
      rw [read_text (s := s.taken (quote :: before)) hmode (by simp [taken]), if_neg hmore,
        hc, taken_taken]
      rfl

/-- A text that is closed ends with its second quote. -/
theorem scans_text {inner rest : List Char}
    (h : Sees source s.pos offset ('"' :: inner ++ '"' :: rest)) (hmode : s.mode = .text)
    (hpending : s.pending = []) (hinner : '"' ∉ inner)
    (hnext :
      Scans source ((s.taken ('"' :: inner ++ ['"'])).emit .text
        (offset + byteLength ('"' :: inner ++ ['"']))) result) :
    Scans source s result := by
  have hsees := sees_taken h
  refine scans_opened h hmode hpending hinner (.step (running_of_sees hsees) ?_ hnext)
  rw [step_of_sees hsees, read_text (s := s.taken _) hmode (by simp [taken]),
    if_neg (by simp [atEnd_iff hsees]), Text.byteLength_append, ← Nat.add_assoc, ← taken_taken]
  rfl

/-- A text that is not closed is refused at the end of the source. -/
theorem scans_unterminated (h : Sees source s.pos offset ('"' :: cs)) (hmode : s.mode = .text)
    (hstart : s.start = s.pos) (hpending : s.pending = []) (hcs : '"' ∉ cs) :
    Scans source s (.error (.unterminatedString ⟨offset, offset + byteLength ('"' :: cs)⟩)) := by
  have hall : Sees source s.pos offset ('"' :: cs ++ []) := by rwa [List.append_nil]
  have hsees := sees_taken hall
  refine scans_opened hall hmode hpending hcs (.refused (running_of_sees hsees) ?_)
  rw [step_of_sees hsees, read_text (s := s.taken _) hmode (by simp [taken]),
    if_pos ((atEnd_iff hsees).mpr rfl), ← h.bytes]
  rw [← hstart] at h
  exact h.readAt _

/-! ## Numbers -/

theorem read_number (hmode : s.mode = .number) (start : Nat) (c : Char) :
    s.read source start c = if c.isDigit || (c == '.' && !s.pending.contains '.') then
      .to (s.taken [c])
      else .to (s.emit .number start) := by
  unfold read
  rw [hmode]

/-- The digits and the point that the machine takes are those that go on a number. Whether there
was a point can be seen from the characters taken before. -/
theorem scans_number (h : Sees source s.pos offset cs) (hmode : s.mode = .number)
    {pointSeen : Bool} (hpoint : s.pending.contains '.' = pointSeen)
    (hnext :
      Scans source ((s.taken (cs.take (numberTail pointSeen cs))).emit .number
        (offset + byteLength (cs.take (numberTail pointSeen cs)))) result) :
    Scans source s result := by
  induction cs generalizing s offset pointSeen with
  | nil =>
      have hstep : s.step source = .to (s.emit .number offset) := by
        rw [step_of_sees h, read_number hmode]
        rfl
      exact .step (running_of_sees h) hstep (by simpa using hnext)
  | cons c cs ih =>
      have hstep : s.step source = if c.isDigit || (c == '.' && !pointSeen) then .to (s.taken [c])
          else .to (s.emit .number offset) := by
        rw [step_of_sees h, read_number hmode, hpoint]
        rfl
      -- a character that goes on the number is taken, and the rest of the number follows
      have hgoes : ∀ seen, (s.taken [c]).pending.contains '.' = seen →
          s.step source = .to (s.taken [c]) →
          numberTail pointSeen (c :: cs) = numberTail seen cs + 1 → Scans source s result := by
        intro seen hseen hstep hcount
        refine .step (running_of_sees h) hstep (ih h.tail hmode hseen ?_)
        rw [hcount, List.take_succ_cons, Text.byteLength_cons, ← Nat.add_assoc] at hnext
        rw [taken_taken]
        exact hnext
      by_cases hdigit : c.isDigit = true
      · have hne : c ≠ '.' := by
          rintro rfl
          exact absurd hdigit (by decide)
        refine hgoes pointSeen ?_ (by simpa [hdigit] using hstep) (by simp [numberTail, hdigit])
        simpa [taken, Ne.symm hne] using hpoint
      · by_cases hdot : c = '.' ∧ pointSeen = false
        · obtain ⟨rfl, rfl⟩ := hdot
          exact hgoes true (by simp [taken]) (by simpa using hstep) (by simp [numberTail])
        · have hcount : numberTail pointSeen (c :: cs) = 0 := by
            simp_all [numberTail]
          have hstop : s.step source = .to (s.emit .number offset) := by
            simp_all
          rw [hcount] at hnext
          exact .step (running_of_sees h) hstop (by simpa using hnext)

/-! ## Operators -/

/-- No operator holds a newline. -/
theorem isPartialOperator_newline (cs : List Char) :
    isPartialOperator (String.ofList (cs ++ ['\n'])) = false := by
  have hnone : ∀ entry ∈ operators, '\n' ∉ entry.1.toList := by decide
  rw [isPartialOperator, List.any_eq_false]
  intro entry hentry hstarts
  rw [String.toList_ofList, List.isPrefixOf_iff_prefix] at hstarts
  exact hnone entry hentry (hstarts.subset (by simp))

/-- Characters are taken for an operator as long as each of them may belong to it, and no
longer. -/
theorem munch_split (before cs : List Char) :
    ∃ front rest, cs = front ++ rest ∧ munch before cs = before ++ front
    ∧ (∀ some c more, front = some ++ c :: more →
      isPartialOperator (String.ofList (before ++ some ++ [c])) = true)
    ∧ isPartialOperator (String.ofList (before ++ front ++ [rest.headD '\n'])) = false := by
  induction cs generalizing before with
  | nil =>
      refine ⟨[], [], rfl, by simp [munch], by simp, ?_⟩
      simpa using isPartialOperator_newline before
  | cons c cs ih =>
      by_cases hc : isPartialOperator (String.ofList (before ++ [c])) = true
      · obtain ⟨front, rest, hcs, hmunch, hall, hstop⟩ := ih (before ++ [c])
        refine ⟨c :: front, rest, by rw [hcs, List.cons_append], ?_, ?_, by simpa using hstop⟩
        · rw [munch, if_pos hc, hmunch]
          simp
        · intro some d more heq
          cases some with
          | nil =>
              injection heq with heq
              simpa [← heq] using hc
          | cons _ some =>
              injection heq with hhead htail
              subst hhead
              simpa using hall some d more htail
      · refine ⟨[], c :: cs, rfl, ?_, by simp, by simpa using hc⟩
        rw [munch, if_neg hc, List.append_nil]

/-- Where the machine is when it has decided what the characters taken for an operator, or the
first of them, are. -/
def settled (s : Scanner) (offset : Nat) (c : Char) (front : List Char) : Option Lexeme → Move
  | none => .refused (.unrecognizedCharacter c ⟨offset, offset + c.utf8Size⟩)
  | some ⟨kind, more⟩ =>
    if kind = .comment then .to { s.taken (front.take (more + 1)) with mode := .comment }
    else
      .to ((s.taken (front.take (more + 1))).emit kind
        (offset + byteLength (front.take (more + 1))))

/-- Giving back characters finds the longest operator among fewer of them. -/
theorem backOff_taken {c : Char} {front rest : List Char}
    (h : Sees source s.pos offset (c :: cs)) (hcs : c :: cs = front ++ rest)
    (hstart : s.start = s.pos) (hpending : s.pending = []) {keep : Nat}
    (hkeep : keep ≤ front.length) :
    (s.taken front).backOff source keep =
      s.settled offset c front (longestOperator front keep) := by
  induction keep with
  | zero =>
      rw [← hstart] at h
      exact h.readAt _
  | succ keep ih =>
      have hkept : { s.taken front with
            pending := (s.taken front).pending.take (keep + 1)
            pos := (s.taken front).start + (keep + 1) } =
          s.taken (front.take (keep + 1)) := by
        simp [taken, hstart, hpending, Nat.min_eq_left hkeep]
      have hsees :
          Sees source (s.taken (front.take (keep + 1))).pos
            (offset + byteLength (front.take (keep + 1)))
          (front.drop (keep + 1) ++ rest) := by
        refine sees_taken ?_
        rwa [← List.append_assoc, List.take_append_drop, ← hcs]
      rw [backOff, hkept, longestOperator]
      have htaken : (s.taken (front.take (keep + 1))).pending = front.take (keep + 1) := by
        simp [taken, hpending]
      rw [htaken]
      cases operator? (String.ofList (front.take (keep + 1))) with
      | none => exact ih (Nat.le_of_succ_le hkeep)
      | some kind =>
          dsimp only [settled]
          rw [hsees.readAt, htaken]

/-- When no more characters may belong to an operator, the longest operator among them is found. -/
theorem readSymbol_taken {c : Char} {front rest : List Char}
    (h : Sees source s.pos offset (c :: cs)) (hcs : c :: cs = front ++ rest)
    (hstart : s.start = s.pos) (hpending : s.pending = [])
    (hstop : isPartialOperator (String.ofList (front ++ [rest.headD '\n'])) = false) :
    (s.taken front).readSymbol source (offset + byteLength front) (rest.headD '\n') =
      s.settled offset c front (longestOperator front front.length) := by
  have htaken : (s.taken front).pending = front := by
    simp [taken, hpending]
  unfold readSymbol
  rw [htaken, hstop, if_neg (by decide)]
  cases hlength : front.length with
  | zero =>
      obtain rfl := List.length_eq_zero_iff.mp hlength
      rw [List.nil_append] at hcs
      simp [← hcs, settled, longestOperator]
  | succ keep =>
      have hne : front.isEmpty = false := by
        cases front <;> simp_all
      have hall : front.take (keep + 1) = front := List.take_of_length_le (Nat.le_of_eq hlength)
      rw [hne, if_neg (by decide), longestOperator, hall]
      cases operator? (String.ofList front) with
      | none => exact backOff_taken h hcs hstart hpending (by omega)
      | some kind =>
          dsimp only [settled]
          rw [hall, htaken]

/-- The machine takes what may belong to an operator, and then finds the longest operator among
that. -/
theorem exists_munched {c : Char} (h : Sees source s.pos offset (c :: cs))
    (hmode : s.mode = .symbol) (hstart : s.start = s.pos) (hpending : s.pending = []) :
    ∃ front rest, c :: cs = front ++ rest ∧ munch [] (c :: cs) = front ∧
      (s.taken front).Running source
      ∧ (s.taken front).step source = s.settled offset c front (longestOperator front front.length)
      ∧ ∀ result, Scans source (s.taken front) result → Scans source s result := by
  obtain ⟨front, rest, hcs, hmunch, hall, hstop⟩ := munch_split [] (c :: cs)
  rw [List.nil_append] at hmunch hstop
  have hread : ∀ before start d, (s.taken before).read source start d =
      (s.taken before).readSymbol source start d := by
    intro before start d
    unfold read
    rw [show (s.taken before).mode = .symbol from hmode]
  have hsees := h
  rw [hcs] at hsees
  refine ⟨front, rest, hcs, hmunch, running_of_sees (sees_taken hsees), ?_,
    fun result => scans_of_taken hsees ?_⟩
  · rw [step_of_sees (sees_taken hsees), hread]
    exact readSymbol_taken h hcs hstart hpending hstop
  · intro before d after hfront start _
    have hpartial := hall before d after hfront
    rw [hread, readSymbol, if_pos (by simpa [taken, hpending] using hpartial), taken_taken]

/-- The machine makes the token of an operator, or of a comment that an operator opens. -/
theorem scans_symbol {c : Char} {kind : Kind} {more : Nat}
    (h : Sees source s.pos offset (c :: cs)) (hmode : s.mode = .symbol)
    (hstart : s.start = s.pos) (hpending : s.pending = [])
    (hlexeme : operatorLexeme? c cs = some ⟨kind, more⟩)
    (hnext :
      Scans source ((s.taken (c :: cs.take more)).emit kind
        (offset + byteLength (c :: cs.take more))) result) :
    Scans source s result := by
  obtain ⟨front, rest, hcs, hmunch, hrunning, hstep, hscans⟩ :=
    exists_munched h hmode hstart hpending
  unfold operatorLexeme? at hlexeme
  rw [hmunch] at hlexeme
  dsimp only at hlexeme
  cases hfound : longestOperator front front.length with
  | none =>
      rw [hfound] at hlexeme
      exact nomatch hlexeme
  | some found =>
      obtain ⟨kind', more'⟩ := found
      have hshort : front.take (more' + 1) = c :: cs.take more' := by
        obtain ⟨hlt, -⟩ := longestOperator_eq_some hfound
        rw [← List.take_succ_cons, hcs, List.take_append_of_le_length hlt]
      rw [hfound, settled, hshort] at hstep
      rw [hfound] at hlexeme
      by_cases hcomment : kind' = .comment
      · -- the rest of the line is taken into the comment
        subst hcomment
        injection hlexeme with hlexeme
        injection hlexeme with hkind hmore
        subst hkind hmore
        rw [if_pos rfl] at hstep
        have hsees :
            Sees source (s.taken (c :: cs.take more')).pos
              (offset + byteLength (c :: cs.take more'))
            (cs.drop more') := by
          refine sees_taken ?_
          rwa [List.cons_append, List.take_append_drop]
        refine hscans result (.step hrunning hstep (scans_comment hsees rfl ?_))
        rw [List.take_add, take_takeWhile, ← List.cons_append, Text.byteLength_append,
          ← Nat.add_assoc, ← taken_taken] at hnext
        exact hnext
      · rw [if_neg hcomment] at hstep
        split at hlexeme
        · rename_i heq
          injection heq with heq
          injection heq with heq
          exact absurd heq hcomment
        · injection hlexeme with hlexeme
          injection hlexeme with hkind hmore
          subst hkind hmore
          exact hscans result (.step hrunning hstep hnext)

/-- A character that no operator starts with is refused. -/
theorem scans_unrecognized {c : Char} (h : Sees source s.pos offset (c :: cs))
    (hmode : s.mode = .symbol) (hstart : s.start = s.pos) (hpending : s.pending = [])
    (hlexeme : operatorLexeme? c cs = none) :
    Scans source s (.error (.unrecognizedCharacter c ⟨offset, offset + c.utf8Size⟩)) := by
  obtain ⟨front, rest, hcs, hmunch, hrunning, hstep, hscans⟩ :=
    exists_munched h hmode hstart hpending
  have hnone : longestOperator front front.length = none := by
    unfold operatorLexeme? at hlexeme
    rw [hmunch] at hlexeme
    dsimp only at hlexeme
    split at hlexeme
    · exact nomatch hlexeme
    · exact hlexeme
  rw [hnone] at hstep
  exact hscans _ (.refused hrunning hstep)

/-! ## Lexemes -/

/-- What starts at a character that is no blank becomes the token that the lexer cuts off there.
Where the lexer is stuck, the machine refuses the source for the same reason. -/
theorem scans_lexeme {c : Char} (h : Sees source s.pos offset (c :: cs))
    (hblank : isBlank c = false) (hmode : s.mode = .ofFirst c) (hstart : s.start = s.pos)
    (hpending : s.pending = []) (hstuck : ∀ e, lexeme offset c cs = .error e → result = .error e)
    (hnext : ∀ kind more, lexeme offset c cs = .ok ⟨kind, more⟩ →
      Scans source ((s.taken (c :: cs.take more)).emit kind
        (offset + byteLength (c :: cs.take more))) result) :
    Scans source s result := by
  unfold Mode.ofFirst at hmode
  rcases first_cases hblank with hword | hdigit | rfl | hsymbol
  · rw [if_pos hword] at hmode
    have hscans := hnext _ _ (lexeme_word hword)
    rw [take_takeWhile] at hscans
    refine scans_word h hmode ?_
    rwa [List.takeWhile_cons_of_pos (isWordPart_iff.mpr (.inl hword)), hpending, List.nil_append]
  · rw [if_neg (by simp [isWordStart_of_isDigit hdigit]), if_pos hdigit] at hmode
    have hpoint : s.pending.contains '.' = false := by rw [hpending]; rfl
    refine scans_number h hmode hpoint ?_
    rw [numberTail, if_pos hdigit, List.take_succ_cons]
    exact hnext _ _ (lexeme_number hdigit)
  · replace hmode : s.mode = .text := hmode
    by_cases hquote : '"' ∈ cs
    · obtain ⟨inner, rest, rfl, hinner⟩ := List.eq_append_cons_of_mem hquote
      have hscans := hnext _ _ (lexeme_text hinner)
      refine scans_text h hmode hpending hinner ?_
      rwa [List.take_length_add_append] at hscans
    · rw [hstuck _ (lexeme_unterminated hquote)]
      exact scans_unterminated h hmode hstart hpending hquote
  · obtain ⟨-, hword, hdigit, hquote⟩ := id hsymbol
    rw [if_neg (by simp [hword]), if_neg (by simp [hdigit]),
      if_neg (by simpa using hquote)] at hmode
    cases hfound : operatorLexeme? c cs with
    | some found =>
        exact scans_symbol h hmode hstart hpending hfound
          (hnext _ _ (lexeme_symbol hsymbol hfound))
    | none =>
        rw [hstuck _ (lexeme_unrecognized hsymbol hfound)]
        exact scans_unrecognized h hmode hstart hpending hfound

/-! ## The machine and the lexer -/

/-- Between two tokens the machine makes a token of a newline, skips a blank, or enters the mode
for what starts there. -/
theorem read_idle (hmode : s.mode = .idle) (start : Nat) (c : Char) :
    s.read source start c =
      if c == '\n' then
        let text := if s.AtEnd source then "" else "\n"
        .to { s with
          pos := s.pos + 1
          tokens := s.tokens.push ⟨text, .newline, start + text.utf8ByteSize⟩ }
      else if isBlank c then .to { s with pos := s.pos + 1 }
      else .to { s with mode := .ofFirst c, start := s.pos } := by
  unfold read
  rw [hmode]

/-- From any place between two tokens the machine goes on as the lexer does. -/
theorem scans_lexFrom {tokens : Array Token} (h : Sees source s.pos offset cs)
    (hmode : s.mode = .idle) (hpending : s.pending = []) (htokens : s.tokens = tokens) :
    Scans source s (lexFrom tokens offset cs) := by
  induction tokens, offset, cs using lexFrom.induct generalizing s with
  | case1 tokens offset =>
      -- the newline behind the last character is an empty token
      have hend : s.AtEnd source := (atEnd_iff h).mpr rfl
      have hstep : s.step source =
          .to { s with pos := s.pos + 1, tokens := s.tokens.push ⟨"", .newline, offset⟩ } := by
        rw [step_of_sees h, read_idle hmode]
        simp [hend]
      rw [lexFrom, ← htokens]
      refine .step (running_of_sees h) hstep ?_
      have hbytes := h.bytes
      rw [Text.byteLength_nil, Nat.add_zero] at hbytes
      rw [← hbytes]
      refine .done ?_
      unfold Running
      unfold AtEnd at hend
      dsimp only
      omega
  | case2 tokens offset c rest hnewline ih =>
      obtain rfl : c = '\n' := by simpa using hnewline
      have hmore : ¬ s.AtEnd source := by simp [atEnd_iff h]
      have hstep : s.step source =
          .to { s with
            pos := s.pos + 1
            tokens := s.tokens.push ⟨"\n", .newline, offset + 1⟩ } := by
        rw [step_of_sees h, read_idle hmode, List.headD_cons, if_pos hnewline]
        dsimp only
        rw [if_neg hmore]
        rfl
      rw [lexFrom, if_pos hnewline, ← htokens]
      rw [← htokens] at ih
      exact .step (running_of_sees h) hstep (ih h.tail hmode hpending rfl)
  | case3 tokens offset c rest hnewline hblank ih =>
      have hstep : s.step source = .to { s with pos := s.pos + 1 } := by
        rw [step_of_sees h, read_idle hmode]
        simp_all
      rw [lexFrom, if_neg hnewline, if_pos hblank]
      exact .step (running_of_sees h) hstep (ih h.tail hmode hpending htokens)
  | case4 tokens offset c rest hnewline hblank e hlexeme =>
      have hstep : s.step source = .to { s with mode := .ofFirst c, start := s.pos } := by
        rw [step_of_sees h, read_idle hmode]
        simp_all
      rw [lexFrom, if_neg hnewline, if_neg hblank, hlexeme]
      refine .step (running_of_sees h) hstep
        (scans_lexeme h (by simpa using hblank) rfl rfl hpending ?_ ?_)
      · intro e' he
        rw [hlexeme] at he
        injection he with he
        rw [he]
      · intro kind more he
        rw [hlexeme] at he
        cases he
  | case5 tokens offset c rest hnewline hblank kind more hlexeme text stop =>
      rename_i ih
      have hstep : s.step source = .to { s with mode := .ofFirst c, start := s.pos } := by
        rw [step_of_sees h, read_idle hmode]
        simp_all
      rw [lexFrom, if_neg hnewline, if_neg hblank, hlexeme]
      refine .step (running_of_sees h) hstep
        (scans_lexeme h (by simpa using hblank) rfl rfl hpending ?_ ?_)
      · intro e he
        rw [hlexeme] at he
        cases he
      · intro kind' more' he
        rw [hlexeme] at he
        injection he with he
        injection he with hkind hmore
        subst hkind hmore
        have hsees : Sees source s.pos offset ((c :: rest.take more) ++ rest.drop more) := by
          rwa [List.cons_append, List.take_append_drop]
        refine ih hsees.drop rfl rfl ?_
        show s.tokens.push ⟨String.ofList (s.pending ++ text), kind, stop⟩ = _
        rw [hpending, htokens, List.nil_append]

/-- The machine comes to one result only. -/
theorem Scans.unique {result' : Except Error (Array Token)} (h : Scans source s result)
    (h' : Scans source s result') :
    result = result' := by
  induction h with
  | done hended =>
      cases h' with
      | done => rfl
      | refused hrunning | step hrunning => exact absurd hrunning hended
  | refused hrunning hstep =>
      cases h' with
      | done hended => exact absurd hrunning hended
      | refused _ hstep' =>
          rw [hstep] at hstep'
          injection hstep' with he
          rw [he]
      | step _ hstep' =>
          rw [hstep] at hstep'
          exact nomatch hstep'
  | step hrunning hstep _ ih =>
      cases h' with
      | done hended => exact absurd hrunning hended
      | refused _ hstep' =>
          rw [hstep] at hstep'
          exact nomatch hstep'
      | step _ hstep' hscans =>
          rw [hstep] at hstep'
          injection hstep' with hs
          exact ih (hs ▸ hscans)

/-- **The machine does what the lexer does.** -/
theorem scans_iff_lexFrom : Scans source initial result ↔
    lexFrom #[] 0 source.toList = result := by
  have hscans : Scans source initial (lexFrom #[] 0 source.toList) :=
    scans_lexFrom (.start source) rfl rfl rfl
  exact ⟨fun h => hscans.unique h, fun h => h ▸ hscans⟩

/-- A machine that comes to an end is never out of range on the way there. -/
theorem Scans.step_ne_outOfRange {s' : Scanner} (h : Scans source s result)
    (hreaches : Reaches source s s') (hrunning : s'.Running source) :
    s'.step source ≠ .outOfRange := by
  induction hreaches with
  | refl =>
      intro hstep
      cases h with
      | done hended => exact hended hrunning
      | refused _ hrefused => exact nomatch hstep.symm.trans hrefused
      | step _ hto => exact nomatch hstep.symm.trans hto
  | head hfirst hstep _ ih =>
      refine ih ?_ hrunning
      cases h with
      | done hended => exact absurd hfirst hended
      | refused _ hrefused => exact nomatch hstep.symm.trans hrefused
      | step _ hto hscans =>
          injection hstep.symm.trans hto with hs
          exact hs ▸ hscans

end Scanner

end Pseudocode.Lexer
