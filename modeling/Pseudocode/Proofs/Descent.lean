import Mathlib.Data.Prod.Lex
import Mathlib.Order.WellFounded
import Pseudocode.Proofs.Scanner

/-!
# Why the scanner comes to an end

The scanner has steps that read nothing, and one that goes back. What makes it come to an end is
the place where the token that it is at began. This place never goes back, and a token that is made
has at least one character, so that the next one begins further on. As long as the place stays the
same the mode changes at most twice, and as long as the mode stays the same too the cursor goes
forwards. `remaining` puts the three together.

That a token has a character needs an invariant. Behind the place where a token began, the machine
has taken exactly the characters up to its cursor, and when it has taken none, the next one is the
one that it chose its mode by (`Sound`). A step from such a state is one of six (`Turn`), and what
holds of all of them holds of a whole run.
-/

namespace Pseudocode.Lexer

open Text (isBlank isWordStart isWordPart byteLength)

/-! ## What is left to do -/

/-- How often the mode may still change before there is a token. Only an operator may turn out to
be a comment. -/
def Mode.changesLeft : Mode → Nat
  | .idle => 2
  | .word | .number | .symbol | .text => 1
  | .comment => 0

/-- The first character chooses a mode that may change once more. -/
theorem Mode.changesLeft_ofFirst (c : Char) : (Mode.ofFirst c).changesLeft = 1 := by
  unfold ofFirst
  repeat' split
  all_goals rfl

theorem Mode.ofFirst_ne {mode : Mode} (h : mode.changesLeft ≠ 1) (c : Char) :
    Mode.ofFirst c ≠ mode := by
  rintro rfl
  exact h (changesLeft_ofFirst c)

theorem Mode.isWordStart_of_ofFirst {c : Char} (h : ofFirst c = .word) : isWordStart c = true := by
  unfold ofFirst at h
  split at h
  · assumption
  · repeat' split at h
    all_goals cases h

theorem Mode.isDigit_of_ofFirst {c : Char} (h : ofFirst c = .number) : c.isDigit = true := by
  unfold ofFirst at h
  split at h
  · cases h
  · split at h
    · assumption
    · split at h <;> cases h

/-- The table has an entry for every character, and one more. -/
theorem exists_sees {source : String} {index : Nat} (h : index < (entries source).length) :
    ∃ offset cs, Sees source index offset cs := by
  rw [entries, length_entriesFrom] at h
  refine ⟨_, source.toList.drop index, source.toList.take index,
    (List.take_append_drop _ _).symm, ?_, rfl⟩
  rw [List.length_take_of_le (Nat.le_of_lt_succ h)]

namespace Scanner

variable {source : String} {s s' : Scanner} {offset : Nat} {rest : List Char}

/-- The index at which that begins of which there is no token yet. -/
def began (s : Scanner) : Nat :=
  match s.mode with
  | .idle => s.pos
  | _ => s.start

/-- The entries that no token was made of, then the changes of mode to come, and then the entries
that were not read. -/
def remaining (source : String) (s : Scanner) : ℕ ×ₗ ℕ ×ₗ ℕ :=
  toLex ((entries source).length - s.began,
    toLex (s.mode.changesLeft, (entries source).length - s.pos))

theorem began_of_idle (h : s.mode = .idle) : s.began = s.pos := by
  unfold began
  rw [h]

theorem began_of_ne_idle (h : s.mode ≠ .idle) : s.began = s.start := by
  unfold began
  cases hmode : s.mode
  case idle => exact absurd hmode h
  all_goals rfl

/-- Less is left where the place of the token has moved on. -/
theorem remaining_lt_of_began {i i' : Nat} (hi : s.began = i) (hi' : s'.began = i') (hlt : i < i')
    (hbound : i < (entries source).length) : s'.remaining source < s.remaining source := by
  subst hi hi'
  exact Prod.Lex.toLex_lt_toLex.mpr (.inl (by dsimp only; omega))

/-- Less is left in a later mode at the same place. -/
theorem remaining_lt_of_mode {i : Nat} (hi : s.began = i) (hi' : s'.began = i)
    (hlt : s'.mode.changesLeft < s.mode.changesLeft) :
    s'.remaining source < s.remaining source := by
  refine Prod.Lex.toLex_lt_toLex.mpr (.inr ⟨by rw [hi, hi'], ?_⟩)
  exact Prod.Lex.toLex_lt_toLex.mpr (.inl hlt)

/-- Less is left behind a character that was read in the same mode. -/
theorem remaining_lt_of_pos {i : Nat} (hi : s.began = i) (hi' : s'.began = i)
    (hmode : s'.mode = s.mode) (hlt : s.pos < s'.pos) (hbound : s.pos < (entries source).length) :
    s'.remaining source < s.remaining source := by
  refine Prod.Lex.toLex_lt_toLex.mpr (.inr ⟨by rw [hi, hi'], ?_⟩)
  exact Prod.Lex.toLex_lt_toLex.mpr (.inr ⟨by rw [hmode], by dsimp only; omega⟩)

/-! ## The invariant -/

/-- Inside a token: the characters from its first one up to the cursor were taken, and `rest` is
ahead. -/
structure Inside (source : String) (s : Scanner) (offset : Nat) (rest : List Char) : Prop where
  busy : s.mode ≠ .idle
  sees : Sees source s.start offset (s.pending ++ rest)
  pos : s.pos = s.start + s.pending.length
  entered : s.pending = [] → ∃ c more, rest = c :: more ∧ s.mode = .ofFirst c

/-- Between two tokens nothing is held back, and everywhere else the machine is inside a token. -/
structure Sound (source : String) (s : Scanner) : Prop where
  between : s.mode = .idle → s.pending = []
  inside : s.mode ≠ .idle → ∃ offset rest, s.Inside source offset rest

/-- At the beginning nothing is held back. -/
theorem sound_initial (source : String) : initial.Sound source :=
  ⟨fun _ => rfl, fun h => absurd rfl h⟩

theorem Inside.ahead (h : s.Inside source offset rest) :
    Sees source s.pos (offset + byteLength s.pending) rest := by
  rw [h.pos]
  exact h.sees.drop

/-- The character that chose the mode has been taken once another one stops it. -/
theorem Inside.pending_ne_nil (h : s.Inside source offset rest) {P : Char → Bool}
    (hfirst : ∀ c, s.mode = .ofFirst c → P c = true) (hstop : P (rest.headD '\n') = false) :
    s.pending ≠ [] := by
  intro hnil
  obtain ⟨c, more, rfl, hmode⟩ := h.entered hnil
  rw [List.headD_cons, hfirst c hmode] at hstop
  exact absurd hstop (by decide)

/-! ## What a step can do -/

/-- The machine with other characters taken since the token began. -/
def holding (s : Scanner) (text : List Char) : Scanner :=
  { s with pos := s.start + text.length, pending := text }

theorem Inside.holding_pending (h : s.Inside source offset rest) : s.holding s.pending = s := by
  unfold holding
  rw [← h.pos]

theorem Inside.taken_eq (h : s.Inside source offset rest) (c : Char) :
    s.taken [c] = s.holding (s.pending ++ [c]) := by
  unfold taken holding
  rw [h.pos, List.length_append, Nat.add_assoc]

/-- What a step can do: make a newline, skip a blank, enter a mode, take a character, make a token
of the first characters that were taken, or find that they open a comment. The last two may give
characters back. -/
inductive Turn (source : String) (s : Scanner) : Scanner → Prop where
  | newline {offset : Nat} {cs : List Char} {text : String} :
      s.mode = .idle → Sees source s.pos offset cs →
      text = (if cs = [] then "" else "\n") →
      Turn source s { s with
        pos := s.pos + 1
        tokens := s.tokens.push ⟨text, .newline, offset + text.utf8ByteSize⟩ }
  | blank : s.mode = .idle → Turn source s { s with pos := s.pos + 1 }
  | enter {offset : Nat} {c : Char} {cs : List Char} :
      s.mode = .idle → Sees source s.pos offset (c :: cs) →
      Turn source s { s with mode := .ofFirst c, start := s.pos }
  | take {offset : Nat} {c : Char} {rest : List Char} : s.Inside source offset (c :: rest) →
      Turn source s (s.holding (s.pending ++ [c]))
  | cut {offset : Nat} {text rest : List Char} {kind : Kind} : s.mode ≠ .idle →
      Sees source s.start offset (text ++ rest) → text ≠ [] →
      Turn source s ((s.holding text).emit kind (offset + byteLength text))
  | comment {offset : Nat} {text rest : List Char} :
      s.mode = .symbol → Sees source s.start offset (text ++ rest) →
      text ≠ [] → Turn source s { s.holding text with mode := .comment }

/-- A step goes on by a turn, or refuses the source. -/
def Proceeds (source : String) (s : Scanner) : Move → Prop
  | .to s' => Turn source s s'
  | .refused _ => True
  | .outOfRange => False

/-- Taking a character is a turn. -/
theorem Inside.proceeds_take (h : s.Inside source offset rest) (hrest : rest ≠ []) :
    Proceeds source s (.to (s.taken [rest.headD '\n'])) := by
  obtain ⟨c, more, rfl⟩ := List.exists_cons_of_ne_nil hrest
  rw [h.taken_eq]
  exact .take h

/-- Making a token of all that was taken is a turn. -/
theorem Inside.proceeds_emit (h : s.Inside source offset rest) (hpending : s.pending ≠ [])
    (kind : Kind) :
    Proceeds source s (.to (s.emit kind (offset + byteLength s.pending))) := by
  have hturn : Turn source s ((s.holding s.pending).emit kind (offset + byteLength s.pending)) :=
    .cut h.busy h.sees hpending
  rwa [h.holding_pending] at hturn

/-- Between tokens: a newline, a blank, or the first character of a token. -/
theorem proceeds_idle (hmode : s.mode = .idle) (hrunning : s.Running source) :
    Proceeds source s (s.step source) := by
  obtain ⟨offset, cs, hsees⟩ := exists_sees hrunning
  rw [step_of_sees hsees, read_idle hmode]
  by_cases hnewline : (cs.headD '\n' == '\n') = true
  · rw [if_pos hnewline]
    refine .newline hmode hsees ?_
    simp only [atEnd_iff hsees]
  · rw [if_neg hnewline]
    split
    · exact .blank hmode
    · cases cs with
      | nil => exact absurd rfl hnewline
      | cons c cs => exact .enter hmode hsees

theorem Inside.proceeds_word (h : s.Inside source offset rest) (hmode : s.mode = .word) :
    Proceeds source s (s.step source) := by
  rw [step_of_sees h.ahead, read_word hmode]
  split
  · rename_i hpart
    refine h.proceeds_take ?_
    rintro rfl
    exact absurd hpart (by decide)
  · rename_i hstop
    refine h.proceeds_emit (h.pending_ne_nil (fun c hc => ?_) (by simpa using hstop)) _
    exact isWordPart_iff.mpr (.inl (Mode.isWordStart_of_ofFirst (hc.symm.trans hmode)))

theorem Inside.proceeds_number (h : s.Inside source offset rest) (hmode : s.mode = .number) :
    Proceeds source s (s.step source) := by
  rw [step_of_sees h.ahead, read_number hmode]
  split
  · rename_i hpart
    refine h.proceeds_take ?_
    rintro rfl
    exact absurd hpart (by simp)
  · rename_i hstop
    refine h.proceeds_emit (h.pending_ne_nil (P := Char.isDigit) (fun c hc => ?_) ?_) _
    · exact Mode.isDigit_of_ofFirst (hc.symm.trans hmode)
    · simp_all

theorem Inside.proceeds_comment (h : s.Inside source offset rest) (hmode : s.mode = .comment) :
    Proceeds source s (s.step source) := by
  rw [step_of_sees h.ahead, read_comment hmode]
  split
  · refine h.proceeds_emit ?_ _
    intro hnil
    obtain ⟨c, more, -, hc⟩ := h.entered hnil
    exact Mode.ofFirst_ne (by decide) c (hc.symm.trans hmode)
  · rename_i hline
    refine h.proceeds_take ?_
    rintro rfl
    exact absurd rfl hline

/-- In a text literal: another character, the closing quote, or the end of the source, where it is
refused. -/
theorem Inside.proceeds_text (h : s.Inside source offset rest) (hmode : s.mode = .text) :
    Proceeds source s (s.step source) := by
  rw [step_of_sees h.ahead]
  by_cases hpending : s.pending = []
  · obtain ⟨c, more, rfl, -⟩ := h.entered hpending
    have hread : s.read source (offset + byteLength s.pending) c = .to (s.taken [c]) := by
      simp [read, hmode, hpending]
    rw [List.headD_cons, hread]
    exact h.proceeds_take (List.cons_ne_nil _ _)
  · rw [read_text hmode hpending]
    split
    · rw [h.sees.readAt]
      trivial
    · rename_i hmore
      rw [atEnd_iff h.ahead] at hmore
      split
      · -- the closing quote is taken and the token is made in the same step
        rename_i hquote
        obtain ⟨c, more, rfl⟩ := List.exists_cons_of_ne_nil hmore
        obtain rfl : c = '"' := by simpa using hquote
        have hturn : Turn source s ((s.holding (s.pending ++ ['"'])).emit .text
            (offset + byteLength (s.pending ++ ['"']))) :=
          .cut h.busy (by simpa using h.sees) (by simp)
        rw [← h.taken_eq, Text.byteLength_append, ← Nat.add_assoc] at hturn
        exact hturn
      · exact h.proceeds_take hmore

/-- The machine goes back to a character behind the first, and never to one that it has not
taken. -/
theorem Inside.proceeds_backOff (h : s.Inside source offset rest) (hmode : s.mode = .symbol)
    {keep : Nat} (hkeep : keep ≤ s.pending.length) :
    Proceeds source s (s.backOff source keep) := by
  induction keep with
  | zero =>
      rw [backOff, h.sees.readAt]
      trivial
  | succ keep ih =>
      have hlength : (s.pending.take (keep + 1)).length = keep + 1 := List.length_take_of_le hkeep
      have hne : s.pending.take (keep + 1) ≠ [] := List.ne_nil_of_length_eq_add_one hlength
      have hsees :
          Sees source s.start offset (s.pending.take (keep + 1)
            ++ (s.pending.drop (keep + 1) ++ rest)) := by
        rw [← List.append_assoc, List.take_append_drop]
        exact h.sees
      have hkept : { s with pending := s.pending.take (keep + 1), pos := s.start + (keep + 1) }
          = s.holding (s.pending.take (keep + 1)) := by
        unfold holding
        rw [hlength]
      rw [backOff, hkept]
      cases operator? (String.ofList (s.holding (s.pending.take (keep + 1))).pending) with
      | none => exact ih (Nat.le_of_succ_le hkeep)
      | some kind =>
          dsimp only
          split
          · exact .comment hmode hsees hne
          · have hpos : Sees source (s.holding (s.pending.take (keep + 1))).pos
                (offset + byteLength (s.pending.take (keep + 1)))
                (s.pending.drop (keep + 1) ++ rest) := hsees.drop
            rw [hpos.readAt]
            exact .cut h.busy hsees hne

/-- In an operator: another character, or what is found when none fits any more. -/
theorem Inside.proceeds_symbol (h : s.Inside source offset rest) (hmode : s.mode = .symbol) :
    Proceeds source s (s.step source) := by
  have hread : s.read source (offset + byteLength s.pending) (rest.headD '\n') =
      s.readSymbol source (offset + byteLength s.pending) (rest.headD '\n') := by
    unfold read
    rw [hmode]
  rw [step_of_sees h.ahead, hread, readSymbol]
  split
  · rename_i hpartial
    refine h.proceeds_take ?_
    rintro rfl
    rw [List.headD_nil, isPartialOperator_newline] at hpartial
    exact absurd hpartial (by decide)
  · split
    · trivial
    · rename_i hpending
      have hne : s.pending ≠ [] := by simpa using hpending
      cases operator? (String.ofList s.pending) with
      | none => exact h.proceeds_backOff hmode (Nat.sub_le _ _)
      | some kind =>
          dsimp only
          split
          · have hturn : Turn source s { s.holding s.pending with mode := .comment } :=
              .comment hmode h.sees hne
            rwa [h.holding_pending] at hturn
          · exact h.proceeds_emit hne kind

/-- **From a sound state every step is a turn or a refusal.** -/
theorem Sound.proceeds (h : s.Sound source) (hrunning : s.Running source) :
    Proceeds source s (s.step source) := by
  cases hmode : s.mode
  case idle => exact proceeds_idle hmode hrunning
  all_goals obtain ⟨offset, rest, hinside⟩ := h.inside (by rw [hmode]; exact Mode.noConfusion)
  case word => exact hinside.proceeds_word hmode
  case number => exact hinside.proceeds_number hmode
  case symbol => exact hinside.proceeds_symbol hmode
  case comment => exact hinside.proceeds_comment hmode
  case text => exact hinside.proceeds_text hmode

theorem Proceeds.cases : ∀ {move : Move}, Proceeds source s move →
    (∃ e, move = .refused e) ∨ ∃ s', move = .to s' ∧ Turn source s s'
  | .to s', h => .inr ⟨s', rfl, h⟩
  | .refused e, _ => .inl ⟨e, rfl⟩

theorem Sound.step_cases (h : s.Sound source) (hrunning : s.Running source) :
    (∃ e, s.step source = .refused e) ∨ ∃ s', s.step source = .to s' ∧ Turn source s s' :=
  (h.proceeds hrunning).cases

theorem Sound.turn (h : s.Sound source) (hrunning : s.Running source)
    (hstep : s.step source = .to s') :
    Turn source s s' := by
  have hproceeds := h.proceeds hrunning
  rwa [hstep] at hproceeds

/-! ## What every turn does -/

/-- A turn keeps the state sound. -/
theorem Turn.sound (h : Turn source s s') (hs : s.Sound source) : s'.Sound source := by
  cases h with
  | newline hmode => exact ⟨fun _ => hs.between hmode, fun hidle => absurd hmode hidle⟩
  | blank hmode => exact ⟨fun _ => hs.between hmode, fun hidle => absurd hmode hidle⟩
  | @enter offset c cs hmode hsees =>
      have hpending := hs.between hmode
      refine ⟨fun hidle => absurd hidle (Mode.ofFirst_ne (by decide) c),
        fun hbusy => ⟨offset, c :: cs, hbusy, ?_, ?_, ?_⟩⟩
      · dsimp only
        rwa [hpending]
      · dsimp only
        rw [hpending]
        rfl
      · exact fun _ => ⟨c, cs, rfl, rfl⟩
  | @take offset c rest hinside =>
      refine ⟨fun hidle => absurd hidle hinside.busy,
        fun hbusy => ⟨offset, rest, hbusy, ?_, rfl, ?_⟩⟩
      · show Sees source s.start offset (s.pending ++ [c] ++ rest)
        rw [List.append_assoc]
        exact hinside.sees
      · exact fun hnil => absurd hnil (by simp [holding])
  | cut => exact ⟨fun _ => rfl, fun hidle => absurd rfl hidle⟩
  | comment _ hsees htext =>
      exact ⟨fun hidle => Mode.noConfusion hidle,
        fun hbusy => ⟨_, _, hbusy, hsees, rfl, fun hnil => absurd hnil htext⟩⟩

/-- A token has a character at least, so that what comes after it begins behind the place where it
began. -/
theorem Turn.descends (h : Turn source s s') (hrunning : s.Running source) :
    s'.remaining source < s.remaining source := by
  cases h with
  | newline hmode =>
      exact remaining_lt_of_began (began_of_idle hmode) (began_of_idle hmode)
        (Nat.lt_succ_self _) hrunning
  | blank hmode =>
      exact remaining_lt_of_began (began_of_idle hmode) (began_of_idle hmode)
        (Nat.lt_succ_self _) hrunning
  | @enter offset c cs hmode hsees =>
      refine remaining_lt_of_mode (began_of_idle hmode)
        (began_of_ne_idle (Mode.ofFirst_ne (by decide) c)) ?_
      rw [Mode.changesLeft_ofFirst, hmode]
      decide
  | take hinside =>
      refine remaining_lt_of_pos (began_of_ne_idle hinside.busy)
        (began_of_ne_idle hinside.busy) rfl ?_ hrunning
      rw [hinside.pos]
      simp [holding]
  | cut hmode hsees htext =>
      refine remaining_lt_of_began (began_of_ne_idle hmode) (began_of_idle rfl) ?_ ?_
      · exact Nat.lt_add_of_pos_right (List.length_pos_iff.mpr htext)
      · have := hsees.length
        omega
  | comment hmode hsees htext =>
      refine remaining_lt_of_mode (began_of_ne_idle ?_) (began_of_ne_idle Mode.noConfusion) ?_
      · rw [hmode]
        exact Mode.noConfusion
      · rw [hmode]
        exact Nat.zero_lt_one

/-- A token starts at the entry where it began and ends behind it. The one that has no bytes is the
newline behind the last character, which the source does not have. -/
theorem Turn.token_ends (h : Turn source s s') :
    s'.tokens = s.tokens ∨ ∃ t c, s'.tokens = s.tokens.push t ∧
      (entries source)[s.began]? = some (t.start, c)
      ∧ s.began < s'.pos ∧ (t.start < t.stop ↔ ¬ (s.mode = .idle ∧ s.AtEnd source)) := by
  cases h with
  | @newline offset cs text hmode hsees htext =>
      refine .inr ⟨_, cs.headD '\n', rfl, ?_, ?_, ?_⟩
      · rw [began_of_idle hmode, Token.start_add]
        exact hsees.entry
      · rw [began_of_idle hmode]
        exact Nat.lt_succ_self _
      · rw [Token.start_add, atEnd_iff hsees, htext]
        by_cases hcs : cs = []
        · simp [hmode, hcs]
        · rw [if_neg hcs]
          exact iff_of_true (Nat.lt_succ_self _) fun h => hcs h.2
  | blank => exact .inl rfl
  | enter => exact .inl rfl
  | take => exact .inl rfl
  | @cut offset text rest kind hmode hsees htext =>
      have hstart : Token.start ⟨String.ofList text, kind, offset + byteLength text⟩ = offset := by
        rw [← Text.utf8ByteSize_ofList]
        exact Token.start_add _ _ _
      refine .inr ⟨_, (text ++ rest).headD '\n', rfl, ?_, ?_, ?_⟩
      · rw [began_of_ne_idle hmode, hsees.entry]
        exact congrArg (fun i => some (i, _)) hstart.symm
      · rw [began_of_ne_idle hmode]
        exact Nat.lt_add_of_pos_right (List.length_pos_iff.mpr htext)
      · refine iff_of_true ?_ fun h => hmode h.1
        exact hstart.trans_lt (Nat.lt_add_of_pos_right (Text.byteLength_pos htext))
  | comment => exact .inl rfl

/-! ## Runs -/

/-- So does a whole run, by induction on its steps. -/
theorem Reaches.sound (h : Reaches source s s') (hs : s.Sound source) : s'.Sound source := by
  induction h with
  | refl => exact hs
  | head hrunning hstep _ ih => exact ih ((hs.turn hrunning hstep).sound hs)

/-- From every sound state the machine comes to an end, by induction on what is left to do. -/
theorem Sound.exists_scans (hs : s.Sound source) : ∃ result, Scans source s result := by
  induction hleft : s.remaining source using WellFoundedLT.induction generalizing s with
  | ind left ih =>
      subst hleft
      by_cases hrunning : s.Running source
      · rcases hs.step_cases hrunning with ⟨e, hstep⟩ | ⟨s', hstep, hturn⟩
        · exact ⟨_, .refused hrunning hstep⟩
        · obtain ⟨result, hscans⟩ := ih _ (hturn.descends hrunning) (hturn.sound hs) rfl
          exact ⟨result, .step hrunning hstep hscans⟩
      · exact ⟨_, .done hrunning⟩

/-- No run of steps goes on for ever. -/
theorem not_endless (run : Nat → Scanner) (hfirst : run 0 = initial) :
    ¬ ∀ n, (run n).Running source ∧ (run n).step source = .to (run (n + 1)) := by
  intro hrun
  have hsound : ∀ n, (run n).Sound source := by
    intro n
    induction n with
    | zero =>
        rw [hfirst]
        exact sound_initial source
    | succ n ih => exact (ih.turn (hrun n).1 (hrun n).2).sound ih
  obtain ⟨n, hn⟩ := WellFounded.not_rel_apply_succ (r := (· < ·)) fun n => (run n).remaining source
  exact hn (((hsound n).turn (hrun n).1 (hrun n).2).descends (hrun n).1)

/--
**The scanner comes to an end.**

For every source it comes to what the lexer gives, and there is no run of it that goes on for ever.
The reason is that each step of a run leaves less to do (`remaining`, in the order of the triples),
unless the source is refused. This holds of steps that read nothing and of the step that goes back,
too. A step makes at most one token. The token starts at the byte of the entry where it began, and
the machine is behind that entry when it has made it. It ends at a later byte, too, unless it is
the newline for the end of the source, which is made between two tokens and is empty.
-/
theorem scan_descends (source : String) :
    (∃ result, Scans source initial result ∧ lex source = result.map Array.toList)
      ∧ (∀ run : Nat → Scanner, run 0 = initial →
          ¬ ∀ n, (run n).Running source ∧ (run n).step source = .to (run (n + 1)))
      ∧ ∀ s, Reaches source initial s → s.Running source →
          (∃ e, s.step source = .refused e)
            ∨ ∃ s', s.step source = .to s' ∧ s'.remaining source < s.remaining source
              ∧ (s'.tokens = s.tokens
                ∨ ∃ t c, s'.tokens = s.tokens.push t
                ∧ (entries source)[s.began]? = some (t.start, c)
                  ∧ s.began < s'.pos
                  ∧ (t.start < t.stop ↔ ¬ (s.mode = .idle ∧ s.AtEnd source))) := by
  refine ⟨?_, not_endless, ?_⟩
  · obtain ⟨result, hscans⟩ := (sound_initial source).exists_scans
    exact ⟨result, hscans, by rw [lex, scans_iff_lexFrom.mp hscans]⟩
  · intro s hreaches hrunning
    have hs := hreaches.sound (sound_initial source)
    rcases hs.step_cases hrunning with hrefused | ⟨s', hstep, hturn⟩
    · exact .inl hrefused
    · exact .inr ⟨s', hstep, hturn.descends hrunning, hturn.token_ends⟩

/-- The machine has taken `<-` of the source `<-1`, which is no operator. -/
def overrun : Scanner := ⟨2, .symbol, ['<', '-'], 0, #[]⟩

/-- It goes back to the minus. -/
def resumed : Scanner := ⟨1, .idle, [], 0, #[⟨"<", .less, 1⟩]⟩

theorem reaches_overrun : Reaches "<-1" initial overrun := by
  have hentered : initial.step "<-1" = .to ⟨0, .symbol, [], 0, #[]⟩ := rfl
  have hless : step "<-1" ⟨0, .symbol, [], 0, #[]⟩ = .to ⟨1, .symbol, ['<'], 0, #[]⟩ := rfl
  have hminus : step "<-1" ⟨1, .symbol, ['<'], 0, #[]⟩ = .to overrun := rfl
  exact .head (by decide) hentered (.head (by decide) hless (.head (by decide) hminus (.refl _)))

theorem step_overrun : overrun.step "<-1" = .to resumed := rfl

/-- So its cursor moves backwards, and still less is left to do. -/
theorem scan_descends_overrun :
    Reaches "<-1" initial overrun ∧ overrun.step "<-1" = .to resumed ∧ resumed.pos < overrun.pos
      ∧ resumed.remaining "<-1" < overrun.remaining "<-1" := by
  refine ⟨reaches_overrun, step_overrun, by decide, ?_⟩
  obtain ⟨-, -, hsteps⟩ := scan_descends "<-1"
  rcases hsteps overrun reaches_overrun (by decide) with ⟨e, hrefused⟩ | ⟨s', hstep, hless, -⟩
  · exact absurd (step_overrun.symm.trans hrefused) Move.noConfusion
  · injection step_overrun.symm.trans hstep with hs
    rwa [hs]

end Scanner

end Pseudocode.Lexer
