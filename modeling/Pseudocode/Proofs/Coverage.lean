import Pseudocode.Proofs.Lexing

/-!
# The lexer loses nothing and invents nothing

The tokens of a source account for all of it. Each of them is a range of bytes of the source, the
ranges follow one another without overlapping, and what no token covers is a blank inside a line.
Two tokens at the end are empty, the newline that closes the last line and the end of input; every
other token has some text.

All this is said of cuts, and by induction along the cut: what is proved of the rest of a text is
moved behind the characters that were cut off before it (`Piece.append_left`).
-/

namespace Pseudocode

namespace Lexer

open Text (isBlank byteLength byteLength_append byteLength_cons)

/-- The token is a piece of the text that starts at byte `offset`. It may be empty. -/
def Piece (offset : Nat) (cs : List Char) (t : Token) : Prop :=
  ∃ before text after, cs = before ++ (text ++ after) ∧ t.text = String.ofList text
    ∧ t.stop = offset + byteLength (before ++ text)

/-- A piece of the rest of a text is a piece of the text. -/
theorem Piece.append_left {offset : Nat} {cs : List Char} {t : Token} (before : List Char)
    (h : Piece (offset + byteLength before) cs t) : Piece offset (before ++ cs) t := by
  obtain ⟨skipped, text, after, hcs, htext, hstop⟩ := h
  refine ⟨before ++ skipped, text, after, by rw [hcs, List.append_assoc], htext, ?_⟩
  rw [hstop, List.append_assoc, byteLength_append before, Nat.add_assoc]

/-- A piece starts behind what stands before it. -/
theorem start_of_stop {offset : Nat} {before text : List Char} {t : Token}
    (htext : t.text = String.ofList text) (hstop : t.stop = offset + byteLength (before ++ text)) :
    t.start = offset + byteLength before := by
  have hsize : t.text.utf8ByteSize = byteLength text := by rw [htext, Text.utf8ByteSize_ofList]
  rw [byteLength_append] at hstop
  rw [Token.start_of_le (by omega)]
  omega

theorem Piece.le_start {offset : Nat} {cs : List Char} {t : Token} (h : Piece offset cs t) :
    offset ≤ t.start := by
  obtain ⟨before, text, after, -, htext, hstop⟩ := h
  rw [start_of_stop htext hstop]
  exact Nat.le_add_right _ _

/-! ## What a cut says of its tokens -/

/-- Nothing is made up: each token is a piece of the text, newlines and comments as well. -/
theorem Cuts.pieces {offset : Nat} {cs : List Char} {ts : List Token} (h : Cuts offset cs ts) :
    ∀ t ∈ ts, Piece offset cs t := by
  induction h with
  | @nil offset =>
      intro t ht
      have hend : t.text = String.ofList [] ∧ t.stop = offset + byteLength ([] ++ []) := by
        rcases List.mem_cons.mp ht with rfl | ht
        · exact ⟨rfl, rfl⟩
        · rw [List.mem_singleton.mp ht]
          exact ⟨rfl, rfl⟩
      exact ⟨[], [], [], rfl, hend⟩
  | @newline offset rest ts _ ih =>
      intro t ht
      rcases List.mem_cons.mp ht with rfl | ht
      · exact ⟨[], ['\n'], rest, rfl, rfl, rfl⟩
      · exact (ih t ht).append_left ['\n']
  | @blank offset c rest ts _ _ _ ih => exact fun t ht => (ih t ht).append_left [c]
  | @lexeme offset kind text rest ts _ _ ih =>
      intro t ht
      rcases List.mem_cons.mp ht with rfl | ht
      · exact ⟨[], text, rest, rfl, rfl, rfl⟩
      · exact (ih t ht).append_left text

/-- Tokens stand one behind the other: where one stops, the next has not started. -/
theorem Cuts.ordered {offset : Nat} {cs : List Char} {ts : List Token} (h : Cuts offset cs ts) :
    ts.Pairwise fun a b => a.stop ≤ b.start := by
  induction h with
  | nil => simp [Token.start, Token.endAt]
  | newline hrest ih => exact List.pairwise_cons.mpr ⟨fun b hb => (hrest.pieces b hb).le_start, ih⟩
  | blank _ _ _ ih => exact ih
  | lexeme _ hrest ih =>
      exact List.pairwise_cons.mpr ⟨fun b hb => (hrest.pieces b hb).le_start, ih⟩

/-- The two empty tokens stand at the end of the text, and all others are neither empty nor the end
of input. -/
theorem Cuts.body {offset : Nat} {cs : List Char} {ts : List Token} (h : Cuts offset cs ts) :
    ∃ body,
      ts = body ++ [⟨"", .newline, offset + byteLength cs⟩, Token.endAt (offset + byteLength cs)]
      ∧ ∀ t ∈ body, t.kind ≠ .endOfInput ∧ t.text ≠ "" := by
  induction h with
  | @nil offset => exact ⟨[], rfl, fun t ht => absurd ht List.not_mem_nil⟩
  | @newline offset rest ts _ ih =>
      obtain ⟨body, hts, hbody⟩ := ih
      refine ⟨⟨"\n", .newline, offset + 1⟩ :: body, ?_, List.forall_mem_cons.mpr ⟨by simp, hbody⟩⟩
      rw [hts, List.cons_append, byteLength_cons, ← Nat.add_assoc]
      rfl
  | @blank offset c rest ts _ _ _ ih =>
      obtain ⟨body, hts, hbody⟩ := ih
      refine ⟨body, ?_, hbody⟩
      rw [hts, byteLength_cons, ← Nat.add_assoc]
  | @lexeme offset kind text rest ts hspelled _ ih =>
      obtain ⟨body, hts, hbody⟩ := ih
      refine ⟨⟨String.ofList text, kind, offset + byteLength text⟩ :: body, ?_,
        List.forall_mem_cons.mpr ⟨⟨?_, ?_⟩, hbody⟩⟩
      · rw [hts, List.cons_append, byteLength_append, ← Nat.add_assoc]
      · rintro rfl
        exact hspelled.shape
      · intro hempty
        exact hspelled.ne_nil (by simpa using hempty)

/-- One of the tokens covers the character `c` at byte `offset`, all of its bytes. -/
def Covered (ts : List Token) (offset : Nat) (c : Char) : Prop :=
  ∃ t ∈ ts, t.start ≤ offset ∧ offset + c.utf8Size ≤ t.stop

theorem Covered.cons {ts : List Token} {offset : Nat} {c : Char} (t : Token)
    (h : Covered ts offset c) :
    Covered (t :: ts) offset c := by
  obtain ⟨u, hu, hcovers⟩ := h
  exact ⟨u, List.mem_cons_of_mem t hu, hcovers⟩

/-- Nothing is lost: a character that no token covers is a blank, and not the end of a line. -/
theorem Cuts.covered {offset : Nat} {cs : List Char} {ts : List Token} (h : Cuts offset cs ts) :
    ∀ before c after, cs = before ++ c :: after →
      Covered ts (offset + byteLength before) c ∨ isBlank c = true ∧ c ≠ '\n' := by
  induction h with
  | nil =>
      intro before c after hcs
      exact absurd hcs (by simp)
  | @newline offset rest ts _ ih =>
      intro before c after hcs
      cases before with
      | nil =>
          obtain ⟨rfl, -⟩ := List.cons.inj hcs
          exact .inl ⟨_, List.mem_cons_self, Nat.le_refl _, Nat.le_refl _⟩
      | cons d before =>
          obtain ⟨rfl, hrest⟩ := List.cons.inj hcs
          rw [byteLength_cons, ← Nat.add_assoc]
          exact (ih before c after hrest).imp_left (Covered.cons _)
  | @blank offset d rest ts hblank hne _ ih =>
      intro before c after hcs
      cases before with
      | nil =>
          obtain ⟨rfl, -⟩ := List.cons.inj hcs
          exact .inr ⟨hblank, hne⟩
      | cons e before =>
          obtain ⟨rfl, hrest⟩ := List.cons.inj hcs
          rw [byteLength_cons, ← Nat.add_assoc]
          exact ih before c after hrest
  | @lexeme offset kind text rest ts _ _ ih =>
      intro before c after hcs
      rcases List.append_eq_append_iff.mp hcs with ⟨skipped, rfl, hrest⟩ | ⟨tail, rfl, htail⟩
      · -- the character stands behind this token
        rw [byteLength_append, ← Nat.add_assoc]
        exact (ih skipped c after hrest).imp_left (Covered.cons _)
      · cases tail with
        | nil =>
            -- the token ends just before it
            rw [List.append_nil] at ih ⊢
            exact (ih [] c after htail.symm).imp_left (Covered.cons _)
        | cons d tail =>
            obtain ⟨rfl, -⟩ := List.cons.inj htail
            refine .inl ⟨_, List.mem_cons_self, ?_, ?_⟩
            · have hstart :
                  Token.start ⟨String.ofList (before ++ c :: tail), kind,
                    offset + byteLength (before ++ c :: tail)⟩
                  = offset + byteLength [] := start_of_stop rfl rfl
              rw [hstart, Text.byteLength_nil]
              omega
            · simp only [byteLength_append, byteLength_cons]
              omega

end Lexer

/-! ## Whole sources -/

open Text (isBlank byteLength)

theorem extract_middle (a b c : ByteArray) :
    (a ++ (b ++ c)).extract a.size (a.size + b.size) = b := by
  rw [← ByteArray.append_assoc, ByteArray.extract_append,
    ByteArray.extract_append_eq_right rfl rfl, ByteArray.size_append, Nat.sub_self]
  simp

/-- The bytes of a source within the span of one of its pieces are the bytes of that piece. -/
theorem Lexer.Piece.bytes {source : String} {t : Token} (h : Lexer.Piece 0 source.toList t) :
    t.span.stop ≤ source.utf8ByteSize
      ∧ source.toByteArray.extract t.span.start t.span.stop = t.text.toByteArray := by
  obtain ⟨before, text, after, hsource, htext, hstop⟩ := h
  have hsource : source = String.ofList before ++ (String.ofList text ++ String.ofList after) := by
    rw [← String.ofList_append, ← String.ofList_append, ← hsource, String.ofList_toList]
  have hspan : t.span = ⟨(String.ofList before).toByteArray.size,
      (String.ofList before).toByteArray.size + (String.ofList text).toByteArray.size⟩ := by
    rw [Token.span, Lexer.start_of_stop htext hstop, hstop, Text.byteLength_append,
      Nat.zero_add, Nat.zero_add, String.size_toByteArray, String.size_toByteArray,
      Text.utf8ByteSize_ofList, Text.utf8ByteSize_ofList]
  rw [hspan, htext, hsource]
  constructor
  · simp only [String.utf8ByteSize_append, String.size_toByteArray]
    omega
  · rw [String.toByteArray_append, String.toByteArray_append]
    exact extract_middle _ _ _

/--
**The lexer loses nothing and invents nothing.**

The tokens of a source end with an empty newline and the empty end of input, both at its last byte,
and no other token is empty or the end of input. The text of each token is what the source has at
its span, spans follow one another and do not overlap, and a character that lies in no span is a
blank other than a newline.
-/
theorem lex_lossless {source : String} {ts : List Token} (h : lex source = .ok ts) :
    (∃ body, ts = body ++ [⟨"", .newline, source.utf8ByteSize⟩, Token.endAt source.utf8ByteSize]
      ∧ ∀ t ∈ body, t.kind ≠ .endOfInput ∧ t.text ≠ "")
    ∧ (∀ t ∈ ts, t.span.stop ≤ source.utf8ByteSize
      ∧ source.toByteArray.extract t.span.start t.span.stop = t.text.toByteArray)
    ∧ ts.Pairwise (fun a b => a.span.stop ≤ b.span.start)
    ∧ ∀ before c after, source.toList = before ++ c :: after →
        (∃ t ∈ ts, t.span.start ≤ byteLength before ∧ byteLength before + c.utf8Size ≤ t.span.stop)
          ∨ isBlank c = true ∧ c ≠ '\n' := by
  have hcuts := cuts_of_lex h
  refine ⟨?_, fun t ht => (hcuts.pieces t ht).bytes, hcuts.ordered, ?_⟩
  · obtain ⟨body, hts, hbody⟩ := hcuts.body
    rw [Nat.zero_add, byteLength_toList] at hts
    exact ⟨body, hts, hbody⟩
  · intro before c after hsource
    have hcovered := hcuts.covered before c after hsource
    rwa [Nat.zero_add] at hcovered

/-- Two lines with a blank between two tokens and a comment behind a number. -/
theorem lex_commented :
    lex "\"é\" ≠\n1//é" =
      .ok [⟨"\"é\"", .text, 4⟩, ⟨"≠", .notEqual, 8⟩, ⟨"\n", .newline, 9⟩, ⟨"1", .number, 10⟩,
        ⟨"//é", .comment, 14⟩, ⟨"", .newline, 14⟩, Token.endAt 14] := by
  have hcut :=
    calc Lexer.lexFrom #[] 0 ['"', 'é', '"', ' ', '≠', '\n', '1', '/', '/', 'é']
      _ = Lexer.lexFrom #[⟨"\"é\"", .text, 4⟩] 4 [' ', '≠', '\n', '1', '/', '/', 'é'] := by
          rw [Lexer.lexFrom.eq_2]; rfl
      _ = Lexer.lexFrom #[⟨"\"é\"", .text, 4⟩] 5 ['≠', '\n', '1', '/', '/', 'é'] := by
          rw [Lexer.lexFrom.eq_2]; rfl
      _ = Lexer.lexFrom #[⟨"\"é\"", .text, 4⟩, ⟨"≠", .notEqual, 8⟩] 8
            ['\n', '1', '/', '/', 'é'] := by
          rw [Lexer.lexFrom.eq_2]; rfl
      _ = Lexer.lexFrom #[⟨"\"é\"", .text, 4⟩, ⟨"≠", .notEqual, 8⟩, ⟨"\n", .newline, 9⟩] 9
            ['1', '/', '/', 'é'] := by
          rw [Lexer.lexFrom.eq_2]; rfl
      _ = Lexer.lexFrom #[⟨"\"é\"", .text, 4⟩, ⟨"≠", .notEqual, 8⟩, ⟨"\n", .newline, 9⟩,
            ⟨"1", .number, 10⟩] 10 ['/', '/', 'é'] := by
          rw [Lexer.lexFrom.eq_2]; rfl
      _ = Lexer.lexFrom #[⟨"\"é\"", .text, 4⟩, ⟨"≠", .notEqual, 8⟩, ⟨"\n", .newline, 9⟩,
            ⟨"1", .number, 10⟩, ⟨"//é", .comment, 14⟩] 14 [] := by
          rw [Lexer.lexFrom.eq_2]; rfl
  have hchars : "\"é\" ≠\n1//é".toList = ['"', 'é', '"', ' ', '≠', '\n', '1', '/', '/', 'é'] := rfl
  rw [lex, hchars, hcut, Lexer.lexFrom]
  rfl

/-- They are found where the lexer says. -/
theorem lex_lossless_commented :
    ∃ ts, lex "\"é\" ≠\n1//é" = .ok ts ∧ ts.Pairwise (fun a b => a.span.stop ≤ b.span.start)
      ∧ ∀ t ∈ ts, "\"é\" ≠\n1//é".toByteArray.extract t.span.start t.span.stop =
          t.text.toByteArray := by
  obtain ⟨-, hbytes, hordered, -⟩ := lex_lossless lex_commented
  exact ⟨_, lex_commented, hordered, fun t ht => (hbytes t ht).2⟩

end Pseudocode
