import Pseudocode.Proofs.DrawnLines

/-!
# Carets below whole characters

Take a label on whole characters of the source, the last of them not a newline. In every line that
is shown, each character inside the label has a caret below it, and one more caret stands behind
the last character if that takes more than a byte (`draw_caret_row`). So the carets mark exactly
the labelled characters where the label ends with a character of one byte, and only there.

The caret too many comes from the last byte of the label. Of a character of several bytes it lies
inside, and an offset inside a character has the position behind it.
-/

namespace Pseudocode

namespace Text

theorem byteLength_le_of_prefix {front cs : List Char} (h : front <+: cs) :
    byteLength front ≤ byteLength cs := by
  obtain ⟨rest, rfl⟩ := h
  rw [byteLength_append]
  exact Nat.le_add_right _ _

/-- The character at this position lies inside the span. -/
def InSpan (cs : List Char) (span : Span) (p : Position) : Prop :=
  ∃ front c, Stands cs front c p ∧ span.start ≤ byteLength front ∧
    byteLength (front ++ [c]) ≤ span.stop

/-- A character of a line stands at the position behind the text before it. -/
theorem stands_endOf {cs front : List Char} {c : Char} (h : front ++ [c] <+: cs) (hc : c ≠ '\n') :
    Stands cs front c (endOf front) := by
  rw [endOf_eq]
  exact ⟨h, hc, rfl, rfl⟩

/-- What is inside a span is before its end. -/
theorem InSpan.lt_endOf {cs whole : List Char} {start : Nat} {p : Position}
    (h : InSpan cs ⟨start, byteLength whole⟩ p) (hwhole : whole <+: cs) : p < endOf whole := by
  obtain ⟨front, c, hstands, -, hstop⟩ := h
  have hsize := c.utf8Size_pos
  have hfront : front <+: cs := (List.prefix_append front [c]).trans hstands.isPrefix
  rw [byteLength_append, byteLength_cons, byteLength_nil] at hstop
  rw [← hstands.endOf_eq, endOf_lt_iff hfront hwhole]
  exact Nat.lt_of_lt_of_le (Nat.lt_add_of_pos_right hsize) hstop

/-- The span of a part of a text has in it what is not before its start, but before its end. -/
theorem inSpan_iff {cs before whole content : List Char} {p : Position} (hbefore : before <+: cs)
    (hwhole : whole <+: cs) (hcontent : (lines cs)[p.line - 1]? = some content)
    (hline : 1 ≤ p.line) :
    InSpan cs ⟨byteLength before, byteLength whole⟩ p ↔
      (1 ≤ p.column ∧ p.column ≤ content.length) ∧ ¬ p < endOf before ∧ p < endOf whole := by
  constructor
  · intro hin
    have hstop := hin.lt_endOf hwhole
    obtain ⟨front, c, hstands, hstart, -⟩ := hin
    have hfront : front <+: cs := (List.prefix_append front [c]).trans hstands.isPrefix
    refine ⟨(exists_stands_iff hcontent hline).mp ⟨front, c, hstands⟩, ?_, hstop⟩
    rw [← hstands.endOf_eq, endOf_lt_iff hfront hbefore]
    exact Nat.not_lt.mpr hstart
  · rintro ⟨hcolumn, hstart, hstop⟩
    obtain ⟨front, c, hstands⟩ := (exists_stands_iff hcontent hline).mpr hcolumn
    have hfront : front <+: cs := (List.prefix_append front [c]).trans hstands.isPrefix
    rw [← hstands.endOf_eq, endOf_lt_iff hfront hbefore] at hstart
    rw [← hstands.endOf_eq, endOf_lt_iff hfront hwhole] at hstop
    refine ⟨front, c, hstands, Nat.not_lt.mp hstart, ?_⟩
    -- `whole` goes beyond `front`, so it has all of the character behind
    rcases List.prefix_or_prefix_of_prefix hstands.isPrefix hwhole with h | h
    · exact byteLength_le_of_prefix h
    · rcases List.prefix_concat_iff.mp h with h | h
      · obtain rfl := h
        exact Nat.le_refl _
      · have := byteLength_le_of_prefix h
        omega

end Text

namespace Diagnostic.Sheet

open Text
  (Position position lines endOf InSpan byteLength byteLength_append
    byteLength_cons byteLength_nil)

variable {before inner after content : List Char} {last : Char} {label : Label}

/-! ## The first and the last byte of a label -/

/-- The last byte of a character has the position of the character if it is the only one, and else
the position behind. -/
theorem position_lastOffset (before inner after : List Char) (last : Char) :
    position (before ++ inner ++ last :: after)
        (lastOffset ⟨byteLength before, byteLength (before ++ inner ++ [last])⟩) =
      if last.utf8Size = 1 then endOf (before ++ inner)
      else endOf (before ++ inner ++ [last]) := by
  have hsize := last.utf8Size_pos
  have hoffset : lastOffset ⟨byteLength before, byteLength (before ++ inner ++ [last])⟩ =
      byteLength (before ++ inner) + (last.utf8Size - 1) := by
    simp only [lastOffset, byteLength_append, byteLength_cons, byteLength_nil]
    omega
  rw [Text.position_eq, hoffset, Text.reach_append]
  split
  case isTrue hone => rw [hone, Nat.sub_self, Text.reach_zero, List.append_nil]
  case isFalse hone => rw [Text.reach_within last after (by omega) (by omega)]

/-! ## Columns of a label -/

section

variable (hspan : label.span = ⟨byteLength before, byteLength (before ++ inner ++ [last])⟩)
  (hlast : last ≠ '\n')

include hspan hlast

/-- A label on whole characters covers these, and one column more if it ends with a character of
several bytes. -/
theorem covers_iff {n column : Nat}
    (hcontent : (lines (before ++ inner ++ last :: after))[n - 1]? = some content) (hn : 1 ≤ n)
    (hcolumn : 1 ≤ column) :
    Covers (before ++ inner ++ last :: after) label n content.length column ↔
      InSpan (before ++ inner ++ last :: after) label.span ⟨n, column⟩ ∨
        1 < last.utf8Size ∧ endOf (before ++ inner ++ [last]) = ⟨n, column⟩ := by
  have hsize := last.utf8Size_pos
  have hbefore : before <+: before ++ inner ++ last :: after :=
    ⟨inner ++ last :: after, (List.append_assoc ..).symm⟩
  have hwhole : before ++ inner ++ [last] <+: before ++ inner ++ last :: after :=
    ⟨after, (List.append_cons ..).symm⟩
  have hend := Text.endOf_append_of_ne (before ++ inner) hlast
  -- the label does not start behind its last character
  have horder : ¬ endOf (before ++ inner) < endOf before := by
    rw [Text.endOf_lt_iff (List.prefix_append _ _) hbefore, byteLength_append]
    exact Nat.not_lt.mpr (Nat.le_add_right _ _)
  -- and the last character is on its line
  have hlength : (endOf (before ++ inner)).line = n →
      (endOf (before ++ inner)).column ≤ content.length := by
    rintro rfl
    exact ((Text.exists_stands_iff hcontent hn).mp
      ⟨before ++ inner, last, Text.stands_endOf hwhole hlast⟩).2
  have hfirst : position (before ++ inner ++ last :: after) label.span.start = endOf before := by
    rw [hspan, List.append_assoc]
    exact Text.position_front before _
  have hstop := position_lastOffset before inner after last
  rw [hend, ← hspan] at hstop
  rw [covers_iff_and, Touches, firstColumn, stopColumn, hfirst, hstop, hspan,
    Text.inSpan_iff hbefore hwhole hcontent hn, hend, Text.Position.mk.injEq]
  rw [Text.Position.lt_iff] at horder
  simp only [Text.Position.lt_iff]
  by_cases hone : last.utf8Size = 1
  · rw [if_pos hone]
    split <;> split <;> omega
  · rw [if_neg hone]
    simp only
    split <;> split <;> omega

/-- The lines that a label touches, by the newlines before it and inside it. -/
theorem touches_iff {n : Nat} : Touches (before ++ inner ++ last :: after) label n ↔
    (endOf before).line ≤ n ∧ n ≤ (endOf (before ++ inner ++ [last])).line := by
  have hstop : (position (before ++ inner ++ last :: after) (lastOffset label.span)).line =
      (endOf (before ++ inner ++ [last])).line := by
    rw [hspan, position_lastOffset]
    split
    · rw [Text.endOf_append_of_ne _ hlast]
    · rfl
  rw [Touches, hstop, hspan, List.append_assoc before, Text.position_front]

/-! ## The rows of one label -/

variable {s : Sheet} (hsource : s.source = before ++ inner ++ last :: after)

include hsource

theorem mem_number_of_label {n : Nat} :
    n ∈ (s.drawnLines [label]).map DrawnLine.number ↔
      before.count '\n' + 1 ≤ n ∧ n ≤ (before ++ inner ++ [last]).count '\n' + 1 := by
  rw [map_number_drawnLines, mem_linesToShow, hsource]
  simp only [List.mem_singleton, exists_eq_left]
  rw [touches_iff hspan hlast, Text.endOf_eq, Text.endOf_eq]

/-- Below a line there is a caret for each character of the label, and one more behind a last
character of several bytes. -/
theorem caret_of_label {line : DrawnLine} (hline : line ∈ s.drawnLines [label]) (i : Nat) :
    line.carets[i]? = some '^' ↔ InSpan s.source label.span ⟨line.number, i + 1⟩ ∨
      1 < last.utf8Size ∧ endOf (before ++ inner ++ [last]) = ⟨line.number, i + 1⟩ := by
  have hmarks := marks_of_mem_drawnLines hline
  have hcontent := hmarks.content
  rw [hmarks.caret_iff i]
  simp only [List.mem_singleton, exists_eq_left]
  rw [hsource] at hcontent ⊢
  exact covers_iff hspan hlast hcontent hmarks.one_le (Nat.le_add_left 1 i)

/-- Behind a last character of several bytes there is a caret, and nothing of the label. -/
theorem exists_caret_behind (hsize : 1 < last.utf8Size) :
    ∃ line ∈ s.drawnLines [label], ∃ i, line.carets[i]? = some '^' ∧
      ¬ InSpan s.source label.span ⟨line.number, i + 1⟩ := by
  have hnumber :
      (endOf (before ++ inner ++ [last])).line ∈ (s.drawnLines [label]).map DrawnLine.number := by
    rw [mem_number_of_label hspan hlast hsource, Text.endOf_eq]
    simp only [List.count_append]
    omega
  obtain ⟨line, hline, heq⟩ := List.mem_map.mp hnumber
  have hend : endOf (before ++ inner ++ [last]) =
      ⟨line.number, (endOf (before ++ inner)).column + 1⟩ := by
    rw [heq, Text.endOf_append_of_ne _ hlast]
  refine ⟨line, hline, _, (caret_of_label hspan hlast hsource hline _).mpr (.inr ⟨hsize, hend⟩),
    fun hin => ?_⟩
  rw [← hend, hspan, hsource] at hin
  have hinside := hin.lt_endOf ⟨after, (List.append_cons ..).symm⟩
  exact Text.Position.lt_asymm hinside hinside

end

/-- **Carets stand below whole characters.**

Without colours, a diagnostic with one label shows the lines of this label, with nothing in between
but a row below each of them and the remark (`Shows`). If the label is on whole characters, the
carets are below these, with one more behind a last character of several bytes. They mark the
labelled characters exactly if the last one takes one byte. -/
theorem draw_caret_row {source before labelled after : List Char} {last : Char} {d : Diagnostic}
    {label : Label} (file : String) (hsource : source = before ++ labelled ++ after)
    (hlabels : d.labels = [label])
    (hspan : label.span = ⟨byteLength before, byteLength (before ++ labelled)⟩)
    (hlast : labelled.getLast? = some last) (hnewline : last ≠ '\n') :
    ∃ shown : List DrawnLine, (⟨source, file, false⟩ : Sheet).draw d = layout source file d shown ∧
      Shows source d.labels shown ∧
      (∀ n, n ∈ shown.map DrawnLine.number ↔
        before.count '\n' + 1 ≤ n ∧ n ≤ (before ++ labelled).count '\n' + 1) ∧
      (∀ line ∈ shown, (lines source)[line.number - 1]? = some line.content ∧
        (∀ c ∈ line.carets, c = ' ' ∨ c = '^') ∧
        ∀ i, line.carets[i]? = some '^' ↔ InSpan source label.span ⟨line.number, i + 1⟩ ∨
          1 < last.utf8Size ∧ endOf (before ++ labelled) = ⟨line.number, i + 1⟩) ∧
      ((∀ line ∈ shown, ∀ i, line.carets[i]? = some '^' ↔
          InSpan source label.span ⟨line.number, i + 1⟩) ↔
        last.utf8Size = 1) := by
  obtain ⟨inner, rfl⟩ := List.getLast?_eq_some_iff.mp hlast
  rw [← List.append_assoc] at hspan ⊢
  let s : Sheet := ⟨source, file, false⟩
  have hcut : s.source = before ++ inner ++ last :: after := by
    rw [List.append_cons, List.append_assoc before, ← hsource]
  have hdraw := draw_plain (show s.colored = false from rfl) d
  rw [hlabels] at hdraw ⊢
  have hcaret (line : DrawnLine) (hline : line ∈ s.drawnLines [label]) :=
    caret_of_label hspan hnewline hcut hline
  refine ⟨s.drawnLines [label], hdraw, s.shows_drawnLines [label],
    fun n => mem_number_of_label hspan hnewline hcut, fun line hline => ?_, ?_, ?_⟩
  · have hmarks := marks_of_mem_drawnLines hline
    exact ⟨hmarks.content, hmarks.blank, hcaret line hline⟩
  · intro hexact
    apply Decidable.byContradiction
    intro hmany
    have hsize := last.utf8Size_pos
    obtain ⟨line, hline, i, hmark, hout⟩ :=
      exists_caret_behind hspan hnewline hcut (show 1 < last.utf8Size by omega)
    exact hout ((hexact line hline i).mp hmark)
  · intro hone line hline i
    rw [hcaret line hline i]
    exact or_iff_left fun hmore => by omega

/-- A label over the end of a line, with a character of several bytes inside. -/
theorem draw_caret_row_two_lines : ∃ shown : List DrawnLine,
    (⟨"x ← 1\ny".toList, "main.csp", false⟩ : Sheet).draw ⟨none, "m", [⟨⟨2, 9⟩, ""⟩], []⟩ =
      layout "x ← 1\ny".toList "main.csp" ⟨none, "m", [⟨⟨2, 9⟩, ""⟩], []⟩ shown ∧
    ∀ line ∈ shown, ∀ i, line.carets[i]? = some '^' ↔
      InSpan "x ← 1\ny".toList ⟨2, 9⟩ ⟨line.number, i + 1⟩ := by
  have hsource : "x ← 1\ny".toList = "x ".toList ++ "← 1\ny".toList ++ [] := by decide
  have hspan :
      (⟨2, 9⟩ : Span) = ⟨byteLength "x ".toList, byteLength ("x ".toList ++ "← 1\ny".toList)⟩ := by
    decide
  have hlast : "← 1\ny".toList.getLast? = some 'y' := by decide
  obtain ⟨shown, hdraw, -, -, -, hexact⟩ :=
    @draw_caret_row _ _ _ _ _ ⟨none, "m", [⟨⟨2, 9⟩, ""⟩], []⟩ ⟨⟨2, 9⟩, ""⟩ "main.csp"
    hsource rfl hspan hlast (by decide)
  exact ⟨shown, hdraw, hexact.mpr (by decide)⟩

/-- Below the second of these three characters stand two carets. -/
theorem draw_caret_behind_wide_character :
    (⟨"日本語".toList, "main.csp", false⟩ : Sheet).draw ⟨none, "wide", [⟨⟨3, 6⟩, ""⟩], []⟩ =
      "error: wide\n  --> main.csp:1:2\n   |\n 1 | 日本語\n   |  ^^\n   |\n" ∧
    ¬ InSpan "日本語".toList ⟨3, 6⟩ ⟨1, 3⟩ := by
  refine ⟨by decide +kernel, fun hin => ?_⟩
  have hinside : (⟨1, 3⟩ : Position) < endOf ['日', '本'] := hin.lt_endOf ⟨['語'], rfl⟩
  exact Text.Position.lt_asymm hinside hinside

end Diagnostic.Sheet

end Pseudocode
