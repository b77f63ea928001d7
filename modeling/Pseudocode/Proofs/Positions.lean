import Pseudocode.Proofs.Lexing
import Pseudocode.Text.Position

/-!
# Positions in a text

A byte offset is shown as a line and a column. This module says what the two mean: a position is
the place behind a front part of the text (`position_eq`), offsets further on have positions
further on (`reach_mono`, `endOf_lt_iff`), and the position agrees with the way in which the text
is cut into lines (`endOf_of_lines`). The last point needs an argument, since positions and lines
are computed by two functions that know nothing of each other.

Nothing is assumed of the offset. It may lie inside a character or beyond the end.
-/

namespace Pseudocode.Text

open Position (first after)

/-! ## The position behind a text -/

/-- The position behind a text. -/
def endOf (front : List Char) : Position := front.foldl after first

theorem endOf_append_singleton (front : List Char) (c : Char) :
    endOf (front ++ [c]) = (endOf front).after c := by
  rw [endOf, List.foldl_append, ← endOf, List.foldl_cons, List.foldl_nil]

theorem after_newline (p : Position) : p.after '\n' = ⟨p.line + 1, 1⟩ := rfl

theorem after_of_ne {c : Char} (p : Position) (hc : c ≠ '\n') :
    p.after c = ⟨p.line, p.column + 1⟩ :=
  if_neg (by simpa using hc)

/-- A character that ends no line takes one column. -/
theorem endOf_append_of_ne {c : Char} (front : List Char) (hc : c ≠ '\n') :
    endOf (front ++ [c]) = ⟨(endOf front).line, (endOf front).column + 1⟩ := by
  rw [endOf_append_singleton, after_of_ne _ hc]

/-- Lines are counted by the newlines before, and columns by the characters since the last
newline. -/
theorem endOf_eq (front : List Char) :
    endOf front = ⟨front.count '\n' + 1, (front.reverse.takeWhile (· != '\n')).length + 1⟩ := by
  suffices h : ∀ cs : List Char, endOf cs.reverse =
      ⟨cs.count '\n' + 1, (cs.takeWhile (· != '\n')).length + 1⟩ by
    have hfront := h front.reverse
    rwa [List.reverse_reverse, List.count_reverse] at hfront
  intro cs
  induction cs with
  | nil => rfl
  | cons c cs ih =>
      rw [List.reverse_cons, endOf_append_singleton, ih]
      by_cases hc : c = '\n'
      · subst hc
        rw [after_newline, List.count_cons_self]
        rfl
      · have htake : (c != '\n') = true := by simpa using hc
        rw [after_of_ne _ hc, List.count_cons_of_ne hc, List.takeWhile_cons, if_pos htake,
          List.length_cons]

/-! ## Positions in order -/

/-- Reading order: line by line, and on a line from left to right. -/
instance : LT Position := ⟨fun p q => p.line < q.line ∨ p.line = q.line ∧ p.column < q.column⟩

theorem Position.lt_iff {p q : Position} :
    p < q ↔ p.line < q.line ∨ p.line = q.line ∧ p.column < q.column := Iff.rfl

/-- The position behind a character comes later. -/
theorem Position.lt_after (p : Position) (c : Char) : p < p.after c := by
  by_cases hc : c = '\n'
  · subst hc
    exact .inl (Nat.lt_succ_self _)
  · rw [after_of_ne p hc]
    exact .inr ⟨rfl, Nat.lt_succ_self _⟩

theorem Position.lt_trans {p q r : Position} (hpq : p < q) (hqr : q < r) : p < r := by
  rw [lt_iff] at *
  omega

theorem Position.lt_asymm {p q : Position} (hpq : p < q) : ¬ q < p := by
  rw [lt_iff] at *
  omega

theorem Position.lt_foldl_after (p : Position) (c : Char) (cs : List Char) :
    p < (c :: cs).foldl after p := by
  induction cs generalizing p c with
  | nil => exact p.lt_after c
  | cons d cs ih => exact Position.lt_trans (p.lt_after c) (ih (p.after c) d)

theorem endOf_lt_append (front : List Char) (c : Char) (cs : List Char) :
    endOf front < endOf (front ++ c :: cs) := by
  rw [endOf, endOf, List.foldl_append]
  exact Position.lt_foldl_after _ c cs

/-- Of two front parts of a text, the longer one ends further on. -/
theorem endOf_lt_iff {cs front front' : List Char} (h : front <+: cs) (h' : front' <+: cs) :
    endOf front < endOf front' ↔ byteLength front < byteLength front' := by
  -- one of them is the front part of the other
  have hextend : ∀ {short long : List Char}, short <+: long → short ≠ long →
      endOf short < endOf long ∧ byteLength short < byteLength long := by
    rintro short long ⟨more, rfl⟩ hne
    cases more with
    | nil => exact absurd (List.append_nil short).symm hne
    | cons c more =>
        refine ⟨endOf_lt_append short c more, ?_⟩
        rw [byteLength_append, byteLength_cons]
        have := c.utf8Size_pos
        omega
  by_cases heq : front = front'
  · subst heq
    exact ⟨fun hlt => absurd hlt (Position.lt_asymm hlt), fun hlt => absurd hlt (Nat.lt_irrefl _)⟩
  · rcases List.prefix_or_prefix_of_prefix h h' with hprefix | hprefix
    · obtain ⟨hlt, hbytes⟩ := hextend hprefix heq
      exact iff_of_true hlt hbytes
    · obtain ⟨hlt, hbytes⟩ := hextend hprefix (Ne.symm heq)
      exact iff_of_false (Position.lt_asymm hlt) (Nat.lt_asymm hbytes)

/-! ## What stands before an offset -/

/-- The characters that start before a byte offset. -/
def reach (offset : Nat) : List Char → List Char
  | [] => []
  | c :: rest => if offset = 0 then [] else c :: reach (offset - c.utf8Size) rest

theorem reach_zero (cs : List Char) : reach 0 cs = [] := by
  cases cs <;> rfl

theorem reach_prefix (offset : Nat) (cs : List Char) : reach offset cs <+: cs := by
  induction cs generalizing offset with
  | nil => exact List.prefix_refl []
  | cons c rest ih =>
      rw [reach]
      split
      · exact List.nil_prefix
      · exact (List.prefix_cons_inj c).mpr (ih _)

/-- Before a later offset start the same characters, and maybe more. -/
theorem reach_mono {offset offset' : Nat} (h : offset ≤ offset') (cs : List Char) :
    reach offset cs <+: reach offset' cs := by
  induction cs generalizing offset offset' with
  | nil => exact List.prefix_refl []
  | cons c rest ih =>
      by_cases hzero : offset = 0
      · rw [hzero, reach_zero]
        exact List.nil_prefix
      · rw [reach, if_neg hzero, reach, if_neg (by omega)]
        exact (List.prefix_cons_inj c).mpr (ih (Nat.sub_le_sub_right h _))

/-- Behind a front part, offsets count from there. -/
theorem reach_append (front rest : List Char) (bytes : Nat) :
    reach (byteLength front + bytes) (front ++ rest) = front ++ reach bytes rest := by
  induction front with
  | nil => rw [byteLength_nil, Nat.zero_add, List.nil_append, List.nil_append]
  | cons c front ih =>
      have hpos := c.utf8Size_pos
      rw [byteLength_cons, List.cons_append, reach, if_neg (by omega), List.cons_append, ← ih]
      congr 2
      omega

/-- Inside a character, and just behind it, the character has started. -/
theorem reach_within (c : Char) (rest : List Char) {bytes : Nat} (hpos : 0 < bytes)
    (hle : bytes ≤ c.utf8Size) :
    reach bytes (c :: rest) = [c] := by
  rw [reach, if_neg (by omega), Nat.sub_eq_zero_of_le hle, reach_zero]

theorem Position.advance_eq (p : Position) (offset : Nat) (cs : List Char) :
    p.advance offset cs = (reach offset cs).foldl after p := by
  induction cs generalizing p offset with
  | nil => rfl
  | cons c rest ih =>
      rw [advance, reach]
      split
      · rfl
      · rw [ih, List.foldl_cons]

/-- The position of an offset is the one behind the characters that start before it. -/
theorem position_eq (cs : List Char) (offset : Nat) :
    position cs offset = endOf (reach offset cs) :=
  Position.advance_eq _ _ _

/-- Behind a front part, this is the position behind the part. -/
theorem position_front (front rest : List Char) :
    position (front ++ rest) (byteLength front) = endOf front := by
  have hreach := reach_append front rest 0
  rw [Nat.add_zero, reach_zero, List.append_nil] at hreach
  rw [position_eq, hreach]

/-! ## Positions and lines -/

/-- The characters of the line under way stand at the front of the first line. -/
theorem linesFrom_eq (current cs : List Char) :
    ∃ line rest, lines cs = line :: rest ∧
      linesFrom current cs = (current.reverse ++ line) :: rest := by
  induction cs generalizing current with
  | nil => exact ⟨[], [], rfl, by rw [linesFrom, List.append_nil]⟩
  | cons c cs ih =>
      by_cases hc : c = '\n'
      · subst hc
        refine ⟨[], lines cs, rfl, ?_⟩
        rw [List.append_nil]
        rfl
      · have hne : (c == '\n') = false := by simpa using hc
        obtain ⟨line, rest, hlines, hone⟩ := ih [c]
        obtain ⟨line', rest', hlines', hmore⟩ := ih (c :: current)
        obtain ⟨rfl, rfl⟩ := List.cons.inj (hlines.symm.trans hlines')
        refine ⟨c :: line, rest, ?_, ?_⟩
        · rw [lines, linesFrom, hne]
          exact hone
        · rw [linesFrom, hne, if_neg Bool.false_ne_true, hmore, List.reverse_cons,
            List.append_assoc]
          rfl

theorem lines_newline (cs : List Char) : lines ('\n' :: cs) = [] :: lines cs := rfl

theorem lines_cons_of_ne {c : Char} {cs line : List Char} {rest : List (List Char)} (hc : c ≠ '\n')
    (h : lines cs = line :: rest) : lines (c :: cs) = (c :: line) :: rest := by
  have hne : (c == '\n') = false := by simpa using hc
  obtain ⟨line', rest', hlines, hfrom⟩ := linesFrom_eq [c] cs
  obtain ⟨rfl, rfl⟩ := List.cons.inj (h.symm.trans hlines)
  rw [lines, linesFrom, hne]
  exact hfrom

/-- There is always a first line. -/
theorem exists_lines (cs : List Char) : ∃ line rest, lines cs = line :: rest := by
  obtain ⟨line, rest, h, -⟩ := linesFrom_eq [] cs
  exact ⟨line, rest, h⟩

/-- Lines are made of characters of the text. -/
theorem mem_of_mem_lines {cs line : List Char} {c : Char} (hline : line ∈ lines cs)
    (hc : c ∈ line) : c ∈ cs := by
  induction cs generalizing line with
  | nil =>
      obtain rfl : line = [] := List.mem_singleton.mp hline
      exact hc
  | cons d cs ih =>
      by_cases hd : d = '\n'
      · subst hd
        rw [lines_newline, List.mem_cons] at hline
        rcases hline with rfl | hline
        · exact absurd hc List.not_mem_nil
        · exact List.mem_cons_of_mem _ (ih hline hc)
      · obtain ⟨first, rest, hlines⟩ := exists_lines cs
        rw [lines_cons_of_ne hd hlines, List.mem_cons] at hline
        rw [hlines] at ih
        rcases hline with rfl | hline
        · rcases List.mem_cons.mp hc with rfl | hc
          · exact List.mem_cons_self
          · exact List.mem_cons_of_mem _ (ih List.mem_cons_self hc)
        · exact List.mem_cons_of_mem _ (ih (List.mem_cons_of_mem _ hline) hc)

/-- Where two texts meet, the last line of the one goes on in the first line of the other. -/
theorem lines_append {front cs line line' : List Char} {before behind : List (List Char)}
    (hfront : lines front = before ++ [line]) (hcs : lines cs = line' :: behind) :
    lines (front ++ cs) = before ++ (line ++ line') :: behind := by
  induction front generalizing before line with
  | nil =>
      obtain ⟨rfl, hline⟩ : before = [] ∧ [[]] = [line] := by
        cases before with
        | nil => exact ⟨rfl, hfront⟩
        | cons _ before => exact absurd (List.cons.inj hfront).2 (by simp)
      obtain rfl := (List.cons.inj hline).1
      exact hcs
  | cons c front ih =>
      by_cases hc : c = '\n'
      · subst hc
        rw [lines_newline] at hfront
        cases before with
        | nil =>
            obtain ⟨line'', rest, hlines⟩ := exists_lines front
            rw [hlines] at hfront
            exact absurd (List.cons.inj hfront).2 (by simp)
        | cons line'' before =>
            obtain ⟨rfl, hrest⟩ := List.cons.inj hfront
            rw [List.cons_append, lines_newline, ih hrest]
            rfl
      · obtain ⟨line'', rest, hlines⟩ := exists_lines front
        rw [lines_cons_of_ne hc hlines] at hfront
        cases before with
        | nil =>
            obtain ⟨rfl, rfl⟩ := List.cons.inj hfront
            exact lines_cons_of_ne hc (@ih line'' [] hlines)
        | cons line''' before =>
            obtain ⟨rfl, rfl⟩ := List.cons.inj hfront
            exact lines_cons_of_ne hc (@ih line (line'' :: before) hlines)

/-- The position behind a text says how many lines it has and how long the last one is. -/
theorem exists_lines_endOf (front : List Char) :
    ∃ before line, lines front = before ++ [line] ∧
      endOf front = ⟨before.length + 1, line.length + 1⟩ := by
  suffices h : ∀ cs : List Char, ∃ before line, lines cs.reverse = before ++ [line] ∧
      endOf cs.reverse = ⟨before.length + 1, line.length + 1⟩ by
    have hfront := h front.reverse
    rwa [List.reverse_reverse] at hfront
  intro cs
  induction cs with
  | nil => exact ⟨[], [], rfl, rfl⟩
  | cons c cs ih =>
      obtain ⟨before, line, hlines, hend⟩ := ih
      rw [List.reverse_cons, endOf_append_singleton, hend]
      by_cases hc : c = '\n'
      · subst hc
        refine ⟨before ++ [line], [], ?_, ?_⟩
        · rw [lines_append hlines (lines_newline []), List.append_nil, List.append_assoc]
          rfl
        · rw [after_newline, List.length_append]
          rfl
      · refine ⟨before, line ++ [c], ?_, ?_⟩
        · exact lines_append hlines (lines_cons_of_ne hc (@rfl _ [[]]))
        · rw [after_of_ne _ hc, List.length_append]
          rfl

/-- **Positions agree with lines.** The position behind a text is in its last line, behind the last
character. -/
theorem endOf_of_lines {front line : List Char} {before : List (List Char)}
    (h : lines front = before ++ [line]) :
    endOf front = ⟨before.length + 1, line.length + 1⟩ := by
  obtain ⟨before', line', hlines, hend⟩ := exists_lines_endOf front
  obtain ⟨rfl, hline⟩ := List.append_inj' (h.symm.trans hlines) rfl
  obtain rfl := (List.cons.inj hline).1
  exact hend

/-- A text whose first line is not empty starts with a character of this line. -/
theorem exists_cons_of_lines {cs line : List Char} {behind : List (List Char)}
    (h : lines cs = line :: behind) (hline : 0 < line.length) :
    ∃ c rest, cs = c :: rest ∧ c ≠ '\n' := by
  cases cs with
  | nil =>
      obtain rfl : [] = line := (List.cons.inj h).1
      exact absurd hline (Nat.lt_irrefl 0)
  | cons c rest =>
      refine ⟨c, rest, rfl, ?_⟩
      rintro rfl
      obtain rfl : [] = line := (List.cons.inj h).1
      exact absurd hline (Nat.lt_irrefl 0)

/-- Further on, lines do not go back. -/
theorem line_endOf_mono {front front' : List Char} (h : front <+: front') :
    (endOf front).line ≤ (endOf front').line := by
  rw [endOf_eq, endOf_eq]
  exact Nat.succ_le_succ (h.sublist.count_le _)

theorem one_le_line_endOf (front : List Char) : 1 ≤ (endOf front).line := by
  rw [endOf_eq]
  exact Nat.le_add_left 1 _

/-- Up to the line of a position, a text has every line. -/
theorem exists_line {cs front : List Char} (h : front <+: cs) {n : Nat}
    (hn : n ≤ (endOf front).line) :
    ∃ content, (lines cs)[n - 1]? = some content := by
  obtain ⟨rest, rfl⟩ := h
  obtain ⟨before, line, hfront, hend⟩ := exists_lines_endOf front
  obtain ⟨line', behind, hrest⟩ := exists_lines rest
  have hlt : n - 1 < (lines (front ++ rest)).length := by
    rw [hend] at hn
    rw [lines_append hfront hrest, List.length_append, List.length_cons]
    simp only at hn
    omega
  exact ⟨_, List.getElem?_eq_getElem hlt⟩

/-- A text can be cut at any place of any line. -/
theorem exists_cut {cs content : List Char} {n k : Nat} (h : (lines cs)[n]? = some content)
    (hk : k ≤ content.length) :
    ∃ front rest behind, cs = front ++ rest ∧ lines front = (lines cs).take n ++ [content.take k] ∧
      lines rest = content.drop k :: behind := by
  induction cs generalizing n k content with
  | nil =>
      obtain ⟨hn, hcontent⟩ := List.getElem?_eq_some_iff.mp h
      obtain rfl : n = 0 := Nat.lt_one_iff.mp hn
      obtain rfl : [] = content := hcontent
      obtain rfl : k = 0 := Nat.le_zero.mp hk
      exact ⟨[], [], [], rfl, rfl, rfl⟩
  | cons c cs ih =>
      by_cases hc : c = '\n'
      · subst hc
        rw [lines_newline] at h ⊢
        cases n with
        | zero =>
            obtain rfl : [] = content := Option.some.inj h
            obtain rfl : k = 0 := Nat.le_zero.mp hk
            exact ⟨[], '\n' :: cs, lines cs, rfl, rfl, rfl⟩
        | succ n =>
            obtain ⟨front, rest, behind, rfl, hfront, hrest⟩ := ih h hk
            refine ⟨'\n' :: front, rest, behind, rfl, ?_, hrest⟩
            rw [lines_newline, hfront, List.take_succ_cons, List.cons_append]
      · obtain ⟨line, more, hlines⟩ := exists_lines cs
        rw [lines_cons_of_ne hc hlines] at h ⊢
        cases n with
        | zero =>
            obtain rfl : c :: line = content := Option.some.inj h
            cases k with
            | zero => exact ⟨[], c :: cs, more, rfl, rfl, lines_cons_of_ne hc hlines⟩
            | succ k =>
                have hline : (lines cs)[0]? = some line := by rw [hlines]; rfl
                obtain ⟨front, rest, behind, rfl, hfront, hrest⟩ :=
                  ih hline (Nat.le_of_succ_le_succ hk)
                exact ⟨c :: front, rest, behind, rfl, lines_cons_of_ne hc hfront, hrest⟩
        | succ n =>
            have hline : (lines cs)[n + 1]? = some content := by rw [hlines]; exact h
            obtain ⟨front, rest, behind, rfl, hfront, hrest⟩ := ih hline hk
            rw [hlines, List.take_succ_cons] at hfront
            exact ⟨c :: front, rest, behind, rfl, lines_cons_of_ne hc hfront, hrest⟩

/-! ## Single characters -/

/-- `Stands cs front c ⟨line, column⟩`: behind `front`, the text has `c` as the character of a line
that has this column. -/
structure Stands (cs front : List Char) (c : Char) (p : Position) : Prop where
  isPrefix : front ++ [c] <+: cs
  inLine : c ≠ '\n'
  line : p.line = front.count '\n' + 1
  column : p.column = (front.reverse.takeWhile (· != '\n')).length + 1

variable {cs front content : List Char} {c : Char} {p : Position}

theorem Stands.endOf_eq (h : Stands cs front c p) : endOf front = p := by
  rw [Text.endOf_eq, ← h.line, ← h.column]

/-- The characters of a line are in its columns from the first to the last. -/
theorem exists_stands_iff (hcontent : (lines cs)[p.line - 1]? = some content)
    (hline : 1 ≤ p.line) :
    (∃ front c, Stands cs front c p) ↔ 1 ≤ p.column ∧ p.column ≤ content.length := by
  constructor
  · rintro ⟨front, c, h⟩
    obtain ⟨back, hback⟩ := h.isPrefix
    obtain ⟨before, line, hfront, hend⟩ := exists_lines_endOf front
    obtain ⟨line', behind, hrest⟩ := exists_lines back
    have hlines := lines_append hfront (lines_cons_of_ne h.inLine hrest)
    rw [← List.append_cons] at hback
    rw [hback] at hlines
    obtain rfl := h.endOf_eq.symm.trans hend
    rw [hlines, Nat.add_sub_cancel, List.getElem?_append_right (Nat.le_refl _),
      Nat.sub_self] at hcontent
    obtain rfl : line ++ c :: line' = content := Option.some.inj hcontent
    rw [List.length_append, List.length_cons]
    exact ⟨Nat.le_add_left 1 _, Nat.add_le_add_left (Nat.le_add_left 1 _) _⟩
  · rintro ⟨hpos, hle⟩
    have hlt : p.column - 1 < content.length := by omega
    obtain ⟨front, rest, behind, rfl, hfront, hrest⟩ := exists_cut hcontent (Nat.le_of_lt hlt)
    obtain ⟨c, back, rfl, hc⟩ :=
      exists_cons_of_lines hrest (by rwa [List.length_drop, Nat.sub_pos_iff_lt])
    have hend := endOf_of_lines hfront
    obtain ⟨hlength, -⟩ := List.getElem?_eq_some_iff.mp hcontent
    rw [List.length_take, List.length_take, Nat.min_eq_left (Nat.le_of_lt hlength),
      Nat.min_eq_left (Nat.le_of_lt hlt), Nat.sub_add_cancel hline, Nat.sub_add_cancel hpos,
      endOf_eq] at hend
    refine ⟨front, c, ⟨back, (List.append_cons ..).symm⟩, hc, ?_, ?_⟩
    · exact (congrArg Position.line hend).symm
    · exact (congrArg Position.column hend).symm

end Pseudocode.Text
