import Pseudocode.Diagnostic.Render
import Pseudocode.Proofs.Positions

/-!
# What is drawn below the lines of a source

Without colours, a diagnostic is drawn as a headline, a place, source lines with what stands below
them, and notes (`layout`). The lines shown are those that some label touches, each once and in
order, and in the row below a line the carets are in the columns that some label covers
(`draw_union`). Labels may overlap, be empty or reversed, and point anywhere.

Carets are written in one go from left to right, so that a column which has been passed stays as it
is. That is enough since the labels come in the order of their starts: a blank is only written in
front of the next label, and those behind it start no earlier (`carets_getElem?_iff`). And every
line a label touches is there, since positions agree with lines.
-/

namespace Pseudocode.Diagnostic

open Text (Position position lines spaces alignRight)

namespace Sheet

/-! ## Lines and columns of a label -/

/-- A label touches the lines from the one where it starts to the one with its last byte. -/
def Touches (source : List Char) (label : Label) (n : Nat) : Prop :=
  (position source label.span.start).line ≤ n ∧ n ≤ (position source (lastOffset label.span)).line

instance (source : List Char) (label : Label) (n : Nat) : Decidable (Touches source label n) :=
  inferInstanceAs (Decidable (_ ∧ _))

/-- The column where a label starts on a line that it touches: its own on its first line, and the
first one on the lines behind. -/
def firstColumn (source : List Char) (label : Label) (n : Nat) : Nat :=
  if (position source label.span.start).line = n then (position source label.span.start).column
  else 1

/-- One past the column where a label stops on a line of this length: that of its last byte on its
last line, and that of the last character on the lines before. -/
def stopColumn (source : List Char) (label : Label) (n length : Nat) : Nat :=
  if (position source (lastOffset label.span)).line = n then
    (position source (lastOffset label.span)).column + 1
  else length + 1

/-- The label covers this column of a line that it touches. -/
structure Covers (source : List Char) (label : Label) (n length column : Nat) : Prop where
  touches : Touches source label n
  first_le : firstColumn source label n ≤ column
  lt_stop : column < stopColumn source label n length

/-- A label covers the columns from its first up to its last one on the line. -/
theorem covers_iff_and {source : List Char} {label : Label} {n length column : Nat} :
    Covers source label n length column ↔ Touches source label n ∧
      firstColumn source label n ≤ column ∧ column < stopColumn source label n length :=
  ⟨fun h => ⟨h.touches, h.first_le, h.lt_stop⟩, fun h => ⟨h.1, h.2.1, h.2.2⟩⟩

/-- The labels that touch a line, by the columns where they start on it. Those that start in the
same column are in the order in which they were given. -/
def labelsOn (source : List Char) (labels : List Label) (n : Nat) : List Label :=
  (labels.filter fun label => Touches source label n).mergeSort fun a b =>
    firstColumn source a n ≤ firstColumn source b n

/-- What the labels say about a line, each remark with the column below which it starts. A label
without a message says nothing. -/
def remarksOn (source : List Char) (labels : List Label) (n : Nat) : List (Nat × String) :=
  ((labelsOn source labels n).filter fun label => label.message != "").map fun label =>
    (firstColumn source label n, label.message)

variable {s : Sheet} {labels : List Label} {label : Label} {n length : Nat}

theorem mem_linesOf : n ∈ s.linesOf label ↔ Touches s.source label n := by
  simp only [linesOf, extent, List.mem_range'_1, Touches]
  omega

/-- A label touches the line where it starts. -/
theorem touches_first (source : List Char) (label : Label) :
    Touches source label (position source label.span.start).line := by
  refine ⟨Nat.le_refl _, ?_⟩
  rw [Text.position_eq, Text.position_eq]
  have hreach := Text.reach_mono (Nat.le_max_right (label.span.stop - 1) label.span.start) source
  exact Text.line_endOf_mono hreach

/-! ## The lines that are shown -/

theorem nodup_eraseDups (ns : List Nat) : ns.eraseDups.Nodup := by
  induction h : ns.length using Nat.strongRecOn generalizing ns with
  | ind k ih =>
      cases ns with
      | nil => exact List.nodup_nil
      | cons n ns =>
          have hle := List.length_filter_le (fun m => !m == n) ns
          rw [List.length_cons] at h
          rw [List.eraseDups_cons, List.nodup_cons, List.mem_eraseDups]
          exact ⟨by simp, ih _ (by omega) _ rfl⟩

/-- Each line is shown once, and lines in order. -/
theorem linesToShow_increasing (s : Sheet) (labels : List Label) :
    (s.linesToShow labels).Pairwise (· < ·) := by
  have hsorted : (s.linesToShow labels).Pairwise (fun m n => decide (m ≤ n) = true) :=
    List.pairwise_mergeSort (by simpa using fun _ _ _ => Nat.le_trans)
      (by simpa using Nat.le_total) _
  have hnodup : (s.linesToShow labels).Nodup :=
    (List.mergeSort_perm _ _).nodup_iff.mpr (nodup_eraseDups _)
  exact (hsorted.and hnodup).imp fun h => Nat.lt_of_le_of_ne (of_decide_eq_true h.1) h.2

/-- A line is shown if some label touches it. -/
theorem mem_linesToShow : n ∈ s.linesToShow labels ↔
    ∃ label ∈ labels, Touches s.source label n := by
  simp only [linesToShow, List.mem_mergeSort, List.mem_eraseDups, List.mem_flatMap, mem_linesOf]

/-- A line that a label touches is there. -/
theorem Touches.exists_line {source : List Char} (h : Touches source label n) :
    1 ≤ n ∧ ∃ content, (lines source)[n - 1]? = some content := by
  obtain ⟨hfirst, hlast⟩ := h
  rw [Text.position_eq] at hfirst hlast
  exact ⟨Nat.le_trans (Text.one_le_line_endOf _) hfirst,
    Text.exists_line (Text.reach_prefix _ _) hlast⟩

/-! ## Rows of carets -/

/-- What a label underlines of a line that it touches. -/
def underlineOf (source : List Char) (n length : Nat) (label : Label) : Underline :=
  ⟨firstColumn source label n, stopColumn source label n length, label.message⟩

/-- A label underlines something of the lines that it touches, and nothing of the others. -/
theorem underline?_eq (s : Sheet) (n length : Nat) (label : Label) : s.underline? n length label =
    if Touches s.source label n then some (underlineOf s.source n length label) else none := by
  have htouches : ((s.extent label).1.line ≤ n && n ≤ (s.extent label).2.line) =
      decide (Touches s.source label n) := by
    rw [Bool.eq_iff_iff, Bool.and_eq_true, decide_eq_true_eq, decide_eq_true_eq, decide_eq_true_eq]
    rfl
  unfold underline?
  simp only [htouches, decide_eq_true_eq]
  rfl

/-- The underlines of a line are those of the labels that touch it, in the same order. -/
theorem underlines_eq (s : Sheet) (labels : List Label) (n length : Nat) :
    s.underlines labels n length =
      (labelsOn s.source labels n).map (underlineOf s.source n length) := by
  have hunderlines : labels.filterMap (s.underline? n length) =
      (labels.filter fun label => Touches s.source label n).map
        (underlineOf s.source n length) := by
    rw [← List.filterMap_eq_map, List.filterMap_filter]
    refine congrArg (fun f => labels.filterMap f) (funext fun label => ?_)
    simp only [underline?_eq, decide_eq_true_eq, Function.comp_apply]
  unfold underlines labelsOn
  rw [hunderlines]
  refine (List.map_mergeSort ?_).symm
  intro a _ b _
  rfl

theorem mem_labelsOn : label ∈ labelsOn s.source labels n ↔
    label ∈ labels ∧ Touches s.source label n := by
  rw [labelsOn, List.mem_mergeSort, List.mem_filter, decide_eq_true_eq]

/-- What holds of some underline holds of what some label underlines. -/
theorem exists_underline_iff {P : Underline → Prop} : (∃ u ∈ s.underlines labels n length, P u) ↔
    ∃ label ∈ labels, Touches s.source label n ∧ P (underlineOf s.source n length label) := by
  rw [underlines_eq]
  constructor
  · rintro ⟨u, hu, hP⟩
    obtain ⟨label, hon, rfl⟩ := List.mem_map.mp hu
    obtain ⟨hlabel, htouches⟩ := mem_labelsOn.mp hon
    exact ⟨label, hlabel, htouches, hP⟩
  · rintro ⟨label, hlabel, htouches, hP⟩
    exact ⟨_, List.mem_map_of_mem (mem_labelsOn.mpr ⟨hlabel, htouches⟩), hP⟩

theorem underlines_sorted (s : Sheet) (labels : List Label) (n length : Nat) :
    (s.underlines labels n length).Pairwise fun u v => u.first ≤ v.first := by
  have hsorted : (s.underlines labels n length).Pairwise
      fun u v => decide (u.first ≤ v.first) = true :=
    List.pairwise_mergeSort (by simpa using fun _ _ _ => Nat.le_trans)
      (by simpa using fun _ _ => Nat.le_total _ _) _
  exact hsorted.imp of_decide_eq_true

/-- For underlines in the order of their starts, the carets from a column on are in the columns of
any of them. -/
theorem carets_getElem?_iff {us : List Underline} (h : us.Pairwise fun u v => u.first ≤ v.first)
    (column i : Nat) :
    (carets column us)[i]? = some '^' ↔ ∃ u ∈ us, u.first ≤ column + i ∧ column + i < u.stop := by
  induction us generalizing column i with
  | nil => simp [carets]
  | cons u us ih =>
      obtain ⟨hfirst, hsorted⟩ := List.pairwise_cons.mp h
      -- the blanks, the carets of `u`, and the column behind them
      obtain ⟨blanks, hblanks⟩ : ∃ blanks, blanks = u.first - column := ⟨_, rfl⟩
      obtain ⟨marks, hmarks⟩ : ∃ marks, marks = u.stop - max column u.first := ⟨_, rfl⟩
      have hnext : max (max column u.first) u.stop = column + (blanks + marks) := by omega
      have hrow : carets column (u :: us) =
          List.replicate blanks ' ' ++ (List.replicate marks '^' ++
          carets (column + (blanks + marks)) us) := by
        rw [carets, hnext, ← hblanks, ← hmarks, List.append_assoc]
      simp only [hrow, List.mem_cons, exists_eq_or_imp]
      rcases Nat.lt_or_ge i blanks with hi | hi
      · -- neither `u` nor a later underline starts so early
        have hnone : ∀ v ∈ us, ¬ v.first ≤ column + i := fun v hv hle => by
          have := hfirst v hv
          omega
        rw [List.getElem?_append_left (by rwa [List.length_replicate]),
          List.getElem?_replicate, if_pos hi]
        refine iff_of_false (by decide) ?_
        rintro (hu | ⟨v, hv, hle, -⟩)
        · omega
        · exact hnone v hv hle
      · rw [List.getElem?_append_right (by rwa [List.length_replicate]), List.length_replicate]
        rcases Nat.lt_or_ge (i - blanks) marks with hi' | hi'
        · rw [List.getElem?_append_left (by rwa [List.length_replicate]),
            List.getElem?_replicate, if_pos hi']
          exact iff_of_true rfl (.inl (by omega))
        · have hnot : ¬ (u.first ≤ column + i ∧ column + i < u.stop) := by omega
          have hcolumn : column + (blanks + marks) + (i - blanks - marks) = column + i := by omega
          rw [List.getElem?_append_right (by rwa [List.length_replicate]), List.length_replicate,
            ih hsorted, hcolumn, or_iff_right hnot]

/-- A row of carets goes as far as one of its underlines, or up to where an empty one starts. -/
theorem lt_length_carets_iff (us : List Underline) (column i : Nat) :
    i < (carets column us).length ↔ ∃ u ∈ us, column + i < max u.first u.stop := by
  induction us generalizing column i with
  | nil => simp [carets]
  | cons u us ih =>
      obtain ⟨next, hnext⟩ : ∃ next, next = max (max column u.first) u.stop := ⟨_, rfl⟩
      have hlength : (carets column (u :: us)).length =
          next - column + (carets next us).length := by
        rw [carets, ← hnext]
        simp only [List.length_append, List.length_replicate]
        omega
      rw [hlength]
      simp only [List.mem_cons, exists_eq_or_imp]
      rcases Nat.lt_or_ge (column + i) next with hi | hi
      · exact iff_of_true (by omega) (.inl (by omega))
      · have hrest : column + i = next + (i - (next - column)) := by omega
        have hnot : ¬ column + i < max u.first u.stop := by omega
        rw [or_iff_right hnot, hrest, ← ih]
        omega

theorem mem_carets {c : Char} {column : Nat} {us : List Underline} (h : c ∈ carets column us) :
    c = ' ' ∨ c = '^' := by
  induction us generalizing column with
  | nil => exact absurd h List.not_mem_nil
  | cons u us ih =>
      rw [carets, List.mem_append, List.mem_append, List.mem_replicate, List.mem_replicate] at h
      rcases h with (h | h) | h
      · exact .inl h.2
      · exact .inr h.2
      · exact ih h

/-- Below a line, the carets are in the columns that some label covers. -/
theorem carets_underlines_iff (s : Sheet) (labels : List Label) (n length i : Nat) :
    (carets 1 (s.underlines labels n length))[i]? = some '^' ↔
      ∃ label ∈ labels, Covers s.source label n length (i + 1) := by
  rw [carets_getElem?_iff (s.underlines_sorted labels n length), exists_underline_iff,
    Nat.add_comm 1 i]
  simp only [covers_iff_and]
  rfl

theorem length_carets_underlines_iff (s : Sheet) (labels : List Label) (n length i : Nat) :
    i < (carets 1 (s.underlines labels n length)).length ↔
      ∃ label ∈ labels, Touches s.source label n ∧
        i + 1 < max (firstColumn s.source label n) (stopColumn s.source label n length) := by
  rw [lt_length_carets_iff, exists_underline_iff, Nat.add_comm 1 i]
  rfl

/-! ## The layout of a drawing -/

/-- A source line as it is drawn: its number, its characters, the carets below it, and the remarks
below these, each with the column where it starts. -/
structure DrawnLine where
  number : Nat
  content : List Char
  carets : List Char
  remarks : List (Nat × String)

/-- What stands left of a row without a line number. -/
def margin (width : Nat) : String := spaces (width + 1) ++ " |"

/-- A source line with what stands below it, for line numbers of this width. -/
def DrawnLine.text (width : Nat) (line : DrawnLine) : String :=
  alignRight (width + 1) (toString line.number) ++ " | " ++ String.ofList line.content ++ "\n"
    ++ (margin width ++ " " ++ String.ofList line.carets ++ "\n")
    ++ String.join (line.remarks.map fun remark => margin width ++ " " ++ spaces (remark.1 - 1)
      ++ remark.2 ++ "\n")

/-- The part of a drawing that is about labels, the first of which starts at `place`. Line numbers
have the width of the last one. -/
def excerpt (file : String) (place : Position) (shown : List DrawnLine) : String :=
  let width := (toString ((shown.getLast?.map DrawnLine.number).getD 1)).length
  "  --> " ++ file ++ ":" ++ toString place.line ++ ":" ++ toString place.column ++ "\n"
    ++ margin width ++ "\n"
    ++ String.join (shown.map (DrawnLine.text width)) ++ margin width ++ "\n"

/-- What stands before the message. -/
def headline (code : Option String) : String :=
  (code.map fun code => "error[" ++ code ++ "]").getD "error"

/-- A diagnostic without colours, in which these source lines are shown. -/
def layout (source : List Char) (file : String) (d : Diagnostic)
    (shown : List DrawnLine) : String :=
  headline d.code ++ ": " ++ d.message ++ "\n"
    ++
    (d.labels.head?.map fun label => excerpt file (position source label.span.start) shown).getD ""
    ++ String.join (d.notes.map fun note => "  = " ++ note ++ "\n")

/-- How a line is drawn on which there are labels. -/
def drawnLine (s : Sheet) (labels : List Label) (n : Nat) (content : List Char) : DrawnLine :=
  let marks := s.underlines labels n content.length
  ⟨n, content, carets 1 marks, (marks.filter fun u => u.remark != "").map
    fun u => (u.first, u.remark)⟩

/-- The lines that are shown. -/
def drawnLines (s : Sheet) (labels : List Label) : List DrawnLine :=
  (s.linesToShow labels).map fun n => s.drawnLine labels n ((lines s.source)[n - 1]?.getD [])

theorem gutter_plain (hplain : s.colored = false) (width : Nat) :
    s.gutter width = margin width := by
  rw [gutter, paint, hplain, margin, if_neg Bool.false_ne_true, String.append_assoc]
  rfl

/-- A line that some label touches is drawn with carets below it. -/
theorem drawLine_plain (hplain : s.colored = false) {content : List Char} {width : Nat}
    (hcontent : (lines s.source)[n - 1]? = some content)
    (htouches : ∃ label ∈ labels, Touches s.source label n) :
    s.drawLine labels width n = (s.drawnLine labels n content).text width := by
  have hmarks : (s.underlines labels n content.length).isEmpty = false := by
    obtain ⟨label, hlabel, h⟩ := htouches
    rw [underlines_eq, List.isEmpty_map]
    exact List.isEmpty_eq_false_iff_exists_mem.mpr ⟨label, mem_labelsOn.mpr ⟨hlabel, h⟩⟩
  have hbar (text : String) : " " ++ ("|" ++ (" " ++ text)) = " | " ++ text := by
    rw [← String.append_assoc, ← String.append_assoc]
    rfl
  simp only [drawLine, hcontent, hmarks, paint, hplain, gutter_plain hplain, Bool.false_eq_true,
    if_false, DrawnLine.text, drawnLine, List.map_map, Function.comp_def,
    String.append_assoc, hbar]

theorem map_number_drawnLines (s : Sheet) (labels : List Label) :
    (s.drawnLines labels).map DrawnLine.number = s.linesToShow labels := by
  rw [drawnLines, List.map_map]
  exact List.map_id _

/-- The lines that are shown are there, each with its characters. -/
theorem mem_drawnLines {line : DrawnLine} (h : line ∈ s.drawnLines labels) :
    (∃ label ∈ labels, Touches s.source label line.number) ∧
      (lines s.source)[line.number - 1]? = some line.content ∧
      line = s.drawnLine labels line.number line.content := by
  obtain ⟨n, hn, rfl⟩ := List.mem_map.mp h
  obtain ⟨label, hlabel, htouches⟩ := mem_linesToShow.mp hn
  obtain ⟨-, content, hcontent⟩ := htouches.exists_line
  rw [hcontent]
  exact ⟨⟨label, hlabel, htouches⟩, hcontent, rfl⟩

theorem carets_of_mem_drawnLines {line : DrawnLine} (h : line ∈ s.drawnLines labels) :
    line.carets = carets 1 (s.underlines labels line.number line.content.length) :=
  congrArg DrawnLine.carets (mem_drawnLines h).2.2

theorem remarks_of_mem_drawnLines {line : DrawnLine} (h : line ∈ s.drawnLines labels) :
    line.remarks = remarksOn s.source labels line.number := by
  have hremarks := congrArg DrawnLine.remarks (mem_drawnLines h).2.2
  rw [hremarks]
  show ((s.underlines labels line.number line.content.length).filter _).map _ = _
  rw [underlines_eq, List.filter_map, List.map_map]
  rfl

theorem map_drawLine_plain (hplain : s.colored = false) (labels : List Label) (width : Nat) :
    (s.linesToShow labels).map (s.drawLine labels width) =
      (s.drawnLines labels).map (DrawnLine.text width) := by
  rw [← map_number_drawnLines, List.map_map]
  refine List.map_congr_left fun line hline => ?_
  obtain ⟨htouches, hcontent, hdrawn⟩ := mem_drawnLines hline
  exact (drawLine_plain hplain hcontent htouches).trans
    (congrArg (DrawnLine.text width) hdrawn.symm)

/-- The lines of all labels, laid out. -/
theorem drawLabels_plain (hplain : s.colored = false) (label : Label) (labels : List Label) :
    s.drawLabels (label :: labels) =
      excerpt s.file (position s.source label.span.start) (s.drawnLines (label :: labels)) := by
  have harrow (text : String) : "  " ++ ("-->" ++ (" " ++ text)) = "  --> " ++ text := by
    rw [← String.append_assoc, ← String.append_assoc]
    rfl
  unfold drawLabels excerpt
  rw [← List.getLast?_map, map_number_drawnLines]
  simp only [map_drawLine_plain hplain, gutter_plain hplain, paint, hplain,
    Bool.false_eq_true, if_false, String.append_assoc, harrow]

theorem draw_eq (s : Sheet) (d : Diagnostic) : s.draw d =
    s.paint .redBold (headline d.code) ++ ": " ++ s.paint .bold d.message ++ "\n"
      ++ s.drawLabels d.labels
      ++ String.join (d.notes.map fun note => "  " ++ s.paint .blue "=" ++ " "
        ++ note ++ "\n") := by
  unfold draw
  cases d.code with
  | none => rfl
  | some code => rfl

/-- Without colours, a drawing is the layout of the lines that are shown. -/
theorem draw_plain (hplain : s.colored = false) (d : Diagnostic) :
    s.draw d = layout s.source s.file d (s.drawnLines d.labels) := by
  have hnote (text : String) : "  " ++ ("=" ++ (" " ++ text)) = "  = " ++ text := by
    rw [← String.append_assoc, ← String.append_assoc]
    rfl
  have hlabels : s.drawLabels d.labels = (d.labels.head?.map fun label =>
      excerpt s.file (position s.source label.span.start) (s.drawnLines d.labels)).getD "" := by
    cases d.labels with
    | nil => rfl
    | cons label labels => exact drawLabels_plain hplain label labels
  simp only [draw_eq, layout, hlabels, paint, hplain, Bool.false_eq_true, if_false,
    String.append_assoc, hnote]

/-! ## What is to be shown for labels -/

/-- A source line as labels ask for it. -/
structure DrawnLine.Marks (source : List Char) (labels : List Label)
    (line : DrawnLine) : Prop where
  /-- Lines are counted from one. -/
  one_le : 1 ≤ line.number
  /-- The line is there in the source, with these characters. -/
  content : (lines source)[line.number - 1]? = some line.content
  /-- Carets are in the columns that some label covers. -/
  caret_iff : ∀ i, line.carets[i]? = some '^' ↔
    ∃ label ∈ labels, Covers source label line.number line.content.length (i + 1)
  /-- In the other columns there are blanks. -/
  blank : ∀ c ∈ line.carets, c = ' ' ∨ c = '^'
  /-- The row ends with the last column of a label, or before the one where an empty label
  starts. -/
  lt_length_iff : ∀ i, i < line.carets.length ↔
    ∃ label ∈ labels, Touches source label line.number ∧
    i + 1 < max (firstColumn source label line.number)
      (stopColumn source label line.number line.content.length)
  /-- Below the carets is what the labels say, and nothing else. -/
  remarks : line.remarks = remarksOn source labels line.number

/-- The source lines that labels touch, each once, in order, and as the labels ask for it. -/
structure Shows (source : List Char) (labels : List Label) (shown : List DrawnLine) : Prop where
  /-- Lines are in order, and none is there twice. -/
  increasing : (shown.map DrawnLine.number).Pairwise (· < ·)
  /-- They are the lines that some label touches. -/
  mem_iff : ∀ n, n ∈ shown.map DrawnLine.number ↔ ∃ label ∈ labels, Touches source label n
  /-- Each is as the labels ask for it. -/
  marks : ∀ line ∈ shown, line.Marks source labels

/-- A row of blanks and carets is known from its length and from where its carets are. -/
theorem eq_of_caret_iff {row other : List Char} (hrow : ∀ c ∈ row, c = ' ' ∨ c = '^')
    (hother : ∀ c ∈ other, c = ' ' ∨ c = '^')
    (hcaret : ∀ i : Nat, row[i]? = some '^' ↔ other[i]? = some '^')
    (hlength : ∀ i, i < row.length ↔ i < other.length) : row = other := by
  refine List.ext_getElem? fun i => ?_
  rcases Nat.lt_or_ge i row.length with hi | hi
  · have hi' := (hlength i).mp hi
    have hmark := hcaret i
    rw [List.getElem?_eq_getElem hi, List.getElem?_eq_getElem hi'] at hmark ⊢
    rw [Option.some.injEq, Option.some.injEq] at hmark
    rcases hrow _ (List.getElem_mem hi) with hblank | hmarked
    · have hunmarked : other[i] ≠ '^' := fun h =>
        absurd (hblank.symm.trans (hmark.mpr h)) (by decide)
      rw [hblank, (hother _ (List.getElem_mem hi')).resolve_right hunmarked]
    · rw [hmarked, hmark.mp hmarked]
  · have hi' : ¬ i < other.length := mt (hlength i).mpr (Nat.not_lt.mpr hi)
    rw [List.getElem?_eq_none hi, List.getElem?_eq_none (Nat.not_lt.mp hi')]

/-- A line is known from its number and the labels. -/
theorem DrawnLine.Marks.eq {source : List Char} {a b : DrawnLine} (ha : a.Marks source labels)
    (hb : b.Marks source labels) (hnumber : a.number = b.number) : a = b := by
  obtain ⟨n, content, row, remarks⟩ := a
  obtain ⟨m, content', row', remarks'⟩ := b
  obtain rfl : n = m := hnumber
  obtain rfl : content = content' := Option.some.inj (ha.content.symm.trans hb.content)
  obtain rfl : remarks = remarks' := ha.remarks.trans hb.remarks.symm
  obtain rfl : row = row' := eq_of_caret_iff ha.blank hb.blank
    (fun i => (ha.caret_iff i).trans (hb.caret_iff i).symm)
    (fun i => (ha.lt_length_iff i).trans (hb.lt_length_iff i).symm)
  rfl

/-- Which lines are shown, and in which order, is known from the labels. -/
theorem Shows.map_number_eq {source : List Char} {shown other : List DrawnLine}
    (h : Shows source labels shown) (h' : Shows source labels other) :
    other.map DrawnLine.number = shown.map DrawnLine.number := by
  have hnodup := h.increasing.imp fun hlt => Nat.ne_of_lt hlt
  have hnodup' := h'.increasing.imp fun hlt => Nat.ne_of_lt hlt
  refine List.Perm.eq_of_pairwise ?_ h'.increasing h.increasing ?_
  · exact fun a b _ _ hab hba => absurd hab (Nat.lt_asymm hba)
  · exact (List.perm_ext_iff_of_nodup hnodup' hnodup).mpr fun n =>
      (h'.mem_iff n).trans (h.mem_iff n).symm

/-- Labels say in full what is shown for them. -/
theorem Shows.unique {source : List Char} {shown other : List DrawnLine}
    (h : Shows source labels shown) (h' : Shows source labels other) : other = shown := by
  have hnumbers := h.map_number_eq h'
  have hmarks := h.marks
  have hmarks' := h'.marks
  clear h h'
  induction other generalizing shown with
  | nil => exact (List.map_eq_nil_iff.mp hnumbers.symm).symm
  | cons line other ih =>
      cases shown with
      | nil => exact absurd hnumbers (List.cons_ne_nil _ _)
      | cons line' shown =>
          obtain ⟨hnumber, hrest⟩ := List.cons.inj hnumbers
          obtain ⟨hline, hother⟩ := List.forall_mem_cons.mp hmarks'
          obtain ⟨hline', hshown⟩ := List.forall_mem_cons.mp hmarks
          rw [hline.eq hline' hnumber, ih hrest hshown hother]

/-- A line that is shown has what the labels ask for. -/
theorem marks_of_mem_drawnLines {line : DrawnLine} (h : line ∈ s.drawnLines labels) :
    line.Marks s.source labels := by
  obtain ⟨⟨label, -, htouches⟩, hcontent, -⟩ := mem_drawnLines h
  have hcarets := carets_of_mem_drawnLines h
  refine ⟨htouches.exists_line.1, hcontent, fun i => ?_, fun c hc => ?_, fun i => ?_, ?_⟩
  · rw [hcarets]
    exact s.carets_underlines_iff labels line.number line.content.length i
  · rw [hcarets] at hc
    exact mem_carets hc
  · rw [hcarets]
    exact s.length_carets_underlines_iff labels line.number line.content.length i
  · exact remarks_of_mem_drawnLines h

/-- The lines that are shown are the ones to be shown. -/
theorem shows_drawnLines (s : Sheet) (labels : List Label) :
    Shows s.source labels (s.drawnLines labels) where
  increasing := by
    rw [map_number_drawnLines]
    exact s.linesToShow_increasing labels
  mem_iff n := by
    rw [map_number_drawnLines]
    exact mem_linesToShow
  marks _ h := marks_of_mem_drawnLines h

/-- **Lines and carets of several labels are unions.**

Without colours, a diagnostic shows the lines that some label touches, each once and in order. All
of them are there in the source. The carets below a line are in the columns that some label covers,
and below the carets are the remarks of the labels that touch the line. Nothing else can be shown
for these labels, so that the drawing has no further lines or rows. -/
theorem draw_union (source : List Char) (file : String) (d : Diagnostic) :
    ∃ shown : List DrawnLine, (⟨source, file, false⟩ : Sheet).draw d = layout source file d shown ∧
      Shows source d.labels shown ∧ ∀ other, Shows source d.labels other → other = shown := by
  let s : Sheet := ⟨source, file, false⟩
  have hshows : Shows source d.labels (s.drawnLines d.labels) := s.shows_drawnLines d.labels
  exact ⟨s.drawnLines d.labels, draw_plain rfl d, hshows, fun _ hother => hshows.unique hother⟩

end Sheet

end Pseudocode.Diagnostic
