import Mathlib
import Pseudocode.Diagnostic.Render
import Pseudocode.Proofs.DrawnLines

/-!
# Colours and blanks

Colours are escape sequences around parts of a drawing. With the sequences deleted, a drawing in
colours has the text of the drawing without, except for blanks: a line number is aligned together
with its colour, whose characters count for the width of the field, so that blanks are missing in
front of it (`renderAll_stripped`). Nothing is missing exactly if no diagnostic has a label, since
then no line number is drawn.

The two drawings are compared part by part. `Fades` says of two parts that the first, with its
sequences deleted, is the second with some blanks left out, and counts these. The parts of a
drawing are put together by appending, and the counts add up.
-/

namespace Pseudocode.Diagnostic

open Text (lines spaces alignRight)

/-! ## Escape sequences -/

/-- What stands behind an escape sequence, if the text starts with one: the escape character, a
bracket, digits and `m`. -/
def behindEscape? : List Char → Option (List Char)
  | '\x1b' :: '[' :: rest =>
    match rest.dropWhile Char.isDigit with
    | 'm' :: behind => some behind
    | _ => none
  | _ => none

/-- What stands behind a sequence is shorter, which is why deleting all of them ends. -/
theorem length_behindEscape? {cs behind : List Char} (h : behindEscape? cs = some behind) :
    behind.length < cs.length := by
  unfold behindEscape? at h
  split at h
  · rename_i rest
    have hle := (List.dropWhile_suffix (l := rest) Char.isDigit).length_le
    split at h
    · rename_i heq
      cases h
      rw [heq, List.length_cons] at hle
      simp only [List.length_cons]
      omega
    · cases h
  · cases h

/-- The text without its escape sequences. -/
def stripEscapes (cs : List Char) : List Char :=
  match cs with
  | [] => []
  | c :: rest =>
    match h : behindEscape? (c :: rest) with
    | some behind =>
      have := length_behindEscape? h
      stripEscapes behind
    | none => c :: stripEscapes rest
termination_by cs.length
decreasing_by
  · assumption
  · exact Nat.lt_succ_self _

theorem stripEscapes_of_some {c : Char} {rest behind : List Char}
    (h : behindEscape? (c :: rest) = some behind) :
    stripEscapes (c :: rest) = stripEscapes behind := by
  rw [stripEscapes]
  split
  · rename_i heq
    exact congrArg stripEscapes (Option.some.inj (heq.symm.trans h))
  · rename_i heq
    exact absurd (heq.symm.trans h) (by simp)

theorem stripEscapes_of_none {c : Char} {rest : List Char} (h : behindEscape? (c :: rest) = none) :
    stripEscapes (c :: rest) = c :: stripEscapes rest := by
  rw [stripEscapes]
  split
  · rename_i heq
    exact absurd (heq.symm.trans h) (by simp)
  · rfl

/-- Whatever follows, deleting the sequences of `text` leaves `bare`. -/
def Strips (text bare : List Char) : Prop :=
  ∀ rest, stripEscapes (text ++ rest) = bare ++ stripEscapes rest

namespace Strips

variable {text bare text' bare' : List Char}

/-- Parts are stripped one after the other. -/
theorem append (h : Strips text bare) (h' : Strips text' bare') :
    Strips (text ++ text') (bare ++ bare') := by
  intro rest
  rw [List.append_assoc, h, h', List.append_assoc]

theorem stripEscapes_eq (h : Strips text bare) : stripEscapes text = bare := by
  have hend := h []
  rwa [List.append_nil, stripEscapes, List.append_nil] at hend

/-- A text without the escape character stays as it is. -/
theorem of_clean (h : '\x1b' ∉ text) : Strips text text := by
  intro rest
  induction text with
  | nil => rfl
  | cons c text ih =>
      rw [List.mem_cons, not_or] at h
      have hnone : behindEscape? (c :: (text ++ rest)) = none := by
        unfold behindEscape?
        split
        · rename_i heq
          exact absurd (List.cons.inj heq).1.symm h.1
        · rfl
      rw [List.cons_append, stripEscapes_of_none hnone, ih h.2, List.cons_append]

/-- Of one escape sequence nothing is left. -/
theorem of_sequence {digits : List Char} (h : digits.all Char.isDigit = true) :
    Strips ('\x1b' :: '[' :: (digits ++ ['m'])) [] := by
  intro rest
  have hdrop : (digits ++ ['m'] ++ rest).dropWhile Char.isDigit = 'm' :: rest := by
    rw [List.append_assoc, List.dropWhile_append_of_pos (List.all_eq_true.mp h)]
    rfl
  have hbehind : behindEscape? ('\x1b' :: '[' :: (digits ++ ['m'] ++ rest)) = some rest := by
    rw [behindEscape?, hdrop]
    rfl
  exact stripEscapes_of_some hbehind

/-- A text between two sequences, which go. -/
theorem around {opening text closing : String} (h : Strips opening.toList [])
    (h' : Strips closing.toList []) (hclean : '\x1b' ∉ text.toList) :
    Strips (opening ++ text ++ closing).toList text.toList := by
  have hall := (h.append (of_clean hclean)).append h'
  rwa [List.nil_append, List.append_nil, ← String.toList_append, ← String.toList_append] at hall

end Strips

/-- A painted text is the text between escape sequences. -/
theorem strips_paint (ink : Ink) {text : String} (h : '\x1b' ∉ text.toList) :
    Strips (ink.paint text).toList text.toList := by
  have hred : Strips "\x1b[31m".toList [] := @Strips.of_sequence ['3', '1'] (by decide)
  have hblue : Strips "\x1b[34m".toList [] := @Strips.of_sequence ['3', '4'] (by decide)
  have hbold : Strips "\x1b[1m".toList [] := @Strips.of_sequence ['1'] (by decide)
  have hdefault : Strips "\x1b[39m".toList [] := @Strips.of_sequence ['3', '9'] (by decide)
  have hreset : Strips "\x1b[0m".toList [] := @Strips.of_sequence ['0'] (by decide)
  cases ink with
  | red => exact hred.around hdefault h
  | blue => exact hblue.around hdefault h
  | bold => exact hbold.around hreset h
  | redBold => exact Strips.around (hbold.append hred) (hdefault.append hreset) h

/-! ## Blanks left out -/

theorem clean_toString (n : Nat) : '\x1b' ∉ (toString n).toList := by
  intro hmem
  rw [Nat.toString_eq_repr, Nat.toList_repr] at hmem
  exact absurd (Nat.isDigit_of_mem_toDigits (by decide) (by decide) hmem) (by decide)

theorem clean_spaces (count : Nat) : '\x1b' ∉ (spaces count).toList := by
  rw [Text.spaces, String.toList_ofList]
  exact fun hmem => absurd (List.eq_of_mem_replicate hmem) (by decide)

/-- With its escape sequences deleted, the one text is the other, with this many blanks left
out. -/
structure Fades (colored plain : String) (missing : Nat) : Prop where
  exists_bare : ∃ bare, Strips colored.toList bare ∧ bare.Sublist plain.toList ∧
    bare.filter (· != ' ') = plain.toList.filter (· != ' ') ∧ bare.length + missing = plain.length

namespace Fades

variable {colored plain colored' plain' : String} {missing missing' : Nat}

/-- Missing blanks add up. -/
theorem append (h : Fades colored plain missing) (h' : Fades colored' plain' missing') :
    Fades (colored ++ colored') (plain ++ plain') (missing + missing') := by
  obtain ⟨bare, hstrips, hsublist, hfilter, hlength⟩ := h
  obtain ⟨bare', hstrips', hsublist', hfilter', hlength'⟩ := h'
  refine ⟨bare ++ bare', ?_, ?_, ?_, ?_⟩
  · rw [String.toList_append]
    exact hstrips.append hstrips'
  · rw [String.toList_append]
    exact hsublist.append hsublist'
  · rw [String.toList_append, List.filter_append, List.filter_append, hfilter, hfilter']
  · rw [String.length_append, List.length_append]
    omega

theorem append_zero (h : Fades colored plain missing) (h' : Fades colored' plain' 0) :
    Fades (colored ++ colored') (plain ++ plain') missing := h.append h'

theorem zero_append (h : Fades colored plain 0) (h' : Fades colored' plain' missing) :
    Fades (colored ++ colored') (plain ++ plain') missing := by
  have happend := h.append h'
  rwa [Nat.zero_add] at happend

/-- Nothing is missing where deleting the sequences gives the text itself. -/
theorem of_strips (h : Strips colored.toList plain.toList) : Fades colored plain 0 :=
  ⟨plain.toList, h, List.Sublist.refl _, rfl, String.length_toList⟩

theorem of_clean {text : String} (h : '\x1b' ∉ text.toList) : Fades text text 0 :=
  of_strips (.of_clean h)

/-- The same text behind both changes nothing. -/
theorem followed (h : Fades colored plain missing) (text : String)
    (hclean : '\x1b' ∉ text.toList) :
    Fades (colored ++ text) (plain ++ text) missing := h.append_zero (of_clean hclean)

/-- Parts that are joined, each with the blanks that it lacks. -/
theorem join {α : Type} {xs : List α} {f g : α → String} {missing : α → Nat}
    (h : ∀ x ∈ xs, Fades (f x) (g x) (missing x)) :
    Fades (String.join (xs.map f)) (String.join (xs.map g)) (xs.map missing).sum := by
  induction xs with
  | nil => exact @of_clean "" (by decide)
  | cons x xs ih =>
      rw [List.map_cons, List.map_cons, List.map_cons, String.join_cons,
        String.join_cons, List.sum_cons]
      exact (h x List.mem_cons_self).append (ih fun y hy => h y (List.mem_cons_of_mem x hy))

theorem join_of_zero {α : Type} {xs : List α} {f g : α → String}
    (h : ∀ x ∈ xs, Fades (f x) (g x) 0) :
    Fades (String.join (xs.map f)) (String.join (xs.map g)) 0 := by
  have hsum : (xs.map fun _ => 0).sum = 0 := by
    rw [List.map_const', List.sum_replicate_nat, Nat.mul_zero]
  rw [← hsum]
  exact join h

/-- A narrower field lacks blanks. -/
theorem spaces {narrow wide : Nat} (h : narrow ≤ wide) :
    Fades (spaces narrow) (spaces wide) (wide - narrow) := by
  have hfilter (count : Nat) : (List.replicate count ' ').filter (· != ' ') = [] :=
    List.filter_eq_nil_iff.mpr fun c hc => by simp [List.eq_of_mem_replicate hc]
  refine ⟨List.replicate narrow ' ', ?_, ?_, ?_, ?_⟩
  · have hclean := clean_spaces narrow
    rw [Text.spaces, String.toList_ofList] at hclean ⊢
    exact .of_clean hclean
  · rw [Text.spaces, String.toList_ofList]
    exact List.replicate_sublist_replicate ' ' |>.mpr h
  · rw [Text.spaces, String.toList_ofList, hfilter, hfilter]
  · rw [Text.spaces, String.length_ofList, List.length_replicate, List.length_replicate]
    omega

/-- Nothing else differs: the texts are the same exactly if no blank is missing. -/
theorem stripEscapes_eq_iff (h : Fades colored plain missing) :
    stripEscapes colored.toList = plain.toList ↔ missing = 0 := by
  obtain ⟨bare, hstrips, hsublist, -, hlength⟩ := h
  rw [hstrips.stripEscapes_eq]
  rw [← String.length_toList] at hlength
  constructor
  · rintro rfl
    omega
  · rintro rfl
    exact hsublist.eq_of_length hlength

end Fades

/-! ## The parts of a drawing -/

/-- A text in colours is ten characters longer, also when it is aligned. -/
theorem fades_alignRight (width : Nat) {text : String} (h : '\x1b' ∉ text.toList) :
    Fades (alignRight width (Ink.blue.paint text)) (alignRight width text)
      (min (width - text.length) 10) := by
  have hopening : "\x1b[34m".length = 5 := by decide
  have hclosing : "\x1b[39m".length = 5 := by decide
  have hlength : (Ink.blue.paint text).length = text.length + 10 := by
    rw [Ink.paint, String.length_append, String.length_append, hopening, hclosing]
    omega
  have hmissing : min (width - text.length) 10 =
      width - text.length - (width - (text.length + 10)) := by omega
  rw [hmissing, alignRight, alignRight, hlength]
  exact (Fades.spaces (by omega)).append_zero (.of_strips (strips_paint .blue h))

namespace Sheet

variable {source : List Char} {file : String} {labels : List Label}

/-- A painted text fades into the text. -/
theorem fades_paint (source : List Char) (file : String) (ink : Ink) {text : String}
    (h : '\x1b' ∉ text.toList) :
    Fades ((Sheet.mk source file true).paint ink text)
      ((Sheet.mk source file false).paint ink text) 0 :=
  .of_strips (strips_paint ink h)

theorem fades_gutter (source : List Char) (file : String) (width : Nat) :
    Fades ((Sheet.mk source file true).gutter width)
      ((Sheet.mk source file false).gutter width) 0 :=
  ((Fades.of_clean (clean_spaces _)).followed " " (by decide)).append_zero
    (fades_paint _ _ .blue (by decide))

/-- A row of carets holds blanks and carets only. -/
theorem clean_carets (column : Nat) (us : List Underline) :
    '\x1b' ∉ (String.ofList (carets column us)).toList := by
  rw [String.toList_ofList]
  intro hmem
  rcases mem_carets hmem with h | h
  · exact absurd h (by decide)
  · exact absurd h (by decide)

/-- The blanks that are missing in front of a line number. -/
def missingBlanks (width n : Nat) : Nat := min (width + 1 - (toString n).length) 10

/-- A line with what stands below it: only in front of its number is anything missing. -/
theorem fades_drawLine {width n : Nat} {content : List Char}
    (hcontent : (lines source)[n - 1]? = some content) (hsource : '\x1b' ∉ source)
    (hlabels : ∀ label ∈ labels, '\x1b' ∉ label.message.toList) :
    Fades ((Sheet.mk source file true).drawLine labels width n)
      ((Sheet.mk source file false).drawLine labels width n)
      (missingBlanks width n) := by
  have hclean : '\x1b' ∉ (String.ofList content).toList := by
    rw [String.toList_ofList]
    exact fun hmem => hsource (Text.mem_of_mem_lines (List.mem_of_getElem? hcontent) hmem)
  have hline : Fades
      (alignRight (width + 1) ((Sheet.mk source file true).paint .blue (toString n)) ++ " "
        ++ (Sheet.mk source file true).paint .blue "|" ++ " " ++ String.ofList content ++ "\n")
      (alignRight (width + 1) ((Sheet.mk source file false).paint .blue (toString n)) ++ " "
        ++ (Sheet.mk source file false).paint .blue "|" ++ " " ++ String.ofList content ++ "\n")
      (missingBlanks width n) :=
    ((fades_alignRight (width + 1) (clean_toString n)).followed " " (by decide)).append_zero
      (fades_paint _ _ .blue (by decide))
      |>.followed " " (by decide) |>.followed _ hclean |>.followed "\n" (by decide)
  have hsame : (Sheet.mk source file false).underlines = (Sheet.mk source file true).underlines :=
    rfl
  unfold drawLine
  simp only [hcontent, hsame]
  split
  · exact hline
  · refine (hline.append_zero ?_).append_zero (.join_of_zero fun u hu => ?_)
    · exact ((fades_gutter _ _ width).followed " " (by decide)).append_zero
        (fades_paint _ _ .red (clean_carets _ _))
        |>.followed "\n" (by decide)
    · have hremark : '\x1b' ∉ u.remark.toList := by
        have hmark := (List.mem_filter.mp hu).1
        rw [underlines_eq] at hmark
        obtain ⟨label, hon, rfl⟩ := List.mem_map.mp hmark
        exact hlabels label (mem_labelsOn.mp hon).1
      exact ((fades_gutter _ _ width).followed " " (by decide)
        |>.followed _ (clean_spaces _)).append_zero
        (fades_paint _ _ .red hremark) |>.followed "\n" (by decide)

/-- The blanks that are missing in front of all line numbers. -/
def missingInAll (source : List Char) (labels : List Label) : Nat :=
  let shown := (Sheet.mk source "" false).linesToShow labels
  (shown.map (missingBlanks (toString (shown.getLast?.getD 1)).length)).sum

theorem missingInAll_nil (source : List Char) : missingInAll source [] = 0 := by
  simp [missingInAll, linesToShow]

/-- Before the last line number, which sets the width of the field, one blank is missing at
least. -/
theorem missingInAll_pos (source : List Char) (label : Label) (labels : List Label) :
    0 < missingInAll source (label :: labels) := by
  have hfirst :
      (Text.position source label.span.start).line ∈ (Sheet.mk source "" false).linesToShow
        (label :: labels) :=
    mem_linesToShow.mpr ⟨label, List.mem_cons_self, touches_first source label⟩
  obtain ⟨last, hlast⟩ := List.getLast?_isSome.mpr (List.ne_nil_of_mem hfirst)
      |> Option.isSome_iff_exists.mp
  have hmem := List.mem_of_getLast? hlast
  have hpos : 0 < missingBlanks (toString last).length last := by
    rw [missingBlanks]
    omega
  simp only [missingInAll, hlast, Option.getD_some]
  exact List.sum_pos_iff_exists_pos_nat.mpr ⟨_, List.mem_map_of_mem hmem, hpos⟩

/-- Every label shows a line, and every line number lacks a blank. -/
theorem missingInAll_eq_zero_iff (source : List Char) (labels : List Label) :
    missingInAll source labels = 0 ↔ labels = [] := by
  cases labels with
  | nil => exact iff_of_true (missingInAll_nil source) rfl
  | cons label labels =>
      exact iff_of_false (Nat.ne_of_gt (missingInAll_pos source label labels))
        (List.cons_ne_nil label labels)

/-- The lines of all labels. -/
theorem fades_drawLabels (hsource : '\x1b' ∉ source) (hfile : '\x1b' ∉ file.toList)
    (hlabels : ∀ label ∈ labels, '\x1b' ∉ label.message.toList) :
    Fades ((Sheet.mk source file true).drawLabels labels)
      ((Sheet.mk source file false).drawLabels labels)
      (missingInAll source labels) := by
  cases labels with
  | nil =>
      rw [missingInAll_nil]
      exact @Fades.of_clean "" (by decide)
  | cons label labels =>
      let shown := (Sheet.mk source file false).linesToShow (label :: labels)
      let width := (toString (shown.getLast?.getD 1)).length
      have hlines :
          Fades
            (String.join (shown.map
              ((Sheet.mk source file true).drawLine (label :: labels) width)))
          (String.join (shown.map ((Sheet.mk source file false).drawLine (label :: labels) width)))
          (missingInAll source (label :: labels)) := by
        refine .join fun n hn => ?_
        obtain ⟨_, -, htouches⟩ := mem_linesToShow.mp hn
        obtain ⟨-, content, hcontent⟩ := htouches.exists_line
        exact fades_drawLine hcontent hsource hlabels
      have harrow : Fades ("  " ++ (Sheet.mk source file true).paint .blue "-->")
          ("  " ++ (Sheet.mk source file false).paint .blue "-->") 0 :=
        (Fades.of_clean (by decide)).append_zero (fades_paint _ _ .blue (by decide))
      have hplace := harrow.followed " " (by decide) |>.followed file hfile
          |>.followed ":" (by decide)
        |>.followed _ (clean_toString (Text.position source label.span.start).line)
        |>.followed ":" (by decide)
        |>.followed _ (clean_toString (Text.position source label.span.start).column)
        |>.followed "\n" (by decide)
      have hgutter := fades_gutter source file width
      exact ((hplace.append_zero hgutter).followed "\n" (by decide)
        |>.zero_append hlines).append_zero hgutter
        |>.followed "\n" (by decide)

end Sheet

/-! ## Whole drawings -/

/-- No text of the diagnostic has an escape character. -/
structure Clean (d : Diagnostic) : Prop where
  code : ∀ code ∈ d.code, '\x1b' ∉ code.toList
  message : '\x1b' ∉ d.message.toList
  labels : ∀ label ∈ d.labels, '\x1b' ∉ label.message.toList
  notes : ∀ note ∈ d.notes, '\x1b' ∉ note.toList

theorem Clean.headline {d : Diagnostic} (h : d.Clean) :
    '\x1b' ∉ (Sheet.headline d.code).toList := by
  have hcode := h.code
  cases heq : d.code with
  | none => decide
  | some code =>
      rw [Sheet.headline, Option.map_some, Option.getD_some, String.toList_append,
        String.toList_append, List.mem_append, List.mem_append]
      rintro ((hmem | hmem) | hmem)
      · exact absurd hmem (by decide)
      · exact hcode code heq hmem
      · exact absurd hmem (by decide)

/-- A whole diagnostic. Its headline, place and notes lack nothing. -/
theorem Sheet.fades_draw {source : List Char} {file : String} {d : Diagnostic}
    (hsource : '\x1b' ∉ source) (hfile : '\x1b' ∉ file.toList) (h : d.Clean) :
    Fades ((Sheet.mk source file true).draw d) ((Sheet.mk source file false).draw d)
      (missingInAll source d.labels) := by
  rw [draw_eq, draw_eq]
  have hnotes : Fades
      (String.join (d.notes.map fun note => "  " ++ (Sheet.mk source file true).paint .blue "="
        ++ " " ++ note ++ "\n"))
      (String.join (d.notes.map fun note => "  " ++ (Sheet.mk source file false).paint .blue "="
        ++ " " ++ note ++ "\n")) 0 :=
    .join_of_zero fun note hnote =>
      (Fades.of_clean (by decide)).append_zero (fades_paint _ _ .blue (by decide))
        |>.followed " " (by decide)
        |>.followed note (h.notes note hnote)
        |>.followed "\n" (by decide)
  have hmessage :=
    ((fades_paint source file .redBold h.headline).followed ": " (by decide)).append_zero
      (fades_paint source file .bold h.message)
    |>.followed "\n" (by decide)
  exact (hmessage.zero_append (fades_drawLabels hsource hfile h.labels)).append_zero hnotes

/-- Drawings of all diagnostics, with and without colours. -/
theorem fades_renderAll {source file : String} {diagnostics : List Diagnostic}
    (hsource : '\x1b' ∉ source.toList) (hfile : '\x1b' ∉ file.toList)
    (h : ∀ d ∈ diagnostics, d.Clean) :
    Fades (renderAll source file diagnostics true) (renderAll source file diagnostics false)
      (diagnostics.map fun d => Sheet.missingInAll source.toList d.labels).sum := by
  have hclosing : '\x1b' ∉ (if diagnostics.length = 0 then ""
      else "error: aborting due to " ++ toString diagnostics.length
        ++ (if diagnostics.length = 1 then " error\n" else " errors\n")).toList := by
    split
    · decide
    · rw [String.toList_append, String.toList_append, List.mem_append, List.mem_append]
      rintro ((hmem | hmem) | hmem)
      · exact absurd hmem (by decide)
      · exact clean_toString _ hmem
      · split at hmem
        · exact absurd hmem (by decide)
        · exact absurd hmem (by decide)
  exact (Fades.join fun d hd => (Sheet.fades_draw hsource hfile (h d hd)).followed "\n"
    (by decide)).followed _ hclosing

/-- With its escape sequences deleted, a rendering in colours is the one without, except that
blanks are missing. Nothing is missing exactly if no diagnostic has a label. -/
theorem renderAll_stripped {source file : String} {diagnostics : List Diagnostic}
    (hsource : '\x1b' ∉ source.toList) (hfile : '\x1b' ∉ file.toList)
    (h : ∀ d ∈ diagnostics, d.Clean) :
    (stripEscapes (renderAll source file diagnostics true).toList).Sublist
      (renderAll source file diagnostics false).toList ∧
      (stripEscapes (renderAll source file diagnostics true).toList).filter (· != ' ') =
        (renderAll source file diagnostics false).toList.filter (· != ' ') ∧
      (stripEscapes (renderAll source file diagnostics true).toList =
          (renderAll source file diagnostics false).toList ↔
        ∀ d ∈ diagnostics, d.labels = []) := by
  have hfades := fades_renderAll hsource hfile h
  have hsame := hfades.stripEscapes_eq_iff
  obtain ⟨bare, hstrips, hsublist, hfilter, -⟩ := hfades
  rw [hstrips.stripEscapes_eq] at hsame ⊢
  refine ⟨hsublist, hfilter, hsame.trans ?_⟩
  rw [List.sum_eq_zero_iff_forall_eq_nat, List.forall_mem_map]
  exact forall_congr' fun d => forall_congr'
    fun _ => Sheet.missingInAll_eq_zero_iff source.toList d.labels

/-- A name that is not bound, in colours and without. -/
theorem renderAll_stripped_unresolved :
    (stripEscapes (renderAll "x ← 1\nDISPLAY(y)" "main.csp"
        [⟨some "E0204", "unresolved name", [⟨⟨16, 17⟩, "not found"⟩], ["help: assign it"]⟩]
          true).toList).filter (· != ' ') =
      (renderAll "x ← 1\nDISPLAY(y)" "main.csp"
        [⟨some "E0204", "unresolved name", [⟨⟨16, 17⟩, "not found"⟩], ["help: assign it"]⟩]
          false).toList.filter (· != ' ') := by
  have hclean :
      ∀ d ∈ [(⟨some "E0204", "unresolved name", [⟨⟨16, 17⟩, "not found"⟩],
        ["help: assign it"]⟩ : Diagnostic)], d.Clean := by
    rw [List.forall_mem_singleton]
    exact ⟨by simp, by decide, by simp, by simp⟩
  exact (renderAll_stripped (by decide) (by decide) hclean).2.1

/-- In front of the line number a blank is missing. -/
theorem renderAll_stripped_label :
    renderAll "x" "main.csp" [⟨none, "boom", [⟨⟨0, 1⟩, ""⟩], []⟩] true =
      "\x1b[1m\x1b[31merror\x1b[39m\x1b[0m: \x1b[1mboom\x1b[0m\n"
        ++ "  \x1b[34m-->\x1b[39m main.csp:1:1\n   \x1b[34m|\x1b[39m\n"
        ++ "\x1b[34m1\x1b[39m \x1b[34m|\x1b[39m x\n"
        ++ "   \x1b[34m|\x1b[39m \x1b[31m^\x1b[39m\n   \x1b[34m|\x1b[39m\n\n"
        ++ "error: aborting due to 1 error\n" ∧
    renderAll "x" "main.csp" [⟨none, "boom", [⟨⟨0, 1⟩, ""⟩], []⟩] false =
      "error: boom\n  --> main.csp:1:1\n   |\n 1 | x\n   | ^\n   |\n\n"
        ++ "error: aborting due to 1 error\n" ∧
    stripEscapes (renderAll "x" "main.csp" [⟨none, "boom", [⟨⟨0, 1⟩, ""⟩], []⟩] true).toList ≠
      (renderAll "x" "main.csp" [⟨none, "boom", [⟨⟨0, 1⟩, ""⟩], []⟩] false).toList := by
  refine ⟨by decide +kernel, by decide +kernel, fun heq => ?_⟩
  have hclean : ∀ d ∈ [(⟨none, "boom", [⟨⟨0, 1⟩, ""⟩], []⟩ : Diagnostic)], d.Clean := by
    rw [List.forall_mem_singleton]
    exact ⟨by simp, by decide, by simp, by simp⟩
  have hmissing := (fades_renderAll (by decide) (by decide) hclean).stripEscapes_eq_iff.mp heq
  rw [List.map_singleton, List.sum_singleton] at hmissing
  exact absurd hmissing (Nat.ne_of_gt (Sheet.missingInAll_pos _ _ _))

end Pseudocode.Diagnostic
