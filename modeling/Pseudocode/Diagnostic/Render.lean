import Pseudocode.Diagnostic
import Pseudocode.Text.Align

/-!
# Drawing diagnostics

A diagnostic is drawn as a headline, the place of its first label, and the source lines that its
labels touch. Below each line stands a row of carets under the labelled characters, then the
remarks, each under the start of its label.

Colours are escape sequences around parts of the text. They count as characters when the line
number is aligned.
-/

namespace Pseudocode.Diagnostic

open Text (position spaces alignRight)

/-! ## Colours -/

/-- The colours and weights that a drawing uses. -/
inductive Ink where
  | red
  | blue
  | bold
  | redBold
deriving DecidableEq

/-- Writes a text in an ink. -/
def Ink.paint : Ink → String → String
  | red, text => "\x1b[31m" ++ text ++ "\x1b[39m"
  | blue, text => "\x1b[34m" ++ text ++ "\x1b[39m"
  | bold, text => "\x1b[1m" ++ text ++ "\x1b[0m"
  | redBold, text => "\x1b[1m\x1b[31m" ++ text ++ "\x1b[39m\x1b[0m"

/-- The source that diagnostics point into, its name, and whether they are drawn in colour. -/
structure Sheet where
  source : List Char
  file : String
  colored : Bool

namespace Sheet

/-- Writes a text in an ink, if the sheet is coloured. -/
def paint (s : Sheet) (ink : Ink) (text : String) : String :=
  if s.colored then ink.paint text else text

/-! ## Lines touched by labels -/

/-- The offset of the last byte of a span, or its start if it is empty. -/
def lastOffset (span : Span) : Nat := max (span.stop - 1) span.start

/-- The position of the first and of the last byte of a label. -/
def extent (s : Sheet) (label : Label) : Text.Position × Text.Position :=
  (position s.source label.span.start, position s.source (lastOffset label.span))

/-- The numbers of the lines that a label touches. -/
def linesOf (s : Sheet) (label : Label) : List Nat :=
  let (first, last) := s.extent label
  List.range' first.line (last.line + 1 - first.line)

/-- The lines that any of the labels touches, in order. -/
def linesToShow (s : Sheet) (labels : List Label) : List Nat :=
  (labels.flatMap s.linesOf).eraseDups.mergeSort

/-! ## Rows of carets -/

/-- The columns from `first` up to `stop` of a line, and the remark on them. -/
structure Underline where
  first : Nat
  stop : Nat
  remark : String
deriving DecidableEq

/-- The part of a line that a label covers. -/
def underline? (s : Sheet) (line length : Nat) (label : Label) : Option Underline :=
  let (first, last) := s.extent label
  if first.line ≤ line && line ≤ last.line then
    some {
      first := if first.line = line then first.column else 1
      stop := if last.line = line then last.column + 1 else length + 1
      remark := label.message }
  else none

/-- The underlines of a line, by the column where they start. -/
def underlines (s : Sheet) (labels : List Label) (line length : Nat) : List Underline :=
  (labels.filterMap (s.underline? line length)).mergeSort fun a b => a.first ≤ b.first

/-- Carets under every underlined column from `column` on, for underlines in order. -/
def carets (column : Nat) : List Underline → List Char
  | [] => []
  | u :: rest =>
    let here := max column u.first
    List.replicate (u.first - column) ' ' ++ List.replicate (u.stop - here) '^'
      ++ carets (max here u.stop) rest

/-! ## Drawing -/

/-- What stands left of a row without a line number. -/
def gutter (s : Sheet) (width : Nat) : String := spaces (width + 1) ++ " " ++ s.paint .blue "|"

/-- A source line with what stands below it. -/
def drawLine (s : Sheet) (labels : List Label) (width line : Nat) : String :=
  match (Text.lines s.source)[line - 1]? with
  | none => ""
  | some content =>
    let number := alignRight (width + 1) (s.paint .blue (toString line))
    let shown := number ++ " " ++ s.paint .blue "|" ++ " " ++ String.ofList content ++ "\n"
    let marks := s.underlines labels line content.length
    if marks.isEmpty then shown
    else
      let row := s.gutter width ++ " " ++ s.paint .red (String.ofList (carets 1 marks)) ++ "\n"
      let remarks := (marks.filter fun u => u.remark != "").map fun u =>
        s.gutter width ++ " " ++ spaces (u.first - 1) ++ s.paint .red u.remark ++ "\n"
      shown ++ row ++ String.join remarks

/-- The place of the first label and the lines that the labels touch. -/
def drawLabels (s : Sheet) (labels : List Label) : String :=
  match labels with
  | [] => ""
  | label :: _ =>
    let place := position s.source label.span.start
    let shown := s.linesToShow labels
    let width := (toString (shown.getLast?.getD 1)).length
    let arrow := "  " ++ s.paint .blue "-->" ++ " " ++ s.file ++ ":" ++ toString place.line ++ ":"
      ++ toString place.column ++ "\n"
    arrow ++ s.gutter width ++ "\n" ++ String.join (shown.map (s.drawLine labels width))
      ++ s.gutter width ++ "\n"

/-- A diagnostic in full: its headline, the labelled source, and its notes. -/
def draw (s : Sheet) (d : Diagnostic) : String :=
  let headline := match d.code with
    | some code => "error[" ++ code ++ "]"
    | none => "error"
  let notes := d.notes.map fun note => "  " ++ s.paint .blue "=" ++ " " ++ note ++ "\n"
  s.paint .redBold headline ++ ": " ++ s.paint .bold d.message ++ "\n" ++ s.drawLabels d.labels
    ++ String.join notes

end Sheet

/-- Draws diagnostics one below the other, with a closing line that counts them. -/
def renderAll (source file : String) (diagnostics : List Diagnostic) (colored : Bool) : String :=
  let sheet : Sheet := ⟨source.toList, file, colored⟩
  let drawn := diagnostics.map fun d => sheet.draw d ++ "\n"
  let count := diagnostics.length
  let closing :=
    if count = 0 then ""
    else "error: aborting due to " ++ toString count
      ++ (if count = 1 then " error\n" else " errors\n")
  String.join drawn ++ closing

end Pseudocode.Diagnostic
