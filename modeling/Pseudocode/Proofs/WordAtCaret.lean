import Mathlib.Order.Bounds.Basic
import Pseudocode.Proofs.Offsets
import Pseudocode.Proofs.SpanSlices
import Pseudocode.Suggestion

/-!
# The word at the caret

A caret may stand anywhere: inside a character, or beyond the end of the source. What is looked up,
and what is replaced when a suggestion is taken, is the longest word that ends at the last
character boundary not behind the caret. All the rest of the source stays, and the new caret stands
where no word ends (`apply_replaces_word`).

Sources are cut as lists of characters, which cannot go wrong. An editor works on bytes: it moves
the caret back to a boundary one byte after the other, looks for the start of the word from behind,
and takes slices. A slice fails where an offset is not a boundary. This is set down in
`queryBySlices?` and `applyBySlices?`. Every slice that they take is there, and they come to the
same (`queryBySlices?_eq`, `applyBySlices?_eq`).
-/

namespace Pseudocode.Suggestion

open Text
  (isWordPart byteLength byteLength_append byteLength_cons byteLength_nil splitAtByte countWithin)

/-! ## The last boundary before an offset -/

theorem countWithin_eq_add (count bytes : Nat) (cs : List Char) :
    countWithin count bytes cs = count + countWithin 0 bytes cs := by
  induction cs generalizing count bytes with
  | nil => rfl
  | cons c rest ih =>
      rw [countWithin, countWithin]
      split
      · rw [ih (count + 1), ih (0 + 1), Nat.zero_add, Nat.add_assoc]
      · rfl

theorem splitAtByte_of_le {c : Char} {offset : Nat} (rest : List Char) (h : c.utf8Size ≤ offset) :
    splitAtByte offset (c :: rest) =
      (c :: (splitAtByte (offset - c.utf8Size) rest).1,
        (splitAtByte (offset - c.utf8Size) rest).2) := by
  rw [splitAtByte, splitAtByte, countWithin, if_pos h, countWithin_eq_add, Nat.add_comm 0 1,
    Nat.add_comm, Nat.add_zero, List.splitAt_eq, List.splitAt_eq, List.take_succ_cons,
    List.drop_succ_cons]

theorem splitAtByte_of_lt {c : Char} {offset : Nat} (rest : List Char) (h : offset < c.utf8Size) :
    splitAtByte offset (c :: rest) = ([], c :: rest) := by
  rw [splitAtByte, countWithin, if_neg (Nat.not_le.mpr h), List.splitAt_eq,
    List.take_zero, List.drop_zero]

/-- The two parts make up the text. -/
theorem append_splitAtByte (offset : Nat) (cs : List Char) :
    (splitAtByte offset cs).1 ++ (splitAtByte offset cs).2 = cs := by
  rw [splitAtByte, List.splitAt_eq, List.take_append_drop]

/-- A text is cut within the offset. -/
theorem splitAtByte_le (offset : Nat) (cs : List Char) :
    byteLength (splitAtByte offset cs).1 ≤ offset := by
  induction cs generalizing offset with
  | nil => exact Nat.zero_le _
  | cons c rest ih =>
      by_cases h : c.utf8Size ≤ offset
      · rw [splitAtByte_of_le rest h, byteLength_cons]
        have := ih (offset - c.utf8Size)
        omega
      · rw [splitAtByte_of_lt rest (Nat.not_le.mp h)]
        exact Nat.zero_le _

/-- No front part that goes further keeps within the offset. -/
theorem byteLength_le_splitAtByte {offset : Nat} {front rest : List Char}
    (h : byteLength front ≤ offset) :
    byteLength front ≤ byteLength (splitAtByte offset (front ++ rest)).1 := by
  induction front generalizing offset with
  | nil => exact Nat.zero_le _
  | cons c front ih =>
      rw [byteLength_cons] at h
      rw [List.cons_append, splitAtByte_of_le _ (by omega), byteLength_cons, byteLength_cons]
      exact Nat.add_le_add_left (ih (by omega)) _

/-- At the end of a front part, a text is cut behind this part. -/
theorem splitAtByte_append (front rest : List Char) :
    splitAtByte (byteLength front) (front ++ rest) = (front, rest) := by
  induction front with
  | nil =>
      cases rest with
      | nil => rfl
      | cons c rest => exact splitAtByte_of_lt rest c.utf8Size_pos
  | cons c front ih =>
      rw [byteLength_cons, List.cons_append, splitAtByte_of_le _ (Nat.le_add_right _ _),
        Nat.add_sub_cancel_left, ih]

/-- The boundaries of a source that are not behind a caret. -/
def boundaries (source : String) (caret : Nat) : Set Nat :=
  {b | b ≤ min caret source.utf8ByteSize ∧ String.Pos.Raw.IsValid source ⟨b⟩}

/-- A text is cut at its last boundary that is not behind the caret. -/
theorem isGreatest_splitAtByte (source : String) (caret : Nat) :
    IsGreatest (boundaries source caret) (byteLength (splitAtByte caret source.toList).1) := by
  have hsplit := append_splitAtByte caret source.toList
  have hvalid := isValid_byteLength hsplit.symm
  refine ⟨⟨Nat.le_min.mpr ⟨splitAtByte_le caret _, hvalid.le_utf8ByteSize⟩, hvalid⟩, ?_⟩
  rintro b ⟨hle, hb⟩
  obtain ⟨front, rest, hsource, rfl⟩ := Text.exists_front hb
  rw [hsource]
  exact byteLength_le_splitAtByte (Nat.le_trans hle (Nat.min_le_left _ _))

/-! ## Cuts -/

/-- The longest word that ends behind `word`: it has word characters only, and no such character is
before it. -/
structure EndsWithWord (before word : List Char) : Prop where
  all : ∀ c ∈ word, isWordPart c = true
  stop : ∀ c, before.getLast? = some c → isWordPart c = false

section

variable (source : String) (caret : Nat)

theorem Cut.before_append_word :
    (Cut.at source caret).before ++ (Cut.at source caret).word =
      (splitAtByte caret source.toList).1 := by
  unfold Cut.at
  dsimp only
  rw [← List.reverse_append, List.takeWhile_append_dropWhile, List.reverse_reverse]

/-- The three parts of a cut make up the source. -/
theorem Cut.toList_eq :
    source.toList = (Cut.at source caret).before ++ (Cut.at source caret).word
      ++ (Cut.at source caret).after := by
  rw [before_append_word]
  exact (append_splitAtByte caret source.toList).symm

/-- The word of a cut is the longest that ends there. -/
theorem Cut.endsWithWord :
    EndsWithWord (Cut.at source caret).before (Cut.at source caret).word where
  all := by
    intro c hc
    exact (List.all_eq_true.mp (List.all_takeWhile ..)) c (List.mem_reverse.mp hc)
  stop := by
    intro c hc
    exact Text.not_of_getLast?_dropWhile hc

theorem Cut.isGreatest : IsGreatest (boundaries source caret)
    (byteLength ((Cut.at source caret).before ++ (Cut.at source caret).word)) := by
  rw [before_append_word]
  exact isGreatest_splitAtByte source caret

end

theorem toLower_ofList (cs : List Char) :
    (String.ofList cs).toLower = String.ofList (cs.map Char.toLower) := by
  change String.map Char.toLower (String.ofList cs) = _
  rw [String.map_eq_internal, String.toList_ofList]

/-- What is looked up is the word of the cut, in lower case. -/
theorem query?_eq (source : String) (caret : Nat) : query? source caret =
    if (Cut.at source caret).word = [] then none
      else some (String.ofList ((Cut.at source caret).word.map Char.toLower)) := by
  unfold query?
  dsimp only
  exact if_congr List.isEmpty_iff rfl rfl

/-- No word ends behind a space. -/
theorem query?_behind_space (front rest : List Char) :
    query? (String.ofList (front ++ [' '] ++ rest)) (byteLength (front ++ [' '])) = none := by
  have hword :
      (Cut.at (String.ofList (front ++ [' '] ++ rest)) (byteLength (front ++ [' ']))).word =
        [] := by
    unfold Cut.at
    rw [String.toList_ofList, splitAtByte_append]
    dsimp only
    rw [List.reverse_append, List.reverse_singleton, List.singleton_append,
      List.takeWhile_cons_of_neg (by decide), List.reverse_nil]
  rw [query?_eq, if_pos hword]

/-! ## Slices -/

/-- The text between two byte offsets. There is none where one of them is not a boundary of
characters. -/
def slice? (source : String) (start stop : Nat) : Option String :=
  if start ≤ stop ∧ String.Pos.Raw.IsValid source ⟨start⟩ ∧
    String.Pos.Raw.IsValid source ⟨stop⟩ then
    String.fromUTF8? (source.toByteArray.extract start stop)
  else none

/-- Goes back byte by byte to a boundary. -/
def floorBoundary (source : String) : Nat → Nat
  | 0 => 0
  | offset + 1 => if String.Pos.Raw.IsValid source ⟨offset + 1⟩ then offset + 1
      else floorBoundary source offset

/-- The boundary that a caret stands for. -/
def clampCaret (source : String) (caret : Nat) : Nat :=
  floorBoundary source (min caret source.utf8ByteSize)

/-- Each character with the byte at which it starts. -/
def charOffsets (offset : Nat) : List Char → List (Nat × Char)
  | [] => []
  | c :: rest => (offset, c) :: charOffsets (offset + c.utf8Size) rest

/-- The byte at which the word in front of a boundary starts. -/
def wordStart? (source : String) (caret : Nat) : Option Nat := do
  let front ← slice? source 0 caret
  let word := (charOffsets 0 front.toList).reverse.takeWhile fun entry => isWordPart entry.2
  return (word.getLast?.map Prod.fst).getD caret

/-- The word at the caret in lower case, by offsets. It is nothing at all if a slice is not
there. -/
def queryBySlices? (source : String) (caret : Nat) : Option (Option String) := do
  let caret := clampCaret source caret
  let start ← wordStart? source caret
  if start = caret then return none
  let word ← slice? source start caret
  return some word.toLower

/-- Puts a text and a space in place of the word at the caret, by offsets. -/
def applyBySlices? (source : String) (caret : Nat) (display : String) : Option (String × Nat) := do
  let caret := clampCaret source caret
  let start ← wordStart? source caret
  let before ← slice? source 0 start
  let after ← slice? source caret source.utf8ByteSize
  let typed := before ++ display ++ " "
  return (typed ++ after, typed.utf8ByteSize)

theorem fromUTF8?_toByteArray (text : String) : String.fromUTF8? text.toByteArray = some text :=
  dif_pos text.isValidUTF8

/-- A slice between two cuts is there. -/
theorem slice?_between (before word after : List Char) :
    slice? (String.ofList (before ++ word ++ after)) (byteLength before)
        (byteLength (before ++ word)) =
      some (String.ofList word) := by
  have hstart :
      String.Pos.Raw.IsValid (String.ofList (before ++ word ++ after)) ⟨byteLength before⟩ := by
    refine @isValid_byteLength _ before (word ++ after) ?_
    rw [String.toList_ofList, List.append_assoc]
  have hstop :
      String.Pos.Raw.IsValid (String.ofList (before ++ word ++ after))
        ⟨byteLength (before ++ word)⟩ :=
    isValid_byteLength (String.toList_ofList)
  have hle : byteLength before ≤ byteLength (before ++ word) := by
    rw [byteLength_append]
    exact Nat.le_add_right _ _
  have hbytes := extract_between (String.ofList before) (String.ofList word) (String.ofList after)
  rw [← String.ofList_append, ← String.ofList_append, Text.utf8ByteSize_ofList,
    Text.utf8ByteSize_ofList] at hbytes
  rw [slice?, if_pos ⟨hle, hstart, hstop⟩, hbytes, fromUTF8?_toByteArray]

theorem slice?_front (front after : List Char) :
    slice? (String.ofList (front ++ after)) 0 (byteLength front) = some (String.ofList front) :=
  slice?_between [] front after

theorem slice?_back (front after : List Char) :
    slice? (String.ofList (front ++ after)) (byteLength front)
        (String.ofList (front ++ after)).utf8ByteSize =
      some (String.ofList after) := by
  have hslice := slice?_between front after []
  rwa [List.append_nil, ← Text.utf8ByteSize_ofList (front ++ after)] at hslice

/-- Going back byte by byte, one comes to the last boundary. -/
theorem isGreatest_floorBoundary (source : String) (offset : Nat) :
    IsGreatest {b | b ≤ offset ∧ String.Pos.Raw.IsValid source ⟨b⟩}
      (floorBoundary source offset) := by
  induction offset with
  | zero => exact ⟨⟨Nat.le_refl 0, String.Pos.Raw.isValid_zero⟩, fun b hb => hb.1⟩
  | succ offset ih =>
      rw [floorBoundary]
      split
      case isTrue hvalid => exact ⟨⟨Nat.le_refl _, hvalid⟩, fun b hb => hb.1⟩
      case isFalse hinside =>
        refine ⟨⟨Nat.le_succ_of_le ih.1.1, ih.1.2⟩, ?_⟩
        rintro b ⟨hle, hb⟩
        refine ih.2 ⟨?_, hb⟩
        -- the offset itself was not a boundary
        rcases Nat.lt_or_eq_of_le hle with hlt | rfl
        · exact Nat.le_of_lt_succ hlt
        · exact absurd hb hinside

/-- Byte by byte or character by character, one comes to the same boundary. -/
theorem clampCaret_eq (source : String) (caret : Nat) :
    clampCaret source caret = byteLength
      ((Cut.at source caret).before ++ (Cut.at source caret).word) :=
  (isGreatest_floorBoundary source _).unique (Cut.isGreatest source caret)

/-- Behind a front part, characters start at their offsets from there. -/
theorem charOffsets_append (offset : Nat) (cs ds : List Char) :
    charOffsets offset (cs ++ ds) = charOffsets offset cs
      ++ charOffsets (offset + byteLength cs) ds := by
  induction cs generalizing offset with
  | nil => rfl
  | cons c cs ih =>
      rw [List.cons_append, charOffsets, charOffsets, ih, byteLength_cons, Nat.add_assoc,
        List.cons_append]

theorem map_snd_charOffsets (offset : Nat) (cs : List Char) :
    (charOffsets offset cs).map Prod.snd = cs := by
  induction cs generalizing offset with
  | nil => rfl
  | cons c cs ih => rw [charOffsets, List.map_cons, ih]

/-- From behind, the entries of the last word are the ones that are taken. -/
theorem takeWhile_charOffsets {before word : List Char} (h : EndsWithWord before word) :
    ((charOffsets 0 (before ++ word)).reverse.takeWhile fun entry => isWordPart entry.2)
      = (charOffsets (byteLength before) word).reverse := by
  have hword : ∀ entry ∈ (charOffsets (byteLength before) word).reverse,
      isWordPart entry.2 = true := by
    intro entry hentry
    refine h.all _ ?_
    rw [← map_snd_charOffsets (byteLength before) word]
    exact List.mem_map_of_mem (List.mem_reverse.mp hentry)
  have hbefore :
      ((charOffsets 0 before).reverse.takeWhile fun entry => isWordPart entry.2) = [] := by
    cases hlast : (charOffsets 0 before).reverse with
    | nil => rfl
    | cons entry entries =>
        refine List.takeWhile_cons_of_neg ?_
        rw [h.stop entry.2 ?_]
        · exact Bool.false_ne_true
        · rw [← map_snd_charOffsets 0 before, List.getLast?_map, ← List.head?_reverse, hlast]
          rfl
  rw [charOffsets_append, Nat.zero_add, List.reverse_append, List.takeWhile_append_of_pos hword,
    hbefore, List.append_nil]

/-- The start of the word is found from behind. -/
theorem wordStart?_eq {before word : List Char} (after : List Char)
    (h : EndsWithWord before word) :
    wordStart? (String.ofList (before ++ word ++ after)) (byteLength (before ++ word)) =
      some (byteLength before) := by
  unfold wordStart?
  rw [slice?_front, Option.bind_eq_bind, Option.bind_some, String.toList_ofList,
    takeWhile_charOffsets h]
  dsimp only
  rw [List.getLast?_reverse]
  cases word with
  | nil => rw [List.append_nil]; rfl
  | cons c word => rfl

section

variable (source : String) (caret : Nat)

theorem Cut.ofList_eq :
    String.ofList ((Cut.at source caret).before ++ (Cut.at source caret).word
      ++ (Cut.at source caret).after) = source := by
  rw [← toList_eq, String.ofList_toList]

theorem Cut.wordStart?_clampCaret :
    wordStart? source (clampCaret source caret) =
      some (byteLength (Cut.at source caret).before) := by
  have hstart := wordStart?_eq (Cut.at source caret).after (endsWithWord source caret)
  rwa [ofList_eq, ← clampCaret_eq] at hstart

theorem Cut.slice?_word :
    slice? source (byteLength (Cut.at source caret).before) (clampCaret source caret) =
      some (String.ofList (Cut.at source caret).word) := by
  have hslice :=
    slice?_between (Cut.at source caret).before (Cut.at source caret).word
      (Cut.at source caret).after
  rwa [ofList_eq, ← clampCaret_eq] at hslice

theorem Cut.slice?_before :
    slice? source 0 (byteLength (Cut.at source caret).before) =
      some (String.ofList (Cut.at source caret).before) := by
  have hslice :=
    slice?_front (Cut.at source caret).before
      ((Cut.at source caret).word ++ (Cut.at source caret).after)
  rwa [← List.append_assoc, ofList_eq] at hslice

theorem Cut.slice?_after : slice? source (clampCaret source caret) source.utf8ByteSize =
    some (String.ofList (Cut.at source caret).after) := by
  have hslice :=
    slice?_back ((Cut.at source caret).before ++ (Cut.at source caret).word)
      (Cut.at source caret).after
  rwa [ofList_eq, ← clampCaret_eq] at hslice

/-- All slices of a look-up are there, and it finds the word. -/
theorem queryBySlices?_eq : queryBySlices? source caret = some (query? source caret) := by
  unfold queryBySlices?
  dsimp only
  rw [Cut.wordStart?_clampCaret, Option.bind_eq_bind, Option.bind_some, query?_eq, Cut.slice?_word]
  have hempty : byteLength (Cut.at source caret).before = clampCaret source caret ↔
      (Cut.at source caret).word = [] := by
    rw [clampCaret_eq, byteLength_append]
    constructor
    · intro hsame
      by_contra hne
      have := Text.byteLength_pos hne
      omega
    · intro hnil
      rw [hnil, byteLength_nil, Nat.add_zero]
  by_cases hword : (Cut.at source caret).word = []
  · rw [if_pos (hempty.mpr hword), if_pos hword]
    rfl
  · rw [if_neg (mt hempty.mp hword), if_neg hword, Option.bind_eq_bind,
      Option.bind_some, toLower_ofList]
    rfl

/-- What a replacement makes, and where the caret stands then. -/
theorem apply_eq (display : String) : apply source caret display =
    (String.ofList (Cut.at source caret).before ++ display ++ " "
      ++ String.ofList (Cut.at source caret).after,
      (String.ofList (Cut.at source caret).before ++ display ++ " ").utf8ByteSize) := by
  have htyped : String.ofList ((Cut.at source caret).before ++ display.toList ++ [' ']) =
      String.ofList (Cut.at source caret).before ++ display ++ " " := by
    rw [String.ofList_append, String.ofList_append, String.ofList_toList]
  unfold apply
  dsimp only
  rw [String.ofList_append, htyped, ← Text.utf8ByteSize_ofList, htyped]

/-- All slices of a replacement are there, and it makes the same text. -/
theorem applyBySlices?_eq (display : String) :
    applyBySlices? source caret display = some (apply source caret display) := by
  unfold applyBySlices?
  dsimp only
  rw [Cut.wordStart?_clampCaret, Option.bind_eq_bind, Option.bind_some, Cut.slice?_before,
    Option.bind_eq_bind, Option.bind_some, Cut.slice?_after, apply_eq]
  rfl

end

/-- **A suggestion that is taken replaces the word at the caret and nothing else.**

Up to the last boundary of characters that is not behind the caret, the source is `before ++ word`,
where `word` is the longest word that ends there. If it is empty nothing is looked up, and
otherwise the word in lower case is. Taking a suggestion puts its text and a space in place of the
word. The new caret is a boundary of the new text, just behind the space, and no word ends there.
Working with offsets comes to the same, and no slice is taken off a boundary. -/
theorem apply_replaces_word (source : String) (caret : Nat) (display : String) :
    ∃ before word after : String, source = before ++ word ++ after
      ∧ IsGreatest (boundaries source caret) (before ++ word).utf8ByteSize
      ∧ EndsWithWord before.toList word.toList
      ∧ query? source caret = (if word = "" then none else some word.toLower)
      ∧ apply source caret display =
        (before ++ display ++ " " ++ after, (before ++ display ++ " ").utf8ByteSize)
      ∧ String.Pos.Raw.IsValid (apply source caret display).1 ⟨(apply source caret display).2⟩
      ∧ query? (apply source caret display).1 (apply source caret display).2 = none
      ∧ queryBySlices? source caret = some (query? source caret)
      ∧ applyBySlices? source caret display = some (apply source caret display) := by
  refine ⟨String.ofList (Cut.at source caret).before, String.ofList (Cut.at source caret).word,
    String.ofList (Cut.at source caret).after, ?_, ?_, ?_, ?_,
    apply_eq source caret display, ?_, ?_, queryBySlices?_eq source caret,
    applyBySlices?_eq source caret display⟩
  · rw [← String.ofList_append, ← String.ofList_append, Cut.ofList_eq]
  · rw [← String.ofList_append, Text.utf8ByteSize_ofList]
    exact Cut.isGreatest source caret
  · rw [String.toList_ofList, String.toList_ofList]
    exact Cut.endsWithWord source caret
  · rw [query?_eq, toLower_ofList]
    refine if_congr ?_ rfl rfl
    rw [← String.toList_eq_nil_iff, String.toList_ofList]
  · exact isValid_byteLength String.toList_ofList
  · exact query?_behind_space _ _

end Pseudocode.Suggestion
