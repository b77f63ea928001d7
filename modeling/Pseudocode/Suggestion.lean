import Pseudocode.Suggestion.Distance
import Pseudocode.Text.Bytes
import Pseudocode.Text.Word

/-!
# Suggestions

What to put in place of the word before the caret. Candidates are the reserved words, short names
for the operators that are hard to type, and the words of the source itself. They are ranked by
their likeness to the word being typed; candidates that are equally alike keep their order.
-/

namespace Pseudocode

/-- A text to match against, and the text to put in place. -/
structure Candidate where
  key : String
  display : String
deriving DecidableEq

/-- A candidate with its score. -/
structure Suggestion where
  key : String
  display : String
  score : Float

namespace Suggestion

open Text (isWordPart)

/-! ## Likeness -/

/-- Only ASCII letters and digits count when words are compared, and their case does not. -/
def normalize (word : String) : String :=
  String.ofList ((word.toList.filter Char.isAlphanum).map Char.toLower)

/-- How a candidate compares with what is being typed. -/
inductive Likeness where
  /-- Both are the same. -/
  | same
  /-- One of them is empty. -/
  | empty
  /-- They are `distance` edits apart, the longer one has `longest` characters, and the candidate
  may start with what is being typed. -/
  | near (distance longest : Nat) (starts : Bool)
deriving DecidableEq

/-- Compares two words as they are after `normalize`. -/
def likeness (candidate query : String) : Likeness :=
  let candidate := normalize candidate
  let query := normalize query
  if candidate = query then .same
  else if candidate.isEmpty || query.isEmpty then .empty
  else
    .near (editDistance candidate query) (max candidate.length query.length)
      (query.toList.isPrefixOf candidate.toList)

/-- The part that the two have in common, with a half added for a candidate that goes on from what
is being typed, in any numbers that counts can be turned into. -/
def Likeness.scoreBy {α : Type} [Add α] [Sub α] [Div α] [OfScientific α] (ofNat : Nat → α) :
    Likeness → α
  | same => 1.5
  | empty => 0.0
  | near distance longest starts =>
    let similarity := 1.0 - ofNat distance / ofNat longest
    if starts then similarity + 0.5 else similarity

/-- The score of a likeness as a double. -/
def Likeness.score (l : Likeness) : Float := l.scoreBy Float.ofNat

/-- The score of a candidate for what is being typed. -/
def scoreOf (candidate query : String) : Float := (likeness candidate query).score

/-- Candidates with their scores, the best first. -/
def rank (candidates : List Candidate) (query : String) : List Suggestion :=
  let scored := candidates.map fun c => (⟨c.key, c.display, scoreOf c.key query⟩ : Suggestion)
  scored.mergeSort fun a b => b.score ≤ a.score

/-! ## The word before the caret -/

/-- A source cut at the caret: what stands before the word, the word, and what stands behind the
caret. A caret beyond the end is at the end, and one inside a character before that character. -/
structure Cut where
  before : List Char
  word : List Char
  after : List Char

/-- Cuts a source at a byte offset. -/
def Cut.at (source : String) (caret : Nat) : Cut :=
  let (before, after) := Text.splitAtByte caret source.toList
  let reversed := before.reverse
  ⟨(reversed.dropWhile isWordPart).reverse, (reversed.takeWhile isWordPart).reverse, after⟩

/-- The word that ends at the caret, in lower case. -/
def query? (source : String) (caret : Nat) : Option String :=
  let word := (Cut.at source caret).word
  if word.isEmpty then none else some (String.ofList (word.map Char.toLower))

/-! ## Candidates -/

/-- Offered whatever the source holds. -/
def standing : List Candidate :=
  ["PROCEDURE", "FOR", "EACH", "IN", "IF", "ELSE", "RETURN", "MOD", "NOT", "AND", "OR",
    "REPEAT", "TIMES", "UNTIL"].map (fun word => ⟨word, word⟩)
  ++ [⟨"ass", "←"⟩, ⟨"neq", "≠"⟩, ⟨"lteq", "≤"⟩, ⟨"qteq", "≥"⟩]

/-- Do the characters of `part` stand in `whole` one behind the other? -/
def occursIn (part : List Char) : List Char → Bool
  | [] => part.isEmpty
  | c :: rest => part.isPrefixOf (c :: rest) || occursIn part rest

/-- Adds a word of the source, unless it is there already or is part of what is being typed. -/
def addWord (query : String) (candidates : List Candidate) (word : List Char) : List Candidate :=
  let text := String.ofList word
  if candidates.any (fun c => c.key == text) || occursIn (word.map Char.toLower) query.toList then
    candidates
  else candidates ++ [⟨text, text⟩]

/-- The standing candidates and the words of the source. -/
def candidates (source query : String) : List Candidate :=
  (Text.words source.toList).foldl (addWord query) standing

/-- How many suggestions are made if no number is given. -/
def defaultLimit : Nat := 20

/-- The best suggestions for the word before the caret. -/
def suggest (source : String) (caret limit : Nat) : List Suggestion :=
  match query? source caret with
  | none => []
  | some query => (rank (candidates source query) query).take limit

/-- Puts a text and a space in place of the word before the caret. Answers the new source and the
caret behind the space. -/
def apply (source : String) (caret : Nat) (display : String) : String × Nat :=
  let cut := Cut.at source caret
  let typed := cut.before ++ display.toList ++ [' ']
  (String.ofList (typed ++ cut.after), Text.byteLength typed)

end Suggestion

end Pseudocode
