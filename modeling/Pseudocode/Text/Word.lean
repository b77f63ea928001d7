/-!
# Words

A word is made of ASCII letters, digits and underscores. Names of a program are words that do not
start with a digit.
-/

namespace Pseudocode.Text

/-- May a name start with the character? -/
def isWordStart (c : Char) : Bool := c.isAlpha || c == '_'

/-- May a word hold the character? -/
def isWordPart (c : Char) : Bool := c.isAlphanum || c == '_'

/-- Words in the order in which they stand. `current` holds the word under way, its last character
first. -/
def wordsFrom (current : List Char) : List Char → List (List Char)
  | [] => if current.isEmpty then [] else [current.reverse]
  | c :: rest =>
    if isWordPart c then wordsFrom (c :: current) rest
    else if current.isEmpty then wordsFrom [] rest
    else current.reverse :: wordsFrom [] rest

/-- All words of a text. Everything else separates them. -/
def words (cs : List Char) : List (List Char) := wordsFrom [] cs

end Pseudocode.Text
