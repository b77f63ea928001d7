/-!
# Choices on the command line

Options whose value is one of a few words. Case does not matter: a text is a choice if it is that
word in lower case.
-/

namespace Pseudocode.CommandLine

/-- The lower case of a character, as far as it is a letter of a choice. Besides the capitals of
ASCII this is the Kelvin sign; no other character has an ASCII letter as its lower case. -/
def lowerLetter (c : Char) : Char := if c.toNat == 0x212A then 'k' else c.toLower

/-- Is the text this word, which is in lower case, in any case? -/
def spells (text word : String) : Bool := text.toList.map lowerLetter == word.toList

/-- Whether output is coloured. -/
inductive ColorChoice where
  | auto
  | always
  | never
deriving DecidableEq

/-- What is dumped in place of running a program. -/
inductive DumpStage where
  | tokens
  | ast
deriving DecidableEq

/-- How an error is reported: drawn, or as a line of JSON. -/
inductive ErrorFormat where
  | human
  | json
deriving DecidableEq

/-- Reads a colour choice, or answers what to say about a word that is none. -/
def ColorChoice.ofText (text : String) : Except String ColorChoice :=
  if spells text "auto" then .ok .auto
  else if spells text "always" then .ok .always
  else if spells text "never" then .ok .never
  else .error ("Invalid color choice: " ++ text ++ ". Must be 'auto', 'always', or 'never'")

/-- Reads a dump stage, or answers what to say about a word that is none. -/
def DumpStage.ofText (text : String) : Except String DumpStage :=
  if spells text "tokens" then .ok .tokens
  else if spells text "ast" then .ok .ast
  else .error ("Invalid dump stage: " ++ text ++ ". Must be 'tokens' or 'ast'")

/-- Reads an error format, or answers what to say about a word that is none. -/
def ErrorFormat.ofText (text : String) : Except String ErrorFormat :=
  if spells text "human" then .ok .human
  else if spells text "json" then .ok .json
  else .error ("Invalid error format: " ++ text ++ ". Must be 'human' or 'json'")

/-- Is output coloured? Left to the program where the choice is `auto`. -/
def ColorChoice.enabled? : ColorChoice → Option Bool
  | auto => none
  | always => some true
  | never => some false

end Pseudocode.CommandLine
