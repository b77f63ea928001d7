/-!
# Resemblance of words

How much a word looks like a name, between 0 and 1. Each character of the word is paired with the
first equal character of the name that is still free and stands near the same place: less than half
the longer length away. What counts is how much of each text has been paired, and how many of the
paired characters keep their order.
-/

namespace Pseudocode.CommandLine

/-- How far apart two characters may stand that are still matched. -/
def reach (word name : List Char) : Nat := max word.length name.length / 2 - 1

/-- The characters of a word that find an equal one in the name, each with its place there. `i` is
the place of the first character in the word, and `used` holds the places taken before. -/
def pairs (name : List Char) (reach i : Nat) (used : List Nat) : List Char → List (Char × Nat)
  | [] => []
  | c :: rest =>
    let free := fun j => i ≤ j + reach && j ≤ i + reach && name[j]? == some c && !used.contains j
    match (List.range name.length).find? free with
    | some j => (c, j) :: pairs name reach (i + 1) (j :: used) rest
    | none => pairs name reach (i + 1) used rest

/-- Half the number of paired characters that stand in another order in the name. -/
def transpositions (name : List Char) (found : List (Char × Nat)) : Nat :=
  let places := (List.range name.length).filter fun j => found.any fun pair => pair.2 == j
  ((found.zip places).filter fun (pair, j) => name[j]? != some pair.1).length / 2

/-- The mean of three parts: of the word, of the name, and of the paired characters in order. -/
def resemblance (word name : String) : Float :=
  let as := word.toList
  let bs := name.toList
  let found := pairs bs (reach as bs) 0 [] as
  let matched := found.length
  if matched == 0 then 0
  else
    let part (n d : Nat) : Float := Float.ofNat n / Float.ofNat d
    (part matched as.length + part matched bs.length + part
      (matched - transpositions bs found) matched) / 3

/-- Is the word likely meant to be the name? -/
def resembles (word name : String) : Bool := 0.7 < resemblance word name

end Pseudocode.CommandLine
