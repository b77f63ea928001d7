/-!
# Byte lengths

Texts are handled as lists of characters, and offsets into them count the bytes of their UTF-8
form.
-/

namespace Pseudocode.Text

/-- Number of bytes that the characters take in UTF-8. -/
def byteLength (cs : List Char) : Nat := cs.foldr (fun c bytes => c.utf8Size + bytes) 0

/-- Adds to `count` the number of characters that lie wholly within the first `bytes` bytes. -/
def countWithin (count bytes : Nat) : List Char → Nat
  | [] => count
  | c :: rest => if c.utf8Size ≤ bytes then
      countWithin (count + 1) (bytes - c.utf8Size) rest else count

/-- Splits at the last character boundary that lies at or before byte `offset`. -/
def splitAtByte (offset : Nat) (cs : List Char) : List Char × List Char :=
  cs.splitAt (countWithin 0 offset cs)

end Pseudocode.Text
