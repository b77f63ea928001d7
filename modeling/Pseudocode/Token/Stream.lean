import Pseudocode.Error

/-!
# Token streams

A cursor over the tokens of a source. The last token is always the end of input, and reading past
the end answers it again and again, so a reader never has to ask whether a token is left. The
cursor itself keeps counting beyond the end, which makes every step backwards undo one step
forwards.

Newlines and comments stay in the stream. Reading the next significant token skips them; a step
backwards does not.
-/

namespace Pseudocode

/-- Tokens that end with the end of input, and how many have been read. -/
structure TokenStream where
  tokens : Array Token
  cursor : Nat
  ends : tokens.back?.map Token.kind = some .endOfInput

namespace TokenStream

/-! ## Making a stream -/

/-- Adds the end of input where it is missing, at the last token's offset. -/
def close (tokens : Array Token) : Array Token :=
  match tokens.back? with
  | none => #[Token.endAt 0]
  | some last => if last.kind = .endOfInput then tokens else tokens.push (Token.endAt last.stop)

/-- What `close` answers ends with the end of input. -/
theorem kind_back?_close (tokens : Array Token) :
    (close tokens).back?.map Token.kind = some .endOfInput := by
  unfold close
  split
  · rfl
  · rename_i last h
    split
    · rename_i hk; simp [h, hk]
    · simp [Token.endAt]

/-- A stream in front of its first token. -/
def ofTokens (tokens : List Token) : TokenStream where
  tokens := close tokens.toArray
  cursor := 0
  ends := kind_back?_close _

/-! ## Reading -/

/-- A stream holds at least the end of input. -/
theorem size_pos (s : TokenStream) : 0 < s.tokens.size := by
  have h := s.ends
  simp only [Option.map_eq_some_iff] at h
  obtain ⟨last, h, _⟩ := h
  rw [Array.back?_eq_getElem?, Array.getElem?_eq_some_iff] at h
  obtain ⟨h, _⟩ := h
  omega

/-- The token under the cursor. Beyond the end this is the end of input. -/
def current (s : TokenStream) : Token :=
  have inRange : min s.cursor (s.tokens.size - 1) < s.tokens.size := by have := s.size_pos; omega
  s.tokens[min s.cursor (s.tokens.size - 1)]

/-- Beyond the last token but one, only the end of input is left. -/
theorem kind_current_of_le (s : TokenStream) (h : s.tokens.size ≤ s.cursor + 1) :
    s.current.kind = .endOfInput := by
  have hs := s.size_pos
  have he := s.ends
  rw [Array.back?_eq_getElem?, Array.getElem?_eq_getElem (by omega), Option.map_some,
    Option.some.injEq] at he
  have hi : min s.cursor (s.tokens.size - 1) = s.tokens.size - 1 := by omega
  simp only [current, hi, he]

/-- One token further on. -/
def advance (s : TokenStream) : TokenStream := { s with cursor := s.cursor + 1 }

/-- The current token, and the stream behind it. -/
def next (s : TokenStream) : Token × TokenStream := (s.current, s.advance)

/-- One token back. There is nothing before the first. -/
def back? (s : TokenStream) : Option TokenStream :=
  if s.cursor = 0 then none else some { s with cursor := s.cursor - 1 }

/-- The next token that is neither newline nor comment, and the stream behind it. -/
def nextSignificant (s : TokenStream) : Token × TokenStream :=
  if s.current.kind.isInsignificant then s.advance.nextSignificant else s.next
termination_by s.tokens.size - s.cursor
decreasing_by
  have : ¬ s.tokens.size ≤ s.cursor + 1 := by
    intro h
    simp_all [s.kind_current_of_le h, Kind.isInsignificant]
  simp only [advance]
  omega

/-- The next significant token, with the stream left in front of it. -/
def jumpToSignificant (s : TokenStream) : Token × TokenStream :=
  let (token, after) := s.nextSignificant
  (token, { after with cursor := after.cursor - 1 })

/-- The next significant token, for a stream that stays where it is. -/
def peekSignificant (s : TokenStream) : Token := s.nextSignificant.1

/-- Reads the next significant token, which has to be of the given kind. The stream is behind that
token in either case. -/
def take (kind : Kind) (s : TokenStream) : Except Error Token × TokenStream :=
  let (token, after) := s.nextSignificant
  (if token.kind = kind then .ok token else .error (.unexpectedToken (.kind kind) token), after)

end TokenStream

end Pseudocode
