import Pseudocode.Token.Stream

/-!
# What a token stream still has to say

A stream is an array with a cursor, but a parser only ever learns the significant tokens ahead of
it. Here that list is taken as the meaning of the stream: `ahead` are the significant tokens from
the cursor on, without the closing one, and `closing` is the end of input that follows them for
ever. Reading a significant token takes the head off `ahead`, and a step back puts it there again,
so nothing that uses the stream has to speak of cursors.
-/

namespace Pseudocode

/-- Those tokens that the grammar speaks of. -/
def significant (ts : List Token) : List Token := ts.filter fun t => !t.kind.isInsignificant

namespace TokenStream

/-- The last token, which every reading beyond the end answers. -/
def closing (s : TokenStream) : Token :=
  have inRange : s.tokens.size - 1 < s.tokens.size := by have := s.size_pos; omega
  s.tokens[s.tokens.size - 1]

/-- The significant tokens from the cursor on, up to the closing one. -/
def ahead (s : TokenStream) : List Token := significant (s.tokens.toList.dropLast.drop s.cursor)

/-! ## One raw step -/

/-- At the closing token and behind it, nothing is ahead. -/
theorem ahead_of_le (s : TokenStream) (h : s.tokens.size ≤ s.cursor + 1) : s.ahead = [] := by
  have hlen : s.tokens.toList.dropLast.length ≤ s.cursor := by
    rw [List.length_dropLast, Array.length_toList]
    omega
  unfold ahead significant
  rw [List.drop_eq_nil_of_le hlen, List.filter_nil]

/-- At the closing token and behind it, the closing token is read. -/
theorem current_of_le (s : TokenStream) (h : s.tokens.size ≤ s.cursor + 1) :
    s.current = s.closing := by
  have hi : min s.cursor (s.tokens.size - 1) = s.tokens.size - 1 := by omega
  simp only [current, closing, hi]

/-- Before the closing token, the current one is the first of what is left. -/
theorem drop_eq_current_cons (s : TokenStream) (h : s.cursor + 1 < s.tokens.size) :
    s.tokens.toList.dropLast.drop s.cursor =
      s.current :: s.tokens.toList.dropLast.drop (s.cursor + 1) := by
  have hlen : s.cursor < s.tokens.toList.dropLast.length := by
    rw [List.length_dropLast, Array.length_toList]
    omega
  have hi : min s.cursor (s.tokens.size - 1) = s.cursor := by omega
  rw [List.drop_eq_getElem_cons hlen, List.getElem_dropLast, Array.getElem_toList]
  simp only [current, hi]

/-- A step over a newline or a comment changes nothing for the reader. -/
theorem ahead_advance_of_insignificant (s : TokenStream)
    (h : s.current.kind.isInsignificant = true) :
    s.advance.ahead = s.ahead := by
  have hlt : s.cursor + 1 < s.tokens.size := by
    rcases Nat.lt_or_ge (s.cursor + 1) s.tokens.size with hlt | hge
    · exact hlt
    · rw [s.kind_current_of_le hge] at h
      exact absurd h (by simp [Kind.isInsignificant])
  unfold ahead significant
  rw [drop_eq_current_cons s hlt, List.filter_cons_of_neg (by simp [h])]
  rfl

/-- A step over a significant token takes it off what is ahead. -/
theorem step_of_significant (s : TokenStream) (h : s.current.kind.isInsignificant = false) :
    s.current = s.ahead.headD s.closing ∧ s.advance.ahead = s.ahead.tail := by
  rcases Nat.lt_or_ge (s.cursor + 1) s.tokens.size with hlt | hge
  · have hahead : s.ahead = s.current :: s.advance.ahead := by
      unfold ahead significant
      rw [drop_eq_current_cons s hlt, List.filter_cons_of_pos (by simp [h])]
      rfl
    rw [hahead]
    exact ⟨rfl, rfl⟩
  · have hbehind : s.tokens.size ≤ s.advance.cursor + 1 := Nat.le_succ_of_le hge
    rw [s.ahead_of_le hge, s.advance.ahead_of_le hbehind, s.current_of_le hge]
    exact ⟨rfl, rfl⟩

/-! ## Reading a significant token -/

/-- Reading is a raw step from the first significant token at or behind the cursor. -/
theorem nextSignificant_eq_next (s : TokenStream) :
    ∃ first : TokenStream, s.nextSignificant = first.next ∧
      first.current.kind.isInsignificant = false
      ∧ first.ahead = s.ahead ∧ first.closing = s.closing := by
  fun_induction nextSignificant s with
  | case1 s h ih =>
      obtain ⟨first, hnext, hkind, hahead, hclosing⟩ := ih
      rw [ahead_advance_of_insignificant s h] at hahead
      exact ⟨first, hnext, hkind, hahead, hclosing⟩
  | case2 s h => exact ⟨s, rfl, by simpa using h, rfl, rfl⟩

/-- Jumping stops at the token that reading would have taken. -/
theorem jumpToSignificant_of_eq_next {s first : TokenStream} (h : s.nextSignificant = first.next) :
    s.jumpToSignificant = (first.current, first) := by
  unfold jumpToSignificant
  rw [h]
  rfl

/-! ## A stream made from tokens -/

/-- The tokens, with the end of input behind them where it is missing. It is put at the offset of
the last token. -/
def closed (tokens : List Token) : List Token :=
  if tokens.getLast?.map Token.kind = some .endOfInput then tokens
  else tokens ++ [Token.endAt (tokens.getLast?.elim 0 Token.stop)]

/-- The end of input is added unless it is there. -/
theorem closed_concat (body : List Token) (last : Token) : closed (body ++ [last]) =
    if last.kind = .endOfInput then body ++ [last]
    else body ++ [last] ++ [Token.endAt last.stop] := by
  unfold closed
  rw [List.getLast?_concat]
  simp only [Option.map_some, Option.some.injEq, Option.elim_some]

/-- Closed tokens end with the end of input. -/
theorem exists_closed (ts : List Token) :
    ∃ body last, closed ts = body ++ [last] ∧ last.kind = .endOfInput := by
  rcases List.eq_nil_or_concat ts with rfl | ⟨body, last, rfl⟩
  · exact ⟨[], Token.endAt 0, rfl, rfl⟩
  · rw [List.concat_eq_append, closed_concat]
    split
    · rename_i h
      exact ⟨body, last, rfl, h⟩
    · exact ⟨body ++ [last], Token.endAt last.stop, rfl, rfl⟩

/-- A stream holds the closed tokens. -/
theorem tokens_ofTokens (tokens : List Token) :
    (ofTokens tokens).tokens.toList = closed tokens := by
  show (close tokens.toArray).toList = closed tokens
  unfold close closed
  rw [List.back?_toArray]
  cases hlast : tokens.getLast? with
  | none =>
      obtain rfl := List.getLast?_eq_none_iff.mp hlast
      rfl
  | some last => by_cases hkind : last.kind = .endOfInput <;> simp [hkind]

/-- Tokens that are closed already are taken as they are. -/
theorem close_of_closed (body : List Token) {last : Token} (h : last.kind = .endOfInput) :
    close (body ++ [last]).toArray = (body ++ [last]).toArray := by
  unfold close
  have hback : (body ++ [last]).toArray.back? = some last := by simp
  rw [hback]
  exact if_pos h

/-- Closing tokens by hand makes no difference. -/
theorem ofTokens_closed (ts : List Token) : ofTokens (closed ts) = ofTokens ts := by
  obtain ⟨body, last, hclosed, hlast⟩ := exists_closed ts
  have hclose : close (closed ts).toArray = close ts.toArray := by
    rw [hclosed, close_of_closed body hlast, ← hclosed, ← tokens_ofTokens]
    rfl
  simp only [ofTokens, hclose]

theorem closing_ofTokens (body : List Token) {last : Token} (h : last.kind = .endOfInput) :
    (ofTokens (body ++ [last])).closing = last := by
  unfold closing ofTokens
  simp [close_of_closed body h]

/-- At the beginning, all significant tokens are ahead. -/
theorem ahead_ofTokens (body : List Token) {last : Token} (h : last.kind = .endOfInput) :
    (ofTokens (body ++ [last])).ahead = significant body := by
  show significant ((close (body ++ [last]).toArray).toList.dropLast.drop 0) = significant body
  rw [close_of_closed body h, List.drop_zero, List.dropLast_concat]

end TokenStream

end Pseudocode
