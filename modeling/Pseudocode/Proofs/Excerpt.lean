import Pseudocode.Proofs.Coverage
import Pseudocode.Proofs.Seam

/-!
# A stretch of a source, cut on its own

Take a source that was cut into tokens, and of it the stretch from the start of one token to the
stop of another. On its own this stretch is cut into the same tokens, except that they stand as
many bytes further to the front as were left out there (`lex_between`).

At the front there is little to show, since the lexer keeps nothing in mind from one token to the
next. At the back there is something: a token is the longest piece that fits, so it has to be the
longest still when nothing follows. That is so because leaving characters out leaves fewer pieces
to choose from (`Takes.truncate`).
-/

namespace Pseudocode

open Text (byteLength byteLength_append byteLength_cons)

namespace Lexer

/-- The tokens of an empty text are empty. -/
theorem text_of_end {offset : Nat} {front rest : List Token} {t : Token}
    (h : [⟨"", .newline, offset⟩, Token.endAt offset] = front ++ t :: rest) : t.text = "" := by
  have hmem : t ∈ [⟨"", .newline, offset⟩, Token.endAt offset] := by
    rw [h]
    exact List.mem_append_right _ List.mem_cons_self
  rcases List.mem_cons.mp hmem with rfl | hmem
  · rfl
  · rw [List.mem_singleton.mp hmem]
    rfl

/-- From the start of a token on, a text has the tokens from this one on. -/
theorem LongestMatch.startingAt {offset : Nat} {cs : List Char}
    {result : Except Error (List Token)} (h : LongestMatch offset cs result) :
    ∀ {front rest : List Token} {t : Token}, result = .ok (front ++ t :: rest) →
      t.text ≠ "" → ∃ before after, cs = before ++ after ∧ t.start = offset + byteLength before
        ∧ LongestMatch (offset + byteLength before) after (.ok (t :: rest)) := by
  induction h with
  | @done offset =>
      intro front rest t hts htext
      exact absurd (text_of_end (Except.ok.inj hts)) htext
  | @skip offset c cs result _ _ _ ih =>
      intro front rest t hts htext
      obtain ⟨before, after, rfl, hstart, hmatch⟩ := ih hts htext
      rw [Nat.add_assoc, ← byteLength_cons] at hstart hmatch
      exact ⟨c :: before, after, rfl, hstart, hmatch⟩
  | @newline offset cs result hrest ih =>
      intro front rest t hts htext
      obtain ⟨us, rfl, hus⟩ := eq_ok_of_map hts
      cases front with
      | nil =>
          obtain ⟨rfl, rfl⟩ := List.cons.inj hus
          exact ⟨[], '\n' :: cs, rfl, rfl, .newline hrest⟩
      | cons u front =>
          obtain ⟨-, hfront⟩ := List.cons.inj hus
          obtain ⟨before, after, rfl, hstart, hmatch⟩ := ih (congrArg _ hfront.symm) htext
          have hnewline : offset + 1 + byteLength before = offset + byteLength ('\n' :: before) :=
            Nat.add_assoc ..
          rw [hnewline] at hstart hmatch
          exact ⟨'\n' :: before, after, rfl, hstart, hmatch⟩
  | @take offset kind text cs result htakes hrest ih =>
      intro front rest t hts htext
      obtain ⟨us, rfl, hus⟩ := eq_ok_of_map hts
      cases front with
      | nil =>
          obtain ⟨rfl, rfl⟩ := List.cons.inj hus
          exact ⟨[], text ++ cs, rfl, start_of_stop rfl rfl, .take htakes hrest⟩
      | cons u front =>
          obtain ⟨-, hfront⟩ := List.cons.inj hus
          obtain ⟨before, after, rfl, hstart, hmatch⟩ := ih (congrArg _ hfront.symm) htext
          rw [Nat.add_assoc, ← byteLength_append] at hstart hmatch
          exact ⟨text ++ before, after, (List.append_assoc ..).symm, hstart, hmatch⟩
  | unterminated _ =>
      intro front rest t hts
      exact absurd hts (by simp)
  | unrecognized _ _ =>
      intro front rest t hts
      exact absurd hts (by simp)

/-- Up to the stop of a token, a text has the tokens up to this one, and behind them the two that
every text ends with. -/
theorem LongestMatch.stoppingAt {offset : Nat} {cs : List Char}
    {result : Except Error (List Token)} (h : LongestMatch offset cs result) :
    ∀ {front rest : List Token} {t : Token}, result = .ok (front ++ t :: rest) →
      t.text ≠ "" → ∃ text after, cs = text ++ after ∧ t.stop = offset + byteLength text
        ∧ LongestMatch offset text
          (.ok (front ++ [t, ⟨"", .newline, t.stop⟩, Token.endAt t.stop])) := by
  induction h with
  | @done offset =>
      intro front rest t hts htext
      exact absurd (text_of_end (Except.ok.inj hts)) htext
  | @skip offset c cs result hblank hne _ ih =>
      intro front rest t hts htext
      obtain ⟨text, after, rfl, hstop, hmatch⟩ := ih hts htext
      refine ⟨c :: text, after, rfl, ?_, .skip hblank hne hmatch⟩
      rw [hstop, byteLength_cons, Nat.add_assoc]
  | @newline offset cs result _ ih =>
      intro front rest t hts htext
      obtain ⟨us, rfl, hus⟩ := eq_ok_of_map hts
      cases front with
      | nil =>
          obtain ⟨rfl, rfl⟩ := List.cons.inj hus
          exact ⟨['\n'], cs, rfl, rfl, .newline .done⟩
      | cons u front =>
          obtain ⟨rfl, hfront⟩ := List.cons.inj hus
          obtain ⟨text, after, rfl, hstop, hmatch⟩ := ih (congrArg _ hfront.symm) htext
          exact ⟨'\n' :: text, after, rfl, hstop.trans (Nat.add_assoc ..), .newline hmatch⟩
  | @take offset kind text cs result htakes _ ih =>
      intro front rest t hts htext
      obtain ⟨us, rfl, hus⟩ := eq_ok_of_map hts
      cases front with
      | nil =>
          -- the token is now the last of the text
          obtain ⟨rfl, rfl⟩ := List.cons.inj hus
          have hlast : Takes kind text ([] ++ cs) := htakes
          have hmatch :=
            LongestMatch.take hlast.truncate (@LongestMatch.done (offset + byteLength text))
          rw [List.append_nil] at hmatch
          exact ⟨text, cs, rfl, rfl, hmatch⟩
      | cons u front =>
          obtain ⟨rfl, hfront⟩ := List.cons.inj hus
          obtain ⟨inner, after, rfl, hstop, hmatch⟩ := ih (congrArg _ hfront.symm) htext
          refine ⟨text ++ inner, after, (List.append_assoc ..).symm, ?_,
            .take htakes.truncate hmatch⟩
          rw [hstop, byteLength_append, Nat.add_assoc]
  | unterminated _ =>
      intro front rest t hts
      exact absurd hts (by simp)
  | unrecognized _ _ =>
      intro front rest t hts
      exact absurd hts (by simp)

/-- A text that starts further to the front has the same tokens, further to the front. -/
theorem LongestMatch.movedBack {offset : Nat} {cs : List Char} {result : Except Error (List Token)}
    (h : LongestMatch offset cs result) :
    ∀ {n start : Nat} {ts : List Token}, offset = n + start → result = .ok ts →
      ∃ us, LongestMatch start cs (.ok us) ∧ us.map (Token.moved n) = ts := by
  induction h with
  | @done offset =>
      intro n start ts hoffset hts
      refine ⟨_, .done, ?_⟩
      rw [← Except.ok.inj hts, hoffset]
      rfl
  | @skip offset c cs result hblank hne _ ih =>
      intro n start ts hoffset hts
      have hnext : offset + c.utf8Size = n + (start + c.utf8Size) := by rw [hoffset, Nat.add_assoc]
      obtain ⟨us, hmatch, hus⟩ := ih hnext hts
      exact ⟨us, .skip hblank hne hmatch, hus⟩
  | @newline offset cs result _ ih =>
      intro n start ts hoffset hts
      obtain ⟨vs, hvs, rfl⟩ := eq_ok_of_map hts
      have hnext : offset + 1 = n + (start + 1) := by rw [hoffset, Nat.add_assoc]
      obtain ⟨us, hmatch, rfl⟩ := ih hnext hvs
      refine ⟨_, .newline hmatch, ?_⟩
      rw [hnext]
      rfl
  | @take offset kind text cs result htakes _ ih =>
      intro n start ts hoffset hts
      obtain ⟨vs, hvs, rfl⟩ := eq_ok_of_map hts
      have hnext : offset + byteLength text = n + (start + byteLength text) := by
        rw [hoffset, Nat.add_assoc]
      obtain ⟨us, hmatch, rfl⟩ := ih hnext hvs
      refine ⟨_, .take htakes hmatch, ?_⟩
      rw [hnext]
      rfl
  | unterminated _ =>
      intro n start ts _ hts
      exact absurd hts (by simp)
  | unrecognized _ _ =>
      intro n start ts _ hts
      exact absurd hts (by simp)

end Lexer

/-- From the start of one token to the stop of another, neither of them one of the two empty tokens
at the end, a source has on its own the tokens from the one to the other, moved to the front. -/
theorem lex_between {source : String} {front stretch rest : List Token} {first last : Token}
    (h : lex source = .ok (front ++ (stretch ++ rest))) (hfirst : stretch.head? = some first)
    (hlast : stretch.getLast? = some last) (hne : first.text ≠ "" ∧ last.text ≠ "") :
    ∃ before slice after : String, source = before ++ slice ++ after ∧
      before.utf8ByteSize = first.start
      ∧ (before ++ slice).utf8ByteSize = last.stop
      ∧ ∃ ts, lex slice =
        .ok (ts ++ [⟨"", .newline, slice.utf8ByteSize⟩] ++ [Token.endAt slice.utf8ByteSize])
        ∧ ts.map (Token.moved first.start) = stretch := by
  obtain ⟨result, hmatch⟩ := Lexer.exists_longestMatch 0 source.toList
  obtain rfl : result = .ok (front ++ (stretch ++ rest)) :=
    (lex_eq_of_longestMatch hmatch).symm.trans h
  obtain ⟨more, rfl⟩ := List.head?_eq_some_iff.mp hfirst
  obtain ⟨init, hinit⟩ := List.getLast?_eq_some_iff.mp hlast
  -- what is before the first token goes, then what is behind the last
  obtain ⟨before, tail, hsource, hstart, hmatch⟩ := hmatch.startingAt rfl hne.1
  have htokens : first :: (more ++ rest) = init ++ last :: rest := by
    rw [← List.cons_append, hinit, List.append_assoc, List.singleton_append]
  obtain ⟨text, after, rfl, hstop, hmatch⟩ := hmatch.stoppingAt (congrArg _ htokens) hne.2
  rw [Nat.zero_add] at hstart hstop hmatch
  obtain ⟨us, hmatch, hus⟩ := hmatch.movedBack (Nat.add_zero _).symm rfl
  have hsize : (String.ofList text).utf8ByteSize = byteLength text := Text.utf8ByteSize_ofList text
  refine ⟨String.ofList before, String.ofList text, String.ofList after, ?_, ?_, ?_, ?_⟩
  · rw [← String.ofList_append, ← String.ofList_append, List.append_assoc, ← hsource,
      String.ofList_toList]
  · rw [Text.utf8ByteSize_ofList, hstart]
  · rw [← String.ofList_append, Text.utf8ByteSize_ofList, byteLength_append, hstop]
  · have hlex : lex (String.ofList text) = .ok us :=
      lex_eq_of_longestMatch (by rw [String.toList_ofList]; exact hmatch)
    obtain ⟨ts, rfl, -⟩ := (cuts_of_lex hlex).body
    rw [Nat.zero_add, String.toList_ofList, ← hsize] at hlex hus
    refine ⟨ts, by rw [hlex, List.append_assoc]; rfl, ?_⟩
    rw [List.map_append, List.append_cons] at hus
    rw [hinit, hstart]
    exact (List.append_inj' hus rfl).1

end Pseudocode
