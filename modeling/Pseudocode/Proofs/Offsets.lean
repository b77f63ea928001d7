import Pseudocode.Proofs.Positions
import Pseudocode.Proofs.Spans

/-!
# From positions back to offsets

A position can be walked to: skip as many newlines as there are lines before it, and then as many
characters of the line as there are columns before it (`offset?`). From the position of a character
boundary the walk leads to this boundary (`offset?_endOf`), so no two boundaries have the same
position, and a position is as good as the offset.

Offsets that are no boundaries have no position of their own. Inside a character it is the one
behind the character, and beyond the end it is that of the end. With these, positions keep the
order of all offsets (`position_invertible`).
-/

namespace Pseudocode.Text

/-! ## The walk -/

/-- Skips the text up to the `n`-th newline and this newline. Answers how many bytes these are, and
what is behind. -/
def skipLines? : Nat → List Char → Option (Nat × List Char)
  | 0, cs => some (0, cs)
  | _ + 1, [] => none
  | n + 1, c :: cs =>
    (skipLines? (if c = '\n' then n else n + 1) cs).map
      fun skipped => (c.utf8Size + skipped.1, skipped.2)

/-- Skips `n` characters of a line. Answers how many bytes these are. -/
def skipColumns? : Nat → List Char → Option Nat
  | 0, _ => some 0
  | _ + 1, [] => none
  | n + 1, c :: cs => if c = '\n' then none else (skipColumns? n cs).map (c.utf8Size + ·)

/-- The byte offset of a position, if the text has the position. -/
def offset? (cs : List Char) (p : Position) : Option Nat :=
  (skipLines? (p.line - 1) cs).bind fun skipped =>
    (skipColumns? (p.column - 1) skipped.2).map (skipped.1 + ·)

/-- Skipping as many newlines as a text has, the last character being one, skips the text. -/
theorem skipLines?_append {head : List Char} (rest : List Char)
    (h : ∀ c, head.getLast? = some c → c = '\n') :
    skipLines? (head.count '\n') (head ++ rest) = some (byteLength head, rest) := by
  induction head with
  | nil => rw [List.count_nil, List.nil_append, skipLines?, byteLength_nil]
  | cons c head ih =>
      have htail : ∀ d, head.getLast? = some d → d = '\n' := by
        intro d hd
        refine h d ?_
        rw [List.getLast?_cons, hd, Option.getD_some]
      by_cases hc : c = '\n'
      · subst hc
        rw [List.count_cons_self, List.cons_append, skipLines?, if_pos rfl, ih htail,
          Option.map_some, byteLength_cons]
      · -- the newline that the head ends with is still to come
        have hpos : 0 < head.count '\n' := by
          rw [List.count_pos_iff]
          cases hlast : head.getLast? with
          | none =>
              rw [List.getLast?_eq_none_iff] at hlast
              rw [hlast] at h
              exact absurd (h c rfl) hc
          | some d =>
              rw [← htail d hlast]
              exact List.mem_of_getLast? hlast
        obtain ⟨n, hn⟩ := Nat.exists_eq_succ_of_ne_zero (Nat.ne_of_gt hpos)
        rw [List.count_cons_of_ne hc, hn, List.cons_append, skipLines?, if_neg hc,
          ← Nat.succ_eq_add_one, ← hn, ih htail, Option.map_some, byteLength_cons]

theorem skipColumns?_append {line : List Char} (rest : List Char) (h : '\n' ∉ line) :
    skipColumns? line.length (line ++ rest) = some (byteLength line) := by
  induction line with
  | nil => rw [List.length_nil, skipColumns?, byteLength_nil]
  | cons c line ih =>
      rw [List.mem_cons, not_or] at h
      rw [List.length_cons, List.cons_append, skipColumns?, if_neg (Ne.symm h.1), ih h.2,
        Option.map_some, byteLength_cons]

/-- What is left of a text, when it is cut from behind as long as a test holds, ends with a
character that fails it. -/
theorem not_of_getLast?_dropWhile {p : Char → Bool} {cs : List Char} {c : Char}
    (h : (cs.reverse.dropWhile p).reverse.getLast? = some c) : p c = false := by
  have hstop := List.head?_dropWhile_not p cs.reverse
  rw [List.getLast?_reverse] at h
  rw [h] at hstop
  exact hstop

/-- A text is cut behind its last newline. -/
theorem exists_lastLine (front : List Char) : ∃ head line, front = head ++ line ∧ '\n' ∉ line
    ∧ (∀ c, head.getLast? = some c → c = '\n')
    ∧ endOf front = ⟨head.count '\n' + 1, line.length + 1⟩ := by
  have hline : '\n' ∉ (front.reverse.takeWhile (· != '\n')).reverse := by
    rw [List.mem_reverse]
    exact Lexer.not_mem_takeWhile_bne '\n' _
  have hfront : (front.reverse.dropWhile (· != '\n')).reverse
      ++ (front.reverse.takeWhile (· != '\n')).reverse = front := by
    rw [← List.reverse_append, List.takeWhile_append_dropWhile, List.reverse_reverse]
  refine ⟨_, _, hfront.symm, hline, ?_, ?_⟩
  · intro c hc
    simpa using not_of_getLast?_dropWhile hc
  · rw [endOf_eq, List.length_reverse]
    have hcount := congrArg (List.count '\n') hfront
    rw [List.count_append, List.count_eq_zero_of_not_mem hline, Nat.add_zero] at hcount
    rw [hcount]

/-- The walk to the position behind a front part of the text ends behind this part. -/
theorem offset?_endOf (front rest : List Char) :
    offset? (front ++ rest) (endOf front) = some (byteLength front) := by
  obtain ⟨head, line, rfl, hline, hhead, hend⟩ := exists_lastLine front
  rw [offset?, hend, Nat.add_sub_cancel, Nat.add_sub_cancel, List.append_assoc,
    skipLines?_append _ hhead, Option.bind_some, skipColumns?_append _ hline, Option.map_some,
    byteLength_append]

/-! ## Positions of offsets -/

/-- Reading order, as for `<`. -/
instance : LE Position := ⟨fun p q => p.line < q.line ∨ p.line = q.line ∧ p.column ≤ q.column⟩

theorem Position.le_of_lt {p q : Position} (h : p < q) : p ≤ q :=
  h.imp_right fun ⟨hline, hcolumn⟩ => ⟨hline, Nat.le_of_lt hcolumn⟩

theorem Position.le_refl (p : Position) : p ≤ p := .inr ⟨rfl, Nat.le_refl _⟩

/-- Positions behind longer front parts come later. -/
theorem endOf_mono {front front' : List Char} (h : front <+: front') :
    endOf front ≤ endOf front' := by
  obtain ⟨more, rfl⟩ := h
  cases more with
  | nil =>
      rw [List.append_nil]
      exact Position.le_refl _
  | cons c more => exact Position.le_of_lt (endOf_lt_append front c more)

/-- **Positions keep the order of offsets.** -/
theorem position_mono (cs : List Char) {offset offset' : Nat} (h : offset ≤ offset') :
    position cs offset ≤ position cs offset' := by
  rw [position_eq, position_eq]
  exact endOf_mono (reach_mono h cs)

/-- Within a character, and just behind it, the position is the one behind the character. -/
theorem position_within (before after : List Char) (c : Char) {bytes : Nat} (hpos : 0 < bytes)
    (hle : bytes ≤ c.utf8Size) :
    position (before ++ c :: after) (byteLength before + bytes) = endOf (before ++ [c]) := by
  rw [position_eq, reach_append, reach_within c after hpos hle]

theorem position_beyond {cs : List Char} {offset : Nat} (h : byteLength cs ≤ offset) :
    position cs offset = endOf cs := by
  obtain ⟨bytes, rfl⟩ := Nat.exists_eq_add_of_le h
  have hreach := reach_append cs [] bytes
  rw [List.append_nil, reach, List.append_nil] at hreach
  rw [position_eq, hreach]

/-- A boundary of characters is the end of a front part. -/
theorem exists_front {source : String} {offset : Nat}
    (h : String.Pos.Raw.IsValid source ⟨offset⟩) :
    ∃ front rest, source.toList = front ++ rest ∧ byteLength front = offset := by
  obtain ⟨front, rest, rfl, hoffset⟩ := String.Pos.Raw.isValid_iff_exists_append.mp h
  refine ⟨front.toList, rest.toList, String.toList_append, ?_⟩
  rw [byteLength_toList]
  exact (congrArg String.Pos.Raw.byteIdx hoffset).symm

/-- From the position of a boundary the walk leads back to the boundary. -/
theorem offset?_position {source : String} {offset : Nat}
    (h : String.Pos.Raw.IsValid source ⟨offset⟩) :
    offset? source.toList (position source.toList offset) = some offset := by
  obtain ⟨front, rest, hsource, rfl⟩ := exists_front h
  rw [hsource, position_front, offset?_endOf]

/-- **Positions can be taken back to offsets, and keep their order.**

From the position of a character boundary, skipping the newlines before its line and then the
characters before its column leads to the boundary. So boundaries that are not the same have
positions that are not the same. Further offsets never have earlier positions, whatever the offsets
are. Inside a character the position is the one behind the character, and beyond the end it is the
position of the end. -/
theorem position_invertible (source : String) :
    (∀ offset, String.Pos.Raw.IsValid source ⟨offset⟩ →
        offset? source.toList (position source.toList offset) = some offset)
      ∧ (∀ offset offset', String.Pos.Raw.IsValid source ⟨offset⟩ →
        String.Pos.Raw.IsValid source ⟨offset'⟩ →
        position source.toList offset = position source.toList offset' → offset = offset')
      ∧ (∀ offset offset', offset ≤ offset' →
        position source.toList offset ≤ position source.toList offset')
      ∧ (∀ before c after offset, source.toList = before ++ c :: after →
        byteLength before < offset →
        offset < byteLength before + c.utf8Size →
        position source.toList offset = position source.toList (byteLength before + c.utf8Size))
      ∧ ∀ offset, source.utf8ByteSize ≤ offset →
        position source.toList offset = position source.toList source.utf8ByteSize := by
  refine ⟨fun offset => offset?_position, ?_, fun offset offset' => position_mono _, ?_, ?_⟩
  · intro offset offset' hvalid hvalid' heq
    have hback := offset?_position hvalid
    rw [heq, offset?_position hvalid'] at hback
    exact (Option.some.inj hback).symm
  · intro before c after offset hsource hlow hhigh
    obtain ⟨bytes, rfl⟩ := Nat.exists_eq_add_of_lt hlow
    rw [hsource, Nat.add_assoc, position_within before after c (Nat.succ_pos _) (by omega),
      position_within before after c c.utf8Size_pos (Nat.le_refl _)]
  · intro offset hoffset
    rw [← byteLength_toList] at hoffset ⊢
    rw [position_beyond hoffset, position_beyond (Nat.le_refl _)]

/-- Behind an empty line and inside a character of three bytes. -/
theorem position_invertible_empty_line :
    (position "é\n\n日".toList 4 = ⟨3, 1⟩ ∧
      offset? "é\n\n日".toList (position "é\n\n日".toList 4) = some 4)
      ∧ (¬ position "é\n\n日".toList 4 = position "é\n\n日".toList 3)
      ∧ position "é\n\n日".toList 1 ≤ position "é\n\n日".toList 3
      ∧ position "é\n\n日".toList 5 = position "é\n\n日".toList 7
      ∧ position "é\n\n日".toList 9 = position "é\n\n日".toList 7 := by
  have hboundary : String.Pos.Raw.IsValid "é\n\n日" ⟨4⟩ :=
    @isValid_byteLength _ ['é', '\n', '\n'] ['日'] rfl
  have hearlier : String.Pos.Raw.IsValid "é\n\n日" ⟨3⟩ :=
    @isValid_byteLength _ ['é', '\n'] ['\n', '日'] rfl
  obtain ⟨hback, hdistinct, hmono, hinside, hbeyond⟩ := position_invertible "é\n\n日"
  refine ⟨⟨rfl, hback 4 hboundary⟩, fun heq => ?_, hmono 1 3 (by decide), ?_,
    hbeyond 9 (by decide)⟩
  · exact absurd (hdistinct 4 3 hboundary hearlier heq) (by decide)
  · exact hinside ['é', '\n', '\n'] '日' [] 5 rfl (by decide) (by decide)

end Pseudocode.Text
