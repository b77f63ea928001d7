import Mathlib.Data.Stream.Init
import Mathlib.Order.Bounds.Basic
import Pseudocode.Proofs.Stream

/-!
# A token stream is a cursor over an infinite sequence

A stream holds finitely many tokens and a cursor that may be anywhere behind them. What can be read
at the cursor is one element of an infinite sequence: the tokens, and then the end of input again
and again. Over this sequence the cursor is a plain number. Nothing has to be said about where the
tokens end, and a step back is the inverse of a step forwards everywhere.

`Cursor.Step` is what each operation does to such a number. The stream does the same in any order
of operations (`performAll_eq_some_iff`), and the only thing that it cannot do is a step back from
its first token.
-/

namespace Pseudocode

namespace TokenStream

/-! ## The sequence -/

theorem closed_ne_nil (tokens : List Token) : closed tokens ≠ [] := by
  unfold closed
  split
  · rename_i h
    rintro rfl
    exact absurd h (by simp)
  · simp

/-- The closed tokens, and then the last of them for ever. -/
def endless (tokens : List Token) : Stream' Token :=
  closed tokens ++ₛ Stream'.const ((closed tokens).getLast (closed_ne_nil tokens))

/-- All that can be read from a stream, wherever its cursor is. -/
def sequence (s : TokenStream) : Stream' Token := s.tokens.toList ++ₛ Stream'.const s.closing

/-- The stream with its cursor elsewhere. -/
def seek (s : TokenStream) (cursor : Nat) : TokenStream := { s with cursor := cursor }

/-- A stream made of tokens reads as they do, and then ends again and again. -/
theorem sequence_ofTokens (tokens : List Token) : (ofTokens tokens).sequence = endless tokens := by
  have hclosing : (ofTokens tokens).closing = (closed tokens).getLast (closed_ne_nil tokens) := by
    unfold closing
    simp [← tokens_ofTokens, List.getLast_eq_getElem]
  unfold sequence endless
  rw [tokens_ofTokens, hclosing]

/-- Reading at the cursor is reading the sequence there. Behind the tokens both answer the last
one. -/
theorem current_eq_get (s : TokenStream) : s.current = s.sequence.get s.cursor := by
  rcases Nat.lt_or_ge s.cursor s.tokens.size with hlt | hge
  · have hi : min s.cursor (s.tokens.size - 1) = s.cursor := by omega
    unfold sequence
    rw [Stream'.get_append_left s.cursor s.tokens.toList _ (by simpa using hlt)]
    simp only [current, hi, Array.getElem_toList]
  · obtain ⟨beyond, hbeyond⟩ := Nat.exists_eq_add_of_le hge
    unfold sequence
    rw [current_of_le s (by omega), hbeyond, ← Array.length_toList, Stream'.get_append_right,
      Stream'.get_const]

/-! ## Reading a significant token -/

/-- The first significant token at place `i` or behind it is at place `k`. -/
def IsNext (sequence : Stream' Token) (i k : Nat) : Prop :=
  IsLeast {j | i ≤ j ∧ (sequence.get j).kind.isInsignificant = false} k

theorem IsNext.of_significant {sequence : Stream' Token} {i : Nat}
    (h : (sequence.get i).kind.isInsignificant = false) : IsNext sequence i i :=
  ⟨⟨Nat.le_refl i, h⟩, fun _ hj => hj.1⟩

/-- A newline or comment at the cursor is skipped. -/
theorem IsNext.of_succ {sequence : Stream' Token} {i k : Nat}
    (h : (sequence.get i).kind.isInsignificant = true) (hnext : IsNext sequence (i + 1) k) :
    IsNext sequence i k := by
  obtain ⟨⟨hle, hk⟩, hleast⟩ := hnext
  refine ⟨⟨Nat.le_of_succ_le hle, hk⟩, ?_⟩
  rintro j ⟨hij, hj⟩
  have hne : i ≠ j := by
    rintro rfl
    rw [h] at hj
    exact absurd hj (by decide)
  exact hleast ⟨by omega, hj⟩

/-- The cursor stops behind the first significant token that it comes to. -/
theorem nextSignificant_eq (s : TokenStream) :
    ∃ k, IsNext s.sequence s.cursor k ∧
      s.nextSignificant = (s.sequence.get k, s.seek (k + 1)) := by
  fun_induction nextSignificant s with
  | case1 s h ih =>
      obtain ⟨k, hnext, heq⟩ := ih
      rw [current_eq_get] at h
      exact ⟨k, hnext.of_succ h, heq⟩
  | case2 s h =>
      refine ⟨s.cursor, .of_significant ?_, ?_⟩
      · rw [← current_eq_get]
        simpa using h
      · rw [← current_eq_get]
        rfl

theorem nextSignificant_of_isNext {s : TokenStream} {k : Nat} (h : IsNext s.sequence s.cursor k) :
    s.nextSignificant = (s.sequence.get k, s.seek (k + 1)) := by
  obtain ⟨k', hnext, heq⟩ := s.nextSignificant_eq
  rw [h.unique hnext]
  exact heq

/-- From every place a significant token is ahead. -/
theorem exists_isNext (s : TokenStream) (i : Nat) : ∃ k, IsNext s.sequence i k := by
  obtain ⟨k, hnext, -⟩ := (s.seek i).nextSignificant_eq
  exact ⟨k, hnext⟩

/-! ## Operations -/

/-- What a reader can ask of a stream. -/
inductive Request where
  | next
  | back
  | nextSignificant
  | jumpToSignificant
  | peekSignificant
  | take (kind : Kind)

/-- What it is told. -/
inductive Reply where
  | token (t : Token)
  | moved
  | taken (result : Except Error Token)

/-- One operation on a stream. There is no step back from the first token. -/
def perform (s : TokenStream) : Request → Option (Reply × TokenStream)
  | .next => some (.token s.next.1, s.next.2)
  | .back => s.back?.map fun before => (.moved, before)
  | .nextSignificant => some (.token s.nextSignificant.1, s.nextSignificant.2)
  | .jumpToSignificant => some (.token s.jumpToSignificant.1, s.jumpToSignificant.2)
  | .peekSignificant => some (.token s.peekSignificant, s)
  | .take kind => some (.taken (s.take kind).1, (s.take kind).2)

/-- Operations one after the other. -/
def performAll (s : TokenStream) : List Request → Option (List Reply × TokenStream)
  | [] => some ([], s)
  | request :: requests =>
    (s.perform request).bind fun first =>
      (first.2.performAll requests).map fun rest => (first.1 :: rest.1, rest.2)

end TokenStream

namespace Cursor

open TokenStream (IsNext Request Reply)

/-- One operation on a cursor over an infinite sequence of tokens. -/
inductive Step (sequence : Stream' Token) : Nat → Request → Reply → Nat → Prop where
  | next {i : Nat} : Step sequence i .next (.token (sequence.get i)) (i + 1)
  | back {i : Nat} : Step sequence (i + 1) .back .moved i
  | nextSignificant {i k : Nat} : IsNext sequence i k →
      Step sequence i .nextSignificant (.token (sequence.get k)) (k + 1)
  | jumpToSignificant {i k : Nat} : IsNext sequence i k →
      Step sequence i .jumpToSignificant (.token (sequence.get k)) k
  | peekSignificant {i k : Nat} : IsNext sequence i k →
      Step sequence i .peekSignificant (.token (sequence.get k)) i
  | taken {i k : Nat} {kind : Kind} : IsNext sequence i k → (sequence.get k).kind = kind →
      Step sequence i (.take kind) (.taken (.ok (sequence.get k))) (k + 1)
  | refused {i k : Nat} {kind : Kind} : IsNext sequence i k → (sequence.get k).kind ≠ kind →
      Step sequence i (.take kind)
        (.taken (.error (.unexpectedToken (.kind kind) (sequence.get k)))) (k + 1)

/-- Operations one after the other. -/
inductive Runs (sequence : Stream' Token) : Nat → List Request → List Reply → Nat → Prop where
  | nil {i : Nat} : Runs sequence i [] [] i
  | cons {i j k : Nat} {request : Request} {reply : Reply} {requests : List Request}
      {replies : List Reply} :
      Step sequence i request reply j → Runs sequence j requests replies k →
      Runs sequence i (request :: requests) (reply :: replies) k

end Cursor

namespace TokenStream

open Cursor (Step Runs)

variable {s s' : TokenStream} {i j : Nat} {request : Request} {reply : Reply}
  {requests : List Request} {replies : List Reply}

/-- What the cursor does, the stream does. -/
theorem perform_of_step (h : Step s.sequence i request reply j) :
    (s.seek i).perform request = some (reply, s.seek j) := by
  have hread : ∀ {k : Nat}, IsNext s.sequence i k →
      (s.seek i).nextSignificant = (s.sequence.get k, s.seek (k + 1)) :=
    nextSignificant_of_isNext (s := s.seek i)
  cases h with
  | next =>
      rw [perform, next, current_eq_get]
      rfl
  | back => rfl
  | nextSignificant hnext => rw [perform, hread hnext]
  | jumpToSignificant hnext =>
      rw [perform, jumpToSignificant, hread hnext]
      rfl
  | peekSignificant hnext => rw [perform, peekSignificant, hread hnext]
  | taken hnext hkind =>
      rw [perform, take, hread hnext]
      simp only [if_pos hkind]
  | refused hnext hkind =>
      rw [perform, take, hread hnext]
      simp only [if_neg hkind]

/-- Everything but a step back from the first place has a reply. -/
theorem exists_step (s : TokenStream) (h : ¬ (request = .back ∧ i = 0)) :
    ∃ reply j, Step s.sequence i request reply j := by
  obtain ⟨k, hnext⟩ := s.exists_isNext i
  cases request with
  | next => exact ⟨_, _, .next⟩
  | back =>
      obtain ⟨j, rfl⟩ : ∃ j, i = j + 1 := ⟨i - 1, by simp at h; omega⟩
      exact ⟨_, _, .back⟩
  | nextSignificant => exact ⟨_, _, .nextSignificant hnext⟩
  | jumpToSignificant => exact ⟨_, _, .jumpToSignificant hnext⟩
  | peekSignificant => exact ⟨_, _, .peekSignificant hnext⟩
  | take kind =>
      by_cases hkind : (s.sequence.get k).kind = kind
      · exact ⟨_, _, .taken hnext hkind⟩
      · exact ⟨_, _, .refused hnext hkind⟩

theorem perform_back_first (s : TokenStream) : (s.seek 0).perform .back = none := rfl

/-- The stream and the cursor make the same steps. -/
theorem perform_eq_some_iff :
    (s.seek i).perform request = some (reply, s') ↔
      ∃ j, Step s.sequence i request reply j ∧ s' = s.seek j := by
  constructor
  · intro h
    by_cases hfirst : request = .back ∧ i = 0
    · obtain ⟨rfl, rfl⟩ := hfirst
      exact absurd h (by simp [perform_back_first])
    · obtain ⟨reply', j, hstep⟩ := s.exists_step hfirst
      rw [perform_of_step hstep] at h
      cases h
      exact ⟨j, hstep, rfl⟩
  · rintro ⟨j, hstep, rfl⟩
    exact perform_of_step hstep

/-- The stream and the cursor make the same runs, by induction on the operations. -/
theorem performAll_eq_some_iff :
    (s.seek i).performAll requests = some (replies, s') ↔
      ∃ j, Runs s.sequence i requests replies j ∧ s' = s.seek j := by
  induction requests generalizing i replies s' with
  | nil =>
      rw [performAll]
      constructor
      · intro h
        cases h
        exact ⟨i, .nil, rfl⟩
      · rintro ⟨j, hruns, rfl⟩
        cases hruns
        rfl
  | cons request requests ih =>
      rw [performAll]
      constructor
      · intro h
        obtain ⟨⟨reply, after⟩, hfirst, hrest⟩ := Option.bind_eq_some_iff.mp h
        obtain ⟨⟨more, last⟩, hall, heq⟩ := Option.map_eq_some_iff.mp hrest
        obtain ⟨j, hstep, rfl⟩ := perform_eq_some_iff.mp hfirst
        obtain ⟨k, hruns, rfl⟩ := ih.mp hall
        cases heq
        exact ⟨k, .cons hstep hruns, rfl⟩
      · rintro ⟨k, hruns, rfl⟩
        cases hruns with
        | cons hstep hruns =>
            rw [perform_of_step hstep, Option.bind_some, ih.mpr ⟨k, hruns, rfl⟩]
            rfl

/-- A stream gives up where it is to go back from its first token, and nowhere else. -/
theorem performAll_eq_none_iff :
    (s.seek i).performAll requests = none ↔
      ∃ before after replies, requests = before ++ .back :: after ∧
      Runs s.sequence i before replies 0 := by
  induction requests generalizing i with
  | nil => simp [performAll]
  | cons request requests ih =>
      rw [performAll]
      constructor
      · intro h
        by_cases hfirst : request = .back ∧ i = 0
        · obtain ⟨rfl, rfl⟩ := hfirst
          exact ⟨[], requests, [], rfl, .nil⟩
        · obtain ⟨reply, j, hstep⟩ := s.exists_step hfirst
          rw [perform_of_step hstep, Option.bind_some, Option.map_eq_none_iff] at h
          obtain ⟨before, after, replies, rfl, hruns⟩ := ih.mp h
          exact ⟨request :: before, after, reply :: replies, rfl, .cons hstep hruns⟩
      · rintro ⟨before, after, replies, hrequests, hruns⟩
        cases hruns with
        | nil =>
            cases hrequests
            rw [perform_back_first, Option.bind_none]
        | cons hstep hruns =>
            injection hrequests with hrequest hrequests
            subst hrequest
            rw [perform_of_step hstep, Option.bind_some, Option.map_eq_none_iff]
            exact ih.mpr ⟨_, after, _, hrequests, hruns⟩

/--
**A token stream is a cursor over an infinite sequence.**

The sequence is the given tokens, with the end of input behind them where it is missing, and then
this last token for ever. Whatever is asked of the stream, one operation after the other, its
replies are those of a number that moves over the sequence (`Cursor.Step`), and at the end its
cursor is that number. There always is a first significant token ahead, so that the stream can do
all that it is asked to do, but for a step back from the first token. A step back undoes a step
forwards at every place, also far behind the tokens.
-/
theorem performAll_ofTokens (tokens : List Token) (requests : List Request) :
    (∀ replies after, (ofTokens tokens).performAll requests = some (replies, after) ↔
        ∃ cursor, Runs (endless tokens) 0 requests replies cursor ∧
        after = (ofTokens tokens).seek cursor)
      ∧ ((ofTokens tokens).performAll requests = none ↔
          ∃ before after replies, requests = before ++ .back :: after ∧
          Runs (endless tokens) 0 before replies 0)
      ∧ (∀ i, ∃ k, IsNext (endless tokens) i k)
      ∧ ∀ i, ((ofTokens tokens).seek i).advance.back? = some ((ofTokens tokens).seek i) := by
  rw [← sequence_ofTokens]
  refine ⟨fun replies after => ?_, ?_, (ofTokens tokens).exists_isNext, fun i => rfl⟩
  · exact performAll_eq_some_iff (s := ofTokens tokens) (i := 0)
  · exact performAll_eq_none_iff (s := ofTokens tokens) (i := 0)

end TokenStream

end Pseudocode
