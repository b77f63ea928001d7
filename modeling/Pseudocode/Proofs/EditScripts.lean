import Mathlib
import Pseudocode.Suggestion.Distance

/-!
# Edit scripts

The edit distance of two texts is the least number of edits that turn the one into the other
(`editDistance_isLeast`). An edit inserts, erases or replaces one character anywhere in the text,
and edits follow one another freely: nothing is said about their order, and characters that were
inserted may be replaced or erased again.

Between the table and the scripts stands the recursion that the table unrolls, `apart`. It takes
characters from the front, while the table takes in more and more of the two texts at the end, so a
cell is the distance of two reversed prefixes (`lastRow_eq`). That a script of this length exists
is read off the recursion. That there is no shorter one comes from what a single edit can do: it
brings a text nearer to any other by one at most (`Edit.apart_le`).
-/

namespace Pseudocode.Suggestion

/-! ## Edits -/

/-- One character is inserted, erased or replaced. -/
inductive Edit : List Char → List Char → Prop where
  | insert (front back : List Char) (c : Char) : Edit (front ++ back) (front ++ c :: back)
  | erase (front back : List Char) (c : Char) : Edit (front ++ c :: back) (front ++ back)
  | replace (front back : List Char) (c d : Char) : Edit (front ++ c :: back) (front ++ d :: back)

/-- `Edits n as bs`: one edit after the other, `n` of them turn `as` into `bs`. -/
inductive Edits : Nat → List Char → List Char → Prop where
  | none (as : List Char) : Edits 0 as as
  | cons {n : Nat} {as bs cs : List Char} : Edit as bs → Edits n bs cs → Edits (n + 1) as cs

variable {as bs cs : List Char}

/-- What is edited behind a character is edited behind one character more. -/
theorem Edit.under (c : Char) (h : Edit as bs) : Edit (c :: as) (c :: bs) := by
  cases h with
  | insert front back d => exact .insert (c :: front) back d
  | erase front back d => exact .erase (c :: front) back d
  | replace front back d e => exact .replace (c :: front) back d e

/-- An edit of a text is one of the reversed text. -/
theorem Edit.reverse (h : Edit as bs) : Edit as.reverse bs.reverse := by
  cases h with
  | insert front back c => simpa using Edit.insert back.reverse front.reverse c
  | erase front back c => simpa using Edit.erase back.reverse front.reverse c
  | replace front back c d => simpa using Edit.replace back.reverse front.reverse c d

namespace Edits

variable {n : Nat}

theorem under (c : Char) (h : Edits n as bs) : Edits n (c :: as) (c :: bs) := by
  induction h with
  | none as => exact .none (c :: as)
  | cons hedit _ ih => exact .cons (hedit.under c) ih

theorem reverse (h : Edits n as bs) : Edits n as.reverse bs.reverse := by
  induction h with
  | none as => exact .none as.reverse
  | cons hedit _ ih => exact .cons hedit.reverse ih

theorem reverse_iff : Edits n as.reverse bs.reverse ↔ Edits n as bs := by
  refine ⟨fun h => ?_, reverse⟩
  have hback := h.reverse
  rwa [List.reverse_reverse, List.reverse_reverse] at hback

/-- Another edit at the end of a script. -/
theorem snoc (h : Edits n as bs) (hedit : Edit bs cs) : Edits (n + 1) as cs := by
  induction h with
  | none as => exact .cons hedit (.none cs)
  | cons hfirst _ ih => exact .cons hfirst (ih hedit)

end Edits

/-! ## The recursion -/

/-- The distance of two texts, by what becomes of their first characters. -/
def apart : List Char → List Char → Nat
  | [], bs => bs.length
  | a :: as, [] => as.length + 1
  | a :: as, b :: bs =>
    min (min (apart as (b :: bs) + 1) (apart (a :: as) bs + 1))
      (apart as bs + if a = b then 0 else 1)
termination_by as bs => as.length + bs.length

theorem apart_nil (bs : List Char) : apart [] bs = bs.length := by rw [apart]

theorem apart_nil_right (as : List Char) : apart as [] = as.length := by
  cases as with
  | nil => exact apart_nil []
  | cons a as => rw [apart, List.length_cons]

theorem apart_cons_cons (a b : Char) (as bs : List Char) : apart (a :: as) (b :: bs) =
    min (min (apart as (b :: bs) + 1) (apart (a :: as) bs + 1))
      (apart as bs + if a = b then 0 else 1) := by
  rw [apart]

/-- A text is no edits apart from itself. -/
theorem apart_self (as : List Char) : apart as as = 0 := by
  induction as with
  | nil => exact apart_nil []
  | cons a as ih => rw [apart_cons_cons, ih, if_pos rfl, Nat.min_zero]

/-! ## A script of this length -/

theorem edits_nil_left (bs : List Char) : Edits bs.length [] bs := by
  induction bs with
  | nil => exact .none []
  | cons b bs ih => exact ih.snoc (.insert [] bs b)

theorem edits_nil_right (as : List Char) : Edits as.length as [] := by
  induction as with
  | nil => exact .none []
  | cons a as ih => exact .cons (.erase [] as a) ih

/-- Where the first characters are the same, they stay; otherwise one replaces the other. -/
theorem Edits.both {n : Nat} (a b : Char) (h : Edits n as bs) :
    Edits (n + if a = b then 0 else 1) (a :: as) (b :: bs) := by
  by_cases hab : a = b
  · subst hab
    rw [if_pos rfl]
    exact h.under a
  · rw [if_neg hab]
    exact .cons (.replace [] as a b) (h.under b)

/-- **There is a script of this length**, which is read off the recursion. -/
theorem edits_apart (as bs : List Char) : Edits (apart as bs) as bs := by
  induction as, bs using apart.induct with
  | case1 bs =>
      rw [apart_nil]
      exact edits_nil_left bs
  | case2 a as =>
      rw [apart_nil_right]
      exact edits_nil_right (a :: as)
  | case3 a as b bs ihErase ihInsert ihBoth =>
      rw [apart_cons_cons]
      -- the least of the three is one of them
      have herase : Edits (apart as (b :: bs) + 1) (a :: as) (b :: bs) :=
        .cons (.erase [] as a) ihErase
      have hinsert : Edits (apart (a :: as) bs + 1) (a :: as) (b :: bs) :=
        ihInsert.snoc (.insert [] bs b)
      exact min_rec' (Edits · (a :: as) (b :: bs))
        (min_rec' (Edits · (a :: as) (b :: bs)) herase hinsert)
        (ihBoth.both a b)

/-! ## No shorter script -/

/-- A character more in front is one edit at most. -/
theorem apart_cons_left_le (a : Char) (as bs : List Char) :
    apart (a :: as) bs ≤ apart as bs + 1 := by
  cases bs with
  | nil => rw [apart_nil_right, apart_nil_right, List.length_cons]
  | cons b bs =>
      rw [apart_cons_cons]
      omega

theorem apart_cons_right_le (as : List Char) (b : Char) (bs : List Char) :
    apart as (b :: bs) ≤ apart as bs + 1 := by
  cases as with
  | nil => rw [apart_nil, apart_nil, List.length_cons]
  | cons a as =>
      rw [apart_cons_cons]
      omega

theorem apart_cons_cons_le (a b : Char) (as bs : List Char) :
    apart (a :: as) (b :: bs) ≤ apart as bs + 1 := by
  have hcost : (if a = b then 0 else 1) ≤ 1 := by split <;> omega
  rw [apart_cons_cons]
  omega

/-- A character less in front is one edit at most. -/
theorem apart_le_cons_left (a : Char) (as bs : List Char) :
    apart as bs ≤ apart (a :: as) bs + 1 := by
  induction bs with
  | nil =>
      rw [apart_nil_right, apart_nil_right, List.length_cons]
      omega
  | cons b bs ih =>
      have hinsert := apart_cons_right_le as b bs
      rw [apart_cons_cons]
      omega

/-- So is another character in front. -/
theorem apart_replace_le (c d : Char) (as bs : List Char) :
    apart (c :: as) bs ≤ apart (d :: as) bs + 1 := by
  induction bs with
  | nil =>
      rw [apart_nil_right, apart_nil_right, List.length_cons, List.length_cons]
      omega
  | cons b bs ih =>
      have herase := apart_cons_left_le c as (b :: bs)
      have hinsert := apart_cons_right_le (c :: as) b bs
      have hboth := apart_cons_cons_le c b as bs
      rw [apart_cons_cons d]
      omega

/-- A bound that holds of two texts and all others holds of them with a character in front, too. -/
theorem apart_under_le (c : Char) (h : ∀ zs, apart as zs ≤ apart bs zs + 1) (zs : List Char) :
    apart (c :: as) zs ≤ apart (c :: bs) zs + 1 := by
  induction zs with
  | nil =>
      have hlength := h []
      rw [apart_nil_right, apart_nil_right] at hlength ⊢
      rw [List.length_cons, List.length_cons]
      omega
  | cons z zs ih =>
      have herase := h (z :: zs)
      have hboth := h zs
      rw [apart_cons_cons, apart_cons_cons]
      omega

/-- An edit brings a text nearer to another by one at most. -/
theorem Edit.apart_le (h : Edit as bs) : ∀ zs, apart as zs ≤ apart bs zs + 1 := by
  cases h with
  | insert front back c =>
      induction front with
      | nil => exact apart_le_cons_left c back
      | cons x front ih => exact apart_under_le x ih
  | erase front back c =>
      induction front with
      | nil => exact apart_cons_left_le c back
      | cons x front ih => exact apart_under_le x ih
  | replace front back c d =>
      induction front with
      | nil => exact apart_replace_le c d back
      | cons x front ih => exact apart_under_le x ih

/-- **There is no shorter script**, by induction on its edits. -/
theorem Edits.apart_le {n : Nat} (h : Edits n as bs) : apart as bs ≤ n := by
  induction h with
  | none as => rw [apart_self]
  | @cons n as bs cs hedit _ ih =>
      have hstep := hedit.apart_le cs
      omega

/-! ## The table -/

/-- Behind the cell for `ps` and `qs`, those for `ps` and one more of the remaining characters
each. Both texts are reversed. -/
def cells (ps qs : List Char) : List Char → List Nat
  | [] => []
  | b :: bs => apart ps (b :: qs) :: cells ps (b :: qs) bs

/-- The row for a reversed prefix of the first text. -/
def row (ps bs : List Char) : List Nat := apart ps [] :: cells ps [] bs

/-- The cells of a row come from those of the row before. -/
theorem rowCells_eq (a : Char) (ps qs bs : List Char) :
    rowCells a (apart (a :: ps) qs) (apart ps qs) bs (cells ps qs bs) = cells (a :: ps) qs bs := by
  induction bs generalizing qs with
  | nil => rfl
  | cons b bs ih => rw [cells, rowCells, ← apart_cons_cons, ih, cells]

/-- A row is followed by that for one character more. -/
theorem nextRow_row (bs ps : List Char) (a : Char) :
    nextRow bs (row ps bs) a = row (a :: ps) bs := by
  have hfirst : apart ps [] + 1 = apart (a :: ps) [] := by
    rw [apart_nil_right, apart_nil_right, List.length_cons]
  rw [row, nextRow, hfirst, rowCells_eq, row]

theorem cells_nil (qs bs : List Char) :
    cells [] qs bs = List.range' (qs.length + 1) bs.length := by
  induction bs generalizing qs with
  | nil => rfl
  | cons b bs ih => rw [cells, ih, apart_nil, List.length_cons, List.length_cons, List.range'_succ]

theorem row_nil (bs : List Char) : row [] bs = List.range (bs.length + 1) := by
  rw [row, cells_nil, apart_nil, List.range_eq_range', List.range'_succ]
  rfl

theorem foldl_nextRow (bs as ps : List Char) :
    as.foldl (nextRow bs) (row ps bs) = row (as.reverse ++ ps) bs := by
  induction as generalizing ps with
  | nil => rfl
  | cons a as ih =>
      rw [List.foldl_cons, nextRow_row, ih, List.reverse_cons, List.append_assoc,
        List.singleton_append]

/-- The table ends with the row for all of the first text. -/
theorem lastRow_eq (as bs : List Char) : lastRow as bs = row as.reverse bs := by
  rw [lastRow, ← row_nil, foldl_nextRow, List.append_nil]

theorem getLast?_cells (ps qs bs : List Char) :
    (apart ps qs :: cells ps qs bs).getLast? = some (apart ps (bs.reverse ++ qs)) := by
  induction bs generalizing qs with
  | nil => rfl
  | cons b bs ih =>
      rw [cells, List.getLast?_cons_cons, ih, List.reverse_cons, List.append_assoc,
        List.singleton_append]

/-- The last cell is the distance of the two texts, both reversed. -/
theorem editDistance_eq (a b : String) :
    editDistance a b = apart a.toList.reverse b.toList.reverse := by
  rw [editDistance, lastRow_eq, row, getLast?_cells, List.append_nil, Option.getD_some]

/-- The edit distance is the least number of edits that turn one text into the other. -/
theorem editDistance_isLeast (a b : String) :
    IsLeast {n | Edits n a.toList b.toList} (editDistance a b) := by
  rw [editDistance_eq]
  constructor
  · exact Edits.reverse_iff.mp (edits_apart _ _)
  · intro n hn
    exact (Edits.reverse_iff.mpr hn).apart_le

end Pseudocode.Suggestion
