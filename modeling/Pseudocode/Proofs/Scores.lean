import Mathlib
import Pseudocode.Proofs.EditScripts
import Pseudocode.Suggestion

/-!
# Scores of candidates

A score is the part that two words have in common, and half a point more for a candidate that goes
on from what is being typed. The arithmetic can be done over any numbers (`Likeness.scoreBy`). Over
doubles it gives the scores that candidates are ranked by, and over rationals their exact values.

Exact scores are between nothing and one and a half, and only the word itself reaches the bound
(`exactScore_bounds`). This comes down to three facts about the distance: it is not greater than
the longer word, it is zero only for a word and itself, and a word is as far away from a front part
as it has more characters.
-/

namespace Pseudocode.Suggestion

/-! ## Distances -/

/-- No distance is greater than the longer text. -/
theorem apart_le_max (as bs : List Char) : apart as bs ≤ max as.length bs.length := by
  induction as generalizing bs with
  | nil =>
      rw [apart_nil]
      exact Nat.le_max_right _ _
  | cons a as ih =>
      cases bs with
      | nil =>
          rw [apart_nil_right]
          exact Nat.le_max_left _ _
      | cons b bs =>
          have hstep := apart_cons_cons_le a b as bs
          have hrest := ih bs
          rw [List.length_cons, List.length_cons]
          omega

/-- Texts that are no edits apart are the same. -/
theorem eq_of_apart_eq_zero {as bs : List Char} (h : apart as bs = 0) : as = bs := by
  have hedits := edits_apart as bs
  rw [h] at hedits
  cases hedits with
  | none => rfl

theorem Edit.length_le {as bs : List Char} (h : Edit as bs) : as.length ≤ bs.length + 1 := by
  cases h <;> simp only [List.length_append, List.length_cons] <;> omega

/-- A script makes a text shorter by no more than one character for each edit. -/
theorem Edits.length_le {n : Nat} {as bs : List Char} (h : Edits n as bs) :
    as.length ≤ bs.length + n := by
  induction h with
  | none as => exact Nat.le_refl _
  | cons hedit _ ih =>
      have hstep := hedit.length_le
      omega

theorem apart_append_le (front as : List Char) : apart (front ++ as) as ≤ front.length := by
  induction front with
  | nil => rw [List.nil_append, apart_self, List.length_nil]
  | cons c front ih =>
      have hstep := apart_cons_left_le c (front ++ as) as
      rw [List.cons_append, List.length_cons]
      omega

theorem editDistance_le_max (a b : String) : editDistance a b ≤ max a.length b.length := by
  have hmax := apart_le_max a.toList.reverse b.toList.reverse
  rwa [← editDistance_eq, List.length_reverse, List.length_reverse, String.length_toList,
    String.length_toList] at hmax

/-- Different texts are some edits apart. -/
theorem editDistance_pos {a b : String} (h : a ≠ b) : 0 < editDistance a b := by
  rw [Nat.pos_iff_ne_zero, editDistance_eq]
  intro hzero
  exact h (String.toList_inj.mp (List.reverse_inj.mp (eq_of_apart_eq_zero hzero)))

/-- The characters behind the front part have to go, and nothing else. -/
theorem editDistance_add_length {a b : String} (h : b.toList <+: a.toList) :
    editDistance a b + b.length = a.length := by
  obtain ⟨more, hmore⟩ := h
  have hlower := (edits_apart a.toList.reverse b.toList.reverse).length_le
  have hupper := apart_append_le more.reverse b.toList.reverse
  rw [← List.reverse_append, hmore] at hupper
  have hlength := congrArg List.length hmore
  rw [← editDistance_eq, List.length_reverse, List.length_reverse, String.length_toList,
    String.length_toList] at hlower
  rw [← editDistance_eq, List.length_reverse] at hupper
  rw [List.length_append, String.length_toList, String.length_toList] at hlength
  omega

/-! ## Arithmetic -/

/-- The score of words that differ, as a rational. -/
theorem Likeness.scoreBy_near (distance longest : Nat) (starts : Bool) :
    (near distance longest starts).scoreBy (Nat.cast : Nat → ℚ) =
      1 - distance / longest + if starts = true then 1 / 2 else 0 := by
  cases starts <;> norm_num [scoreBy]

/-- The score of a candidate without rounding. -/
def exactScore (candidate query : String) : ℚ := (likeness candidate query).scoreBy Nat.cast

variable {candidate query : String}

theorem likeness_same (h : normalize candidate = normalize query) :
    likeness candidate query = .same := by
  rw [likeness, if_pos h]

theorem likeness_empty (h : normalize candidate ≠ normalize query)
    (hempty : normalize candidate = "" ∨ normalize query = "") :
    likeness candidate query = .empty := by
  have htest : ((normalize candidate).isEmpty || (normalize query).isEmpty) = true := by
    rw [Bool.or_eq_true, String.isEmpty_iff, String.isEmpty_iff]
    exact hempty
  rw [likeness, if_neg h, if_pos htest]

theorem likeness_near (h : normalize candidate ≠ normalize query)
    (hcandidate : normalize candidate ≠ "") (hquery : normalize query ≠ "") :
    likeness candidate query =
      .near (editDistance (normalize candidate) (normalize query))
        (max (normalize candidate).length (normalize query).length)
        ((normalize query).toList.isPrefixOf (normalize candidate).toList) := by
  have htest : ¬ ((normalize candidate).isEmpty || (normalize query).isEmpty) = true := by
    rw [Bool.or_eq_true, String.isEmpty_iff, String.isEmpty_iff, not_or]
    exact ⟨hcandidate, hquery⟩
  rw [likeness, if_neg h, if_neg htest]

/-- The word that is being typed scores one and a half. -/
theorem exactScore_same (h : normalize candidate = normalize query) :
    exactScore candidate query = 3 / 2 := by
  rw [exactScore, likeness_same h, Likeness.scoreBy]
  norm_num

theorem exactScore_empty (h : normalize candidate ≠ normalize query)
    (hempty : normalize candidate = "" ∨ normalize query = "") :
    exactScore candidate query = 0 := by
  rw [exactScore, likeness_empty h hempty, Likeness.scoreBy]
  norm_num

/-- Any other word scores the part in common, and a half if it goes on from what is being typed. -/
theorem exactScore_near (h : normalize candidate ≠ normalize query)
    (hcandidate : normalize candidate ≠ "") (hquery : normalize query ≠ "") :
    exactScore candidate query =
      1 - editDistance (normalize candidate) (normalize query) / max (normalize candidate).length
        (normalize query).length
        + if (normalize query).toList <+: (normalize candidate).toList then 1 / 2 else 0 := by
  rw [exactScore, likeness_near h hcandidate hquery, Likeness.scoreBy_near]
  simp only [List.isPrefixOf_iff_prefix]

theorem length_pos_of_ne {text : String} (h : text ≠ "") : 0 < text.length := by
  rw [← String.length_toList, List.length_pos_iff]
  exact mt String.toList_eq_nil_iff.mp h

/-- The part that is different is something, but not more than the whole. -/
theorem distance_bounds (h : normalize candidate ≠ normalize query)
    (hcandidate : normalize candidate ≠ "") :
    (0 : ℚ) < editDistance (normalize candidate) (normalize query) / max
      (normalize candidate).length (normalize query).length
      ∧ (editDistance (normalize candidate) (normalize query) / max (normalize candidate).length
        (normalize query).length : ℚ)
        ≤ 1 := by
  have hlongest : 0 < max (normalize candidate).length (normalize query).length :=
    Nat.lt_of_lt_of_le (length_pos_of_ne hcandidate) (Nat.le_max_left _ _)
  have hpos := editDistance_pos h
  have hle := editDistance_le_max (normalize candidate) (normalize query)
  constructor
  · exact div_pos (Nat.cast_pos.mpr hpos) (Nat.cast_pos.mpr hlongest)
  · rw [div_le_one (Nat.cast_pos.mpr hlongest)]
    exact Nat.cast_le.mpr hle

/-- Any word other than the one being typed scores less than this one would. -/
theorem exactScore_of_ne (h : normalize candidate ≠ normalize query) :
    0 ≤ exactScore candidate query ∧ exactScore candidate query < 3 / 2 := by
  by_cases hempty : normalize candidate = "" ∨ normalize query = ""
  · rw [exactScore_empty h hempty]
    norm_num
  · obtain ⟨hcandidate, hquery⟩ := not_or.mp hempty
    obtain ⟨hpos, hle⟩ := distance_bounds h hcandidate
    rw [exactScore_near h hcandidate hquery]
    split <;> constructor <;> linarith

/-- All scores are between the bounds. -/
theorem exactScore_nonneg_le (candidate query : String) :
    0 ≤ exactScore candidate query ∧ exactScore candidate query ≤ 3 / 2 := by
  by_cases h : normalize candidate = normalize query
  · rw [exactScore_same h]
    norm_num
  · obtain ⟨hpos, hlt⟩ := exactScore_of_ne h
    exact ⟨hpos, hlt.le⟩

/-- A candidate that goes on from what is being typed scores by the part of it that is there. -/
theorem exactScore_of_front (hquery : normalize query ≠ "")
    (hfront : (normalize query).toList <+: (normalize candidate).toList) :
    exactScore candidate query = 1 / 2 + (normalize query).length /
      (normalize candidate).length := by
  have hdistance := editDistance_add_length hfront
  have hpos := length_pos_of_ne hquery
  have hne : ((normalize candidate).length : ℚ) ≠ 0 := Nat.cast_ne_zero.mpr (by omega)
  by_cases h : normalize candidate = normalize query
  · rw [exactScore_same h, ← h, div_self hne]
    norm_num
  · have hcandidate : normalize candidate ≠ "" := by
      intro hempty
      rw [hempty] at hdistance
      have : ("" : String).length = 0 := rfl
      omega
    have hlongest : max (normalize candidate).length (normalize query).length =
        (normalize candidate).length :=
      Nat.max_eq_left (by omega)
    have hcast : (editDistance (normalize candidate) (normalize query) : ℚ) =
        (normalize candidate).length - (normalize query).length := by
      rw [← hdistance]
      push_cast
      ring
    rw [exactScore_near h hcandidate hquery, if_pos hfront, hlongest, hcast, sub_div, div_self hne]
    ring

/-- **Exact scores are between nothing and one and a half, and a shorter way to go on scores
higher.**

Scores follow from the likeness by arithmetic on doubles. The same arithmetic on rationals never
gives less than zero or more than one and a half. It gives one and a half for a candidate that is
the word being typed and for no other, so such a candidate is never outranked. A candidate that
starts with what is being typed scores half a point and the part of it that is being typed. Of two
such candidates the shorter one scores higher. -/
theorem exactScore_bounds (candidate query : String) :
    scoreOf candidate query = (likeness candidate query).scoreBy Float.ofNat
      ∧ 0 ≤ exactScore candidate query ∧ exactScore candidate query ≤ 3 / 2
      ∧ (exactScore candidate query = 3 / 2 ↔ normalize candidate = normalize query)
      ∧ (normalize candidate = normalize query →
        ∀ other, exactScore other query ≤ exactScore candidate query)
      ∧ (normalize query ≠ "" → (normalize query).toList <+: (normalize candidate).toList →
        exactScore candidate query = 1 / 2 + (normalize query).length /
          (normalize candidate).length)
      ∧ (normalize query ≠ "" → (normalize query).toList <+: (normalize candidate).toList →
        ∀ other, (normalize query).toList <+: (normalize other).toList →
          (normalize candidate).length < (normalize other).length →
          exactScore other query < exactScore candidate query) := by
  obtain ⟨hnonneg, hle⟩ := exactScore_nonneg_le candidate query
  refine ⟨rfl, hnonneg, hle, ⟨fun hscore => ?_, exactScore_same⟩, fun hsame other => ?_,
    exactScore_of_front, fun hquery hfront other hother hlonger => ?_⟩
  · by_contra hne
    exact absurd hscore (exactScore_of_ne hne).2.ne
  · rw [exactScore_same hsame]
    exact (exactScore_nonneg_le other query).2
  · have hpos := length_pos_of_ne hquery
    have hshort : 0 < (normalize candidate).length := by
      have := editDistance_add_length hfront
      omega
    rw [exactScore_of_front hquery hfront, exactScore_of_front hquery hother]
    have hparts :=
      div_lt_div_of_pos_left (Nat.cast_pos.mpr hpos : (0 : ℚ) < (normalize query).length)
      (Nat.cast_pos.mpr hshort) (Nat.cast_lt.mpr hlonger)
    linarith

/-- For `rep`, the word `REPEAT` scores one, the word `REPETITION` less, and `Rep_` outranks
both. -/
theorem exactScore_bounds_repeat : exactScore "REPEAT" "rep" = 1 / 2 + 3 / 6
    ∧ exactScore "REPETITION" "rep" < exactScore "REPEAT" "rep"
    ∧ exactScore "REPEAT" "rep" ≤ exactScore "Rep_" "rep" := by
  have hfront : (normalize "rep").toList <+: (normalize "REPEAT").toList := by decide
  have hother : (normalize "rep").toList <+: (normalize "REPETITION").toList := by decide
  obtain ⟨-, -, -, -, -, hvalue, hshorter⟩ := exactScore_bounds "REPEAT" "rep"
  obtain ⟨-, -, -, -, hsame, -, -⟩ := exactScore_bounds "Rep_" "rep"
  refine ⟨?_, hshorter (by decide) hfront "REPETITION" hother (by decide),
    hsame (by decide) "REPEAT"⟩
  have hlengths : (normalize "rep").length = 3 ∧ (normalize "REPEAT").length = 6 := by decide
  rw [hvalue (by decide) hfront, hlengths.1, hlengths.2]
  norm_num

end Pseudocode.Suggestion
