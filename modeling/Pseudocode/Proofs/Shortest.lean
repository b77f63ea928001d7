import Mathlib
import Pseudocode.Proofs.Phases
import Pseudocode.Proofs.Rounding

/-!
# Numbers read back

The digits of a number are found on the coarsest decimal grid that has a point between the middles
to the neighbours of the number. Whatever grid that is, what is found there is rounded to the
number (`roundsTo_of_holds`), so all that has to be shown is that the search ends. Seventeen digits
always suffice: a number has at least 16 of them above the distance between two points of this
grid, so this distance is less than that of the two middles (`onGrid_seventeen`).

Written in positional notation, the digits spell the same decimal again (`Spells`). Therefore a
finite number that is written and read is the same number (`read_render`).
-/

namespace Pseudocode.Number

open Decimal Float.Model Float.Model.UnpackedFloat

theorem zpow_eq_div (b : ℚ) (z : Int) : b ^ z = b ^ z.toNat / b ^ (-z).toNat := by
  obtain ⟨n, rfl | rfl⟩ := z.eq_nat_or_neg
  · rw [Int.toNat_natCast, Int.toNat_neg_natCast, pow_zero, div_one, zpow_natCast]
  · rw [neg_neg, Int.toNat_natCast, Int.toNat_neg_natCast, pow_zero, zpow_neg,
      zpow_natCast, one_div]

/-! ## The interval -/

namespace Decimal.Interval

/-- The lower end of the interval. -/
def low (i : Interval) : ℚ := (i.value - i.below) / i.unit

/-- The upper end of the interval. -/
def high (i : Interval) : ℚ := (i.value + i.above) / i.unit

/-- The test in integers is the test whether a decimal lies in the interval. Its ends count if the
mantissa is even. -/
theorem holds_iff {i : Interval} (hunit : 0 < i.unit) (hbelow : i.below ≤ i.value)
    (candidate : Nat) (place : Int) :
    i.holds candidate place = true ↔ if i.closed then i.low ≤ candidate * 10 ^ place ∧
      candidate * 10 ^ place ≤ i.high
      else i.low < candidate * 10 ^ place ∧ candidate * 10 ^ place < i.high := by
  have hunit' : (0 : ℚ) < i.unit := Nat.cast_pos.mpr hunit
  have hscale : (0 : ℚ) < 10 ^ (-place).toNat := by positivity
  -- both sides of each comparison, multiplied by the unit and by a power of ten
  have hoffered : (candidate * 10 ^ place : ℚ)
      = (candidate * 10 ^ place.toNat * i.unit : Nat) / (i.unit * 10 ^ (-place).toNat) := by
    rw [zpow_eq_div]
    push_cast
    field_simp
  have hlow :
      i.low = ((i.value - i.below) * 10 ^ (-place).toNat : Nat) /
        (i.unit * 10 ^ (-place).toNat) := by
    rw [low, Nat.cast_mul, Nat.cast_sub hbelow]
    push_cast
    field_simp
  have hhigh :
      i.high = ((i.value + i.above) * 10 ^ (-place).toNat : Nat) /
        (i.unit * 10 ^ (-place).toNat) := by
    rw [high]
    push_cast
    field_simp
  have hpos : (0 : ℚ) < i.unit * 10 ^ (-place).toNat := mul_pos hunit' hscale
  unfold holds
  simp only [Nat.pow_eq]
  rw [hoffered, hlow, hhigh, div_le_div_iff_of_pos_right hpos, div_le_div_iff_of_pos_right hpos,
    div_lt_div_iff_of_pos_right hpos, div_lt_div_iff_of_pos_right hpos]
  simp only [Nat.cast_le, Nat.cast_lt]
  split <;> simp

theorem holds_of_between {i : Interval} (hunit : 0 < i.unit) (hbelow : i.below ≤ i.value)
    {candidate : Nat} {place : Int} (hlow : i.low < candidate * 10 ^ place)
    (hhigh : candidate * 10 ^ place < i.high) : i.holds candidate place = true := by
  rw [holds_iff hunit hbelow]
  split
  · exact ⟨hlow.le, hhigh.le⟩
  · exact ⟨hlow, hhigh⟩

theorem unit_ofBinary_pos (m : Nat) (e : Int) : 0 < (ofBinary m e).unit :=
  Nat.mul_pos (by omega) (Nat.two_pow_pos _)

/-- The interval of a positive number does not reach below zero. -/
theorem below_ofBinary_le {m : Nat} (hm : 0 < m) (e : Int) :
    (ofBinary m e).below ≤ (ofBinary m e).value := by
  unfold ofBinary
  dsimp only
  have hscale : 4 * 1 * Nat.pow 2 e.toNat ≤ 4 * m * Nat.pow 2 e.toNat :=
    Nat.mul_le_mul_right _ (by omega)
  split <;> omega

/-- Just above a power of two the interval ends nearer to the number. -/
theorem low_ofBinary (m : Nat) (e : Int) :
    (ofBinary m e).low = (m - if m = 2 ^ 52 ∧ -1074 < e then 1 / 4 else 1 / 2) * 2 ^ e := by
  unfold low ofBinary Binary.leastExponent
  dsimp only
  rw [zpow_eq_div 2 e]
  simp only [Nat.pow_eq]
  split
  · push_cast
    field_simp
  · push_cast
    field_simp
    ring

/-- The interval ends half a unit above the number. -/
theorem high_ofBinary (m : Nat) (e : Int) : (ofBinary m e).high = (m + 1 / 2) * 2 ^ e := by
  unfold high ofBinary
  dsimp only
  rw [zpow_eq_div 2 e]
  simp only [Nat.pow_eq]
  push_cast
  field_simp
  ring

/-- A point of the interval is rounded to the number. -/
theorem roundsTo_of_holds {m candidate : Nat} {e place : Int} (hm : 0 < m)
    (h : (ofBinary m e).holds candidate place = true) : RoundsTo (candidate * 10 ^ place) m e := by
  have hscale : (0 : ℚ) < 2 ^ e := zpow_pos two_pos e
  rw [holds_iff (unit_ofBinary_pos m e) (below_ofBinary_le hm e), low_ofBinary, high_ofBinary] at h
  -- the lower end is not below the middle to the number below
  have hmiddle : ((m : ℚ) - 1 / 2) * 2 ^ e ≤
      (m - if m = 2 ^ 52 ∧ -1074 < e then 1 / 4 else 1 / 2) * 2 ^ e := by
    refine mul_le_mul_of_nonneg_right ?_ hscale.le
    split <;> linarith
  by_cases hclosed : (ofBinary m e).closed = true
  · rw [if_pos hclosed] at h
    have heven : m % 2 = 0 := of_decide_eq_true hclosed
    refine ⟨hmiddle.trans h.1, h.2, fun hodd => absurd hodd (by omega), fun hpower he => ?_⟩
    rw [if_pos ⟨hpower, he⟩] at h
    exact h.1
  · rw [if_neg hclosed] at h
    refine ⟨(hmiddle.trans_lt h.1).le, h.2.le, fun _ => ⟨hmiddle.trans_lt h.1, h.2⟩,
      fun hpower he => ?_⟩
    rw [if_pos ⟨hpower, he⟩] at h
    exact h.1.le

/-! ## The search -/

/-- What is found on a grid lies in the interval. -/
theorem holds_of_onGrid {i : Interval} {magnitude : Int} {count found : Nat}
    (h : i.onGrid magnitude count = some found) :
    i.holds found (magnitude - count) = true := by
  unfold onGrid at h
  dsimp only at h
  split at h
  · split at h
    · rw [← Option.some.inj h]; assumption
    · rw [← Option.some.inj h]; assumption
  · rw [← Option.some.inj h]; assumption
  · rw [← Option.some.inj h]; assumption
  · exact nomatch h

/-- If some grid has a point in the interval, the search ends with one. -/
theorem holds_search {i : Interval} {magnitude : Int} {last : Nat}
    (hlast : (i.onGrid magnitude last).isSome) :
    ∀ {fuel count : Nat}, count ≤ last → last < count + fuel →
      i.holds (i.search magnitude fuel count).1 (magnitude - (i.search magnitude fuel count).2) =
        true
  | 0, count, hle, hlt => by omega
  | fuel + 1, count, hle, hlt => by
      unfold search
      cases hgrid : i.onGrid magnitude count with
      | some found => exact holds_of_onGrid hgrid
      | none =>
          have hne : count ≠ last := by
            rintro rfl
            rw [hgrid] at hlast
            exact nomatch hlast
          exact holds_search hlast (by omega) (by omega)

/-- The first power of ten above the number is found, if it is not further away than the search
goes. -/
theorem magnitude_spec {i : Interval} (hunit : 0 < i.unit) : ∀ {fuel : Nat} {guess : Int},
    (10 : ℚ) ^ (guess - 1) ≤ i.value / i.unit → (i.value / i.unit : ℚ) < 10 ^ (guess + fuel) →
      (10 : ℚ) ^ (i.magnitude fuel guess - 1) ≤ i.value / i.unit ∧
      (i.value / i.unit : ℚ) < 10 ^ i.magnitude fuel guess
  | 0, guess, hlow, hhigh => by
      rw [Nat.cast_zero, add_zero] at hhigh
      exact ⟨hlow, hhigh⟩
  | fuel + 1, guess, hlow, hhigh => by
      have hcompare : Nat.pow 10 guess.toNat * i.unit ≤ i.value * Nat.pow 10 (-guess).toNat
          ↔ (10 : ℚ) ^ guess ≤ i.value / i.unit := by
        rw [zpow_eq_div, div_le_div_iff₀ (by positivity) (Nat.cast_pos.mpr hunit)]
        norm_cast
      unfold magnitude
      split
      · rename_i h
        refine magnitude_spec hunit ?_ ?_
        · rw [add_sub_cancel_right]
          exact hcompare.mp h
        · rw [Nat.cast_add, Nat.cast_one, ← add_assoc, add_right_comm] at hhigh
          exact hhigh
      · rename_i h
        exact ⟨hlow, not_le.mp (mt hcompare.mpr h)⟩

/-- The interval is that of the number. -/
theorem value_ofBinary (m : Nat) (e : Int) :
    ((ofBinary m e).value / (ofBinary m e).unit : ℚ) = m * 2 ^ e := by
  unfold ofBinary
  dsimp only
  rw [zpow_eq_div 2 e]
  simp only [Nat.pow_eq]
  push_cast
  field_simp

/-- The neighbours of a number on a grid. -/
theorem neighbours {i : Interval} (hunit : 0 < i.unit) (place : Int) :
    let lower := i.value * Nat.pow 10 (-place).toNat / (Nat.pow 10 place.toNat * i.unit)
    (lower * 10 ^ place : ℚ) ≤ i.value / i.unit ∧
      (i.value / i.unit : ℚ) < (lower + 1) * 10 ^ place := by
  intro lower
  have hstep : 0 < Nat.pow 10 place.toNat * i.unit := Nat.mul_pos (Nat.pow_pos (by omega)) hunit
  have hunit' : (0 : ℚ) < i.unit := Nat.cast_pos.mpr hunit
  have hfloor : lower * (Nat.pow 10 place.toNat * i.unit) ≤ i.value * Nat.pow 10 (-place).toNat :=
    Nat.div_mul_le_self _ _
  have hceil : i.value * Nat.pow 10 (-place).toNat <
      (lower + 1) * (Nat.pow 10 place.toNat * i.unit) := by
    rw [Nat.mul_comm (lower + 1)]
    exact Nat.lt_mul_div_succ _ hstep
  rw [zpow_eq_div 10 place]
  constructor
  · rw [← mul_div_assoc, div_le_div_iff₀ (by positivity) hunit']
    simp only [Nat.pow_eq] at hfloor
    rw [mul_assoc]
    exact_mod_cast hfloor
  · rw [← mul_div_assoc, div_lt_div_iff₀ hunit' (by positivity)]
    simp only [Nat.pow_eq] at hceil
    rw [mul_assoc]
    exact_mod_cast hceil

/-- Seventeen digits suffice. -/
theorem onGrid_seventeen {m : Nat} {e magnitude : Int} (hdouble : IsDouble m e)
    (hmagnitude : (10 : ℚ) ^ (magnitude - 1) ≤ m * 2 ^ e) :
    ((ofBinary m e).onGrid magnitude 17).isSome := by
  have hunit := unit_ofBinary_pos m e
  have hbelow := below_ofBinary_le hdouble.pos e
  have hscale : (0 : ℚ) < 2 ^ e := zpow_pos two_pos e
  -- the grid is finer than the interval is wide
  have hstep : (10 : ℚ) ^ (magnitude - 17 : Int) * 10 ^ 16 ≤ m * 2 ^ e := by
    refine le_trans (le_of_eq ?_) hmagnitude
    rw [show magnitude - 1 = magnitude - 17 + 16 by ring, zpow_add₀ (by norm_num)]
    rfl
  obtain ⟨hfloor, hceil⟩ := neighbours hunit (magnitude - 17)
  rw [value_ofBinary] at hfloor hceil
  unfold onGrid
  dsimp only
  rw [Nat.cast_ofNat]
  generalize hlower : (ofBinary m e).value * Nat.pow 10 (-(magnitude - 17)).toNat
    / (Nat.pow 10 (magnitude - 17).toNat * (ofBinary m e).unit) = lower at hfloor hceil
  have hone : (ofBinary m e).holds lower (magnitude - 17) = true ∨
      (ofBinary m e).holds (lower + 1) (magnitude - 17) = true := by
    have hhigh := high_ofBinary m e
    have hlow := low_ofBinary m e
    have hwidth : (10 : ℚ) ^ (magnitude - 17) <
        ((if m = 2 ^ 52 ∧ -1074 < e then 1 / 4 else 1 / 2) + 1 / 2) * 2 ^ e := by
      split
      · rename_i hnarrow
        rw [hnarrow.1] at hstep
        norm_num at hstep ⊢
        linarith
      · have hm : (m : ℚ) * 2 ^ e < 2 ^ 53 * 2 ^ e :=
          mul_lt_mul_of_pos_right (by exact_mod_cast hdouble.lt) hscale
        norm_num at hstep hm ⊢
        linarith
    have hdelta : (0 : ℚ) < (if m = 2 ^ 52 ∧ -1074 < e then 1 / 4 else 1 / 2) * 2 ^ e := by
      refine mul_pos ?_ hscale
      split <;> norm_num
    generalize (if m = 2 ^ 52 ∧ -1074 < e then (1 / 4 : ℚ) else 1 / 2) =
      delta at hlow hwidth hdelta
    by_cases hnear : (ofBinary m e).low < lower * 10 ^ (magnitude - 17)
    · left
      refine holds_of_between hunit hbelow hnear ?_
      rw [hhigh]
      linarith
    · right
      rw [hlow] at hnear
      refine holds_of_between hunit hbelow ?_ ?_
      · rw [hlow]
        push_cast
        linarith
      · rw [hhigh]
        push_cast
        linarith
  cases h₁ : (ofBinary m e).holds lower (magnitude - 17) with
  | true =>
      cases (ofBinary m e).holds (lower + 1) (magnitude - 17) with
      | true => dsimp only; split <;> rfl
      | false => rfl
  | false =>
      rw [h₁] at hone
      rw [hone.resolve_left (by simp)]
      rfl

end Decimal.Interval

/-! ## The guess -/

theorem guess_nonnegative : ∀ n < 1024,
    10 ^ (n * 30103 / 100000) ≤ 2 ^ n * 10 ^ 2 ∧ 2 ^ (n + 1) ≤ 10 ^ (n * 30103 / 100000 + 3) := by
  decide +kernel

theorem guess_negative : ∀ n < 1075,
    2 ^ n ≤ 10 ^ ((n * 30103 + 99999) / 100000 + 2) ∧
      2 * 10 ^ ((n * 30103 + 99999) / 100000) ≤ 10 ^ 3 * 2 ^ n := by
  decide +kernel

/-- The decimal logarithm of two is close to 0.30103, for all exponents that occur. -/
theorem guess_spec {l : Int} (hlow : -1074 ≤ l) (hhigh : l ≤ 1023) :
    (10 : ℚ) ^ (l * 30103 / 100000 - 2) ≤ 2 ^ l ∧
      (2 : ℚ) ^ (l + 1) ≤ 10 ^ (l * 30103 / 100000 + 3) := by
  have hten : (10 : ℚ) ≠ 0 := by norm_num
  obtain ⟨n, rfl | rfl⟩ := l.eq_nat_or_neg
  · obtain ⟨h₁, h₂⟩ := guess_nonnegative n (by omega)
    have hguess : (n : Int) * 30103 / 100000 = (n * 30103 / 100000 : Nat) := by push_cast; rfl
    rw [hguess]
    generalize n * 30103 / 100000 = a at h₁ h₂
    constructor
    · rw [zpow_sub₀ hten, zpow_natCast, zpow_natCast, div_le_iff₀ (by positivity)]
      exact_mod_cast h₁
    · exact_mod_cast h₂
  · obtain ⟨h₁, h₂⟩ := guess_negative n (by omega)
    have hguess : -(n : Int) * 30103 / 100000 = -((n * 30103 + 99999) / 100000 : Nat) := by omega
    rw [hguess]
    generalize (n * 30103 + 99999) / 100000 = b at h₁ h₂
    constructor
    · rw [show -(b : Int) - 2 = -((b + 2 : Nat) : Int) by push_cast; ring, zpow_neg, zpow_neg,
        zpow_natCast, zpow_natCast]
      exact inv_anti₀ (by positivity) (by exact_mod_cast h₁)
    · rw [zpow_add₀ two_ne_zero, zpow_add₀ hten, zpow_neg, zpow_neg, zpow_natCast,
        zpow_natCast, zpow_one, inv_mul_eq_div, inv_mul_eq_div,
        div_le_div_iff₀ (by positivity) (by positivity)]
      exact_mod_cast h₂

/-- The digits of a number are those of a decimal that is rounded to it. -/
theorem exists_shortest {m : Nat} {e : Int} (h : IsDouble m e) : ∃ (found : Nat) (place : Int),
    shortest m e = ⟨Nat.toDigits 10 found, place + (Nat.toDigits 10 found).length⟩ ∧
      RoundsTo (found * 10 ^ place) m e := by
  have hlog : m.log2 < 53 := (Nat.log2_lt h.pos.ne').mpr h.lt
  have hleast := h.least
  have hgreatest := h.greatest
  obtain ⟨hlow, hhigh⟩ := guess_spec (l := m.log2 + e) (by omega) (by omega)
  have hunit := Interval.unit_ofBinary_pos m e
  obtain ⟨hfirst, hsecond⟩ := between_powers Nat.one_pos (by rw [Nat.div_one]; exact h.pos.ne') e
  rw [Nat.div_one, Nat.cast_one, div_one] at hfirst hsecond
  have hvalue := Interval.value_ofBinary m e
  have hstart : (10 : ℚ) ^ ((m.log2 + e) * 30103 / 100000 - 1 - 1 : Int)
      ≤ (Interval.ofBinary m e).value / (Interval.ofBinary m e).unit := by
    rw [hvalue, sub_sub]
    exact hlow.trans hfirst
  have hstop : ((Interval.ofBinary m e).value / (Interval.ofBinary m e).unit : ℚ)
      < 10 ^ ((m.log2 + e) * 30103 / 100000 - 1 + (4 : Nat) : Int) := by
    rw [hvalue]
    refine hsecond.trans_le ?_
    rw [add_right_comm, show (m.log2 + e : Int) * 30103 / 100000 - 1 + (4 : Nat) =
      (m.log2 + e) * 30103 / 100000 + 3 by
      push_cast; ring]
    exact hhigh
  obtain ⟨hmagnitude, -⟩ := Interval.magnitude_spec hunit hstart hstop
  rw [hvalue] at hmagnitude
  have hholds :=
    Interval.holds_search (Interval.onGrid_seventeen h hmagnitude) (by omega : 1 ≤ 17)
      (by omega : 17 < 1 + 17)
  exact ⟨_, _, rfl, Interval.roundsTo_of_holds h.pos hholds⟩

/-! ## Digits -/

theorem foldl_digits (start : Nat) (digits : List Char) :
    digits.foldl (fun total c => 10 * total + (c.toNat - '0'.toNat)) start =
      start * 10 ^ digits.length + ofDigits digits := by
  induction digits generalizing start with
  | nil => simp [ofDigits]
  | cons c rest ih =>
      unfold ofDigits
      rw [List.foldl_cons, List.foldl_cons, ih, ih (10 * 0 + _), List.length_cons, pow_succ]
      ring

/-- Digits one behind the other, by their value. -/
theorem ofDigits_append (front back : List Char) :
    ofDigits (front ++ back) = ofDigits front * 10 ^ back.length + ofDigits back := by
  unfold ofDigits
  rw [List.foldl_append]
  exact foldl_digits _ back

theorem ofDigits_zeros (n : Nat) : ofDigits (List.replicate n '0') = 0 := by
  induction n with
  | zero => rfl
  | succ n ih =>
      rw [List.replicate_succ', ofDigits_append, ih, Nat.zero_mul]
      rfl

theorem ofDigits_toDigits (n : Nat) : ofDigits (Nat.toDigits 10 n) = n :=
  Nat.ofDigitChars_ten_toDigits

/-- The text is a number, as the lexer takes it, and spells `d * 10 ^ place`. -/
inductive Spells : List Char → Nat → Int → Prop where
  | whole {digits : List Char} : digits ≠ [] → (∀ c ∈ digits, c.isDigit = true) →
      Spells digits (ofDigits digits) 0
  | point {digits fraction : List Char} : digits ≠ [] → (∀ c ∈ digits, c.isDigit = true) →
      (∀ c ∈ fraction, c.isDigit = true) →
      Spells (digits ++ '.' :: fraction) (ofDigits (digits ++ fraction)) (-(fraction.length : Int))

/-- What spells a decimal is a number for the lexer. -/
theorem Spells.numberText {text : List Char} {d : Nat} {place : Int} (h : Spells text d place) :
    Lexer.NumberText text := by
  cases h with
  | whole hne hall => exact .whole hne hall
  | point hne hall hfraction => exact .point hne hall hfraction

/-- What spells a decimal is read as it. -/
theorem Spells.read {text : String} {d : Nat} {place : Int} (h : Spells text.toList d place) :
    read? text = some (ofDecimal d place) := by
  obtain ⟨c, rest, hhead, hdigit⟩ := h.numberText.head
  rw [read_of_digit hhead hdigit]
  generalize text.toList = cs at h
  cases h with
  | whole hne hall => exact readDecimal_whole hne hall
  | point hne hall hfraction => exact readDecimal_point hne hall hfraction

/-- The digits without the zeros at their end. -/
def trimmed (digits : List Char) : List Char := (digits.reverse.dropWhile (· == '0')).reverse

theorem trimmed_append (digits : List Char) :
    ∃ k, digits = trimmed digits ++ List.replicate k '0' := by
  refine ⟨(digits.reverse.takeWhile (· == '0')).length, ?_⟩
  have hzeros : digits.reverse.takeWhile (· == '0') =
      List.replicate (digits.reverse.takeWhile (· == '0')).length '0' := by
    refine List.eq_replicate_iff.mpr ⟨rfl, fun c hc => ?_⟩
    simpa using List.mem_takeWhile_imp hc
  rw [trimmed, ← List.reverse_replicate, ← hzeros, ← List.reverse_append,
    List.takeWhile_append_dropWhile, List.reverse_reverse]

/-- Zeros at the end do not change the value. -/
theorem value_trimmed (digits : List Char) (point : Int) :
    (ofDigits digits * 10 ^ (point - digits.length) : ℚ)
      = ofDigits (trimmed digits) * 10 ^ (point - (trimmed digits).length) := by
  obtain ⟨k, hk⟩ := trimmed_append digits
  have hlength : (digits.length : Int) = (trimmed digits).length + k := by
    have hcount := congrArg List.length hk
    rw [List.length_append, List.length_replicate] at hcount
    omega
  have hvalue : ofDigits digits = ofDigits (trimmed digits) * 10 ^ k := by
    conv_lhs => rw [hk]
    rw [ofDigits_append, ofDigits_zeros, List.length_replicate, Nat.add_zero]
  rw [hvalue, hlength, Nat.cast_mul, Nat.cast_pow, Nat.cast_ofNat, mul_assoc, ← zpow_natCast,
    ← zpow_add₀ (by norm_num : (10 : ℚ) ≠ 0)]
  congr 2
  omega

theorem positional_eq (d : Decimal) : d.positional.toList =
    if d.point ≤ 0 then '0' :: '.' :: (List.replicate (-d.point).toNat '0' ++ trimmed d.digits)
    else if (trimmed d.digits).length ≤ d.point.toNat then
      trimmed d.digits ++ List.replicate (d.point.toNat - (trimmed d.digits).length) '0'
    else (trimmed d.digits).take d.point.toNat
      ++ '.' :: (trimmed d.digits).drop d.point.toNat := by
  unfold positional
  dsimp only
  split
  · simp [trimmed]
  · split
    · rename_i hlength
      rw [if_pos (show (trimmed d.digits).length ≤ _ from hlength), String.toList_ofList, trimmed]
    · rename_i hlength
      rw [if_neg (show ¬(trimmed d.digits).length ≤ _ from hlength)]
      simp [trimmed]

/-- Positional notation spells the decimal. -/
theorem spells_positional {d : Decimal} (hdigits : ∀ c ∈ d.digits, c.isDigit = true) :
    ∃ (n : Nat) (place : Int),
    Spells d.positional.toList n place ∧
      (n * 10 ^ place : ℚ) = ofDigits d.digits * 10 ^ (d.point - d.digits.length) := by
  have hzero : ∀ n, ∀ c ∈ List.replicate n '0', c.isDigit = true := by
    intro n c hc
    rw [List.eq_of_mem_replicate hc]
    decide
  have htrimmed : ∀ c ∈ trimmed d.digits, c.isDigit = true := by
    obtain ⟨k, hk⟩ := trimmed_append d.digits
    exact fun c hc => hdigits c (hk ▸ List.mem_append_left _ hc)
  rw [value_trimmed, positional_eq]
  generalize trimmed d.digits = digits at htrimmed
  split
  · rename_i hpoint
    -- a zero before the point, and after it more zeros
    have hspells : Spells (['0'] ++ '.' :: (List.replicate (-d.point).toNat '0' ++ digits)) _ _ :=
      .point (List.cons_ne_nil _ _) (hzero 1)
        fun c hc => (List.mem_append.mp hc).elim (hzero _ c) (htrimmed c)
    refine ⟨_, _, hspells, ?_⟩
    rw [← List.append_assoc, ← List.replicate_one, ← List.replicate_add, ofDigits_append,
      ofDigits_zeros, Nat.zero_mul, Nat.zero_add, List.length_append, List.length_replicate]
    congr 2
    omega
  split
  · rename_i hpoint hlength
    -- no point, and zeros up to it
    have hspells : Spells (digits ++ List.replicate (d.point.toNat - digits.length) '0')
        (ofDigits (digits ++ List.replicate (d.point.toNat - digits.length) '0')) 0 := by
      refine .whole (fun hempty => ?_) fun c hc =>
        (List.mem_append.mp hc).elim (htrimmed c) (hzero _ c)
      have hcount := congrArg List.length hempty
      rw [List.length_append, List.length_replicate, List.length_nil] at hcount
      omega
    refine ⟨_, _, hspells, ?_⟩
    rw [ofDigits_append, ofDigits_zeros, Nat.add_zero, List.length_replicate, zpow_zero,
      mul_one, Nat.cast_mul, Nat.cast_pow, Nat.cast_ofNat, ← zpow_natCast]
    congr 2
    omega
  · rename_i hpoint hlength
    have hspells : Spells (digits.take d.point.toNat ++ '.' :: digits.drop d.point.toNat)
        (ofDigits (digits.take d.point.toNat ++ digits.drop d.point.toNat))
        (-((digits.drop d.point.toNat).length : Int)) := by
      refine .point (fun hempty => ?_) (fun c hc => htrimmed c (List.mem_of_mem_take hc))
        fun c hc => htrimmed c (List.mem_of_mem_drop hc)
      have hcount := congrArg List.length hempty
      rw [List.length_take, List.length_nil] at hcount
      omega
    refine ⟨_, _, hspells, ?_⟩
    rw [List.take_append_drop, List.length_drop]
    congr 2
    omega

/-! ## Reading what was written -/

/-- The text of a number is that of its absolute value, behind a minus for a negative one. -/
theorem render_eq {x : Float} {negative : Bool} {mantissa : Nat} {exponent : Int}
    (h : Binary.ofFloat x = .finite negative mantissa exponent)
    (habs : Binary.ofFloat x.abs = .finite false mantissa exponent) :
    render x = if negative then "-" ++ render x.abs else render x.abs := by
  unfold render
  rw [h, habs]
  rfl

/-- The text of a number that is not negative is a number for the lexer, and reads back. -/
theorem read_render {x : Float} {mantissa : Nat} {exponent : Int}
    (h : Binary.ofFloat x = .finite false mantissa exponent) :
    Lexer.NumberText (render x).toList ∧ read? (render x) = some x := by
  have hrender : render x = if mantissa = 0 then "0"
      else (Decimal.shortest mantissa exponent).positional := by
    unfold render
    rw [h]
    rfl
  rw [hrender]
  obtain ⟨rfl, hunpack⟩ | ⟨hdouble, hunpack⟩ := unpack_of_ofFloat h
  · have hspells : Spells "0".toList 0 0 :=
      .whole (List.cons_ne_nil _ _) (List.forall_mem_singleton.mpr rfl)
    have hzero : x = 0.0 := eq_of_unpack (by rw [hunpack]; rfl)
    exact ⟨hspells.numberText, hspells.read.trans (congrArg some hzero.symm)⟩
  · rw [if_neg hdouble.pos.ne']
    obtain ⟨found, place, hshortest, hrounds⟩ := exists_shortest hdouble
    obtain ⟨n, place', hspells, hvalue⟩ :=
      spells_positional (d := Decimal.shortest mantissa exponent) (by
      rw [hshortest]
      exact fun c hc => Nat.isDigit_of_mem_toDigits (by decide) (by decide) hc)
    refine ⟨hspells.numberText, ?_⟩
    rw [hspells.read, ofDecimal_eq hdouble hunpack]
    rw [hvalue, hshortest, ofDigits_toDigits]
    simpa using hrounds

end Pseudocode.Number
