import Mathlib
import Pseudocode.Number.Decimal
import Pseudocode.Proofs.Doubles

/-!
# Rounding to doubles

The result of an operation on doubles, and of reading a decimal, is the exact result, rounded: its
mantissa is shifted until it has the right size, the bits that are shifted out are summed up in two
of them, and these decide where to round. Of a fraction `num / den` they say enough to round it to
the nearest integer, a half to the even one (`Describes.roundedMantissa_eq`).

The numbers that are rounded to a double `m * 2 ^ e` are those between it and the middles between
it and its neighbours (`RoundsTo`). That rounding finds the double (`roundWithAccuracy_eq`) is
clear unless the exact result lies just below a power of two. There the exponent is too low by one
at first, and is put right when rounding yields a mantissa of 54 bits.
-/

namespace Pseudocode.Number

open Float.Model Float.Model.UnpackedFloat

/-! ## To the nearest integer -/

/-- A mantissa with two bits behind it says where a fraction lies: its integral part, whether the
rest is at least a half, and whether it is neither nothing nor a half. -/
structure Describes (em : ExtendedMantissa) (num den : Nat) : Prop where
  mantissa : em.mantissa = num / den
  roundBit : em.roundBit = true ↔ den ≤ 2 * (num % den)
  stickyBit : em.stickyBit = true ↔ num % den ≠ 0 ∧ 2 * (num % den) ≠ den

/-- The integral part of a fraction, with what is known of the rest, says where the fraction
lies. -/
theorem describes_ofMantissaAndAccuracy {num den : Nat} (hden : 0 < den) :
    Describes (.ofMantissaAndAccuracy (num / den) (accuracyOfFraction (num % den) den)) num
      den := by
  have hlt := Nat.mod_lt num hden
  unfold accuracyOfFraction
  by_cases hzero : num % den = 0
  · rw [if_pos hzero]
    exact ⟨rfl, ⟨nofun, fun h => by omega⟩, ⟨nofun, fun h => by omega⟩⟩
  · rw [if_neg hzero]
    cases hcompare : compare (2 * (num % den)) den with
    | lt =>
        have h := Nat.compare_eq_lt.mp hcompare
        exact ⟨rfl, ⟨nofun, fun h => by omega⟩, ⟨fun _ => by omega, fun _ => rfl⟩⟩
    | eq =>
        have h := Nat.compare_eq_eq.mp hcompare
        exact ⟨rfl, ⟨fun _ => by omega, fun _ => rfl⟩, ⟨nofun, fun h => by omega⟩⟩
    | gt =>
        have h := Nat.compare_eq_gt.mp hcompare
        exact ⟨rfl, ⟨fun _ => by omega, fun _ => rfl⟩, ⟨fun _ => by omega, fun _ => rfl⟩⟩

/-- A shift by one place halves the fraction. -/
theorem Describes.shiftRightOne {em : ExtendedMantissa} {num den : Nat} (hden : 0 < den)
    (h : Describes em num den) :
    Describes em.shiftRightOne num (den * 2) := by
  have hmod : num % (den * 2) = num % den + den * (num / den % 2) := Nat.mod_mul
  have hlt := Nat.mod_lt num hden
  have hparity := Nat.mod_two_eq_zero_or_one (num / den)
  refine ⟨?_, ?_, ?_⟩
  · rw [ExtendedMantissa.shiftRightOne, h.mantissa, Nat.div_div_eq_div_mul]
  · rw [ExtendedMantissa.shiftRightOne, h.mantissa, hmod, bne_iff_ne]
    rcases hparity with hparity | hparity <;> rw [hparity] <;> omega
  · rw [ExtendedMantissa.shiftRightOne, Bool.or_eq_true, h.roundBit, h.stickyBit, hmod]
    rcases hparity with hparity | hparity <;> rw [hparity] <;> omega

theorem Describes.shiftRight {em : ExtendedMantissa} {num den : Nat} (hden : 0 < den)
    (h : Describes em num den) (k : Nat) :
    Describes (em >>> k) num (den * 2 ^ k) := by
  induction k with
  | zero => rwa [Nat.pow_zero, Nat.mul_one]
  | succ k ih =>
      rw [Nat.pow_succ, ← Nat.mul_assoc]
      exact Describes.shiftRightOne (Nat.mul_pos hden (Nat.two_pow_pos k)) ih

/-- The two bits are enough to round to the nearest integer. -/
theorem Describes.roundedMantissa_eq {em : ExtendedMantissa} {num den : Nat}
    (h : Describes em num den) :
    em.roundedMantissa = roundHalfEven num den := by
  obtain ⟨mantissa, roundBit, stickyBit⟩ := em
  obtain ⟨hmantissa, hround, hsticky⟩ := h
  dsimp only at hmantissa hround hsticky
  subst hmantissa
  unfold ExtendedMantissa.roundedMantissa roundHalfEven
  dsimp only
  cases roundBit with
  | false =>
      have hlow : 2 * (num % den) < den := by simpa using hround
      rw [if_pos hlow]
      cases stickyBit <;> rfl
  | true =>
      have hhigh : den ≤ 2 * (num % den) := hround.mp rfl
      rw [if_neg (by omega)]
      cases stickyBit with
      | false =>
          have hhalf : num % den = 0 ∨ 2 * (num % den) = den := by
            by_contra hne
            exact absurd (hsticky.mpr (not_or.mp hne)) (by simp)
          rw [if_neg (by omega)]
          rfl
      | true =>
          have hrest := hsticky.mp rfl
          rw [if_pos (by omega)]
          rfl

/-- An integer that is no further away than a half is the nearest, and of two the even one. -/
theorem roundHalfEven_eq {num den m : Nat} (hden : 0 < den) (hlow : (m : ℚ) - 1 / 2 ≤ num / den)
    (hhigh : (num : ℚ) / den ≤ m + 1 / 2)
    (hodd : m % 2 = 1 → (m : ℚ) - 1 / 2 < num / den ∧ (num : ℚ) / den < m + 1 / 2) :
    roundHalfEven num den = m := by
  have hpos : (0 : ℚ) < den := Nat.cast_pos.mpr hden
  rw [le_div_iff₀ hpos] at hlow
  rw [div_le_iff₀ hpos] at hhigh
  rw [lt_div_iff₀ hpos, div_lt_iff₀ hpos] at hodd
  replace hlow : 2 * (den * m) ≤ 2 * num + den := by
    exact_mod_cast (by linarith : (2 * (den * m) : ℚ) ≤ 2 * num + den)
  replace hhigh : 2 * num ≤ 2 * (den * m) + den := by
    exact_mod_cast (by linarith : (2 * num : ℚ) ≤ 2 * (den * m) + den)
  replace hodd : m % 2 = 1 → 2 * (den * m) < 2 * num + den ∧ 2 * num < 2 * (den * m) + den := by
    intro h
    obtain ⟨h₁, h₂⟩ := hodd h
    exact ⟨by exact_mod_cast (by linarith : (2 * (den * m) : ℚ) < 2 * num + den),
      by exact_mod_cast (by linarith : (2 * num : ℚ) < 2 * (den * m) + den)⟩
  have hdivision := Nat.div_add_mod num den
  have hlt := Nat.mod_lt num hden
  unfold roundHalfEven
  dsimp only
  generalize num / den = q at *
  generalize num % den = r at *
  -- the integral part is `m` or the integer before it
  have hcases : m = q ∨ m = q + 1 := by
    have hupper : m ≤ q + 1 := by
      by_contra h
      have : den * (q + 2) ≤ den * m := Nat.mul_le_mul_left den (by omega)
      rw [Nat.mul_add] at this
      omega
    have hlower : q ≤ m := by
      by_contra h
      have : den * (m + 1) ≤ den * q := Nat.mul_le_mul_left den (by omega)
      rw [Nat.mul_add] at this
      omega
    omega
  rcases hcases with rfl | rfl
  · split
    · rfl
    · have heven : m % 2 = 0 := by omega
      rw [if_neg (by omega), heven, Nat.add_zero]
  · rw [Nat.mul_add] at hlow hhigh hodd
    rw [if_neg (by omega)]
    split
    · rfl
    · have heven : q % 2 = 1 := by omega
      rw [heven]

/-! ## To the nearest double -/

/-- The number is rounded to the double `m * 2 ^ e`: it lies between the middles to the neighbours
of the double, or on one if the mantissa is even. Next to a power of two the double below is only
half as far away. -/
structure RoundsTo (q : ℚ) (m : Nat) (e : Int) : Prop where
  low : ((m : ℚ) - 1 / 2) * 2 ^ e ≤ q
  high : q ≤ ((m : ℚ) + 1 / 2) * 2 ^ e
  odd : m % 2 = 1 → ((m : ℚ) - 1 / 2) * 2 ^ e < q ∧ q < ((m : ℚ) + 1 / 2) * 2 ^ e
  power : m = 2 ^ 52 → -1074 < e → ((m : ℚ) - 1 / 4) * 2 ^ e ≤ q

theorem targetExponent_eq (m : Nat) (e : Int) :
    Format.binary64.targetExponent (totalExponent m e) = max (m.log2 + 1 + e - 53) (-1074) := rfl

/-- A mantissa that is small enough for its exponent is not shifted. -/
theorem shiftToTargetExponent_of_le {m : Nat} {e : Int}
    (h : Format.binary64.targetExponent (totalExponent m e) ≤ e) :
    shiftToTargetExponent Format.binary64 m e .exact = (⟨m, false, false⟩, e) := by
  have hzero : (Format.binary64.targetExponent (totalExponent m e) - e).toNat = 0 := by omega
  unfold shiftToTargetExponent shiftToExponent
  dsimp only
  rw [hzero, Nat.cast_zero, add_zero]
  rfl

/-- A double is not shifted when it is rounded. -/
theorem IsDouble.targetExponent_le {m : Nat} {e : Int} (h : IsDouble m e) :
    Format.binary64.targetExponent (totalExponent m e) ≤ e := by
  have hlog : m.log2 < 53 := (Nat.log2_lt h.pos.ne').mpr h.lt
  have hleast := h.least
  rw [targetExponent_eq]
  omega

theorem shiftToTargetExponent_carry {e : Int} (h : -1074 < e) :
    shiftToTargetExponent Format.binary64 (2 ^ 53) (e - 1) .exact =
      (⟨2 ^ 52, false, false⟩, e) := by
  have htarget : Format.binary64.targetExponent (totalExponent (2 ^ 53) (e - 1)) = e := by
    rw [targetExponent_eq, Nat.log2_two_pow]
    omega
  have hone : (e - (e - 1)).toNat = 1 := by omega
  unfold shiftToTargetExponent shiftToExponent
  dsimp only
  rw [htarget, hone, Nat.cast_one, sub_add_cancel]
  rfl

/-- A fraction with an integral part lies between powers of two that the integral part tells. -/
theorem between_powers {num den : Nat} (hden : 0 < den) (hpos : num / den ≠ 0) (e : Int) :
    (2 : ℚ) ^ ((num / den).log2 + e : Int) ≤ num / den * 2 ^ e
      ∧ (num / den * 2 ^ e : ℚ) < 2 ^ ((num / den).log2 + 1 + e : Int) := by
  have hscale : (0 : ℚ) < 2 ^ e := zpow_pos two_pos e
  have hfloor : (2 : ℚ) ^ (num / den).log2 ≤ num / den := by
    refine le_trans ?_ Nat.cast_div_le
    exact_mod_cast Nat.log2_self_le hpos
  have hceil : (num / den : ℚ) < 2 ^ ((num / den).log2 + 1) := by
    rw [div_lt_iff₀ (Nat.cast_pos.mpr hden)]
    have hnext : num < den * 2 ^ ((num / den).log2 + 1) :=
      (Nat.lt_mul_div_succ num hden).trans_le (Nat.mul_le_mul_left den Nat.lt_log2_self)
    exact_mod_cast (Nat.mul_comm den _ ▸ hnext)
  rw [zpow_add₀ two_ne_zero, zpow_add₀ two_ne_zero]
  constructor
  · exact mul_le_mul_of_nonneg_right (by exact_mod_cast hfloor) hscale.le
  · exact mul_lt_mul_of_pos_right (by exact_mod_cast hceil) hscale

/-- The first shift leads to the exponent of the double, or to the one below if what is rounded
lies below a power of two. -/
theorem targetExponent_of_roundsTo {num den m : Nat} {exponent e : Int} (hden : 0 < den)
    (hroom : 2 ^ 52 ≤ num / den ∨ exponent ≤ -1074) (hdouble : IsDouble m e)
    (h : RoundsTo (num / den * 2 ^ exponent) m e) :
    Format.binary64.targetExponent (totalExponent (num / den) exponent) = e
      ∨ Format.binary64.targetExponent (totalExponent (num / den) exponent) = e - 1
      ∧ m = 2 ^ 52 ∧ -1074 < e
        ∧ (num / den * 2 ^ exponent : ℚ) < 2 ^ (52 + e) := by
  obtain ⟨hpos, hlt, hnormal, hleast, -⟩ := hdouble
  have hscale : (0 : ℚ) < 2 ^ e := zpow_pos two_pos e
  have hupper : (num / den * 2 ^ exponent : ℚ) < 2 ^ (53 + e) := by
    rw [zpow_add₀ two_ne_zero]
    refine h.high.trans_lt (mul_lt_mul_of_pos_right ?_ hscale)
    have hm : (m : ℚ) + 1 ≤ 2 ^ 53 := by exact_mod_cast hlt
    norm_num
    linarith
  rw [targetExponent_eq]
  by_cases hzero : num / den = 0
  · -- what is rounded is less than the least double
    have hexponent : exponent ≤ -1074 := by omega
    have he : e = -1074 := by
      by_contra hne
      have hm : (2 : ℚ) ^ 52 ≤ m := by exact_mod_cast hnormal.resolve_left hne
      have hone : (num / den : ℚ) < 1 := by
        rw [div_lt_one (Nat.cast_pos.mpr hden)]
        exact_mod_cast (Nat.div_eq_zero_iff_lt hden).mp hzero
      have hle : (2 : ℚ) ^ exponent ≤ 2 ^ e := zpow_le_zpow_right₀ one_le_two (by omega)
      have hexact : (num / den * 2 ^ exponent : ℚ) ≤ 1 * 2 ^ exponent :=
        mul_le_mul_of_nonneg_right hone.le (zpow_pos two_pos exponent).le
      have hlow := h.low
      nlinarith
    rw [hzero, Nat.log2_zero]
    omega
  · obtain ⟨hlow, hhigh⟩ := between_powers hden hzero exponent
    have hlog := (zpow_lt_zpow_iff_right₀ one_lt_two).mp (hlow.trans_lt hupper)
    by_cases he : e = -1074
    · omega
    · have hm : 2 ^ 52 ≤ m := hnormal.resolve_left he
      by_cases hbelow : (num / den * 2 ^ exponent : ℚ) < 2 ^ (52 + e)
      · have hpower : m = 2 ^ 52 := by
          by_contra hne
          have hnext : (2 : ℚ) ^ 52 + 1 ≤ m := by exact_mod_cast (by omega : 2 ^ 52 + 1 ≤ m)
          have hleast := h.low.trans_lt hbelow
          rw [zpow_add₀ two_ne_zero, mul_lt_mul_iff_left₀ hscale] at hleast
          norm_num at hleast
          linarith
        have hhalf : (2 : ℚ) ^ (51 + e) < 2 ^ ((num / den).log2 + 1 + exponent : Int) := by
          refine lt_of_lt_of_le ?_ ((h.power hpower (by omega)).trans hhigh.le)
          rw [zpow_add₀ two_ne_zero, mul_lt_mul_iff_left₀ hscale, hpower]
          norm_num
        have hmore := (zpow_lt_zpow_iff_right₀ one_lt_two).mp hhalf
        have hless := (zpow_lt_zpow_iff_right₀ one_lt_two).mp (hlow.trans_lt hbelow)
        exact .inr ⟨by omega, hpower, by omega, hbelow⟩
      · have hmore := (zpow_lt_zpow_iff_right₀ one_lt_two).mp ((not_lt.mp hbelow).trans_lt hhigh)
        omega

/-- The first shift, where the mantissa has bits enough: 53 of them, or all above the least
exponent. -/
theorem exists_shift {num den : Nat} {exponent : Int} (hden : 0 < den)
    (hroom : 2 ^ 52 ≤ num / den ∨ exponent ≤ -1074) :
    ∃ (em : ExtendedMantissa) (k : Nat),
      shiftToTargetExponent Format.binary64 (num / den) exponent
        (accuracyOfFraction (num % den) den) = (em, exponent + k)
        ∧ Format.binary64.targetExponent (totalExponent (num / den) exponent) = exponent + k
        ∧ em.roundedMantissa = roundHalfEven num (den * 2 ^ k) := by
  have hle : exponent ≤ Format.binary64.targetExponent (totalExponent (num / den) exponent) := by
    rw [targetExponent_eq]
    rcases hroom with hroom | hroom
    · have := (Nat.le_log2 (by omega)).mpr hroom
      omega
    · omega
  refine ⟨_,
    (Format.binary64.targetExponent (totalExponent (num / den) exponent) - exponent).toNat,
    rfl, by omega, ?_⟩
  exact ((describes_ofMantissaAndAccuracy hden).shiftRight hden _).roundedMantissa_eq

/-- **Rounding finds the double.** -/
theorem roundWithAccuracy_eq {num den m : Nat} {exponent e : Int} (hden : 0 < den)
    (hroom : 2 ^ 52 ≤ num / den ∨ exponent ≤ -1074) (hdouble : IsDouble m e)
    (h : RoundsTo (num / den * 2 ^ exponent) m e) (s : Sign) :
    roundWithAccuracy Format.binary64 s (num / den) exponent (accuracyOfFraction (num % den) den)
      = .finite s m e hdouble.pos := by
  obtain ⟨em, k, hshift, htarget, hrounded⟩ := exists_shift hden hroom
  have hscaled : (num / (den * 2 ^ k : Nat) : ℚ) =
      num / den * 2 ^ exponent / 2 ^ (exponent + k) := by
    have hne : (2 : ℚ) ^ exponent ≠ 0 := (zpow_pos two_pos exponent).ne'
    rw [zpow_add₀ two_ne_zero, zpow_natCast]
    push_cast
    field_simp
  have hscale : (0 : ℚ) < 2 ^ (exponent + k) := zpow_pos two_pos _
  have hden' : 0 < den * 2 ^ k := Nat.mul_pos hden (Nat.two_pow_pos k)
  unfold roundWithAccuracy
  rw [hshift]
  dsimp only
  rw [hrounded]
  rcases targetExponent_of_roundsTo hden hroom hdouble h with he | ⟨he, rfl, hgreater, hbelow⟩
  · rw [htarget] at he
    have hnearest : roundHalfEven num (den * 2 ^ k) = m := by
      refine roundHalfEven_eq hden' ?_ ?_ fun hodd => ?_
      · rw [hscaled, le_div_iff₀ hscale, he]
        exact h.low
      · rw [hscaled, div_le_iff₀ hscale, he]
        exact h.high
      · rw [hscaled, lt_div_iff₀ hscale, div_lt_iff₀ hscale, he]
        exact h.odd hodd
    rw [hnearest, he, shiftToTargetExponent_of_le hdouble.targetExponent_le]
    exact dif_neg hdouble.pos.ne'
  · -- just below a power of two, twice the mantissa is found first
    rw [htarget] at he
    have hdouble_scale : (2 : ℚ) ^ e = 2 * 2 ^ (exponent + k) := by
      rw [he, zpow_sub_one₀ two_ne_zero]
      ring
    have hnearest : roundHalfEven num (den * 2 ^ k) = 2 ^ 53 := by
      have hpower := h.power rfl hgreater
      rw [zpow_add₀ two_ne_zero] at hbelow
      rw [hdouble_scale] at hbelow hpower
      refine roundHalfEven_eq hden' ?_ ?_ fun hodd => absurd hodd (by decide)
      · rw [hscaled, le_div_iff₀ hscale]
        norm_num at hpower ⊢
        linarith
      · rw [hscaled, div_le_iff₀ hscale]
        norm_num at hbelow ⊢
        linarith
    rw [hnearest, he, shiftToTargetExponent_carry hgreater]
    rfl

theorem roundWithAccuracy_exact {num m : Nat} {exponent e : Int}
    (hroom : 2 ^ 52 ≤ num ∨ exponent ≤ -1074) (hdouble : IsDouble m e)
    (h : RoundsTo (num * 2 ^ exponent) m e) (s : Sign) :
    roundWithAccuracy Format.binary64 s num exponent .exact = .finite s m e hdouble.pos := by
  have hwhole : RoundsTo (num / (1 : Nat) * 2 ^ exponent) m e := by rwa [Nat.cast_one, div_one]
  have hround := roundWithAccuracy_eq Nat.one_pos (by rwa [Nat.div_one]) hdouble hwhole s
  rwa [Nat.div_one, Nat.mod_one] at hround

/-! ## Operations -/

/-- A product is rounded to the double nearest to it. -/
theorem mul_eq {m₁ m₂ m : Nat} {e₁ e₂ e : Int} (h₁ : 0 < m₁) (h₂ : 0 < m₂) (hroom : 2 ^ 52 ≤ m₁)
    (hdouble : IsDouble m e) (h : RoundsTo (m₁ * 2 ^ e₁ * (m₂ * 2 ^ e₂)) m e) :
    UnpackedFloat.mul Format.binary64 (.finite .positive m₁ e₁ h₁) (.finite .positive m₂ e₂ h₂)
      = .finite .positive m e hdouble.pos := by
  refine roundWithAccuracy_exact (.inl ?_) hdouble ?_ .positive
  · exact hroom.trans (Nat.le_mul_of_pos_right m₁ h₂)
  · rw [zpow_add₀ two_ne_zero, Nat.cast_mul, mul_mul_mul_comm]
    exact h

/-- A quotient is rounded to the double nearest to it. -/
theorem div_eq {m₁ m₂ m : Nat} {e₁ e₂ e : Int} (h₁ : 0 < m₁) (h₂ : 0 < m₂) (hdouble : IsDouble m e)
    (h : RoundsTo (m₁ * 2 ^ e₁ / (m₂ * 2 ^ e₂)) m e) :
    UnpackedFloat.div Format.binary64 (.finite .positive m₁ e₁ h₁) (.finite .positive m₂ e₂ h₂)
      = .finite .positive m e hdouble.pos := by
  have hlog₁ := Nat.log2_self_le h₁.ne'
  have hlog₂ : m₂ < 2 ^ (m₂.log2 + 1) := Nat.lt_log2_self
  unfold UnpackedFloat.div divCore
  dsimp only
  have htarget : Format.binary64.targetExponent (totalExponent m₁ e₁ - totalExponent m₂ e₂)
      = max (m₁.log2 + e₁ - (m₂.log2 + e₂) - 53) (-1074) := by
    show max (((m₁.log2 : Int) + 1 + e₁ - (m₂.log2 + 1 + e₂)) - 53) (-1074) = _
    congr 1
    ring
  rw [htarget]
  generalize hexponent :
    min (e₁ - e₂) (max ((m₁.log2 : Int) + e₁ - (m₂.log2 + e₂) - 53) (-1074)) = exponent
  obtain ⟨shift, hshift⟩ : ∃ shift : Nat, e₁ - e₂ = exponent + shift :=
    ⟨(e₁ - e₂ - exponent).toNat, by omega⟩
  have hamount : (e₁ - e₂ - exponent).toNat = shift := by omega
  rw [hamount, Nat.shiftLeft_eq]
  refine roundWithAccuracy_eq h₂ ?_ hdouble ?_ .positive
  · -- either all bits above the least exponent are there, or 53 of them
    by_cases hleast : exponent ≤ -1074
    · exact .inr hleast
    · left
      rw [Nat.le_div_iff_mul_le h₂]
      calc 2 ^ 52 * m₂ ≤ 2 ^ 52 * 2 ^ (m₂.log2 + 1) := Nat.mul_le_mul_left _ hlog₂.le
        _ = 2 ^ (m₂.log2 + 53) := by rw [← pow_add]; congr 1; omega
        _ ≤ 2 ^ (m₁.log2 + shift) := Nat.pow_le_pow_right two_pos (by omega)
        _ = 2 ^ m₁.log2 * 2 ^ shift := pow_add ..
        _ ≤ m₁ * 2 ^ shift := Nat.mul_le_mul_right _ hlog₁
  · have hvalue : ((m₁ * 2 ^ shift : Nat) / m₂ * 2 ^ exponent : ℚ) =
        m₁ * 2 ^ e₁ / (m₂ * 2 ^ e₂) := by
      have he₁ : e₁ = e₂ + exponent + shift := by omega
      have hne₂ : (m₂ : ℚ) ≠ 0 := Nat.cast_ne_zero.mpr h₂.ne'
      rw [he₁, zpow_add₀ two_ne_zero, zpow_add₀ two_ne_zero, zpow_natCast]
      have hne : (2 : ℚ) ^ e₂ ≠ 0 := (zpow_pos two_pos e₂).ne'
      push_cast
      field_simp
    rw [hvalue]
    exact h

/-! ## Decimals -/

/-- A decimal is read as the double that it is rounded to. -/
theorem unpackedOfScientific_eq {d m : Nat} {place e : Int} (hd : d ≠ 0)
    (hlow : -(2 ^ 11 + (d.log2 : Int)) ≤ place) (hhigh : place ≤ 2 ^ 11) (hdouble : IsDouble m e)
    (h : RoundsTo (d * 10 ^ place) m e) :
    UnpackedFloat.ofScientific Format.binary64 d place = .finite .positive m e hdouble.pos := by
  unfold UnpackedFloat.ofScientific
  rw [dif_neg hd, if_neg (not_lt.mpr hhigh), if_neg (not_lt.mpr hlow)]
  split
  · rename_i hplace
    refine mul_eq _ _ ?_ hdouble ?_
    · rw [Nat.shiftLeft_eq]
      show 2 ^ 52 ≤ d * 2 ^ 53
      have := Nat.pos_of_ne_zero hd
      omega
    · have hvalue :
          ((d <<< Format.binary64.mantissaBits : Nat) * 2 ^ (-(Format.binary64.mantissaBits : Int))
          * ((10 ^ place.toNat : Nat) * 2 ^ (0 : Int)) : ℚ) = d * 10 ^ place := by
        obtain ⟨n, rfl⟩ := Int.eq_ofNat_of_zero_le hplace
        rw [Nat.shiftLeft_eq, Int.toNat_natCast, zpow_neg, zpow_natCast, zpow_natCast, zpow_zero]
        push_cast
        field_simp
      rw [hvalue]
      exact h
  · rename_i hplace
    refine div_eq _ _ hdouble ?_
    have hvalue : ((d : Nat) * 2 ^ (0 : Int) / ((10 ^ (-place).toNat : Nat) * 2 ^ (0 : Int)) : ℚ) =
        d * 10 ^ place := by
      obtain ⟨n, rfl⟩ : ∃ n : Nat, place = -n := ⟨(-place).toNat, by omega⟩
      rw [neg_neg, Int.toNat_natCast, zpow_zero, zpow_neg, zpow_natCast]
      push_cast
      field_simp
    rw [hvalue]
    exact h

theorem roundsTo_self (m : Nat) (e : Int) : RoundsTo (m * 2 ^ e) m e := by
  have hscale : (0 : ℚ) < 2 ^ e := zpow_pos two_pos e
  refine ⟨?_, ?_, fun _ => ⟨?_, ?_⟩, fun _ _ => ?_⟩ <;> nlinarith

/-- An integer below `2 ^ 53` is a double. -/
theorem unpack_toFloat {d : Nat} (hd : d ≠ 0) (hlt : d < 2 ^ 53) :
    ∃ (m : Nat) (e : Int) (hdouble : IsDouble m e),
    d.toUInt64.toFloat.toModel.unpack = .finite .positive m e hdouble.pos ∧ 2 ^ 52 ≤ m ∧
      (m * 2 ^ e : ℚ) = d := by
  have hlog : d.log2 < 53 := (Nat.log2_lt hd).mpr hlt
  obtain ⟨k, hk⟩ : ∃ k, d.log2 + k = 52 := ⟨52 - d.log2, by omega⟩
  have hlarge : 2 ^ 52 ≤ d * 2 ^ k := by
    rw [← hk, pow_add]
    exact Nat.mul_le_mul_right _ (Nat.log2_self_le hd)
  have hsmall : d * 2 ^ k < 2 ^ 53 := by
    rw [show 53 = d.log2 + 1 + k by omega, pow_add]
    exact Nat.mul_lt_mul_of_pos_right Nat.lt_log2_self (Nat.two_pow_pos k)
  have hdouble : IsDouble (d * 2 ^ k) (-k) := ⟨by omega, hsmall, .inr hlarge, by omega, by omega⟩
  refine ⟨d * 2 ^ k, -k, hdouble, ?_, hlarge, ?_⟩
  · have hnat : d.toUInt64.toNat = d := Nat.mod_eq_of_lt (by omega)
    have hround : UnpackedFloat.ofUInt64 Format.binary64 d.toUInt64
        = roundWithAccuracy Format.binary64 .positive (d * 2 ^ k) (-k) .exact := by
      have hcompare : compare (d : Int) 0 = .gt := Int.compare_eq_gt.mpr (by omega)
      have htarget : Format.binary64.targetExponent (totalExponent d 0) = -k := by
        rw [targetExponent_eq]
        omega
      unfold UnpackedFloat.ofUInt64 UnpackedFloat.ofNat UnpackedFloat.ofInt UnpackedFloat.normalize
      rw [hnat, hcompare]
      dsimp only
      unfold UnpackedFloat.round decreaseExponent
      dsimp only
      rw [Int.toNat_natCast, htarget, zero_sub, neg_neg, Int.toNat_natCast,
        Nat.shiftLeft_eq, zero_sub]
    have hunpacked :=
      hround.trans (roundWithAccuracy_exact (.inl hlarge) hdouble (roundsTo_self _ _) .positive)
    change (Float.Model.pack (UnpackedFloat.ofUInt64 Format.binary64 d.toUInt64)).unpack = _
    rw [hunpacked]
    exact unpack_pack (.finite .positive hdouble)
  · rw [zpow_neg, zpow_natCast]
    push_cast
    field_simp

/-- The powers of ten that are doubles: all bits of `5 ^ n` fit into the mantissa. -/
theorem ofFloat_powerOfTen : ∀ i : Fin Float.exactlyRepresentablePowersOfTen.size,
    Binary.ofFloat Float.exactlyRepresentablePowersOfTen[i]
      = .finite false (5 ^ i.val * 2 ^ (52 - (5 ^ i.val).log2))
        (i.val - (52 - (5 ^ i.val).log2 : Nat)) := by
  decide +kernel

theorem unpack_powerOfTen {n : Nat} (h : n < Float.exactlyRepresentablePowersOfTen.size) :
    ∃ (m : Nat) (e : Int) (hm : 0 < m),
      Float.exactlyRepresentablePowersOfTen[n].toModel.unpack = .finite .positive m e hm
      ∧ (m * 2 ^ e : ℚ) = 10 ^ n := by
  have hpos : 5 ^ n * 2 ^ (52 - (5 ^ n).log2) ≠ 0 := by positivity
  obtain ⟨hzero, -⟩ | ⟨hdouble, hunpack⟩ := unpack_of_ofFloat (ofFloat_powerOfTen ⟨n, h⟩)
  · exact absurd hzero hpos
  refine ⟨_, _, hdouble.pos, hunpack, ?_⟩
  dsimp only
  generalize 52 - (5 ^ n).log2 = k
  rw [zpow_sub₀ two_ne_zero, zpow_natCast, zpow_natCast,
    show (10 : ℚ) = 5 * 2 by norm_num, mul_pow]
  push_cast
  field_simp

/-- Decimals that are short enough are read by one operation on doubles, which rounds as well. -/
theorem ofScientific_eq {d n m : Nat} {place e : Int} (hd : d ≠ 0)
    (hlow : -(2 ^ 11 + (d.log2 : Int)) ≤ place) (hhigh : place ≤ 2 ^ 11) (hdouble : IsDouble m e)
    (h : RoundsTo (d * 10 ^ place) m e) (negative : Bool)
    (hplace : place = if negative then -(n : Int) else n) :
    (Float.ofScientific d negative n).toModel.unpack = .finite .positive m e hdouble.pos := by
  unfold Float.ofScientific
  split
  · rename_i hshort
    obtain ⟨m₁, e₁, hdouble₁, hunpack₁, hlarge, hvalue₁⟩ := unpack_toFloat hd hshort.1
    have hsize : n < Float.exactlyRepresentablePowersOfTen.size := Nat.lt_succ_of_le hshort.2
    obtain ⟨m₂, e₂, hpos₂, hunpack₂, hvalue₂⟩ := unpack_powerOfTen hsize
    dsimp only
    split
    · rename_i hnegative
      have hquotient :
          UnpackedFloat.div Format.binary64 (.finite .positive m₁ e₁ hdouble₁.pos)
            (.finite .positive m₂ e₂ hpos₂)
          = .finite .positive m e hdouble.pos := by
        refine div_eq _ _ hdouble ?_
        rw [hvalue₁, hvalue₂, div_eq_mul_inv, ← zpow_natCast, ← zpow_neg]
        rwa [hplace, if_pos hnegative] at h
      change (Float.Model.pack (UnpackedFloat.div Format.binary64 d.toUInt64.toFloat.toModel.unpack
        Float.exactlyRepresentablePowersOfTen[n].toModel.unpack)).unpack = _
      rw [hunpack₁, hunpack₂, hquotient]
      exact unpack_pack (.finite .positive hdouble)
    · rename_i hnegative
      have hproduct :
          UnpackedFloat.mul Format.binary64 (.finite .positive m₁ e₁ hdouble₁.pos)
            (.finite .positive m₂ e₂ hpos₂)
          = .finite .positive m e hdouble.pos := by
        refine mul_eq _ _ hlarge hdouble ?_
        rw [hvalue₁, hvalue₂, ← zpow_natCast]
        rwa [hplace, if_neg hnegative] at h
      change (Float.Model.pack (UnpackedFloat.mul Format.binary64 d.toUInt64.toFloat.toModel.unpack
        Float.exactlyRepresentablePowersOfTen[n].toModel.unpack)).unpack = _
      rw [hunpack₁, hunpack₂, hproduct]
      exact unpack_pack (.finite .positive hdouble)
  · dsimp only
    have hexponent : (if negative = true then Int.negOfNat n else Int.ofNat n) = place := by
      rw [hplace]
      split
      · exact Int.negOfNat_eq
      · rfl
    rw [hexponent]
    change (Float.Model.pack (UnpackedFloat.ofScientific Format.binary64 d place)).unpack = _
    rw [unpackedOfScientific_eq hd hlow hhigh hdouble h]
    exact unpack_pack (.finite .positive hdouble)

/-- What is rounded to a double is not far below the least double and not far above the
greatest. -/
theorem RoundsTo.bounds {q : ℚ} {m : Nat} {e : Int} (h : RoundsTo q m e) (hdouble : IsDouble m e) :
    (2 : ℚ) ^ (-1075 : Int) ≤ q ∧ q < 2 ^ (1024 : Int) := by
  obtain ⟨hpos, hlt, -, hleast, hgreatest⟩ := hdouble
  have hm : (1 : ℚ) ≤ m := by exact_mod_cast hpos
  have hm' : (m : ℚ) + 1 ≤ 2 ^ 53 := by exact_mod_cast hlt
  constructor
  · calc (2 : ℚ) ^ (-1075 : Int) = 1 / 2 * 2 ^ (-1074 : Int) := by
          rw [show (-1075 : Int) = -1 + -1074 by norm_num, zpow_add₀ two_ne_zero,
            zpow_neg_one, one_div]
      _ ≤ 1 / 2 * 2 ^ e :=
          mul_le_mul_of_nonneg_left (zpow_le_zpow_right₀ one_le_two hleast) (by norm_num)
      _ ≤ (m - 1 / 2) * 2 ^ e := mul_le_mul_of_nonneg_right (by linarith) (zpow_pos two_pos e).le
      _ ≤ q := h.low
  · calc q ≤ (m + 1 / 2) * 2 ^ e := h.high
      _ < 2 ^ 53 * 2 ^ e := mul_lt_mul_of_pos_right (by linarith) (zpow_pos two_pos e)
      _ ≤ 2 ^ 53 * 2 ^ (971 : Int) :=
          mul_le_mul_of_nonneg_left (zpow_le_zpow_right₀ one_le_two hgreatest) (by norm_num)
      _ = 2 ^ (1024 : Int) := by
          rw [show (1024 : Int) = 53 + 971 by norm_num, zpow_add₀ two_ne_zero]
          rfl

/-- The number of digits of an integer, as powers of ten. -/
theorem between_powers_of_ten {d : Nat} (hd : d ≠ 0) :
    10 ^ ((Nat.toDigits 10 d).length - 1) ≤ d ∧ d < 10 ^ (Nat.toDigits 10 d).length := by
  have hlength : 0 < (Nat.toDigits 10 d).length := Nat.length_toDigits_pos
  constructor
  · by_contra hlt
    by_cases hone : (Nat.toDigits 10 d).length = 1
    · rw [hone] at hlt
      omega
    · have := (Nat.length_toDigits_le_iff (by omega) (by omega)).mpr (not_le.mp hlt)
      omega
  · exact (Nat.length_toDigits_le_iff (by omega) hlength).mp le_rfl

/-- **A decimal is read as the double that it is rounded to.** -/
theorem ofDecimal_eq {d m : Nat} {place e : Int} {x : Float} (hdouble : IsDouble m e)
    (hx : x.toModel.unpack = .finite .positive m e hdouble.pos)
    (h : RoundsTo (d * 10 ^ place) m e) :
    ofDecimal d place = x := by
  obtain ⟨hmin, hmax⟩ := h.bounds hdouble
  have hd : d ≠ 0 := by
    rintro rfl
    rw [Nat.cast_zero, zero_mul] at hmin
    exact absurd hmin (not_le.mpr (zpow_pos two_pos _))
  obtain ⟨hfirst, hlast⟩ := between_powers_of_ten hd
  obtain ⟨length, hlength⟩ : ∃ length, (Nat.toDigits 10 d).length = length + 1 :=
    Nat.exists_eq_succ_of_ne_zero Nat.length_toDigits_pos.ne'
  rw [hlength] at hfirst hlast
  have hscale : (0 : ℚ) < 10 ^ place := zpow_pos (by norm_num) place
  -- the decimal has at most 309 digits before the point,
  -- and its first digit is not too far behind the point
  have hhigh : (length + place : Int) < 309 := by
    refine (zpow_lt_zpow_iff_right₀ (by norm_num : (1 : ℚ) < 10)).mp ?_
    calc (10 : ℚ) ^ (length + place : Int) = 10 ^ length * 10 ^ place := by
          rw [zpow_add₀ (by norm_num), zpow_natCast]
      _ ≤ d * 10 ^ place := mul_le_mul_of_nonneg_right (by exact_mod_cast hfirst) hscale.le
      _ < 2 ^ (1024 : Int) := hmax
      _ ≤ 10 ^ (309 : Int) := by exact_mod_cast (by decide +kernel : 2 ^ 1024 ≤ 10 ^ 309)
  have hlow : -324 < (length + 1 + place : Int) := by
    refine (zpow_lt_zpow_iff_right₀ (by norm_num : (1 : ℚ) < 10)).mp ?_
    calc (10 : ℚ) ^ (-324 : Int) ≤ 2 ^ (-1075 : Int) := by
          rw [zpow_neg, zpow_neg]
          refine inv_anti₀ (by positivity) ?_
          exact_mod_cast (by decide +kernel : 2 ^ 1075 ≤ 10 ^ 324)
      _ ≤ d * 10 ^ place := hmin
      _ < 10 ^ (length + 1) * 10 ^ place :=
          mul_lt_mul_of_pos_right (by exact_mod_cast hlast) hscale
      _ = 10 ^ (length + 1 + place : Int) := by
          rw [zpow_add₀ (by norm_num)]
          norm_cast
  have hlog : length ≤ d.log2 := by
    refine (Nat.le_log2 hd).mpr (le_trans ?_ hfirst)
    exact Nat.pow_le_pow_left (by omega) length
  have hread :
      ∀ negative : Bool, (place = if negative then -(place.natAbs : Int) else place.natAbs) →
      Float.ofScientific d negative place.natAbs = x := by
    intro negative hplace
    refine eq_of_unpack ?_
    rw [ofScientific_eq hd (by omega) (by omega) hdouble h negative hplace, hx]
  unfold ofDecimal
  dsimp only
  rw [hlength, if_neg hd, if_neg (by push_cast; omega), if_neg (by push_cast; omega)]
  split
  · exact hread true (by rw [if_pos rfl]; omega)
  · exact hread false (by rw [if_neg (by decide)]; omega)

end Pseudocode.Number
