import Mathlib
import Pseudocode.Proofs.Rounding

/-!
# Comparing doubles

Doubles that are numbers stand on a line, with the two zeros at the same place (`place`). They are
compared by their places (`le_iff_place`), so that comparing them is a total preorder. What is not
a number has no place, and is neither less nor greater than anything.

So it matters where a result may fail to be a number. A quotient of two positive numbers always is
one, and so is the sum or the difference of a finite number and another number, whatever the
rounding does (`isNaN_div`, `isNaN_sub`, `isNaN_add`). A count that is a word of 64 bits becomes a
positive number, except if it is zero (`unpack_ofNat`).
-/

namespace Pseudocode.Number

open Float.Model Float.Model.UnpackedFloat

/-! ## Places -/

/-- The place of an unpacked number: its side of zero, and there its exponent and its mantissa. -/
def unpackedPlace : UnpackedFloat → ℤ ×ₗ ℤ ×ₗ ℤ
  | .notANumber => toLex (0, toLex (0, 0))
  | .zero _ => toLex (0, toLex (0, 0))
  | .infinity .negative => toLex (-2, toLex (0, 0))
  | .infinity .positive => toLex (2, toLex (0, 0))
  | .finite .negative m e _ => toLex (-1, toLex (-e, -m))
  | .finite .positive m e _ => toLex (1, toLex (e, m))

/-- The place of a number on the line. -/
def place (x : Float) : ℤ ×ₗ ℤ ×ₗ ℤ := unpackedPlace x.toModel.unpack

theorem toLex_lt_of_side {s t : ℤ} (p q : ℤ ×ₗ ℤ) (h : s < t) : toLex (s, p) < toLex (t, q) :=
  Prod.Lex.toLex_lt_toLex.mpr (.inl h)

theorem toLex_lt_on_side (s : ℤ) {e₁ e₂ m₁ m₂ : ℤ} (h : e₁ < e₂ ∨ e₁ = e₂ ∧ m₁ < m₂) :
    toLex (s, toLex (e₁, m₁)) < toLex (s, toLex (e₂, m₂)) :=
  Prod.Lex.toLex_lt_toLex.mpr (.inr ⟨rfl, Prod.Lex.toLex_lt_toLex.mpr h⟩)

/-- Exponents are compared first, and mantissas if these are the same. -/
theorem compares_on_side (s : ℤ) {o o' : Ordering} {e₁ e₂ m₁ m₂ : ℤ} (he : o.Compares e₁ e₂)
    (hm : o'.Compares m₁ m₂) :
    (o.then o').Compares (toLex (s, toLex (e₁, m₁))) (toLex (s, toLex (e₂, m₂))) := by
  cases o with
  | lt => exact toLex_lt_on_side s (.inl he)
  | eq =>
      obtain rfl : e₁ = e₂ := he
      cases o' with
      | lt => exact toLex_lt_on_side s (.inr ⟨rfl, hm⟩)
      | eq =>
          obtain rfl : m₁ = m₂ := hm
          exact rfl
      | gt => exact toLex_lt_on_side s (.inr ⟨rfl, hm⟩)
  | gt => exact toLex_lt_on_side s (.inl he)

theorem compares_neg {o : Ordering} {a b : ℤ} (h : o.Compares a b) :
    o.swap.Compares (-a) (-b) := by
  cases o with
  | lt => exact neg_lt_neg h
  | eq => exact congrArg Neg.neg h
  | gt => exact neg_lt_neg h

theorem compares_compare (a b : ℤ) : (compare a b).Compares a b := by
  rw [← cmp_eq_compare]
  exact cmp_compares a b

theorem compares_compare_cast (m n : Nat) : (compare m n).Compares (m : ℤ) n := by
  have hcompare := cmp_compares m n
  rw [cmp_eq_compare] at hcompare
  generalize compare m n = o at hcompare
  cases o with
  | lt => exact Int.ofNat_lt.mpr hcompare
  | eq => exact congrArg Int.ofNat hcompare
  | gt => exact Int.ofNat_lt.mpr hcompare

/-- Above zero, the greater exponent or mantissa is the greater number. -/
theorem compares_positive (m₁ m₂ : Nat) (e₁ e₂ : Int) :
    ((compare e₁ e₂).then (compare m₁ m₂)).Compares
    (toLex ((1 : ℤ), toLex (e₁, (m₁ : ℤ)))) (toLex (1, toLex (e₂, (m₂ : ℤ)))) :=
  compares_on_side 1 (compares_compare e₁ e₂) (compares_compare_cast m₁ m₂)

/-- Below zero it is the other way round. -/
theorem compares_negative (m₁ m₂ : Nat) (e₁ e₂ : Int) :
    ((compare e₁ e₂).then (compare m₁ m₂)).swap.Compares
    (toLex ((-1 : ℤ), toLex (-e₁, -(m₁ : ℤ)))) (toLex (-1, toLex (-e₂, -(m₂ : ℤ)))) := by
  rw [Ordering.swap_then]
  exact compares_on_side (-1) (compares_neg (compares_compare e₁ e₂))
    (compares_neg (compares_compare_cast m₁ m₂))

/-- Numbers are compared by their places. -/
theorem compare_eq_place {u v : UnpackedFloat} (hu : u.isNaN = false) (hv : v.isNaN = false) :
    ∃ o : Ordering, u.compare v = some o ∧ o.Compares (unpackedPlace u) (unpackedPlace v) := by
  cases u with
  | notANumber => exact absurd hu (by decide)
  | infinity s =>
      cases v with
      | notANumber => exact absurd hv (by decide)
      | infinity t =>
          cases s with
          | negative =>
              cases t with
              | negative => exact ⟨.eq, rfl, rfl⟩
              | positive => exact ⟨.lt, rfl, toLex_lt_of_side _ _ (by decide)⟩
          | positive =>
              cases t with
              | negative => exact ⟨.gt, rfl, toLex_lt_of_side _ _ (by decide)⟩
              | positive => exact ⟨.eq, rfl, rfl⟩
      | zero t => cases s <;> exact ⟨_, rfl, toLex_lt_of_side _ _ (by decide)⟩
      | finite t m e h => cases s <;> cases t <;> exact ⟨_, rfl, toLex_lt_of_side _ _ (by decide)⟩
  | zero s =>
      cases v with
      | notANumber => exact absurd hv (by decide)
      | infinity t => cases t <;> exact ⟨_, rfl, toLex_lt_of_side _ _ (by decide)⟩
      | zero t => exact ⟨_, rfl, rfl⟩
      | finite t m e h => cases t <;> exact ⟨_, rfl, toLex_lt_of_side _ _ (by decide)⟩
  | finite s m e h =>
      cases v with
      | notANumber => exact absurd hv (by decide)
      | infinity t => cases s <;> cases t <;> exact ⟨_, rfl, toLex_lt_of_side _ _ (by decide)⟩
      | zero t => cases s <;> exact ⟨_, rfl, toLex_lt_of_side _ _ (by decide)⟩
      | finite t m' e' h' =>
          cases s with
          | negative =>
              cases t with
              | negative => exact ⟨_, rfl, compares_negative m m' e e'⟩
              | positive => exact ⟨_, rfl, toLex_lt_of_side _ _ (by decide)⟩
          | positive =>
              cases t with
              | negative => exact ⟨_, rfl, toLex_lt_of_side _ _ (by decide)⟩
              | positive => exact ⟨_, rfl, compares_positive m m' e e'⟩

section

variable {x y : Float} (hx : x.isNaN = false) (hy : y.isNaN = false)

include hx hy

/-- One number is at most another if its place is not behind. -/
theorem le_iff_place : x ≤ y ↔ place x ≤ place y := by
  obtain ⟨o, ho, hplace⟩ := compare_eq_place hx hy
  have hle : x ≤ y ↔ (x.toModel.unpack.compare y.toModel.unpack).any (·.isLE) = true :=
    decide_eq_true_iff
  rw [hle, ho, place, place]
  cases o with
  | lt => exact iff_of_true rfl hplace.le
  | eq => exact iff_of_true rfl hplace.le
  | gt => exact iff_of_false Bool.false_ne_true (not_le.mpr hplace)

theorem lt_iff_place : x < y ↔ place x < place y := by
  obtain ⟨o, ho, hplace⟩ := compare_eq_place hx hy
  have hlt : x < y ↔ (x.toModel.unpack.compare y.toModel.unpack == some .lt) = true :=
    decide_eq_true_iff
  rw [hlt, ho, place, place]
  cases o with
  | lt => exact iff_of_true rfl hplace
  | eq => exact iff_of_false Bool.false_ne_true hplace.not_lt
  | gt => exact iff_of_false Bool.false_ne_true hplace.not_gt

theorem beq_iff_place : (x == y) = true ↔ place x = place y := by
  obtain ⟨o, ho, hplace⟩ := compare_eq_place hx hy
  have hbeq : (x == y) = (x.toModel.unpack.compare y.toModel.unpack == some .eq) := rfl
  rw [hbeq, ho, place, place]
  cases o with
  | lt => exact iff_of_false Bool.false_ne_true hplace.ne
  | eq => exact iff_of_true rfl hplace
  | gt => exact iff_of_false Bool.false_ne_true hplace.ne'

end

/-! ## Results that are numbers -/

theorem isNaN_ofFields {s : Sign} {field : Nat} (fraction : Nat) (h : field ≠ 2047) :
    (ofFields s field fraction).isNaN = false := by
  rw [ofFields, if_neg h]
  split
  · split <;> rfl
  · rfl

/-- Packing may round a number to an infinite one, but never makes something else of it. -/
theorem isNaN_unpack_pack {u : UnpackedFloat} (h : u.isNaN = false) :
    (Float.Model.pack u).unpack.isNaN = false := by
  change (UnpackedFloat.unpack Format.binary64 (UnpackedFloat.pack Format.binary64 u)).isNaN =
    false
  have hinfinite : ∀ s,
      (UnpackedFloat.unpack Format.binary64 (packedInfinity Format.binary64 s)).isNaN = false := by
    intro s
    rw [packedInfinity, unpack_packComponents]
    rfl
  cases u with
  | notANumber => exact absurd h (by decide)
  | infinity s => exact hinfinite s
  | zero s =>
      change (UnpackedFloat.unpack Format.binary64 (packComponents Format.binary64 s 0 0)).isNaN =
        false
      rw [unpack_packComponents]
      rfl
  | finite s m e hm =>
      unfold UnpackedFloat.pack
      dsimp only
      generalize
        (e + ↑Format.binary64.exponentBias + ↑Format.binary64.mantissaBitsWithoutImplicit).toNat =
          field
      split
      · exact hinfinite s
      · rename_i hfield
        replace hfield : field + 1 < 2 ^ 11 := not_le.mp hfield
        split
        · rw [unpack_packComponents, BitVec.toNat_ofNat]
          exact isNaN_ofFields _ (by omega)
        · rw [unpack_packComponents]
          exact isNaN_ofFields _ (by decide)

/-- Rounding does not leave the numbers. -/
theorem isNaN_roundWithAccuracy (s : Sign) (m : Nat) (e : Int) (a : Accuracy) :
    (roundWithAccuracy Format.binary64 s m e a).isNaN = false := by
  unfold roundWithAccuracy
  dsimp only
  split <;> rfl

theorem isNaN_normalize (m e : Int) (s : Sign) :
    (UnpackedFloat.normalize Format.binary64 m e s).isNaN = false := by
  unfold UnpackedFloat.normalize
  split
  · exact isNaN_roundWithAccuracy _ _ _ _
  · rfl
  · exact isNaN_roundWithAccuracy _ _ _ _

/-- A quotient of finite numbers other than zero is a number. -/
theorem isNaN_div {x y : Float} {s t : Sign} {m n : Nat} {e f : Int} {hm : 0 < m} {hn : 0 < n}
    (hx : x.toModel.unpack = .finite s m e hm) (hy : y.toModel.unpack = .finite t n f hn) :
    (x / y).isNaN = false := by
  refine isNaN_unpack_pack ?_
  rw [hx, hy]
  exact isNaN_roundWithAccuracy _ _ _ _

/-- A difference is a number if what is taken from is finite. -/
theorem isNaN_sub {x y : Float} (hx : x.isFinite = true) (hy : y.isNaN = false) :
    (x - y).isNaN = false := by
  refine isNaN_unpack_pack ?_
  replace hx : x.toModel.unpack.isFinite = true := hx
  replace hy : y.toModel.unpack.isNaN = false := hy
  generalize x.toModel.unpack = u at hx
  generalize y.toModel.unpack = v at hy
  cases u with
  | notANumber => exact absurd hx (by decide)
  | infinity s => exact absurd hx (by decide +revert)
  | zero s =>
      cases v with
      | notANumber => exact absurd hy (by decide)
      | infinity t => rfl
      | zero t => cases s <;> cases t <;> rfl
      | finite t m e h => rfl
  | finite s m e h =>
      cases v with
      | notANumber => exact absurd hy (by decide)
      | infinity t => rfl
      | zero t => rfl
      | finite t m' e' h' => exact isNaN_normalize _ _ _

/-- A sum is a number if one of the summands is finite. -/
theorem isNaN_add {x y : Float} (hx : x.isNaN = false) (hy : y.isFinite = true) :
    (x + y).isNaN = false := by
  refine isNaN_unpack_pack ?_
  replace hx : x.toModel.unpack.isNaN = false := hx
  replace hy : y.toModel.unpack.isFinite = true := hy
  generalize x.toModel.unpack = u at hx
  generalize y.toModel.unpack = v at hy
  cases v with
  | notANumber => exact absurd hy (by decide)
  | infinity s => exact absurd hy (by decide +revert)
  | zero t =>
      cases u with
      | notANumber => exact absurd hx (by decide)
      | infinity s => rfl
      | zero s => cases s <;> cases t <;> rfl
      | finite s m e h => rfl
  | finite t m e h =>
      cases u with
      | notANumber => exact absurd hx (by decide)
      | infinity s => rfl
      | zero s => rfl
      | finite s m' e' h' => exact isNaN_normalize _ _ _

/-! ## Counts -/

/-- Rounding to the nearest integer goes no further than a half, and not that far to an odd one. -/
theorem roundHalfEven_near {num den : Nat} (hden : 0 < den) :
    2 * (roundHalfEven num den * den) ≤ 2 * num + den ∧
      2 * num ≤ 2 * (roundHalfEven num den * den) + den
      ∧ (roundHalfEven num den % 2 = 1 →
        2 * (roundHalfEven num den * den) < 2 * num + den ∧
        2 * num < 2 * (roundHalfEven num den * den) + den) := by
  have hdivision := Nat.div_add_mod' num den
  have hlt := Nat.mod_lt num hden
  unfold roundHalfEven
  dsimp only
  generalize num / den = q at *
  generalize num % den = r at *
  split
  · omega
  · split
    · rw [Nat.add_mul, Nat.one_mul]
      omega
    · -- in the middle between two integers, the even one is taken
      rcases Nat.mod_two_eq_zero_or_one q with hq | hq
      · rw [hq, Nat.add_zero]
        omega
      · rw [hq, Nat.add_mul, Nat.one_mul]
        omega

/-- Rounding does not go below an integer that is not above. -/
theorem le_roundHalfEven {least num den : Nat} (hden : 0 < den) (h : least * den ≤ num) :
    least ≤ roundHalfEven num den := by
  obtain ⟨-, habove, -⟩ := @roundHalfEven_near num den hden
  by_contra hlt
  have hnext := Nat.mul_le_mul_right den (Nat.succ_le_of_lt (Nat.lt_of_not_le hlt))
  rw [Nat.succ_mul] at hnext
  omega

/-- Nor above one that is not below. -/
theorem roundHalfEven_le {greatest num den : Nat} (hden : 0 < den) (h : num ≤ greatest * den) :
    roundHalfEven num den ≤ greatest := by
  obtain ⟨hbelow, -, -⟩ := @roundHalfEven_near num den hden
  by_contra hgt
  have hnext := Nat.mul_le_mul_right den (Nat.succ_le_of_lt (Nat.lt_of_not_le hgt))
  rw [Nat.succ_mul] at hnext
  omega

/-- Counts of more than 53 bits lose their last bits. -/
theorem exists_roundsTo_of_ge {n : Nat} (hlow : 2 ^ 53 ≤ n) (hhigh : n < 2 ^ 64) :
    ∃ (m : Nat) (e : Int), IsDouble m e ∧ RoundsTo n m e := by
  have hne : n ≠ 0 := by omega
  have hlog : 53 ≤ n.log2 := (Nat.le_log2 hne).mpr hlow
  have hlog' : n.log2 < 64 := (Nat.log2_lt hne).mpr hhigh
  obtain ⟨k, hk⟩ : ∃ k, n.log2 = 52 + k := ⟨n.log2 - 52, by omega⟩
  have hscale : 0 < 2 ^ k := Nat.two_pow_pos k
  have hleast : 2 ^ 52 * 2 ^ k ≤ n := by
    rw [← pow_add, ← hk]
    exact Nat.log2_self_le hne
  have hgreatest : n < 2 ^ 53 * 2 ^ k := by
    rw [← pow_add, show 53 + k = n.log2 + 1 by omega]
    exact Nat.lt_log2_self
  obtain ⟨hbelow, habove, hodd⟩ := @roundHalfEven_near n _ hscale
  have hm := le_roundHalfEven hscale hleast
  have hm' := roundHalfEven_le hscale hgreatest.le
  generalize roundHalfEven n (2 ^ k) = m at *
  have hbelow' : (2 * (m * 2 ^ k) : ℚ) ≤ 2 * n + 2 ^ k := by exact_mod_cast hbelow
  have habove' : (2 * n : ℚ) ≤ 2 * (m * 2 ^ k) + 2 ^ k := by exact_mod_cast habove
  rcases Nat.lt_or_eq_of_le hm' with hlt | rfl
  · refine ⟨m, k, ⟨by omega, hlt, .inr hm, by omega, by omega⟩,
      ⟨?_, ?_, fun h => ?_, fun h _ => ?_⟩⟩ <;>
      rw [zpow_natCast]
    · linarith
    · linarith
    · obtain ⟨h₁, h₂⟩ := hodd h
      have h₁' : (2 * (m * 2 ^ k) : ℚ) < 2 * n + 2 ^ k := by exact_mod_cast h₁
      have h₂' : (2 * n : ℚ) < 2 * (m * 2 ^ k) + 2 ^ k := by exact_mod_cast h₂
      constructor <;> linarith
    · have hpower : ((m : ℚ)) * 2 ^ k ≤ n := by
        rw [h]
        exact_mod_cast hleast
      have hpos : (0 : ℚ) < 2 ^ k := by positivity
      linarith
  · -- rounded up to the next power of two
    have hpos : (0 : ℚ) < 2 ^ k := by positivity
    have hnext : (2 : ℚ) ^ ((k : Int) + 1) = 2 * 2 ^ k := by
      rw [zpow_add₀ two_ne_zero, zpow_natCast, zpow_one, mul_comm]
    push_cast at hbelow' habove'
    refine ⟨2 ^ 52, k + 1, ⟨by positivity, by norm_num, .inr le_rfl, by omega, by omega⟩,
      ⟨?_, ?_, fun h => absurd h (by decide), fun _ _ => ?_⟩⟩ <;> rw [hnext] <;>
        push_cast <;> linarith

/-- A count becomes a positive number. -/
theorem unpack_ofNat {n : Nat} (hn : n ≠ 0) (hhigh : n < 2 ^ 64) :
    ∃ (m : Nat) (e : Int) (hm : 0 < m),
    (Float.ofNat n).toModel.unpack = .finite .positive m e hm := by
  obtain ⟨m, e, hdouble, hround⟩ : ∃ (m : Nat) (e : Int), IsDouble m e ∧ RoundsTo n m e := by
    rcases Nat.lt_or_ge n (2 ^ 53) with hlt | hge
    · obtain ⟨m, e, hdouble, -, -, hvalue⟩ := unpack_toFloat hn hlt
      refine ⟨m, e, hdouble, ?_⟩
      rw [← hvalue]
      exact roundsTo_self m e
    · exact exists_roundsTo_of_ge hge hhigh
  refine ⟨m, e, hdouble.pos, ?_⟩
  have hplace : (0 : Int) = if false = true then -((0 : Nat) : Int) else (0 : Nat) := rfl
  refine ofScientific_eq hn (by omega) (by norm_num) hdouble ?_ false hplace
  rwa [zpow_zero, mul_one]

end Pseudocode.Number
