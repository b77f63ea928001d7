import Mathlib
import Pseudocode.Number.Binary

/-!
# Doubles, unpacked

The operations on doubles are defined on the unpacked form of a number, which has a sign, a
mantissa and an exponent, and the result is packed into bits again. To reason about one operation
after another, it has to be known that nothing is lost on the way. The forms that some double has
are the `Canonical` ones, and those come back unchanged (`unpack_pack`).

The exact value that is read off the bits of a number is the one that its unpacked form has
(`ofFloat_eq`).
-/

namespace Pseudocode.Number

open Float.Model Float.Model.UnpackedFloat

/-! ## Fields -/

/-- The number with this sign, this field for the exponent and this one for the mantissa. -/
def ofFields (s : Sign) (field fraction : Nat) : UnpackedFloat :=
  if field = 2047 then if fraction = 0 then .infinity s else .notANumber
  else if field = 0 then if h : fraction = 0 then .zero s
    else .finite s fraction (-1074) (Nat.pos_of_ne_zero h)
  else .finite s (fraction + 2 ^ 52) (field - 1075) (by omega)

section

variable (b : BitVec Format.binary64.numBits)

theorem toNat_unpackMantissa : (unpackMantissa b).toNat = b.toNat % 2 ^ 52 := by
  rw [unpackMantissa_def, BitVec.extractLsb'_toNat, Nat.shiftRight_zero]

theorem toNat_unpackExponent : (unpackExponent b).toNat = b.toNat / 2 ^ 52 % 2 ^ 11 := by
  rw [unpackExponent_def, BitVec.extractLsb'_toNat, Nat.shiftRight_eq_div_pow]

theorem toNat_unpackSign : (unpackSign b).toNat = b.toNat / 2 ^ 63 := by
  have hb : b.toNat < 2 ^ 64 := b.isLt
  rw [unpackSign_def, BitVec.extractLsb'_toNat, Nat.shiftRight_eq_div_pow]
  change b.toNat / 2 ^ 63 % 2 ^ 1 = b.toNat / 2 ^ 63
  omega

theorem toNat_one_append (v : BitVec 52) : (1#1 ++ v).toNat = v.toNat + 2 ^ 52 := by
  rw [BitVec.toNat_append, ← Nat.shiftLeft_add_eq_or_of_lt v.isLt, Nat.add_comm]
  rfl

/-- A word of 64 bits is unpacked by its three fields. -/
theorem unpack_eq_ofFields : UnpackedFloat.unpack Format.binary64 b =
    ofFields (Sign.ofBitVec (unpackSign b)) (unpackExponent b).toNat (unpackMantissa b).toNat := by
  have hmax : unpackExponent b = -1#11 ↔ (unpackExponent b).toNat = 2047 := BitVec.toNat_inj.symm
  have hleast : unpackExponent b = 0#11 ↔ (unpackExponent b).toNat = 0 := BitVec.toNat_inj.symm
  have hzero : unpackMantissa b = 0#52 ↔ (unpackMantissa b).toNat = 0 := BitVec.toNat_inj.symm
  unfold UnpackedFloat.unpack ofFields
  dsimp only
  by_cases h : (unpackExponent b).toNat = 2047
  · rw [if_pos h, if_pos (hmax.mpr h)]
    exact if_congr hzero rfl rfl
  · rw [if_neg h, if_neg (mt hmax.mp h)]
    by_cases h' : (unpackExponent b).toNat = 0
    · rw [if_pos h', if_pos (hleast.mpr h')]
      by_cases hz : (unpackMantissa b).toNat = 0
      · rw [dif_pos hz, dif_pos (hzero.mpr hz)]
      · rw [dif_neg hz, dif_neg (mt hzero.mp hz), h']
        rfl
    · rw [if_neg h', if_neg (mt hleast.mp h')]
      simp only [toNat_one_append]
      rfl

end

/-! ## Packing -/

/-- The number `m * 2 ^ e` is a double and written as one. A mantissa of less than 53 bits has the
least exponent. -/
structure IsDouble (m : Nat) (e : Int) : Prop where
  pos : 0 < m
  lt : m < 2 ^ 53
  normal : e = -1074 ∨ 2 ^ 52 ≤ m
  least : -1074 ≤ e
  greatest : e ≤ 971

/-- The unpacked forms of doubles. -/
inductive Canonical : UnpackedFloat → Prop where
  | notANumber : Canonical .notANumber
  | infinity (s : Sign) : Canonical (.infinity s)
  | zero (s : Sign) : Canonical (.zero s)
  | finite (s : Sign) {m : Nat} {e : Int} (h : IsDouble m e) : Canonical (.finite s m e h.pos)

/-- Fields that are not too wide give a canonical form. -/
theorem canonical_ofFields {field fraction : Nat} (hfield : field < 2 ^ 11)
    (hfraction : fraction < 2 ^ 52) (s : Sign) :
    Canonical (ofFields s field fraction) := by
  unfold ofFields
  split
  · split
    · exact .infinity s
    · exact .notANumber
  · split
    · split
      · exact .zero s
      · exact .finite s ⟨by omega, by omega, .inl rfl, by omega, by omega⟩
    · exact .finite s ⟨by omega, by omega, .inr (by omega), by omega, by omega⟩

/-- Every double has a canonical form. -/
theorem canonical_unpack (x : Float.Model) : Canonical x.unpack := by
  unfold Float.Model.unpack
  rw [unpack_eq_ofFields]
  exact canonical_ofFields (BitVec.isLt _) (BitVec.isLt _) _

theorem log2_eq_of_lt {m n : Nat} (hlow : 2 ^ n ≤ m) (hhigh : m < 2 ^ (n + 1)) : m.log2 = n := by
  have hm : m ≠ 0 := by have := Nat.two_pow_pos n; omega
  exact (Nat.log2_eq_iff hm).mpr ⟨hlow, hhigh⟩

/-- The fields of a packed number are the ones it was packed from. -/
theorem unpack_packComponents (s : Sign) (exponent : BitVec 11) (mantissa : BitVec 52) :
    UnpackedFloat.unpack Format.binary64 (packComponents Format.binary64 s exponent mantissa)
      = ofFields s exponent.toNat mantissa.toNat := by
  rw [unpack_eq_ofFields, unpackSign_packComponents, Sign.ofBitVec_toBitVec,
    unpackExponent_packComponents, unpackMantissa_packComponents]

/-- Packing a double and unpacking it again changes nothing. -/
theorem unpack_pack {u : UnpackedFloat} (h : Canonical u) : (Float.Model.pack u).unpack = u := by
  change UnpackedFloat.unpack Format.binary64 (UnpackedFloat.pack Format.binary64 u) = u
  cases h with
  | notANumber => exact unpack_packedNaN
  | infinity s => exact unpack_packComponents s _ _
  | zero s => exact unpack_packedZero
  | @finite s m e hdouble =>
      obtain ⟨hpos, hm, hnormal, hleast, hgreatest⟩ := hdouble
      have hbias :
          (e + ↑Format.binary64.exponentBias + ↑Format.binary64.mantissaBitsWithoutImplicit).toNat
          = (e + 1075).toNat := by
        change (e + 1023 + 52).toNat = (e + 1075).toNat
        omega
      unfold UnpackedFloat.pack
      dsimp only
      rw [hbias, if_neg (by omega)]
      by_cases hlarge : 2 ^ 52 ≤ m
      · have hlog : m.log2 = 52 := log2_eq_of_lt hlarge hm
        rw [if_pos (by rw [hlog]; rfl), unpack_packComponents, BitVec.toNat_ofNat,
          BitVec.toNat_ofNat, ofFields, if_neg (by omega), if_neg (by omega), finite.injEq]
        exact ⟨rfl, by omega, by omega⟩
      · have hlog : m.log2 < 52 := (Nat.log2_lt (by omega)).mpr (by omega)
        rw [if_neg (by change ¬ m.log2 + 1 = 53; omega), unpack_packComponents, BitVec.toNat_ofNat,
          BitVec.toNat_ofNat, ofFields, if_neg (by omega), if_pos rfl,
          dif_neg (by omega), finite.injEq]
        exact ⟨rfl, by omega, by omega⟩

/-! ## Exact values -/

/-- The exact value of an unpacked number. -/
def Binary.ofUnpacked : UnpackedFloat → Binary
  | .notANumber => .nan
  | .infinity s => .infinite (s == .negative)
  | .zero s => .finite (s == .negative) 0 leastExponent
  | .finite s m e _ => .finite (s == .negative) m e

/-- The exact value, read off the bits, is that of the unpacked form. -/
theorem ofFloat_eq (x : Float) : Binary.ofFloat x = Binary.ofUnpacked x.toModel.unpack := by
  have hsign : ∀ v : BitVec 1, decide (v.toNat = 1) = (Sign.ofBitVec v == .negative) := by decide
  have hbits : x.toBits.toNat = x.toModel.toBits.toBitVec.toNat := rfl
  unfold Binary.ofFloat Float.Model.unpack
  rw [unpack_eq_ofFields, hbits]
  simp only [Nat.pow_eq, ← toNat_unpackExponent, ← toNat_unpackMantissa, ← toNat_unpackSign, hsign]
  unfold ofFields
  split
  · split <;> rfl
  · split
    · split
      · rename_i hzero
        rw [hzero]
        rfl
      · rfl
    · unfold Binary.ofUnpacked Binary.leastExponent
      dsimp only
      congr 1
      omega

/-- Back from the exact value to the unpacked form, for numbers that are not negative. -/
theorem unpack_of_ofFloat {x : Float} {m : Nat} {e : Int}
    (h : Binary.ofFloat x = .finite false m e) :
    (m = 0 ∧ x.toModel.unpack = .zero .positive)
      ∨ ∃ hdouble : IsDouble m e, x.toModel.unpack = .finite .positive m e hdouble.pos := by
  rw [ofFloat_eq] at h
  have hcanonical := canonical_unpack x.toModel
  generalize x.toModel.unpack = u at h hcanonical
  cases hcanonical with
  | notANumber => exact nomatch h
  | infinity s => exact nomatch h
  | zero s =>
      injection h with hs hzero _
      cases s with
      | positive => exact .inl ⟨hzero.symm, rfl⟩
      | negative => exact nomatch hs
  | finite s hdouble =>
      injection h with hs hmantissa he
      subst hmantissa he
      cases s with
      | positive => exact .inr ⟨hdouble, rfl⟩
      | negative => exact nomatch hs

/-! ## Signs -/

/-- Numbers are the same if their unpacked forms are. -/
theorem eq_of_unpack {x y : Float} (h : x.toModel.unpack = y.toModel.unpack) : x = y := by
  have hbits := (unpack_inj_of_valid x.toModel.valid y.toModel.valid).mp h
  exact Float.toBits_inj.mp (UInt64.toBitVec_inj.mp hbits)

theorem Canonical.abs {u : UnpackedFloat} (h : Canonical u) : Canonical u.abs := by
  cases h with
  | notANumber => exact .notANumber
  | infinity s => exact .infinity _
  | zero s => exact .zero _
  | finite s h => exact .finite _ h

theorem Canonical.neg {u : UnpackedFloat} (h : Canonical u) : Canonical u.neg := by
  cases h with
  | notANumber => exact .notANumber
  | infinity s => exact .infinity _
  | zero s => exact .zero _
  | finite s h => exact .finite _ h

theorem unpack_abs (x : Float) : x.abs.toModel.unpack = x.toModel.unpack.abs :=
  unpack_pack (canonical_unpack x.toModel).abs

theorem unpack_neg (x : Float) : (-x).toModel.unpack = x.toModel.unpack.neg :=
  unpack_pack (canonical_unpack x.toModel).neg

theorem abs_of_unpack {x : Float} (h : x.toModel.unpack.abs = x.toModel.unpack) : x.abs = x :=
  eq_of_unpack ((unpack_abs x).trans h)

/-- A number whose form is a negated absolute value is one. -/
theorem neg_abs_of_unpack {x : Float} (h : x.toModel.unpack.abs.neg = x.toModel.unpack) :
    -x.abs = x := by
  refine eq_of_unpack ?_
  rw [unpack_neg, unpack_abs, h]

/-- A finite number is its absolute value, or the negation of that. -/
theorem exists_finite {x : Float} (h : x.isFinite = true) : ∃ negative mantissa exponent,
    Binary.ofFloat x = .finite negative mantissa exponent ∧
      Binary.ofFloat x.abs = .finite false mantissa exponent
      ∧ x = if negative then -x.abs else x.abs := by
  rw [ofFloat_eq, ofFloat_eq, unpack_abs]
  change x.toModel.unpack.isFinite = true at h
  have hsame := abs_of_unpack (x := x)
  have hopposite := neg_abs_of_unpack (x := x)
  generalize x.toModel.unpack = u at h hsame hopposite
  cases u with
  | notANumber => exact nomatch h
  | infinity s => exact nomatch h
  | zero s =>
      cases s with
      | positive => exact ⟨_, _, _, rfl, rfl, (hsame rfl).symm⟩
      | negative => exact ⟨_, _, _, rfl, rfl, (hopposite rfl).symm⟩
  | finite s m e hm =>
      cases s with
      | positive => exact ⟨_, _, _, rfl, rfl, (hsame rfl).symm⟩
      | negative => exact ⟨_, _, _, rfl, rfl, (hopposite rfl).symm⟩

end Pseudocode.Number
