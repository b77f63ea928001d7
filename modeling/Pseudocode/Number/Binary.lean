/-!
# The exact value of a number

Numbers of the language are IEEE doubles. Printing one and taking a remainder need its exact value,
which this module reads off the bits: a finite number is `± mantissa * 2 ^ exponent` with
`mantissa < 2 ^ 53` and `-1074 ≤ exponent`.
-/

namespace Pseudocode.Number

/-- What the bits of a double say. -/
inductive Binary where
  | nan
  | infinite (negative : Bool)
  | finite (negative : Bool) (mantissa : Nat) (exponent : Int)
deriving DecidableEq

namespace Binary

/-- The least exponent, that of the numbers next to zero. -/
def leastExponent : Int := -1074

/-- Takes a double apart into sign, exponent and fraction. -/
def ofFloat (x : Float) : Binary :=
  let bits := x.toBits.toNat
  let negative := bits / Nat.pow 2 63 = 1
  let field : Nat := bits / Nat.pow 2 52 % Nat.pow 2 11
  let fraction : Nat := bits % Nat.pow 2 52
  if field = 2047 then
    if fraction = 0 then .infinite negative else .nan
  else if field = 0 then .finite negative fraction leastExponent
  else .finite negative (fraction + Nat.pow 2 52) (leastExponent + field - 1)

/-- The double `mantissa * 2 ^ exponent`, for a mantissa below `2 ^ 53` and an exponent not below
the least. -/
def assemble (negative : Bool) (mantissa : Nat) (exponent : Int) : Float :=
  let room := (exponent - leastExponent).toNat
  let shift := min (52 - mantissa.log2) room
  let scaled := mantissa <<< shift
  let magnitude :=
    if scaled < Nat.pow 2 52 then scaled
    else (room - shift + 1) * Nat.pow 2 52 + (scaled - Nat.pow 2 52)
  Float.ofBits (UInt64.ofNat (if negative then Nat.pow 2 63 + magnitude else magnitude))

end Binary

/-- The remainder of `x / y` for a quotient cut towards zero. It has the sign of `x`, and is exact.
There is none by zero or of an infinite number. -/
def remainder (x y : Float) : Float :=
  match Binary.ofFloat x, Binary.ofFloat y with
  | .finite negative a p, .finite _ b q =>
    if b = 0 then 0.0 / 0.0
    else
      let low := min p q
      let rest := (a <<< (p - low).toNat) % (b <<< (q - low).toNat)
      if rest = 0 then (if negative then -0.0 else 0.0) else Binary.assemble negative rest low
  | .finite .., .infinite _ => x
  | _, _ => 0.0 / 0.0

/-- How many whole rounds a number asks for: a positive number is cut to an integer below `2 ^ 64`,
any other asks for none. -/
def rounds (x : Float) : Nat :=
  if x > 0.0 then x.toUInt64.toNat else 0

end Pseudocode.Number
