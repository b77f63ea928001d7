import Pseudocode.Number.Binary

/-!
# Decimal text of numbers

A number is written with the fewest digits that read back as the same number, always in positional
notation. The digits come from exact integer arithmetic: the reals that round to
`mantissa * 2 ^ exponent` form an interval, whose ends belong to it when the mantissa is even, and
for one digit, two digits and so on the two neighbours of the value on that decimal grid are tried.
The first grid with a point in the interval wins, and of two points the nearer.

Reading accepts an optional sign, digits with at most one point, an exponent, and names of the
infinite numbers.
-/

namespace Pseudocode.Number

/-- `0.d₁d₂…dₙ * 10 ^ point`, for the digits `d₁d₂…dₙ` of a positive number. -/
structure Decimal where
  digits : List Char
  point : Int

namespace Decimal

/-! ## Fewest digits -/

/-- The positive value `value / unit` with the interval `[value - below, value + above] / unit` of
reals that round to it. -/
structure Interval where
  value : Nat
  below : Nat
  above : Nat
  unit : Nat
  closed : Bool

/-- The reals that round to `mantissa * 2 ^ exponent`. Just above a power of two the numbers below
lie twice as close. -/
def Interval.ofBinary (mantissa : Nat) (exponent : Int) : Interval :=
  let scale := Nat.pow 2 exponent.toNat
  let narrow := mantissa = Nat.pow 2 52 ∧ Binary.leastExponent < exponent
  { value := 4 * mantissa * scale
    below := if narrow then scale else 2 * scale
    above := 2 * scale
    unit := 4 * Nat.pow 2 (-exponent).toNat
    closed := mantissa % 2 = 0 }

/-- Is `candidate * 10 ^ place` in the interval? -/
def Interval.holds (i : Interval) (candidate : Nat) (place : Int) : Bool :=
  let offered := candidate * Nat.pow 10 place.toNat * i.unit
  let scale := Nat.pow 10 (-place).toNat
  let low := (i.value - i.below) * scale
  let high := (i.value + i.above) * scale
  if i.closed then low ≤ offered && offered ≤ high else low < offered && offered < high

/-- The first power of ten above the value, counted up from `guess`. -/
def Interval.magnitude (i : Interval) : Nat → Int → Int
  | 0, guess => guess
  | fuel + 1, guess =>
    if Nat.pow 10 guess.toNat * i.unit ≤
      i.value * Nat.pow 10 (-guess).toNat then i.magnitude fuel (guess + 1) else guess

/-- A point of the interval on the grid of `count` digits: the nearer of the value's two
neighbours, and of two that are equally near the one above. -/
def Interval.onGrid (i : Interval) (magnitude : Int) (count : Nat) : Option Nat :=
  let place := magnitude - count
  let scaled := i.value * Nat.pow 10 (-place).toNat
  let step := Nat.pow 10 place.toNat * i.unit
  let lower := scaled / step
  match i.holds lower place, i.holds (lower + 1) place with
  | true, true => if 2 * (scaled % step) < step then some lower else some (lower + 1)
  | true, false => some lower
  | false, true => some (lower + 1)
  | false, false => none

/-- The coarsest grid with a point in the interval, from `count` digits on. Seventeen digits always
suffice. -/
def Interval.search (i : Interval) (magnitude : Int) : Nat → Nat → Nat × Nat
  | 0, count => (i.value * Nat.pow 10 (count - magnitude).toNat / i.unit, count)
  | fuel + 1, count =>
    match i.onGrid magnitude count with
    | some found => (found, count)
    | none => i.search magnitude fuel (count + 1)

/-- The fewest digits that read back as `mantissa * 2 ^ exponent`, for a positive mantissa. -/
def shortest (mantissa : Nat) (exponent : Int) : Decimal :=
  let i := Interval.ofBinary mantissa exponent
  let guess := (mantissa.log2 + exponent) * 30103 / 100000 - 1
  let magnitude := i.magnitude 4 guess
  let (found, count) := i.search magnitude 17 1
  let digits := Nat.toDigits 10 found
  -- the neighbour above may have one digit more
  ⟨digits, magnitude - count + digits.length⟩

/-! ## Writing -/

/-- Positional notation, without a point when no fraction is left. -/
def positional (d : Decimal) : String :=
  let trimmed := (d.digits.reverse.dropWhile (· == '0')).reverse
  if d.point ≤ 0 then
    "0." ++ String.ofList (List.replicate (-d.point).toNat '0' ++ trimmed)
  else
    let whole := d.point.toNat
    if trimmed.length ≤ whole then
      String.ofList (trimmed ++ List.replicate (whole - trimmed.length) '0')
    else
      String.ofList (trimmed.take whole) ++ "." ++ String.ofList (trimmed.drop whole)

end Decimal

/-- The text of a number: fewest digits, positional, a whole number without a point, zero with its
sign. -/
def render (x : Float) : String :=
  match Binary.ofFloat x with
  | .nan => "NaN"
  | .infinite negative => if negative then "-Infinity" else "Infinity"
  | .finite negative mantissa exponent =>
    let magnitude := if mantissa = 0 then "0" else (Decimal.shortest mantissa exponent).positional
    if negative then "-" ++ magnitude else magnitude

/-- `numerator / denominator` to the nearest integer, a half to the even one. -/
def roundHalfEven (numerator denominator : Nat) : Nat :=
  let quotient := numerator / denominator
  let rest := numerator % denominator
  if 2 * rest < denominator then quotient
  else if denominator < 2 * rest then quotient + 1
  else quotient + quotient % 2

/-- A number with exactly `places` digits after the point, rounded from its exact value. -/
def renderFixed (places : Nat) (x : Float) : String :=
  match Binary.ofFloat x with
  | .nan => "NaN"
  | .infinite negative => if negative then "-inf" else "inf"
  | .finite negative mantissa exponent =>
    let scaled :=
      roundHalfEven (mantissa * Nat.pow 2 exponent.toNat * Nat.pow 10 places)
        (Nat.pow 2 (-exponent).toNat)
    let digits := Nat.toDigits 10 scaled
    let padded := List.replicate (places + 1 - digits.length) '0' ++ digits
    let whole := padded.length - places
    let point := if places = 0 then "" else "."
    let magnitude :=
      String.ofList (padded.take whole) ++ point ++ String.ofList (padded.drop whole)
    if negative then "-" ++ magnitude else magnitude

/-! ## Reading -/

/-- The number that a row of digits spells. -/
def ofDigits (digits : List Char) : Nat :=
  digits.foldl (fun total c => 10 * total + (c.toNat - '0'.toNat)) 0

/-- `mantissa * 10 ^ exponent`, correctly rounded. Beyond the range of doubles it is infinite or
zero. -/
def ofDecimal (mantissa : Nat) (exponent : Int) : Float :=
  let magnitude := (Nat.toDigits 10 mantissa).length + exponent
  if mantissa = 0 then 0.0
  else if 400 < magnitude then 1.0 / 0.0
  else if magnitude < -400 then 0.0
  else if exponent < 0 then Float.ofScientific mantissa true exponent.natAbs
  else Float.ofScientific mantissa false exponent.natAbs

/-- The exponent that ends a number: nothing, or `e` with a signed integer. -/
def readExponent? : List Char → Option Int
  | [] => some 0
  | mark :: rest =>
    if mark == 'e' || mark == 'E' then
      let (negative, digits) := match rest with
        | '-' :: digits => (true, digits)
        | '+' :: digits => (false, digits)
        | digits => (false, digits)
      if digits.isEmpty || !digits.all Char.isDigit then none
      else if negative then some (-(ofDigits digits : Int)) else some (ofDigits digits)
    else none

/-- Digits with at most one point among them, at least one digit, and an exponent. -/
def readDecimal? (cs : List Char) : Option Float :=
  let whole := cs.takeWhile Char.isDigit
  let rest := cs.dropWhile Char.isDigit
  let (fraction, rest) := match rest with
    | '.' :: rest => (rest.takeWhile Char.isDigit, rest.dropWhile Char.isDigit)
    | rest => ([], rest)
  if whole.isEmpty && fraction.isEmpty then none
  else (readExponent? rest).map fun exponent =>
    ofDecimal (ofDigits (whole ++ fraction)) (exponent - fraction.length)

/-- A number without its sign. -/
def readMagnitude? (cs : List Char) : Option Float :=
  let lowered := cs.map Char.toLower
  if lowered == "inf".toList || lowered == "infinity".toList then some (1.0 / 0.0)
  else if lowered == "nan".toList then some (0.0 / 0.0)
  else readDecimal? cs

/-- Reads a number: an optional sign, then a decimal or the name of an infinite number or of no
number. -/
def read? (text : String) : Option Float :=
  match text.toList with
  | '-' :: cs => (readMagnitude? cs).map fun x => -x
  | '+' :: cs => readMagnitude? cs
  | cs => readMagnitude? cs

end Pseudocode.Number
