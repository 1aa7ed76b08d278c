import SoapKit.Decimal.Binary

/-!
# The shortest decimal that reads back

Around a finite value lies the interval of the real numbers that round to it; its ends belong to it
when the mantissa is even. Among the decimals in that interval those with the fewest digits are
taken, and of these the one nearest to the value. Everything is counted in quarters of the value's
last binary place, which makes the ends of the interval whole numbers.
-/

namespace SoapKit.Decimal

/-- A positive value with the interval that rounds to it: `low`, `mid` and `high` are multiples of
`2 ^ exponent`. -/
structure Interval where
  low : Nat
  mid : Nat
  high : Nat
  exponent : Int
  closed : Bool

/-- The interval around `mantissa * 2 ^ exponent`. Below a power of two the neighbours are closer
than above it. -/
def BinaryFormat.interval (f : BinaryFormat) (mantissa : Nat) (exponent : Int) : Interval :=
  let nearer := mantissa = Nat.pow 2 f.fractionBits ∧ exponent > f.leastExponent
  { low := 4 * mantissa - (if nearer then 1 else 2)
    mid := 4 * mantissa
    high := 4 * mantissa + 2
    exponent := exponent - 2
    closed := mantissa % 2 == 0 }

/-- `n * 2 ^ e` as a quotient of whole numbers. -/
def ratio (n : Nat) (e : Int) : Nat × Nat :=
  if e ≥ 0 then (n * Nat.pow 2 e.toNat, 1) else (n, Nat.pow 2 (-e).toNat)

/-- Compares `digits * 10 ^ power` with `num / den`. -/
def compareDecimal (digits : Nat) (power : Int) (num den : Nat) : Ordering :=
  if power ≥ 0 then compare (digits * Nat.pow 10 power.toNat * den) num
  else compare (digits * den) (num * Nat.pow 10 (-power).toNat)

/-- Whether `digits * 10 ^ power` lies in the interval. -/
def Interval.contains (i : Interval) (digits : Nat) (power : Int) : Bool :=
  let (lowNum, lowDen) := ratio i.low i.exponent
  let (highNum, highDen) := ratio i.high i.exponent
  let above := compareDecimal digits power lowNum lowDen
  let below := compareDecimal digits power highNum highDen
  (above == .gt || (i.closed && above == .eq)) && (below == .lt || (i.closed && below == .eq))

/-- The greatest multiple of `10 ^ power` not above the value, and whether the value lies past the
middle to the next one, at it, or before it. -/
def Interval.floor (i : Interval) (power : Int) : Nat × Ordering :=
  let (num, den) := ratio i.mid i.exponent
  let (num, den) :=
    if power ≥ 0 then (num, den * Nat.pow 10 power.toNat)
    else (num * Nat.pow 10 (-power).toNat, den)
  (num / den, compare (2 * (num % den)) den)

/-- The member of the interval on the grid of `10 ^ power`, the one nearer to the value when both
neighbours are members. -/
def Interval.onGrid (i : Interval) (power : Int) : Option Nat :=
  let (below, side) := i.floor power
  let lower := below > 0 && i.contains below power
  let upper := i.contains (below + 1) power
  match lower, upper with
  | true, true =>
    match side with
    | .lt => some below
    | .gt => some (below + 1)
    | .eq => some (if below % 2 = 0 then below else below + 1)
  | true, false => some below
  | false, true => some (below + 1)
  | false, false => none

/-- The first grid with a member, from the coarsest down. -/
def Interval.search (i : Interval) : Nat → Int → Nat × Int
  | 0, power => ((i.floor power).1, power)
  | steps + 1, power =>
    match i.onGrid power with
    | some digits => (digits, power)
    | none => i.search steps (power - 1)

/-- The number of decimal digits that a value's leading place lies above the point, or more. -/
def Interval.topPower (i : Interval) : Int :=
  let bits : Int := (i.mid.log2 : Int) + i.exponent
  -- `log10 2 < 0.30103`
  bits * 30103 / 100000 + 2

/-- The digits and the power of ten of the shortest decimal for a positive finite value. -/
def BinaryFormat.shortest (f : BinaryFormat) (mantissa : Nat) (exponent : Int) : Nat × Int :=
  let i := f.interval mantissa exponent
  i.search (f.fractionBits + 8) i.topPower

/-- `digits * 10 ^ power` written with a point and without an exponent. -/
def positional (digits : Nat) (power : Int) : String :=
  let text := Nat.toDigits 10 digits
  if power ≥ 0 then String.ofList (text ++ List.replicate power.toNat '0')
  else
    let places := (-power).toNat
    let padded := List.replicate (places + 1 - text.length) '0' ++ text
    let split := padded.length - places
    String.ofList (padded.take split ++ '.' :: padded.drop split)

/-- The text of a value: the shortest decimal that reads back, never with an exponent. -/
def BinaryFormat.text (f : BinaryFormat) (bits : Nat) : String :=
  match f.value bits with
  | .nan => "NaN"
  | .infinite negative => if negative then "-inf" else "inf"
  | .finite negative mantissa exponent =>
    let magnitude :=
      if mantissa = 0 then "0"
      else
        let (digits, power) := f.shortest mantissa exponent
        positional digits power
    if negative then "-" ++ magnitude else magnitude

end SoapKit.Decimal
