import SoapKit.Decimal.Integer

/-!
# Binary floating-point numbers

A binary format has a number of fraction bits and of exponent bits. A finite value is `m * 2 ^ e`
for a whole `m`; the bits of a value are kept as a natural number, so that everything said about it
is exact arithmetic. A decimal fraction is read as the nearest value of the format, and a tie goes
to the even neighbour.
-/

namespace SoapKit.Decimal

/-- A binary interchange format. -/
structure BinaryFormat where
  fractionBits : Nat
  exponentBits : Nat

/-- The 32-bit format. -/
def single : BinaryFormat := ⟨23, 8⟩

/-- The 64-bit format. -/
def double : BinaryFormat := ⟨52, 11⟩

namespace BinaryFormat

/-- The greatest exponent field, which marks infinities and what is no number. -/
def topField (f : BinaryFormat) : Nat := Nat.pow 2 f.exponentBits - 1

/-- The power of two that the smallest values are multiples of. -/
def leastExponent (f : BinaryFormat) : Int :=
  2 - Nat.pow 2 (f.exponentBits - 1) - f.fractionBits

def infinity (f : BinaryFormat) (negative : Bool) : Nat :=
  (if negative then Nat.pow 2 (f.fractionBits + f.exponentBits) else 0) +
    f.topField * Nat.pow 2 f.fractionBits

/-- The bits of a value that is no number. -/
def nan (f : BinaryFormat) : Nat :=
  f.infinity false + Nat.pow 2 (f.fractionBits - 1)

end BinaryFormat

/-- The kinds of values of a binary format. A finite value is `mantissa * 2 ^ exponent`. -/
inductive BinaryValue where
  | finite (negative : Bool) (mantissa : Nat) (exponent : Int)
  | infinite (negative : Bool)
  | nan
  deriving Repr, DecidableEq

/-- The value that bits stand for. -/
def BinaryFormat.value (f : BinaryFormat) (bits : Nat) : BinaryValue :=
  let fraction := bits % Nat.pow 2 f.fractionBits
  let field := bits / Nat.pow 2 f.fractionBits % Nat.pow 2 f.exponentBits
  let negative := bits / Nat.pow 2 (f.fractionBits + f.exponentBits) % 2 == 1
  if field = f.topField then if fraction = 0 then .infinite negative else .nan
  else if field = 0 then .finite negative fraction f.leastExponent
  else .finite negative (fraction + Nat.pow 2 f.fractionBits) (f.leastExponent + (field - 1 : Nat))

/-- `num / den` to the nearest whole number, a tie to the even one. -/
def roundHalfEven (num den : Nat) : Nat :=
  let q := num / den
  let r := num % den
  if 2 * r < den then q
  else if den < 2 * r then q + 1
  else if q % 2 = 0 then q else q + 1

/-- The whole part of the binary logarithm of `num / den`. -/
def log2Ratio (num den : Nat) : Int :=
  let guess : Int := (num.log2 : Int) - den.log2
  -- `2 ^ (guess - 1) < num / den < 2 ^ (guess + 1)`
  let reaches :=
    if guess ≥ 0 then num ≥ den * Nat.pow 2 guess.toNat
    else num * Nat.pow 2 (-guess).toNat ≥ den
  if reaches then guess else guess - 1

/-- The bits of the value nearest to `num / den`, where `den` is not zero. -/
def BinaryFormat.ofRatio (f : BinaryFormat) (negative : Bool) (num den : Nat) : Nat :=
  let sign := if negative then Nat.pow 2 (f.fractionBits + f.exponentBits) else 0
  if num = 0 then sign
  else
    let exponent := max f.leastExponent (log2Ratio num den - f.fractionBits)
    let mantissa :=
      if exponent ≥ 0 then roundHalfEven num (den * Nat.pow 2 exponent.toNat)
      else roundHalfEven (num * Nat.pow 2 (-exponent).toNat) den
    -- a mantissa that rounds up to the next power of two carries into the exponent field by itself
    let magnitude :=
      if mantissa < Nat.pow 2 f.fractionBits then mantissa
      else (exponent - f.leastExponent).toNat * Nat.pow 2 f.fractionBits + mantissa
    sign + min magnitude (f.topField * Nat.pow 2 f.fractionBits)

/-! ## Reading decimal fractions -/

/-- The parts of a decimal fraction: the digits before and after the point, and the power of ten. -/
structure Fraction where
  whole : List Char
  decimals : List Char
  power : Int

/-- Reads the power of ten after its mark: an optional sign and at least one digit. -/
def power? : List Char → Option Int
  | '-' :: rest => (nat? rest).map fun n => -(n : Int)
  | '+' :: rest => (nat? rest).map fun n => (n : Int)
  | s => (nat? s).map fun n => (n : Int)

/-- Reads digits with at most one point among them, at least one digit, and an optional power of
ten. -/
def fraction? (s : List Char) : Option Fraction := do
  let isDigit c := (digit? c).isSome
  let whole := s.takeWhile isDigit
  let rest := s.dropWhile isDigit
  let (decimals, rest) := match rest with
    | '.' :: r => (r.takeWhile isDigit, r.dropWhile isDigit)
    | _ => ([], rest)
  if whole.isEmpty && decimals.isEmpty then none
  else match rest with
    | [] => some ⟨whole, decimals, 0⟩
    | 'e' :: r => return ⟨whole, decimals, ← power? r⟩
    | 'E' :: r => return ⟨whole, decimals, ← power? r⟩
    | _ => none

/-- The bits nearest to a decimal fraction. Powers of ten far outside the format are decided without
computing them. -/
def BinaryFormat.ofFraction (f : BinaryFormat) (negative : Bool) (x : Fraction) : Nat :=
  let digits := x.whole ++ x.decimals
  let n := (foldDigits digit? 10 0 digits).getD 0
  let power := x.power - x.decimals.length
  let reach : Int := Nat.pow 2 f.exponentBits
  if n = 0 then f.ofRatio negative 0 1
  else if power > reach then f.infinity negative
  else if power + digits.length < -reach then f.ofRatio negative 0 1
  else if power ≥ 0 then f.ofRatio negative (n * Nat.pow 10 power.toNat) 1
  else f.ofRatio negative n (Nat.pow 10 (-power).toNat)

/-- Reads a number: a sign, then a decimal fraction or the words for infinity or for no number in
any case. -/
def BinaryFormat.read? (f : BinaryFormat) (s : List Char) : Option Nat :=
  let (negative, rest) := match s with
    | '-' :: r => (true, r)
    | '+' :: r => (false, r)
    | _ => (false, s)
  let word := String.ofList (rest.map Char.toLower)
  if word = "inf" ∨ word = "infinity" then some (f.infinity negative)
  else if word = "nan" then some f.nan
  else (fraction? rest).map (f.ofFraction negative)

end SoapKit.Decimal
