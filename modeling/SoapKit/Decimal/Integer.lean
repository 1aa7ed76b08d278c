/-!
# Decimal and hexadecimal integers

An integer is written as an optional sign and at least one digit, and nothing else. A value outside
the range asked for is no value.
-/

namespace SoapKit.Decimal

/-- The value of an ASCII decimal digit. -/
def digit? (c : Char) : Option Nat :=
  if '0' ≤ c ∧ c ≤ '9' then some (c.toNat - '0'.toNat) else none

/-- The value of an ASCII hexadecimal digit of either case. -/
def hexDigit? (c : Char) : Option Nat :=
  if '0' ≤ c ∧ c ≤ '9' then some (c.toNat - '0'.toNat)
  else if 'a' ≤ c ∧ c ≤ 'f' then some (c.toNat - 'a'.toNat + 10)
  else if 'A' ≤ c ∧ c ≤ 'F' then some (c.toNat - 'A'.toNat + 10)
  else none

/-- The value of a list of digits in the given base, the most significant first, on top of `acc`. -/
def foldDigits (digit : Char → Option Nat) (base : Nat) : Nat → List Char → Option Nat
  | acc, [] => some acc
  | acc, c :: rest => do foldDigits digit base (acc * base + (← digit c)) rest

/-- A number of at least one digit. -/
def digits? (digit : Char → Option Nat) (base : Nat) (s : List Char) : Option Nat :=
  if s.isEmpty then none else foldDigits digit base 0 s

/-- A decimal number without a sign. -/
def nat? (s : List Char) : Option Nat :=
  digits? digit? 10 s

/-- A number that may have a plus sign, of at most `max`. -/
def unsigned? (digit : Char → Option Nat) (base max : Nat) (s : List Char) : Option Nat := do
  let n ← digits? digit base (match s with
    | '+' :: rest => rest
    | _ => s)
  if n ≤ max then some n else none

/-- A decimal number with an optional sign, of at least `min` and at most `max`. -/
def signed? (min max : Int) (s : List Char) : Option Int := do
  let n : Int ← match s with
    | '-' :: rest => (nat? rest).map fun n => -(n : Int)
    | '+' :: rest => (nat? rest).map fun n => (n : Int)
    | _ => (nat? s).map fun n => (n : Int)
  if min ≤ n ∧ n ≤ max then some n else none

/-- The greatest value of a 64-bit word. -/
def maxWord : Nat := Nat.pow 2 64 - 1

def int64? (s : List Char) : Option Int :=
  signed? (-Nat.pow 2 63) (Nat.pow 2 63 - 1) s

end SoapKit.Decimal
