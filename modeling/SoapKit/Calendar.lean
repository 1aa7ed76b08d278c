import SoapKit.Decimal.Integer
import SoapKit.Text.Blank

/-!
# Dates and times

Dates of the proleptic Gregorian calendar, times of day with a leap second, and the offset of a
local time from universal time. Dates and times are written as in RFC 3339; a year outside four
digits has a sign. Reading is a chain of steps, each of which takes its part from the front of the
text.
-/

namespace SoapKit.Calendar

/-- A day of the proleptic Gregorian calendar. -/
structure Date where
  year : Int
  month : Nat
  day : Nat
  deriving Repr, DecidableEq

/-- A local date and time. A count of nanoseconds from `10 ^ 9` on stands for a leap second;
`offset` is in seconds east of universal time. -/
structure DateTime where
  date : Date
  hour : Nat
  minute : Nat
  second : Nat
  nanosecond : Nat
  offset : Int
  deriving Repr, DecidableEq

/-- Every fourth year is a leap year, except the centuries that 400 does not divide. -/
def isLeapYear (year : Int) : Bool :=
  year % 4 == 0 && (year % 100 != 0 || year % 400 == 0)

def daysInMonth (year : Int) (month : Nat) : Nat :=
  match month with
  | 4 | 6 | 9 | 11 => 30
  | 2 => if isLeapYear year then 29 else 28
  | _ => 31

/-- The first and the last year that dates may have. -/
def yearRange : Int × Int := (-262143, 262142)

/-- A date whose month and day exist and whose year is in range. -/
def date? (year : Int) (month day : Nat) : Option Date :=
  if yearRange.1 ≤ year ∧ year ≤ yearRange.2 ∧ 1 ≤ month ∧ month ≤ 12 ∧ 1 ≤ day ∧
      day ≤ daysInMonth year month
  then some ⟨year, month, day⟩ else none

/-! ## Writing -/

/-- A number with at least `width` digits. -/
def padded (width n : Nat) : String :=
  let text := toString n
  String.ofList (List.replicate (width - text.length) '0') ++ text

/-- A year: four digits, and a sign when it lies outside of them. -/
def yearText (year : Int) : String :=
  if 0 ≤ year ∧ year ≤ 9999 then padded 4 year.toNat
  else (if year < 0 then "-" else "+") ++ padded 4 year.natAbs

def Date.text (d : Date) : String :=
  yearText d.year ++ "-" ++ padded 2 d.month ++ "-" ++ padded 2 d.day

/-- A fraction of a second with the fewest of no, three, six or nine digits that lose nothing. -/
def fractionText (nanosecond : Nat) : String :=
  if nanosecond = 0 then ""
  else if nanosecond % 1000000 = 0 then "." ++ padded 3 (nanosecond / 1000000)
  else if nanosecond % 1000 = 0 then "." ++ padded 6 (nanosecond / 1000)
  else "." ++ padded 9 nanosecond

/-- An offset in hours and minutes, its seconds rounded to the nearest minute. -/
def offsetText (offset : Int) : String :=
  let minutes := (offset.natAbs + 30) / 60
  (if offset < 0 then "-" else "+") ++ padded 2 (minutes / 60) ++ ":" ++ padded 2 (minutes % 60)

/-- A date and time as in RFC 3339. A leap second is written as second 60. -/
def DateTime.text (t : DateTime) : String :=
  let leap := t.nanosecond / 1000000000
  t.date.text ++ "T" ++ padded 2 t.hour ++ ":" ++ padded 2 t.minute ++ ":" ++
    padded 2 (t.second + leap) ++ fractionText (t.nanosecond % 1000000000) ++ offsetText t.offset

/-! ## Reading -/

/-- Takes the digits at the front, at least `least` and at most `most` of them. -/
def takeDigits (least most : Nat) (s : List Char) : Option (List Char × List Char) :=
  let found := (s.take most).takeWhile fun c => (Decimal.digit? c).isSome
  if least ≤ found.length then some (found, s.drop found.length) else none

/-- Takes a number of at least `least` and at most `most` digits; it has to fit a 64-bit word. -/
def takeNumber (least most : Nat) (s : List Char) : Option (Nat × List Char) := do
  let (found, rest) ← takeDigits least most s
  let n ← Decimal.foldDigits Decimal.digit? 10 0 found
  if n < Nat.pow 2 63 then some (n, rest) else none

def takeMark (mark : Char) : List Char → Option (List Char)
  | c :: rest => if c = mark then some rest else none
  | [] => none

/-- Takes the fraction of a second after its point. Digits beyond the ninth are dropped. -/
def takeNanosecond (s : List Char) : Option (Nat × List Char) := do
  let (found, rest) ← takeDigits 1 9 s
  let n ← Decimal.foldDigits Decimal.digit? 10 0 found
  some (n * Nat.pow 10 (9 - found.length), rest.dropWhile fun c => (Decimal.digit? c).isSome)

/-- Takes an offset: `Z`, or a sign (the minus sign of typography counts), hours and minutes. -/
def takeOffset : List Char → Option (Int × List Char)
  | 'Z' :: rest | 'z' :: rest => some (0, rest)
  | sign :: rest => do
    let negative ←
      if sign = '+' then some false
      else if sign = '-' ∨ sign = '\u2212' then some true
      else none
    let (hours, rest) ← takeNumber 2 2 rest
    let rest ← takeMark ':' rest
    let (minutes, rest) ← takeNumber 2 2 rest
    if minutes > 59 then none
    else
      let seconds : Int := hours * 3600 + minutes * 60
      some (if negative then -seconds else seconds, rest)
  | [] => none

/-- The greatest offset, one minute less than a day. -/
def maxOffset : Int := (23 * 60 + 59) * 60

/-- Reads a date and time as in RFC 3339. A space may stand for the `T`, and second 60 is a leap
second of any minute. -/
def DateTime.read? (s : List Char) : Option DateTime := do
  let (year, s) ← takeNumber 4 4 s
  let s ← takeMark '-' s
  let (month, s) ← takeNumber 2 2 s
  let s ← takeMark '-' s
  let (day, s) ← takeNumber 2 2 s
  let s ← match s with
    | 't' :: rest | 'T' :: rest | ' ' :: rest => some rest
    | _ => none
  let (hour, s) ← takeNumber 2 2 s
  let s ← takeMark ':' s
  let (minute, s) ← takeNumber 2 2 s
  let s ← takeMark ':' s
  let (second, s) ← takeNumber 2 2 s
  let (nanosecond, s) ← match s with
    | '.' :: rest => takeNanosecond rest
    | _ => some (0, s)
  let (offset, s) ← takeOffset s
  let date ← date? year month day
  if s.isEmpty ∧ hour < 24 ∧ minute < 60 ∧ second ≤ 60 ∧ offset.natAbs ≤ maxOffset.toNat then
    if second = 60 then some ⟨date, hour, minute, 59, nanosecond + 1000000000, offset⟩
    else some ⟨date, hour, minute, second, nanosecond, offset⟩
  else none

/-- Takes a year: with a sign any number of digits, without one at most four. -/
def takeYear : List Char → Option (Int × List Char)
  | '-' :: rest => (takeNumber 1 rest.length rest).map fun (n, s) => (-(n : Int), s)
  | '+' :: rest => (takeNumber 1 rest.length rest).map fun (n, s) => ((n : Int), s)
  | s => (takeNumber 1 4 s).map fun (n, s) => ((n : Int), s)

/-- Reads a date. Blanks may stand before each number, and months and days may have one digit. -/
def Date.read? (s : List Char) : Option Date := do
  let (year, s) ← takeYear (Text.trimStart s)
  let s ← takeMark '-' s
  let (month, s) ← takeNumber 1 2 (Text.trimStart s)
  let s ← takeMark '-' s
  let (day, s) ← takeNumber 1 2 (Text.trimStart s)
  if s.isEmpty then date? year month day else none

/-- Midnight of a date in universal time. -/
def Date.midnight (d : Date) : DateTime :=
  ⟨d, 0, 0, 0, 0, 0⟩

end SoapKit.Calendar
