import SoapKit.Decimal.Integer
import SoapKit.Text.Split
import SoapKit.Xml.Name
import SoapKit.Xml.Reference

/-!
# Characters of conforming documents

The character classes of XML 1.0, references, and the normalization of line breaks. Data is read as
a list of units, so that a character that was referred to can be told from one that was written:
only written ones are normalized.
-/

namespace SoapKit.Xml.Strict

/-- Whether a character may stand in a document. -/
def isXmlChar (c : Char) : Bool :=
  if c.toNat < 0x20 then c == '\t' || c == '\n' || c == '\r'
  else c.toNat != 0xFFFE && c.toNat != 0xFFFF

/-- Whether a name may begin with a character. The colon is not counted as part of a name. -/
def isNameStart (c : Char) : Bool :=
  let n := c.toNat
  if n ≤ 128 then c.isAlpha || c == '_'
  else
    (0xC0 ≤ n && n ≤ 0xD6) || (0xD8 ≤ n && n ≤ 0xF6) || (0xF8 ≤ n && n ≤ 0x2FF) ||
      (0x370 ≤ n && n ≤ 0x37D) || (0x37F ≤ n && n ≤ 0x1FFF) || (0x200C ≤ n && n ≤ 0x200D) ||
      (0x2070 ≤ n && n ≤ 0x218F) || (0x2C00 ≤ n && n ≤ 0x2FEF) || (0x3001 ≤ n && n ≤ 0xD7FF) ||
      (0xF900 ≤ n && n ≤ 0xFDCF) || (0xFDF0 ≤ n && n ≤ 0xFFFD) || (0x10000 ≤ n && n ≤ 0xEFFFF)

/-- Whether a name may go on with a character. -/
def isNameChar (c : Char) : Bool :=
  let n := c.toNat
  isNameStart c || c.isDigit || c == '-' || c == '.' || n == 0xB7 || (0x300 ≤ n && n ≤ 0x36F) ||
    (0x203F ≤ n && n ≤ 0x2040)

/-! ## References -/

/-- A character of data, as written or as referred to. -/
inductive DataUnit where
  | written (c : Char)
  | referred (c : Char)
  deriving Repr, DecidableEq

/-- The character with a number of 32 bits. A number that belongs to no character stands for the
replacement character; a character that may not stand in a document may not be referred to. -/
def numbered? (digit : Char → Option Nat) (base : Nat) (digits : List Char) : Option Char := do
  let n ← Decimal.digits? digit base digits
  if n < Nat.pow 2 32 then
    let c := if n = 0 then '\x00' else (charOfNumber? n).getD '\uFFFD'
    if isXmlChar c then some c else none
  else none

/-- The character that a reference names between its ampersand and its semicolon. -/
def referred? (name : List Char) : Option Char :=
  match name with
  | '#' :: 'x' :: digits => numbered? Decimal.hexDigit? 16 digits
  | '#' :: digits => numbered? Decimal.digit? 10 digits
  | _ => (namedCharacters.find? (·.1.toList == name)).map (·.2)

/-- Reads data as a list of units. -/
def units (s : List Char) : Option (List DataUnit) :=
  match s with
  | [] => some []
  | c :: rest =>
    if c = '&' then
      match _h : Text.splitOnce ';' rest with
      | some (name, after) => do return .referred (← referred? name) :: (← units after)
      | none => none
    else do return .written c :: (← units rest)
termination_by s.length
decreasing_by
  · have := congrArg List.length (Text.splitOnce_eq_some _h).1
    simp only [List.length_append, List.length_cons] at *
    omega
  · simp

/-! ## Line breaks -/

/-- Character data with its line breaks normalized: a written carriage return becomes a line feed,
together with a written line feed after it. It stays as it is directly before a reference, and at
the end of data directly after one. -/
def normalizeText : Bool → List DataUnit → List Char
  | _, [] => []
  | _, .referred c :: rest => c :: normalizeText true rest
  | afterReference, [.written '\r'] => if afterReference then ['\r'] else ['\n']
  | _, .written '\r' :: .written '\n' :: rest => '\n' :: normalizeText false rest
  | _, .written '\r' :: .written c :: rest => '\n' :: normalizeText false (.written c :: rest)
  | _, .written '\r' :: rest => '\r' :: normalizeText false rest
  | _, .written c :: rest => c :: normalizeText false rest

/-- An attribute's value, in which every written line break and tab becomes a space. -/
def normalizeValue : List DataUnit → List Char
  | [] => []
  | .referred c :: rest => c :: normalizeValue rest
  | .written c :: rest =>
    if c = '\r' ∧ rest.head? = some (.written '\n') then normalizeValue rest
    else if c = '\n' ∨ c = '\r' ∨ c = '\t' then ' ' :: normalizeValue rest
    else c :: normalizeValue rest

end SoapKit.Xml.Strict
