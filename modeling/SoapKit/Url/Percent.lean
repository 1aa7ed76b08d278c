import SoapKit.Decimal.Integer
import SoapKit.Text.Utf8

/-!
# Percent signs in URLs

A character that may not stand in some part of a URL is written as its bytes, each as a percent sign
and two hexadecimal digits. Which characters those are differs from part to part; the sets grow from
fragments over paths to user names. A percent sign itself stays as it is, so a text that is already
escaped is not escaped twice.
-/

namespace SoapKit.Url.Percent

/-- A hexadecimal digit in upper case. -/
def hexDigit (n : Nat) : Char :=
  if n < 10 then Char.ofNat (0x30 + n) else Char.ofNat (0x41 + n - 10)

/-- A byte as a percent sign and two digits. -/
def ofByte (byte : UInt8) : List Char :=
  ['%', hexDigit (byte.toNat / 16), hexDigit (byte.toNat % 16)]

/-- A text with the characters of a set escaped. Characters beyond ASCII are always escaped. -/
def encode (escaped : Char → Bool) (s : List Char) : List Char :=
  s.flatMap fun c =>
    if 0x80 ≤ c.toNat || escaped c then (Text.encode c.toString).flatMap ofByte else [c]

/-- The bytes that an escaped text stands for. A percent sign without two digits after it stands for
itself. -/
def decode : List Char → Bytes
  | [] => []
  | '%' :: a :: b :: rest =>
    match Decimal.hexDigit? a, Decimal.hexDigit? b with
    | some high, some low => UInt8.ofNat (high * 16 + low) :: decode rest
    | _, _ => 0x25 :: decode (a :: b :: rest)
  | c :: rest => Text.encode c.toString ++ decode rest

/-! ## Sets -/

/-- The characters escaped where nothing else is. -/
def inControls (c : Char) : Bool :=
  c.toNat < 0x20 || c.toNat == 0x7F

def inFragment (c : Char) : Bool :=
  inControls c || [' ', '"', '<', '>', '\x60'].contains c

def inPath (c : Char) : Bool :=
  inFragment c || ['#', '?', '\x7b', '\x7d'].contains c

def inUserinfo (c : Char) : Bool :=
  inPath c || ['/', ':', ';', '=', '@', '[', '\\', ']', '^', '|'].contains c

def inFileName (c : Char) : Bool :=
  inPath c || ['/', '%', '\\'].contains c

/-- The characters escaped in a query. Schemes of the web escape apostrophes too. -/
def inQuery (web : Bool) (c : Char) : Bool :=
  inControls c || [' ', '"', '#', '<', '>'].contains c || (web && c == '\x27')

end SoapKit.Url.Percent
