import SoapKit.Decimal.Integer
import SoapKit.Url.Domain
import SoapKit.Url.Percent

/-!
# Hosts

A host is a domain name or an address. A name whose last label is a number is an IPv4 address, and
what stands in brackets is an IPv6 address, written with its longest run of zeros left out.
-/

namespace SoapKit.Url

/-- Who is asked for a document. -/
inductive Host where
  | domain (name : String)
  | ipv4 (address : Nat)
  | ipv6 (pieces : List Nat)
  deriving Repr, DecidableEq, Inhabited

namespace Host

/-! ## IPv4 -/

/-- A number of an address: hexadecimal after `0x`, octal after another zero, else decimal. -/
def number? (s : List Char) : Option Nat :=
  match s with
  | '0' :: 'x' :: rest | '0' :: 'X' :: rest =>
    if rest.isEmpty then some 0 else Decimal.digits? Decimal.hexDigit? 16 rest
  | '0' :: d :: rest =>
    Decimal.digits? (fun c => (Decimal.digit? c).filter (· < 8)) 8 (d :: rest)
  | _ => Decimal.nat? s

/-- The labels of a name without an empty one at its end. -/
def labels (name : List Char) : List (List Char) :=
  let all := Text.pieces '.' name
  if all.getLast? = some [] ∧ 1 < all.length then all.dropLast else all

/-- Whether a name has to be an address. -/
def endsInNumber (name : List Char) : Bool :=
  match (labels name).getLast? with
  | some last => (!last.isEmpty && last.all Char.isDigit) ||
      (match last with
        | '0' :: 'x' :: rest | '0' :: 'X' :: rest => rest.all fun c => (Decimal.hexDigit? c).isSome
        | _ => false)
  | none => false

/-- The address of a name that ends in a number. All numbers but the last are one byte each. -/
def ipv4? (name : List Char) : Option Nat := do
  let numbers ← (labels name).mapM number?
  let last ← numbers.getLast?
  let leading := numbers.dropLast
  if 4 < numbers.length ∨ leading.any (255 < ·) ∨ Nat.pow 256 (5 - numbers.length) ≤ last then
    none
  else
    let high := leading.foldl (fun n byte => n * 256 + byte) 0
    return high * Nat.pow 256 (5 - numbers.length) + last

/-- An address as four bytes. -/
def ipv4Text (address : Nat) : String :=
  ".".intercalate ([3, 2, 1, 0].map fun place => toString (address / Nat.pow 256 place % 256))

/-! ## IPv6 -/

/-- A byte in decimal without leading zeros. -/
def byte? (s : List Char) : Option Nat :=
  match s with
  | '0' :: _ :: _ => none
  | _ => (Decimal.nat? s).filter (· ≤ 255)

/-- The pieces of one side of the gap; the last one may be an IPv4 address. -/
def side? (s : List Char) (isLast : Bool) : Option (List Nat) :=
  if s.isEmpty then some []
  else
    let texts := Text.pieces ':' s
    let piece (t : List Char) : Option Nat :=
      if 4 < t.length then none else Decimal.digits? Decimal.hexDigit? 16 t
    match isLast, texts.getLast? with
    | true, some last =>
      if last.contains '.' then do
        let front ← texts.dropLast.mapM piece
        match ← (Text.pieces '.' last).mapM byte? with
        | [a, b, c, d] => return front ++ [a * 256 + b, c * 256 + d]
        | _ => none
      else texts.mapM piece
    | _, _ => texts.mapM piece

/-- The eight pieces of an address. Two colons stand for the zeros that are left out. -/
def ipv6? (s : List Char) : Option (List Nat) :=
  match Text.splitAtText [':', ':'] s with
  | none => do
    let pieces ← side? s true
    if pieces.length = 8 then some pieces else none
  | some (front, back) => do
    let front ← side? front false
    let back ← side? back true
    let known := front.length + back.length
    if known < 8 then some (front ++ List.replicate (8 - known) 0 ++ back) else none

/-- The length of the run of zeros at the front. -/
def zeros (pieces : List Nat) : Nat :=
  (pieces.takeWhile (· == 0)).length

/-- Where the first longest run of zeros begins, and its length. -/
def longestZeros (pieces : List Nat) : Nat × Nat :=
  (List.range pieces.length).foldl (fun (place, length) index =>
    let here := zeros (pieces.drop index)
    if length < here then (index, here) else (place, length)) (0, 0)

def hexText (n : Nat) : String :=
  String.ofList (Nat.toDigits 16 n)

/-- An address with its longest run of at least two zeros left out. -/
def ipv6Text (pieces : List Nat) : String :=
  let (place, length) := longestZeros pieces
  let join (ps : List Nat) := ":".intercalate (ps.map hexText)
  if length < 2 then join pieces
  else join (pieces.take place) ++ "::" ++ join (pieces.drop (place + length))

/-! ## Reading and writing -/

/-- The host in brackets or the host that `other` reads. -/
def bracketed? (s : List Char) (other : List Char → Option Host) : Option Host :=
  match s with
  | '[' :: rest =>
    if rest.getLast? = some ']' then (ipv6? rest.dropLast).map .ipv6 else none
  | _ => other s

/-- The host of a URL of the web. It is never empty. -/
def ofWeb? (s : List Char) : Option Host :=
  bracketed? s fun s => do
    let name ← Domain.toAscii (Text.decodeLossy (Percent.decode s)).toList
    if name.isEmpty ∨ name.any Domain.isForbidden then none
    else if endsInNumber name then (ipv4? name).map .ipv4
    else return .domain (String.ofList name)

/-- The host of any other URL, which is kept as it is. -/
def ofOther? (s : List Char) : Option Host :=
  bracketed? s fun s =>
    if s.any fun c =>
        c == '\x00' || (c != '%' && !Percent.inControls c && Domain.isForbidden c) then none
    else some (.domain (String.ofList (Percent.encode Percent.inControls s)))

def text : Host → String
  | .domain name => name
  | .ipv4 address => ipv4Text address
  | .ipv6 pieces => "[" ++ ipv6Text pieces ++ "]"

end Host

end SoapKit.Url
