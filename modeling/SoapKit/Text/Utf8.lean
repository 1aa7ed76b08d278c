/-!
# Bytes as text

Bytes are read as UTF-8 in two ways: either all of them have to be well formed, or every longest
ill-formed piece that could have begun a character stands for one replacement character.
-/

namespace SoapKit

abbrev Bytes := List UInt8

namespace Text

/-- The bytes of a text. -/
def encode (s : String) : Bytes :=
  s.toUTF8.toList

/-- The text of well-formed bytes. -/
def decode? (bytes : Bytes) : Option String :=
  String.fromUTF8? ⟨bytes.toArray⟩

/-- What a byte says when it stands where a character may begin. -/
inductive Lead where
  | whole (c : Char)
  /-- The bits so far, and the ranges that the following bytes have to lie in. -/
  | begun (bits : Nat) (ranges : List (Nat × Nat))
  | ill
  deriving Repr, DecidableEq

/-- The range of a byte that goes on with a character. -/
def continuation : Nat × Nat := (0x80, 0xBF)

/-- What a byte says about the character it begins. Ranges rule out overlong forms, surrogates and
numbers beyond the last character. -/
def lead (byte : UInt8) : Lead :=
  let b := byte.toNat
  if b < 0x80 then .whole (Char.ofNat b)
  else if b < 0xC2 then .ill
  else if b < 0xE0 then .begun (b - 0xC0) [continuation]
  else if b = 0xE0 then .begun (b - 0xE0) [(0xA0, 0xBF), continuation]
  else if b = 0xED then .begun (b - 0xE0) [(0x80, 0x9F), continuation]
  else if b < 0xF0 then .begun (b - 0xE0) [continuation, continuation]
  else if b = 0xF0 then .begun (b - 0xF0) [(0x90, 0xBF), continuation, continuation]
  else if b < 0xF4 then .begun (b - 0xF0) [continuation, continuation, continuation]
  else if b = 0xF4 then .begun (b - 0xF0) [(0x80, 0x8F), continuation, continuation]
  else .ill

/-- The character that stands for ill-formed bytes. -/
def replacement : Char := '\uFFFD'

/-- Reads bytes, with a character begun before them if there is one. A byte that does not go on with
a begun character is looked at again as a beginning. -/
def decodeFrom : Option (Nat × List (Nat × Nat)) → Bytes → List Char
  | none, [] => []
  | some _, [] => [replacement]
  | some (bits, (low, high) :: ranges), byte :: rest =>
    if low ≤ byte.toNat ∧ byte.toNat ≤ high then
      let bits := bits * 64 + (byte.toNat - 0x80)
      if ranges.isEmpty then Char.ofNat bits :: decodeFrom none rest
      else decodeFrom (some (bits, ranges)) rest
    else
      replacement :: match lead byte with
        | .whole c => c :: decodeFrom none rest
        | .begun bits ranges => decodeFrom (some (bits, ranges)) rest
        | .ill => replacement :: decodeFrom none rest
  | _, byte :: rest =>
    match lead byte with
    | .whole c => c :: decodeFrom none rest
    | .begun bits ranges => decodeFrom (some (bits, ranges)) rest
    | .ill => replacement :: decodeFrom none rest

/-- The text of any bytes. -/
def decodeLossy (bytes : Bytes) : String :=
  String.ofList (decodeFrom none bytes)

end Text

end SoapKit
