import SoapKit.Decimal.Integer
import SoapKit.Text.Split

/-!
# Character references and escaping

Five characters have names in XML. Written text replaces exactly these by their names; read text may
also refer to any character by its number.
-/

namespace SoapKit.Xml

/-- The five characters with names. -/
def namedCharacters : List (String × Char) :=
  [("lt", '<'), ("gt", '>'), ("amp", '&'), ("apos", '\''), ("quot", '"')]

/-- The reference to a character, or the character itself when it has no name. -/
def escapeChar (c : Char) : List Char :=
  match namedCharacters.find? (·.2 == c) with
  | some (name, _) => '&' :: name.toList ++ [';']
  | none => [c]

/-- Text with the five named characters replaced by references. -/
def escape (s : List Char) : List Char :=
  s.flatMap escapeChar

def escaped (s : String) : String :=
  String.ofList (escape s.toList)

/-- A character by its number, which has to be that of a character. -/
def charOfNumber? (n : Nat) : Option Char :=
  if n = 0 then none
  else if h : n.isValidChar then some ⟨n.toUInt32, by
    have hn : n < UInt32.size := by
      rcases h with h | h <;> simp only [UInt32.size] <;> omega
    simpa [UInt32.isValidChar, Nat.toUInt32, UInt32.toNat_ofNat_of_lt' hn] using h⟩
  else none

/-- The character that a reference names between its ampersand and its semicolon. A number has at
most seven decimal or six hexadecimal digits, and no digits stand for zero. -/
def referenced? (name : List Char) : Option Char :=
  match name with
  | '#' :: 'x' :: digits =>
    if digits.length > 6 then none
    else (Decimal.foldDigits Decimal.hexDigit? 16 0 digits).bind charOfNumber?
  | '#' :: digits =>
    if digits.length > 7 then none
    else (Decimal.foldDigits Decimal.digit? 10 0 digits).bind charOfNumber?
  | _ => (namedCharacters.find? (·.1.toList == name)).map (·.2)

/-- Replaces references by their characters. An ampersand has to start a reference that ends in a
semicolon before the next ampersand. -/
def unescape : List Char → Option (List Char)
  | [] => some []
  | '&' :: rest =>
    let name := rest.takeWhile fun c => c != ';' && c != '&'
    match _hrest : rest.dropWhile fun c => c != ';' && c != '&' with
    | ';' :: after => do
      let c ← referenced? name
      return c :: (← unescape after)
    | _ => none
  | c :: rest => do return c :: (← unescape rest)
termination_by s => s.length
decreasing_by
  · have := congrArg List.length _hrest
    have hle : (rest.dropWhile fun c => c != ';' && c != '&').length ≤ rest.length :=
      List.IsSuffix.length_le (List.dropWhile_suffix _)
    simp only [List.length_cons] at this ⊢
    omega
  · simp

end SoapKit.Xml
