import SoapKit.Text.Split

/-!
# Words in names

Names from schemas come in camel case or with marks between words. They are turned into words joined
by underscores, and into capitalised words without marks. Both look at ASCII letters only.
-/

namespace SoapKit.Naming

/-- Whether a word begins at a capital letter after `previous` and before `next`: after a small
letter or a digit, and at the last letter of a run of capitals that a small letter follows. -/
def startsWord (previous next : Option Char) : Bool :=
  match previous with
  | none => false
  | some p => p.isLower || p.isDigit || (p.isUpper && next.any Char.isLower)

/-- A text in small letters with underscores between words. -/
def underscoreFrom (previous : Option Char) : List Char → List Char
  | [] => []
  | c :: rest =>
    let written := if c = '-' then '_' else c.toLower
    if c.isUpper ∧ startsWord previous rest.head? then
      '_' :: written :: underscoreFrom (some c) rest
    else written :: underscoreFrom (some c) rest

/-- A name in small letters with underscores between words. -/
def underscore (name : String) : String :=
  String.ofList (underscoreFrom none name.toList)

def separatesWords (c : Char) : Bool :=
  c == '_' || c == '-' || c == '.'

/-- A name without separators and with a capital letter at the front and after each of them. -/
def camelizeFrom (atStart : Bool) : List Char → List Char
  | [] => []
  | c :: rest =>
    if separatesWords c then camelizeFrom true rest
    else (if atStart then c.toUpper else c) :: camelizeFrom false rest

/-- A name as capitalised words without separators. -/
def camelize (name : String) : String :=
  String.ofList (camelizeFrom true name.toList)

end SoapKit.Naming
