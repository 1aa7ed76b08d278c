import SoapKit.Calendar
import SoapKit.Decimal.Shortest

/-!
# Values of elements and attributes

What may be written as the text of an element or of an attribute. A value that is absent has no text
at all, which differs from an empty text.
-/

namespace SoapKit.Xml

/-- A value to be written. -/
inductive Value where
  | absent
  | text (s : String)
  | bool (b : Bool)
  | integer (n : Int)
  /-- A floating-point number by its bits. -/
  | float (format : Decimal.BinaryFormat) (bits : Nat)
  | char (c : Char)
  | date (d : Calendar.Date)
  | dateTime (t : Calendar.DateTime)
  /-- Values separated by spaces. -/
  | list (values : List Value)
  deriving Inhabited

/-- The text of a value. A list leaves out its absent members and is never absent itself. -/
def Value.lexical? : Value → Option String
  | .absent => none
  | .text s => some s
  | .bool b => some (if b then "true" else "false")
  | .integer n => some (toString n)
  | .float format bits => some (format.text bits)
  | .char c => some (String.singleton c)
  | .date d => some d.text
  | .dateTime t => some t.text
  | .list values => some (String.intercalate " " (present values))
where
  /-- The texts of those values that have one. -/
  present : List Value → List String
    | [] => []
    | value :: rest =>
      match value.lexical? with
      | some s => s :: present rest
      | none => present rest

end SoapKit.Xml
