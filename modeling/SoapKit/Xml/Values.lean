import SoapKit.Calendar
import SoapKit.Decimal.Binary
import SoapKit.Xml.Document

/-!
# Typed values of nodes

The string value of a node, without the blanks around it, read as a value of a type. Text of another
form is no value.
-/

namespace SoapKit.Xml.Document

/-- The string value without the blanks around it. -/
def lexical (d : Document) (n : Node) : List Char :=
  Text.trim (d.text n).toList

def intValue (d : Document) (n : Node) : Option Int :=
  Decimal.int64? (d.lexical n)

/-- The bits of a 64-bit floating-point number. -/
def floatBits (d : Document) (n : Node) : Option Nat :=
  Decimal.double.read? (d.lexical n)

/-- A truth value, written as a word or as a digit. -/
def boolValue (d : Document) (n : Node) : Option Bool :=
  match String.ofList (d.lexical n) with
  | "true" | "1" => some true
  | "false" | "0" => some false
  | _ => none

/-- A date and time. A date by itself stands for its midnight in universal time. -/
def dateValue (d : Document) (n : Node) : Option Calendar.DateTime :=
  let s := d.lexical n
  match Calendar.DateTime.read? s with
  | some t => some t
  | none => (Calendar.Date.read? s).map (·.midnight)

end SoapKit.Xml.Document
