import SoapKit.Rust.Code
import SoapKit.Wsdl.Schema

/-!
# Records

What a client holds for a complex type: a record type with a field for each attribute and element,
and a function that writes values of it. Fields of elements whose type is complex refer to another
record by its position among all of them.
-/

namespace SoapKit.Client

open Rust (Ident Ty)
open Wsdl (QName)

/-- The type of a value without elements in it. -/
inductive ValueType where
  | primitive (name : String)
  | text
  | list (item : ValueType)
  deriving Repr, DecidableEq, Inhabited

/-- How a value is written. -/
inductive ValueKind where
  /-- As text, for which encoded messages announce a type. -/
  | simple (type : ValueType) (announced : Option QName)
  /-- By the function of the record at a position. -/
  | complex (index : Nat) (record writer : Ident)
  deriving Repr, DecidableEq, Inhabited

/-- Whether a field has one value, may have one, or has any number. -/
inductive Wrapper where
  | one
  | option
  | many
  deriving Repr, DecidableEq, Inhabited

/-- What a field holds. -/
inductive FieldSource where
  | attribute (xmlName : String) (type : ValueType) (isRequired : Bool)
  /-- The text of a type with simple content. -/
  | value (type : ValueType)
  | element (xmlName : String) (kind : ValueKind) (wrapper : Wrapper)
  deriving Repr, DecidableEq, Inhabited

/-- A field of a record. -/
structure Field where
  ident : Ident
  source : FieldSource
  deriving Repr, DecidableEq, Inhabited

/-- A complex type under the name that it has or that the element around it has. -/
structure Record where
  name : QName
  isAnonymous : Bool
  type : Wsdl.ComplexType

/-- A record with the names of its type and its function, and with its fields once they are known.
-/
structure Layout where
  record : Record
  ident : Ident
  writer : Ident
  fields : List Field

namespace ValueType

/-- The type of a value that is kept. -/
def owned : ValueType → Ty
  | .primitive name => .single name
  | .text => .single "String"
  | .list item => .of "Vec" [item.owned]

/-- The type of a value that is handed over. -/
def borrowed : ValueType → Ty
  | .primitive name => .ref false (.single name)
  | .text => .ref false (.single "str")
  | .list item => .ref false (.slice item.owned)

end ValueType

namespace ValueKind

def owned : ValueKind → Ty
  | .simple type _ => type.owned
  | .complex _ record _ => .single record.text

def borrowed : ValueKind → Ty
  | .simple type _ => type.borrowed
  | .complex _ record _ => .ref false (.single record.text)

end ValueKind

namespace FieldSource

/-- The record that a field holds as part of its own record, and not in a list. -/
def held? : FieldSource → Option Nat
  | .element _ (.complex index _ _) .one | .element _ (.complex index _ _) .option => some index
  | _ => none

end FieldSource

end SoapKit.Client
