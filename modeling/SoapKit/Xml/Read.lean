import SoapKit.Xml.Lenient
import SoapKit.Xml.Strict

/-!
# Reading documents

A document is read in one of two dialects. A blank text is refused as empty in both of them.
-/

namespace SoapKit.Xml

/-- How much a reader demands of a text. -/
inductive Dialect where
  | lenient
  | strict
  deriving Repr, DecidableEq, Inhabited

/-- Reads a document. -/
def Document.read (dialect : Dialect) (text : String) : Except ParseError Document :=
  if Text.isAllBlank text then .error .empty
  else match dialect with
    | .lenient => Lenient.read text.toList
    | .strict => Strict.read text.toList

/-- Reads a document from bytes in UTF-8. -/
def Document.readBytes (dialect : Dialect) (bytes : ByteArray) : Except ParseError Document :=
  match String.fromUTF8? bytes with
  | some text => Document.read dialect text
  | none => .error .encoding

end SoapKit.Xml
