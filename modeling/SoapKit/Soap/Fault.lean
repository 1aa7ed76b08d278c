import SoapKit.Soap.Endpoint
import SoapKit.Xml.Path.Compile

/-!
# Faults

A fault is an element of the envelope's body. The newer version of the protocol holds its code and
its reason in elements of the envelope's namespace, the older one in plain elements; the newer form
is looked for first, whatever the version.
-/

namespace SoapKit.Soap

open Xml (Document Node)
open Xml.Path (QueryError)

/-- A fault that a service answers with. Details are documents of their own. -/
structure Fault where
  code : String
  reason : String
  details : List Document
  deriving DecidableEq

/-- A fault for people to read. -/
def Fault.display (f : Fault) : String :=
  "SOAP fault " ++ f.code ++ ": " ++ f.reason

/-- The qualifier for the envelope's namespace in the expressions below. -/
def envelopeBindings (version : Version) : Xml.Path.Bindings :=
  [("env", version.envelopeNamespace)]

/-- Where faults are in an envelope. -/
def faultPath : String := "/env:Envelope/env:Body/descendant-or-self::env:Fault"

/-- Where the code is in a fault of the newer form. -/
def codePath : String := "./env:Code/env:Value"

/-- Where the reason is in a fault of the newer form. -/
def reasonPath : String := "./env:Reason/env:Text[1]"

/-- The text of the first node that an expression selects, without the blanks around it. -/
def firstText (d : Document) (n : Node) (version : Version) (expression : String) :
    Except QueryError String := do
  let found ← d.query n expression (envelopeBindings version)
  return ((found.head?.map fun f => Text.trimmed (d.text f)).getD "")

/-- The text of the first child element of a name, in any namespace. -/
def childText (d : Document) (n : Node) (name : String) : String :=
  (((d.childElements n).find? (d.nameOf · == name)).map fun c => Text.trimmed (d.text c)).getD ""

/-- The elements inside of the children that hold details. -/
def detailElements (d : Document) (n : Node) : List Node :=
  ((d.childElements n).filter fun c => d.nameOf c == "detail" || d.nameOf c == "Detail").flatMap
    d.childElements

/-- Reads a fault from a node. -/
def Fault.ofNode (d : Document) (n : Node) (version : Version) : Except QueryError Fault := do
  let code ← firstText d n version codePath
  let code := if code.isEmpty then childText d n "faultcode" else code
  let reason ← firstText d n version reasonPath
  let reason := if reason.isEmpty then childText d n "faultstring" else reason
  return ⟨code, reason, (detailElements d n).map d.subtree⟩

/-- The first fault in an envelope of a version. -/
def Fault.detect (d : Document) (version : Version) : Except QueryError (Option Fault) := do
  let found ← d.query Document.root faultPath (envelopeBindings version)
  match found with
  | n :: _ => some <$> Fault.ofNode d n version
  | [] => return none

end SoapKit.Soap
