import SoapKit.OrderedMap
import SoapKit.Soap.Endpoint
import SoapKit.Wsdl.QName

/-!
# Services

What a service description says about calls: messages and the interfaces that exchange them,
bindings of interfaces to a version of the protocol, and the endpoints where bindings are served.
-/

namespace SoapKit.Wsdl

/-- What a part of a message is declared as. -/
inductive PartReference where
  | type (name : QName)
  | element (name : QName)
  deriving Repr, DecidableEq, Inhabited

def PartReference.name : PartReference → QName
  | .type name => name
  | .element name => name

/-- A part of a message. -/
structure Part where
  name : String
  reference : PartReference
  deriving Repr, DecidableEq, Inhabited

/-- A message. -/
structure Message where
  name : QName
  parts : List Part
  deriving Repr, DecidableEq, Inhabited

/-- An operation and the messages that it exchanges. -/
structure Operation where
  name : String
  documentation : Option String
  input : Option QName
  output : Option QName
  faults : List QName
  deriving Repr, DecidableEq, Inhabited

/-- A set of operations. -/
structure Interface where
  name : QName
  operations : OrderedMap String Operation
  deriving Repr, DecidableEq, Inhabited

/-- Whether the body of a message is a call with parameters or a document. -/
inductive Style where
  | rpc
  | document
  deriving Repr, DecidableEq, Inhabited

/-- The style with a name; everything else means documents. -/
def Style.ofText (text : String) : Style :=
  if text = "rpc" then .rpc else .document

/-- Whether values carry their types along. -/
inductive Use where
  | literal
  | encoded
  deriving Repr, DecidableEq, Inhabited

/-- How one section of a message is written. -/
structure Section where
  name : String
  usage : Use
  encodingStyle : Option String
  uri : Option String
  deriving Repr, DecidableEq, Inhabited

/-- Whether the values of a section carry their types along. -/
def Section.isEncoded (part : Section) : Bool :=
  part.usage == .encoded || part.encodingStyle == some Soap.encodingNamespace

/-- An operation as a binding writes it. -/
structure Action where
  name : String
  soapAction : String
  style : Option Style
  input : OrderedMap String Section
  output : OrderedMap String Section
  deriving Repr, DecidableEq, Inhabited

/-- A binding of an interface to a version of the protocol. -/
structure Binding where
  name : QName
  interface : QName
  version : Soap.Version
  style : Style
  transport : Option String
  actions : OrderedMap String Action
  deriving Repr, DecidableEq, Inhabited

/-- The style of an action, which is its binding's unless it has one of its own. -/
def Binding.styleOf (binding : Binding) (action : Action) : Style :=
  action.style.getD binding.style

/-- Where a binding is served. -/
structure Endpoint where
  service : QName
  name : String
  binding : QName
  location : String
  version : Soap.Version
  deriving Repr, DecidableEq, Inhabited

end SoapKit.Wsdl
