import SoapKit.Xml.Name

/-!
# Endpoints

Where a service is reached and in which version of the protocol, and what the header that names a
call's action holds.
-/

namespace SoapKit.Soap

/-- The versions of the protocol. -/
inductive Version where
  | soap11
  | soap12
  deriving Repr, DecidableEq, Inhabited

def Version.envelopeNamespace : Version → String
  | .soap11 => "http://schemas.xmlsoap.org/soap/envelope/"
  | .soap12 => "http://www.w3.org/2003/05/soap-envelope"

def Version.contentType : Version → String
  | .soap11 => "text/xml;charset=UTF-8"
  | .soap12 => "application/soap+xml;charset=UTF-8"

/-- The namespace of encoded values. -/
def encodingNamespace : String := "http://schemas.xmlsoap.org/soap/encoding/"

/-- The namespace of schemas and of their built-in types. -/
def schemaNamespace : String := "http://www.w3.org/2001/XMLSchema"

/-- The namespace of schema attributes in documents. -/
def instanceNamespace : String := "http://www.w3.org/2001/XMLSchema-instance"

/-- Where and how a service is reached. -/
structure Endpoint where
  uri : String
  version : Version
  deriving Repr, DecidableEq, Inhabited

/-- The same endpoint at another address. -/
def Endpoint.moved (e : Endpoint) (uri : String) : Endpoint :=
  { e with uri }

/-- What the action header of a request holds. -/
inductive ActionHeader where
  /-- The action's name without its qualifier. -/
  | auto
  /-- There is no header. -/
  | absent
  | literal (value : String)
  deriving Repr, DecidableEq, Inhabited

/-- What comes after the last colon of a text, or all of it when there is none. -/
def afterLastColon (s : List Char) : List Char :=
  (s.reverse.takeWhile (· != ':')).reverse

/-- The value of the header for an action. -/
def ActionHeader.resolve (header : ActionHeader) (action : String) : Option String :=
  match header with
  | .auto => some (String.ofList (afterLastColon action.toList))
  | .absent => none
  | .literal value => some value

end SoapKit.Soap
