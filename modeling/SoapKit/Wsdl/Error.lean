import SoapKit.Xml.Error

/-!
# What can go wrong with a description

A description may be out of reach, or say something that cannot be read.
-/

namespace SoapKit.Wsdl

/-- Why a single document could not be fetched. -/
inductive FetchError where
  | unreadable
  | unsupportedScheme (scheme : String)
  | notFound
  | notLocal
  | malformed (cause : Xml.ParseError)
  deriving Repr, DecidableEq

def FetchError.message : FetchError → String
  | .unreadable => "Unable to open file"
  | .unsupportedScheme scheme => "Unsupported URL scheme " ++ scheme
  | .notFound => "No such resource"
  | .notLocal => "URL does not name a local file"
  | .malformed _ => "Error parsing XML input"

/-- Why a description could not be read. -/
inductive Error where
  | malformedUrl
  | unknownPath
  | fetch (url : String) (cause : FetchError)
  /-- A construct that is not understood, and the declaration it stands in. -/
  | notSupported (construct name : String)
  | missingAttribute (element name : String)
  | undefinedQualifier (reference : String)
  | invalidGroupReference (reference : String)
  deriving Repr, DecidableEq

def Error.message : Error → String
  | .malformedUrl => "Unable to parse provided URL"
  | .unknownPath => "Unable to convert provided path"
  | .fetch url _ => "Unable to fetch " ++ url
  | .notSupported construct name => construct ++ " is not supported (in " ++ name ++ ")"
  | .missingAttribute element name => "<" ++ element ++ "> is missing the " ++ name ++ " attribute"
  | .undefinedQualifier reference => "Undefined namespace prefix in " ++ reference
  | .invalidGroupReference reference =>
    "Group reference " ++ reference ++ " must not define content"

end SoapKit.Wsdl
