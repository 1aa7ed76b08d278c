/-!
# Why no client can be written

A description can be read and still not say enough for a client, or say something that a client
cannot express.
-/

namespace SoapKit.Client

/-- Why a client could not be written. -/
inductive Error where
  | notSupported (construct name : String)
  | mixedEncoding (binding : String)
  | noBinding
  | unknownBinding (name : String)
  | unknownInterface (name : String)
  | unknownOperation (interface operation : String)
  | unknownMessage (name : String)
  | unknownType (name : String)
  | unknownElement (name : String)
  | unknownAttribute (name : String)
  | unknownAttributeGroup (name : String)
  /-- The name of a type has characters that no function can have in its name. -/
  | unwritableName (name : String)
  deriving Repr, DecidableEq

def Error.message : Error → String
  | .notSupported construct name => construct ++ " is not supported (in " ++ name ++ ")"
  | .mixedEncoding binding => "Binding " ++ binding ++ " mixes encoded and literal operations"
  | .noBinding => "The WSDL has no SOAP binding"
  | .unknownBinding name => "Unknown binding: " ++ name
  | .unknownInterface name => "Unknown port type: " ++ name
  | .unknownOperation interface operation =>
    "Port type " ++ interface ++ " has no operation " ++ operation
  | .unknownMessage name => "Unknown message: " ++ name
  | .unknownType name => "Unknown complex type: " ++ name
  | .unknownElement name => "Unknown element: " ++ name
  | .unknownAttribute name => "Unknown attribute: " ++ name
  | .unknownAttributeGroup name => "Unknown attribute group: " ++ name
  | .unwritableName name => "Name cannot be written: " ++ name

end SoapKit.Client
