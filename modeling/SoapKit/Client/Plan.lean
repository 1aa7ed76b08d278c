import SoapKit.Client.Error
import SoapKit.Naming.Case
import SoapKit.Naming.Fresh
import SoapKit.Wsdl.Definitions

/-!
# Plans of clients

The plan of a client joins a binding with the interface that it binds and the messages that this
exchanges: for each operation, the method to write, what is sent, and under which name.
-/

namespace SoapKit.Client

open Naming (FreshNames)
open Wsdl (QName Definitions)

/-- Where the root of a request takes its name from. -/
inductive RootName where
  /-- The operation's name in a namespace. -/
  | qualified (name : QName)
  /-- The operation's name as it stands. -/
  | plain
  deriving Repr, DecidableEq

/-- What a method of the client does. -/
structure PlannedOperation where
  name : String
  method : String
  soapAction : String
  root : RootName
  /-- The encoding style that the root of an encoded request announces. -/
  encodingStyle : Option String
  documentation : Option String
  parts : List Wsdl.Part
  hasOutput : Bool
  deriving Repr, DecidableEq

/-- A client to write. -/
structure Plan where
  name : String
  location : String
  version : Soap.Version
  isEncoded : Bool
  operations : List PlannedOperation
  deriving Repr, DecidableEq

namespace Plan

/-! ## Method names -/

/-- The verbs of methods that only read. -/
def readingVerbs : List String := ["get", "find", "select", "fetch"]

/-- What follows the last slash or hash sign. -/
def lastSegment (s : List Char) : List Char :=
  (s.reverse.takeWhile fun c => c != '/' && c != '#').reverse

/-- The name of a method: the action after its last slash or hash sign, or else the operation's
name. Methods that do not begin with a reading verb are marked. -/
def methodName (soapAction operation : String) : String :=
  let segment := lastSegment soapAction.toList
  let name := Naming.underscore (if segment.isEmpty then operation else String.ofList segment)
  let verb := String.ofList (name.toList.takeWhile (· ≠ '_'))
  if readingVerbs.contains verb then name else name ++ "_mut"

/-! ## Bodies -/

/-- The section of a message that holds its body. -/
def body? (sections : OrderedMap String Wsdl.Section) : Option Wsdl.Section :=
  sections.get? "body"

/-- Whether the bodies of requests are encoded; they have to agree. -/
def isEncoded? (binding : Wsdl.Binding) : Except Error Bool :=
  let uses := binding.actions.values.filterMap fun action => (body? action.input).map (·.isEncoded)
  match uses with
  | [] => .ok false
  | first :: rest =>
    if rest.all (· == first) then .ok first else .error (.mixedEncoding binding.name.base)

/-- The namespace of a request's root: that of the input body, or else of the output body. -/
def bodyUri (action : Wsdl.Action) : Option String :=
  ((body? action.input).bind (·.uri)).or ((body? action.output).bind (·.uri))

/-! ## Operations -/

def message (defs : Definitions) (name : QName) : Except Error Wsdl.Message :=
  match defs.messages.get? name with
  | some message => .ok message
  | none => .error (.unknownMessage name.text)

def partsOf (defs : Definitions) : Option QName → Except Error (List Wsdl.Part)
  | some name => do return (← message defs name).parts
  | none => .ok []

def operationNamed (interface : Wsdl.Interface) (name : String) : Except Error Wsdl.Operation :=
  match interface.operations.get? name with
  | some operation => .ok operation
  | none => .error (.unknownOperation interface.name.text name)

def interfaceOf (defs : Definitions) (binding : Wsdl.Binding) : Except Error Wsdl.Interface :=
  match defs.interfaces.get? binding.interface with
  | some interface => .ok interface
  | none => .error (.unknownInterface binding.interface.text)

/-- The plan of one action, with the names of methods taken so far. The message that comes back has
to be there, although nothing is taken from it. -/
def planOperation (defs : Definitions) (binding : Wsdl.Binding) (interface : Wsdl.Interface)
    (methods : FreshNames) (action : Wsdl.Action) :
    Except Error (PlannedOperation × FreshNames) := do
  let operation ← operationNamed interface action.name
  let parts ← partsOf defs operation.input
  let _ ← partsOf defs operation.output
  let (method, methods) := methods.allocate (methodName action.soapAction action.name)
  let encodingStyle := ((body? action.input).filter (·.isEncoded)).map fun body =>
    body.encodingStyle.getD Soap.encodingNamespace
  return ({
    name := action.name
    method
    soapAction := action.soapAction
    root := match binding.styleOf action with
      | .rpc => .qualified ⟨bodyUri action, action.name⟩
      | .document => .plain
    encodingStyle
    documentation := operation.documentation
    parts
    hasOutput := operation.output.isSome }, methods)

def planOperations (defs : Definitions) (binding : Wsdl.Binding) (interface : Wsdl.Interface) :
    FreshNames → List Wsdl.Action → Except Error (List PlannedOperation)
  | _, [] => .ok []
  | methods, action :: rest => do
    let (planned, methods) ← planOperation defs binding interface methods action
    return planned :: (← planOperations defs binding interface methods rest)

/-- The plan of a client for a binding. A binding that is served nowhere leaves the location
empty. -/
def ofBinding (defs : Definitions) (binding : Wsdl.Binding) (name : String) :
    Except Error Plan := do
  let interface ← interfaceOf defs binding
  let isEncoded ← isEncoded? binding
  let operations ← planOperations defs binding interface .empty binding.actions.values
  let (location, version) := match (defs.endpointsFor binding.name).head? with
    | some endpoint => (endpoint.location, endpoint.version)
    | none => ("", binding.version)
  return { name, location, version, isEncoded, operations }

end Plan

end SoapKit.Client
