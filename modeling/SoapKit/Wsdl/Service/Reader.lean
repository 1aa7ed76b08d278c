import SoapKit.Wsdl.Collection
import SoapKit.Wsdl.Schema.Reader

/-!
# Reading services

The messages, interfaces, bindings and endpoints of a service description. Bindings and endpoints
that do not use this protocol in either version are passed over.
-/

namespace SoapKit.Wsdl.Reader

open Xml (Document Node)

/-- The versions of the protocol with the namespaces in which bindings to them are described, in the
order in which they are looked for. -/
def bindingNamespaces : List (String × Soap.Version) :=
  [("http://schemas.xmlsoap.org/wsdl/soap/", .soap11),
    ("http://schemas.xmlsoap.org/wsdl/soap12/", .soap12)]

/-- The children of a node with a name in the namespace of descriptions. -/
def named (r : Reader) (n : Node) (name : String) : List Node :=
  r.document.childrenNamed n wsdlNamespace name

/-- A part of a message. A type goes before an element. -/
def part (r : Reader) (n : Node) : Except Error Part := do
  let reference ← match r.value? n "type", r.value? n "element" with
    | some type, _ => PartReference.type <$> r.resolve n type
    | none, some element => PartReference.element <$> r.resolve n element
    | none, none => throw (r.missing n "type")
  return ⟨← r.required n "name", reference⟩

def message (r : Reader) (n : Node) : Except Error Message := do
  let name ← r.declared n
  return ⟨name, ← (r.named n "part").mapM r.part⟩

/-- The message that a part of an operation refers to. -/
def messageReference (r : Reader) (n : Node) : Except Error QName := do
  r.resolve n (← r.required n "message")

/-- Puts what a child of an operation says into it. -/
def addToOperation (r : Reader) (operation : Operation) (n : Node) : Except Error Operation := do
  match r.document.nameOf n with
  | "documentation" =>
    let text := Text.trimmed (r.document.text n)
    return { operation with documentation := if text.isEmpty then none else some text }
  | "input" => return { operation with input := some (← r.messageReference n) }
  | "output" => return { operation with output := some (← r.messageReference n) }
  | "fault" => return { operation with faults := operation.faults ++ [← r.messageReference n] }
  | _ => return operation

def operation (r : Reader) (n : Node) : Except Error Operation := do
  let name ← r.required n "name"
  (r.document.childrenIn n wsdlNamespace).foldlM r.addToOperation ⟨name, none, none, none, []⟩

def interface (r : Reader) (n : Node) : Except Error Interface := do
  let name ← r.declared n
  let operations ← (r.named n "operation").mapM r.operation
  return ⟨name, OrderedMap.ofList (operations.map fun operation => (operation.name, operation))⟩

/-- How a section of a message is written. -/
def sectionOf (r : Reader) (n : Node) : Section :=
  { name := r.document.nameOf n
    usage := if r.value? n "use" = some "encoded" then .encoded else .literal
    encodingStyle := r.value? n "encodingStyle"
    uri := r.value? n "namespace" }

/-- The sections of the message that an operation sends in one direction. -/
def sections (r : Reader) (n : Node) (uri direction : String) : OrderedMap String Section :=
  match r.document.childNamed? n wsdlNamespace direction with
  | some message =>
    OrderedMap.ofList ((r.document.childrenIn message uri).map fun part =>
      (r.document.nameOf part, r.sectionOf part))
  | none => .empty

/-- An operation of a binding, whose details are in the namespace `uri`. -/
def action (r : Reader) (uri : String) (n : Node) : Except Error Action := do
  let name ← r.required n "name"
  let details := r.document.childNamed? n uri "operation"
  return {
    name
    soapAction := (details.bind (r.value? · "soapAction")).getD ""
    style := (details.bind (r.value? · "style")).map Style.ofText
    input := r.sections n uri "input"
    output := r.sections n uri "output" }

/-- The binding that a node declares, unless it is not for this protocol. -/
def binding (r : Reader) (n : Node) : Except Error (Option Binding) := do
  let name ← r.declared n
  let interface ← r.resolve n (← r.required n "type")
  let found := bindingNamespaces.findSome? fun (uri, version) =>
    (r.document.childNamed? n uri "binding").map fun details => (uri, version, details)
  match found with
  | none => return none
  | some (uri, version, details) =>
    let actions ← (r.named n "operation").mapM (r.action uri)
    return some {
      name, interface, version
      style := ((r.value? details "style").map Style.ofText).getD .document
      transport := r.value? details "transport"
      actions := OrderedMap.ofList (actions.map fun action => (action.name, action)) }

/-- The endpoint that a node declares, unless it is not for this protocol. -/
def endpoint (r : Reader) (service : QName) (n : Node) : Except Error (Option Endpoint) := do
  let name ← r.required n "name"
  let binding ← r.resolve n (← r.required n "binding")
  return bindingNamespaces.findSome? fun (uri, version) => do
    let address ← r.document.childNamed? n uri "address"
    let location ← r.value? address "location"
    return ⟨service, name, binding, location, version⟩

/-- The endpoints of the service that a node declares. -/
def service (r : Reader) (n : Node) : Except Error (List Endpoint) := do
  let name ← r.declared n
  return (← (r.named n "port").mapM (r.endpoint name)).filterMap id

/-- What a child of a service description declares. -/
def serviceDeclaration (r : Reader) (n : Node) : Except Error (List Declaration) := do
  match r.document.nameOf n with
  | "message" => return [.message (← r.message n)]
  | "portType" => return [.interface (← r.interface n)]
  | "binding" => return (← r.binding n).toList.map .binding
  | "service" => return (← r.service n).map .endpoint
  | _ => return []

/-- The declarations of a service description in document order, those of schemas in it apart. -/
def serviceDeclarations (r : Reader) (top : Node) : Except Error (List Declaration) := do
  return (← (r.document.childrenIn top wsdlNamespace).mapM r.serviceDeclaration).flatten

end SoapKit.Wsdl.Reader
