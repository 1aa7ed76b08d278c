import SoapKit.Client.Boxing
import SoapKit.Client.Layouts
import SoapKit.Client.Plan
import SoapKit.Text.Blank
import SoapKit.Text.Upper

/-!
# Source of clients

A client is a constant for the endpoint, a type that holds how to reach it, two methods for each
operation (one that blocks and one that does not), and a record type and a function for each complex
type that is sent. The namespaces that these write are aliased when the client is made.
-/

namespace SoapKit.Client

open Naming (FreshNames)
open Rust (Ident Ty Expr Stmt Param Function Item Path)
open Wsdl (QName)

/-! ## Names that the code refers to -/

/-- A path into the library for calls. -/
def soapPath (names : List String) : Path := .root ("lather_util" :: "soap" :: names)

def soapType (name : String) (args : List Ty) : Ty := .named (soapPath [name]) args

/-- The type of elements that are written to. -/
def elementType : Ty := .root ["lather_util", "Element"]

/-- What blocking methods ask of the transport. -/
def transportPath : Path := .root ["lather_util", "http", "Transport"]

/-- What the other methods ask of the transport. -/
def asyncTransportPath : Path := .root ["lather_util", "http", "AsyncTransport"]

def resultType : Ty :=
  .of "Result" [soapType "SoapResponse" [], .root ["lather_util", "Error"]]

def serviceIdent (name : String) : Ident :=
  Ident.ofName (Naming.camelize name ++ "Service")

def endpointIdent (name : String) : Ident :=
  let capitals := String.ofList (Text.capitals (Naming.underscore name).toList)
  Ident.ofName (capitals ++ "_SERVICE_ENDPOINT")

/-! ## Statements -/

def selfExpr : Expr := .single "self"

/-- An element whose type is announced, as encoded values have it. -/
def announce (target : Expr) (name : QName) : Writing Expr := do
  let key ← xmlName ⟨some Soap.instanceNamespace, "type"⟩
  let value ← xmlName name
  let announced := target.method "set_attr" [.text key, .text value]
  match name.uri with
  | some uri => return announced.method "declare" [.text (← qualifier uri)]
  | none => return announced

/-- Adds an element with a value below another one. -/
def writeValue (s : Setting) (parent : String) (written : String) (kind : ValueKind)
    (value : Expr) :
    Writing Stmt := do
  let added := (Expr.single parent).method "add" [.text written]
  match kind with
  | .simple _ announced =>
    let target ← match announced, s.isEncoded with
      | some name, true => announce added name
      | _, _ => pure added
    return .drop (target.method "set_value" [value])
  | .complex _ _ writer => return .drop (.call (.single writer.text) [added, value])

/-! ## Operations -/

def docsOf (operation : PlannedOperation) : List String :=
  let own := match operation.documentation with
    | some text => (Text.lines text).map fun line => " " ++ Text.trimmed line
    | none => []
  if operation.hasOutput then
    own ++ (if own.isEmpty then [] else [""]) ++
      [" TODO: map the response. It is returned as the raw envelope."]
  else own

/-- The parameters and statements for the parts of a message, with the names of parameters taken so
far. -/
def writeParts (s : Setting) : FreshNames → List Wsdl.Part → Writing (List Param × List Stmt)
  | _, [] => return ([], [])
  | taken, part :: rest => do
    let (written, kind) ← kindOfPart s part
    let (argument, taken) := fieldIdent taken (Naming.underscore part.name)
    let statement ← writeValue s "message" written kind (.single argument.text)
    let (params, statements) ← writeParts s taken rest
    return (.typed argument.text kind.borrowed :: params, statement :: statements)

def writeEncodingStyle (operation : PlannedOperation) : Writing (List Stmt) := do
  match operation.encodingStyle with
  | some style =>
    let key ← xmlName ⟨some Soap.encodingNamespace, "encodingStyle"⟩
    return [.drop ((Expr.single "message").method "set_attr" [.text key, .text style])]
  | none => return []

/-- The names that no parameter of a method gets. -/
def takenByMethods : FreshNames :=
  (FreshNames.empty.reserve "self").reserve "message"

def writeRoot (operation : PlannedOperation) : Writing String :=
  match operation.root with
  | .qualified name => xmlName name
  | .plain => pure operation.name

/-- The two methods of an operation, from the name of the root of a request and the statements that
fill it. -/
def methodsOf (operation : PlannedOperation) (root : String) (params : List Param)
    (statements : List Stmt) : List Function :=
  let message := if statements.isEmpty then "_message" else "message"
  let invoke (name : String) : Expr :=
    (selfExpr.field "dispatcher").method name
      [.ref (selfExpr.field "hooks"), .text root,
        .call (soapPath ["SoapAction", "from"]) [.text operation.soapAction],
        .closure message statements]
  let method (isAsync : Bool) (name : String) (transport : Path) (value : Expr) : Function :=
    { docs := docsOf operation
      isAsync
      name := (Ident.ofName name).text
      typeParams := []
      params := .refSelf :: params
      commaAfterSelf := true
      result := some resultType
      bound := some ("T", transport)
      body := [.value value] }
  [method false operation.method transportPath (invoke "invoke"),
    method true (operation.method ++ "_async") asyncTransportPath (.await (invoke "invoke_async"))]

/-- The methods of an operation, whose parameters are the parts of the message that it sends. -/
def writeOperation (s : Setting) (operation : PlannedOperation) : Writing (List Function) := do
  let root ← writeRoot operation
  let heading ← writeEncodingStyle operation
  let (params, parts) ← writeParts s takenByMethods operation.parts
  return methodsOf operation root params (heading ++ parts)

/-! ## Records -/

/-- A type inside of another one, unless it stands alone. -/
def wrapped (type : Ty) : Wrapper → Ty
  | .one => type
  | .option => .of "Option" [type]
  | .many => .of "Vec" [type]

/-- The type of a field. -/
def fieldType (field : Field) (boxed : Bool) : Ty :=
  match field.source with
  | .attribute _ type isRequired => if isRequired then type.owned else .of "Option" [type.owned]
  | .value type => type.owned
  | .element _ kind wrapper =>
    wrapped (if boxed then .of "Box" [kind.owned] else kind.owned) wrapper

/-- The type of the record at a position. -/
def recordItem (layouts : List Layout) (index : Nat) (layout : Layout) : Item :=
  .record [" Values for `" ++ layout.record.name.text ++ "`."]
    ["Debug", "Clone", "Default", "PartialEq"] layout.ident.text []
    (layout.fields.map fun field =>
      ⟨true, field.ident.text, fieldType field (isBoxed layouts index field)⟩)

/-- The statements for the fields of a record that is in the variable `value`, with the names of
variables taken so far. -/
def writeFields (s : Setting) (value : String) : FreshNames → List Field → Writing (List Stmt)
  | _, [] => return []
  | taken, field :: rest => do
    let content := (Expr.single value).field field.ident.text
    match field.source with
    | .attribute written _ _ =>
      let statement :=
        .drop ((Expr.single "context").method "set_attr" [.text written, .ref content])
      return statement :: (← writeFields s value taken rest)
    | .value _ =>
      let statement := .drop ((Expr.single "context").method "set_value" [.ref content])
      return statement :: (← writeFields s value taken rest)
    | .element written kind .one =>
      let statement ← writeValue s "context" written kind (.ref content)
      return statement :: (← writeFields s value taken rest)
    | .element written kind wrapper =>
      let (item, taken) := fieldIdent taken field.ident.name
      let body ← writeValue s "context" written kind (.single item.text)
      let statement := if wrapper = .many then .forEach item.text (.ref content) [body]
        else .ifSome item.text (.ref content) [body]
      return statement :: (← writeFields s value taken rest)

/-- The statement that announces the type of a record, as encoded messages have it. -/
def writeTypeName (s : Setting) (record : Record) : Writing (List Stmt) :=
  if s.isEncoded ∧ !record.isAnonymous then do
    return [.drop (← announce (.single "context") record.name)]
  else pure []

/-- The function that writes a record into an element. -/
def writerFunction (s : Setting) (layout : Layout) : Writing Function := do
  let (parameter, taken) :=
    (FreshNames.empty.reserve "context").allocate (Naming.underscore layout.ident.name)
  let value := (Ident.ofName parameter).text
  let heading ← writeTypeName s layout.record
  let fields ← writeFields s value taken layout.fields
  let statements := heading ++ fields
  return {
    docs := [" Writes a [`" ++ layout.ident.name ++ "`] into `context`."]
    isAsync := false
    name := layout.writer.text
    typeParams := []
    params := [.typed "context" (.ref true elementType),
      .typed (if statements.isEmpty then "_" ++ parameter else value)
        (.ref false (.single layout.ident.text))]
    commaAfterSelf := false
    result := none
    bound := none
    body := statements }

def writeRecords (s : Setting) (layouts : List Layout) : Writing (List Item) := do
  let items ← layouts.zipIdx.mapM fun (layout, index) => do
    let writer ← writerFunction s layout
    return [recordItem layouts index layout, .function writer]
  return items.flatten

/-! ## Clients -/

/-- A method of the client's type that is not for an operation. -/
def plainMethod (name : String) (typeParams : List Rust.TypeParam) (params : List Param)
    (result : Ty)
    (value : Expr) : Function :=
  { docs := [], isAsync := false, name, typeParams, params, commaAfterSelf := false
    result := some result, bound := none, body := [.value value] }

/-- What a type parameter for hooks has to be. -/
def hooksParam (name : String) : Rust.TypeParam :=
  ⟨name, some (soapPath ["Hooks"]), none⟩

def freeParam (name : String) : Rust.TypeParam :=
  ⟨name, none, none⟩

def endpointItem (plan : Plan) : Item :=
  let version := match plan.version with
    | .soap11 => "Soap11"
    | .soap12 => "Soap12"
  .constant [" Where `" ++ plan.name ++ "` is served."] (endpointIdent plan.name).text
    (soapType "Endpoint" [])
    (.call (soapPath ["Endpoint", "new"])
      [.text plan.location, .path (soapPath ["SoapVersion", version])])

def serviceItem (plan : Plan) : Item :=
  .record [" Client for the `" ++ plan.name ++ "` service."] ["Debug", "Clone"]
    (serviceIdent plan.name).text
    [freeParam "T", ⟨"H", none, some (soapType "DefaultHooks" [])⟩]
    [⟨false, "dispatcher", soapType "Dispatcher" [.single "T"]⟩, ⟨false, "hooks", .single "H"⟩]

/-- The methods that make a client. -/
def constructors (plan : Plan) (aliases : List (String × String)) : Item :=
  let dispatcher := aliases.foldl
    (fun dispatcher (qualifier, uri) => dispatcher.method "alias" [.text qualifier, .text uri])
    (Expr.call (soapPath ["Dispatcher", "new"]) [.single "endpoint", .single "transport"])
  let service := (serviceIdent plan.name).text
  .methods [freeParam "T"] (.of service [.single "T"])
    [plainMethod "new" [] [.typed "transport" (.single "T")] (.single "Self")
        (.call ⟨false, ["Self", "with_endpoint"]⟩
          [.single (endpointIdent plan.name).text, .single "transport"]),
      plainMethod "with_endpoint" []
        [.typed "endpoint" (soapType "Endpoint" []), .typed "transport" (.single "T")]
        (.single "Self")
        (.record "Self" [("dispatcher", some dispatcher),
          ("hooks", some (.path (soapPath ["DefaultHooks"])))])]

/-- The methods that look into a client or change its hooks. -/
def accessors (plan : Plan) : Item :=
  let service := (serviceIdent plan.name).text
  .methods [freeParam "T", freeParam "H"] (.of service [.single "T", .single "H"])
    [plainMethod "with_hooks" [hooksParam "G"] [.self, .typed "hooks" (.single "G")]
        (.of service [.single "T", .single "G"])
        (.record service [("dispatcher", some (selfExpr.field "dispatcher")), ("hooks", none)]),
      plainMethod "dispatcher" [] [.refSelf] (.ref false (soapType "Dispatcher" [.single "T"]))
        (.ref (selfExpr.field "dispatcher")),
      plainMethod "hooks" [] [.refSelf] (.ref false (.single "H"))
        (.ref (selfExpr.field "hooks"))]

/-- The items of a client but for its records. -/
def clientItems (plan : Plan) (aliases : List (String × String)) (methods : List Function) :
    List Item :=
  let service := (serviceIdent plan.name).text
  [endpointItem plan, serviceItem plan, constructors plan aliases, accessors plan,
    .methods [freeParam "T", hooksParam "H"] (.of service [.single "T", .single "H"]) methods]

/-- All items of a client. -/
def writeClient (s : Setting) (plan : Plan) : Writing (List Item) := do
  let methods ← plan.operations.mapM (writeOperation s)
  completeLayouts s
  let records ← writeRecords s (← get).layouts
  let aliases := (← get).aliases.toList
  return clientItems plan aliases methods.flatten ++ records

end SoapKit.Client
