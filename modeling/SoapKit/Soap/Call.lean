import SoapKit.Http.Message
import SoapKit.Soap.Fault
import SoapKit.Xml.Draft
import SoapKit.Xml.Read

/-!
# Calls

A call builds an envelope, sends it and looks at the answer. Hooks are called on the way: on the
envelope before its action is added, on the request before it is sent, on a fault, on an error
status, and at last on the answer's document or on its absence. The three hooks about failures
decide whether the call fails there; the first one that refuses decides the outcome.

Hooks and transports act in a monad of their own, so a call is a plain program over them.
-/

namespace SoapKit.Soap

open Xml (Document Draft DraftElement ParseError BuildError)
open Http (Request Response)

/-- Why a call fails. -/
inductive CallError where
  | fault (fault : Fault)
  /-- The status of a response stands for an error. -/
  | http (response : Response)
  | parse (e : ParseError)
  | query (e : Xml.Path.QueryError)
  | transport (e : Http.ResponseFault)
  | build (e : BuildError)

def CallError.message : CallError → String
  | .fault f => f.display
  | .http response => "HTTP error " ++ toString response.status
  | .parse _ => "Unable to parse response document"
  | .query e => e.message
  | .transport (.multipart e) => e.message
  | .transport .sizeOverflow => "Chunk size exceeds a machine word"
  | .build _ => "Unable to build request envelope"

/-- What a call is interrupted for. -/
structure Hooks (m : Type → Type) where
  /-- The envelope exists, without the action's element. -/
  onCreate : Draft → m Draft
  onRequest : Request → m Unit
  onDocument : Document → m Document
  onFault : Fault → m (Except CallError Unit)
  onHttpError : Response → m (Except CallError Unit)
  onMissingDocument : Response → ParseError → m (Except CallError Unit)

/-- Hooks that leave everything as it is and let every failure fail the call. -/
def Hooks.default {m : Type → Type} [Monad m] : Hooks m where
  onCreate draft := pure draft
  onRequest _ := pure ()
  onDocument d := pure d
  onFault f := pure (.error (.fault f))
  onHttpError r := pure (.error (.http r))
  onMissingDocument _ e := pure (.error (.parse e))

/-- What sends a request and brings back the response. -/
abbrev Transport (m : Type → Type) := Request → m (Except Http.ResponseFault Response)

/-- The settings under which calls are made. -/
structure Dispatcher where
  endpoint : Endpoint
  dialect : Xml.Dialect
  aliases : List (String × String)
  credentials : Option Http.Credentials

/-- The outcome of a call: the answer's document, which only a hook can let be absent, and the
response it came in. -/
structure Reply where
  document : Option Document
  http : Response

/-- What an expression selects in a reply; nothing when there is no document. -/
def Reply.query (reply : Reply) (expression : String) (extra : Xml.Path.Bindings) :
    Except Xml.Path.QueryError (List Xml.Node) :=
  match reply.document with
  | some d => d.query Document.root expression extra
  | none => .ok []

namespace Dispatcher

variable {m : Type → Type} [Monad m]

/-- The envelope with an empty header and an empty body. -/
def emptyEnvelope (c : Dispatcher) : Draft :=
  let build : StateM Draft Unit := do
    Draft.alias "env" c.endpoint.version.envelopeNamespace
    c.aliases.forM fun (qualifier, uri) => Draft.alias qualifier uri
    Draft.add "env:Envelope" do
      DraftElement.add "*:Header" (pure ())
      DraftElement.add "*:Body" (pure ())
  (build Draft.blank).2

/-- The written name of the element that holds the action. -/
def bodyName : String := "env:Body"

/-- The envelope of a call. The action's element is filled by `build`. -/
def envelope (c : Dispatcher) (hooks : Hooks m) (action : String)
    (build : DraftElement → m DraftElement) : m (Except BuildError Draft) := do
  let draft ← hooks.onCreate c.emptyEnvelope
  match draft.find? bodyName with
  | none => return .error (.missingElement bodyName)
  | some body =>
    let filled ← build (.blank (DraftElement.childName body.name.qualifier action))
    return .ok (Draft.atFirst bodyName (DraftElement.attach filled) draft).2

/-- The request of a call. -/
def request (c : Dispatcher) (header : ActionHeader) (action body : String) : Request :=
  let typed := Http.Headers.empty.set "Content-Type" c.endpoint.version.contentType
  let headers := match header.resolve action with
    | some value => typed.set "SOAPAction" value
    | none => typed
  { url := c.endpoint.uri
    method := .post
    headers
    body := some body
    credentials := c.credentials }

/-- Builds the request of a call and shows it to its hook. -/
def prepare (c : Dispatcher) (hooks : Hooks m) (action : String) (header : ActionHeader)
    (build : DraftElement → m DraftElement) : m (Except CallError Request) := do
  match ← c.envelope hooks action build with
  | .error e => return .error (.build e)
  | .ok draft =>
    match draft.toXml with
    | .error e => return .error (.build e)
    | .ok xml =>
      let request := c.request header action xml
      hooks.onRequest request
      return .ok request

/-- Calls the hook on a fault if a parsed answer holds one. -/
def checkFault (c : Dispatcher) (hooks : Hooks m) (parsed : Except ParseError Document) :
    m (Except CallError Unit) :=
  match parsed with
  | .error _ => return .ok ()
  | .ok d =>
    match Fault.detect d c.endpoint.version with
    | .error e => return .error (.query e)
    | .ok none => return .ok ()
    | .ok (some fault) => hooks.onFault fault

/-- Calls the hook on an error status if a response has one. -/
def checkStatus (hooks : Hooks m) (response : Response) : m (Except CallError Unit) :=
  if response.status ≥ 400 then hooks.onHttpError response else return .ok ()

/-- Calls the hook on the answer's document or on its absence. -/
def finish (hooks : Hooks m) (response : Response) (parsed : Except ParseError Document) :
    m (Except CallError Reply) := do
  match parsed with
  | .ok d => return .ok ⟨some (← hooks.onDocument d), response⟩
  | .error e =>
    match ← hooks.onMissingDocument response e with
    | .error e => return .error e
    | .ok () => return .ok ⟨none, response⟩

/-- Looks at a response: first for a fault, then at the status, then at the document. -/
def handle (c : Dispatcher) (hooks : Hooks m) (response : Response) :
    m (Except CallError Reply) := do
  let parsed := Document.readBytes c.dialect ⟨response.primaryBody.toArray⟩
  match ← c.checkFault hooks parsed with
  | .error e => return .error e
  | .ok () =>
    match ← checkStatus hooks response with
    | .error e => return .error e
    | .ok () => finish hooks response parsed

/-- Makes a call. -/
def invoke (c : Dispatcher) (transport : Transport m) (hooks : Hooks m) (action : String)
    (header : ActionHeader) (build : DraftElement → m DraftElement) :
    m (Except CallError Reply) := do
  match ← c.prepare hooks action header build with
  | .error e => return .error e
  | .ok request =>
    match ← transport request with
    | .error e => return .error (.transport e)
    | .ok response => c.handle hooks response

end Dispatcher

end SoapKit.Soap
