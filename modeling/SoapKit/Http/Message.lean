import SoapKit.Http.Chunked
import SoapKit.Http.Multipart
import SoapKit.Text.Quoted

/-!
# Requests and responses

A request is what is handed to a transport, and a response what comes back. The body of a multipart
response is already split into parts; one of them, the primary part, holds the answer proper.
-/

namespace SoapKit.Http

/-- The methods of requests. -/
inductive Method where
  | get
  | post
  | put
  | delete
  deriving Repr, DecidableEq

def Method.word : Method → String
  | .get => "GET"
  | .post => "POST"
  | .put => "PUT"
  | .delete => "DELETE"

/-- A user and a password. -/
structure Credentials where
  username : String
  password : String
  deriving Repr, DecidableEq

/-- Credentials as a record for people to read; the password is not shown. -/
def Credentials.debugText (c : Credentials) : String :=
  "Credentials \x7b username: " ++ Text.quoted c.username ++ ", password: \"***\" \x7d"

/-- What is sent. -/
structure Request where
  url : String
  method : Method
  headers : Headers
  body : Option String
  credentials : Option Credentials
  deriving Repr, DecidableEq

/-- A request without headers and body. -/
def Request.blank (url : String) (method : Method) : Request :=
  ⟨url, method, .empty, none, none⟩

/-- A request for people to read; the password is not shown. -/
def Request.display (r : Request) : String :=
  let auth := match r.credentials with
    | some c => "Auth credentials: " ++ c.username ++ ":***\n"
    | none => ""
  let headers := r.headers.entries.map fun (name, value) => name ++ ": " ++ value ++ "\n"
  let body := match r.body with
    | some body => "---\n" ++ body
    | none => ""
  r.method.word ++ " " ++ r.url ++ "\n" ++ auth ++ String.join headers ++ body

/-- What comes back. -/
structure Response where
  status : Nat
  headers : Headers
  body : Bytes
  parts : Option (List Part)
  deriving Inhabited

/-! ## The primary part -/

/-- An identifier without the angle brackets around it. -/
def bareId (s : List Char) : String :=
  String.ofList ((s.dropWhile (· == '<')).reverse.dropWhile (· == '>')).reverse

def Part.contentId (part : Part) : Option String :=
  (part.headers.get? "content-id").map fun id => bareId (Text.trim id.toList)

namespace Response

/-- The identifier that the content type names as the start. -/
def startId (r : Response) : Option String :=
  ((r.headers.get? "content-type").bind (contentTypeParameter · "start")).map fun s =>
    bareId s.toList

/-- The part that the content type names as the start, else the first part. -/
def primaryPart (r : Response) : Option Part := do
  let parts ← r.parts
  match r.startId with
  | some start => (parts.find? fun part => part.contentId == some start).or parts.head?
  | none => parts.head?

/-- The bytes of the primary part, else those of the whole body. -/
def primaryBody (r : Response) : Bytes :=
  match r.primaryPart with
  | some part => part.body
  | none => r.body

end Response

/-! ## Reading responses -/

/-- Why raw headers and a body are no response. -/
inductive ResponseFault where
  | multipart (e : MultipartError)
  /-- A chunk announces a size that exceeds a 64-bit word. -/
  | sizeOverflow
  deriving Repr, DecidableEq

/-- Splits the body of a response as its headers announce. -/
def splitResponse (status : Nat) (headers : Headers) (body : Bytes) :
    Except MultipartError Response := do
  match ← announcedBoundary headers with
  | none => return ⟨status, headers, body, none⟩
  | some boundary => return ⟨status, headers, body, some (← parseMultipart boundary body)⟩

def announcesChunks (headers : Headers) : Bool :=
  (headers.get? "transfer-encoding").any (sameName · "chunked")

/-- Reads a response from raw headers and a body. A body that is announced as chunked but is not is
taken as it is. -/
def readResponse (rawHeaders : String) (body : Bytes) (status : Nat) :
    Except ResponseFault Response := do
  let headers := Headers.read rawHeaders
  let body ←
    if announcesChunks headers then
      match decodeChunked body with
      | .ok decoded => .ok decoded
      | .error .malformed => .ok body
      | .error .sizeOverflow => .error .sizeOverflow
    else .ok body
  match splitResponse status headers body with
  | .ok response => .ok response
  | .error e => .error (.multipart e)

end SoapKit.Http
