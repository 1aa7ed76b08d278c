import SoapKit.Url.Host

/-!
# URLs

A URL has a scheme and a path, and possibly an authority in front of the path and a query and a
fragment behind it. The path is a list of segments, except in URLs such as `urn:a:b` whose path is a
plain text; nothing can be resolved against those.
-/

namespace SoapKit

namespace Url

/-- The part of a URL that says whom to ask. An empty password is no password, and a domain without
a name is the local machine. -/
structure Authority where
  username : String
  password : String
  host : Host
  port : Option Nat
  deriving Repr, DecidableEq, Inhabited

/-- The path of a URL. -/
inductive Path where
  | segments (segments : List String)
  | plain (text : String)
  deriving Repr, DecidableEq, Inhabited

end Url

/-- A URL without relative parts. -/
structure Url where
  scheme : String
  authority : Option Url.Authority
  path : Url.Path
  query : Option String
  fragment : Option String
  deriving Repr, DecidableEq, Inhabited

namespace Url

/-- The port of a scheme of the web, and nothing for other schemes. -/
def webPort? : String → Option Nat
  | "http" | "ws" => some 80
  | "https" | "wss" => some 443
  | "ftp" => some 21
  | _ => none

/-- Whether URLs of a scheme always have an authority and a path. -/
def isSpecial (scheme : String) : Bool :=
  scheme == "file" || (webPort? scheme).isSome

/-- The user before a host. -/
def Authority.userText (a : Authority) : String :=
  if a.username.isEmpty ∧ a.password.isEmpty then ""
  else a.username ++ (if a.password.isEmpty then "" else ":" ++ a.password) ++ "@"

def Authority.text (a : Authority) : String :=
  a.userText ++ a.host.text ++ match a.port with
    | some port => ":" ++ toString port
    | none => ""

def Path.text : Path → String
  | .segments names => String.join (names.map ("/" ++ ·))
  | .plain text => text

/-- What stands between the scheme and the path. Without an authority, a path that begins with two
slashes would be taken for one, which a dot prevents. -/
def lead (url : Url) : String :=
  match url.authority, url.path with
  | some authority, _ => "//" ++ authority.text
  | none, .segments ("" :: _ :: _) => "/."
  | none, _ => ""

def text (url : Url) : String :=
  url.scheme ++ ":" ++ url.lead ++ url.path.text ++
    (match url.query with
      | some query => "?" ++ query
      | none => "") ++
    match url.fragment with
    | some fragment => "#" ++ fragment
    | none => ""

/-- The path of a local file as names of directories and the file. Only URLs of the local machine
have one. -/
def filePath? (url : Url) : Option (List String) :=
  let isLocal := match url.authority with
    | some authority => authority.host.text == "" || authority.host.text == "localhost"
    | none => true
  match url.path with
  | .segments segments =>
    if isLocal then
      some (segments.map fun segment => Text.decodeLossy (Percent.decode segment.toList))
    else none
  | .plain _ => none

/-- The URL of a local file or directory. -/
def ofFilePath (names : List String) : Url :=
  { scheme := "file"
    authority := some ⟨"", "", .domain "", none⟩
    path := .segments (if names.isEmpty then [""] else names.map fun name =>
      String.ofList (Percent.encode Percent.inFileName name.toList))
    query := none
    fragment := none }

end Url

end SoapKit
