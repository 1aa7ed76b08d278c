import SoapKit.Url.Basic

/-!
# Resolving references

A reference is read against a base: what it leaves out at its front is taken from there. Fragment
and query are cut off first, since the marks before them end every other part. A reference with a
scheme of its own needs no base, except that the base's scheme without slashes after it still means
a relative reference.
-/

namespace SoapKit.Url

/-- Why a reference is no URL. -/
inductive Malformed where
  /-- There is neither a scheme nor a base. -/
  | relative
  | invalid
  deriving Repr, DecidableEq, Inhabited

/-! ## Parts -/

/-- A reference without blanks around it and without tabs and line breaks in it. -/
def tidy (text : String) : List Char :=
  let isOuter (c : Char) : Bool := c.toNat ≤ 0x20
  let inner := ((text.toList.dropWhile isOuter).reverse.dropWhile isOuter).reverse
  inner.filter fun c => c != '\t' && c != '\n' && c != '\r'

/-- The scheme in lower case and what follows its colon. -/
def scheme? (s : List Char) : Option (String × List Char) := do
  let (name, rest) ← Text.splitOnce ':' s
  let isPart (c : Char) : Bool := c.isAlphanum || c == '+' || c == '-' || c == '.'
  if (name.head?.any Char.isAlpha) ∧ name.all isPart then
    some (String.ofList (name.map Char.toLower), rest)
  else none

/-- Whether a character is a slash of either direction. -/
def isSlash (c : Char) : Bool :=
  c == '/' || c == '\\'

/-- Whether a character ends a segment. Special schemes take backslashes for slashes. -/
def endsSegment (special : Bool) (c : Char) : Bool :=
  c == '/' || (special && c == '\\')

/-! ## Authorities -/

/-- User name and password, escaped. -/
def userinfo (s : List Char) : String × String :=
  let (username, password) := Text.cut ':' s
  let escape (part : List Char) := String.ofList (Percent.encode Percent.inUserinfo part)
  (escape username, escape password)

/-- The host's text and what follows it, which begins with the colon of a port or is empty. Colons
in brackets belong to the host. -/
def hostSpan (inBrackets : Bool) : List Char → List Char × List Char
  | [] => ([], [])
  | c :: rest =>
    if c = ':' ∧ !inBrackets then ([], c :: rest)
    else
      let inBrackets := if c = '[' then true else if c = ']' then false else inBrackets
      let (host, port) := hostSpan inBrackets rest
      (c :: host, port)

/-- A port of at most 65535; a missing one and the scheme's own are left out. -/
def port? (scheme : String) (s : List Char) : Option (Option Nat) :=
  match s with
  | [] | [':'] => some none
  | _ :: digits => do
    let port ← Decimal.nat? digits
    if 65535 < port then none
    else return if webPort? scheme = some port then none else some port

/-- The authority of a URL that is not local. Only other schemes than those of the web may leave out
the host, and then neither a user nor a port may stand there. -/
def authority? (scheme : String) (s : List Char) : Option Authority := do
  let (user, place) := match Text.splitOnce '@' s.reverse with
    | some (place, user) => (some user.reverse, place.reverse)
    | none => (none, s)
  let (username, password) := match user with
    | some user => userinfo user
    | none => ("", "")
  let (hostText, portText) := hostSpan false place
  let host ← if isSpecial scheme then Host.ofWeb? hostText else Host.ofOther? hostText
  if host = .domain "" ∧ (user.isSome ∨ !portText.isEmpty) then none
  else return ⟨username, password, host, ← port? scheme portText⟩

/-! ## Paths -/

/-- Whether a segment is a letter with a colon or a bar, which names a drive. -/
def isDrive : List Char → Bool
  | [letter, mark] => letter.isAlpha && (mark == ':' || mark == '|')
  | _ => false

def startsWithDrive (s : List Char) : Bool :=
  isDrive (s.takeWhile fun c => !isSlash c)

/-- A segment with its escaped dots written out. -/
def unescapeDots : List Char → List Char
  | '%' :: '2' :: 'e' :: rest | '%' :: '2' :: 'E' :: rest => '.' :: unescapeDots rest
  | c :: rest => c :: unescapeDots rest
  | [] => []

/-- Segments without the last one. A drive is never taken away. -/
def parent (segments : List String) : List String :=
  match segments.getLast? with
  | some last => if isDrive last.toList then segments else segments.dropLast
  | none => []

/-- Puts one segment after others. One dot stays, two dots go back; at the end of a path either
leaves an empty segment, so that the path still ends in a slash. -/
def addSegment (isFile isLast : Bool) (segments : List String) (segment : List Char) :
    List String :=
  let close (segments : List String) := if isLast then segments ++ [""] else segments
  match unescapeDots segment with
  | ['.', '.'] => close (parent segments)
  | ['.'] => close segments
  | _ =>
    if isFile ∧ segments.isEmpty ∧ isDrive segment then
      [String.ofList (segment.take 1 ++ [':'])]
    else segments ++ [String.ofList (Percent.encode Percent.inPath segment)]

/-- The texts between the slashes of a path. -/
def segmentTexts (special : Bool) : List Char → List (List Char)
  | [] => [[]]
  | c :: rest =>
    if endsSegment special c then [] :: segmentTexts special rest
    else match segmentTexts special rest with
      | [] => [[c]]
      | first :: others => (c :: first) :: others

/-- Puts the segments of a path after others. -/
def addSegments (isFile : Bool) (segments : List String) : List (List Char) → List String
  | [] => segments
  | [last] => addSegment isFile true segments last
  | first :: rest => addSegments isFile (addSegment isFile false segments first) rest

/-- Path segments without empty ones at the front. -/
def dropEmpty : List String → List String
  | "" :: next :: rest => dropEmpty (next :: rest)
  | segments => segments

/-- The path that begins with the given segments and goes on with a text. -/
def pathOf (scheme : String) (segments : List String) (text : List Char) : Path :=
  let isFile := scheme == "file"
  let all := addSegments isFile segments (segmentTexts (isSpecial scheme) text)
  .segments (if isFile then dropEmpty all else all)

/-- A text without the slash at its front. -/
def dropSlash (special : Bool) : List Char → List Char
  | c :: rest => if endsSegment special c then rest else c :: rest
  | [] => []

/-- The segments of a path, if it has any. -/
def Path.toList : Path → List String
  | .segments names => names
  | .plain _ => []

/-! ## Whole references -/

/-- A reference without its query and fragment, with these two escaped at the side. -/
structure Reference where
  hierarchy : List Char
  query : Option (List Char)
  fragment : Option (List Char)

/-- Cuts off the fragment and then the query. -/
def Reference.ofText (s : List Char) : Reference :=
  let (rest, fragment) := match Text.splitOnce '#' s with
    | some (rest, fragment) => (rest, some fragment)
    | none => (s, none)
  let (hierarchy, query) := match Text.splitOnce '?' rest with
    | some (hierarchy, query) => (hierarchy, some query)
    | none => (rest, none)
  { hierarchy, query, fragment }

/-- The URL with the reference's query and fragment. -/
def Reference.finish (r : Reference) (scheme : String) (authority : Option Authority)
    (path : Path) : Url :=
  { scheme, authority, path
    query := r.query.map fun q =>
      String.ofList (Percent.encode (Percent.inQuery (isSpecial scheme)) q)
    fragment := r.fragment.map fun f => String.ofList (Percent.encode Percent.inFragment f) }

/-- The URL of the base with the reference's fragment, and with its query if it has one. -/
def Reference.onBase (r : Reference) (base : Url) : Url :=
  let url := r.finish base.scheme base.authority base.path
  if r.query.isSome then url else { url with query := base.query }

/-- What follows the two slashes before an authority. -/
def withAuthority (r : Reference) (scheme : String) (text : List Char) : Except Malformed Url :=
  let special := isSpecial scheme
  let (place, path) := text.span fun c => !endsSegment special c
  match authority? scheme place with
  | none => .error .invalid
  | some authority =>
    let path :=
      if special ∨ !path.isEmpty then pathOf scheme [] (dropSlash special path) else .segments []
    .ok (r.finish scheme (some authority) path)

def localAuthority : Authority := ⟨"", "", .domain "", none⟩

/-- The host after the two slashes of a local URL. The name of the local machine is left out. -/
def fileHost? (s : List Char) : Option Host :=
  if s.isEmpty then some (.domain "")
  else match Host.ofWeb? s with
    | some (.domain "localhost") => some (.domain "")
    | host => host

/-- A drive right at the front of a path also ends at the next character. -/
def splitDrive (s : List Char) : List Char :=
  match s with
  | letter :: ':' :: c :: rest =>
    if letter.isAlpha ∧ !isSlash c then letter :: ':' :: '/' :: c :: rest else s
  | _ => s

/-- The path of a local URL. -/
def filePathOf (segments : List String) (text : List Char) : Path :=
  pathOf "file" segments (if segments.isEmpty then splitDrive text else text)

/-- A URL of the local machine or of a host in its network, after the scheme. -/
def fileUrl (r : Reference) (base : Option Url) (text : List Char) : Except Malformed Url :=
  match text with
  | a :: b :: rest =>
    if isSlash a ∧ isSlash b then
      let place := rest.takeWhile fun c => !isSlash c
      if isDrive place then .ok (r.finish "file" localAuthority (filePathOf [] rest))
      else match fileHost? place with
        | none => .error .invalid
        | some host =>
          let path := rest.drop place.length
          let host := if startsWithDrive (dropSlash true path) then .domain "" else host
          .ok (r.finish "file" (some { localAuthority with host })
            (filePathOf [] (dropSlash true path)))
    else single text
  | _ => single text
where
  /-- A path, which may begin with one slash. -/
  single (text : List Char) : Except Malformed Url :=
    match text, base with
    | [], some base => .ok (r.onBase base)
    | [], none => .ok (r.finish "file" localAuthority (.segments [""]))
    | c :: rest, base =>
      if isSlash c then
        let drive := match base with
          | some base => base.path.toList.take 1 |>.filter fun s => isDrive s.toList
          | none => []
        let authority := match base, drive with
          | some base, [] => base.authority
          | _, _ => some localAuthority
        if startsWithDrive rest then .ok (r.finish "file" localAuthority (filePathOf [] rest))
        else .ok (r.finish "file" authority (filePathOf drive rest))
      else match base with
        | some base =>
          if startsWithDrive (c :: rest) then
            .ok (r.finish "file" localAuthority (filePathOf [] (c :: rest)))
          else
            .ok (r.finish "file" base.authority (filePathOf (parent base.path.toList) (c :: rest)))
        | none => .ok (r.finish "file" localAuthority (filePathOf [] (c :: rest)))

/-- A reference without a scheme, or with the base's scheme only, against a base that is not local.
-/
def relativeTo (r : Reference) (base : Url) (text : List Char) : Except Malformed Url :=
  match text with
  | [] => .ok (r.onBase base)
  | '/' :: '/' :: rest => withAuthority r base.scheme rest
  | c :: rest =>
    if isSlash c then
      if rest.head?.any isSlash then withAuthority r base.scheme (rest.dropWhile isSlash)
      else .ok (r.finish base.scheme base.authority (pathOf base.scheme [] rest))
    else
      .ok (r.finish base.scheme base.authority
        (pathOf base.scheme base.path.toList.dropLast (c :: rest)))

/-- Reads a reference against a base, if there is one. -/
def resolve (base : Option Url) (text : String) : Except Malformed Url :=
  let s := tidy text
  let r := Reference.ofText s
  match scheme? r.hierarchy, base with
  | some (scheme, rest), base =>
    if scheme = "file" then fileUrl r (base.filter (·.scheme == "file")) rest
    else if isSpecial scheme then
      let slashes := rest.takeWhile isSlash
      match base.filter (fun base => base.scheme == scheme && slashes.length < 2) with
      | some base => relativeTo r base rest
      | none => withAuthority r scheme (rest.drop slashes.length)
    else match rest with
      | '/' :: '/' :: rest => withAuthority r scheme rest
      | '/' :: rest => .ok (r.finish scheme none (pathOf scheme [] rest))
      | rest =>
        let path := String.ofList (Percent.encode Percent.inControls rest)
        .ok (r.finish scheme none (.plain path))
  | none, none => .error .relative
  | none, some base =>
    match base.path with
    | .plain _ =>
      if s.head? = some '#' then .ok (r.onBase base) else .error .invalid
    | .segments _ =>
      if base.scheme = "file" then fileUrl r (some base) r.hierarchy
      else relativeTo r base r.hierarchy

/-- Reads a URL. -/
def parse (text : String) : Except Malformed Url :=
  resolve none text

/-- The URL that a reference in the document at `url` stands for. -/
def join (url : Url) (reference : String) : Except Malformed Url :=
  resolve (some url) reference

/-- The URL that a reference in the document at a URL stands for, where that URL is written out. -/
def joinText (url reference : String) : Except Malformed Url := do
  (← parse url).join reference

end SoapKit.Url
