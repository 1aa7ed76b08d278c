import SoapKit.Xml.Assembly
import SoapKit.Xml.Strict.Token

/-!
# Strict reading

The strict dialect is conforming XML 1.0 with namespaces and without document types. A document that
breaks any rule is refused as a whole. In the result a qualifier is not the one written: it is the
first in scope that stands for the same namespace, so names with the same meaning look the same. The
declarations kept on an element are those that its parent does not have in scope already.
-/

namespace SoapKit.Xml.Strict

/-- The namespace that may not be declared at all. -/
def xmlnsNamespace : String := "http://www.w3.org/2000/xmlns/"

/-! ## Data -/

/-- What drives the reading after data was decoded: tags, runs of data, and what separates runs. -/
inductive Event where
  | separator
  | opening (name : Name) (attributes : List (Name × String)) (empty : Bool)
  | closing (name : Name)
  | data (text : List Char)
  deriving Repr, DecidableEq

/-- Line breaks of a literal section, where nothing is referred to. -/
def normalizeLiteral (s : List Char) : List Char :=
  normalizeText false (s.map .written)

/-- The event of a token; references that stand for nothing have none. -/
def Token.event : Token → Option Event
  | .passed => some .separator
  | .opening name attributes empty => do
    let attributes ← attributes.mapM fun (name, raw) =>
      return (name, String.ofList (normalizeValue (← units raw)))
    return .opening name attributes empty
  | .closing name => some (.closing name)
  | .text raw => (units raw).map fun data => .data (normalizeText false data)
  | .literal data => some (.data (normalizeLiteral data))

/-- Joins runs of data that follow each other. -/
def joinData : List Event → List Event
  | .data a :: rest =>
    match joinData rest with
    | .data b :: others => .data (a ++ b) :: others
    | others => .data a :: others
  | event :: rest => event :: joinData rest
  | [] => []

/-! ## Namespaces -/

/-- Sorts the attributes of a tag into declarations and others. A qualifier is declared once only,
the namespace of `xml` belongs to that qualifier alone and needs no declaration, and the namespace
of declarations belongs to none. -/
def splitAttributes :
    List (Name × String) → Option (List Declaration × List (Name × String))
  | [] => some ([], [])
  | (name, value) :: rest => do
    let (declarations, others) ← splitAttributes rest
    if name.qualifier = some "xmlns" then
      let isXml := value == xmlNamespace
      if value = xmlnsNamespace ∨ (name.base == "xml") != isXml ∨
          declarations.any (·.qualifier == some name.base) then none
      else if isXml then some (declarations, others)
      else some (⟨some name.base, value⟩ :: declarations, others)
    else if name.base = "xmlns" then
      if value = xmlNamespace ∨ value = xmlnsNamespace then none
      else some (⟨none, value⟩ :: declarations, others)
    else some (declarations, (name, value) :: others)

/-- The declarations in scope on an element: its own, then those around it that it does not
replace. -/
def scopeWithin (own outer : List Declaration) : List Declaration :=
  own ++ outer.filter fun declaration => !own.any (·.qualifier == declaration.qualifier)

/-- The URI declared for a qualifier. -/
def declared? (scope : List Declaration) (qualifier : Option String) : Option String :=
  (scope.find? (·.qualifier == qualifier)).map (·.uri)

/-- The URI of an attribute's qualifier. Outer `none` refuses a qualifier that is not declared. -/
def attributeUri (scope : List Declaration) (name : Name) : Option (Option String) :=
  match name.qualifier with
  | none => some none
  | some "xml" => some (some xmlNamespace)
  | some qualifier => (declared? scope (some qualifier)).map some

/-- The URI of an element's name, where an unqualified name is in the default namespace. -/
def elementUri (scope : List Declaration) (name : Name) : Option (Option String) :=
  match name.qualifier with
  | none => some (declared? scope none)
  | some qualifier => (declared? scope (some qualifier)).map some

/-- The first qualifier in scope that stands for a namespace. -/
def canonicalQualifier (scope : List Declaration) (uri : String) : Option String :=
  if uri = xmlNamespace then some "xml"
  else (scope.find? (·.uri == uri)).bind (·.qualifier)

/-- A name and its namespace under the canonical qualifier. The empty URI is no namespace. -/
def canonicalName (scope : List Declaration) (base : String) (uri : Option String) :
    Name × Option String :=
  match uri with
  | some uri =>
    if uri.isEmpty then (⟨none, base⟩, none)
    else (⟨canonicalQualifier scope uri, base⟩, some uri)
  | none => (⟨none, base⟩, none)

/-- Whether no two names have the same base and URI. -/
def allDistinct : List (String × Option String) → Bool
  | [] => true
  | name :: rest => !rest.contains name && allDistinct rest

/-- The tag of an element inside of a scope, and the scope inside of the element. -/
def resolveTag (outer : List Declaration) (name : Name) (attributes : List (Name × String)) :
    Option (Tag × List Declaration) := do
  let (own, others) ← splitAttributes attributes
  let scope := scopeWithin own outer
  let uris ← others.mapM fun (name, _) => attributeUri scope name
  let uri ← elementUri scope name
  if name.qualifier = some "xmlns" ∨
      !allDistinct ((others.zip uris).map fun ((name, _), uri) => (name.base, uri)) then none
  else
    let resolved := (others.zip uris).map fun ((name, value), uri) =>
      let (name, uri) := canonicalName scope name.base uri
      (⟨name, uri, value⟩ : Attribute)
    let (tagName, tagUri) := canonicalName scope name.base uri
    let added := scope.filter fun declaration =>
      declaration.qualifier != some "xml" && !outer.contains declaration
    some (⟨tagName, tagUri, resolved, added⟩, scope)

/-! ## Driving an assembly -/

/-- The state between two events: the document so far, and the written names and scopes of the open
elements, innermost first. -/
structure Reading where
  assembly : Assembly
  opened : List (Name × List Declaration)

/-- Takes one event into account. A closing tag has to name the innermost open element. -/
def Reading.step (r : Reading) : Event → Except ParseError Reading
  | .separator => .ok r
  | .opening name attributes empty =>
    match resolveTag ((r.opened.head?.map (·.2)).getD []) name attributes with
    | none => .error .malformed
    | some (tag, scope) => do
      let opened ← r.assembly.openTag tag
      if empty then return { r with assembly := ← opened.close tag.name.base }
      else return ⟨opened, (name, scope) :: r.opened⟩
  | .closing name =>
    match r.opened with
    | (top, _) :: outer =>
      if top = name then return ⟨← r.assembly.close name.base, outer⟩ else .error .malformed
    | [] => .error .malformed
  | .data text => return { r with assembly := ← r.assembly.addText (String.ofList text) }

/-- Reads a document in the strict dialect. Any breach of a rule counts before the document is
built. -/
def read (s : List Char) : Except ParseError Document :=
  match (tokens s).bind (·.mapM Token.event) with
  | none => .error .malformed
  | some events => do
    let r ← (joinData events).foldlM Reading.step ⟨Assembly.start, []⟩
    r.assembly.finish

end SoapKit.Xml.Strict
