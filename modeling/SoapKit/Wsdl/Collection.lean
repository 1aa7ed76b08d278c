import SoapKit.Soap.Endpoint
import SoapKit.Wsdl.Library
import SoapKit.Wsdl.NameScope
import SoapKit.Xml.Elements
import SoapKit.Xml.Read

/-!
# Collecting documents

A description is spread over documents that include and import one another. They are collected
breadth first, each once, in the order in which they are first referred to. A document is read in
the name scope of the first reference to it: an imported one takes its default namespace from the
reference, an included one is read as part of the schema that includes it.

URLs are told apart by their texts, and how a reference is joined to the URL of the document that it
stands in is left open.

The search ends because every fetch makes the library smaller. Its first failure is the failure of
the whole collection.
-/

namespace SoapKit.Wsdl

/-- The namespace of service descriptions. -/
def wsdlNamespace : String := "http://schemas.xmlsoap.org/wsdl/"

/-- How the text of a URL and a reference in the document at it make a URL. -/
abbrev Joining := String → String → Except Url.Malformed Url

/-- A fetched document, with the bindings in which its names are read. -/
structure SourceDocument where
  url : Url
  document : Xml.Document
  names : NameScope
  deriving Repr, DecidableEq

/-- A document that is referred to, and the bindings that it inherits. -/
structure Pending where
  url : Url
  names : NameScope
  deriving Repr, DecidableEq

namespace SourceDocument

def top (source : SourceDocument) : Option Xml.Node :=
  source.document.documentElement

/-- Whether a document describes services, and not only types. -/
def isService (source : SourceDocument) : Bool :=
  source.top.any fun top => source.document.isNamed top wsdlNamespace "definitions"

def isReference (source : SourceDocument) (n : Xml.Node) : Bool :=
  let d := source.document
  d.isNamed n Soap.schemaNamespace "include" || d.isNamed n Soap.schemaNamespace "import" ||
    d.isNamed n wsdlNamespace "import"

/-- Where the document is that an element refers to. -/
def location? (source : SourceDocument) (n : Xml.Node) : Option String :=
  let d := source.document
  if d.uriOf n = some wsdlNamespace then d.attributeValue n "location"
  else d.attributeValue n "schemaLocation"

/-- The bindings that a document inherits from the element that refers to it. -/
def inherited (source : SourceDocument) (n : Xml.Node) : NameScope :=
  let d := source.document
  source.names.withDefault <|
    if d.nameOf n = "include" then
      ((d.parent? n).bind fun schema => d.attributeValue schema "targetNamespace").or
        source.names.defaultUri
    else d.attributeValue n "namespace"

/-- What an element refers to; nothing when it does not say where that is. -/
def reference (join : Joining) (source : SourceDocument) (n : Xml.Node) :
    Except Error (Option Pending) :=
  match source.location? n with
  | none => .ok none
  | some location =>
    match join source.url.text location with
    | .ok url => .ok (some ⟨url, source.inherited n⟩)
    | .error _ => .error .malformedUrl

/-- The documents that a document refers to, in document order. -/
def references (join : Joining) (source : SourceDocument) : Except Error (List Pending) := do
  let elements := source.document.elementsBelow Xml.Document.root
  return (← (elements.filter source.isReference).mapM (reference join source)).filterMap id

end SourceDocument

namespace Collection

/-- Fetches a document and puts it into the scope that it inherits. -/
def fetch (dialect : Xml.Dialect) (library : Library) (next : Pending) :
    Except Error (SourceDocument × Library) :=
  match library.fetch next.url with
  | .error e => .error (.fetch next.url.text e)
  | .ok (text, rest) =>
    match Xml.Document.read dialect text with
    | .error e => .error (.fetch next.url.text (.malformed e))
    | .ok document =>
      let names := match document.documentElement with
        | some top => next.names.enter document top
        | none => next.names
      .ok (⟨next.url, document, names⟩, rest)

theorem size_fetch_lt {dialect : Xml.Dialect} {library rest : Library} {next : Pending}
    {source : SourceDocument} (h : fetch dialect library next = .ok (source, rest)) :
    rest.size < library.size := by
  unfold fetch at h
  split at h
  · simp at h
  · rename_i found
    split at h <;> simp only [reduceCtorEq, Except.ok.injEq, Prod.mk.injEq] at h
    exact h.2 ▸ Library.size_fetch_lt found

/-- The documents among `found` that are not among those `seen`, each once. -/
def unseen (seen : List String) : List Pending → List Pending
  | [] => []
  | first :: rest =>
    if seen.contains first.url.text then unseen seen rest
    else first :: unseen (first.url.text :: seen) rest

/-- Fetches the waiting documents and everything that they lead to. -/
def run (join : Joining) (dialect : Xml.Dialect) (library : Library) (seen : List String)
    (queue : List Pending) : Except Error (List SourceDocument) :=
  match queue with
  | [] => .ok []
  | next :: waiting =>
    match _found : fetch dialect library next with
    | .error e => .error e
    | .ok (source, rest) =>
      match source.references join with
      | .error e => .error e
      | .ok found =>
        let fresh := unseen seen found
        match run join dialect rest (fresh.map (·.url.text) ++ seen) (waiting ++ fresh) with
        | .error e => .error e
        | .ok sources => .ok (source :: sources)
termination_by library.size
decreasing_by exact size_fetch_lt _found

end Collection

/-- Collects the document at a URL and everything that it leads to. -/
def collectWith (join : Joining) (dialect : Xml.Dialect) (library : Library) (url : Url) :
    Except Error (List SourceDocument) :=
  Collection.run join dialect library [url.text] [⟨url, NameScope.empty⟩]

/-- Collects documents whose references are joined as URLs are. -/
def collect (dialect : Xml.Dialect) (library : Library) (url : Url) :
    Except Error (List SourceDocument) :=
  collectWith Url.joinText dialect library url

end SoapKit.Wsdl
