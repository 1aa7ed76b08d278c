import SoapKit.Text.Blank
import SoapKit.Xml.Document
import SoapKit.Xml.Error

/-!
# Building a document

A document is built from a run of openings, closings and pieces of character data. An assembly holds
the table built so far, the open elements, and the namespace declarations of each open element; both
lists have the innermost element first. Character data that is blank is dropped, and pieces that
follow each other inside one parent are one text node.
-/

namespace SoapKit.Xml

/-- A document in the making. -/
structure Assembly where
  entries : Array Entry
  openPlaces : List Nat
  scopes : List (List Declaration)
  hasRoot : Bool
  deriving Repr, DecidableEq

/-- The order of declarations on an element: the default namespace first, then by qualifier, then
by URI. -/
def Declaration.le (a b : Declaration) : Bool :=
  match a.qualifier, b.qualifier with
  | none, none => a.uri ≤ b.uri
  | none, some _ => true
  | some _, none => false
  | some p, some q => p < q || (p == q && a.uri ≤ b.uri)

namespace Assembly

/-- Nothing but the document node. -/
def start : Assembly := ⟨Document.blankEntries, [], [], false⟩

/-- The place that new nodes go to: the innermost open element, or the document. -/
def current (a : Assembly) : Nat :=
  a.openPlaces.headD 0

/-- Appends a node as the last child of the innermost open element. -/
def append (a : Assembly) (content : Content) : Assembly :=
  let parent := a.current
  let place := a.entries.size
  let entries := a.entries.modify parent fun e => { e with children := e.children ++ [place] }
  { a with entries := entries.push ⟨some parent, [], content⟩ }

/-- The namespace that a qualifier stands for on an element with the declarations `own`: the first
declaration among these, then in the open elements from the innermost on. -/
def resolve (a : Assembly) (own : List Declaration) (qualifier : Option String) : Option String :=
  if qualifier = some "xml" then some xmlNamespace
  else
    match (own ++ a.scopes.flatten).find? (·.qualifier == qualifier) with
    | some declaration => if declaration.uri.isEmpty then none else some declaration.uri
    | none => none

/-- The namespace that a written qualifier stands for, which has to be bound. -/
def resolveBound (a : Assembly) (own : List Declaration) (qualifier : String) :
    Except ParseError String :=
  match a.resolve own (some qualifier) with
  | some uri => .ok uri
  | none => .error (.undeclared qualifier)

/-- The declaration that a raw attribute is, if it is one. -/
def declaration? (key value : String) : Option Declaration :=
  if key = "xmlns" then some ⟨none, value⟩
  else (Text.after? "xmlns:".toList key.toList).map fun q => ⟨some (String.ofList q), value⟩

/-- Opens an element whose namespaces are known. -/
def openTag (a : Assembly) (tag : Tag) : Except ParseError Assembly :=
  let tag := { tag with declarations := tag.declarations.mergeSort Declaration.le }
  if a.openPlaces.isEmpty && a.hasRoot then .error .multipleRoots
  else
    let place := a.entries.size
    let grown := a.append (.element tag)
    .ok { grown with
      openPlaces := place :: a.openPlaces
      scopes := tag.declarations :: a.scopes
      hasRoot := true }

/-- Opens an element from its written name and its raw attributes. The element's own qualifier is
looked at before those of its attributes. -/
def openRaw (a : Assembly) (written : String) (attributes : List (String × String)) :
    Except ParseError Assembly := do
  let own := attributes.filterMap fun (key, value) => declaration? key value
  let plain := attributes.filter fun (key, value) => (declaration? key value).isNone
  let name := Name.parse written
  let uri ← match name.qualifier with
    | some qualifier => some <$> a.resolveBound own qualifier
    | none => pure (a.resolve own none)
  let attributes ← plain.mapM fun (key, value) => do
    let name := Name.parse key
    let uri ← match name.qualifier with
      | some qualifier => some <$> a.resolveBound own qualifier
      | none => pure none
    return (⟨name, uri, value⟩ : Attribute)
  a.openTag ⟨name, uri, attributes, own⟩

/-- Closes the innermost open element. The written name only serves the error. -/
def close (a : Assembly) (written : String) : Except ParseError Assembly :=
  match a.openPlaces with
  | [] => .error (.unexpectedEnd written)
  | _ :: outer => .ok { a with openPlaces := outer, scopes := a.scopes.tail }

/-- The text node that is the last child at a place. -/
def lastText? (a : Assembly) (place : Nat) : Option (Nat × String) := do
  let last ← (← a.entries[place]?).children.getLast?
  match (← a.entries[last]?).content with
  | .text text => some (last, text)
  | _ => none

/-- Adds character data to the innermost open element. -/
def addText (a : Assembly) (text : String) : Except ParseError Assembly :=
  if Text.isAllBlank text then .ok a
  else if a.openPlaces.isEmpty then .error .textOutsideRoot
  else
    match a.lastText? a.current with
    | some (last, before) =>
      .ok { a with
        entries := a.entries.modify last fun e => { e with content := .text (before ++ text) } }
    | none => .ok (a.append (.text text))

/-- The finished document. -/
def finish (a : Assembly) : Except ParseError Document :=
  match a.openPlaces with
  | place :: _ =>
    let name := match (a.entries[place]?.map (·.content)) with
      | some (.element tag) => tag.name.text
      | _ => ""
    .error (.unclosed name)
  | [] => if a.hasRoot then .ok ⟨a.entries, []⟩ else .error .empty

end Assembly

end SoapKit.Xml
