import SoapKit.Xml.Name

/-!
# Documents

A document is a table of nodes. A node is known by its place in the table; it knows its parent and
its children. The table lists the nodes in document order and node 0 is the document itself, so the
order of places is document order. Attributes are no nodes of the table: an attribute is reached as
an element's place together with a position among its attributes.

Walks over the table follow the children of a node. In a table whose children stand behind their
parents such a walk visits every node at most once, so the size of the table bounds it.
-/

namespace SoapKit.Xml

/-- A namespace declaration; without a qualifier it sets the default namespace. An empty URI takes a
binding back. -/
structure Declaration where
  qualifier : Option String
  uri : String
  deriving Repr, DecidableEq, Inhabited

/-- An attribute with the namespace that its qualifier stands for. -/
structure Attribute where
  name : Name
  uri : Option String
  value : String
  deriving Repr, DecidableEq, Inhabited

/-- What an element's tag says, with the namespaces that qualifiers stand for. -/
structure Tag where
  name : Name
  uri : Option String
  attributes : List Attribute
  declarations : List Declaration
  deriving Repr, DecidableEq, Inhabited

/-- What a node is. -/
inductive Content where
  | document
  | element (tag : Tag)
  | text (text : String)
  deriving Repr, DecidableEq, Inhabited

/-- An entry of a document's table. -/
structure Entry where
  parent : Option Nat
  children : List Nat
  content : Content
  deriving Repr, DecidableEq, Inhabited

/-- A document: its table of nodes, and the qualifiers that path expressions may use. -/
structure Document where
  entries : Array Entry
  registered : List (String × String)
  deriving Repr, DecidableEq, Inhabited

/-- A node of a document, or one of its attributes by position. -/
structure Node where
  place : Nat
  attr : Option Nat
  deriving Repr, DecidableEq, Inhabited

namespace Node

def ofPlace (place : Nat) : Node := ⟨place, none⟩

/-- The position of a node in document order. An element stands before its attributes, and these
stand before its children. -/
def order (n : Node) : Nat × Nat :=
  (n.place, match n.attr with
    | none => 0
    | some index => index + 1)

end Node

namespace Document

def root : Node := Node.ofPlace 0

/-- The table with only a document node. -/
def blankEntries : Array Entry := #[⟨none, [], .document⟩]

def entry (d : Document) (place : Nat) : Entry :=
  d.entries[place]?.getD ⟨none, [], .document⟩

/-- The tag at a place, when an element is there. -/
def tagAt (d : Document) (place : Nat) : Option Tag :=
  match (d.entry place).content with
  | .element tag => some tag
  | _ => none

def tag (d : Document) (n : Node) : Option Tag :=
  match n.attr with
  | none => d.tagAt n.place
  | some _ => none

def attribute? (d : Document) (n : Node) : Option Attribute := do
  (← d.tagAt n.place).attributes[← n.attr]?

/-! ## Kinds and names -/

/-- Whether the document itself stands at a node's place. -/
def isDocument (d : Document) (n : Node) : Bool :=
  (d.entry n.place).content matches .document

def isElement (d : Document) (n : Node) : Bool :=
  (d.tag n).isSome

def isAttribute (n : Node) : Bool :=
  n.attr.isSome

/-- Whether character data stands at a node's place. -/
def isText (d : Document) (n : Node) : Bool :=
  (d.entry n.place).content matches .text _

/-- The unqualified name of an element or attribute. Other nodes have a name with a hash sign. -/
def nameOf (d : Document) (n : Node) : String :=
  match d.attribute? n with
  | some attr => attr.name.base
  | none =>
    match (d.entry n.place).content with
    | .element tag => tag.name.base
    | .text _ => "#text"
    | .document => "#document"

/-- The qualifier of an element or attribute. -/
def qualifierOf (d : Document) (n : Node) : Option String :=
  match d.attribute? n with
  | some attr => attr.name.qualifier
  | none => (d.tag n).bind (·.name.qualifier)

/-- The namespace of an element or attribute. -/
def uriOf (d : Document) (n : Node) : Option String :=
  match d.attribute? n with
  | some attr => attr.uri
  | none => (d.tag n).bind (·.uri)

/-! ## Neighbours -/

/-- The parent of a node; an attribute's parent is its element. -/
def parent? (d : Document) (n : Node) : Option Node :=
  match n.attr with
  | some _ => some (Node.ofPlace n.place)
  | none => (d.entry n.place).parent.map Node.ofPlace

/-- The children of a node. An attribute has none. -/
def children (d : Document) (n : Node) : List Node :=
  match n.attr with
  | some _ => []
  | none => (d.entry n.place).children.map Node.ofPlace

def childElements (d : Document) (n : Node) : List Node :=
  (d.children n).filter d.isElement

def attributesOf (d : Document) (n : Node) : List Node :=
  match d.tag n with
  | some tag => (List.range tag.attributes.length).map fun index => ⟨n.place, some index⟩
  | none => []

def documentElement (d : Document) : Option Node :=
  (d.childElements root).head?

/-- The value of an attribute without a namespace. -/
def attributeValue (d : Document) (n : Node) (name : String) : Option String := do
  let attr ← (← d.tag n).attributes.find? fun a => a.uri.isNone && a.name.base == name
  return attr.value

/-- The value of an attribute in a namespace. -/
def attributeValueIn (d : Document) (n : Node) (uri name : String) : Option String := do
  let attr ← (← d.tag n).attributes.find? fun a => a.uri == some uri && a.name.base == name
  return attr.value

/-! ## Walks -/

/-- Takes the next node of `pending`, puts its children in front of the rest, and goes on, for at
most `steps` nodes. -/
def walk (d : Document) : Nat → List Node → List Node
  | 0, _ => []
  | _, [] => []
  | steps + 1, n :: pending => n :: d.walk steps (d.children n ++ pending)

/-- The descendants of a node in document order. -/
def descendants (d : Document) (n : Node) : List Node :=
  d.walk d.entries.size (d.children n)

/-- A node and its ancestors, nearest first, up to `steps` of them. -/
def climb (d : Document) : Nat → Nat → List Nat
  | 0, _ => []
  | steps + 1, place =>
    place :: match (d.entry place).parent with
      | some parent => d.climb steps parent
      | none => []

/-- The place of a node, or of an attribute's element, and the places of its ancestors, nearest
first. -/
def ancestry (d : Document) (n : Node) : List Nat :=
  d.climb d.entries.size n.place

/-! ## Namespaces -/

/-- The declarations that reach a node, nearest first. -/
def reachingDeclarations (d : Document) (n : Node) : List Declaration :=
  (d.ancestry n).flatMap fun place => ((d.tagAt place).map (·.declarations)).getD []

/-- The namespace bound to a qualifier at a node; without a qualifier the default namespace. The
nearest declaration counts. -/
def lookupNamespace (d : Document) (n : Node) (qualifier : Option String) : Option String :=
  if qualifier = some "xml" then some xmlNamespace
  else
    match (d.reachingDeclarations n).find? (·.qualifier == qualifier) with
    | some declaration => if declaration.uri.isEmpty then none else some declaration.uri
    | none => none

/-- The first declaration of each qualifier that is not among those `seen`. -/
def firstOfEach (seen : List (Option String)) : List Declaration → List Declaration
  | [] => []
  | first :: rest =>
    if seen.contains first.qualifier then firstOfEach seen rest
    else first :: firstOfEach (first.qualifier :: seen) rest

/-- The declarations in effect at a node, nearest element first. -/
def namespacesInScope (d : Document) (n : Node) : List Declaration :=
  firstOfEach [] (d.reachingDeclarations n)

/-- Registers a qualifier for path expressions; a known one keeps its position. -/
def register (d : Document) (qualifier uri : String) : Document :=
  { d with registered :=
      if d.registered.any (·.1 == qualifier) then
        d.registered.map fun known => if known.1 == qualifier then (qualifier, uri) else known
      else d.registered ++ [(qualifier, uri)] }

/-! ## Values -/

/-- The character data of a node that holds some. -/
def ownText (d : Document) (n : Node) : Option String :=
  match (d.entry n.place).content with
  | .text text => some text
  | _ => none

/-- The string value: an attribute's value, character data, or all character data below a node. -/
def text (d : Document) (n : Node) : String :=
  match d.attribute? n with
  | some attr => attr.value
  | none =>
    match d.ownText n with
    | some text => text
    | none => String.join ((d.descendants n).filterMap d.ownText)

/-! ## Standalone copies -/

/-- Appends a copy of the node at `place` and of everything below it, as the last child of `parent`.
-/
def copyInto (d : Document) : Nat → Array Entry → Nat → Nat → Array Entry
  | 0, target, _, _ => target
  | steps + 1, target, parent, place =>
    let source := d.entry place
    let copy := target.size
    let target := target.modify parent fun e => { e with children := e.children ++ [copy] }
    let target := target.push ⟨some parent, [], source.content⟩
    source.children.foldl (fun target child => d.copyInto steps target copy child) target

/-- An element and everything below it as a document of its own. The declarations in effect at the
element stand on the new document element, farthest first. -/
def subtree (d : Document) (n : Node) : Document :=
  let copied :=
    if d.isElement n then d.copyInto d.entries.size blankEntries 0 n.place else blankEntries
  let declarations := (d.namespacesInScope n).reverse
  { entries := copied.modify 1 fun e =>
      match e.content with
      | .element tag => { e with content := .element { tag with declarations } }
      | _ => e
    registered := d.registered }

end Document

end SoapKit.Xml
