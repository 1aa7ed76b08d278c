import SoapKit.OrderedMap
import SoapKit.Xml.Name
import SoapKit.Xml.Output
import SoapKit.Xml.Value

/-!
# Drafts of outgoing documents

A draft is a document to be written. Its elements carry qualifiers, and aliases on the draft or on
elements say which namespaces these stand for. A namespace is declared where it is first needed: on
the outermost element that uses its qualifier, unless the same declaration is already in force
there. The qualifier `*` of a new element stands for that of its parent.

Elements are filled by state actions, so that a tree is built from nested actions.
-/

namespace SoapKit.Xml

/-- Why a draft cannot be written. -/
inductive BuildError where
  | noDocumentElement
  | multipleDocumentElements
  /-- An element has both a value and child elements. -/
  | mixedContent (name : String)
  /-- Nothing says what a qualifier stands for. -/
  | unregistered (qualifier : String)
  /-- An element that has to be there is missing. -/
  | missingElement (name : String)
  deriving Repr, DecidableEq

def BuildError.message : BuildError → String
  | .noDocumentElement => "No document element added"
  | .multipleDocumentElements => "There can only be one element at the top level"
  | .mixedContent name => "Element <" ++ name ++ "> has both a text value and child elements"
  | .unregistered qualifier => "No alias registered for prefix '" ++ qualifier ++ "'"
  | .missingElement name => "Document has no <" ++ name ++ "> element"

/-- The text of an element: data, or markup that is written as it is. -/
inductive DraftText where
  | data (text : String)
  | markup (text : String)
  deriving Repr, DecidableEq

/-- The characters of an element's text. -/
def DraftText.text : DraftText → String
  | .data text => text
  | .markup text => text

/-- An element to be written. -/
inductive DraftElement where
  | mk (name : Name) (aliases : OrderedMap String String) (attributes : List (String × String))
      (declared : List String) (children : List DraftElement) (value : Option DraftText)
  deriving Inhabited

namespace DraftElement

def name : DraftElement → Name
  | mk name .. => name

def aliases : DraftElement → OrderedMap String String
  | mk _ aliases .. => aliases

/-- The attributes under their written names. -/
def attributes : DraftElement → List (String × String)
  | mk _ _ attributes .. => attributes

/-- The qualifiers that are declared whether anything uses them or not. -/
def declared : DraftElement → List String
  | mk _ _ _ declared .. => declared

def children : DraftElement → List DraftElement
  | mk _ _ _ _ children _ => children

def value : DraftElement → Option DraftText
  | mk _ _ _ _ _ value => value

/-- An element with a name and nothing else. -/
def blank (name : Name) : DraftElement :=
  mk name .empty [] [] [] none

/-- The name of a new element; the qualifier `*` is that of the parent. -/
def childName (parentQualifier : Option String) (written : String) : Name :=
  let name := Name.parse written
  if name.qualifier = some "*" then { name with qualifier := parentQualifier } else name

/-! ## Filling -/

/-- Registers an alias on an element. -/
def «alias» (qualifier uri : String) : StateM DraftElement Unit :=
  modify fun (mk name aliases attributes declared children value) =>
    mk name (aliases.insert qualifier uri) attributes declared children value

/-- Declares a qualifier on an element even if no name on it uses it. -/
def declare (qualifier : String) : StateM DraftElement Unit :=
  modify fun (mk name aliases attributes declared children value) =>
    let declared := if declared.contains qualifier then declared else declared ++ [qualifier]
    mk name aliases attributes declared children value

/-- Sets the text of an element; an absent value clears it. -/
def setValue (v : Value) : StateM DraftElement Unit :=
  modify fun (mk name aliases attributes declared children _) =>
    mk name aliases attributes declared children (v.lexical?.map .data)

/-- Sets markup that is written as it is. -/
def setMarkup (markup : String) : StateM DraftElement Unit :=
  modify fun (mk name aliases attributes declared children _) =>
    mk name aliases attributes declared children (some (.markup markup))

/-- Sets an attribute; an absent value leaves it as it is. -/
def setAttribute (key : String) (v : Value) : StateM DraftElement Unit :=
  modify fun (mk name aliases attributes declared children value) =>
    let attributes := match v.lexical? with
      | some text => ((OrderedMap.mk attributes).insert key text).entries
      | none => attributes
    mk name aliases attributes declared children value

/-- Appends a finished child element. -/
def attach (child : DraftElement) : StateM DraftElement Unit :=
  modify fun (mk name aliases attributes declared children value) =>
    mk name aliases attributes declared (children ++ [child]) value

/-- Adds a child element and fills it. -/
def add {α : Type} (written : String) (fill : StateM DraftElement α) : StateM DraftElement α :=
  fun (mk name aliases attributes declared children value) =>
    let (result, child) := fill (blank (childName name.qualifier written))
    (result, mk name aliases attributes declared (children ++ [child]) value)

def addValue (written : String) (v : Value) : StateM DraftElement Unit :=
  add written (setValue v)

/-! ## Searching -/

/-- The value of an attribute by its written name. -/
def attributeValue (e : DraftElement) (key : String) : Option String :=
  (OrderedMap.mk e.attributes).get? key

/-- Whether a name is that of an element, with or without its qualifier. -/
def isNamed (e : DraftElement) (wanted : String) : Bool :=
  e.name.base == wanted || e.name.text == wanted

mutual

/-- All elements of a name, an element before those inside of it. -/
def findAll (wanted : String) : DraftElement → List DraftElement
  | mk name aliases attributes declared children value =>
    let e := mk name aliases attributes declared children value
    (if e.isNamed wanted then [e] else []) ++ findAllIn wanted children

/-- All elements of a name in a list of elements. -/
def findAllIn (wanted : String) : List DraftElement → List DraftElement
  | [] => []
  | e :: rest => findAll wanted e ++ findAllIn wanted rest

end

/-- The first element of a name. -/
def find? (wanted : String) (e : DraftElement) : Option DraftElement :=
  (findAll wanted e).head?

mutual

/-- Acts on the first element of a name, if there is one. -/
def atFirst {α : Type} (wanted : String) (act : StateM DraftElement α) :
    DraftElement → Option (α × DraftElement)
  | mk name aliases attributes declared children value =>
    let e := mk name aliases attributes declared children value
    if e.isNamed wanted then some (act e)
    else (atFirstIn wanted act children).map fun (result, children) =>
      (result, mk name aliases attributes declared children value)

/-- Acts on the first element of a name in a list of elements. -/
def atFirstIn {α : Type} (wanted : String) (act : StateM DraftElement α) :
    List DraftElement → Option (α × List DraftElement)
  | [] => none
  | e :: rest =>
    match atFirst wanted act e with
    | some (result, e) => some (result, e :: rest)
    | none => (atFirstIn wanted act rest).map fun (result, rest) => (result, e :: rest)

end

/-! ## Writing -/

/-- What is known at an element: the aliases of the draft and of the elements around it, and the
declarations in force, both innermost first. -/
structure Scope where
  aliases : List (OrderedMap String String)
  inForce : List (String × String)

/-- The namespace that the nearest alias gives a qualifier. -/
def Scope.lookup (scope : Scope) (qualifier : String) : Option String :=
  scope.aliases.findSome? (·.get? qualifier)

/-- The namespace that a declaration in force gives a qualifier. -/
def Scope.declared? (scope : Scope) (qualifier : String) : Option String :=
  (scope.inForce.find? (·.1 == qualifier)).map (·.2)

/-- The qualifiers of attributes that need a declaration. -/
def attributeQualifiers (attributes : List (String × String)) : List String :=
  (attributes.filterMap fun (key, _) => (Name.parse key).qualifier).filter fun qualifier =>
    qualifier != "xmlns" && qualifier != "xml"

/-- The qualifiers that an element uses, each once: its own, the declared ones, those of its
attributes. -/
def usedQualifiers (e : DraftElement) : List String :=
  (e.name.qualifier.toList ++ e.declared ++ attributeQualifiers e.attributes).eraseDups

/-- The written name of the attribute that declares a qualifier. -/
def declarationKey (qualifier : String) : String := "xmlns:" ++ qualifier

/-- The declaration that a qualifier needs on an element: none where one is written out by hand or
in force already. -/
def neededDeclaration (e : DraftElement) (scope : Scope) (qualifier : String) :
    Except BuildError (Option (String × String)) :=
  if e.attributes.any (·.1 == declarationKey qualifier) then .ok none
  else match scope.lookup qualifier, scope.declared? qualifier with
    | none, some _ => .ok none
    | none, none => .error (.unregistered qualifier)
    | some uri, inForce => .ok (if inForce = some uri then none else some (qualifier, uri))

/-- The declarations that an element needs, for its used qualifiers in order. -/
def neededDeclarations (e : DraftElement) (scope : Scope) :
    Except BuildError (List (String × String)) := do
  let needed ← e.usedQualifiers.mapM (e.neededDeclaration scope)
  return needed.filterMap id

/-- The declarations written out by hand among attributes. -/
def handWritten (attributes : List (String × String)) : List (String × String) :=
  attributes.filterMap fun (key, value) =>
    (Text.after? "xmlns:".toList key.toList).map fun qualifier => (String.ofList qualifier, value)

/-- The scope inside of an element that adds declarations. -/
def Scope.within (scope : Scope) (added : List (String × String)) (e : DraftElement) : Scope :=
  { scope with inForce := (handWritten e.attributes).reverse ++ added.reverse ++ scope.inForce }

mutual

/-- The pieces of an element. Its aliases count for its own name. -/
def pieces (scope : Scope) : DraftElement → Except BuildError (List Piece)
  | mk name aliases attributes declared children value => do
    let e := mk name aliases attributes declared children value
    let written := name.text
    if value.isSome && !children.isEmpty then throw (.mixedContent written)
    let scope := { scope with aliases := aliases :: scope.aliases }
    let added ← e.neededDeclarations scope
    let tag := added.map (fun (qualifier, uri) => (declarationKey qualifier, uri)) ++ attributes
    match value with
    | some (.data text) => return [.opening written tag, .text text, .closing written]
    | some (.markup text) => return [.opening written tag, .verbatim text, .closing written]
    | none =>
      if children.isEmpty then return [.empty written tag]
      else
        let inner ← piecesIn (scope.within added e) children
        return .opening written tag :: inner ++ [.closing written]

/-- The pieces of elements one after the other. -/
def piecesIn (scope : Scope) : List DraftElement → Except BuildError (List Piece)
  | [] => .ok []
  | e :: rest => return (← pieces scope e) ++ (← piecesIn scope rest)

end

end DraftElement

/-- A document to be written. -/
structure Draft where
  aliases : OrderedMap String String
  elements : List DraftElement

namespace Draft

def blank : Draft := ⟨.empty, []⟩

/-- Registers an alias for the whole draft. -/
def «alias» (qualifier uri : String) : StateM Draft Unit :=
  modify fun draft => { draft with aliases := draft.aliases.insert qualifier uri }

/-- Adds an element at the top and fills it. -/
def add {α : Type} (written : String) (fill : StateM DraftElement α) :
    StateM Draft α := fun draft =>
  let (result, e) := fill (.blank (DraftElement.childName none written))
  (result, { draft with elements := draft.elements ++ [e] })

/-- Acts on the first element at the top. -/
def atRoot {α : Type} (act : StateM DraftElement α) : StateM Draft (Option α) := fun draft =>
  match draft.elements with
  | [] => (none, draft)
  | e :: rest =>
    let (result, e) := act e
    (some result, { draft with elements := e :: rest })

/-- Acts on the first element of a name. -/
def atFirst {α : Type} (wanted : String) (act : StateM DraftElement α) : StateM Draft (Option α) :=
  fun draft =>
    match DraftElement.atFirstIn wanted act draft.elements with
    | some (result, elements) => (some result, { draft with elements })
    | none => (none, draft)

def findAll (wanted : String) (draft : Draft) : List DraftElement :=
  DraftElement.findAllIn wanted draft.elements

def find? (wanted : String) (draft : Draft) : Option DraftElement :=
  (draft.findAll wanted).head?

/-- The text of a draft, which needs exactly one element at the top. -/
def toXml (draft : Draft) : Except BuildError String :=
  match draft.elements with
  | [] => .error .noDocumentElement
  | [root] => do
    let pieces ← root.pieces ⟨[draft.aliases], []⟩
    return Piece.render (.declaration :: pieces)
  | _ => .error .multipleDocumentElements

end Draft

end SoapKit.Xml
