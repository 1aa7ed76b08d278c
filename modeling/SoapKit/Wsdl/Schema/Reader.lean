import SoapKit.Decimal.Integer
import SoapKit.Text.Blank
import SoapKit.Text.Split
import SoapKit.Wsdl.Definitions
import SoapKit.Wsdl.NameScope
import SoapKit.Xml.Elements

/-!
# Reading schemas

The declarations of a schema are read from its elements. What one declaration means depends on its
own subtree, on the namespaces in effect there, and on the schema's target namespace.

Types contain elements and elements contain types, so the readers call one another on the children
of a node. Their first argument is the depth to which they go down; no element lies deeper than the
document's table is long.
-/

namespace SoapKit.Wsdl

open Xml (Document Node)
open Soap (schemaNamespace)

/-- A part of a document whose names are read in one scope. Elements without a form of their own are
qualified when `qualifies` is set. -/
structure Reader where
  document : Document
  names : NameScope
  qualifies : Bool

namespace Reader

/-- The reader for what an element declares. Its target namespace goes before the inherited default.
-/
def inside (document : Document) (inherited : NameScope) (n : Node) : Reader :=
  { document
    names := inherited.withDefault
      ((document.attributeValue n "targetNamespace").or inherited.defaultUri)
    qualifies := document.attributeValue n "elementFormDefault" == some "qualified" }

/-! ## Attributes and names -/

def value? (r : Reader) (n : Node) (name : String) : Option String :=
  r.document.attributeValue n name

/-- The failure to find an attribute. -/
def missing (r : Reader) (n : Node) (name : String) : Error :=
  .missingAttribute (r.document.nameOf n) name

/-- The value of an attribute that has to be there. -/
def required (r : Reader) (n : Node) (name : String) : Except Error String :=
  match r.value? n name with
  | some value => .ok value
  | none => .error (r.missing n name)

/-- The name of the nearest declaration around a node that has one. -/
def describe (r : Reader) (n : Node) : String :=
  let named := (r.document.ancestry n).findSome? fun place =>
    (r.value? (Node.ofPlace place) "name").or (r.value? (Node.ofPlace place) "ref")
  named.getD (r.document.nameOf n)

def notSupported (r : Reader) (construct : String) (n : Node) : Error :=
  .notSupported construct (r.describe n)

/-- The full name of what a node declares. -/
def declared (r : Reader) (n : Node) : Except Error QName :=
  return r.names.qualify (← r.required n "name")

/-- The full name that a reference at a node means. -/
def resolve (r : Reader) (n : Node) (reference : String) : Except Error QName :=
  r.names.resolve r.document n reference

/-- The full name that an attribute at a node refers to, if it is there. -/
def resolve? (r : Reader) (n : Node) (name : String) : Except Error (Option QName) :=
  (r.value? n name).mapM (r.resolve n)

/-- The children of a node in the schema namespace. -/
def children (r : Reader) (n : Node) : List Node :=
  r.document.childrenIn n schemaNamespace

/-- The first child in the schema namespace with one of the names. -/
def childAmong? (r : Reader) (n : Node) (names : List String) : Option Node :=
  r.document.childAmong? n schemaNamespace names

/-- Whether a reference also defines something of its own. -/
def hasContent (r : Reader) (n : Node) : Bool :=
  (r.children n).any fun child => r.document.nameOf child != "annotation"

/-- The name of a type or group that has one. -/
def optionalName (r : Reader) (n : Node) : Option QName :=
  (r.value? n "name").map r.names.qualify

/-! ## Occurrence -/

def count? (text : String) : Option Nat :=
  Decimal.unsigned? Decimal.digit? 10 (Nat.pow 2 32 - 1) text.toList

/-- How often an element occurs. What is no number means once. -/
def occurs (r : Reader) (n : Node) : Occurs :=
  { min := (((r.value? n "minOccurs").map Text.trimmed).bind count?).getD Occurs.once.min
    max := match (r.value? n "maxOccurs").map Text.trimmed with
      | some "unbounded" => .unbounded
      | some text => ((count? text).map .bounded).getD Occurs.once.max
      | none => Occurs.once.max }

/-! ## Simple types -/

/-- The simple type that a node defines. -/
def simpleType (r : Reader) (n : Node) : Except Error TypeDefinition := do
  match r.childAmong? n ["restriction", "list", "union"] with
  | none => throw (r.notSupported "simpleType without restriction, list or union" n)
  | some content =>
    match r.document.nameOf content with
    | "restriction" =>
      let base ← r.resolve content (← r.required content "base")
      let values := (r.document.childrenNamed content schemaNamespace "enumeration").filterMap
        fun value => r.value? value "value"
      return .simple ⟨r.optionalName n, base, values⟩
    | "list" =>
      match r.value? content "itemType" with
      | none => throw (r.notSupported "inline list item type" n)
      | some item => return .list ⟨r.optionalName n, ← r.resolve content item⟩
    | _ =>
      if (r.childAmong? content ["simpleType"]).isSome then
        throw (r.notSupported "inline union member type" n)
      let members ← (Text.words ((r.value? content "memberTypes").getD "")).mapM (r.resolve content)
      return .union ⟨r.optionalName n, members⟩

/-! ## Types, elements and attributes -/

/-- What a complex type is derived from, and the node that holds its own content. -/
def derivation (r : Reader) (n : Node) : Except Error (Option Derivation × Node) := do
  match r.childAmong? n ["simpleContent", "complexContent"] with
  | none => return (none, n)
  | some content =>
    match r.childAmong? content ["extension", "restriction"] with
    | none => throw (r.notSupported "content without extension or restriction" n)
    | some inner =>
      let base ← r.resolve inner (← r.required inner "base")
      return (some
        { base
          content := if r.document.nameOf content = "simpleContent" then .simple else .complex
          method :=
            if r.document.nameOf inner = "extension" then .extension else .restriction }, inner)

/-- A part of a complex type. -/
inductive Member where
  | attribute (attr : Attribute)
  | attributeGroup (group : AttributeGroup)
  | content (content : ModelGroup)
  | other

/-- A complex type of its parts. The last content counts. -/
def complexOf (name : Option QName) (derivation : Option Derivation) (members : List Member) :
    ComplexType :=
  { name, derivation
    attributes := members.filterMap fun
      | .attribute attr => some attr
      | _ => none
    attributeGroups := members.filterMap fun
      | .attributeGroup group => some group
      | _ => none
    content := (members.filterMap fun
      | .content content => some content
      | _ => none).getLast? }

/-- The failure to go down any further. -/
def tooDeep (r : Reader) (n : Node) : Error :=
  r.notSupported "nesting beyond the document" n

/-- The group of elements that a node defines, with its content read by `content`. -/
def groupWith (r : Reader) (content : Node → Except Error ModelGroup) (n : Node) :
    Except Error ElementGroup := do
  return ⟨r.optionalName n, ← (r.childAmong? n ["all", "sequence", "choice"]).mapM content⟩

/-- The type that is defined inside an element or attribute, read by `definition`. -/
def inlineWith (r : Reader) (definition : Node → Except Error TypeDefinition) (n : Node) :
    Except Error (Option TypeDefinition) :=
  (r.childAmong? n ["complexType", "simpleType"]).mapM definition

/-- The name that an element or attribute declares or refers to. -/
def nameOrReference (r : Reader) (n : Node) : Except Error QName :=
  match r.value? n "ref" with
  | some reference => r.resolve n reference
  | none => r.declared n

/-- Whether an attribute has to be given. -/
def usage (r : Reader) (n : Node) : AttributeUse :=
  match r.value? n "use" with
  | some "required" => .required
  | some "prohibited" => .prohibited
  | _ => .optional

mutual

def typeDefinition (r : Reader) : Nat → Node → Except Error TypeDefinition
  | 0, n => .error (r.tooDeep n)
  | depth + 1, n => do
    if r.document.nameOf n = "complexType" then
      let (derivation, inner) ← r.derivation n
      let members ← (r.children inner).mapM fun child =>
        match r.document.nameOf child with
        | "attribute" => return .attribute (← r.attr depth child)
        | "attributeGroup" => return .attributeGroup (← r.attributeGroup depth child)
        | "anyAttribute" => throw (r.notSupported "xs:anyAttribute" child)
        | "all" | "sequence" | "choice" | "group" => return .content (← r.modelGroup depth child)
        | _ => return .other
      return .complex (complexOf (r.optionalName n) derivation members)
    else r.simpleType n

/-- The content that a node describes. -/
def modelGroup (r : Reader) : Nat → Node → Except Error ModelGroup
  | 0, n => .error (r.tooDeep n)
  | depth + 1, n =>
    let particles : Except Error (List Particle) := do
      let found ← (r.children n).mapM fun child =>
        match r.document.nameOf child with
        | "element" => return some (.element (← r.element depth child))
        | "sequence" | "choice" | "group" => return some (.nested (← r.modelGroup depth child))
        | "any" => throw (r.notSupported "xs:any" child)
        | _ => return none
      return found.filterMap id
    match r.document.nameOf n with
    | "all" =>
      return .all (← (r.document.childrenNamed n schemaNamespace "element").mapM (r.element depth))
    | "sequence" => return .sequence (← particles)
    | "choice" => return .choice (← particles)
    | _ =>
      match r.value? n "ref" with
      | some reference =>
        if r.hasContent n then throw (.invalidGroupReference reference)
        else return .groupReference (← r.resolve n reference)
      | none => return .group (← r.groupWith (r.modelGroup depth) n)

/-- The element that a node declares or refers to. -/
def element (r : Reader) : Nat → Node → Except Error Element
  | 0, n => .error (r.tooDeep n)
  | depth + 1, n => do
    let definition ← r.inlineWith (r.typeDefinition depth) n
    let isReference := (r.value? n "ref").isSome
    if isReference ∧ definition.isSome then
      throw (r.notSupported "inline type definition inside element reference" n)
    let name ← r.nameOrReference n
    let typeName ← r.resolve? n "type"
    let substitutionGroup ← r.resolve? n "substitutionGroup"
    return {
      name, isReference, typeName, definition, substitutionGroup
      isQualified := isReference || match r.value? n "form" with
        | some form => form == "qualified"
        | none => r.qualifies
      default := r.value? n "default"
      fixed := r.value? n "fixed"
      occurs := r.occurs n
      isNillable := r.value? n "nillable" == some "true" }

/-- The attribute that a node declares or refers to. -/
def attr (r : Reader) : Nat → Node → Except Error Attribute
  | 0, n => .error (r.tooDeep n)
  | depth + 1, n => do
    let name ← r.nameOrReference n
    let typeName ← r.resolve? n "type"
    let definition ← r.inlineWith (r.typeDefinition depth) n
    return {
      name, typeName, definition
      isReference := (r.value? n "ref").isSome
      default := r.value? n "default"
      fixed := r.value? n "fixed"
      usage := r.usage n }

/-- The group of attributes that a node defines or refers to. -/
def attributeGroup (r : Reader) : Nat → Node → Except Error AttributeGroup
  | 0, n => .error (r.tooDeep n)
  | depth + 1, n => do
    match r.value? n "ref" with
    | some reference =>
      if r.hasContent n then throw (.invalidGroupReference reference)
      return ⟨← r.resolve n reference, true, [], []⟩
    | none =>
      let name ← r.declared n
      let members ← (r.children n).mapM fun child =>
        match r.document.nameOf child with
        | "attribute" => return .attribute (← r.attr depth child)
        | "attributeGroup" => return .attributeGroup (← r.attributeGroup depth child)
        | "anyAttribute" => throw (r.notSupported "xs:anyAttribute" child)
        | "choice" => throw (r.notSupported "xs:choice inside attribute group" child)
        | _ => return .other
      let parts := complexOf none none members
      return ⟨name, false, parts.attributes, parts.attributeGroups⟩

end

/-! ## Declarations -/

/-- What a child of a schema declares. An element that stands in for another one is declared by that
one. -/
def schemaDeclaration (r : Reader) (n : Node) : Except Error (Option Declaration) := do
  let depth := r.document.entries.size
  match r.document.nameOf n with
  | "element" =>
    let element ← r.element depth n
    return if element.substitutionGroup.isNone then
      some (.element { element with isQualified := true }) else none
  | "complexType" | "simpleType" =>
    let name ← r.declared n
    return some (.type name (← r.typeDefinition depth n))
  | "group" =>
    let name ← r.declared n
    return some (.group name (← r.groupWith (r.modelGroup depth) n))
  | "attributeGroup" => return some (.attributeGroup (← r.attributeGroup depth n))
  | "attribute" => return some (.attribute (← r.attr depth n))
  | _ => return none

/-- The declarations of a schema in document order. -/
def schemaDeclarations (r : Reader) (schema : Node) : Except Error (List Declaration) := do
  return (← (r.children schema).mapM r.schemaDeclaration).filterMap id

end Reader

end SoapKit.Wsdl
