import SoapKit.Client.Error
import SoapKit.Client.Record
import SoapKit.Soap.Endpoint
import SoapKit.Wsdl.Definitions

/-!
# Content of complex types

The attributes and elements of a complex type together with those that it takes over from its base
types and from groups. Base types may lead back to themselves, so no more than a fixed number of
levels is followed.
-/

namespace SoapKit.Client

open Wsdl (QName Definitions Attribute AttributeGroup ComplexType ModelGroup Particle
  TypeDefinition)

/-- How many levels of base types and groups are followed. -/
def levelLimit : Nat := 32

/-! ## Types of values -/

/-- The type of values of a built-in schema type. -/
def builtInType (name : String) : ValueType :=
  match name with
  | "boolean" => .primitive "bool"
  | "byte" => .primitive "i8"
  | "short" => .primitive "i16"
  | "int" => .primitive "i32"
  | "long" | "integer" | "negativeInteger" | "nonPositiveInteger" => .primitive "i64"
  | "unsignedByte" => .primitive "u8"
  | "unsignedShort" => .primitive "u16"
  | "unsignedInt" => .primitive "u32"
  | "unsignedLong" | "nonNegativeInteger" | "positiveInteger" => .primitive "u64"
  | "float" => .primitive "f32"
  | "double" | "decimal" => .primitive "f64"
  | "IDREFS" | "ENTITIES" | "NMTOKENS" => .list .text
  | _ => .text

/-- The type of values of a defined type, where `named` gives the types of named ones. -/
def definedType (named : QName → ValueType) : TypeDefinition → ValueType
  | .simple type => named type.base
  | .list type => .list (named type.item)
  | .union _ | .complex _ => .text

/-- The type of values of a named type, which is followed through at most `levels` definitions. -/
def typeWithin (defs : Definitions) : Nat → QName → ValueType
  | levels, name =>
    if name.uri = some Soap.schemaNamespace then builtInType name.base
    else match levels, defs.types.get? name with
      | levels + 1, some definition => definedType (typeWithin defs levels) definition
      | _, _ => .text

def valueType (defs : Definitions) (name : QName) : ValueType :=
  typeWithin defs levelLimit name

/-- The type of values with an optional type name and an optional definition in place. -/
def declaredType (defs : Definitions) (name : Option QName) (definition : Option TypeDefinition) :
    ValueType :=
  match name, definition with
  | some name, _ => valueType defs name
  | none, some definition => definedType (valueType defs) definition
  | none, none => .text

/-! ## Attributes -/

/-- Attributes by name: how each is used, and how it is declared. -/
abbrev AttributeUses := OrderedMap QName (Attribute × Attribute)

/-- Puts an attribute to others. A prohibited one takes away what is there. -/
def addAttribute (defs : Definitions) (uses : AttributeUses) (attr : Attribute) :
    Except Error AttributeUses :=
  if attr.usage = .prohibited then .ok (uses.erase attr.name)
  else if attr.isReference then
    match defs.attributes.get? attr.name with
    | some declared => .ok (uses.insert attr.name (attr, declared))
    | none => .error (.unknownAttribute attr.name.text)
  else .ok (uses.insert attr.name (attr, attr))

/-- The group that is meant by a group or a reference to one. -/
def resolveGroup (defs : Definitions) (group : AttributeGroup) : Except Error AttributeGroup :=
  if group.isReference then
    match defs.attributeGroups.get? group.name with
    | some declared => .ok declared
    | none => .error (.unknownAttributeGroup group.name.text)
  else .ok group

/-- Puts the attributes of a group to others, those of groups in it first. -/
def addGroup (defs : Definitions) :
    Nat → AttributeUses → AttributeGroup → Except Error AttributeUses
  | 0, uses, _ => .ok uses
  | levels + 1, uses, group => do
    let group ← resolveGroup defs group
    let uses ← group.groups.foldlM (addGroup defs levels) uses
    group.attributes.foldlM (addAttribute defs) uses

/-- Puts the attributes of a type to others: those of its base type, of its groups, and its own. -/
def addAttributes (defs : Definitions) :
    Nat → AttributeUses → ComplexType → Except Error AttributeUses
  | 0, uses, _ => .ok uses
  | levels + 1, uses, type => do
    let base := type.derivation.bind fun derivation => defs.complexType? derivation.base
    let uses ← match base with
      | some base => addAttributes defs levels uses base
      | none => pure uses
    let uses ← type.attributeGroups.foldlM (addGroup defs levels) uses
    type.attributes.foldlM (addAttribute defs) uses

def attributesOf (defs : Definitions) (type : ComplexType) : Except Error AttributeUses :=
  addAttributes defs (levelLimit + 1) .empty type

/-! ## Elements -/

mutual

/-- The elements of a content in order. A record cannot express a choice, and groups are not looked
up. -/
def contentElements (owner : QName) : ModelGroup → Except Error (List Wsdl.Element)
  | .all elements => .ok elements
  | .sequence particles => particleElements owner particles
  | .group ⟨_, some content⟩ => contentElements owner content
  | .group ⟨_, none⟩ => .ok []
  | .choice _ => .error (.notSupported "xs:choice" owner.text)
  | .groupReference name =>
    .error (.notSupported "group reference" (name.text ++ " in " ++ owner.text))

def particleElements (owner : QName) : List Particle → Except Error (List Wsdl.Element)
  | [] => .ok []
  | .element element :: rest => do return element :: (← particleElements owner rest)
  | .nested content :: rest => do
    return (← contentElements owner content) ++ (← particleElements owner rest)

end

/-- The elements of a type in order: those of the type that it extends, then its own. -/
def elementsWithin (defs : Definitions) (owner : QName) : Nat → ComplexType →
    Except Error (List Wsdl.Element)
  | 0, _ => .ok []
  | levels + 1, type => do
    let base := (type.derivation.filter (·.method == .extension)).bind fun derivation =>
      defs.complexType? derivation.base
    let inherited ← match base with
      | some base => elementsWithin defs owner levels base
      | none => pure []
    let own ← match type.content with
      | some content => contentElements owner content
      | none => pure []
    return inherited ++ own

/-- The elements of a record in order. -/
def elementsOf (defs : Definitions) (record : Record) : Except Error (List Wsdl.Element) :=
  elementsWithin defs record.name (levelLimit + 1) record.type

end SoapKit.Client
