import SoapKit.Wsdl.QName

/-!
# Schemas

What a schema declares: elements, attributes and types, and groups of them that other declarations
refer to. Declarations refer to one another by qualified names only.
-/

namespace SoapKit.Wsdl

/-- How often an element may occur at most. -/
inductive MaxOccurs where
  | bounded (count : Nat)
  | unbounded
  deriving Repr, DecidableEq, Inhabited

/-- How often an element occurs. -/
structure Occurs where
  min : Nat
  max : MaxOccurs
  deriving Repr, DecidableEq, Inhabited

namespace Occurs

/-- What holds when nothing is said. -/
def once : Occurs := ⟨1, .bounded 1⟩

def isOptional (occurs : Occurs) : Bool :=
  occurs.min == 0

def isRepeated (occurs : Occurs) : Bool :=
  match occurs.max with
  | .bounded count => 1 < count
  | .unbounded => true

end Occurs

/-- Whether an attribute has to be given. -/
inductive AttributeUse where
  | optional
  | required
  | prohibited
  deriving Repr, DecidableEq, Inhabited

/-- Whether a derived type holds text or elements. -/
inductive ContentKind where
  | simple
  | complex
  deriving Repr, DecidableEq, Inhabited

/-- How a type is derived. -/
inductive DerivationMethod where
  | extension
  | restriction
  deriving Repr, DecidableEq, Inhabited

/-- What a type is derived from, and how. -/
structure Derivation where
  base : QName
  content : ContentKind
  method : DerivationMethod
  deriving Repr, DecidableEq, Inhabited

/-- A type that restricts another simple type. -/
structure SimpleType where
  name : Option QName
  base : QName
  enumeration : List String
  deriving Repr, DecidableEq, Inhabited

/-- A type of blank-separated items. -/
structure ListType where
  name : Option QName
  item : QName
  deriving Repr, DecidableEq, Inhabited

/-- A type whose values belong to one of several types. -/
structure UnionType where
  name : Option QName
  members : List QName
  deriving Repr, DecidableEq, Inhabited

mutual

/-- An element declaration, or a reference to one, which then has its name. A qualified element is
written in the namespace of its name. -/
structure Element where
  name : QName
  isReference : Bool
  isQualified : Bool
  typeName : Option QName
  definition : Option TypeDefinition
  default : Option String
  fixed : Option String
  occurs : Occurs
  isNillable : Bool
  substitutionGroup : Option QName

/-- An attribute declaration, or a reference to one, which then has its name. -/
structure Attribute where
  name : QName
  isReference : Bool
  typeName : Option QName
  definition : Option TypeDefinition
  default : Option String
  fixed : Option String
  usage : AttributeUse

/-- A group of attributes, or a reference to one, which then has its name and nothing in it. -/
structure AttributeGroup where
  name : QName
  isReference : Bool
  attributes : List Attribute
  groups : List AttributeGroup

/-- A type of elements or attributes. -/
inductive TypeDefinition where
  | complex (type : ComplexType)
  | simple (type : SimpleType)
  | list (type : ListType)
  | union (type : UnionType)

/-- A type of elements with attributes or elements in them. -/
structure ComplexType where
  name : Option QName
  derivation : Option Derivation
  attributes : List Attribute
  attributeGroups : List AttributeGroup
  content : Option ModelGroup

/-- What stands in an element: each element once in any order, particles one after the other, one of
several particles, or a group of these. -/
inductive ModelGroup where
  | all (elements : List Element)
  | sequence (particles : List Particle)
  | choice (particles : List Particle)
  | group (group : ElementGroup)
  | groupReference (name : QName)

/-- A part of a sequence or choice. -/
inductive Particle where
  | element (element : Element)
  | nested (content : ModelGroup)

/-- A group of elements. -/
structure ElementGroup where
  name : Option QName
  content : Option ModelGroup

end

instance : Inhabited ComplexType := ⟨⟨none, none, [], [], none⟩⟩

instance : Inhabited TypeDefinition := ⟨.complex default⟩

def TypeDefinition.name : TypeDefinition → Option QName
  | .complex type => type.name
  | .simple type => type.name
  | .list type => type.name
  | .union type => type.name

end SoapKit.Wsdl
