import SoapKit.Wsdl.Schema
import SoapKit.Wsdl.Service

/-!
# Definitions

All that a description declares, by name. Messages, interfaces, bindings, elements, types and the
kinds of groups each have names of their own; a later declaration of a name takes the place of an
earlier one.
-/

namespace SoapKit.Wsdl

/-- One declaration of a description. -/
inductive Declaration where
  | message (message : Message)
  | interface (interface : Interface)
  | binding (binding : Binding)
  | endpoint (endpoint : Endpoint)
  | element (element : Element)
  | type (name : QName) (definition : TypeDefinition)
  | group (name : QName) (group : ElementGroup)
  | attributeGroup (group : AttributeGroup)
  | attribute (attr : Attribute)

/-- Everything declared, by name. -/
structure Definitions where
  targetUri : Option String
  qualifiers : OrderedMap String String
  messages : OrderedMap QName Message
  interfaces : OrderedMap QName Interface
  bindings : OrderedMap QName Binding
  endpoints : List Endpoint
  elements : OrderedMap QName Element
  types : OrderedMap QName TypeDefinition
  groups : OrderedMap QName ElementGroup
  attributeGroups : OrderedMap QName AttributeGroup
  attributes : OrderedMap QName Attribute

namespace Definitions

def empty : Definitions :=
  { targetUri := none
    qualifiers := .empty
    messages := .empty
    interfaces := .empty
    bindings := .empty
    endpoints := []
    elements := .empty
    types := .empty
    groups := .empty
    attributeGroups := .empty
    attributes := .empty }

def add (defs : Definitions) : Declaration → Definitions
  | .message message =>
    { defs with messages := defs.messages.insert message.name message }
  | .interface interface =>
    { defs with interfaces := defs.interfaces.insert interface.name interface }
  | .binding binding =>
    { defs with bindings := defs.bindings.insert binding.name binding }
  | .endpoint endpoint =>
    { defs with endpoints := defs.endpoints ++ [endpoint] }
  | .element element =>
    { defs with elements := defs.elements.insert element.name element }
  | .type name definition =>
    { defs with types := defs.types.insert name definition }
  | .group name group =>
    { defs with groups := defs.groups.insert name group }
  | .attributeGroup group =>
    { defs with attributeGroups := defs.attributeGroups.insert group.name group }
  | .attribute attr =>
    { defs with attributes := defs.attributes.insert attr.name attr }

/-- The first binding with a local name, in whatever namespace. -/
def bindingNamed? (defs : Definitions) (name : String) : Option Binding :=
  defs.bindings.values.find? (·.name.base == name)

def complexType? (defs : Definitions) (name : QName) : Option ComplexType :=
  match defs.types.get? name with
  | some (.complex type) => some type
  | _ => none

/-- Where a binding is served. -/
def endpointsFor (defs : Definitions) (binding : QName) : List Endpoint :=
  defs.endpoints.filter (·.binding == binding)

end Definitions

end SoapKit.Wsdl
