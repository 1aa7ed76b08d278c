import SoapKit.Client.Content
import SoapKit.Naming.Aliases
import SoapKit.Naming.Case
import SoapKit.Naming.Fresh

/-!
# Layouts of records

The complex types that a client meets get records in the order in which they are met. To find out
the fields of a record means to meet further types, so records are completed one after the other
until none is left; there are no more of them than names of types and elements in the description.

The state that this takes is carried through all that is written for one client: the qualifiers of
namespaces, the records so far, and the names taken by types.
-/

namespace SoapKit.Client

open Naming (Aliases FreshNames)
open Rust (Ident)
open Wsdl (QName Definitions)

/-- What a client is written from. -/
structure Setting where
  defs : Definitions
  isEncoded : Bool

/-- What is known while a client is written. -/
structure Workbench where
  aliases : Aliases
  layouts : List Layout
  typeNames : FreshNames

/-- A step of writing a client. -/
abbrev Writing (α : Type) := StateT Workbench (Except Error) α

namespace Workbench

/-- Nothing known yet but some names that no type may have. -/
def start (defs : Definitions) (reserved : List String) : Workbench :=
  { aliases := .ofDeclared defs.qualifiers
    layouts := []
    typeNames := reserved.foldl FreshNames.reserve .empty }

/-- The workbench with the fields of the layout at a position. -/
def setFields (bench : Workbench) (index : Nat) (fields : List Field) : Workbench :=
  { bench with layouts := bench.layouts.modify index fun layout => { layout with fields } }

end Workbench

def qualifier (uri : String) : Writing String := fun bench =>
  let (qualifier, aliases) := bench.aliases.qualifier uri
  .ok (qualifier, { bench with aliases })

/-- A name as it is written in documents. -/
def xmlName (name : QName) : Writing String := fun bench =>
  let (written, aliases) := bench.aliases.xmlName name
  .ok (written, { bench with aliases })

/-! ## Registration -/

def Layout.kind (layout : Layout) (index : Nat) : ValueKind :=
  .complex index layout.ident layout.writer

/-- Registers a record, unless there is one of its name. -/
def register (record : Record) : Writing ValueKind := fun bench =>
  match bench.layouts.findIdx? (·.record.name == record.name) with
  | some index =>
    match bench.layouts[index]? with
    | some layout => .ok (layout.kind index, bench)
    | none => .error (.unknownType record.name.text)
  | none =>
    let (name, typeNames) := bench.typeNames.allocate (Naming.camelize record.name.base)
    match Ident.withLead? "build_" (Naming.underscore name) with
    | none => .error (.unwritableName name)
    | some writer =>
      let layout : Layout := ⟨record, Ident.ofName name, writer, []⟩
      .ok (layout.kind bench.layouts.length,
        { bench with typeNames, layouts := bench.layouts ++ [layout] })

def registerType (s : Setting) (name : QName) : Writing (Option ValueKind) :=
  match s.defs.complexType? name with
  | some type => some <$> register ⟨name, false, type⟩
  | none => pure none

/-! ## Kinds of values -/

/-- How values of a named type are written. -/
def kindOfType (s : Setting) (name : QName) : Writing ValueKind := do
  match ← registerType s name with
  | some kind => return kind
  | none => return .simple (valueType s.defs name) (some name)

def anyKind : ValueKind := .simple .text none

/-- How values of an element are written that is declared outside of types. -/
def kindOfGlobal (s : Setting) (element : Wsdl.Element) : Writing ValueKind :=
  match element.typeName, element.definition with
  | some name, _ => kindOfType s name
  | none, some (.complex type) => register ⟨element.name, true, type⟩
  | none, some definition => return .simple (definedType (valueType s.defs) definition) none
  | none, none => return anyKind

/-- The element that is declared under a name outside of types. -/
def globalElement (s : Setting) (name : QName) : Writing Wsdl.Element :=
  match s.defs.elements.get? name with
  | some element => return { element with name }
  | none => throw (.unknownElement name.text)

/-- The name and the kind of value of a part of a message. -/
def kindOfPart (s : Setting) (part : Wsdl.Part) : Writing (String × ValueKind) := do
  match part.reference with
  | .type name => return (part.name, ← kindOfType s name)
  | .element name =>
    let element ← globalElement s name
    let written ← xmlName element.name
    return (written, ← kindOfGlobal s element)

/-- How values of an element in a type are written. -/
def kindOfLocal (s : Setting) (element : Wsdl.Element) : Writing ValueKind := do
  if element.isReference then
    kindOfGlobal s (← globalElement s element.name)
  else if element.definition.isSome then
    throw (.notSupported "inline nested type definition" element.name.text)
  else match element.typeName with
    | some name => kindOfType s name
    | none => return anyKind

/-! ## Fields -/

/-- The identifier of a field, with the names of fields taken so far. -/
def fieldIdent (taken : FreshNames) (name : String) : Ident × FreshNames :=
  let (name, taken) := taken.allocate name
  (Ident.ofName name, taken)

def attributeFields (s : Setting) : FreshNames → List (QName × Wsdl.Attribute × Wsdl.Attribute) →
    Writing (List Field × FreshNames)
  | taken, [] => return ([], taken)
  | taken, (name, use, declared) :: rest => do
    let type := declaredType s.defs declared.typeName declared.definition
    let written ← if use.isReference then xmlName name else pure name.base
    let (ident, taken) := fieldIdent taken (Naming.underscore name.base)
    let (fields, taken) ← attributeFields s taken rest
    return (⟨ident, .attribute written type (use.usage == .required)⟩ :: fields, taken)

/-- The field of the text of a type with simple content. -/
def valueFields (s : Setting) (taken : FreshNames) (type : Wsdl.ComplexType) :
    List Field × FreshNames :=
  match type.derivation.filter (·.content == .simple) with
  | some derivation =>
    let (ident, taken) := fieldIdent taken "value"
    ([⟨ident, .value (valueType s.defs derivation.base)⟩], taken)
  | none => ([], taken)

/-- How many values the field of an element has. -/
def wrapperOf (element : Wsdl.Element) : Wrapper :=
  if element.occurs.isRepeated then .many
  else if element.occurs.isOptional || element.isNillable then .option
  else .one

def elementFields (s : Setting) : FreshNames → List Wsdl.Element → Writing (List Field)
  | _, [] => return []
  | taken, element :: rest => do
    let kind ← kindOfLocal s element
    let written ← if element.isQualified then xmlName element.name else pure element.name.base
    let (ident, taken) := fieldIdent taken (Naming.underscore element.name.base)
    return ⟨ident, .element written kind (wrapperOf element)⟩ :: (← elementFields s taken rest)

/-- The fields of a record: attributes, text, elements. -/
def fieldsOf (s : Setting) (record : Record) : Writing (List Field) := do
  let uses ← attributesOf s.defs record.type
  let (attributes, taken) ← attributeFields s .empty uses.entries
  let (values, taken) := valueFields s taken record.type
  let elements ← elementFields s taken (← elementsOf s.defs record)
  return attributes ++ values ++ elements

/-- Finds out the fields of the records from a position on. -/
def completeFrom (s : Setting) : Nat → Nat → Writing Unit
  | 0, _ => return
  | steps + 1, index => do
    match (← get).layouts[index]? with
    | none => return
    | some layout =>
      let fields ← fieldsOf s layout.record
      modify fun bench => bench.setFields index fields
      completeFrom s steps (index + 1)

/-- How many records there can be at most. -/
def recordLimit (defs : Definitions) : Nat :=
  defs.types.entries.length + defs.elements.entries.length

def completeLayouts (s : Setting) : Writing Unit :=
  completeFrom s (recordLimit s.defs) 0

end SoapKit.Client
