import SoapKit.Client.Source
import SoapKit.Proofs.Naming.Aliases

/-!
# The names that clients write

Which names the code for an operation or a record writes is a matter of the description alone: the
root of a request and its encoding style, the elements of parts and fields, attributes, and the
types that encoded messages announce. Only names in a namespace get a qualifier; local names stand
for themselves.
-/

namespace SoapKit.Rust

/-! ## Texts -/

mutual

/-- The texts in an expression, in their order. -/
@[simp] def Expr.texts : Expr → List String
  | .path _ => []
  | .text value => [value]
  | .ref target => target.texts
  | .field base _ => base.texts
  | .call _ args => Expr.textsOfAll args
  | .method receiver _ args => receiver.texts ++ Expr.textsOfAll args
  | .await base => base.texts
  | .closure _ body => Stmt.textsOfAll body
  | .record _ fields => Expr.textsOfFields fields

/-- The texts in expressions. -/
@[simp] def Expr.textsOfAll : List Expr → List String
  | [] => []
  | first :: rest => first.texts ++ Expr.textsOfAll rest

/-- The texts in the values of fields. -/
@[simp] def Expr.textsOfFields : List (String × Option Expr) → List String
  | [] => []
  | (_, some value) :: rest => value.texts ++ Expr.textsOfFields rest
  | (_, none) :: rest => Expr.textsOfFields rest

/-- The texts in a statement. -/
@[simp] def Stmt.texts : Stmt → List String
  | .drop value | .value value => value.texts
  | .forEach _ list body => list.texts ++ Stmt.textsOfAll body
  | .ifSome _ value body => value.texts ++ Stmt.textsOfAll body

/-- The texts in statements. -/
@[simp] def Stmt.textsOfAll : List Stmt → List String
  | [] => []
  | first :: rest => first.texts ++ Stmt.textsOfAll rest

end

/-- The texts in the body of a function. -/
@[simp] def Function.texts (function : Function) : List String :=
  Stmt.textsOfAll function.body

theorem Stmt.textsOfAll_append (first rest : List Stmt) :
    Stmt.textsOfAll (first ++ rest) = Stmt.textsOfAll first ++ Stmt.textsOfAll rest := by
  induction first with
  | nil => rfl
  | cons statement others ih =>
    rw [List.cons_append, Stmt.textsOfAll, Stmt.textsOfAll, ih, List.append_assoc]

/-- The qualifiers with their namespaces that a chain of calls registers. -/
def Expr.registered : Expr → List (String × String)
  | .method receiver "alias" [.text qualifier, .text uri] =>
    receiver.registered ++ [(qualifier, uri)]
  | _ => []

end SoapKit.Rust

namespace SoapKit.Client

open Naming (NameUse)
open Wsdl (QName Definitions Attribute)

/-- The type that is announced for values of a named type: those of complex types are written by
functions, which see to it themselves. -/
def announcedOfType (defs : Definitions) (name : QName) : Option QName :=
  if (defs.complexType? name).isSome then none else some name

/-- The type that is announced for values of the element that is declared under a name. -/
def announcedOfReference (defs : Definitions) (name : QName) : Option QName :=
  (defs.elements.get? name).bind fun element => element.typeName.bind (announcedOfType defs)

/-- The type that is announced for values of an element in a type. -/
def announcedOfLocal (defs : Definitions) (element : Wsdl.Element) : Option QName :=
  if element.isReference then announcedOfReference defs element.name
  else element.typeName.bind (announcedOfType defs)

/-- What is written to announce a type: the attribute, its value, and the qualifier in it. -/
def announcement (name : QName) : List NameUse :=
  [.name ⟨some Soap.instanceNamespace, "type"⟩, .name name] ++ name.uri.toList.map .qualifier

/-- What is written for a type if types are announced. -/
def announcements (s : Setting) (announced : Option QName) : List NameUse :=
  match announced, s.isEncoded with
  | some name, true => announcement name
  | _, _ => []

/-- What is written for a part of a message. -/
def partUses (s : Setting) (part : Wsdl.Part) : List NameUse :=
  match part.reference with
  | .type name => .text part.name :: announcements s (announcedOfType s.defs name)
  | .element name => .name name :: announcements s (announcedOfReference s.defs name)

/-- What is written for the root of a request. -/
def rootUse (operation : PlannedOperation) : NameUse :=
  match operation.root with
  | .qualified name => .name name
  | .plain => .text operation.name

/-- What is written for the encoding style of a request. -/
def styleUses (operation : PlannedOperation) : List NameUse :=
  match operation.encodingStyle with
  | some style => [.name ⟨some Soap.encodingNamespace, "encodingStyle"⟩, .text style]
  | none => []

/-- What is written for an operation. -/
def operationUses (s : Setting) (operation : PlannedOperation) : List NameUse :=
  [rootUse operation, .text operation.soapAction] ++ styleUses operation ++
    operation.parts.flatMap (partUses s)

/-- What is written for an attribute of a record. -/
def attributeUse (use : QName × Attribute × Attribute) : NameUse :=
  if use.2.1.isReference then .name use.1 else .text use.1.base

/-- What is written for an element in a record. -/
def elementUses (s : Setting) (element : Wsdl.Element) : List NameUse :=
  (if element.isQualified then .name element.name else .text element.name.base) ::
    announcements s (announcedOfLocal s.defs element)

/-- What is written for the attributes and elements of a record. -/
def contentUses (s : Setting) (record : Record) : Except Error (List NameUse) := do
  let attributes ← attributesOf s.defs record.type
  let elements ← elementsOf s.defs record
  return attributes.entries.map attributeUse ++ elements.flatMap (elementUses s)

theorem contentUses_eq_ok {s : Setting} {record : Record} {attributes : AttributeUses}
    {elements : List Wsdl.Element} (hattributes : attributesOf s.defs record.type = .ok attributes)
    (helements : elementsOf s.defs record = .ok elements) :
    contentUses s record =
      .ok (attributes.entries.map attributeUse ++ elements.flatMap (elementUses s)) := by
  rw [contentUses, hattributes, helements]
  rfl

/-- What is written for the type of a record. -/
def typeUses (s : Setting) (record : Record) : List NameUse :=
  if s.isEncoded ∧ !record.isAnonymous then announcement record.name else []

/-- What is written for a record. -/
def recordUses (s : Setting) (record : Record) : Except Error (List NameUse) := do
  return typeUses s record ++ (← contentUses s record)

theorem recordUses_eq_ok {s : Setting} {record : Record} {uses : List NameUse}
    (h : contentUses s record = .ok uses) :
    recordUses s record = .ok (typeUses s record ++ uses) := by
  rw [recordUses, h]
  rfl

end SoapKit.Client
