import SoapKit.OrderedMap
import SoapKit.Wsdl.Error
import SoapKit.Wsdl.QName
import SoapKit.Xml.Document

/-!
# Name scopes

A document that another one refers to inherits the namespace bindings of the place that refers to
it. A name scope holds these bindings: qualifiers, and the namespace of names without a qualifier,
which is also the namespace of what the document declares. Bindings in the document itself go before
inherited ones.
-/

namespace SoapKit.Wsdl

/-- Inherited namespace bindings. -/
structure NameScope where
  defaultUri : Option String
  qualifiers : OrderedMap String String
  deriving Repr, DecidableEq, Inhabited

namespace NameScope

def empty : NameScope := ⟨none, OrderedMap.empty⟩

/-- The scope with one more declaration. An empty URI without a qualifier takes the default away. -/
def declare (scope : NameScope) (declaration : Xml.Declaration) : NameScope :=
  match declaration.qualifier with
  | some qualifier =>
    { scope with qualifiers := scope.qualifiers.insert qualifier declaration.uri }
  | none =>
    { scope with defaultUri := if declaration.uri.isEmpty then none else some declaration.uri }

/-- The scope with the declarations in effect at a node, the nearest of them last. -/
def enter (scope : NameScope) (d : Xml.Document) (n : Xml.Node) : NameScope :=
  (d.namespacesInScope n).reverse.foldl declare scope

def withDefault (scope : NameScope) (uri : Option String) : NameScope :=
  { scope with defaultUri := uri }

/-- The full name of something declared in the scope. -/
def qualify (scope : NameScope) (name : String) : QName :=
  ⟨scope.defaultUri, name⟩

/-- The full name that a reference written at a node means. Bindings in effect at the node go before
those of the scope. -/
def resolve (scope : NameScope) (d : Xml.Document) (n : Xml.Node) (reference : String) :
    Except Error QName :=
  let name := Xml.Name.parse reference
  match name.qualifier with
  | some qualifier =>
    match (d.lookupNamespace n (some qualifier)).or (scope.qualifiers.get? qualifier) with
    | some uri => .ok ⟨some uri, name.base⟩
    | none => .error (.undefinedQualifier reference)
  | none => .ok ⟨(d.lookupNamespace n none).or scope.defaultUri, name.base⟩

end NameScope

end SoapKit.Wsdl
