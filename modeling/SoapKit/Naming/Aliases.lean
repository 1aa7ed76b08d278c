import SoapKit.OrderedMap
import SoapKit.Soap.Endpoint
import SoapKit.Wsdl.QName

/-!
# Aliases of namespaces

Every namespace in use gets one qualifier when it is first met. A qualifier that the description
declares for it comes first, then the customary one, then a numbered one; those that other
namespaces have, or that envelopes use themselves, are passed over.
-/

namespace SoapKit.Naming

/-- Qualifiers of namespaces, in the order in which the namespaces were met. -/
structure Aliases where
  declared : OrderedMap String String
  /-- Qualifiers by URI. -/
  chosen : OrderedMap String String
  generated : Nat
  deriving Repr, DecidableEq, Inhabited

namespace Aliases

/-- No aliases yet, with the qualifiers that a description declares. -/
def ofDeclared (declared : OrderedMap String String) : Aliases :=
  ⟨declared, .empty, 0⟩

/-- The customary qualifiers of namespaces. -/
def customary : List (String × String) :=
  [(Soap.encodingNamespace, "soapenc"), (Soap.schemaNamespace, "xs"),
    (Soap.instanceNamespace, "xsi")]

/-- The qualifiers that no namespace gets. -/
def reserved : List String := ["env", "xml", "xmlns"]

/-- Whether a qualifier cannot be given any more. -/
def isTaken (aliases : Aliases) (qualifier : String) : Bool :=
  reserved.contains qualifier || aliases.chosen.values.contains qualifier

def numbered (number : Nat) : String :=
  "autons" ++ toString number

/-- The first number above `number` whose qualifier is free. -/
def firstFree (aliases : Aliases) : Nat → Nat → Nat
  | 0, number => number + 1
  | steps + 1, number =>
    if aliases.isTaken (numbered (number + 1)) then aliases.firstFree steps (number + 1)
    else number + 1

/-- The qualifiers that are tried for a namespace before numbered ones. -/
def candidates (aliases : Aliases) (uri : String) : List String :=
  (aliases.declared.entries.filter (·.2 == uri)).map (·.1) ++
    (customary.filter (·.1 == uri)).map (·.2)

/-- The qualifier of a namespace, which is chosen when the namespace is met for the first time. -/
def qualifier (aliases : Aliases) (uri : String) : String × Aliases :=
  match aliases.chosen.get? uri with
  | some known => (known, aliases)
  | none =>
    match (aliases.candidates uri).find? fun candidate => !aliases.isTaken candidate with
    | some candidate => (candidate, { aliases with chosen := aliases.chosen.insert uri candidate })
    | none =>
      let number := aliases.firstFree aliases.chosen.entries.length aliases.generated
      (numbered number,
        { aliases with
          chosen := aliases.chosen.insert uri (numbered number)
          generated := number })

/-- A name as it is written, with the qualifier of its namespace. -/
def xmlName (aliases : Aliases) (name : Wsdl.QName) : String × Aliases :=
  match name.uri with
  | some uri =>
    let (qualifier, aliases) := aliases.qualifier uri
    (qualifier ++ ":" ++ name.base, aliases)
  | none => (name.base, aliases)

/-- The qualifiers with their namespaces, in the order in which they were given. -/
def toList (aliases : Aliases) : List (String × String) :=
  aliases.chosen.entries.map fun (uri, qualifier) => (qualifier, uri)

end Aliases

end SoapKit.Naming
