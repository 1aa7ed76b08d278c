/-!
# Qualified names

A qualified name is a local name in a namespace or in none. To have no namespace differs from having
the namespace with the empty URI.
-/

namespace SoapKit.Wsdl

/-- A local name and its namespace. -/
structure QName where
  uri : Option String
  base : String
  deriving Repr, DecidableEq, Inhabited

namespace QName

/-- The name with its namespace in braces before it. -/
def text (name : QName) : String :=
  match name.uri with
  | some uri => "\x7b" ++ uri ++ "\x7d" ++ name.base
  | none => name.base

/-- The order of names: those without a namespace first, then by namespace, then by local name. -/
def le (a b : QName) : Bool :=
  match a.uri, b.uri with
  | none, none => a.base ≤ b.base
  | none, some _ => true
  | some _, none => false
  | some x, some y => x < y || (x == y && a.base ≤ b.base)

end QName

end SoapKit.Wsdl
