import SoapKit.Text.Split

/-!
# Names in XML

A name as written has an optional qualifier before its first colon. What a qualifier stands for is
decided by the namespace declarations around it.
-/

namespace SoapKit.Xml

/-- A name as written: the part before the first colon, if there is one, and the rest. -/
structure Name where
  qualifier : Option String
  base : String
  deriving Repr, DecidableEq, Inhabited

/-- The namespace that the qualifier `xml` is always bound to. -/
def xmlNamespace : String := "http://www.w3.org/XML/1998/namespace"

namespace Name

/-- Splits a written name at its first colon. -/
def parse (text : String) : Name :=
  match Text.splitOnce ':' text.toList with
  | some (before, after) => ⟨some (String.ofList before), String.ofList after⟩
  | none => ⟨none, text⟩

def text (name : Name) : String :=
  match name.qualifier with
  | some qualifier => qualifier ++ ":" ++ name.base
  | none => name.base

@[simp] theorem text_parse (s : String) : (parse s).text = s := by
  unfold parse
  split
  · rename_i before after h
    obtain ⟨h, -⟩ := Text.splitOnce_eq_some h
    apply String.toList_inj.1
    simp [text, h]
  · rfl

end Name

end SoapKit.Xml
