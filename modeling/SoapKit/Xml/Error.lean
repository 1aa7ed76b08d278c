/-!
# Reasons for refusing a document
-/

namespace SoapKit.Xml

/-- Why a text is not read as a document. -/
inductive ParseError where
  /-- There is no element. -/
  | empty
  /-- Character data stands outside of the document element. -/
  | textOutsideRoot
  /-- A second element stands at the top. -/
  | multipleRoots
  /-- An element is still open at the end; its name as written. -/
  | unclosed (name : String)
  /-- A closing tag stands where no element is open. -/
  | unexpectedEnd (name : String)
  /-- No namespace is bound to a qualifier. -/
  | undeclared (qualifier : String)
  /-- The bytes are no UTF-8. -/
  | encoding
  /-- The markup itself is broken. -/
  | malformed
  deriving Repr, DecidableEq

def ParseError.message : ParseError → String
  | .empty => "Document is empty"
  | .textOutsideRoot => "Unexpected text outside of the document element"
  | .multipleRoots => "More than one document element"
  | .unclosed name => "Element <" ++ name ++ "> is never closed"
  | .unexpectedEnd name => "Unexpected closing tag </" ++ name ++ ">"
  | .undeclared qualifier => "Namespace prefix " ++ qualifier ++ " is not declared"
  | .encoding => "Document is not valid UTF-8"
  | .malformed => "Malformed XML"

end SoapKit.Xml
