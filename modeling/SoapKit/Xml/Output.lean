import SoapKit.Xml.Reference

/-!
# Written documents

A document is written as a list of pieces, and the pieces are laid out afterwards: every tag stands
on a line of its own, two spaces further in than the tag around it, except directly after character
data. So the line breaks never touch character data that is there.
-/

namespace SoapKit.Xml

/-- A piece of a written document. -/
inductive Piece where
  | declaration
  | opening (name : String) (attributes : List (String × String))
  | empty (name : String) (attributes : List (String × String))
  | closing (name : String)
  | text (data : String)
  /-- Markup that is written as it is. -/
  | verbatim (markup : String)
  deriving Repr, DecidableEq

namespace Piece

/-- An attribute as it stands in a tag. -/
def attributeText (attr : String × String) : String :=
  " " ++ attr.1 ++ "=\"" ++ escaped attr.2 ++ "\""

/-- The name and the attributes of a tag. -/
def tagText (name : String) (attributes : List (String × String)) : String :=
  name ++ String.join (attributes.map attributeText)

/-- The text of a piece by itself. -/
def written : Piece → String
  | .declaration => "<?xml version=\"1.0\" encoding=\"UTF-8\"?>"
  | .opening name attributes => "<" ++ tagText name attributes ++ ">"
  | .empty name attributes => "<" ++ tagText name attributes ++ "/>"
  | .closing name => "</" ++ name ++ ">"
  | .text data => escaped data
  | .verbatim markup => markup

/-- Whether a piece is character data, which stays where it is. -/
def isData : Piece → Bool
  | .text _ | .verbatim _ => true
  | _ => false

/-- The depth at which a piece stands, and the depth after it. -/
def depths (depth : Nat) : Piece → Nat × Nat
  | .opening .. => (depth, depth + 1)
  | .closing _ => (depth - 1, depth - 1)
  | _ => (depth, depth)

/-- The line break and the indentation in front of a tag. -/
def lineBreak (depth : Nat) : String :=
  "\n" ++ String.ofList (List.replicate (2 * depth) ' ')

/-- Lays pieces out from a depth on. `fresh` holds at the very start and directly after character
data, where no line break is written. -/
def layout (depth : Nat) (fresh : Bool) : List Piece → String
  | [] => ""
  | piece :: rest =>
    let (here, next) := piece.depths depth
    let lead := if fresh || piece.isData then "" else lineBreak here
    lead ++ piece.written ++ layout next piece.isData rest

/-- The text of a document made of the given pieces. -/
def render (pieces : List Piece) : String :=
  layout 0 true pieces

end Piece

end SoapKit.Xml
