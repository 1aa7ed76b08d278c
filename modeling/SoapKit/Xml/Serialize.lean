import SoapKit.Xml.Document
import SoapKit.Xml.Output

/-!
# Writing documents and their nodes

An element that is written by itself carries every namespace declaration in effect at it, so that
its text can be read without its surroundings; elements below it carry their own declarations.
-/

namespace SoapKit.Xml

/-- The attribute that makes a declaration. -/
def Declaration.written (declaration : Declaration) : String × String :=
  (match declaration.qualifier with
    | some qualifier => "xmlns:" ++ qualifier
    | none => "xmlns",
   declaration.uri)

/-- An attribute under its written name. -/
def Attribute.written (attr : Attribute) : String × String :=
  (attr.name.text, attr.value)

namespace Document

/-- The attributes of an element's written tag: the declarations given, then its own attributes. -/
def writtenAttributes (declarations : List Declaration) (tag : Tag) : List (String × String) :=
  declarations.map Declaration.written ++ tag.attributes.map Attribute.written

/-- The pieces of the node at a place and of everything below it. `steps` bounds the depth. -/
def piecesBelow (d : Document) : Nat → Nat → List Piece
  | 0, _ => []
  | steps + 1, place =>
    let entry := d.entry place
    match entry.content with
    | .document => []
    | .text data => [.text data]
    | .element tag =>
      let attributes := writtenAttributes tag.declarations tag
      if entry.children.isEmpty then [.empty tag.name.text attributes]
      else
        .opening tag.name.text attributes :: entry.children.flatMap (d.piecesBelow steps) ++
          [.closing tag.name.text]

/-- The pieces of an element that stands by itself. -/
def standalonePieces (d : Document) (n : Node) : List Piece :=
  match d.tag n with
  | none => []
  | some tag =>
    let attributes := writtenAttributes (d.namespacesInScope n).reverse tag
    let children := (d.entry n.place).children
    if children.isEmpty then [.empty tag.name.text attributes]
    else
      .opening tag.name.text attributes :: children.flatMap (d.piecesBelow d.entries.size) ++
        [.closing tag.name.text]

/-- The text of a node: of an attribute its name and value, of the document its elements behind an
XML declaration. -/
def write (d : Document) (n : Node) : String :=
  match d.attribute? n with
  | some attr => attr.name.text ++ "=\"" ++ escaped attr.value ++ "\""
  | none =>
    match (d.entry n.place).content with
    | .text data => escaped data
    | .document =>
      Piece.render (.declaration :: (d.childElements n).flatMap d.standalonePieces)
    | .element _ => Piece.render (d.standalonePieces n)

/-- The text of the whole document. -/
def toXml (d : Document) : String :=
  d.write root

end Document

end SoapKit.Xml
