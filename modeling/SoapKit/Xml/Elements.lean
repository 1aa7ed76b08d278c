import SoapKit.Xml.Document

/-!
# Elements by name

Elements are looked for among the children of a node, or among everything below it. The elements
below a node are listed by recursion: every child element with what is below it.
-/

namespace SoapKit.Xml.Document

/-- The elements up to `depth` levels below a node, each before what is below it. -/
def elementsWithin (d : Document) : Nat → Node → List Node
  | 0, _ => []
  | depth + 1, n => (d.childElements n).flatMap fun child => child :: d.elementsWithin depth child

/-- The elements below a node in document order. No element lies deeper than the table is long. -/
def elementsBelow (d : Document) (n : Node) : List Node :=
  d.elementsWithin d.entries.size n

/-- The child elements in a namespace. -/
def childrenIn (d : Document) (n : Node) (uri : String) : List Node :=
  (d.childElements n).filter fun child => d.uriOf child == some uri

/-- The child elements in a namespace that have a name. -/
def childrenNamed (d : Document) (n : Node) (uri name : String) : List Node :=
  (d.childrenIn n uri).filter fun child => d.nameOf child == name

/-- The first child element in a namespace that has a name. -/
def childNamed? (d : Document) (n : Node) (uri name : String) : Option Node :=
  (d.childrenNamed n uri name).head?

/-- The first child element in a namespace that has one of the names. -/
def childAmong? (d : Document) (n : Node) (uri : String) (names : List String) : Option Node :=
  (d.childrenIn n uri).find? fun child => names.contains (d.nameOf child)

/-- Whether an element has a name in a namespace. -/
def isNamed (d : Document) (n : Node) (uri name : String) : Bool :=
  d.uriOf n == some uri && d.nameOf n == name

end SoapKit.Xml.Document
