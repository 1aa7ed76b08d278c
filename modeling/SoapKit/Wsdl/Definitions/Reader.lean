import SoapKit.Wsdl.Service.Reader

/-!
# Reading definitions

The definitions of a description are the declarations of all its documents, one document after the
other. A document declares first its services and then what its schemas declare.
-/

namespace SoapKit.Wsdl

namespace SourceDocument

/-- The schemas of a document in document order. -/
def schemas (source : SourceDocument) : List Xml.Node :=
  (source.document.elementsBelow Xml.Document.root).filter fun n =>
    source.document.isNamed n Soap.schemaNamespace "schema"

/-- What the services of a document declare. -/
def serviceDeclarations (source : SourceDocument) : Except Error (List Declaration) :=
  match source.top with
  | some top =>
    if source.isService then
      (Reader.inside source.document source.names top).serviceDeclarations top
    else .ok []
  | none => .ok []

/-- What a schema in a document declares. -/
def schemaDeclarations (source : SourceDocument) (schema : Xml.Node) :
    Except Error (List Declaration) :=
  (Reader.inside source.document source.names schema).schemaDeclarations schema

/-- What a document declares. -/
def declarations (source : SourceDocument) : Except Error (List Declaration) := do
  let services ← source.serviceDeclarations
  let schemas ← source.schemas.mapM source.schemaDeclarations
  return services ++ schemas.flatten

/-- The qualifiers that are declared anywhere in a document. -/
def qualifiers (source : SourceDocument) : OrderedMap String String :=
  match source.top with
  | some top =>
    let elements := top :: source.document.elementsBelow top
    OrderedMap.ofList <|
      (elements.flatMap source.document.namespacesInScope).filterMap fun declaration =>
      declaration.qualifier.map fun qualifier => (qualifier, declaration.uri)
  | none => .empty

end SourceDocument

namespace Definitions

/-- What holds before anything is declared: the first document names the target and the qualifiers.
-/
def start (sources : List SourceDocument) : Definitions :=
  match sources.head? with
  | some first =>
    { empty with
      targetUri := first.top.bind fun top => first.document.attributeValue top "targetNamespace"
      qualifiers := first.qualifiers }
  | none => empty

/-- The definitions of the documents of a description. -/
def ofSources (sources : List SourceDocument) : Except Error Definitions := do
  let declarations ← sources.mapM (·.declarations)
  return declarations.flatten.foldl add (start sources)

/-- Collects the documents of a description and reads their definitions. -/
def read (dialect : Xml.Dialect) (library : Library) (url : Url) : Except Error Definitions := do
  ofSources (← collect dialect library url)

end Definitions

end SoapKit.Wsdl
