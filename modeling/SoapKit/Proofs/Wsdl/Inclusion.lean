import SoapKit.Proofs.Wsdl.Collection
import SoapKit.Proofs.Xml.Namespaces
import SoapKit.Wsdl.Definitions.Reader

/-!
# Included schemas

A schema in a document of its own need not say what its target namespace is: it takes the one of the
schema that includes it. What takes it there is the name scope that is handed down from the first
reference to the document, and a name scope has one place for the target namespace and the default
namespace.

**Theorem (`keysOf_included`).** What is declared in a document without a target namespace, first
reached by an include in a schema with one, is found under that namespace if the document's root
has no default namespace in scope, and under the default namespace otherwise.

The namespace is followed through three places. The search opens a document with the bindings of the
first link to it (`names_of_firstLink`); entering the document sets the default namespace that its
root declares (`NameScope.defaultUri_enter`); and readers name what is declared by the default of
their scope (`Reader.entry_of_schemaDeclaration`).
-/

namespace SoapKit.Wsdl

variable {join : Joining} {dialect : Xml.Dialect} {texts : OrderedMap String String}

/-! ## Links -/

/-- An element that refers to another document, and where that document is. -/
structure Link where
  source : SourceDocument
  node : Xml.Node
  url : Url

/-- The document that a link leads to, with the bindings that it inherits. -/
def Link.pending (link : Link) : Pending :=
  ⟨link.url, link.source.inherited link.node⟩

/-- An include that stands in a schema with a target namespace. -/
def Link.IsIncludeIn (link : Link) (target : String) : Prop :=
  link.source.document.isNamed link.node Soap.schemaNamespace "include" ∧
    ∃ schema ∈ link.source.document.parent? link.node,
      link.source.document.attributeValue schema "targetNamespace" = some target

instance (link : Link) (target : String) : Decidable (link.IsIncludeIn target) :=
  inferInstanceAs (Decidable (_ ∧ ∃ schema ∈ _, _))

/-- The link that an element is, when it says where a document is. -/
def SourceDocument.link? (join : Joining) (source : SourceDocument) (n : Xml.Node) : Option Link :=
  ((source.location? n).bind fun location => (join source.url.text location).toOption).map
    (⟨source, n, ·⟩)

/-- The links of a document in document order. -/
def SourceDocument.links (join : Joining) (source : SourceDocument) : List Link :=
  ((source.document.elementsBelow Xml.Document.root).filter source.isReference).filterMap
    (source.link? join)

/-- The first link to a URL in some documents. -/
def firstLink? (join : Joining) (sources : List SourceDocument) (url : Url) : Option Link :=
  (sources.flatMap (·.links join)).find? (·.url.text == url.text)

/-- The document at a URL is not the one that a search began with, and what first led to it is an
include in a schema with a target namespace. -/
def IsIncluded (join : Joining) (start : Url) (sources : List SourceDocument) (url : Url)
    (target : String) : Prop :=
  url.text ≠ start.text ∧ ∃ link ∈ firstLink? join sources url, link.IsIncludeIn target

instance (join : Joining) (start : Url) (sources : List SourceDocument) (url : Url)
    (target : String) : Decidable (IsIncluded join start sources url target) :=
  inferInstanceAs (Decidable (_ ∧ ∃ link ∈ _, _))

theorem Link.defaultUri_pending {link : Link} {target : String} (h : link.IsIncludeIn target) :
    link.pending.names.defaultUri = some target := by
  obtain ⟨hname, schema, hschema, htarget⟩ := h
  have hinclude : link.source.document.nameOf link.node = "include" :=
    (SourceDocument.isNamed_iff.1 hname).2
  rw [Option.mem_def] at hschema
  simp [Link.pending, SourceDocument.inherited, NameScope.withDefault, hinclude, hschema, htarget]

/-- The documents that a document refers to are those at the ends of its links. -/
theorem SourceDocument.references_eq_links {source : SourceDocument} {found : List Pending}
    (h : source.references join = .ok found) : found = (source.links join).map Link.pending := by
  obtain ⟨all, hall, rfl⟩ := references_eq_ok.1 h
  have heach : ∀ {n p}, reference join source n = .ok p →
      p = (source.link? join n).map Link.pending := by
    intro n p hp
    rcases reference_eq_ok.1 hp with ⟨hnone, rfl⟩ | ⟨location, url, hlocation, hjoin, rfl⟩
    · simp [link?, hnone]
    · simp [link?, hlocation, hjoin, Except.toOption, Link.pending]
  have hmap := map_eq_of_forall₂ (f := fun n => (source.link? join n).map Link.pending)
    (g := id) heach hall
  rw [List.map_id] at hmap
  rw [hmap, links, List.map_filterMap, List.filterMap_map]
  rfl

/-! ## The bindings of a document -/

/-- What is mentioned by the documents that were opened is at the ends of their links. -/
theorem flatMap_mentionedBy {order : List Pending} {sources : List SourceDocument}
    (h : List.Forall₂ (OpensAs join dialect texts) order sources) :
    order.flatMap (mentionedBy join dialect texts) =
      (sources.flatMap (·.links join)).map Link.pending := by
  induction h with
  | nil => rfl
  | @cons p source _ _ hp _ ih =>
    obtain ⟨d, -, rfl, hfound⟩ := expand_eq_ok.1 hp
    rw [List.flatMap_cons, List.flatMap_cons, List.map_append, ih,
      SourceDocument.references_eq_links hfound]

/-- A document that the search did not begin with is read in the bindings of the first link to it.
-/
theorem names_of_firstLink {start : Url} {sources : List SourceDocument} {source : SourceDocument}
    {link : Link} (h : collectWith join dialect (.shelf texts) start = .ok sources)
    (hsource : source ∈ sources) (hstart : source.url.text ≠ start.text)
    (hlink : firstLink? join sources source.url = some link) :
    source.names = link.pending.namesIn source.document := by
  have houtcome : Outcome join dialect texts start [] (.ok sources) :=
    h ▸ (Underway.atStart start).outcome_run rfl
  cases houtcome with
  | @complete order _ hsearch hall =>
    rw [List.nil_append] at hsearch
    obtain ⟨p, hp, hopens⟩ := exists_mem_of_forall₂ hall hsource
    obtain ⟨d, -, rfl, -⟩ := expand_eq_ok.1 hopens
    have hfirst := hsearch.find?_mentioned hp
    have hroot : start.text ≠ p.url.text := Ne.symm hstart
    rw [flatMap_mentionedBy hall, List.singleton_append,
      List.find?_cons_of_neg (by simpa using hroot), List.find?_map] at hfirst
    have hpending : link.pending = p := by
      have hmap : (firstLink? join sources p.url).map Link.pending = some p := hfirst
      rw [show firstLink? join sources p.url = some link from hlink] at hmap
      exact Option.some.inj hmap
    rw [hpending]
    rfl

namespace NameScope

/-- Declarations that are made last to first leave the first one without a qualifier. -/
theorem defaultUri_foldr_declare (scope : NameScope) (declarations : List Xml.Declaration) :
    (declarations.foldr (fun declaration scope => scope.declare declaration) scope).defaultUri =
      match declarations.find? (·.qualifier == none) with
      | some declaration => if declaration.uri.isEmpty then none else some declaration.uri
      | none => scope.defaultUri := by
  induction declarations with
  | nil => rfl
  | cons first rest ih =>
    rw [List.foldr_cons, declare]
    cases hqualifier : first.qualifier with
    | some qualifier => rw [List.find?_cons_of_neg (by simp [hqualifier]), ih]
    | none => rw [List.find?_cons_of_pos (by simp [hqualifier])]

end NameScope

/-- A declaration in effect at a node sets the default namespace, or takes it away. -/
def DeclaresDefault (d : Xml.Document) (n : Xml.Node) : Prop :=
  ∃ declaration ∈ d.namespacesInScope n, declaration.qualifier = none

instance (d : Xml.Document) (n : Xml.Node) : Decidable (DeclaresDefault d n) :=
  inferInstanceAs (Decidable (∃ declaration ∈ _, _))

/-- The default namespace in scope at a node goes before that of the scope. -/
theorem NameScope.defaultUri_enter (scope : NameScope) (d : Xml.Document) (n : Xml.Node) :
    (scope.enter d n).defaultUri =
      if DeclaresDefault d n then d.lookupNamespace n none else scope.defaultUri := by
  rw [enter, List.foldl_reverse, defaultUri_foldr_declare, Xml.Document.lookupNamespace_none]
  cases hfind : (d.namespacesInScope n).find? (·.qualifier == none) with
  | none =>
    have hnone : ¬ DeclaresDefault d n := by
      rintro ⟨declaration, hmem, hqualifier⟩
      exact List.find?_eq_none.1 hfind declaration hmem (by simp [hqualifier])
    rw [if_neg hnone]
  | some declaration =>
    have hsome : DeclaresDefault d n :=
      ⟨declaration, List.mem_of_find?_eq_some hfind, by simpa using List.find?_some hfind⟩
    rw [if_pos hsome]
    rfl

/-! ## Kinds of declarations -/

/-- The kinds of what a schema declares. -/
inductive Kind where
  | element
  | type
  | group
  | attributeGroup
  | attribute
  deriving DecidableEq

namespace Kind

/-- The names of the elements that declare something of a kind. -/
def tags : Kind → List String
  | .element => ["element"]
  | .type => ["complexType", "simpleType"]
  | .group => ["group"]
  | .attributeGroup => ["attributeGroup"]
  | .attribute => ["attribute"]

/-- Whether an element of a kind can refer to a declaration in place of being one. -/
def refers : Kind → Bool
  | .element | .attributeGroup | .attribute => true
  | .type | .group => false

end Kind

/-- The kind and name of what is declared in a schema. -/
def Declaration.entry? : Declaration → Option (Kind × QName)
  | .element declared => some (.element, declared.name)
  | .type name _ => some (.type, name)
  | .group name _ => some (.group, name)
  | .attributeGroup declared => some (.attributeGroup, declared.name)
  | .attribute declared => some (.attribute, declared.name)
  | .message _ | .interface _ | .binding _ | .endpoint _ => none

namespace Definitions

/-- The names under which something of a kind is defined. -/
def keysOf (defs : Definitions) : Kind → List QName
  | .element => defs.elements.keys
  | .type => defs.types.keys
  | .group => defs.groups.keys
  | .attributeGroup => defs.attributeGroups.keys
  | .attribute => defs.attributes.keys

theorem mem_keysOf_add {defs : Definitions} {declaration : Declaration} {kind : Kind}
    {key : QName} :
    key ∈ (defs.add declaration).keysOf kind ↔
      key ∈ defs.keysOf kind ∨ declaration.entry? = some (kind, key) := by
  cases declaration <;> cases kind <;>
    simp [add, keysOf, Declaration.entry?, OrderedMap.mem_keys_insert, eq_comm]

theorem mem_keysOf_foldl_add {defs : Definitions} {declarations : List Declaration} {kind : Kind}
    {key : QName} :
    key ∈ (declarations.foldl add defs).keysOf kind ↔
      key ∈ defs.keysOf kind ∨ ∃ decl ∈ declarations, decl.entry? = some (kind, key) := by
  induction declarations generalizing defs with
  | nil => simp
  | cons first rest ih =>
    rw [List.foldl_cons, ih, mem_keysOf_add, List.exists_mem_cons_iff, or_assoc]

end Definitions

/-! ## Reading declarations -/

/-- A child of a schema that declares something of a kind under a name of its own. One with a
reference is no declaration, and an element that stands in for another one is declared by that one.
-/
def Declares (d : Xml.Document) (schema : Xml.Node) (kind : Kind) (name : String) : Prop :=
  ∃ n ∈ d.childrenIn schema Soap.schemaNamespace,
    d.nameOf n ∈ kind.tags ∧ d.attributeValue n "name" = some name ∧
      (kind.refers = true → d.attributeValue n "ref" = none) ∧
      (kind = .element → d.attributeValue n "substitutionGroup" = none)

instance (d : Xml.Document) (schema : Xml.Node) (kind : Kind) (name : String) :
    Decidable (Declares d schema kind name) :=
  inferInstanceAs (Decidable (∃ n ∈ _, _))

namespace Reader

variable {r : Reader} {n : Xml.Node} {name : String} {depth : Nat}

theorem declared_eq (h : r.value? n "name" = some name) :
    r.declared n = .ok (r.names.qualify name) := by
  rw [declared, required, h]
  rfl

theorem nameOrReference_eq (h : r.value? n "name" = some name) (href : r.value? n "ref" = none) :
    r.nameOrReference n = .ok (r.names.qualify name) := by
  rw [nameOrReference, href]
  exact declared_eq h

/-- The name of an element, and the name of the element that it stands in for, are read from its
attributes. -/
theorem of_element {element : Element} (h : r.element depth n = .ok element) :
    r.nameOrReference n = .ok element.name ∧
      r.resolve? n "substitutionGroup" = .ok element.substitutionGroup := by
  cases depth with
  | zero => cases h
  | succ depth =>
    rw [Reader.element] at h
    obtain ⟨definition, -, h⟩ := bind_eq_ok.1 h
    simp only at h
    split at h
    · cases h
    · obtain ⟨declared, hdeclared, h⟩ := bind_eq_ok.1 h
      obtain ⟨typeName, -, h⟩ := bind_eq_ok.1 h
      obtain ⟨substitutionGroup, hsubstitution, h⟩ := bind_eq_ok.1 h
      cases h
      exact ⟨hdeclared, hsubstitution⟩

theorem of_attr {attr : Attribute} (h : r.attr depth n = .ok attr) :
    r.nameOrReference n = .ok attr.name := by
  cases depth with
  | zero => cases h
  | succ depth =>
    rw [Reader.attr] at h
    obtain ⟨declared, hdeclared, h⟩ := bind_eq_ok.1 h
    obtain ⟨typeName, -, h⟩ := bind_eq_ok.1 h
    obtain ⟨definition, -, h⟩ := bind_eq_ok.1 h
    cases h
    exact hdeclared

theorem of_attributeGroup {group : AttributeGroup} (h : r.attributeGroup depth n = .ok group) :
    r.nameOrReference n = .ok group.name := by
  cases depth with
  | zero => cases h
  | succ depth =>
    rw [Reader.attributeGroup] at h
    rw [nameOrReference]
    split at h
    · next reference _ =>
      split at h
      · cases h
      · obtain ⟨referred, hreferred, h⟩ := bind_eq_ok.1 h
        cases h
        exact hreferred
    · obtain ⟨declared, hdeclared, h⟩ := bind_eq_ok.1 h
      obtain ⟨members, -, h⟩ := bind_eq_ok.1 h
      cases h
      exact hdeclared

/-- What is declared has its name in the default namespace of the reader's scope. -/
theorem entry_of_schemaDeclaration {found : Option Declaration} {kind : Kind}
    (h : r.schemaDeclaration n = .ok found) (htag : r.document.nameOf n ∈ kind.tags)
    (hname : r.value? n "name" = some name) (href : kind.refers = true → r.value? n "ref" = none)
    (hsubstitution : kind = .element → r.value? n "substitutionGroup" = none) :
    ∃ declaration ∈ found, declaration.entry? = some (kind, r.names.qualify name) := by
  cases kind with
  | element =>
    rw [schemaDeclaration, List.mem_singleton.1 htag] at h
    obtain ⟨element, helement, h⟩ := bind_eq_ok.1 h
    obtain ⟨hdeclared, hstands⟩ := of_element helement
    rw [nameOrReference_eq hname (href rfl)] at hdeclared
    rw [resolve?, hsubstitution rfl] at hstands
    rw [← Except.ok.inj hstands] at h
    cases h
    exact ⟨_, rfl, by rw [Declaration.entry?, Except.ok.inj hdeclared]⟩
  | type =>
    have htype : r.schemaDeclaration n = (do
        let declared ← r.declared n
        return some (.type declared (← r.typeDefinition r.document.entries.size n))) := by
      rcases List.mem_pair.1 htag with htag | htag
      all_goals
        rw [schemaDeclaration, htag]
        rfl
    rw [htype] at h
    obtain ⟨declared, hdeclared, h⟩ := bind_eq_ok.1 h
    rw [declared_eq hname] at hdeclared
    obtain ⟨definition, -, h⟩ := bind_eq_ok.1 h
    cases h
    cases hdeclared
    exact ⟨_, rfl, rfl⟩
  | group =>
    rw [schemaDeclaration, List.mem_singleton.1 htag] at h
    obtain ⟨declared, hdeclared, h⟩ := bind_eq_ok.1 h
    rw [declared_eq hname] at hdeclared
    obtain ⟨group, -, h⟩ := bind_eq_ok.1 h
    cases h
    cases hdeclared
    exact ⟨_, rfl, rfl⟩
  | attributeGroup =>
    rw [schemaDeclaration, List.mem_singleton.1 htag] at h
    obtain ⟨group, hgroup, h⟩ := bind_eq_ok.1 h
    have hdeclared := of_attributeGroup hgroup
    rw [nameOrReference_eq hname (href rfl)] at hdeclared
    cases h
    exact ⟨_, rfl, by rw [Declaration.entry?, Except.ok.inj hdeclared]⟩
  | «attribute» =>
    rw [schemaDeclaration, List.mem_singleton.1 htag] at h
    obtain ⟨attr, hattr, h⟩ := bind_eq_ok.1 h
    have hdeclared := of_attr hattr
    rw [nameOrReference_eq hname (href rfl)] at hdeclared
    cases h
    exact ⟨_, rfl, by rw [Declaration.entry?, Except.ok.inj hdeclared]⟩

/-- Everything that a schema declares has its name in the default namespace of the scope. -/
theorem entry_of_schemaDeclarations {schema : Xml.Node} {declarations : List Declaration}
    {kind : Kind} (h : r.schemaDeclarations schema = .ok declarations)
    (hdeclares : Declares r.document schema kind name) :
    ∃ declaration ∈ declarations, declaration.entry? = some (kind, r.names.qualify name) := by
  obtain ⟨n, hn, htag, hname, href, hsubstitution⟩ := hdeclares
  obtain ⟨found, hfound, h⟩ := bind_eq_ok.1 h
  cases h
  obtain ⟨first, hfirst, hn⟩ := exists_mem_of_forall₂ (mapM_eq_ok_iff.1 hfound).flip hn
  obtain ⟨declaration, hmem, hentry⟩ :=
    entry_of_schemaDeclaration hn htag hname href hsubstitution
  rw [Option.mem_def] at hmem
  exact ⟨declaration, List.mem_filterMap.2 ⟨first, hfirst, hmem⟩, hentry⟩

end Reader

/-! ## Definitions of included documents -/

/-- A document element is among the elements of its document. -/
theorem mem_elementsBelow_of_documentElement {d : Xml.Document} {top : Xml.Node}
    (h : d.documentElement = some top) : top ∈ d.elementsBelow Xml.Document.root := by
  have hchild : top ∈ d.childElements Xml.Document.root := List.mem_of_head? h
  cases hsize : d.entries.size with
  | zero =>
    have hnone : d.entries[0]? = none := Array.getElem?_eq_none (by omega)
    simp [Xml.Document.childElements, Xml.Document.children, Xml.Document.root, Xml.Node.ofPlace,
      Xml.Document.entry, hnone] at hchild
  | succ depth =>
    rw [Xml.Document.elementsBelow, hsize, Xml.Document.elementsWithin]
    exact List.mem_flatMap.2 ⟨top, hchild, List.mem_cons_self⟩

/-- What a schema without a target namespace declares is defined under the default namespace that
its document is read in. -/
theorem keysOf_ofSources {sources : List SourceDocument} {source : SourceDocument}
    {defs : Definitions} {top : Xml.Node} {kind : Kind} {name : String}
    (h : Definitions.ofSources sources = .ok defs) (hsource : source ∈ sources)
    (htop : source.top = some top)
    (hschema : source.document.isNamed top Soap.schemaNamespace "schema")
    (htarget : source.document.attributeValue top "targetNamespace" = none)
    (hdeclares : Declares source.document top kind name) :
    source.names.qualify name ∈ defs.keysOf kind := by
  obtain ⟨all, hall, h⟩ := bind_eq_ok.1 h
  cases h
  obtain ⟨declarations, hdeclarations, hread⟩ :=
    exists_mem_of_forall₂ (mapM_eq_ok_iff.1 hall).flip hsource
  obtain ⟨services, -, hread⟩ := bind_eq_ok.1 hread
  obtain ⟨schemas, hschemas, hread⟩ := bind_eq_ok.1 hread
  cases hread
  have hmem : top ∈ source.schemas :=
    List.mem_filter.2 ⟨mem_elementsBelow_of_documentElement htop, hschema⟩
  obtain ⟨declared, hdeclared, hreads⟩ :=
    exists_mem_of_forall₂ (mapM_eq_ok_iff.1 hschemas).flip hmem
  obtain ⟨declaration, hdeclaration, hentry⟩ := Reader.entry_of_schemaDeclarations hreads hdeclares
  have hnames : (Reader.inside source.document source.names top).names = source.names := by
    rw [Reader.inside, htarget]
    rfl
  rw [hnames] at hentry
  refine Definitions.mem_keysOf_foldl_add.2 (.inr ⟨declaration, ?_, hentry⟩)
  exact List.mem_flatten.2 ⟨_, hdeclarations,
    List.mem_append_right _ (List.mem_flatten.2 ⟨declared, hdeclared, hdeclaration⟩)⟩

/-- A declaration in a schema that has no target namespace, in a document that was first reached by
an include in a schema that has one. -/
structure DeclaredInIncluded (start : Url) (sources : List SourceDocument) (target : String)
    (source : SourceDocument) (top : Xml.Node) (kind : Kind) (name : String) : Prop where
  collected : source ∈ sources
  included : IsIncluded Url.joinText start sources source.url target
  top_eq : source.top = some top
  isSchema : source.document.isNamed top Soap.schemaNamespace "schema" = true
  without_target : source.document.attributeValue top "targetNamespace" = none
  declares : Declares source.document top kind name

instance (start : Url) (sources : List SourceDocument) (target : String) (source : SourceDocument)
    (top : Xml.Node) (kind : Kind) (name : String) :
    Decidable (DeclaredInIncluded start sources target source top kind name) :=
  decidable_of_iff
    (source ∈ sources ∧ IsIncluded Url.joinText start sources source.url target ∧
      source.top = some top ∧
      source.document.isNamed top Soap.schemaNamespace "schema" = true ∧
      source.document.attributeValue top "targetNamespace" = none ∧
      Declares source.document top kind name)
    ⟨fun ⟨hcollected, hincluded, htop, hschema, htarget, hdeclares⟩ =>
      ⟨hcollected, hincluded, htop, hschema, htarget, hdeclares⟩,
    fun h => ⟨h.collected, h.included, h.top_eq, h.isSchema, h.without_target, h.declares⟩⟩

/-- What an included document without a target namespace declares is defined under the namespace of
the schema that includes it, unless the root of the document has a default namespace in scope: then
under that one, or under none where the default namespace is taken away. -/
theorem keysOf_included {start : Url} {sources : List SourceDocument} {defs : Definitions}
    {target : String} {source : SourceDocument} {top : Xml.Node} {kind : Kind} {name : String}
    (hcollect : collect dialect (.shelf texts) start = .ok sources)
    (hdefs : Definitions.ofSources sources = .ok defs)
    (h : DeclaredInIncluded start sources target source top kind name) :
    ⟨if DeclaresDefault source.document top then source.document.lookupNamespace top none
      else some target, name⟩ ∈ defs.keysOf kind := by
  obtain ⟨hstart, link, hlink, hinclude⟩ := h.included
  have hdefault : source.names.defaultUri =
      if DeclaresDefault source.document top then source.document.lookupNamespace top none
      else some target := by
    rw [names_of_firstLink hcollect h.collected hstart hlink, Pending.namesIn,
      show source.document.documentElement = some top from h.top_eq]
    simp only
    rw [NameScope.defaultUri_enter, Link.defaultUri_pending hinclude]
  have hkey := keysOf_ofSources hdefs h.collected h.top_eq h.isSchema h.without_target h.declares
  rw [NameScope.qualify, hdefault] at hkey
  exact hkey

/-! ## Two included documents -/

/-- What is read can be decided where the documents are given. -/
theorem exists_read {library : Library} {start : Url}
    {P : List SourceDocument → Definitions → Prop}
    (h : ∃ sources ∈ (collect dialect library start).toOption,
      ∃ defs ∈ (Definitions.ofSources sources).toOption, P sources defs) :
    ∃ sources defs, collect dialect library start = .ok sources ∧
      Definitions.ofSources sources = .ok defs ∧ P sources defs := by
  obtain ⟨sources, hsources, defs, hdefs, hp⟩ := h
  rw [Option.mem_def, toOption_eq_some] at hsources hdefs
  exact ⟨sources, defs, hsources, hdefs, hp⟩

/-- The URL of a file at the root of a site. -/
def fileUrl (name : String) : Url :=
  { scheme := "http"
    authority := some ⟨"", "", .domain "example.com", none⟩
    path := .segments [name]
    query := none
    fragment := none }

/-- A schema for `urn:t`, and a document that it includes. -/
def including (included : String) : Library :=
  .ofTexts [((fileUrl "a.xsd").text,
      "<xs:schema xmlns:xs=\"http://www.w3.org/2001/XMLSchema\" targetNamespace=\"urn:t\">" ++
        "<xs:include schemaLocation=\"b.xsd\"/></xs:schema>"),
    ((fileUrl "b.xsd").text, included)]

/-- A document that declares an element and has no default namespace. -/
def qualifiedItem : String :=
  "<xs:schema xmlns:xs=\"http://www.w3.org/2001/XMLSchema\"><xs:element name=\"item\"/></xs:schema>"

/-- A document that declares an element, with the namespace of schemas as its default. -/
def unqualifiedItem : String :=
  "<schema xmlns=\"http://www.w3.org/2001/XMLSchema\"><element name=\"item\"/></schema>"

/-- Without a default namespace the element belongs to the schema that includes the document. -/
theorem keysOf_included_of_qualified :
    ∃ sources defs, collect .lenient (including qualifiedItem) (fileUrl "a.xsd") = .ok sources ∧
      Definitions.ofSources sources = .ok defs ∧ ∃ source ∈ sources, ∃ top ∈ source.top,
        DeclaredInIncluded (fileUrl "a.xsd") sources "urn:t" source top .element "item" ∧
          ⟨some "urn:t", "item"⟩ ∈ defs.keysOf .element := by
  have hread : ∃ sources ∈ (collect .lenient (including qualifiedItem) (fileUrl "a.xsd")).toOption,
      ∃ defs ∈ (Definitions.ofSources sources).toOption, ∃ source ∈ sources, ∃ top ∈ source.top,
        DeclaredInIncluded (fileUrl "a.xsd") sources "urn:t" source top .element "item" ∧
          ¬ DeclaresDefault source.document top := by
    decide +kernel
  obtain ⟨sources, defs, hcollect, hdefs, source, hsource, top, htop, hdeclared, hdefault⟩ :=
    exists_read hread
  have hkey := keysOf_included hcollect hdefs hdeclared
  rw [if_neg hdefault] at hkey
  exact ⟨sources, defs, hcollect, hdefs, source, hsource, top, htop, hdeclared, hkey⟩

/-- The default namespace of the document takes the place of the including schema's namespace. -/
theorem not_mem_keysOf_unqualified :
    ∃ sources defs, collect .lenient (including unqualifiedItem) (fileUrl "a.xsd") = .ok sources ∧
      Definitions.ofSources sources = .ok defs ∧ ∃ source ∈ sources, ∃ top ∈ source.top,
        DeclaredInIncluded (fileUrl "a.xsd") sources "urn:t" source top .element "item" ∧
          ⟨some "urn:t", "item"⟩ ∉ defs.keysOf .element :=
  exists_read (by decide +kernel)

end SoapKit.Wsdl
