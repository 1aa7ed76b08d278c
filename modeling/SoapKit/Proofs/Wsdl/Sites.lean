import SoapKit.Proofs.Wsdl.Inclusion
import SoapKit.Proofs.Xml.Elements
import SoapKit.Proofs.Xml.Production

/-!
# Sites of declarations

A description has eight symbol spaces. Services declare messages, interfaces and bindings, and
schemas declare elements, types, groups, attribute groups and attributes. Where a document does so
is said by its tags alone (`SourceDocument.sites`): a site is a child of the element that holds the
declarations, with a name for the space, that is not passed over.

A document that is read declares one thing at each of its sites, in their order, and nothing else
(`SourceDocument.entries_declarations`), and serves at each port with an address
(`SourceDocument.endpoints_declarations`). What is declared has the name that it is declared under
(`Space.nameOf_of_parse`).
-/

namespace SoapKit.Wsdl

open Xml (Document Node)

/-! ## Spaces -/

/-- The symbol spaces of a description. -/
inductive Space where
  | message
  | interface
  | binding
  | element
  | type
  | group
  | attributeGroup
  | «attribute»
  deriving DecidableEq, Repr

namespace Space

/-- What is declared in a space. -/
@[reducible] def Value : Space → Type
  | .message => Message
  | .interface => Interface
  | .binding => Binding
  | .element => Element
  | .type => TypeDefinition
  | .group => ElementGroup
  | .attributeGroup => AttributeGroup
  | .attribute => Attribute

/-- The name that a declaration has itself. -/
def nameOf : (s : Space) → s.Value → Option QName
  | .message, value => some value.name
  | .interface, value => some value.name
  | .binding, value => some value.name
  | .element, value => some value.name
  | .type, value => value.name
  | .group, value => value.name
  | .attributeGroup, value => some value.name
  | .attribute, value => some value.name

/-- Whether services declare what is in a space, and not schemas. -/
def isOfServices : Space → Bool
  | .message | .interface | .binding => true
  | .element | .type | .group | .attributeGroup | .attribute => false

/-- The namespace of the elements that declare something. -/
def uri (s : Space) : String :=
  if s.isOfServices then wsdlNamespace else Soap.schemaNamespace

/-- The names of the elements that declare something. -/
def tags : Space → List String
  | .message => ["message"]
  | .interface => ["portType"]
  | .binding => ["binding"]
  | .element => ["element"]
  | .type => ["complexType", "simpleType"]
  | .group => ["group"]
  | .attributeGroup => ["attributeGroup"]
  | .attribute => ["attribute"]

/-- Whether an element has the details of this protocol in a child with a name. -/
def hasDetails (d : Document) (n : Node) (name : String) : Bool :=
  Reader.bindingNamespaces.any fun (uri, _) => (d.childNamed? n uri name).isSome

/-- Whether an element has the address for this protocol in a child. -/
def hasAddress (d : Document) (n : Node) : Bool :=
  Reader.bindingNamespaces.any fun (uri, _) =>
    ((d.childNamed? n uri "address").bind (d.attributeValue · "location")).isSome

/-- Whether an element with the name for a space declares something in it. An element that stands in
for another one is declared by that one, and a binding has to be one to this protocol. -/
def admits : Space → Document → Node → Bool
  | .element, d, n => (d.attributeValue n "substitutionGroup").isNone
  | .binding, d, n => hasDetails d n "binding"
  | .message, _, _ | .interface, _, _ | .type, _, _ | .group, _, _ | .attributeGroup, _, _
  | .attribute, _, _ => true

/-- Whether an element declares something in a space. -/
def isDeclaredAt (s : Space) (d : Document) (n : Node) : Bool :=
  s.tags.contains (d.nameOf n) && s.admits d n

/-- The name under which a node declares something: its own, or where it has none because it refers
to a declaration, the name of that one. -/
def name : Space → Reader → Node → Except Error QName
  | .element, r, n | .attributeGroup, r, n | .attribute, r, n => r.nameOrReference n
  | .message, r, n | .interface, r, n | .binding, r, n | .type, r, n | .group, r, n => r.declared n

/-- What a node declares in a space. -/
def parse : (s : Space) → Reader → Node → Except Error (Option s.Value)
  | .message, r, n => some <$> r.message n
  | .interface, r, n => some <$> r.interface n
  | .binding, r, n => r.binding n
  | .element, r, n => (fun element => some { element with isQualified := true }) <$>
      r.element r.document.entries.size n
  | .type, r, n => some <$> r.typeDefinition r.document.entries.size n
  | .group, r, n => some <$> r.groupWith (r.modelGroup r.document.entries.size) n
  | .attributeGroup, r, n => some <$> r.attributeGroup r.document.entries.size n
  | .attribute, r, n => some <$> r.attr r.document.entries.size n

end Space

/-- The entry that a declaration makes in a space. -/
def Declaration.entryIn : (s : Space) → Declaration → Option (QName × s.Value)
  | .message, .message value => some (value.name, value)
  | .interface, .interface value => some (value.name, value)
  | .binding, .binding value => some (value.name, value)
  | .element, .element value => some (value.name, value)
  | .type, .type name value => some (name, value)
  | .group, .group name value => some (name, value)
  | .attributeGroup, .attributeGroup value => some (value.name, value)
  | .attribute, .attribute value => some (value.name, value)
  | _, _ => none

/-- Whether services make a declaration, and not schemas. -/
def Declaration.isOfServices : Declaration → Bool
  | .message _ | .interface _ | .binding _ | .endpoint _ => true
  | .element _ | .type _ _ | .group _ _ | .attributeGroup _ | .attribute _ => false

theorem Declaration.entryIn_eq_none {s : Space} {declaration : Declaration}
    (h : declaration.isOfServices ≠ s.isOfServices) : declaration.entryIn s = none := by
  cases s <;> cases declaration <;> first | rfl | exact absurd rfl h

/-- The endpoint that a declaration is. -/
def Declaration.endpoint? : Declaration → Option Endpoint
  | .endpoint served => some served
  | _ => none

/-! ## What one element declares -/

namespace Reader

variable {r : Reader} {n : Node}

/-- What a child of a service description declares, by its name. -/
inductive DeclaresOfService (r : Reader) (n : Node) : List Declaration → Prop where
  | message {value : Message} : r.document.nameOf n = "message" → r.message n = .ok value →
      DeclaresOfService r n [.message value]
  | interface {value : Interface} : r.document.nameOf n = "portType" →
      r.interface n = .ok value → DeclaresOfService r n [.interface value]
  | binding {value : Option Binding} : r.document.nameOf n = "binding" →
      r.binding n = .ok value → DeclaresOfService r n (value.toList.map .binding)
  | service {endpoints : List Endpoint} : r.document.nameOf n = "service" →
      r.service n = .ok endpoints → DeclaresOfService r n (endpoints.map .endpoint)
  | other : r.document.nameOf n ∉ ["message", "portType", "binding", "service"] →
      DeclaresOfService r n []

theorem declaresOfService {found : List Declaration} (h : r.serviceDeclaration n = .ok found) :
    r.DeclaresOfService n found := by
  rw [serviceDeclaration] at h
  split at h
  · next htag =>
    obtain ⟨value, hvalue, h⟩ := bind_eq_ok.1 h
    cases h
    exact .message htag hvalue
  · next htag =>
    obtain ⟨value, hvalue, h⟩ := bind_eq_ok.1 h
    cases h
    exact .interface htag hvalue
  · next htag =>
    obtain ⟨value, hvalue, h⟩ := bind_eq_ok.1 h
    cases h
    exact .binding htag hvalue
  · next htag =>
    obtain ⟨endpoints, hendpoints, h⟩ := bind_eq_ok.1 h
    cases h
    exact .service htag hendpoints
  · next hmessage hinterface hbinding hservice =>
    cases h
    exact .other (by simpa using ⟨hmessage, hinterface, hbinding, hservice⟩)

/-- What a child of a schema declares, by its name. -/
inductive DeclaresOfSchema (r : Reader) (n : Node) : Option Declaration → Prop where
  | element {value : Element} : r.document.nameOf n = "element" →
      r.element r.document.entries.size n = .ok value → value.substitutionGroup = none →
      DeclaresOfSchema r n (some (.element { value with isQualified := true }))
  | standIn {value : Element} {group : QName} : r.document.nameOf n = "element" →
      r.element r.document.entries.size n = .ok value → value.substitutionGroup = some group →
      DeclaresOfSchema r n none
  | type {name : QName} {value : TypeDefinition} :
      r.document.nameOf n ∈ ["complexType", "simpleType"] → r.declared n = .ok name →
      r.typeDefinition r.document.entries.size n = .ok value →
      DeclaresOfSchema r n (some (.type name value))
  | group {name : QName} {value : ElementGroup} : r.document.nameOf n = "group" →
      r.declared n = .ok name →
      r.groupWith (r.modelGroup r.document.entries.size) n = .ok value →
      DeclaresOfSchema r n (some (.group name value))
  | attributeGroup {value : AttributeGroup} : r.document.nameOf n = "attributeGroup" →
      r.attributeGroup r.document.entries.size n = .ok value →
      DeclaresOfSchema r n (some (.attributeGroup value))
  | «attribute» {value : Attribute} : r.document.nameOf n = "attribute" →
      r.attr r.document.entries.size n = .ok value →
      DeclaresOfSchema r n (some (.attribute value))
  | other : r.document.nameOf n ∉
      ["element", "complexType", "simpleType", "group", "attributeGroup", "attribute"] →
      DeclaresOfSchema r n none

theorem declaresOfSchema {found : Option Declaration} (h : r.schemaDeclaration n = .ok found) :
    r.DeclaresOfSchema n found := by
  rw [schemaDeclaration] at h
  simp only at h
  split at h
  · next htag =>
    obtain ⟨value, hvalue, h⟩ := bind_eq_ok.1 h
    cases h
    split
    · next hnone => exact .element htag hvalue (Option.isNone_iff_eq_none.1 hnone)
    · next hsome =>
      obtain ⟨group, hgroup⟩ := Option.ne_none_iff_exists'.1 (by simpa using hsome)
      exact .standIn htag hvalue hgroup
  · next htag =>
    obtain ⟨name, hname, h⟩ := bind_eq_ok.1 h
    obtain ⟨value, hvalue, h⟩ := bind_eq_ok.1 h
    cases h
    exact .type (by simp [htag]) hname hvalue
  · next htag =>
    obtain ⟨name, hname, h⟩ := bind_eq_ok.1 h
    obtain ⟨value, hvalue, h⟩ := bind_eq_ok.1 h
    cases h
    exact .type (by simp [htag]) hname hvalue
  · next htag =>
    obtain ⟨name, hname, h⟩ := bind_eq_ok.1 h
    obtain ⟨value, hvalue, h⟩ := bind_eq_ok.1 h
    cases h
    exact .group htag hname hvalue
  · next htag =>
    obtain ⟨value, hvalue, h⟩ := bind_eq_ok.1 h
    cases h
    exact .attributeGroup htag hvalue
  · next htag =>
    obtain ⟨value, hvalue, h⟩ := bind_eq_ok.1 h
    cases h
    exact .attribute htag hvalue
  · next helement hcomplex hsimple hgroup hattributeGroup hattribute =>
    cases h
    exact .other (by
      simpa using ⟨helement, hcomplex, hsimple, hgroup, hattributeGroup, hattribute⟩)

/-! ## Names of what is declared -/

theorem optionalName_eq {name : QName} (h : r.declared n = .ok name) :
    r.optionalName n = some name := by
  obtain ⟨text, htext, h⟩ := bind_eq_ok.1 h
  cases h
  rw [required] at htext
  split at htext
  · next value hvalue =>
    cases htext
    rw [optionalName, hvalue]
    rfl
  · cases htext

theorem of_message {value : Message} (h : r.message n = .ok value) :
    r.declared n = .ok value.name := by
  obtain ⟨name, hname, h⟩ := bind_eq_ok.1 h
  obtain ⟨parts, -, h⟩ := bind_eq_ok.1 h
  cases h
  exact hname

theorem of_interface {value : Interface} (h : r.interface n = .ok value) :
    r.declared n = .ok value.name := by
  obtain ⟨name, hname, h⟩ := bind_eq_ok.1 h
  obtain ⟨operations, -, h⟩ := bind_eq_ok.1 h
  cases h
  exact hname

/-- A binding has the name that its node gives, and is one to this protocol. -/
theorem of_binding {value : Option Binding} (h : r.binding n = .ok value) :
    (∀ binding ∈ value, r.declared n = .ok binding.name) ∧
      value.isSome = Space.hasDetails r.document n "binding" := by
  obtain ⟨name, hname, h⟩ := bind_eq_ok.1 h
  obtain ⟨type, -, h⟩ := bind_eq_ok.1 h
  obtain ⟨interface, -, h⟩ := bind_eq_ok.1 h
  have hdetails : (bindingNamespaces.findSome? fun (uri, version) =>
      (r.document.childNamed? n uri "binding").map fun details => (uri, version, details)).isSome =
        Space.hasDetails r.document n "binding" := by
    simp [List.isSome_findSome?, Space.hasDetails]
  simp only at h
  rw [← hdetails]
  split at h
  · next hnone =>
    cases h
    rw [hnone]
    exact ⟨fun binding hbinding => (by cases hbinding), rfl⟩
  · next uri version details hsome =>
    obtain ⟨actions, -, h⟩ := bind_eq_ok.1 h
    cases h
    rw [hsome]
    refine ⟨fun binding hbinding => ?_, rfl⟩
    cases hbinding
    exact hname

theorem of_simpleType {value : TypeDefinition} (h : r.simpleType n = .ok value) :
    value.name = r.optionalName n := by
  rw [simpleType] at h
  split at h
  · cases h
  · split at h
    · obtain ⟨base, -, h⟩ := bind_eq_ok.1 h
      obtain ⟨resolved, -, h⟩ := bind_eq_ok.1 h
      cases h
      rfl
    · split at h
      · cases h
      · obtain ⟨item, -, h⟩ := bind_eq_ok.1 h
        cases h
        rfl
    · split at h
      · cases h
      · obtain ⟨members, -, h⟩ := bind_eq_ok.1 h
        cases h
        rfl

theorem of_typeDefinition {depth : Nat} {value : TypeDefinition}
    (h : r.typeDefinition depth n = .ok value) : value.name = r.optionalName n := by
  cases depth with
  | zero => cases h
  | succ depth =>
    rw [typeDefinition] at h
    split at h
    · obtain ⟨⟨derivation, inner⟩, -, h⟩ := bind_eq_ok.1 h
      obtain ⟨members, -, h⟩ := bind_eq_ok.1 h
      cases h
      rfl
    · exact of_simpleType h

theorem isNone_of_resolve? {name : String} {found : Option QName}
    (h : r.resolve? n name = .ok found) : found.isNone = (r.value? n name).isNone := by
  rw [resolve?] at h
  cases hvalue : r.value? n name with
  | none =>
    rw [hvalue] at h
    cases h
    rfl
  | some reference =>
    rw [hvalue, Option.mapM_some] at h
    obtain ⟨resolved, -, rfl⟩ := map_eq_ok.1 h
    rfl

theorem of_groupWith {content : Node → Except Error ModelGroup} {value : ElementGroup}
    (h : r.groupWith content n = .ok value) : value.name = r.optionalName n := by
  obtain ⟨found, -, h⟩ := bind_eq_ok.1 h
  cases h
  rfl

end Reader

namespace Space

/-- What is parsed has the name that it is declared under. -/
theorem nameOf_of_parse {s : Space} {r : Reader} {n : Node} {name : QName} {value : s.Value}
    (hname : s.name r n = .ok name) (h : s.parse r n = .ok (some value)) :
    s.nameOf value = some name := by
  cases s with
  | message =>
    obtain ⟨found, hfound, heq⟩ := map_eq_ok.1 h
    cases heq
    rw [nameOf, ← Except.ok.inj (hname.symm.trans (Reader.of_message hfound))]
  | interface =>
    obtain ⟨found, hfound, heq⟩ := map_eq_ok.1 h
    cases heq
    rw [nameOf, ← Except.ok.inj (hname.symm.trans (Reader.of_interface hfound))]
  | binding =>
    have hfound := (Reader.of_binding h).1 value rfl
    rw [nameOf, ← Except.ok.inj (hname.symm.trans hfound)]
  | element =>
    obtain ⟨found, hfound, heq⟩ := map_eq_ok.1 h
    cases heq
    rw [nameOf, ← Except.ok.inj (hname.symm.trans (Reader.of_element hfound).1)]
  | type =>
    obtain ⟨found, hfound, heq⟩ := map_eq_ok.1 h
    cases heq
    exact (Reader.of_typeDefinition hfound).trans (Reader.optionalName_eq hname)
  | group =>
    obtain ⟨found, hfound, heq⟩ := map_eq_ok.1 h
    cases heq
    exact (Reader.of_groupWith hfound).trans (Reader.optionalName_eq hname)
  | attributeGroup =>
    obtain ⟨found, hfound, heq⟩ := map_eq_ok.1 h
    cases heq
    rw [nameOf, ← Except.ok.inj (hname.symm.trans (Reader.of_attributeGroup hfound))]
  | «attribute» =>
    obtain ⟨found, hfound, heq⟩ := map_eq_ok.1 h
    cases heq
    rw [nameOf, ← Except.ok.inj (hname.symm.trans (Reader.of_attr hfound))]

end Space

/-! ## Sites -/

/-- An element that may declare something, the element that holds the declarations around it, and
the reader for what is declared there. -/
structure Site where
  reader : Reader
  holder : Node
  node : Node

namespace Site

/-- A declaration at a site: the name that it is declared under, and what is declared, which has the
same name. -/
structure Declares (s : Space) (site : Site) (entry : QName × s.Value) : Prop where
  name_eq : s.name site.reader site.node = .ok entry.1
  parse_eq : s.parse site.reader site.node = .ok (some entry.2)
  own : s.nameOf entry.2 = some entry.1

/-- A port of a service, and the endpoint that it describes. -/
structure Serves (site : Site) (endpoint : Endpoint) : Prop where
  service_eq : site.reader.declared site.holder = .ok endpoint.service
  endpoint_eq : site.reader.endpoint endpoint.service site.node = .ok (some endpoint)

end Site

/-- The ports of a service that say where this protocol is spoken. -/
def Reader.portsOf (r : Reader) (service : Node) : List Site :=
  ((r.named service "port").filter (Space.hasAddress r.document)).map (⟨r, service, ·⟩)

namespace SourceDocument

/-- The document element, where it describes services. -/
def description (source : SourceDocument) : List Node :=
  source.top.toList.filter fun _ => source.isService

/-- The elements of a document that hold the declarations of a space: the description of services,
or the schemas in document order. -/
def holders (source : SourceDocument) (s : Space) : List Node :=
  if s.isOfServices then source.description else source.schemas

/-- The elements of a document that declare something in a space, as far as they are held by one
element. -/
def sitesIn (source : SourceDocument) (s : Space) (holder : Node) : List Site :=
  ((source.document.childrenIn holder s.uri).filter (s.isDeclaredAt source.document)).map
    (⟨.inside source.document source.names holder, holder, ·⟩)

/-- The elements of a document that declare something in a space. -/
def sites (source : SourceDocument) (s : Space) : List Site :=
  (source.holders s).flatMap (source.sitesIn s)

/-- The ports of all services in a document that say where this protocol is spoken. -/
def ports (source : SourceDocument) : List Site :=
  source.description.flatMap fun top =>
    (source.document.childrenNamed top wsdlNamespace "service").flatMap
      (Reader.inside source.document source.names top).portsOf

end SourceDocument

/-! ## The declarations at sites -/

theorem Site.Declares.of_parse {s : Space} {site : Site} {name : QName} {value : s.Value}
    (hname : s.name site.reader site.node = .ok name)
    (hvalue : s.parse site.reader site.node = .ok (some value)) : site.Declares s (name, value) :=
  ⟨hname, hvalue, Space.nameOf_of_parse hname hvalue⟩

namespace Reader

variable {r : Reader} {n holder : Node} {s : Space}

theorem entries_of_declared {declarations : List Declaration} {name : QName} {value : s.Value}
    (hsite : s.isDeclaredAt r.document n = true) (hname : s.name r n = .ok name)
    (hvalue : s.parse r n = .ok (some value))
    (hentries : declarations.filterMap (·.entryIn s) = [(name, value)]) :
    List.Forall₂ (Site.Declares s)
      (if s.isDeclaredAt r.document n then [⟨r, holder, n⟩] else [])
      (declarations.filterMap (·.entryIn s)) := by
  rw [if_pos hsite, hentries]
  exact .cons (.of_parse hname hvalue) .nil

theorem entries_of_not_declared {declarations : List Declaration}
    (hsite : s.isDeclaredAt r.document n = false)
    (hentries : declarations.filterMap (·.entryIn s) = []) :
    List.Forall₂ (Site.Declares s)
      (if s.isDeclaredAt r.document n then [⟨r, holder, n⟩] else [])
      (declarations.filterMap (·.entryIn s)) := by
  rw [if_neg (by simp [hsite]), hentries]
  exact .nil

/-- In a space that services declare, a child of a service description declares one thing if it is
a site of the space, and nothing otherwise. -/
theorem DeclaresOfService.entries {found : List Declaration} (h : r.DeclaresOfService n found)
    (hs : s.isOfServices = true) :
    List.Forall₂ (Site.Declares s)
      (if s.isDeclaredAt r.document n then [⟨r, holder, n⟩] else [])
      (found.filterMap (·.entryIn s)) := by
  -- an element declares something only in the space that its name is for
  have hother (htag : s.tags.contains (r.document.nameOf n) = false)
      (hentries : found.filterMap (·.entryIn s) = []) : List.Forall₂ (Site.Declares s)
        (if s.isDeclaredAt r.document n then [⟨r, holder, n⟩] else [])
        (found.filterMap (·.entryIn s)) :=
    entries_of_not_declared (by rw [Space.isDeclaredAt, htag]; rfl) hentries
  cases h with
  | @message value htag hvalue =>
    cases s with
    | message =>
      exact entries_of_declared (by rw [Space.isDeclaredAt, htag]; rfl) (of_message hvalue)
        (by rw [Space.parse, hvalue]; rfl) rfl
    | _ => exact hother (by rw [htag]; decide) rfl
  | @interface value htag hvalue =>
    cases s with
    | interface =>
      exact entries_of_declared (by rw [Space.isDeclaredAt, htag]; rfl) (of_interface hvalue)
        (by rw [Space.parse, hvalue]; rfl) rfl
    | _ => exact hother (by rw [htag]; decide) rfl
  | @binding value htag hvalue =>
    have hentries : s ≠ .binding →
        (value.toList.map Declaration.binding).filterMap (·.entryIn s) = [] := by
      cases s <;> cases value <;> first | exact fun _ => rfl | exact fun h => absurd rfl h
    cases s with
    | binding =>
      obtain ⟨hname, hdetails⟩ := of_binding hvalue
      have hsite : Space.binding.isDeclaredAt r.document n = value.isSome := by
        rw [Space.isDeclaredAt, htag, hdetails]
        rfl
      cases value with
      | none => exact entries_of_not_declared hsite rfl
      | some value => exact entries_of_declared hsite (hname value rfl) hvalue rfl
    | _ => exact hother (by rw [htag]; decide) (hentries (by decide))
  | @service endpoints htag hvalue =>
    have hentries : (endpoints.map Declaration.endpoint).filterMap (·.entryIn s) = [] := by
      rw [List.filterMap_map]
      exact List.filterMap_eq_nil_iff.2 fun endpoint _ => by cases s <;> rfl
    refine hother ?_ hentries
    rw [htag]
    cases s <;> decide
  | other htag =>
    refine hother ?_ rfl
    simp only [List.mem_cons, List.not_mem_nil, or_false, not_or] at htag
    cases s <;> first | exact absurd hs (by decide) | simp [Space.tags, htag]

/-- In a space that schemas declare, a child of a schema declares one thing if it is a site of the
space, and nothing otherwise. -/
theorem DeclaresOfSchema.entries {found : Option Declaration} (h : r.DeclaresOfSchema n found)
    (hs : s.isOfServices = false) :
    List.Forall₂ (Site.Declares s)
      (if s.isDeclaredAt r.document n then [⟨r, holder, n⟩] else [])
      (found.toList.filterMap (·.entryIn s)) := by
  have hother (htag : s.tags.contains (r.document.nameOf n) = false)
      (hentries : found.toList.filterMap (·.entryIn s) = []) : List.Forall₂ (Site.Declares s)
        (if s.isDeclaredAt r.document n then [⟨r, holder, n⟩] else [])
        (found.toList.filterMap (·.entryIn s)) :=
    entries_of_not_declared (by rw [Space.isDeclaredAt, htag]; rfl) hentries
  cases h with
  | @element value htag hvalue hgroup =>
    obtain ⟨hname, hstands⟩ := of_element hvalue
    have hsite : Space.element.isDeclaredAt r.document n = true := by
      have hnone := isNone_of_resolve? hstands
      rw [hgroup] at hnone
      rw [Space.isDeclaredAt, htag]
      exact hnone.symm
    cases s with
    | element =>
      have hparse : Space.element.parse r n = .ok (some { value with isQualified := true }) := by
        rw [Space.parse, hvalue]
        rfl
      exact entries_of_declared hsite hname hparse rfl
    | _ => exact hother (by rw [htag]; decide) rfl
  | @standIn value group htag hvalue hgroup =>
    have hsite : Space.element.isDeclaredAt r.document n = false := by
      have hsome := isNone_of_resolve? (of_element hvalue).2
      rw [hgroup] at hsome
      rw [Space.isDeclaredAt, htag]
      exact hsome.symm
    cases s with
    | element => exact entries_of_not_declared hsite rfl
    | _ => exact hother (by rw [htag]; decide) rfl
  | @type name value htag hname hvalue =>
    cases s with
    | type =>
      have hsite : Space.type.isDeclaredAt r.document n = true := by
        rw [Space.isDeclaredAt, Space.admits, Bool.and_true]
        exact List.contains_iff_mem.2 htag
      exact entries_of_declared hsite hname (by rw [Space.parse, hvalue]; rfl) rfl
    | _ =>
      refine hother ?_ rfl
      rcases List.mem_pair.1 htag with htag | htag <;> rw [htag] <;> decide
  | @group name value htag hname hvalue =>
    cases s with
    | group =>
      exact entries_of_declared (by rw [Space.isDeclaredAt, htag]; rfl) hname
        (by rw [Space.parse, hvalue]; rfl) rfl
    | _ => exact hother (by rw [htag]; decide) rfl
  | @attributeGroup value htag hvalue =>
    cases s with
    | attributeGroup =>
      exact entries_of_declared (by rw [Space.isDeclaredAt, htag]; rfl) (of_attributeGroup hvalue)
        (by rw [Space.parse, hvalue]; rfl) rfl
    | _ => exact hother (by rw [htag]; decide) rfl
  | @«attribute» value htag hvalue =>
    cases s with
    | «attribute» =>
      exact entries_of_declared (by rw [Space.isDeclaredAt, htag]; rfl) (of_attr hvalue)
        (by rw [Space.parse, hvalue]; rfl) rfl
    | _ => exact hother (by rw [htag]; decide) rfl
  | other htag =>
    refine hother ?_ rfl
    simp only [List.mem_cons, List.not_mem_nil, or_false, not_or] at htag
    cases s <;> first | exact absurd hs (by decide) | simp [Space.tags, htag]

theorem DeclaresOfService.isOfServices {found : List Declaration}
    (h : r.DeclaresOfService n found) : ∀ declaration ∈ found, declaration.isOfServices = true := by
  intro declaration hmem
  cases h with
  | message | interface =>
    cases List.mem_singleton.1 hmem
    rfl
  | binding | service =>
    obtain ⟨value, -, rfl⟩ := List.mem_map.1 hmem
    rfl
  | other => cases hmem

theorem DeclaresOfSchema.isOfServices {found : Option Declaration}
    (h : r.DeclaresOfSchema n found) : ∀ declaration ∈ found, declaration.isOfServices = false := by
  intro declaration hmem
  cases h with
  | standIn | other => cases hmem
  | _ =>
    cases hmem
    rfl

/-- An endpoint belongs to the service that it is read for, and says where this protocol is spoken.
-/
theorem of_endpoint {service : QName} {found : Option Endpoint}
    (h : r.endpoint service n = .ok found) :
    (∀ endpoint ∈ found, endpoint.service = service) ∧
      found.isSome = Space.hasAddress r.document n := by
  obtain ⟨name, -, h⟩ := bind_eq_ok.1 h
  obtain ⟨text, -, h⟩ := bind_eq_ok.1 h
  obtain ⟨binding, -, h⟩ := bind_eq_ok.1 h
  cases h
  constructor
  · intro endpoint hendpoint
    obtain ⟨protocol, -, hfound⟩ := List.exists_of_findSome?_eq_some hendpoint
    obtain ⟨address, -, hfound⟩ := Option.bind_eq_some_iff.1 hfound
    obtain ⟨location, -, hfound⟩ := Option.bind_eq_some_iff.1 hfound
    cases hfound
    rfl
  · rw [List.isSome_findSome?, Space.hasAddress]
    congr 1
    funext ⟨uri, version⟩
    simp only
    cases r.document.childNamed? n uri "address" with
    | none => rfl
    | some address =>
      show (Option.bind (r.document.attributeValue address "location") _).isSome =
        (r.document.attributeValue address "location").isSome
      cases r.document.attributeValue address "location" <;> rfl

theorem serves_ports {name : QName} {ports : List Node} {all : List (Option Endpoint)}
    (hname : r.declared n = .ok name)
    (hall : List.Forall₂ (fun port found => r.endpoint name port = .ok found) ports all) :
    List.Forall₂ Site.Serves
      ((ports.filter (Space.hasAddress r.document)).map (⟨r, n, ·⟩)) (all.filterMap id) := by
  induction hall with
  | nil => exact .nil
  | @cons port found ports all hport _ ih =>
    obtain ⟨hservice, haddress⟩ := of_endpoint hport
    cases found with
    | none =>
      rw [List.filter_cons_of_neg (by rw [← haddress]; decide)]
      exact ih
    | some endpoint =>
      rw [List.filter_cons_of_pos haddress.symm]
      have hsame := hservice endpoint rfl
      exact .cons ⟨by rw [hsame]; exact hname, by rw [hsame]; exact hport⟩ ih

/-- A service serves at the ports that say where. -/
theorem DeclaresOfService.endpoints {found : List Declaration} (h : r.DeclaresOfService n found) :
    List.Forall₂ Site.Serves
      (if r.document.nameOf n == "service" then r.portsOf n else [])
      (found.filterMap Declaration.endpoint?) := by
  have hother : r.document.nameOf n ≠ "service" → found.filterMap Declaration.endpoint? = [] →
      List.Forall₂ Site.Serves (if r.document.nameOf n == "service" then r.portsOf n else [])
        (found.filterMap Declaration.endpoint?) := by
    intro htag hnone
    rw [if_neg (by simpa using htag), hnone]
    exact .nil
  cases h with
  | @service endpoints htag hvalue =>
    obtain ⟨name, hname, hvalue⟩ := bind_eq_ok.1 hvalue
    obtain ⟨all, hall, hvalue⟩ := bind_eq_ok.1 hvalue
    cases hvalue
    have hserved : ((all.filterMap id).map Declaration.endpoint).filterMap
        Declaration.endpoint? = all.filterMap id := by
      rw [List.filterMap_map]
      exact List.filterMap_some
    rw [htag, if_pos (by decide), portsOf, hserved]
    exact serves_ports hname (mapM_eq_ok_iff.1 hall)
  | message htag | interface htag => exact hother (by rw [htag]; decide) rfl
  | @binding value htag => exact hother (by rw [htag]; decide) (by cases value <;> rfl)
  | other htag =>
    refine hother (fun h => htag ?_) rfl
    rw [h]
    decide

end Reader

namespace SourceDocument

variable {source : SourceDocument} {s : Space}

theorem filter_flatMap_eq {α β : Type} (p : α → Bool) (f : α → List β) (xs : List α) :
    (xs.filter p).flatMap f = xs.flatMap fun x => if p x then f x else [] := by
  induction xs with
  | nil => rfl
  | cons x rest ih => cases h : p x <;> simp [h, ih]

/-- Each child of a holder is a site or none. -/
theorem sitesIn_eq (source : SourceDocument) (s : Space) (holder : Node) :
    source.sitesIn s holder = (source.document.childrenIn holder s.uri).flatMap fun n =>
      if s.isDeclaredAt source.document n then
        [⟨.inside source.document source.names holder, holder, n⟩] else [] := by
  rw [sitesIn, List.map_eq_flatMap, filter_flatMap_eq]

/-- What services declare is read from the children of the description. -/
theorem of_serviceDeclarations {declarations : List Declaration}
    (h : source.serviceDeclarations = .ok declarations) :
    ∃ all : List (List (List Declaration)),
      List.Forall₂ (fun top found =>
        List.Forall₂ (Reader.inside source.document source.names top).DeclaresOfService
          (source.document.childrenIn top wsdlNamespace) found) source.description all ∧
        declarations = all.flatMap List.flatten := by
  rw [serviceDeclarations] at h
  rw [description]
  cases htop : source.top with
  | none =>
    rw [htop] at h
    cases h
    exact ⟨[], .nil, rfl⟩
  | some top =>
    rw [htop] at h
    simp only at h
    split at h
    · next hservice =>
      obtain ⟨found, hfound, h⟩ := bind_eq_ok.1 h
      cases h
      refine ⟨[found], ?_, by simp⟩
      rw [Option.toList_some, show [top].filter (fun _ => source.isService) = [top] by
        simp [hservice]]
      exact .cons ((mapM_eq_ok_iff.1 hfound).imp fun _ _ => Reader.declaresOfService) .nil
    · next hservice =>
      cases h
      exact ⟨[], by simp [hservice], rfl⟩

/-- The services of a document declare one thing at each site of a space of theirs. -/
theorem entries_serviceDeclarations {declarations : List Declaration}
    (h : source.serviceDeclarations = .ok declarations) (hs : s.isOfServices = true) :
    List.Forall₂ (Site.Declares s) (source.description.flatMap (source.sitesIn s))
      (declarations.filterMap (·.entryIn s)) := by
  obtain ⟨all, hall, rfl⟩ := of_serviceDeclarations h
  rw [List.filterMap_flatMap]
  refine List.rel_flatMap hall fun top found hfound => ?_
  rw [sitesIn_eq, Space.uri, if_pos hs, List.filterMap_flatten]
  exact List.rel_flatMap hfound fun n found hn => hn.entries hs

/-- The services of a document serve at each port that says where. -/
theorem endpoints_serviceDeclarations {declarations : List Declaration}
    (h : source.serviceDeclarations = .ok declarations) :
    List.Forall₂ Site.Serves source.ports (declarations.filterMap Declaration.endpoint?) := by
  obtain ⟨all, hall, rfl⟩ := of_serviceDeclarations h
  rw [List.filterMap_flatMap]
  refine List.rel_flatMap hall fun top found hfound => ?_
  rw [Document.childrenNamed, filter_flatMap_eq, List.filterMap_flatten]
  exact List.rel_flatMap hfound fun n found hn => hn.endpoints

theorem isOfServices_serviceDeclarations {declarations : List Declaration}
    (h : source.serviceDeclarations = .ok declarations) :
    ∀ declaration ∈ declarations, declaration.isOfServices = true := by
  obtain ⟨all, hall, rfl⟩ := of_serviceDeclarations h
  intro declaration hmem
  obtain ⟨found, hfound, hmem⟩ := List.mem_flatMap.1 hmem
  obtain ⟨own, hown, hmem⟩ := List.mem_flatten.1 hmem
  obtain ⟨top, -, htop⟩ := exists_mem_of_forall₂ hall hfound
  obtain ⟨n, -, hn⟩ := exists_mem_of_forall₂ htop hown
  exact hn.isOfServices declaration hmem

/-- What a schema declares is read from its children. -/
theorem of_schemaDeclarations {schema : Node} {declarations : List Declaration}
    (h : source.schemaDeclarations schema = .ok declarations) :
    ∃ found : List (Option Declaration),
      List.Forall₂ (Reader.inside source.document source.names schema).DeclaresOfSchema
        (source.document.childrenIn schema Soap.schemaNamespace) found ∧
          declarations = found.flatMap (·.toList) := by
  obtain ⟨found, hfound, h⟩ := bind_eq_ok.1 h
  cases h
  refine ⟨found, (mapM_eq_ok_iff.1 hfound).imp fun _ _ => Reader.declaresOfSchema, ?_⟩
  rw [List.filterMap_eq_flatMap_toList]
  rfl

/-- A schema declares one thing at each of its sites in a space of schemas. -/
theorem entries_schemaDeclarations {schema : Node} {declarations : List Declaration}
    (h : source.schemaDeclarations schema = .ok declarations) (hs : s.isOfServices = false) :
    List.Forall₂ (Site.Declares s) (source.sitesIn s schema)
      (declarations.filterMap (·.entryIn s)) := by
  obtain ⟨found, hfound, rfl⟩ := of_schemaDeclarations h
  rw [sitesIn_eq, Space.uri, if_neg (by simp [hs]), List.filterMap_flatMap]
  exact List.rel_flatMap hfound fun n found hn => hn.entries hs

theorem isOfServices_schemaDeclarations {schema : Node} {declarations : List Declaration}
    (h : source.schemaDeclarations schema = .ok declarations) :
    ∀ declaration ∈ declarations, declaration.isOfServices = false := by
  obtain ⟨found, hfound, rfl⟩ := of_schemaDeclarations h
  intro declaration hmem
  obtain ⟨own, hown, hmem⟩ := List.mem_flatMap.1 hmem
  obtain ⟨n, -, hn⟩ := exists_mem_of_forall₂ hfound hown
  exact hn.isOfServices declaration (Option.mem_toList.1 hmem)

/-- A document declares one thing at each site of a space. -/
theorem entries_declarations {declarations : List Declaration}
    (h : source.declarations = .ok declarations) (s : Space) :
    List.Forall₂ (Site.Declares s) (source.sites s) (declarations.filterMap (·.entryIn s)) := by
  obtain ⟨services, hservices, h⟩ := bind_eq_ok.1 h
  obtain ⟨schemas, hschemas, h⟩ := bind_eq_ok.1 h
  cases h
  rw [sites, holders, List.filterMap_append]
  cases hs : s.isOfServices with
  | true =>
    have hnone : schemas.flatten.filterMap (·.entryIn s) = [] := by
      refine List.filterMap_eq_nil_iff.2 fun declaration hmem => ?_
      obtain ⟨own, hown, hmem⟩ := List.mem_flatten.1 hmem
      obtain ⟨schema, -, hschema⟩ := exists_mem_of_forall₂ (mapM_eq_ok_iff.1 hschemas) hown
      refine Declaration.entryIn_eq_none ?_
      rw [isOfServices_schemaDeclarations hschema declaration hmem, hs]
      decide
    rw [hnone, List.append_nil]
    exact entries_serviceDeclarations hservices hs
  | false =>
    have hnone : services.filterMap (·.entryIn s) = [] := by
      refine List.filterMap_eq_nil_iff.2 fun declaration hmem => Declaration.entryIn_eq_none ?_
      rw [isOfServices_serviceDeclarations hservices declaration hmem, hs]
      decide
    rw [hnone, List.nil_append, List.filterMap_flatten]
    exact List.rel_flatMap (mapM_eq_ok_iff.1 hschemas) fun schema own hown =>
      entries_schemaDeclarations hown hs

/-- A document serves at each port that says where. -/
theorem endpoints_declarations {declarations : List Declaration}
    (h : source.declarations = .ok declarations) :
    List.Forall₂ Site.Serves source.ports (declarations.filterMap Declaration.endpoint?) := by
  obtain ⟨services, hservices, h⟩ := bind_eq_ok.1 h
  obtain ⟨schemas, hschemas, h⟩ := bind_eq_ok.1 h
  cases h
  have hnone : schemas.flatten.filterMap Declaration.endpoint? = [] := by
    refine List.filterMap_eq_nil_iff.2 fun declaration hmem => ?_
    obtain ⟨own, hown, hmem⟩ := List.mem_flatten.1 hmem
    obtain ⟨schema, -, hschema⟩ := exists_mem_of_forall₂ (mapM_eq_ok_iff.1 hschemas) hown
    have hof := isOfServices_schemaDeclarations hschema declaration hmem
    cases declaration <;> first | rfl | cases hof
  rw [List.filterMap_append, hnone, List.append_nil]
  exact endpoints_serviceDeclarations hservices

end SourceDocument

end SoapKit.Wsdl
