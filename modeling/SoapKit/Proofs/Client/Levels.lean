import SoapKit.Proofs.Client.Contents
import SoapKit.Proofs.Client.Records
import SoapKit.Proofs.Wsdl.Spaces

/-!
# Levels of types

A type that extends another one has the elements of that one before its own. Each of these types is
declared somewhere in the documents (`DeclaredAt`): by its name, or inside of an element. Together
these places are the levels of a type, outermost base first (`Levels`). What is listed for a type is
gathered from its levels one after the other (`elementsWithin_gathers`).

Every record of a description has levels, unless its base types never come to an end
(`exists_levels`). The levels that are reached in a number of steps are always there (`Followed`,
`exists_followed`).
-/

namespace SoapKit.Wsdl

open Xml (Document Node)

/-! ## Contents of complex types -/

/-- The node that holds the content of a complex type: where it is derived from another one, what
says so, and otherwise the node of the type. -/
def contentHolder (d : Document) (n : Node) : Node :=
  match d.childAmong? n Soap.schemaNamespace ["simpleContent", "complexContent"] with
  | none => n
  | some content =>
    (d.childAmong? content Soap.schemaNamespace ["extension", "restriction"]).getD content

namespace Reader

variable {r : Reader} {depth : Nat}

/-- A type is read from a node. -/
def ReadsType (r : Reader) (n : Node) (definition : TypeDefinition) : Prop :=
  ∃ depth, r.typeDefinition depth n = .ok definition

theorem derivation_holder {n inner : Node} {found : Option Derivation}
    (h : r.derivation n = .ok (found, inner)) : inner = contentHolder r.document n := by
  rw [derivation, childAmong?] at h
  rw [contentHolder]
  cases hcontent : r.document.childAmong? n Soap.schemaNamespace
      ["simpleContent", "complexContent"] with
  | none =>
    rw [hcontent] at h
    cases h
    rfl
  | some content =>
    rw [hcontent] at h
    simp only [childAmong?] at h
    cases hholder : r.document.childAmong? content Soap.schemaNamespace
        ["extension", "restriction"] with
    | none =>
      rw [hholder] at h
      cases h
    | some holder =>
      rw [hholder] at h
      obtain ⟨text, -, h⟩ := bind_eq_ok.1 h
      obtain ⟨base, -, h⟩ := bind_eq_ok.1 h
      cases h
      simp only [hholder, Option.getD_some]

/-- The content that a part of a type is. -/
def Member.content? : Member → Option ModelGroup
  | .content group => some group
  | _ => none

/-- What is read from a child of the node that holds the content of a type. -/
inductive ReadsMember (r : Reader) (depth : Nat) (c : Node) : Member → Prop where
  | content {content : ModelGroup} : isModelGroup r.document c = true →
      r.modelGroup depth c = .ok content → ReadsMember r depth c (.content content)
  | other {member : Member} : isModelGroup r.document c = false → member.content? = none →
      ReadsMember r depth c member

/-- A part of a complex type, as it is read from a child of the node that holds the content. -/
def member (r : Reader) (depth : Nat) (c : Node) : Except Error Member :=
  match r.document.nameOf c with
  | "attribute" => return .attribute (← r.attr depth c)
  | "attributeGroup" => return .attributeGroup (← r.attributeGroup depth c)
  | "anyAttribute" => throw (r.notSupported "xs:anyAttribute" c)
  | "all" | "sequence" | "choice" | "group" => return .content (← r.modelGroup depth c)
  | _ => return .other

theorem readsMember {c : Node} {found : Member} (h : r.member depth c = .ok found) :
    r.ReadsMember depth c found := by
  have hcontent (hname : isModelGroup r.document c = true)
      (h : (do return .content (← r.modelGroup depth c)) = Except.ok found) :
      r.ReadsMember depth c found := by
    obtain ⟨content, hcontent, h⟩ := bind_eq_ok.1 h
    cases h
    exact .content hname hcontent
  rw [member] at h
  split at h
  · next htag =>
    obtain ⟨attr, -, h⟩ := bind_eq_ok.1 h
    cases h
    exact .other (isModelGroup_of_name htag) rfl
  · next htag =>
    obtain ⟨group, -, h⟩ := bind_eq_ok.1 h
    cases h
    exact .other (isModelGroup_of_name htag) rfl
  · cases h
  · next htag => exact hcontent (isModelGroup_of_name htag) h
  · next htag => exact hcontent (isModelGroup_of_name htag) h
  · next htag => exact hcontent (isModelGroup_of_name htag) h
  · next htag => exact hcontent (isModelGroup_of_name htag) h
  · next _ _ _ hall hsequence hchoice hgroup =>
    cases h
    exact .other (by simpa [isModelGroup] using ⟨hall, hsequence, hchoice, hgroup⟩) rfl

theorem not_complex_of_simpleType {n : Node} {type : ComplexType} :
    r.simpleType n ≠ .ok (.complex type) := by
  intro h
  rw [simpleType] at h
  split at h
  · cases h
  · split at h
    · obtain ⟨base, -, h⟩ := bind_eq_ok.1 h
      obtain ⟨resolved, -, h⟩ := bind_eq_ok.1 h
      cases h
    · split at h
      · cases h
      · obtain ⟨item, -, h⟩ := bind_eq_ok.1 h
        cases h
    · split at h
      · cases h
      · obtain ⟨members, -, h⟩ := bind_eq_ok.1 h
        cases h

/-- The contents of a type are read from the model groups of its content. -/
theorem contents_of_members {cs : List Node} {members : List Member}
    (h : List.Forall₂ (r.ReadsMember depth) cs members) :
    List.Forall₂ (fun g content => r.modelGroup depth g = .ok content)
      (cs.filter (isModelGroup r.document)) (members.filterMap Member.content?) := by
  induction h with
  | nil => exact .nil
  | @cons c member cs members hmember _ ih =>
    cases hmember with
    | content hgroup hcontent =>
      rw [List.filter_cons_of_pos hgroup]
      exact .cons hcontent ih
    | other hother hnone =>
      rw [List.filter_cons_of_neg (by simp [hother]), List.filterMap_cons_none hnone]
      exact ih

/-- The content of a complex type is the last of those that are read from the model groups. -/
theorem content_of_typeDefinition {n : Node} {type : ComplexType}
    (h : r.typeDefinition (depth + 1) n = .ok (.complex type)) : ∃ contents,
      List.Forall₂ (fun g content => r.modelGroup depth g = .ok content)
        (modelGroups r.document (contentHolder r.document n)) contents ∧
      type.content = contents.getLast? := by
  rw [typeDefinition] at h
  split at h
  · obtain ⟨⟨found, inner⟩, hderivation, h⟩ := bind_eq_ok.1 h
    obtain ⟨members, hmembers, h⟩ := bind_eq_ok.1 h
    have hholder := derivation_holder hderivation
    cases h
    have hread : List.Forall₂ (r.ReadsMember depth) (r.children inner) members :=
      (mapM_eq_ok_iff.1 hmembers).imp fun c member hmember => readsMember hmember
    exact ⟨members.filterMap Member.content?, hholder ▸ contents_of_members hread, rfl⟩
  · exact absurd h not_complex_of_simpleType

/-! ## Elements -/

/-- What an element takes over from its node. -/
structure ElementAt (r : Reader) (n : Node) (element : Element) : Prop where
  isReference : element.isReference = (r.value? n "ref").isSome
  definition : ∀ definition ∈ element.definition, ∃ c,
    r.childAmong? n ["complexType", "simpleType"] = some c ∧ r.ReadsType c definition
  occurs : element.occurs = r.occurs n
  isNillable : element.isNillable = (r.value? n "nillable" == some "true")

theorem ReadsElement.elementAt {n : Node} {element : Element} (h : r.ReadsElement n element) :
    r.ElementAt n element := by
  obtain ⟨depth, h⟩ := h
  cases depth with
  | zero => cases h
  | succ depth =>
    rw [Reader.element] at h
    obtain ⟨definition, hdefinition, h⟩ := bind_eq_ok.1 h
    simp only at h
    split at h
    · cases h
    · obtain ⟨declared, -, h⟩ := bind_eq_ok.1 h
      obtain ⟨typeName, -, h⟩ := bind_eq_ok.1 h
      obtain ⟨substitutionGroup, -, h⟩ := bind_eq_ok.1 h
      cases h
      refine ⟨rfl, fun found hfound => ?_, rfl, rfl⟩
      rw [inlineWith] at hdefinition
      cases hchild : r.childAmong? n ["complexType", "simpleType"] with
      | none =>
        rw [hchild] at hdefinition
        cases hdefinition
        cases hfound
      | some c =>
        rw [hchild, Option.mapM_some] at hdefinition
        obtain ⟨type, htype, rfl⟩ := map_eq_ok.1 hdefinition
        cases hfound
        exact ⟨c, rfl, depth, htype⟩

end Reader

/-! ## Declarations in definitions -/

/-- What stands in a table is declared at a site. -/
theorem Definitions.Lists.exists_site {defs : Definitions} {sources : List SourceDocument}
    (h : defs.Lists sources) {s : Space} {name : QName} {value : s.Value}
    (hget : (defs.table s).get? name = some value) :
    ∃ source ∈ sources, ∃ site ∈ source.sites s, Site.Declares s site (name, value) := by
  obtain ⟨entries, hentries, hhas⟩ := h.spaces s
  rw [hhas.get?, Option.map_eq_some_iff] at hget
  obtain ⟨⟨key, value⟩, hfound, rfl⟩ := hget
  obtain rfl : key = name := by simpa using List.find?_some hfound
  obtain ⟨own, hown, hmem⟩ :=
    List.mem_flatten.1 (List.mem_reverse.1 (List.mem_of_find?_eq_some hfound))
  obtain ⟨source, hsource, hsites⟩ := exists_mem_of_forall₂ hentries hown
  obtain ⟨site, hsite, hdeclares⟩ := exists_mem_of_forall₂ hsites hmem
  exact ⟨source, hsource, site, hsite, hdeclares⟩

end SoapKit.Wsdl

namespace SoapKit.Client

open Wsdl (QName Definitions Reader Site SourceDocument InContent ContentFormed contentHolder)
open Xml (Document Node)

variable {sources : List SourceDocument} {defs : Definitions} {record : Record}

/-! ## Places of types -/

/-- A node of a document that is read, with the reader for it. -/
structure Spot where
  reader : Reader
  node : Node

namespace Spot

/-- A node stands in the content of the type at a spot. -/
def Contains (spot : Spot) (n : Node) : Prop :=
  InContent spot.reader.document (contentHolder spot.reader.document spot.node) n

/-- The content of the type at a spot is formed as schemas allow it. -/
def Formed (spot : Spot) : Prop :=
  ContentFormed spot.reader.document (contentHolder spot.reader.document spot.node)

end Spot

/-- The type of a record is declared at a spot: under the name of the record, or inside of an
element of that name. -/
inductive DeclaredAt (sources : List SourceDocument) : Record → Spot → Prop where
  | named {source : SourceDocument} {site : Site} {name : QName} {type : Wsdl.ComplexType} :
      source ∈ sources → site ∈ source.sites .type →
      Site.Declares .type site (name, .complex type) →
      DeclaredAt sources ⟨name, false, type⟩ ⟨site.reader, site.node⟩
  | inline {source : SourceDocument} {site : Site} {name : QName} {element : Wsdl.Element}
      {type : Wsdl.ComplexType} {n : Node} : source ∈ sources → site ∈ source.sites .element →
      Site.Declares .element site (name, element) → element.definition = some (.complex type) →
      site.reader.childAmong? site.node ["complexType", "simpleType"] = some n →
      site.reader.ReadsType n (.complex type) →
      DeclaredAt sources ⟨name, true, type⟩ ⟨site.reader, n⟩

/-- The record of the type that a type extends. -/
def extended? (defs : Definitions) (type : Wsdl.ComplexType) : Option Record :=
  (type.derivation.filter (·.method == .extension)).bind fun derivation =>
    recordOfType defs derivation.base

/-- The levels of the type of a record: where the types are declared that it extends, outermost base
first, and where it is declared itself. -/
inductive Levels (sources : List SourceDocument) (defs : Definitions) :
    Record → List Spot → Prop where
  | first {record : Record} {spot : Spot} : DeclaredAt sources record spot →
      extended? defs record.type = none → Levels sources defs record [spot]
  | next {record base : Record} {spots : List Spot} {spot : Spot} :
      DeclaredAt sources record spot → extended? defs record.type = some base →
      Levels sources defs base spots → Levels sources defs record (spots ++ [spot])

/-- The levels of the type of a record as far as they are followed. -/
inductive Followed (sources : List SourceDocument) (defs : Definitions) :
    Nat → Record → List Spot → Prop where
  | cut {record : Record} : Followed sources defs 0 record []
  | first {k : Nat} {record : Record} {spot : Spot} : DeclaredAt sources record spot →
      extended? defs record.type = none → Followed sources defs (k + 1) record [spot]
  | next {k : Nat} {record base : Record} {spots : List Spot} {spot : Spot} :
      DeclaredAt sources record spot → extended? defs record.type = some base →
      Followed sources defs k base spots → Followed sources defs (k + 1) record (spots ++ [spot])

/-- A type has at most a number of levels. -/
def LevelsWithin (defs : Definitions) : Nat → Wsdl.ComplexType → Prop
  | 0, _ => False
  | levels + 1, type => ∀ base ∈ extended? defs type, LevelsWithin defs levels base.type

/-- The type of a record of a description is declared in one of the documents. -/
theorem exists_declaredAt (hlists : defs.Lists sources) (h : Declared defs record) :
    ∃ spot, DeclaredAt sources record spot := by
  cases h with
  | @named name type htype =>
    rw [Definitions.complexType?] at htype
    split at htype
    · next hget =>
      cases htype
      obtain ⟨source, hsource, site, hsite, hdeclares⟩ := hlists.exists_site (s := .type) hget
      exact ⟨_, .named hsource hsite hdeclares⟩
    · cases htype
  | @inline name element type hget htypeName hdefinition =>
    obtain ⟨source, hsource, site, hsite, hdeclares⟩ := hlists.exists_site (s := .element) hget
    obtain ⟨found, hfound, heq⟩ := map_eq_ok.1 hdeclares.parse_eq
    have hread : site.reader.ReadsElement site.node found := ⟨_, hfound⟩
    have hsame : found.definition = element.definition := by
      cases heq
      rfl
    obtain ⟨n, hn, htype⟩ := hread.elementAt.definition _ (hsame.trans hdefinition)
    exact ⟨_, .inline hsource hsite hdeclares hdefinition hn htype⟩

theorem declared_of_extended {base : Record} (h : extended? defs record.type = some base) :
    Declared defs base := by
  obtain ⟨derivation, -, hrecord⟩ := Option.bind_eq_some_iff.1 h
  exact declared_of_type hrecord

/-- A record of a description has levels when its base types come to an end. -/
theorem exists_levels (hlists : defs.Lists sources) {k : Nat} (h : Declared defs record)
    (hk : LevelsWithin defs k record.type) : ∃ spots, Levels sources defs record spots := by
  induction k generalizing record with
  | zero => cases hk
  | succ k ih =>
    obtain ⟨spot, hspot⟩ := exists_declaredAt hlists h
    cases hbase : extended? defs record.type with
    | none => exact ⟨[spot], .first hspot hbase⟩
    | some base =>
      obtain ⟨spots, hspots⟩ := ih (declared_of_extended hbase) (hk base hbase)
      exact ⟨spots ++ [spot], .next hspot hbase hspots⟩

/-- Any number of levels can be followed. -/
theorem exists_followed (hlists : defs.Lists sources) (k : Nat) (h : Declared defs record) :
    ∃ spots, Followed sources defs k record spots := by
  induction k generalizing record with
  | zero => exact ⟨[], .cut⟩
  | succ k ih =>
    obtain ⟨spot, hspot⟩ := exists_declaredAt hlists h
    cases hbase : extended? defs record.type with
    | none => exact ⟨[spot], .first hspot hbase⟩
    | some base =>
      obtain ⟨spots, hspots⟩ := ih (declared_of_extended hbase)
      exact ⟨spots ++ [spot], .next hspot hbase hspots⟩

/-- When a type has no more levels than are followed, all of them are. -/
theorem Levels.followed {spots : List Spot} {k : Nat} (h : Levels sources defs record spots)
    (hk : LevelsWithin defs k record.type) : Followed sources defs k record spots := by
  induction h generalizing k with
  | first hspot hnone =>
    cases k with
    | zero => cases hk
    | succ k => exact .first hspot hnone
  | next hspot hbase _ ih =>
    cases k with
    | zero => cases hk
    | succ k => exact .next hspot hbase (ih (hk _ hbase))

/-! ## Elements of levels -/

theorem DeclaredAt.readsType {spot : Spot} (h : DeclaredAt sources record spot) :
    spot.reader.ReadsType spot.node (.complex record.type) := by
  cases h with
  | named _ _ hdeclares =>
    obtain ⟨definition, hdefinition, heq⟩ := map_eq_ok.1 hdeclares.parse_eq
    cases heq
    exact ⟨_, hdefinition⟩
  | inline _ _ _ _ _ htype => exact htype

theorem DeclaredAt.exists_source {spot : Spot} (h : DeclaredAt sources record spot) :
    ∃ source ∈ sources, spot.reader.document = source.document := by
  have hreader {source : SourceDocument} {s : Wsdl.Space} {site : Site}
      (hsite : site ∈ source.sites s) : site.reader.document = source.document := by
    obtain ⟨holder, -, hsite⟩ := List.mem_flatMap.1 hsite
    obtain ⟨n, -, rfl⟩ := List.mem_map.1 hsite
    rfl
  cases h with
  | named hsource hsite => exact ⟨_, hsource, hreader hsite⟩
  | inline hsource hsite => exact ⟨_, hsource, hreader hsite⟩

/-- The elements of the content of a type. -/
def ownElements (owner : QName) (type : Wsdl.ComplexType) : Except Error (List Wsdl.Element) :=
  match type.content with
  | some content => contentElements owner content
  | none => .ok []

/-- The elements of the content of a type are gathered from the node that holds it. -/
theorem ownElements_gathers {forest : List Xml.Tree} {spot : Spot} {type : Wsdl.ComplexType}
    (hd : spot.reader.document.Shows forest) (owner : QName)
    (h : spot.reader.ReadsType spot.node (.complex type)) :
    Gathers spot.reader owner spot.Contains spot.Formed (ownElements owner type) := by
  obtain ⟨depth, h⟩ := h
  cases depth with
  | zero => cases h
  | succ depth =>
    obtain ⟨contents, hcontents, hlast⟩ := Reader.content_of_typeDefinition h
    rw [ownElements, hlast]
    cases hfound : contents.getLast? with
    | none =>
      have hnone : contents = [] := List.getLast?_eq_none_iff.1 hfound
      rw [hnone, List.forall₂_nil_right_iff] at hcontents
      refine .nothing fun _ n hn => ?_
      obtain ⟨g, hg, -⟩ := hn
      rw [hcontents] at hg
      cases hg
    | some content =>
      obtain ⟨g, hg, hcontent⟩ := exists_mem_of_forall₂ hcontents (List.mem_of_getLast? hfound)
      refine (modelGroup_gathers hd owner hcontent (List.mem_filter.1 hg).2).widen
        (fun n hn => ⟨g, hg, hn⟩) fun hformed => ⟨hformed.formed g hg, ?_⟩
      rintro n ⟨g', hg', hn⟩
      exact .inl (Wsdl.eq_of_length_le_one hformed.single hg' hg ▸ hn)

/-- What is gathered from spots one after the other. -/
def GathersAlong (owner : QName) (spots : List Spot) : Except Error (List Wsdl.Element) → Prop
  | .ok elements => ∃ lists : List (List Wsdl.Element),
      List.Forall₂ (fun spot own => Gathers spot.reader owner spot.Contains spot.Formed (.ok own))
        spots lists ∧ elements = lists.flatten
  | .error e => ∃ spot ∈ spots, ∃ n, spot.Contains n ∧ Refuses spot.reader owner n e

namespace GathersAlong

variable {owner : QName} {spots : List Spot} {spot : Spot}
  {x y : Except Error (List Wsdl.Element)}

theorem nil : GathersAlong owner [] (.ok []) :=
  ⟨[], .nil, rfl⟩

theorem concat (hx : GathersAlong owner spots x)
    (hy : Gathers spot.reader owner spot.Contains spot.Formed y) :
    GathersAlong owner (spots ++ [spot]) (do return (← x) ++ (← y)) := by
  cases x with
  | error e =>
    obtain ⟨spot', hspot', hrefuses⟩ := hx
    exact ⟨spot', List.mem_append_left _ hspot', hrefuses⟩
  | ok inherited =>
    cases y with
    | error e => exact ⟨spot, List.mem_append_right _ List.mem_cons_self, hy⟩
    | ok own =>
      obtain ⟨lists, hlists, rfl⟩ := hx
      exact ⟨lists ++ [own], List.rel_append hlists (.cons hy .nil), by simp⟩

end GathersAlong

/-- The elements of the type that a type extends, if it does. -/
def inheritedElements (defs : Definitions) (owner : QName) (levels : Nat)
    (type : Wsdl.ComplexType) : Except Error (List Wsdl.Element) :=
  match extended? defs type with
  | some base => elementsWithin defs owner levels base.type
  | none => .ok []

theorem elementsWithin_succ (defs : Definitions) (owner : QName) (levels : Nat)
    (type : Wsdl.ComplexType) : elementsWithin defs owner (levels + 1) type = (do
      return (← inheritedElements defs owner levels type) ++ (← ownElements owner type)) := by
  have hbase : ((type.derivation.filter (·.method == .extension)).bind fun derivation =>
      defs.complexType? derivation.base) = (extended? defs type).map (·.type) := by
    rw [extended?, Option.map_bind]
    congr 1
    funext derivation
    cases h : defs.complexType? derivation.base <;> simp [recordOfType, h]
  rw [elementsWithin, ownElements, inheritedElements, hbase]
  cases extended? defs type <;> cases type.content <;> rfl

/-- The elements of a type are gathered from the levels of it that are followed. -/
theorem elementsWithin_gathers (hsources : ∀ source ∈ sources, source.document.Produced)
    (owner : QName) {spots : List Spot} {k : Nat} (h : Followed sources defs k record spots) :
    GathersAlong owner spots (elementsWithin defs owner k record.type) := by
  have hown {record : Record} {spot : Spot} (hspot : DeclaredAt sources record spot) :
      Gathers spot.reader owner spot.Contains spot.Formed (ownElements owner record.type) := by
    obtain ⟨source, hsource, hdocument⟩ := hspot.exists_source
    obtain ⟨forest, -, hd⟩ := (hsources source hsource).shows
    exact ownElements_gathers (hdocument ▸ hd) owner hspot.readsType
  induction h with
  | cut => exact .nil
  | first hspot hnone =>
    rw [elementsWithin_succ, inheritedElements, hnone]
    exact GathersAlong.nil.concat (hown hspot)
  | next hspot hbase _ ih =>
    rw [elementsWithin_succ, inheritedElements, hbase]
    exact ih.concat (hown hspot)

/-! ## Levels in one document -/

theorem Levels.forall_mem {P : Spot → Prop} {spots : List Spot}
    (h : Levels sources defs record spots)
    (hP : ∀ record spot, DeclaredAt sources record spot → P spot) : ∀ spot ∈ spots, P spot := by
  induction h with
  | first hspot _ => exact List.forall_mem_singleton.2 (hP _ _ hspot)
  | next hspot _ _ ih =>
    exact List.forall_mem_append.2 ⟨ih, List.forall_mem_singleton.2 (hP _ _ hspot)⟩

/-- All types that are declared by name in a document have contents that schemas allow, and no
element that is declared in it has a type inside of it. -/
def AllFormed (d : Document) : Prop :=
  (∀ site ∈ (SourceDocument.alone d).sites .type,
    (Wsdl.modelGroups d (contentHolder d site.node)).length ≤ 1 ∧
    ∀ g ∈ Wsdl.modelGroups d (contentHolder d site.node),
      Wsdl.isFormed d d.entries.size g = true) ∧
    ∀ site ∈ (SourceDocument.alone d).sites .element,
      d.childAmong? site.node Soap.schemaNamespace ["complexType", "simpleType"] = none

instance (d : Document) : Decidable (AllFormed d) :=
  inferInstanceAs (Decidable (_ ∧ _))

theorem AllFormed.of_levels {d : Document} (hd : AllFormed d) {spots : List Spot}
    (h : Levels [.alone d] defs record spots) : ∀ spot ∈ spots, spot.Formed := by
  refine h.forall_mem fun record spot hspot => ?_
  cases hspot with
  | @named source site name type hsource hsite _ =>
    obtain rfl := List.mem_singleton.1 hsource
    obtain ⟨holder, -, hsite'⟩ := List.mem_flatMap.1 hsite
    obtain ⟨n, -, rfl⟩ := List.mem_map.1 hsite'
    obtain ⟨hsingle, hformed⟩ := hd.1 _ hsite
    exact ⟨hsingle, fun g hg => Wsdl.formed_of_isFormed (hformed g hg)⟩
  | @inline source site name element type n hsource hsite _ _ hn _ =>
    obtain rfl := List.mem_singleton.1 hsource
    obtain ⟨holder, -, hsite'⟩ := List.mem_flatMap.1 hsite
    obtain ⟨n, -, rfl⟩ := List.mem_map.1 hsite'
    exact absurd (hn.symm.trans (hd.2 _ hsite)) (by simp)

/-- What the characters of a text show about the type that they describe holds of the type that is
read from the text. -/
theorem exists_described {text : String} {chars : List Char} {name : QName}
    {P : Document → Definitions → Wsdl.ComplexType → Prop} (htext : text.toList = chars)
    (h : chars.all Text.isBlank = false ∧ ∃ d ∈ (Xml.Lenient.read chars).toOption,
      ∃ defs ∈ (Definitions.ofSources [.alone d]).toOption, ∃ type ∈ defs.complexType? name,
        P d defs type) :
    ∃ d defs type, Document.read .lenient text = .ok d ∧
      (∀ source ∈ [SourceDocument.alone d], source.document.Produced) ∧
      Definitions.ofSources [.alone d] = .ok defs ∧ defs.complexType? name = some type ∧
      P d defs type := by
  subst htext
  obtain ⟨hvisible, d, hd, defs, hdefs, type, htype, hP⟩ := h
  rw [Option.mem_def, toOption_eq_some] at hd hdefs
  replace hd := (Document.read_of_visible .lenient hvisible).trans hd
  exact ⟨d, defs, type, hd, List.forall_mem_singleton.2 (.read hd), hdefs, htype, hP⟩

end SoapKit.Client
