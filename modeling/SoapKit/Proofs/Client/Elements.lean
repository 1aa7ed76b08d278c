import SoapKit.Proofs.Client.Completion
import SoapKit.Proofs.Client.Levels
import SoapKit.Proofs.Naming.Identifiers

/-!
# Elements of records

**Theorem (`fieldsOf_elements`).** The levels of a record's type are places in documents. To find
out the fields of the record fails only for a reason that is there: a choice or a reference to a
group in the content of a level, an element with a type inside of it, or a reference to something
that is not declared. A declared type with a name that no function can have in its own is the one
other reason. Otherwise there is one field for each element node of the contents, outermost base
first and in document order within each of them.

**What counts as declared.** An element that stands in for another one is not among the declarations
of a description, so that a reference to it is refused like one to an element that is missing
(`not_field_of_reference`).
-/

namespace SoapKit.Client

open Naming (FreshNames Variant camelize underscore)
open Rust (Ident)
open Wsdl (QName Definitions Reader SourceDocument)
open Xml (Document Node)

variable {s : Setting} {bench bench' : Workbench}

/-! ## Errors -/

/-- The error that is due to the name of a record: no function can have it in its name. -/
inductive RefusesName (defs : Definitions) : Error → Prop where
  | intro {record : Record} {name : String} : Declared defs record →
      Variant (camelize record.name.base) name →
      Ident.withLead? "build_" (underscore name) = none →
      RefusesName defs (.unwritableName name)

/-- The error that is due to an attribute that is not declared, or to a group of attributes. -/
inductive RefusesReference (defs : Definitions) : Error → Prop where
  | «attribute» {name : QName} : defs.attributes.get? name = none →
      RefusesReference defs (.unknownAttribute name.text)
  | attributeGroup {name : QName} : defs.attributeGroups.get? name = none →
      RefusesReference defs (.unknownAttributeGroup name.text)

/-- The error that is due to an element in a type: there is a type inside of it, or it refers to an
element that is not declared. -/
inductive RefusesElement (defs : Definitions) (element : Wsdl.Element) : Error → Prop where
  | inline : element.isReference = false → element.definition.isSome = true →
      RefusesElement defs element (.notSupported "inline nested type definition" element.name.text)
  | unknown : element.isReference = true → defs.elements.get? element.name = none →
      RefusesElement defs element (.unknownElement element.name.text)

theorem addAttribute_fails (defs : Definitions) (uses : AttributeUses) (attr : Wsdl.Attribute) :
    FailsOnly (RefusesReference defs) (addAttribute defs uses attr) := by
  unfold addAttribute
  split
  · exact .ok
  · split
    · split
      · exact .ok
      · next hnone => exact .error (.attribute hnone)
    · exact .ok

theorem resolveGroup_fails (defs : Definitions) (group : Wsdl.AttributeGroup) :
    FailsOnly (RefusesReference defs) (resolveGroup defs group) := by
  unfold resolveGroup
  split
  · split
    · exact .ok
    · next hnone => exact .error (.attributeGroup hnone)
  · exact .ok

theorem addGroup_fails (defs : Definitions) (levels : Nat) (uses : AttributeUses)
    (group : Wsdl.AttributeGroup) :
    FailsOnly (RefusesReference defs) (addGroup defs levels uses group) := by
  induction levels generalizing uses group with
  | zero => exact .ok
  | succ levels ih =>
    exact (resolveGroup_fails defs group).bind fun meant =>
      (FailsOnly.foldlM ih _ uses).bind fun uses =>
        .foldlM (addAttribute_fails defs) _ uses

theorem addAttributes_fails (defs : Definitions) (levels : Nat) (uses : AttributeUses)
    (type : Wsdl.ComplexType) :
    FailsOnly (RefusesReference defs) (addAttributes defs levels uses type) := by
  induction levels generalizing uses type with
  | zero => exact .ok
  | succ levels ih =>
    have hrest : ∀ uses : AttributeUses, FailsOnly (RefusesReference defs) (do
        let uses ← type.attributeGroups.foldlM (addGroup defs levels) uses
        type.attributes.foldlM (addAttribute defs) uses) := fun uses =>
      (FailsOnly.foldlM (addGroup_fails defs levels) _ uses).bind fun uses =>
        .foldlM (addAttribute_fails defs) _ uses
    unfold addAttributes
    simp only
    split
    · exact (ih uses _).bind hrest
    · exact hrest uses

/-! ## Kinds of values -/

/-- All errors of a step of writing are of a kind. -/
def StepFailsOnly {α : Type} (P : Error → Prop) (w : Writing α) : Prop :=
  ∀ bench, FailsOnly P (w bench)

namespace StepFailsOnly

variable {α β : Type} {P Q : Error → Prop} {w : Writing α}

theorem pure {a : α} : StepFailsOnly P (pure a : Writing α) :=
  fun _ => .ok

theorem bind {f : α → Writing β} (hw : StepFailsOnly P w) (hf : ∀ a, StepFailsOnly P (f a)) :
    StepFailsOnly P (w >>= f) :=
  fun bench => (hw bench).bind fun (a, bench') => hf a bench'

theorem mono (hw : StepFailsOnly P w) (hPQ : ∀ e, P e → Q e) : StepFailsOnly Q w :=
  fun bench e he => hPQ e (hw bench e he)

theorem lift {x : Except Error α} (hx : FailsOnly P x) : StepFailsOnly P (liftM x : Writing α) :=
  fun _ => hx.bind fun _ => .ok

theorem mapM {f : α → Writing β} (hf : ∀ a, StepFailsOnly P (f a)) (xs : List α) :
    StepFailsOnly P (xs.mapM f) := by
  induction xs with
  | nil => exact pure
  | cons x rest ih =>
    rw [List.mapM_cons]
    exact (hf x).bind fun _ => ih.bind fun _ => pure

end StepFailsOnly

theorem register_fails {record : Record} (hrecord : Declared s.defs record) :
    StepFailsOnly (RefusesName s.defs) (register record) := by
  intro bench
  unfold register
  split
  · next index hfound =>
    obtain ⟨hindex, -⟩ := List.findIdx?_eq_some_iff_getElem.1 hfound
    rw [List.getElem?_eq_getElem hindex]
    exact .ok
  · simp only
    split
    · next hnone => exact .error (.intro hrecord (.choose _ _) hnone)
    · exact .ok

theorem registerType_fails (s : Setting) (name : QName) :
    StepFailsOnly (RefusesName s.defs) (registerType s name) := by
  unfold registerType
  split
  · next htype =>
    rw [map_eq_pure_bind]
    exact (register_fails (.named htype)).bind fun _ => .pure
  · exact .pure

theorem kindOfType_fails (s : Setting) (name : QName) :
    StepFailsOnly (RefusesName s.defs) (kindOfType s name) := by
  refine (registerType_fails s name).bind fun found => ?_
  cases found <;> exact .pure

theorem kindOfGlobal_fails {element : Wsdl.Element} (helement : ∀ type, element.typeName = none →
    element.definition = some (.complex type) → Declared s.defs ⟨element.name, true, type⟩) :
    StepFailsOnly (RefusesName s.defs) (kindOfGlobal s element) := by
  unfold kindOfGlobal
  split
  · exact kindOfType_fails s _
  · next hname hdefinition => exact register_fails (helement _ hname hdefinition)
  · exact .pure
  · exact .pure

theorem kindOfLocal_fails (s : Setting) (element : Wsdl.Element) :
    StepFailsOnly (fun e => RefusesElement s.defs element e ∨ RefusesName s.defs e)
      (kindOfLocal s element) := by
  unfold kindOfLocal
  split
  · next href =>
    unfold globalElement
    cases hget : s.defs.elements.get? element.name with
    | none => exact fun _ => .error (.inl (.unknown href hget))
    | some declared =>
      have hfails : StepFailsOnly (RefusesName s.defs)
          (kindOfGlobal s { declared with name := element.name }) :=
        kindOfGlobal_fails fun _ hname hdefinition => .inline hget hname hdefinition
      exact hfails.mono fun e => .inr
  · next href =>
    split
    · next hinline => exact fun _ => .error (.inl (.inline (by simpa using href) hinline))
    · split
      · exact (kindOfType_fails s _).mono fun e => .inr
      · exact .pure

/-! ## Fields -/

theorem xmlName_fails {P : Error → Prop} (name : QName) : StepFailsOnly P (xmlName name) :=
  fun _ => .ok

theorem attributeFields_fails {P : Error → Prop} (s : Setting) (taken : FreshNames)
    (uses : List (QName × Wsdl.Attribute × Wsdl.Attribute)) :
    StepFailsOnly P (attributeFields s taken uses) := by
  induction uses generalizing taken with
  | nil => exact .pure
  | cons use rest ih =>
    unfold attributeFields
    simp only
    split
    · exact (xmlName_fails _).bind fun written => (ih _).bind fun _ => .pure
    · exact StepFailsOnly.pure.bind fun written => (ih _).bind fun _ => .pure

theorem elementFields_fails (s : Setting) (taken : FreshNames) (elements : List Wsdl.Element) :
    StepFailsOnly (fun e => (∃ element ∈ elements, RefusesElement s.defs element e) ∨
      RefusesName s.defs e) (elementFields s taken elements) := by
  induction elements generalizing taken with
  | nil => exact .pure
  | cons element rest ih =>
    have hrest (taken : FreshNames) :
        StepFailsOnly (fun e => (∃ other ∈ element :: rest, RefusesElement s.defs other e) ∨
          RefusesName s.defs e) (elementFields s taken rest) :=
      (ih taken).mono fun e => Or.imp_left fun ⟨other, hother, he⟩ =>
        ⟨other, List.mem_cons_of_mem element hother, he⟩
    have hfirst := (kindOfLocal_fails s element).mono fun e =>
      Or.imp_left fun he => (⟨element, List.mem_cons_self, he⟩ :
        ∃ other ∈ element :: rest, RefusesElement s.defs other e)
    refine hfirst.bind fun kind => ?_
    simp only
    split
    · exact (xmlName_fails _).bind fun written => (hrest _).bind fun _ => .pure
    · exact StepFailsOnly.pure.bind fun written => (hrest _).bind fun _ => .pure

/-- A field is that of an element: it has the name and the kind of value of the element, and the
element is one that a record can have. -/
structure IsElementField (s : Setting) (element : Wsdl.Element) (field : Field) : Prop where
  known : element.isReference = true → (s.defs.elements.get? element.name).isSome = true
  plain : element.isReference = false → element.definition = none
  source : ∃ bench kind bench₁ written bench₂, kindOfLocal s element bench = .ok (kind, bench₁) ∧
    (if element.isQualified then xmlName element.name else pure element.name.base :
      Writing String) bench₁ = .ok (written, bench₂) ∧
    field.source = .element written kind (wrapperOf element)

theorem known_of_kindOfLocal {element : Wsdl.Element} {kind : ValueKind}
    (h : kindOfLocal s element bench = .ok (kind, bench')) :
    (element.isReference = true → (s.defs.elements.get? element.name).isSome = true) ∧
      (element.isReference = false → element.definition = none) := by
  unfold kindOfLocal globalElement at h
  split at h
  · next href =>
    refine ⟨fun _ => ?_, fun hplain => absurd href (by simp [hplain])⟩
    cases hget : s.defs.elements.get? element.name with
    | none =>
      rw [hget] at h
      cases h
    | some declared => rfl
  · next href =>
    refine ⟨fun hreference => absurd hreference href, fun _ => ?_⟩
    split at h
    · cases h
    · next hinline => simpa using hinline

theorem elementFields_elements {taken : FreshNames} {elements : List Wsdl.Element}
    {fields : List Field} (h : elementFields s taken elements bench = .ok (fields, bench')) :
    List.Forall₂ (IsElementField s) elements fields := by
  induction elements generalizing taken fields bench with
  | nil =>
    cases h
    exact .nil
  | cons element rest ih =>
    obtain ⟨kind, bench₁, hkind, hrest⟩ := writing_bind_eq_ok.1 h
    obtain ⟨written, bench₂, hwritten, hrest⟩ := writing_ite_bind_eq_ok.1 hrest
    obtain ⟨others, bench₃, hothers, heq⟩ := writing_bind_eq_ok.1 hrest
    cases heq
    obtain ⟨hknown, hplain⟩ := known_of_kindOfLocal hkind
    exact .cons ⟨hknown, hplain, _, _, _, _, _, hkind, hwritten, rfl⟩ (ih hothers)

/-- The fields of a record that hold elements. -/
def elementsAmong (fields : List Field) : List Field :=
  fields.filter (·.kind?.isSome)

theorem elementsAmong_eq_nil {fields : List Field} (h : fields.filterMap Field.kind? = []) :
    elementsAmong fields = [] := by
  rw [List.filterMap_eq_nil_iff] at h
  exact List.filter_eq_nil_iff.2 fun field hfield => by simp [h field hfield]

theorem elementsAmong_fieldsOf {record : Record} {fields : List Field}
    (h : fieldsOf s record bench = .ok (fields, bench')) : ∃ elements,
      elementsOf s.defs record = .ok elements ∧
      List.Forall₂ (IsElementField s) elements (elementsAmong fields) := by
  obtain ⟨uses, attributes, taken, elements, found, bench₁, -, hattributes, helements, hfound,
    rfl⟩ := fieldsOf_steps h
  have hfields := elementFields_elements hfound
  have hattributes' := elementsAmong_eq_nil (attributeFields_grows hattributes).2
  have hvalue := elementsAmong_eq_nil (valueFields_kinds s taken record.type)
  have hall : elementsAmong found = found := by
    refine List.filter_eq_self.2 fun field hfield => ?_
    obtain ⟨element, -, hisField⟩ := exists_mem_of_forall₂ hfields hfield
    obtain ⟨_, _, _, _, _, -, -, hsource⟩ := hisField.source
    rw [Field.kind?, hsource]
    rfl
  refine ⟨elements, helements, ?_⟩
  rw [elementsAmong, List.filter_append, List.filter_append]
  rw [elementsAmong] at hattributes' hvalue hall
  rwa [hattributes', hvalue, hall]

/-- Why the fields of a record cannot be found out. -/
theorem fieldsOf_fails (s : Setting) (record : Record) :
    StepFailsOnly (fun e => attributesOf s.defs record.type = .error e ∨
      elementsOf s.defs record = .error e ∨
      (∃ elements, elementsOf s.defs record = .ok elements ∧
        ∃ element ∈ elements, RefusesElement s.defs element e) ∨ RefusesName s.defs e)
      (fieldsOf s record) := by
  unfold fieldsOf
  refine StepFailsOnly.bind (.lift fun e he => .inl he) fun uses => ?_
  refine (attributeFields_fails s _ _).bind fun (attributes, taken) => ?_
  simp only
  cases elementsOf s.defs record with
  | error e => exact fun _ => .error (.inr (.inl rfl))
  | ok elements =>
    have hfails := (elementFields_fails s (valueFields s taken record.type).2 elements).mono
      fun e => Or.imp_left fun he => (⟨elements, rfl, he⟩ : ∃ found, Except.ok elements =
        (.ok found : Except Error _) ∧ ∃ element ∈ found, RefusesElement s.defs element e)
    exact (hfails.mono fun e he => .inr (.inr he)).bind fun _ => .pure

/-! ## Particles -/

/-- The element nodes in the content of the type at a spot, as far as they are gathered: in document
order, and when the content is formed as schemas allow it, all of them, with nothing unsupported
beside them. -/
structure IsParticles (spot : Spot) (particles : List Spot) : Prop where
  within : ∀ particle ∈ particles, particle.reader = spot.reader ∧ spot.Contains particle.node ∧
    spot.reader.document.nameOf particle.node = "element"
  order : particles.Pairwise fun a b => spot.reader.document.Precedes a.node b.node
  all : spot.Formed → ∀ n, spot.Contains n → spot.reader.document.nameOf n = "element" →
    ⟨spot.reader, n⟩ ∈ particles
  supported : spot.Formed → ∀ n, spot.Contains n → ¬ IsUnsupported spot.reader.document n

/-- An element is read from a particle. -/
def Spot.ReadsElement (particle : Spot) (element : Wsdl.Element) : Prop :=
  particle.reader.ReadsElement particle.node element

theorem isParticles_of_gathers {spot : Spot} {owner : QName} {own : List Wsdl.Element}
    (h : Gathers spot.reader owner spot.Contains spot.Formed (.ok own)) :
    ∃ particles, IsParticles spot particles ∧ List.Forall₂ Spot.ReadsElement particles own := by
  obtain ⟨nodes, hnodes, hall⟩ := h
  refine ⟨nodes.map (⟨spot.reader, ·⟩), ⟨?_, ?_, ?_, ?_⟩, List.forall₂_map_left_iff.2 hnodes.read⟩
  · intro particle hparticle
    obtain ⟨n, hn, rfl⟩ := List.mem_map.1 hparticle
    exact ⟨rfl, hnodes.within n hn⟩
  · exact List.pairwise_map.2 hnodes.order
  · intro hformed n hn htag
    exact List.mem_map_of_mem ((hall hformed).all n hn htag)
  · exact fun hformed => (hall hformed).supported

theorem particles_of_gathersAlong {owner : QName} {spots : List Spot}
    {elements : List Wsdl.Element} (h : GathersAlong owner spots (.ok elements)) :
    ∃ particles, List.Forall₂ IsParticles spots particles ∧
      List.Forall₂ Spot.ReadsElement particles.flatten elements := by
  obtain ⟨lists, hlists, rfl⟩ := h
  induction hlists with
  | nil => exact ⟨[], .nil, .nil⟩
  | cons hfirst _ ih =>
    obtain ⟨own, hown, hread⟩ := isParticles_of_gathers hfirst
    obtain ⟨others, hothers, hreads⟩ := ih
    exact ⟨own :: others, .cons hown hothers, List.rel_append hread hreads⟩

/-! ## Records -/

/-- The fields of a record cannot be found out for a reason that is in its attributes or at one of
the levels of its type. -/
inductive Refused (defs : Definitions) (record : Record) (spots : List Spot) : Error → Prop where
  | attributes {e : Error} : attributesOf defs record.type = .error e → RefusesReference defs e →
      Refused defs record spots e
  | content {spot : Spot} {n : Node} {e : Error} : spot ∈ spots → spot.Contains n →
      Refuses spot.reader record.name n e → Refused defs record spots e
  | element {spot particle : Spot} {element : Wsdl.Element} {e : Error} : spot ∈ spots →
      particle.reader = spot.reader → spot.Contains particle.node →
      spot.reader.document.nameOf particle.node = "element" → particle.ReadsElement element →
      RefusesElement defs element e → Refused defs record spots e

section Records

variable {sources : List SourceDocument} {record : Record} {spots : List Spot}

/-- The fields of elements are those of the element nodes at the levels of a type. -/
theorem fieldsOf_particles (hsources : ∀ source ∈ sources, source.document.Produced)
    (hspots : Followed sources s.defs (levelLimit + 1) record spots) {fields : List Field}
    (h : fieldsOf s record bench = .ok (fields, bench')) :
    ∃ particles, List.Forall₂ IsParticles spots particles ∧
      List.Forall₂ (fun particle field => ∃ element, particle.ReadsElement element ∧
        IsElementField s element field) particles.flatten (elementsAmong fields) := by
  obtain ⟨elements, helements, hfields⟩ := elementsAmong_fieldsOf h
  have hgathers := elementsWithin_gathers hsources record.name hspots
  rw [← elementsOf, helements] at hgathers
  obtain ⟨particles, hparticles, hread⟩ := particles_of_gathersAlong hgathers
  exact ⟨particles, hparticles, forall₂_comp hread hfields⟩

theorem refused_of_error (hsources : ∀ source ∈ sources, source.document.Produced)
    (hspots : Followed sources s.defs (levelLimit + 1) record spots) {e : Error}
    (h : fieldsOf s record bench = .error e) :
    Refused s.defs record spots e ∨ RefusesName s.defs e := by
  have hgathers := elementsWithin_gathers hsources record.name hspots
  rw [← elementsOf] at hgathers
  rcases fieldsOf_fails s record bench e h with
    hattributes | helements | ⟨elements, helements, element, helement, hrefuses⟩ | hrefuses
  · exact .inl (.attributes hattributes (addAttributes_fails _ _ _ _ e hattributes))
  · rw [helements] at hgathers
    obtain ⟨spot, hspot, n, hn, hrefuses⟩ := hgathers
    exact .inl (.content hspot hn hrefuses)
  · rw [helements] at hgathers
    obtain ⟨particles, hparticles, hread⟩ := particles_of_gathersAlong hgathers
    obtain ⟨particle, hparticle, hreads⟩ := exists_mem_of_forall₂ hread helement
    obtain ⟨own, hown, hmem⟩ := List.mem_flatten.1 hparticle
    obtain ⟨spot, hspot, hisParticles⟩ := exists_mem_of_forall₂ hparticles hown
    obtain ⟨hreader, hcontains, htag⟩ := hisParticles.within particle hmem
    exact .inl (.element hspot hreader hcontains htag hreads hrefuses)
  · exact .inr hrefuses

/-- The levels of a type are places in the documents. The fields of its record cannot be found out
for a reason that is there or for the name of a declared record, or there is one for each element
node of the contents, outermost base first and in document order. None is passed over where schemas
allow the content. -/
theorem fieldsOf_elements (hsources : ∀ source ∈ sources, source.document.Produced)
    (hdefs : Definitions.ofSources sources = .ok s.defs) (hrecord : Declared s.defs record)
    (hlevels : LevelsWithin s.defs (levelLimit + 1) record.type) :
    (∃ spots, Levels sources s.defs record spots) ∧
      ∀ spots, Levels sources s.defs record spots → ∀ bench, match fieldsOf s record bench with
        | .ok (fields, _) => ∃ particles, List.Forall₂ IsParticles spots particles ∧
            List.Forall₂ (fun particle field => ∃ element, particle.ReadsElement element ∧
              IsElementField s element field) particles.flatten (elementsAmong fields)
        | .error e => Refused s.defs record spots e ∨ RefusesName s.defs e := by
  refine ⟨exists_levels (Wsdl.ofSources_lists hsources hdefs) hrecord hlevels,
    fun spots hspots bench => ?_⟩
  cases h : fieldsOf s record bench with
  | ok result => exact fieldsOf_particles hsources (hspots.followed hlevels) h
  | error e => exact refused_of_error hsources (hspots.followed hlevels) h

end Records

/-! ## A type that extends another one -/

/-- A schema with a type that extends another one. -/
def extendedSchema : String :=
  "<xs:schema xmlns:xs=\"http://www.w3.org/2001/XMLSchema\" targetNamespace=\"urn:t\">" ++
    "<xs:complexType name=\"Base\"><xs:sequence><xs:element name=\"first\"/>" ++
    "<xs:sequence><xs:element name=\"second\"/></xs:sequence></xs:sequence></xs:complexType>" ++
    "<xs:complexType name=\"Entry\"><xs:complexContent>" ++
    "<xs:extension xmlns:t=\"urn:t\" base=\"t:Base\"><xs:all><xs:element name=\"third\"/>" ++
    "</xs:all></xs:extension></xs:complexContent></xs:complexType></xs:schema>"

/-- The fields of a type that extends another one begin with those of the other one. -/
theorem fieldsOf_elements_of_extended :
    ∃ d defs type fields bench spots particles,
      Document.read .lenient extendedSchema = .ok d ∧
      Definitions.ofSources [.alone d] = .ok defs ∧
      Levels [.alone d] defs ⟨⟨some "urn:t", "Entry"⟩, false, type⟩ spots ∧
      (∀ spot ∈ spots, spot.Formed) ∧
      fieldsOf ⟨defs, false⟩ ⟨⟨some "urn:t", "Entry"⟩, false, type⟩ (.start defs []) =
        .ok (fields, bench) ∧
      (elementsAmong fields).map (·.ident.text) = ["first", "second", "third"] ∧
      List.Forall₂ IsParticles spots particles ∧
      List.Forall₂ (fun particle field => ∃ element, particle.ReadsElement element ∧
        IsElementField ⟨defs, false⟩ element field) particles.flatten (elementsAmong fields) := by
  have hread : ∃ d defs type, Document.read .lenient extendedSchema = .ok d ∧
      (∀ source ∈ [SourceDocument.alone d], source.document.Produced) ∧
      Definitions.ofSources [.alone d] = .ok defs ∧
      defs.complexType? ⟨some "urn:t", "Entry"⟩ = some type ∧
      ∃ result ∈ (fieldsOf ⟨defs, false⟩ ⟨⟨some "urn:t", "Entry"⟩, false, type⟩
        (.start defs [])).toOption,
        AllFormed d ∧ (elementsAmong result.1).map (·.ident.text) = ["first", "second", "third"] ∧
        (extended? defs type).any fun base => (extended? defs base.type).isNone := by
    apply exists_described
    · unfold extendedSchema
      iterate 5 rewrite [Text.toList_append_ofList]
      rw [String.toList_ofList]
    · decide +kernel
  obtain ⟨d, defs, type, hd, hsources, hdefs, htype, ⟨fields, bench⟩, hfields, hformed, hnames,
    hlevels⟩ := hread
  rw [Option.mem_def, toOption_eq_some] at hfields
  have hwithin : LevelsWithin defs (levelLimit + 1) type := by
    intro base hbase base' hbase'
    rw [Option.mem_def] at hbase hbase'
    simp [hbase, hbase'] at hlevels
  obtain ⟨⟨spots, hspots⟩, hall⟩ :=
    fieldsOf_elements (s := ⟨defs, false⟩) hsources hdefs (.named htype) hwithin
  have hfound := hall spots hspots (.start defs [])
  rw [hfields] at hfound
  obtain ⟨particles, hparticles, hfound⟩ := hfound
  exact ⟨d, defs, type, fields, bench, spots, particles, hd, hdefs, hspots,
    hformed.of_levels hspots, hfields, hnames, hparticles, hfound⟩

/-! ## A reference to an element that stands in for another one -/

/-- A schema with an element that stands in for another one, and a type that refers to it. -/
def substitutedSchema : String :=
  "<xs:schema xmlns:xs=\"http://www.w3.org/2001/XMLSchema\" targetNamespace=\"urn:t\">" ++
    "<xs:element name=\"item\"/>" ++
    "<xs:element xmlns:t=\"urn:t\" name=\"part\" substitutionGroup=\"t:item\"/>" ++
    "<xs:complexType name=\"Entry\"><xs:sequence>" ++
    "<xs:element xmlns:t=\"urn:t\" ref=\"t:part\"/></xs:sequence></xs:complexType></xs:schema>"

/-- A type whose content schemas allow has no record because it refers to an element, although that
is declared in its schema. -/
theorem not_field_of_reference :
    ∃ d defs type spots, Document.read .lenient substitutedSchema = .ok d ∧
      Definitions.ofSources [.alone d] = .ok defs ∧
      Levels [.alone d] defs ⟨⟨some "urn:t", "Entry"⟩, false, type⟩ spots ∧
      (∀ spot ∈ spots, spot.Formed) ∧
      (∃ schema ∈ (SourceDocument.alone d).schemas,
        ∃ n ∈ d.childrenNamed schema Soap.schemaNamespace "element",
          d.attributeValue schema "targetNamespace" = some "urn:t" ∧
            d.attributeValue n "name" = some "part") ∧
      fieldsOf ⟨defs, false⟩ ⟨⟨some "urn:t", "Entry"⟩, false, type⟩ (.start defs []) =
        .error (.unknownElement "{urn:t}part") := by
  have hread : ∃ d defs type, Document.read .lenient substitutedSchema = .ok d ∧
      (∀ source ∈ [SourceDocument.alone d], source.document.Produced) ∧
      Definitions.ofSources [.alone d] = .ok defs ∧
      defs.complexType? ⟨some "urn:t", "Entry"⟩ = some type ∧
        AllFormed d ∧ (extended? defs type).isNone ∧
        (∃ schema ∈ (SourceDocument.alone d).schemas,
          ∃ n ∈ d.childrenNamed schema Soap.schemaNamespace "element",
            d.attributeValue schema "targetNamespace" = some "urn:t" ∧
              d.attributeValue n "name" = some "part") ∧
        (match fieldsOf ⟨defs, false⟩ ⟨⟨some "urn:t", "Entry"⟩, false, type⟩ (.start defs []) with
          | .ok _ => none
          | .error e => some e) = some (.unknownElement "{urn:t}part") := by
    apply exists_described
    · unfold substitutedSchema
      iterate 4 rewrite [Text.toList_append_ofList]
      rw [String.toList_ofList]
    · decide +kernel
  obtain ⟨d, defs, type, hd, hsources, hdefs, htype, hformed, hnone, hdeclared, hfields⟩ := hread
  have hwithin : LevelsWithin defs 1 type := by
    intro base hbase
    rw [Option.mem_def] at hbase
    simp [hbase] at hnone
  obtain ⟨spots, hspots⟩ :=
    exists_levels (Wsdl.ofSources_lists hsources hdefs) (.named htype) hwithin
  refine ⟨d, defs, type, spots, hd, hdefs, hspots, hformed.of_levels hspots, hdeclared, ?_⟩
  split at hfields
  · cases hfields
  · next e he => rw [he, Option.some.inj hfields]

end SoapKit.Client
