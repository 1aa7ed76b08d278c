import SoapKit.Proofs.Client.Attributes
import SoapKit.Proofs.Client.Elements
import SoapKit.Proofs.Client.Walks

/-!
# Chains of definitions

**Theorem (`fieldsOf_complete`).** Where no definition leads back to itself, the walks from which
the fields of a record are found have an end. As long as they are within the limit, the fields are
those of the walks to the end: no attribute and no element is left out, and every simple value has
the type that it is made of.

**Beyond the limit.** A walk that is longer is cut although it has an end, without an error: what
stands beyond the limit is left out (`not_complete_of_long`).
-/

namespace SoapKit.Client

open Relation (TransGen)
open Naming (FreshNames)
open Wsdl (QName Definitions Attribute ComplexType)

variable {s : Setting} {defs : Definitions} {bench bench' : Workbench}

/-! ## Kinds of values -/

/-- The type of the values of an element that is not written by the function of a record. -/
inductive HasElementType (defs : Definitions) (element : Wsdl.Element) : ValueType → Prop where
  | reference {declared : Wsdl.Element} {type : ValueType} : element.isReference = true →
      defs.elements.get? element.name = some declared →
      HasDeclaredType defs declared.typeName declared.definition type →
      HasElementType defs element type
  | plain {type : ValueType} : element.isReference = false →
      HasDeclaredType defs element.typeName none type → HasElementType defs element type

/-- The name at which the walk to the type of an element starts. -/
def startOf? (defs : Definitions) (element : Wsdl.Element) : Option QName :=
  if element.isReference then
    (defs.elements.get? element.name).bind fun declared =>
      firstName? declared.typeName declared.definition
  else element.typeName

/-- The simple values that a step finds are of a type with some property. -/
def FindsSimple (P : ValueType → Prop) (w : Writing ValueKind) : Prop :=
  ∀ ⦃bench type announced bench'⦄, w bench = .ok (.simple type announced, bench') → P type

theorem findsSimple_register {P : ValueType → Prop} (record : Record) :
    FindsSimple P (register record) := by
  intro bench type announced bench' h
  unfold register at h
  split at h
  · split at h <;> cases h
  · simp only at h
    split at h <;> cases h

theorem findsSimple_kindOfType (s : Setting) (name : QName) :
    FindsSimple (· = valueType s.defs name) (kindOfType s name) := by
  intro bench type announced bench' h
  obtain ⟨found, bench₁, hfound, h⟩ := writing_bind_eq_ok.1 h
  cases found with
  | none =>
    cases h
    rfl
  | some kind =>
    cases h
    unfold registerType at hfound
    cases hcomplex : s.defs.complexType? name with
    | none =>
      simp only [hcomplex] at hfound
      cases hfound
    | some complex =>
      simp only [hcomplex] at hfound
      obtain ⟨kind', hkind, heq⟩ := writing_map_eq_ok.1 hfound
      cases heq
      exact findsSimple_register (P := (· = valueType s.defs name)) _ hkind

theorem findsSimple_kindOfGlobal (s : Setting) (element : Wsdl.Element) :
    FindsSimple (· = declaredType s.defs element.typeName element.definition)
      (kindOfGlobal s element) := by
  unfold kindOfGlobal
  cases element.typeName with
  | some name => exact findsSimple_kindOfType s name
  | none =>
    cases element.definition with
    | none =>
      intro bench type announced bench' h
      cases h
      rfl
    | some definition =>
      cases definition with
      | complex type => exact findsSimple_register _
      | simple | list | union =>
        intro bench type announced bench' h
        cases h
        rfl

/-- Where the walk to the type of an element is not cut, the simple values of the element have this
type. -/
theorem findsSimple_kindOfLocal {element : Wsdl.Element}
    (hfits : ∀ name ∈ startOf? s.defs element, NameFits s.defs levelLimit name) :
    FindsSimple (HasElementType s.defs element) (kindOfLocal s element) := by
  unfold kindOfLocal
  unfold startOf? at hfits
  split
  · next href =>
    rw [if_pos href] at hfits
    intro bench type announced bench' h
    obtain ⟨declared, bench₁, hdeclared, h⟩ := writing_bind_eq_ok.1 h
    unfold globalElement at hdeclared
    cases hget : s.defs.elements.get? element.name with
    | none =>
      simp only [hget] at hdeclared
      cases hdeclared
    | some found =>
      simp only [hget] at hdeclared
      cases hdeclared
      rw [hget, Option.bind_some] at hfits
      have htype := findsSimple_kindOfGlobal s _ h
      exact .reference href hget (htype ▸ hasDeclaredType_declaredType hfits)
  · next href =>
    rw [if_neg href] at hfits
    split
    · intro bench type announced bench' h
      cases h
    · split
      · next name hname =>
        intro bench type announced bench' h
        have htype := findsSimple_kindOfType s name h
        refine .plain (by simpa using href) ?_
        rw [hname, htype]
        exact .named (hasType_typeWithin (hfits name hname))
      · next hname =>
        intro bench type announced bench' h
        cases h
        refine .plain (by simpa using href) ?_
        rw [hname]
        exact .any

/-! ## Complete records -/

/-- A field is that of an attribute, with the type that its values are made of. -/
def IsFieldOfAttribute (defs : Definitions) (a : Attribute) (field : Field) : Prop :=
  ∃ declared written type, declaration? defs a = some declared ∧
    HasDeclaredType defs declared.typeName declared.definition type ∧
    field.source = .attribute written type (a.usage == .required)

/-- The field of the text of a type, if its content is simple. -/
inductive HasValueField (defs : Definitions) (type : ComplexType) : List Field → Prop where
  | text {derivation : Wsdl.Derivation} {ident : Rust.Ident} {value : ValueType} :
      type.derivation = some derivation → derivation.content = .simple →
      HasType defs derivation.base value → HasValueField defs type [⟨ident, .value value⟩]
  | none : (∀ derivation ∈ type.derivation, derivation.content ≠ .simple) →
      HasValueField defs type []

/-- A field is that of an element, with the type that its values are made of when they are
simple. -/
def IsFieldOfElement (defs : Definitions) (element : Wsdl.Element) (field : Field) : Prop :=
  ∃ written kind, field.source = .element written kind (wrapperOf element) ∧
    ∀ type announced, kind = .simple type announced → HasElementType defs element type

/-- The fields of a record are those that are found on walks to the end: for the attributes that are
in effect after all that is declared, for the text, and for all elements. -/
structure IsComplete (defs : Definitions) (record : Record) (fields : List Field) : Prop where
  parts : ∃ declarations attributes value elements found,
    (∃ levels, TypeDeclares defs levels record.type declarations) ∧
    AllElements defs record.name record.type elements ∧
    fields = attributes ++ value ++ found ∧
    List.Forall₂ (IsFieldOfAttribute defs) (inEffect (·.name) declarations) attributes ∧
    HasValueField defs record.type value ∧
    List.Forall₂ (IsFieldOfElement defs) elements found

/-- The fields of a record lead to a name: the walk to the type of an attribute in effect, of the
text or of an element starts there. -/
inductive LeadsTo (defs : Definitions) (record : Record) : QName → Prop where
  | «attribute» {levels : Nat} {declarations : List Attribute} {a declared : Attribute}
      {name : QName} : TypeDeclares defs levels record.type declarations →
      a ∈ inEffect (·.name) declarations → declaration? defs a = some declared →
      name ∈ firstName? declared.typeName declared.definition → LeadsTo defs record name
  | text {derivation : Wsdl.Derivation} : record.type.derivation = some derivation →
      derivation.content = .simple → LeadsTo defs record derivation.base
  | element {elements : List Wsdl.Element} {element : Wsdl.Element} {name : QName} :
      AllElements defs record.name record.type elements → element ∈ elements →
      name ∈ startOf? defs element → LeadsTo defs record name

/-- The walks from which the fields of a record are found go no further than a number of levels. -/
structure Fits (defs : Definitions) (levels : Nat) (record : Record) : Prop where
  names : ∀ name, LeadsTo defs record name → NameFits defs levels name
  type : TypeFits defs (levels + 1) record.type

section Fits

variable {record : Record}

theorem Fits.hasValueField (hfits : Fits s.defs levelLimit record) (taken : FreshNames) :
    HasValueField s.defs record.type (valueFields s taken record.type).1 := by
  unfold valueFields
  split
  · next derivation hderivation =>
    obtain ⟨hderivation, hsimple⟩ := Option.filter_eq_some_iff.1 hderivation
    have hcontent : derivation.content = .simple := by simpa using hsimple
    exact .text hderivation hcontent
      (hasType_typeWithin (hfits.names _ (.text hderivation hcontent)))
  · next hnone =>
    refine .none fun derivation hderivation hsimple => ?_
    rw [Option.mem_def.1 hderivation] at hnone
    simp [Option.filter, hsimple] at hnone

theorem Fits.isFieldOfAttribute (hfits : Fits defs levelLimit record) {levels : Nat}
    {declarations : List Attribute} (hdeclares : TypeDeclares defs levels record.type declarations)
    {a : Attribute} (ha : a ∈ inEffect (·.name) declarations)
    {entry : QName × Attribute × Attribute} {field : Field} (huse : IsUse defs a entry)
    (hfield : IsAttributeField defs entry field) : IsFieldOfAttribute defs a field := by
  obtain ⟨written, hsource⟩ := hfield
  have htype := hasDeclaredType_declaredType fun name hname =>
    hfits.names name (.attribute hdeclares ha huse.declaration hname)
  exact ⟨_, written, _, huse.declaration, htype, huse.use ▸ hsource⟩

theorem Fits.isFieldOfElement (hfits : Fits s.defs levelLimit record)
    {elements : List Wsdl.Element} (hall : AllElements s.defs record.name record.type elements)
    {element : Wsdl.Element} (helement : element ∈ elements) {field : Field}
    (hfield : IsElementField s element field) : IsFieldOfElement s.defs element field := by
  obtain ⟨bench, kind, bench₁, written, bench₂, hkind, -, hsource⟩ := hfield.source
  refine ⟨written, kind, hsource, fun type announced hsimple => ?_⟩
  rw [hsimple] at hkind
  exact findsSimple_kindOfLocal
    (fun name hname => hfits.names name (.element hall helement hname)) hkind

/-- Fields that are found on walks within the limit are complete. -/
theorem Fits.isComplete (hfits : Fits s.defs levelLimit record) {fields : List Field}
    (h : fieldsOf s record bench = .ok (fields, bench')) : IsComplete s.defs record fields := by
  obtain ⟨uses, attributes, taken, elements, found, bench₁, huses, hattributes, helements, hfound,
    rfl⟩ := fieldsOf_steps h
  obtain ⟨declarations, hdeclares⟩ := exists_typeDeclares hfits.type huses
  have hentries := attributesOf_eq_ok hdeclares huses
  have hall := allElements_of_levelsWithin hfits.type.levelsWithin helements
  refine ⟨declarations, attributes, _, elements, found, ⟨_, hdeclares⟩, hall, rfl, ?_,
    hfits.hasValueField taken, ?_⟩
  · have hpairs := forall₂_comp hentries (attributeFields_uses hattributes)
    exact ((List.forall₂_and_left _ _).2 ⟨fun _ ha => ha, hpairs⟩).imp
      fun a field ⟨ha, entry, huse, hfield⟩ => hfits.isFieldOfAttribute hdeclares ha huse hfield
  · have hfields := elementFields_elements hfound
    exact ((List.forall₂_and_left _ _).2 ⟨fun _ helement => helement, hfields⟩).imp
      fun element field ⟨helement, hfield⟩ => hfits.isFieldOfElement hall helement hfield

end Fits

/-- Where no definition leads back to itself, walks have an end, and fields that are found on walks
within the limit are those of the walks to the end. The limit is asked for only of the walks that
the record needs. -/
theorem fieldsOf_complete (hacyclic : Acyclic s.defs) (record : Record) :
    (∃ levels, (∀ name, NameFits s.defs levels name) ∧
        TypeFits s.defs (levels + 1) record.type) ∧
      (Fits s.defs levelLimit record → ∀ bench fields bench',
        fieldsOf s record bench = .ok (fields, bench') → IsComplete s.defs record fields) := by
  refine ⟨?_, fun hfits bench fields bench' h => hfits.isComplete h⟩
  obtain ⟨k, hk⟩ := hacyclic.exists_nameFits
  obtain ⟨k', hk'⟩ := hacyclic.exists_typeFits record.type
  exact ⟨max k k', fun name => (hk name).mono (le_max_left k k'), hk'.mono (by omega)⟩

/-! ## A chain of types -/

/-- A name of a length. -/
def linkName (length : Nat) : QName :=
  linkedName (String.ofList (List.replicate length 't'))

/-- An element that holds a number. -/
def firstElement : Wsdl.Element :=
  { name := linkedName "first", isReference := false, isQualified := false
    typeName := some ⟨some Soap.schemaNamespace, "int"⟩, definition := none, default := none
    fixed := none, occurs := .once, isNillable := false, substitutionGroup := none }

/-- A type in a chain. The first one has an attribute and an element, and the others extend those
before them. -/
def link : Nat → ComplexType
  | 0 =>
    { name := some (linkName 1), derivation := none
      attributes := [used .optional (linkedName "kind")], attributeGroups := []
      content := some (.sequence [.element firstElement]) }
  | i + 1 =>
    { name := some (linkName (i + 2)), derivation := some ⟨linkName (i + 1), .complex, .extension⟩
      attributes := [], attributeGroups := [], content := none }

/-- The types of a chain, the longest first. -/
def links : Nat → List (QName × Wsdl.TypeDefinition)
  | 0 => []
  | i + 1 => (linkName (i + 1), .complex (link i)) :: links i

/-- A description of a chain of types. -/
def chained (length : Nat) : Definitions :=
  { Definitions.empty with types := ⟨links length⟩ }

/-- The record of the last type of a chain. -/
def lastOf (i : Nat) : Record :=
  ⟨linkName (i + 1), false, link i⟩

theorem length_linkName (i : Nat) : (linkName i).base.length = i := by
  simp [linkName, linkedName]

theorem linkName_inj {i j : Nat} (h : linkName i = linkName j) : i = j := by
  rw [← length_linkName i, h, length_linkName]

theorem complexType?_chained {length i : Nat} (hi : i < length) :
    (chained length).complexType? (linkName (i + 1)) = some (link i) := by
  have hget : (chained length).types.get? (linkName (i + 1)) = some (.complex (link i)) := by
    induction length with
    | zero => omega
    | succ length ih =>
      show (List.find? _ (_ :: links length)).map _ = _
      by_cases heq : i = length
      · subst heq
        rw [List.find?_cons_of_pos (by simp)]
        rfl
      · have hne : linkName (length + 1) ≠ linkName (i + 1) :=
          fun h => heq (by have := linkName_inj h; omega)
        rw [List.find?_cons_of_neg (by simpa using hne)]
        exact ih (by omega)
  rw [Definitions.complexType?, hget]

theorem eq_link_of_get? {length : Nat} {name : QName} {definition : Wsdl.TypeDefinition}
    (h : (chained length).types.get? name = some definition) :
    ∃ i, name = linkName (i + 1) ∧ definition = .complex (link i) := by
  induction length with
  | zero => cases h
  | succ length ih =>
    by_cases heq : linkName (length + 1) = name
    · refine ⟨length, heq.symm, ?_⟩
      have hfound : (List.find? (·.1 == name) (links (length + 1))).map (·.2) = some definition := h
      rw [links, List.find?_cons_of_pos (by simpa using heq)] at hfound
      exact (Option.some.inj hfound).symm
    · refine ih ?_
      have hfound : (List.find? (·.1 == name) (links (length + 1))).map (·.2) = some definition := h
      rwa [links, List.find?_cons_of_neg (by simpa using heq)] at hfound

theorem not_madeOf_chained {length : Nat} {name next : QName} :
    ¬ MadeOf (chained length) name next := by
  rintro ⟨-, definition, hget, hsource⟩
  obtain ⟨i, -, rfl⟩ := eq_link_of_get? hget
  cases hsource

/-- A relation along which a rank gets smaller leads from nowhere back to itself. -/
theorem not_transGen_of_rank {α : Type} {R : α → α → Prop} (rank : α → Nat)
    (h : ∀ a b, R a b → rank b < rank a) (a : α) : ¬ TransGen R a a := by
  have hless : ∀ b, TransGen R a b → rank b < rank a := by
    intro b hb
    induction hb with
    | single hab => exact h a _ hab
    | tail _ hbc ih => exact (h _ _ hbc).trans ih
  exact fun ha => Nat.lt_irrefl _ (hless a ha)

theorem acyclic_chained (length : Nat) : Acyclic (chained length) where
  types name := not_transGen_of_rank (fun _ => 0) (fun _ _ h => absurd h not_madeOf_chained) name
  bases name := by
    refine not_transGen_of_rank (·.base.length) (fun name next h => ?_) name
    obtain ⟨type, htype, derivation, hderivation, rfl⟩ := h
    rw [Definitions.complexType?] at htype
    split at htype
    · next hget =>
      cases htype
      obtain ⟨i, rfl, heq⟩ := eq_link_of_get? hget
      cases heq
      cases i with
      | zero => cases hderivation
      | succ i =>
        cases hderivation
        rw [length_linkName, length_linkName]
        exact Nat.lt_succ_self _
    · cases htype
  groups name := by
    refine not_transGen_of_rank (fun _ => 0) (fun name next h => ?_) name
    obtain ⟨declared, hget, -⟩ := h
    cases hget

theorem typeFits_link {length i : Nat} (hi : i < length) :
    TypeFits (chained length) (i + 1) (link i) := by
  induction i with
  | zero => exact ⟨fun base hbase => (by cases hbase), fun group hgroup => (by cases hgroup)⟩
  | succ i ih =>
    refine ⟨fun base hbase => ?_, fun group hgroup => (by cases hgroup)⟩
    have hlink : base? (chained length) (link (i + 1)) = some (link i) :=
      complexType?_chained (by omega)
    cases hlink.symm.trans hbase
    exact ih (by omega)

/-- A chain that is just within the limit is followed to its end. -/
theorem fieldsOf_complete_of_chained : ∃ fields bench,
    fieldsOf ⟨chained 33, false⟩ (lastOf 32) (.start (chained 33) []) = .ok (fields, bench) ∧
      fields.map (·.ident.text) = ["kind", "first"] ∧
      IsComplete (chained 33) (lastOf 32) fields := by
  have hfields : ∃ result ∈ (fieldsOf ⟨chained 33, false⟩ (lastOf 32)
      (.start (chained 33) [])).toOption, result.1.map (·.ident.text) = ["kind", "first"] := by
    decide +kernel
  obtain ⟨⟨fields, bench⟩, hfields, hnames⟩ := hfields
  rw [Option.mem_def, toOption_eq_some] at hfields
  have hfits : Fits (chained 33) levelLimit (lastOf 32) :=
    ⟨fun name _ => NameFits.mono (k := 0) (fun next => not_madeOf_chained) (Nat.zero_le _),
      typeFits_link (by decide)⟩
  exact ⟨fields, bench, hfields, hnames,
    (fieldsOf_complete (s := ⟨chained 33, false⟩) (acyclic_chained 33) (lastOf 32)).2 hfits _ _ _
      hfields⟩

/-! ## A chain that is too long -/

theorem AllElements.unique {owner : QName} {type : ComplexType} {xs ys : List Wsdl.Element}
    (h : AllElements defs owner type xs) (h' : AllElements defs owner type ys) : xs = ys := by
  induction h generalizing ys with
  | first hnone hown =>
    cases h' with
    | first _ hown' => exact Except.ok.inj (hown.symm.trans hown')
    | next hbase _ _ => cases hnone.symm.trans hbase
  | next hbase _ hown ih =>
    cases h' with
    | first hnone _ => cases hnone.symm.trans hbase
    | next hbase' hinherited' hown' =>
      cases hbase.symm.trans hbase'
      rw [ih hinherited', Except.ok.inj (hown.symm.trans hown')]

theorem allElements_link {length i : Nat} (owner : QName) (hi : i < length) :
    AllElements (chained length) owner (link i) [firstElement] := by
  induction i with
  | zero => exact .first rfl rfl
  | succ i ih =>
    have hbase : extended? (chained length) (link (i + 1)) = some (lastOf i) := by
      show (((chained length).complexType? (linkName (i + 1))).map _) = _
      rw [complexType?_chained (by omega)]
      rfl
    have hown : ownElements owner (link (i + 1)) = .ok [] := rfl
    exact .next hbase (ih (by omega)) hown

/-- The fields of a type that is one type further from the first one are found without an error, but
neither the attribute nor the element of that one is among them. -/
theorem not_complete_of_long : Acyclic (chained 34) ∧ ∃ fields bench,
    fieldsOf ⟨chained 34, false⟩ (lastOf 33) (.start (chained 34) []) = .ok (fields, bench) ∧
      fields.map (·.ident.text) = [] ∧
      AllElements (chained 34) (linkName 34) (link 33) [firstElement] ∧
      ¬ IsComplete (chained 34) (lastOf 33) fields := by
  have hfields : ∃ result ∈ (fieldsOf ⟨chained 34, false⟩ (lastOf 33)
      (.start (chained 34) [])).toOption, result.1.map (·.ident.text) = [] := by
    decide +kernel
  obtain ⟨⟨fields, bench⟩, hfields, hnames⟩ := hfields
  rw [Option.mem_def, toOption_eq_some] at hfields
  have hall := allElements_link (linkName 34) (show 33 < 34 by decide)
  refine ⟨acyclic_chained 34, fields, bench, hfields, hnames, hall, fun hcomplete => ?_⟩
  obtain ⟨declarations, attributes, value, elements, found, -, helements, heq, -, -, hfound⟩ :=
    hcomplete.parts
  obtain rfl := helements.unique hall
  have hnone : fields = [] := List.map_eq_nil_iff.1 hnames
  rw [hnone] at heq
  obtain rfl : found = [] := (List.append_eq_nil_iff.1 heq.symm).2
  cases hfound

end SoapKit.Client
