import SoapKit.Proofs.Client.Elements

/-!
# Occurrence of elements

**Theorem (`fieldsOf_wrappers`).** Whether the field of an element holds many values, may hold one
or holds one is a matter of what its node says: many where the element may occur more than once,
none or one where it may be left out or is nillable.

**Where the field is right.** Numbers of 2³² and more are taken for 1, so that a field is right only
where the greatest number is smaller, or there is none. An element is taken for nillable when its
own node says so with the word `true`. A reference is taken for nillable by its own node too, and
not by the declaration that it refers to (`Decides`); this makes a difference only to an element
that occurs exactly once (`not_many_of_large`).
-/

namespace SoapKit.Wsdl

/-! ## Numbers of occurrences -/

/-- A decimal number of any size, which may have a plus sign. -/
def number? (text : String) : Option Nat :=
  Decimal.digits? Decimal.digit? 10 (match text.toList with
    | '+' :: rest => rest
    | _ => text.toList)

/-- The least number that is too large for a number of occurrences. -/
def countLimit : Nat := Nat.pow 2 32

theorem count?_eq (text : String) :
    Reader.count? text = (number? text).bind fun n => if n < countLimit then some n else none := by
  unfold Reader.count? Decimal.unsigned? number?
  have hle : ∀ n, n ≤ Nat.pow 2 32 - 1 ↔ n < countLimit :=
    fun n => Nat.le_sub_one_iff_lt (by decide)
  simp only [hle]
  rfl

namespace Occurs

/-- The greatest number of occurrences is one that can be held. -/
def Fits (occurs : Occurs) : Prop :=
  ∀ n, occurs.max = .bounded n → n < countLimit

/-- What is held of numbers of occurrences: those that are too large are taken for 1. -/
def held (occurs : Occurs) : Occurs where
  min := if occurs.min < countLimit then occurs.min else 1
  max := match occurs.max with
    | .bounded n => .bounded (if n < countLimit then n else 1)
    | .unbounded => .unbounded

theorem isOptional_held (occurs : Occurs) : occurs.held.isOptional = occurs.isOptional := by
  have hlimit : 0 < countLimit := by decide
  unfold isOptional held
  by_cases h : occurs.min < countLimit
  · rw [if_pos h]
  · have hmin : occurs.min ≠ 0 := by omega
    simp [h, hmin]

theorem isRepeated_held (occurs : Occurs) :
    occurs.held.isRepeated = true ↔ occurs.Fits ∧ occurs.isRepeated = true := by
  unfold isRepeated held Fits
  cases occurs.max with
  | unbounded => simp
  | bounded n =>
    by_cases h : n < countLimit
    · simp [h]
    · simp [h]

/-- An element that may occur too often to be held may occur more than once. -/
theorem isRepeated_of_not_fits {occurs : Occurs} (h : ¬ occurs.Fits) :
    occurs.isRepeated = true := by
  have hlimit : 1 < countLimit := by decide
  unfold Fits at h
  push Not at h
  obtain ⟨n, hmax, hn⟩ := h
  rw [isRepeated, hmax]
  simpa using Nat.lt_of_lt_of_le hlimit hn

end Occurs

end SoapKit.Wsdl

namespace SoapKit.Client

open Wsdl (QName Definitions MaxOccurs Occurs Reader Site SourceDocument number?)
open Xml (Document Node)

/-! ## What nodes say -/

namespace Spot

/-- How often the node of an element says that it occurs at least; once, where it says nothing. -/
def min? (particle : Spot) : Option Nat :=
  match particle.reader.value? particle.node "minOccurs" with
  | some text => number? (Text.trimmed text)
  | none => some 1

/-- How often the node of an element says that it occurs at most; once, where it says nothing. -/
def max? (particle : Spot) : Option MaxOccurs :=
  match (particle.reader.value? particle.node "maxOccurs").map Text.trimmed with
  | some "unbounded" => some .unbounded
  | some text => (number? text).map .bounded
  | none => some (.bounded 1)

/-- The node of an element says how often it occurs. -/
structure Says (particle : Spot) (occurs : Occurs) : Prop where
  min : particle.min? = some occurs.min
  max : particle.max? = some occurs.max

/-- A node says that an element is nillable, in one of the two ways of saying so. -/
def isNillable (place : Spot) : Bool :=
  match place.reader.value? place.node "nillable" with
  | some text => ["true", "1"].contains (Text.trimmed text)
  | none => false

/-- A node says that an element is nillable, with the one word that is understood. -/
def isMarked (particle : Spot) : Bool :=
  particle.reader.value? particle.node "nillable" == some "true"

end Spot

theorem count?_getD {text : String} {n : Nat} (h : number? text = some n) :
    (Reader.count? text).getD 1 = if n < Wsdl.countLimit then n else 1 := by
  rw [Wsdl.count?_eq, h, Option.bind_some]
  split <;> rfl

/-- What is read of how often an element occurs is what is held of what its node says. -/
theorem Spot.Says.occurs_eq {particle : Spot} {occurs : Occurs} (h : particle.Says occurs) :
    particle.reader.occurs particle.node = occurs.held := by
  obtain ⟨hmin, hmax⟩ := h
  rw [Spot.min?] at hmin
  rw [Spot.max?] at hmax
  rw [Reader.occurs, Occurs.held]
  congr 1
  · cases hvalue : particle.reader.value? particle.node "minOccurs" with
    | none =>
      rw [hvalue] at hmin
      rw [← Option.some.inj hmin]
      rfl
    | some text =>
      rw [hvalue] at hmin
      rw [Option.map_some, Option.bind_some]
      exact count?_getD hmin
  · cases hvalue : (particle.reader.value? particle.node "maxOccurs").map Text.trimmed with
    | none =>
      rw [hvalue] at hmax
      rw [← Option.some.inj hmax]
      rfl
    | some text =>
      rw [hvalue] at hmax
      by_cases htext : text = "unbounded"
      · subst htext
        rw [← Option.some.inj hmax]
        rfl
      · simp only at hmax ⊢
        obtain ⟨n, hn, hmax⟩ := Option.map_eq_some_iff.1 hmax
        have hbounded : ((Reader.count? text).map MaxOccurs.bounded).getD (.bounded 1) =
            .bounded ((Reader.count? text).getD 1) := by
          cases Reader.count? text <;> rfl
        simp only [← hmax]
        rw [← count?_getD hn, ← hbounded]
        rfl

/-! ## Wrappers -/

/-- How many values the field of an element has to hold. -/
def wrapperFor (occurs : Occurs) (isNillable : Bool) : Wrapper :=
  if occurs.isRepeated then .many
  else if occurs.isOptional || isNillable then .option
  else .one

/-- What is held of numbers of occurrences gives the same field unless they are too large, or it is
nillability that decides. -/
theorem wrapperFor_held (occurs : Occurs) (marked nillable : Bool) :
    wrapperFor occurs.held marked = wrapperFor occurs nillable ↔
      occurs.Fits ∧ (occurs.isRepeated = true ∨ occurs.isOptional = true ∨ marked = nillable) := by
  unfold wrapperFor
  rw [occurs.isOptional_held]
  by_cases hfits : occurs.Fits
  · have hrepeated : occurs.held.isRepeated = occurs.isRepeated := by
      rw [Bool.eq_iff_iff, occurs.isRepeated_held]
      simp [hfits]
    rw [hrepeated]
    cases occurs.isRepeated <;> cases occurs.isOptional <;> cases marked <;> cases nillable <;>
      simp [hfits]
  · have hheld : occurs.held.isRepeated = false := by
      rw [← Bool.not_eq_true, occurs.isRepeated_held]
      exact fun h => hfits h.1
    rw [hheld, Wsdl.Occurs.isRepeated_of_not_fits hfits]
    cases occurs.isOptional <;> cases marked <;> simp [hfits]

/-- The place that says whether an element is nillable: the node of the element, or where it is a
reference, the node that declares the element that it refers to. -/
inductive Decides (sources : List SourceDocument) (defs : Definitions) (particle : Spot)
    (element : Wsdl.Element) : Spot → Prop where
  | own : element.isReference = false → Decides sources defs particle element particle
  | declared {source : SourceDocument} {site : Site} {declared : Wsdl.Element} :
      element.isReference = true → defs.elements.get? element.name = some declared →
      source ∈ sources → site ∈ source.sites .element →
      Site.Declares .element site (element.name, declared) →
      Decides sources defs particle element ⟨site.reader, site.node⟩

/-- The field of an element holds as many values as its node says, as far as that is understood. It
is right where the numbers can be held and the place that decides says what the node does, as long
as this makes a difference. -/
structure IsWrapped (sources : List SourceDocument) (defs : Definitions) (particle : Spot)
    (element : Wsdl.Element) (wrapper : Wrapper) : Prop where
  read : particle.ReadsElement element
  held : ∀ occurs, particle.Says occurs → wrapper = wrapperFor occurs.held particle.isMarked
  decided : ∃ place, Decides sources defs particle element place
  right : ∀ occurs place, particle.Says occurs → Decides sources defs particle element place →
    (wrapper = wrapperFor occurs place.isNillable ↔
      occurs.Fits ∧ (occurs.isRepeated = true ∨ occurs.isOptional = true ∨
        particle.isMarked = place.isNillable))

variable {sources : List SourceDocument} {s : Setting} {record : Record}

theorem isWrapped_of_field (hlists : s.defs.Lists sources) {particle : Spot}
    {element : Wsdl.Element} {field : Field} (hread : particle.ReadsElement element)
    (hfield : IsElementField s element field) :
    IsWrapped sources s.defs particle element (wrapperOf element) := by
  have hheld : ∀ occurs, particle.Says occurs →
      wrapperOf element = wrapperFor occurs.held particle.isMarked := by
    intro occurs hsays
    have hat := hread.elementAt
    rw [← hsays.occurs_eq, ← hat.occurs, Spot.isMarked, ← hat.isNillable]
    rfl
  refine ⟨hread, hheld, ?_, fun occurs place hsays _ => ?_⟩
  · cases hreference : element.isReference with
    | false => exact ⟨particle, .own hreference⟩
    | true =>
      obtain ⟨declared, hget⟩ := Option.isSome_iff_exists.1 (hfield.known hreference)
      obtain ⟨source, hsource, site, hsite, hdeclares⟩ := hlists.exists_site (s := .element) hget
      exact ⟨_, .declared hreference hget hsource hsite hdeclares⟩
  · rw [hheld occurs hsays]
    exact wrapperFor_held occurs particle.isMarked place.isNillable

/-- Every field for an element of a record has the wrapper that the node of the element asks for, as
far as that is understood. -/
theorem fieldsOf_wrappers (hsources : ∀ source ∈ sources, source.document.Produced)
    (hdefs : Definitions.ofSources sources = .ok s.defs) (hrecord : Declared s.defs record) :
    (∃ spots, Followed sources s.defs (levelLimit + 1) record spots) ∧
      ∀ spots, Followed sources s.defs (levelLimit + 1) record spots →
      ∀ bench fields bench', fieldsOf s record bench = .ok (fields, bench') →
        ∃ particles, List.Forall₂ IsParticles spots particles ∧
          List.Forall₂ (fun particle field => ∃ element written kind wrapper,
            field.source = .element written kind wrapper ∧
              IsWrapped sources s.defs particle element wrapper)
            particles.flatten (elementsAmong fields) := by
  have hlists := Wsdl.ofSources_lists hsources hdefs
  refine ⟨exists_followed hlists _ hrecord, fun spots hspots bench fields bench' h => ?_⟩
  obtain ⟨particles, hparticles, hfields⟩ := fieldsOf_particles hsources hspots h
  refine ⟨particles, hparticles, hfields.imp fun particle field ⟨element, hread, hfield⟩ => ?_⟩
  obtain ⟨_, kind, _, written, _, -, -, hsource⟩ := hfield.source
  exact ⟨element, written, kind, _, hsource, isWrapped_of_field hlists hread hfield⟩

/-! ## A type with elements of all kinds -/

/-- How many values the field of an element has, if it is one. -/
def Field.wrapper? (field : Field) : Option Wrapper :=
  match field.source with
  | .element _ _ wrapper => some wrapper
  | _ => none

/-- A schema with a type whose elements occur differently often. -/
def occurringSchema : String :=
  "<xs:schema xmlns:xs=\"http://www.w3.org/2001/XMLSchema\" targetNamespace=\"urn:t\">" ++
    "<xs:element name=\"item\"/><xs:complexType name=\"Entry\"><xs:sequence>" ++
    "<xs:element name=\"first\" minOccurs=\"1\" maxOccurs=\"01\"/>" ++
    "<xs:element name=\"second\" minOccurs=\"0\"/><xs:element name=\"third\" nillable=\"true\"/>" ++
    "<xs:element xmlns:t=\"urn:t\" ref=\"t:item\" minOccurs=\"0\" maxOccurs=\" unbounded \"/>" ++
    "</xs:sequence></xs:complexType></xs:schema>"

/-- Fields hold one value, may hold one, or hold many. -/
theorem fieldsOf_wrappers_of_occurring :
    ∃ d defs type fields bench spots particles,
      Document.read .lenient occurringSchema = .ok d ∧
      Definitions.ofSources [.alone d] = .ok defs ∧
      Followed [.alone d] defs (levelLimit + 1) ⟨⟨some "urn:t", "Entry"⟩, false, type⟩ spots ∧
      fieldsOf ⟨defs, false⟩ ⟨⟨some "urn:t", "Entry"⟩, false, type⟩ (.start defs []) =
        .ok (fields, bench) ∧
      (elementsAmong fields).map Field.wrapper? =
        [some .one, some .option, some .option, some .many] ∧
      List.Forall₂ IsParticles spots particles ∧
      List.Forall₂ (fun particle field => ∃ element written kind wrapper,
        field.source = .element written kind wrapper ∧
          IsWrapped [.alone d] defs particle element wrapper)
        particles.flatten (elementsAmong fields) := by
  have hread : ∃ d defs type, Document.read .lenient occurringSchema = .ok d ∧
      (∀ source ∈ [SourceDocument.alone d], source.document.Produced) ∧
      Definitions.ofSources [.alone d] = .ok defs ∧
      defs.complexType? ⟨some "urn:t", "Entry"⟩ = some type ∧
      ∃ result ∈ (fieldsOf ⟨defs, false⟩ ⟨⟨some "urn:t", "Entry"⟩, false, type⟩
        (.start defs [])).toOption,
        (elementsAmong result.1).map Field.wrapper? =
          [some .one, some .option, some .option, some .many] := by
    apply exists_described
    · unfold occurringSchema
      iterate 5 rewrite [Text.toList_append_ofList]
      rw [String.toList_ofList]
    · decide +kernel
  obtain ⟨d, defs, type, hd, hsources, hdefs, htype, ⟨fields, bench⟩, hfields, hwrappers⟩ := hread
  rw [Option.mem_def, toOption_eq_some] at hfields
  obtain ⟨⟨spots, hspots⟩, hall⟩ :=
    fieldsOf_wrappers (s := ⟨defs, false⟩) hsources hdefs (.named htype)
  obtain ⟨particles, hparticles, hwrapped⟩ := hall spots hspots _ fields bench hfields
  exact ⟨d, defs, type, fields, bench, spots, particles, hd, hdefs, hspots, hfields, hwrappers,
    hparticles, hwrapped⟩

/-! ## A type with an element that occurs too often -/

/-- A schema with a type that has an element with a large number of occurrences, and refers to an
element that is nillable. -/
def largeSchema : String :=
  "<xs:schema xmlns:xs=\"http://www.w3.org/2001/XMLSchema\" targetNamespace=\"urn:t\">" ++
    "<xs:element name=\"item\" nillable=\"true\"/><xs:complexType name=\"Entry\">" ++
    "<xs:sequence><xs:element name=\"many\" maxOccurs=\"4294967296\"/>" ++
    "<xs:element xmlns:t=\"urn:t\" ref=\"t:item\"/></xs:sequence></xs:complexType></xs:schema>"

/-- The nodes in the first sequence of the type of a name, as far as they are children of it. -/
def sequenceOf (d : Document) (name : String) : List Node :=
  (SourceDocument.alone d).schemas.flatMap fun schema =>
    ((d.childrenNamed schema Soap.schemaNamespace "complexType").filter fun n =>
      d.attributeValue n "name" == some name).flatMap fun n =>
        (d.childrenNamed n Soap.schemaNamespace "sequence").flatMap fun g =>
          d.childrenNamed g Soap.schemaNamespace "element"

/-- An element that may occur 2³² times gets a field for one value, and so does a reference to an
element that is nillable. -/
theorem not_many_of_large :
    ∃ d defs type fields bench, Document.read .lenient largeSchema = .ok d ∧
      Definitions.ofSources [.alone d] = .ok defs ∧
      defs.complexType? ⟨some "urn:t", "Entry"⟩ = some type ∧
      fieldsOf ⟨defs, false⟩ ⟨⟨some "urn:t", "Entry"⟩, false, type⟩ (.start defs []) =
        .ok (fields, bench) ∧
      (sequenceOf d "Entry").flatMap (fun n =>
          [d.attributeValue n "maxOccurs", d.attributeValue n "ref"]) =
        [some "4294967296", none, none, some "t:item"] ∧
      (defs.elements.get? ⟨some "urn:t", "item"⟩).any (·.isNillable) = true ∧
      fields.map Field.wrapper? = [some .one, some .one] := by
  have hread : ∃ d defs type, Document.read .lenient largeSchema = .ok d ∧
      (∀ source ∈ [SourceDocument.alone d], source.document.Produced) ∧
      Definitions.ofSources [.alone d] = .ok defs ∧
      defs.complexType? ⟨some "urn:t", "Entry"⟩ = some type ∧
      ∃ result ∈ (fieldsOf ⟨defs, false⟩ ⟨⟨some "urn:t", "Entry"⟩, false, type⟩
        (.start defs [])).toOption,
        (sequenceOf d "Entry").flatMap (fun n =>
            [d.attributeValue n "maxOccurs", d.attributeValue n "ref"]) =
          [some "4294967296", none, none, some "t:item"] ∧
        (defs.elements.get? ⟨some "urn:t", "item"⟩).any (·.isNillable) = true ∧
        result.1.map Field.wrapper? = [some .one, some .one] := by
    apply exists_described
    · unfold largeSchema
      iterate 3 rewrite [Text.toList_append_ofList]
      rw [String.toList_ofList]
    · decide +kernel
  obtain ⟨d, defs, type, hd, -, hdefs, htype, ⟨fields, bench⟩, hfields, hnodes, hnillable,
    hwrappers⟩ := hread
  rw [Option.mem_def, toOption_eq_some] at hfields
  exact ⟨d, defs, type, fields, bench, hd, hdefs, htype, hfields, hnodes, hnillable, hwrappers⟩

end SoapKit.Client
