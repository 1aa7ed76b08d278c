import SoapKit.Proofs.Client.Records

/-!
# Values and their functions

A value is written by the function of the record that its part or element means, with one exception.
Layouts are looked up by name, and an element whose type stands in place can have the name of a
complex type. Whichever of the two is met first then has the layout, and values of the other one are
written by it as well (`kinds_of_namesakes`). Names that are not shared in this way belong to one
record only, so that there the layout is the record's own (`kinds_of_unshared`).
-/

namespace SoapKit.Client

open Wsdl (QName Definitions)

variable {s : Setting} {defs : Definitions} {bench : Workbench}

/-- What has a value that is written: a part of a message, or an element in a type. -/
inductive Valued where
  | part (part : Wsdl.Part)
  | element (element : Wsdl.Element)

/-- The record of a value. -/
def Valued.record? (defs : Definitions) : Valued → Option Record
  | .part p => recordOfPart defs p
  | .element e => recordOfLocal defs e

/-- How a value is written. -/
def Valued.kind (s : Setting) : Valued → Writing ValueKind
  | .part p => Prod.snd <$> kindOfPart s p
  | .element e => kindOfLocal s e

theorem classifies_kind (s : Setting) (value : Valued) :
    Classifies (value.record? s.defs) (value.kind s) := by
  cases value with
  | part part =>
    intro bench kind bench' h
    obtain ⟨⟨written, _⟩, hpart, rfl⟩ := writing_map_eq_ok.1 h
    exact kindOfPart_eq_ok hpart
  | element element => exact classifies_kindOfLocal s element

theorem Valued.declared {value : Valued} {record : Record}
    (h : value.record? defs = some record) : Declared defs record := by
  cases value with
  | part part => exact declared_of_part h
  | element element => exact declared_of_local h

/-- A name is that of a complex type, and that of an element with a complex type in place. -/
def IsShared (defs : Definitions) (name : QName) : Prop :=
  (∃ type, Declared defs ⟨name, false, type⟩) ∧ ∃ type, Declared defs ⟨name, true, type⟩

theorem Declared.eq_of_name {record record' : Record} (h : Declared defs record)
    (h' : Declared defs record') (hname : record.name = record'.name)
    (hshared : ¬IsShared defs record.name) : record = record' := by
  cases h with
  | named htype =>
    cases h' with
    | named htype' =>
      cases hname
      rw [htype] at htype'
      cases htype'
      rfl
    | inline helement hnone hdefinition =>
      cases hname
      exact absurd ⟨⟨_, .named htype⟩, _, .inline helement hnone hdefinition⟩ hshared
  | inline helement hnone hdefinition =>
    cases h' with
    | named htype =>
      cases hname
      exact absurd ⟨⟨_, .named htype⟩, _, .inline helement hnone hdefinition⟩ hshared
    | inline helement' hnone' hdefinition' =>
      cases hname
      rw [helement] at helement'
      cases helement'
      rw [hdefinition] at hdefinition'
      cases hdefinition'
      rfl

/-- However many values are met and in whatever order, each one whose record has a name that is not
shared is written by the function of that very record. -/
theorem kinds_of_unshared {reserved : List String} {values : List Valued} {kinds : List ValueKind}
    (h : values.mapM (Valued.kind s) (.start s.defs reserved) = .ok (kinds, bench)) :
    List.Forall₂ (fun value kind => ∀ record, value.record? s.defs = some record →
      ¬IsShared s.defs record.name → ∃ (index : Nat) (layout : Layout),
        bench.layouts[index]? = some layout ∧ kind = layout.kind index ∧ layout.record = record)
      values kinds := by
  obtain ⟨hgrows, hkinds⟩ := mapM_grows (fun value => (value.record? s.defs).toList)
    (fun layouts value kind => IsKindOf layouts (value.record? s.defs) kind)
    IsKindOf.mono (fun {value _ _ _} hkind => classifies_kind s value hkind) h
  have hdeclared : ∀ record ∈ bench.records, Declared s.defs record := by
    intro record hrecord
    rw [hgrows.records] at hrecord
    obtain ⟨value, -, hvalue⟩ := List.mem_flatMap.1
      ((mem_of_mem_foldl_note hrecord).resolve_left List.not_mem_nil)
    exact Valued.declared (Option.mem_toList.1 hvalue)
  refine hkinds.imp fun value kind hkind record hrecord hshared => ?_
  rw [hrecord] at hkind
  cases hkind with
  | @complex _ index layout hlayout hname =>
    have hlayout' : layout.record ∈ bench.records :=
      List.mem_map_of_mem (List.mem_of_getElem? hlayout)
    have hsame : record = layout.record :=
      (Valued.declared hrecord).eq_of_name (hdeclared _ hlayout') hname.symm hshared
    exact ⟨index, layout, hlayout, rfl, hsame.symm⟩

/-! ## Namesakes -/

/-- A name in the namespace of the example. -/
def namesakeName (base : String) : QName :=
  ⟨some "urn:namesakes", base⟩

/-- A complex type without attributes, with a single element. -/
def namesakeType (field : String) : Wsdl.ComplexType :=
  { name := none, derivation := none, attributes := [], attributeGroups := []
    content := some (.all [{
      name := namesakeName field, isReference := false, isQualified := false, typeName := none
      definition := none, default := none, fixed := none, occurs := .once, isNillable := false
      substitutionGroup := none }]) }

/-- An element with a type in place and a complex type, both called `Foo`, and another complex type.
-/
def namesakes : Definitions :=
  { Definitions.empty with
    elements := ⟨[(namesakeName "Foo",
      { name := namesakeName "Foo", isReference := false, isQualified := true, typeName := none
        definition := some (.complex (namesakeType "first")), default := none, fixed := none
        occurs := .once, isNillable := false, substitutionGroup := none })]⟩
    types := ⟨[(namesakeName "Foo", .complex (namesakeType "second")),
      (namesakeName "Bar", .complex (namesakeType "third"))]⟩ }

/-- Parts of each of the three, the two namesakes first. -/
def namesakeParts : List Valued :=
  [.part ⟨"a", .element (namesakeName "Foo")⟩, .part ⟨"b", .type (namesakeName "Foo")⟩,
    .part ⟨"c", .type (namesakeName "Bar")⟩]

theorem not_isShared_bar : ¬IsShared namesakes (namesakeName "Bar") := by
  rintro ⟨-, type, htype⟩
  cases htype with
  | inline helement _ _ => cases helement

/-- A value is written by the function of its own record although others have namesakes. -/
theorem kinds_of_unshared_of_bar :
    ∃ (kinds : List ValueKind) (bench : Workbench) (index : Nat) (layout : Layout),
      namesakeParts.mapM (Valued.kind ⟨namesakes, false⟩) (.start namesakes []) =
        .ok (kinds, bench) ∧
      bench.layouts[index]? = some layout ∧ kinds[2]? = some (layout.kind index) ∧
      layout.record = ⟨namesakeName "Bar", false, namesakeType "third"⟩ := by
  have hkinds := kinds_of_unshared (show namesakeParts.mapM (Valued.kind ⟨namesakes, false⟩)
    (.start namesakes []) = .ok (_, _) from rfl)
  rcases hkinds with _ | ⟨-, _ | ⟨-, _ | ⟨hbar, -⟩⟩⟩
  obtain ⟨index, layout, hlayout, hkind, hrecord⟩ := hbar _ rfl not_isShared_bar
  exact ⟨_, _, index, layout, rfl, hlayout, congrArg some hkind, hrecord⟩

/-- The element's type is met first and has the layout of both; a value of the complex type of its
name is written as if it were of the element's type. -/
theorem kinds_of_namesakes :
    ∃ (kinds : List ValueKind) (bench : Workbench) (layout : Layout),
      namesakeParts.mapM (Valued.kind ⟨namesakes, false⟩) (.start namesakes []) =
        .ok (kinds, bench) ∧
      bench.layouts[0]? = some layout ∧ kinds[1]? = some (layout.kind 0) ∧
      layout.record = ⟨namesakeName "Foo", true, namesakeType "first"⟩ ∧
      recordOfPart namesakes ⟨"b", .type (namesakeName "Foo")⟩ =
        some ⟨namesakeName "Foo", false, namesakeType "second"⟩ :=
  ⟨_, _, _, rfl, rfl, rfl, rfl, rfl⟩

end SoapKit.Client
