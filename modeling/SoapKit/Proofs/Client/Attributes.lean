import SoapKit.Proofs.Client.AttributeUses
import SoapKit.Proofs.Client.Keeping
import SoapKit.Proofs.Client.Spelling

/-!
# Attributes of records

**Theorem (`compile_attributes`).** A record has a field for each attribute that is in effect after
all that its type declares: first what it inherits, then what its groups declare, then its own
attributes. Its function writes each of these, in this order, and no others.

**What is in effect.** A declaration takes the place of an earlier one of the same name, and a
prohibited one takes it away (`inEffect`). Declarations are told apart by their names, which have
the namespace of the schema that they stand in. In documents an attribute has a namespace only if it
is written as a reference (`wireName`), so the names of declarations tell attributes apart as
documents do only where no two namespaces have attributes of the same local name, and no reference
is to an attribute that is named like a local one (`ToldApart`).

Elsewhere an attribute can be written twice, or not at all (`not_nodup_attributes`).
-/

namespace SoapKit.Rust

/-- Whether an expression is the element that a function writes to. -/
def Expr.isContext : Expr → Bool
  | .path name => name == .single "context"
  | _ => false

/-- The attribute that a statement gives the value of a field, as it is written, with the name of
the field. -/
def Stmt.attribute? : Stmt → Option (String × String)
  | .drop (.method receiver "set_attr" [.text written, .ref (.field _ field)]) =>
    if receiver.isContext then some (written, field) else none
  | _ => none

/-- The attributes that a function gives the values of fields, as they are written, with the names
of the fields. -/
def Function.attributes (function : Function) : List (String × String) :=
  function.body.filterMap Stmt.attribute?

/-- What is written for attributes by a function among other items. -/
def Item.attributes : Item → List (String × String)
  | .function writer => writer.attributes
  | _ => []

/-- The fields of a record. -/
def Item.fields : Item → List FieldDecl
  | .record _ _ _ _ fields => fields
  | _ => []

end SoapKit.Rust

namespace SoapKit.Client

open Naming
open Rust (Ident Expr Stmt Function Item FieldDecl Ty)
open Wsdl (QName Definitions Attribute AttributeGroup ComplexType)

variable {defs : Definitions} {s : Setting} {bench bench' : Workbench}

/-! ## What is written for names -/

theorem append_cons_inj {α : Type} {mark : α} {lead lead' rest rest' : List α}
    (h : lead ++ mark :: rest = lead' ++ mark :: rest') (hrest : mark ∉ rest)
    (hrest' : mark ∉ rest') : lead = lead' ∧ rest = rest' := by
  rcases List.append_eq_append_iff.1 h with ⟨more, rfl, hmore⟩ | ⟨more, rfl, hmore⟩
  all_goals
    cases more with
    | nil => simpa [eq_comm] using hmore
    | cons first others =>
      obtain ⟨rfl, rfl⟩ := List.cons_eq_cons.1 hmore
      simp at hrest hrest'

theorem spelled_name_iff {table : List (String × String)} {name : QName} {text : String} :
    Spelled table (.name name) text ↔
      (∃ qualifier uri, (qualifier, uri) ∈ table ∧ name.uri = some uri ∧
        text.toList = qualifier.toList ++ ':' :: name.base.toList) ∨
      (name.uri = none ∧ text.toList = name.base.toList) := by
  constructor
  · intro h
    cases h with
    | qualified hmem => exact .inl ⟨_, _, hmem, rfl, by simp⟩
    | plain => exact .inr ⟨rfl, rfl⟩
  · obtain ⟨uri, base⟩ := name
    rintro (⟨qualifier, uri, hmem, rfl, htext⟩ | ⟨rfl, htext⟩)
    · have hwritten : text = qualifier ++ ":" ++ base := String.toList_inj.1 (by simp [htext])
      exact hwritten ▸ .qualified hmem
    · exact String.toList_inj.1 htext ▸ .plain base

/-- Names without a colon in their local parts are told apart by what is written for them. -/
theorem eq_of_spelled {table : List (String × String)} {name name' : QName} {text : String}
    (htable : Unambiguous table) (h : Spelled table (.name name) text)
    (h' : Spelled table (.name name') text) (hbase : ':' ∉ name.base.toList)
    (hbase' : ':' ∉ name'.base.toList) : name = name' := by
  obtain ⟨uri, base⟩ := name
  obtain ⟨uri', base'⟩ := name'
  rcases spelled_name_iff.1 h with ⟨qualifier, uri, hmem, rfl, htext⟩ | ⟨rfl, htext⟩
  · rcases spelled_name_iff.1 h' with ⟨qualifier', uri', hmem', rfl, htext'⟩ | ⟨rfl, htext'⟩
    · obtain ⟨hqualifier, hbases⟩ := append_cons_inj (htext.symm.trans htext') hbase hbase'
      obtain rfl : qualifier = qualifier' := String.toList_inj.1 hqualifier
      have hpair : (qualifier, uri) = (qualifier, uri') :=
        List.inj_on_of_nodup_map htable.qualifiers hmem hmem' rfl
      cases hpair
      exact congrArg _ (String.toList_inj.1 hbases)
    · exact absurd (by rw [← htext', htext]; simp) hbase'
  · rcases spelled_name_iff.1 h' with ⟨qualifier', uri', hmem', rfl, htext'⟩ | ⟨rfl, htext'⟩
    · exact absurd (by rw [← htext, htext']; simp) hbase
    · exact congrArg _ (String.toList_inj.1 (htext.symm.trans htext'))

/-! ## Fields -/

/-- A field is that of an attribute. -/
def IsAttributeField (defs : Definitions) (use : QName × Attribute × Attribute) (field : Field) :
    Prop :=
  ∃ written, field.source = .attribute written
    (declaredType defs use.2.2.typeName use.2.2.definition) (use.2.1.usage == .required)

/-- The attribute that a field is for as it is written, with the name of the field. -/
def Field.attribute? (field : Field) : Option (String × String) :=
  match field.source with
  | .attribute written _ _ => some (written, field.ident.text)
  | _ => none

theorem attributeFields_uses {taken taken' : FreshNames}
    {uses : List (QName × Attribute × Attribute)} {fields : List Field}
    (h : attributeFields s taken uses bench = .ok ((fields, taken'), bench')) :
    List.Forall₂ (IsAttributeField s.defs) uses fields := by
  induction uses generalizing taken fields bench with
  | nil =>
    cases h
    exact .nil
  | cons use rest ih =>
    obtain ⟨name, use, declared⟩ := use
    obtain ⟨written, bench₁, -, hrest⟩ := writing_ite_bind_eq_ok.1 h
    obtain ⟨⟨others, _⟩, bench₂, hothers, heq⟩ := writing_bind_eq_ok.1 hrest
    cases heq
    exact .cons ⟨written, rfl⟩ (ih hothers)

theorem elementFields_attributes {taken : FreshNames} {elements : List Wsdl.Element}
    {fields : List Field} (h : elementFields s taken elements bench = .ok (fields, bench')) :
    fields.filterMap Field.attribute? = [] := by
  induction elements generalizing taken fields bench with
  | nil =>
    cases h
    rfl
  | cons element rest ih =>
    obtain ⟨kind, bench₁, -, hrest⟩ := writing_bind_eq_ok.1 h
    obtain ⟨written, bench₂, -, hrest⟩ := writing_ite_bind_eq_ok.1 hrest
    obtain ⟨others, bench₃, hothers, heq⟩ := writing_bind_eq_ok.1 hrest
    cases heq
    exact (List.filterMap_cons_none rfl).trans (ih hothers)

theorem valueFields_attributes (s : Setting) (taken : FreshNames) (type : ComplexType) :
    (valueFields s taken type).1.filterMap Field.attribute? = [] := by
  unfold valueFields
  split <;> rfl

/-- The fields of a record begin with those of its attributes. -/
def BeginsWithAttributes (defs : Definitions) (record : Record) (fields : List Field) : Prop :=
  ∃ uses attributes others, attributesOf defs record.type = .ok uses ∧
    fields = attributes ++ others ∧
    List.Forall₂ (IsAttributeField defs) uses.entries attributes ∧
    others.filterMap Field.attribute? = []

theorem fieldsOf_attributes {record : Record} {fields : List Field}
    (h : fieldsOf s record bench = .ok (fields, bench')) :
    BeginsWithAttributes s.defs record fields := by
  obtain ⟨uses, attributes, taken, elements, found, bench₁, huses, hattributes, -, hfound, rfl⟩ :=
    fieldsOf_steps h
  refine ⟨uses, attributes, _, huses, List.append_assoc .., attributeFields_uses hattributes, ?_⟩
  rw [List.filterMap_append, valueFields_attributes, elementFields_attributes hfound]
  rfl

/-! ## Functions -/

theorem announce_attribute? {target announced : Expr} {name : QName}
    (h : announce target name bench = .ok (announced, bench')) :
    Stmt.attribute? (.drop announced) = none := by
  obtain ⟨key, bench₁, -, hrest⟩ := writing_bind_eq_ok.1 h
  obtain ⟨value, bench₂, -, hrest⟩ := writing_bind_eq_ok.1 hrest
  cases huri : name.uri with
  | none =>
    simp only [huri] at hrest
    cases hrest
    rfl
  | some uri =>
    simp only [huri] at hrest
    obtain ⟨qualifier, bench₃, -, heq⟩ := writing_bind_eq_ok.1 hrest
    cases heq
    rfl

theorem writeValue_attribute? {parent written : String} {kind : ValueKind} {value : Expr}
    {statement : Stmt}
    (h : writeValue s parent written kind value bench = .ok (statement, bench')) :
    Stmt.attribute? statement = none := by
  unfold writeValue at h
  cases kind with
  | complex index record writer =>
    cases h
    rfl
  | simple type announced =>
    cases announced with
    | none =>
      cases h
      rfl
    | some name =>
      cases hencoded : s.isEncoded with
      | false =>
        simp only [hencoded] at h
        cases h
        rfl
      | true =>
        simp only [hencoded] at h
        obtain ⟨target, bench₁, -, heq⟩ := writing_bind_eq_ok.1 h
        cases heq
        rfl

theorem writeTypeName_attributes {record : Record} {statements : List Stmt}
    (h : writeTypeName s record bench = .ok (statements, bench')) :
    statements.filterMap Stmt.attribute? = [] := by
  unfold writeTypeName at h
  split at h
  · obtain ⟨announced, bench₁, hannounce, heq⟩ := writing_bind_eq_ok.1 h
    cases heq
    rw [List.filterMap_cons_none (announce_attribute? hannounce)]
    rfl
  · cases h
    rfl

theorem writeFields_attributes {value : String} {taken : FreshNames} {fields : List Field}
    {statements : List Stmt}
    (h : writeFields s value taken fields bench = .ok (statements, bench')) :
    statements.filterMap Stmt.attribute? = fields.filterMap Field.attribute? := by
  induction fields generalizing taken statements bench with
  | nil =>
    cases h
    rfl
  | cons field rest ih =>
    obtain ⟨ident, source⟩ := field
    cases source with
    | «attribute» written type isRequired =>
      obtain ⟨others, bench₁, hothers, heq⟩ := writing_bind_eq_ok.1 h
      cases heq
      have hstatement : Stmt.attribute? (.drop ((Expr.single "context").method "set_attr"
          [.text written, .ref ((Expr.single value).field ident.text)])) =
          some (written, ident.text) := rfl
      exact (List.filterMap_cons_some hstatement).trans (congrArg _ (ih hothers))
    | value type =>
      obtain ⟨others, bench₁, hothers, heq⟩ := writing_bind_eq_ok.1 h
      cases heq
      exact (List.filterMap_cons_none rfl).trans (ih hothers)
    | element written kind wrapper =>
      cases wrapper with
      | one =>
        obtain ⟨statement, bench₁, hstatement, hrest⟩ := writing_bind_eq_ok.1 h
        obtain ⟨others, bench₂, hothers, heq⟩ := writing_bind_eq_ok.1 hrest
        cases heq
        rw [List.filterMap_cons_none (writeValue_attribute? hstatement)]
        exact ih hothers
      | option | many =>
        obtain ⟨statement, bench₁, -, hrest⟩ := writing_bind_eq_ok.1 h
        obtain ⟨others, bench₂, hothers, heq⟩ := writing_bind_eq_ok.1 hrest
        cases heq
        exact (List.filterMap_cons_none rfl).trans (ih hothers)

theorem writerFunction_attributes {layout : Layout} {writer : Function}
    (h : writerFunction s layout bench = .ok (writer, bench')) :
    writer.attributes = layout.fields.filterMap Field.attribute? := by
  obtain ⟨heading, bench₁, hheading, hrest⟩ := writing_bind_eq_ok.1 h
  obtain ⟨statements, bench₂, hstatements, heq⟩ := writing_bind_eq_ok.1 hrest
  cases heq
  rw [Function.attributes, List.filterMap_append, writeTypeName_attributes hheading,
    writeFields_attributes hstatements, List.nil_append]

/-- Every layout has a function that writes the attributes in its fields. -/
theorem writeRecords_attributes {layouts : List Layout} {items : List Item}
    (h : writeRecords s layouts bench = .ok (items, bench')) {layout : Layout}
    (hlayout : layout ∈ layouts) :
    ∃ writer, Item.function writer ∈ items ∧ IsWriter layout writer ∧
      writer.attributes = layout.fields.filterMap Field.attribute? := by
  obtain ⟨pairs, bench₁, hpairs, heq⟩ := writing_bind_eq_ok.1 h
  cases heq
  have hall : List.Forall₂ (fun (place : Layout × Nat) pair => ∃ writer,
      Item.function writer ∈ pair ∧ IsWriter place.1 writer ∧
        writer.attributes = place.1.fields.filterMap Field.attribute?) layouts.zipIdx pairs := by
    refine writing_mapM_eq_ok ?_ hpairs
    intro place bench pair bench' hpair
    obtain ⟨writer, bench₂, hwriter, heq⟩ := writing_bind_eq_ok.1 hpair
    cases heq
    exact ⟨writer, by simp, (writerFunction_eq_ok hwriter).2, writerFunction_attributes hwriter⟩
  obtain ⟨index, hindex⟩ := List.mem_iff_getElem?.1 hlayout
  have hplace : (layout, index) ∈ layouts.zipIdx := List.mk_mem_zipIdx_iff_getElem?.2 hindex
  obtain ⟨pair, hpair, writer, hmem, hwriter⟩ := exists_mem_of_forall₂ hall.flip hplace
  exact ⟨writer, List.mem_flatten.2 ⟨pair, hpair, hmem⟩, hwriter⟩

/-! ## Written attributes -/

/-- An attribute that is written: how it is used and declared, what stands for its name, and the
name of the field that has its value. -/
structure AttributeWrite where
  use : Attribute
  declared : Attribute
  written : String
  field : String

/-- The type of the field that has the value of an attribute. -/
def AttributeWrite.type (defs : Definitions) (write : AttributeWrite) : Ty :=
  let type := (declaredType defs write.declared.typeName write.declared.definition).owned
  if write.use.usage = .required then type else .of "Option" [type]

/-- Attributes are written from fields. -/
structure Writes (defs : Definitions) (table : List (String × String)) (uses : List Attribute)
    (writes : List AttributeWrite) : Prop where
  uses : writes.map (·.use) = uses
  declared : ∀ write ∈ writes, declaration? defs write.use = some write.declared
  spelled : ∀ write ∈ writes, Spelled table (.name (wireName write.use)) write.written

/-- A record begins with fields for attributes, and its function writes these and no others. -/
structure WritesAttributes (defs : Definitions) (table : List (String × String))
    (uses : List Attribute) (writes : List AttributeWrite) (item : Item) (writer : Function) :
    Prop extends Writes defs table uses writes where
  fields : writes.map (fun write => ⟨true, write.field, write.type defs⟩) <+: item.fields
  attributes : writer.attributes = writes.map fun write => (write.written, write.field)

theorem IsUse.spelled {table : List (String × String)} {a : Attribute}
    {entry : QName × Attribute × Attribute} {written : String} (h : IsUse defs a entry)
    (hspelled : Spelled table (attributeUse entry) written) :
    Spelled table (.name (wireName a)) written := by
  unfold attributeUse at hspelled
  rw [h.name, h.use] at hspelled
  unfold wireName
  split
  · next hreference => rwa [if_pos hreference] at hspelled
  · next hlocal =>
    rw [if_neg hlocal] at hspelled
    cases hspelled
    exact .plain _

theorem length_fieldUses {uses : List (QName × Attribute × Attribute)} {fields : List Field}
    (h : List.Forall₂ (IsAttributeField defs) uses fields) :
    (fields.flatMap (fieldUses s)).length = uses.length := by
  induction h with
  | nil => rfl
  | cons hfield _ ih =>
    obtain ⟨written, hsource⟩ := hfield
    rw [List.flatMap_cons, List.length_append, ih, fieldUses, hsource, List.length_cons]
    simp [Nat.add_comm]

theorem settled_of_laid {table : List (String × String)} {record : Record} {uses : AttributeUses}
    {contents : List NameUse} {fields others : List Field}
    (huses : attributesOf s.defs record.type = .ok uses)
    (hcontents : contentUses s record = .ok contents)
    (hfields : List.Forall₂ (IsAttributeField s.defs) uses.entries fields)
    (hsettled : SettledAll table contents ((fields ++ others).flatMap (fieldUses s))) :
    SettledAll table (uses.entries.map attributeUse) (fields.flatMap (fieldUses s)) := by
  obtain ⟨uses', huses', hrest⟩ := bind_eq_ok.1 hcontents
  obtain ⟨elements, -, heq⟩ := bind_eq_ok.1 hrest
  cases heq
  cases huses.symm.trans huses'
  rw [List.flatMap_append] at hsettled
  have htaken := List.forall₂_take_append _ _ _ hsettled
  rwa [length_fieldUses hfields, List.take_left' (List.length_map _)] at htaken

/-- The fields of attributes in effect have what is written for them. -/
theorem exists_writes {table : List (String × String)} {declarations : List Attribute}
    {uses : List (QName × Attribute × Attribute)} {fields : List Field}
    (huses : List.Forall₂ (IsUse s.defs) declarations uses)
    (hfields : List.Forall₂ (IsAttributeField s.defs) uses fields)
    (hsettled : SettledAll table (uses.map attributeUse) (fields.flatMap (fieldUses s))) :
    ∃ writes, Writes s.defs table declarations writes ∧
      (∀ boxed : Field → Bool,
        fields.map (fun field =>
            (⟨true, field.ident.text, fieldType field (boxed field)⟩ : FieldDecl)) =
          writes.map fun write => ⟨true, write.field, write.type s.defs⟩) ∧
      fields.filterMap Field.attribute? = writes.map fun write => (write.written, write.field) := by
  induction huses generalizing fields with
  | nil =>
    cases hfields
    exact ⟨[], ⟨rfl, by simp, by simp⟩, fun _ => rfl, rfl⟩
  | @cons a entry declarations entries huse _ ih =>
    cases hfields with
    | @cons _ field _ others hfield hothers =>
      obtain ⟨ident, source⟩ := field
      obtain ⟨written, rfl⟩ := hfield
      obtain ⟨hfirst, hrest⟩ := List.forall₂_cons.1 hsettled
      obtain ⟨writes, hwrites, htypes, hattributes⟩ := ih hothers hrest
      refine ⟨⟨a, entry.2.2, written, ident.text⟩ :: writes, ⟨?_, ?_, ?_⟩, ?_, ?_⟩
      · rw [List.map_cons, hwrites.uses]
      · exact List.forall_mem_cons.2 ⟨huse.declaration, hwrites.declared⟩
      · have hspelled := huse.spelled (hfirst.spelledBy (.text written))
        exact List.forall_mem_cons.2 ⟨hspelled, hwrites.spelled⟩
      · intro boxed
        rw [List.map_cons, List.map_cons, htypes boxed]
        simp [fieldType, AttributeWrite.type, huse.use]
      · exact congrArg ((written, ident.text) :: ·) hattributes

/-- Different names are written for attributes of different names without a colon. -/
theorem Writes.nodup_written {table : List (String × String)} {uses : List Attribute}
    {writes : List AttributeWrite} (h : Writes defs table uses writes) (htable : Unambiguous table)
    (huses : (uses.map wireName).Nodup) (hbases : ∀ a ∈ uses, ':' ∉ a.name.base.toList) :
    (writes.map (·.written)).Nodup := by
  rw [← h.uses, List.map_map] at huses
  refine List.pairwise_map.2 ((List.pairwise_map.1 huses).imp_of_mem ?_)
  intro a b ha hb hne heq
  have hbase : ∀ write ∈ writes, ':' ∉ (wireName write.use).base.toList := by
    intro write hwrite
    have hlocal := hbases write.use (h.uses ▸ List.mem_map_of_mem hwrite)
    unfold wireName
    split <;> exact hlocal
  exact hne (eq_of_spelled htable (h.spelled a ha) (heq ▸ h.spelled b hb) (hbase a ha) (hbase b hb))

/-! ## Clients -/

/-- The attributes of a record are those that are in effect, by their names, after what its type
declares, and its function writes each of them once. Where names tell attributes apart as their
names in documents do, this is what is in effect by the latter, and no two are written as the same.
-/
theorem compile_attributes {defs : Definitions} {service : Option String} {name : QName}
    {items : List Item} (h : compile defs service name = .ok items) :
    ∃ binding plan layouts table, defs.bindings.get? name = some binding ∧
      Compiled defs service name items plan layouts ∧
      Closed defs ((inputParts defs binding).filterMap (recordOfPart defs)) layouts ∧
      Unambiguous table ∧ Registers table items ∧
      ∀ index layout, layouts[index]? = some layout → ∃ writer,
        recordItem layouts index layout ∈ items ∧ Item.function writer ∈ items ∧
        IsWriter layout writer ∧
        ∀ declarations, TypeDeclares defs (levelLimit + 1) layout.record.type declarations →
          ∃ writes, WritesAttributes defs table (inEffect (·.name) declarations) writes
              (recordItem layouts index layout) writer ∧
            (ToldApart declarations →
              inEffect (·.name) declarations = inEffect wireName declarations ∧
              (writes.map fun write => wireName write.use).Nodup ∧
              ((∀ a ∈ declarations, ':' ∉ a.name.base.toList) →
                (writer.attributes.map (·.1)).Nodup)) := by
  obtain ⟨binding, plan, bench, hbinding, hplan, hclient⟩ := compile_eq_ok h
  obtain ⟨layouts, hcompletes, hclosed, hwrites⟩ := writeClient_eq_ok hclient
  obtain ⟨methods, records, bench₁, bench₂, -, -, hlaid, hrecords, hitems⟩ :=
    writeClient_laid hcompletes hclient
  have hunambiguous := (writeClient_spells hcompletes hclient).1
  have hlater := (writeRecords_spells hlaid hrecords).1
  rw [ofBinding_parts hplan] at hclosed
  refine ⟨binding, plan, layouts, bench.table, hbinding,
    ⟨⟨binding, hbinding, hplan⟩, hcompletes, hwrites⟩, hclosed, hunambiguous, ?_,
    fun index layout hindex => ?_⟩
  · rw [hitems]
    exact (registers_clientItems ..).append _
  have hlayout : layout ∈ layouts := List.mem_of_getElem? hindex
  obtain ⟨writer, hmem, hwriter, hattributes⟩ := writeRecords_attributes hrecords hlayout
  refine ⟨writer, hwrites.recordItem_mem hindex, hitems ▸ List.mem_append_right _ hmem, hwriter,
    fun declarations hdeclares => ?_⟩
  obtain ⟨uses, fields, others, huses, hfields, hshaped, hnone⟩ :=
    hcompletes.forall_fields fieldsOf_attributes layout hlayout
  obtain ⟨contents, hcontents, hsettled⟩ := (hlaid layout hlayout).mono hlater.table
  have hwritten := settled_of_laid huses hcontents hshaped (hfields ▸ hsettled)
  obtain ⟨writes, hwrites, htypes, hwritten⟩ :=
    exists_writes (attributesOf_eq_ok hdeclares huses) hshaped hwritten
  have hattributes' : writer.attributes = writes.map fun write => (write.written, write.field) := by
    rw [hattributes, hfields, List.filterMap_append, hnone, List.append_nil, hwritten]
  refine ⟨writes, ⟨hwrites, ?_, hattributes'⟩, fun happart => ?_⟩
  · rw [recordItem, Item.fields, hfields, List.map_append, htypes (isBoxed layouts index)]
    exact List.prefix_append ..
  · have heffect := inEffect_congr happart
    have hnodup := nodup_inEffect wireName declarations
    refine ⟨heffect, ?_, fun hbases => ?_⟩
    · rwa [← heffect, ← hwrites.uses, List.map_map] at hnodup
    · rw [hattributes', List.map_map]
      refine hwrites.nodup_written hunambiguous (heffect ▸ hnodup) fun a ha => ?_
      exact hbases a (inEffect_subset _ _ ha)

/-! ## Types of several namespaces -/

/-- An attribute that is declared in a type, and which holds text. -/
def used (usage : Wsdl.AttributeUse) (name : QName) : Attribute :=
  { name, isReference := false, typeName := none, definition := none, default := none, fixed := none
    usage }

/-- A reference to an attribute. -/
def referred (name : QName) : Attribute :=
  { used .optional name with isReference := true }

/-- A name in another namespace than that of the messages. -/
def otherName (base : String) : QName :=
  ⟨some "urn:other", base⟩

/-- A type with attributes and without elements. -/
def attributeType (base : Option QName) (attributeGroups : List AttributeGroup)
    (attributes : List Attribute) : ComplexType :=
  { name := none, derivation := base.map (⟨·, .complex, .restriction⟩), attributes
    attributeGroups, content := none }

/-- A description of one operation, which sends values of types with attributes. -/
def attributed (types : List (QName × ComplexType)) (sent : List QName) : Definitions :=
  { Definitions.empty with
    messages := ⟨[(linkedName "Ask", ⟨linkedName "Ask",
      sent.map fun name => ⟨name.base, .type name⟩⟩)]⟩
    interfaces := linked.interfaces
    bindings := linked.bindings
    types := ⟨types.map fun (name, type) => (name, .complex type)⟩
    attributes := ⟨[(otherName "lang", used .optional (otherName "lang")),
      (linkedName "lang", { used .optional (linkedName "lang") with
        typeName := some ⟨some Soap.schemaNamespace, "int"⟩ })]⟩
    attributeGroups := ⟨[(linkedName "Common", ⟨linkedName "Common", false,
      [referred (otherName "lang"), used .optional (linkedName "kind")], []⟩)]⟩ }

/-- A type two levels above which there is one of another namespace; it has a group of attributes,
declares an attribute again and prohibits another one. -/
def layeredType : ComplexType :=
  attributeType (some (linkedName "Base")) [⟨linkedName "Common", true, [], []⟩]
    [used .required (linkedName "id"),
      used .prohibited (linkedName "note")]

/-- A description that sends values of the type above others. -/
def layered : Definitions :=
  attributed [(otherName "Root", attributeType none [] [used .optional (otherName "stamp")]),
    (linkedName "Base", attributeType (some (otherName "Root")) []
      [used .optional (linkedName "id"), used .optional (linkedName "note")]),
    (linkedName "Entry", layeredType)] [linkedName "Entry"]

theorem Closed.eq_singleton {defs : Definitions} {root : Record} {layouts : List Layout}
    (h : Closed defs [root] layouts) (hnone : recordsIn defs root = []) :
    layouts.map (·.record) = [root] := by
  refine ((h.order [root]).1 ⟨?_, ?_⟩).symm
  · simp [firsts, note, hnone]
  · intro earlier x later heq
    have hx : x ∈ [root] := heq ▸ List.mem_append_right _ List.mem_cons_self
    exact List.mem_append_left _ hx

/-- What a type with other levels above it declares. -/
def layeredDeclarations : List Attribute :=
  [used .optional (otherName "stamp"), used .optional (linkedName "id"),
    used .optional (linkedName "note"), referred (otherName "lang"),
    used .optional (linkedName "kind"), used .required (linkedName "id"),
    used .prohibited (linkedName "note")]

theorem layered_declares :
    TypeDeclares layered (levelLimit + 1) layeredType layeredDeclarations := by
  have hroot : TypeDeclares layered 31
      (attributeType none [] [used .optional (otherName "stamp")])
      [used .optional (otherName "stamp")] :=
    ⟨[], [], rfl, .nil, rfl⟩
  have hbase : TypeDeclares layered 32
      (attributeType (some (otherName "Root")) []
        [used .optional (linkedName "id"), used .optional (linkedName "note")])
      [used .optional (otherName "stamp"), used .optional (linkedName "id"),
        used .optional (linkedName "note")] :=
    ⟨[used .optional (otherName "stamp")], [], hroot, .nil, rfl⟩
  have hgroup : GroupDeclares layered 32 ⟨linkedName "Common", true, [], []⟩
      [referred (otherName "lang"), used .optional (linkedName "kind")] :=
    ⟨_, [], rfl, .nil, rfl⟩
  exact ⟨_, [_], hbase, .cons hgroup .nil, rfl⟩

/-- Attributes of base types come first, then those of groups; what is declared again keeps its
place. -/
theorem compile_attributes_of_layered : ∃ items layouts table writes layout writer,
    compile layered none (linkedName "Soap") = .ok items ∧ layouts[0]? = some layout ∧
      WritesAttributes layered table [used .optional (otherName "stamp"),
        used .required (linkedName "id"),
        referred (otherName "lang"), used .optional (linkedName "kind")] writes
        (recordItem layouts 0 layout) writer ∧
      (writer.attributes.map (·.1)).Nodup := by
  have hexists : ∃ items, compile layered none (linkedName "Soap") = .ok items :=
    exists_eq_ok (by decide +kernel)
  obtain ⟨items, hitems⟩ := hexists
  obtain ⟨binding, plan, layouts, table, hbinding, -, hclosed, -, -, hlayouts⟩ :=
    compile_attributes hitems
  cases hbinding
  have hrecords : layouts.map (·.record) = [⟨linkedName "Entry", false, layeredType⟩] :=
    Closed.eq_singleton hclosed rfl
  obtain ⟨layout, rfl, hlayout⟩ := List.map_eq_singleton_iff.1 hrecords
  obtain ⟨writer, -, -, -, hall⟩ := hlayouts 0 layout rfl
  rw [hlayout] at hall
  obtain ⟨writes, hwrites, happart⟩ := hall _ layered_declares
  have htold : ToldApart layeredDeclarations := by decide
  have hplain : ∀ a ∈ layeredDeclarations, ':' ∉ a.name.base.toList := by decide
  obtain ⟨-, -, hnodup⟩ := happart htold
  exact ⟨items, [layout], table, writes, layout, writer, hitems, rfl, hwrites, hnodup hplain⟩

/-- A type that is derived from one in another namespace and has an attribute like it. -/
def crossedType : ComplexType :=
  attributeType (some (otherName "Base")) [] [used .required (linkedName "id")]

/-- A type with an attribute of its own and one of its namespace, which have the same name. -/
def mixedType : ComplexType :=
  attributeType none [] [used .optional (linkedName "lang"), referred (linkedName "lang")]

/-- Attributes that are declared in types of different namespaces, and a reference to an attribute
of the namespace of a type. -/
def crossed : Definitions :=
  attributed [(otherName "Base", attributeType none []
      [used .optional (otherName "id"), used .optional (otherName "note")]),
    (linkedName "Entry", crossedType), (linkedName "Text", mixedType)]
    [linkedName "Entry", linkedName "Text"]

/-- An attribute of a base type in another namespace is not declared again but written twice, and
of an attribute of a type and another one of the namespace that has the same name only one is
written. -/
theorem not_nodup_attributes : ∃ items inherited mixed,
    compile crossed none (linkedName "Soap") = .ok items ∧
    TypeDeclares crossed (levelLimit + 1) crossedType inherited ∧
    (inEffect wireName inherited).map wireName = [⟨none, "id"⟩, ⟨none, "note"⟩] ∧
    (∃ item ∈ items,
      item.attributes = [("id", "id"), ("note", "note"), ("id", "id_2")]) ∧
    TypeDeclares crossed (levelLimit + 1) mixedType mixed ∧
    (inEffect wireName mixed).map wireName = [⟨none, "lang"⟩, linkedName "lang"] ∧
    ∃ item ∈ items, item.attributes = [("autons1:lang", "lang")] := by
  have hitems : (compile crossed none (linkedName "Soap")).toOption.map (fun items =>
      (items.any fun item => item.attributes == [("id", "id"), ("note", "note"), ("id", "id_2")]) &&
      (items.any fun item => item.attributes == [("autons1:lang", "lang")])) = some true := by
    decide +kernel
  obtain ⟨items, hitems, heq⟩ := Option.map_eq_some_iff.1 hitems
  obtain ⟨htwice, hmerged⟩ := Bool.and_eq_true_iff.1 heq
  have hbase : TypeDeclares crossed 32 (attributeType none []
      [used .optional (otherName "id"), used .optional (otherName "note")])
      [used .optional (otherName "id"), used .optional (otherName "note")] :=
    ⟨[], [], rfl, .nil, rfl⟩
  refine ⟨items, _, _, toOption_eq_some.1 hitems, ⟨_, [], hbase, .nil, rfl⟩, by decide, ?_,
    ⟨[], [], rfl, .nil, rfl⟩, by decide, ?_⟩
  · simpa using htwice
  · simpa using hmerged

end SoapKit.Client
