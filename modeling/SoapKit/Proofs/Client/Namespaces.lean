import SoapKit.Proofs.Client.Attributes
import SoapKit.Xml.Strict

/-!
# Which namespaces clients register

**Theorem (`compile_registers`).** A client registers a qualifier for a namespace exactly if the
code for one of its operations or records writes a name in it (`IsWritten`). The qualifiers are
never at fault; a namespace is if it is empty or one of the two that have their qualifiers by
definition (`IsBindable`). So what is registered consists of legal declarations exactly if all names
that are written are in bindable namespaces. Nothing sees to this: a name in the namespace of XML is
written with a qualifier like any other, never with `xml` (`registers_xmlNamespace`).

**Invariant.** That nothing else is registered (`Within`) is kept in the three phases in which names
are written. For operations, and for the functions of records, the namespaces are known beforehand;
while layouts are completed they are those of the records that were met so far.
-/

namespace SoapKit.Client

open Naming
open Rust (Function Item)
open Wsdl (QName Definitions Attribute)

variable {s : Setting} {bench bench' : Workbench} {plan : Plan}

/-! ## Namespaces that prefixes are bound to -/

/-- A prefix can be declared for a namespace: it is none of the two to which every document binds a
prefix of its own, and not the empty one, which stands for no namespace. -/
def IsBindable (uri : String) : Prop :=
  uri ≠ "" ∧ uri ≠ Xml.xmlNamespace ∧ uri ≠ Xml.Strict.xmlnsNamespace

instance : DecidablePred IsBindable :=
  fun _ => inferInstanceAs (Decidable (_ ∧ _))

/-- A prefix with a namespace is a legal declaration. -/
def IsLegalAlias (pair : String × String) : Prop :=
  pair.1 ≠ "xml" ∧ pair.1 ≠ "xmlns" ∧ IsBindable pair.2

instance : DecidablePred IsLegalAlias :=
  fun _ => inferInstanceAs (Decidable (_ ∧ _))

/-! ## Steps within namespaces -/

/-- The namespaces of names are all in `U`. -/
def Confined (U : String → Prop) (uses : List NameUse) : Prop :=
  ∀ uri ∈ uses.filterMap NameUse.uri?, U uri

/-- The namespaces that have qualifiers are all in `U`. -/
def Within (U : String → Prop) (bench : Workbench) : Prop :=
  ∀ uri ∈ bench.uris, U uri

section Within

variable {U V : String → Prop} {uses uses' : List NameUse}

theorem confined_append : Confined U (uses ++ uses') ↔ Confined U uses ∧ Confined U uses' := by
  rw [Confined, List.filterMap_append, List.forall_mem_append]
  rfl

theorem confined_cons {use : NameUse} :
    Confined U (use :: uses) ↔ Confined U [use] ∧ Confined U uses := by
  rw [← List.singleton_append, confined_append]

/-- Texts in place of names show namespaces of these names only. -/
theorem Confined.settled {table : List (String × String)} (h : Confined U uses)
    (hsettled : SettledAll table uses uses') : Confined U uses' := by
  intro uri huri
  obtain ⟨use', huse', heq⟩ := List.mem_filterMap.1 huri
  obtain ⟨use, huse, hsettles⟩ := exists_mem_of_forall₂ hsettled huse'
  exact h uri (List.mem_filterMap.2 ⟨use, huse, hsettles.uri?_eq heq⟩)

theorem Within.mono (h : Within U bench) (hle : ∀ uri, U uri → V uri) : Within V bench :=
  fun uri huri => hle uri (h uri huri)

theorem Spells.within {texts : List String} (h : Spells uses texts bench bench')
    (hconfined : Confined U uses) (hbench : Within U bench) : Within U bench' := by
  intro uri huri
  rcases h.gains uri huri with hbefore | hnew
  · exact hbench uri hbefore
  · exact hconfined uri hnew

theorem writeOperation_within {operation : PlannedOperation}
    (hconfined : Confined U (operationUses s operation)) :
    Keeps (Within U) (writeOperation s operation) := by
  intro bench methods bench' hbench h
  obtain ⟨_, _, -, -, hspells⟩ := writeOperation_texts h
  exact hspells.within hconfined hbench

theorem attributeFields_within {taken : FreshNames}
    {uses : List (QName × Attribute × Attribute)} (hconfined : Confined U (uses.map attributeUse)) :
    Keeps (Within U) (attributeFields s taken uses) := by
  induction uses generalizing taken with
  | nil => exact .pure _
  | cons use rest ih =>
    intro bench result bench' hbench h
    obtain ⟨name, use, declared⟩ := use
    obtain ⟨written, bench₁, hwritten, hrest⟩ := writing_ite_bind_eq_ok.1 h
    obtain ⟨others, bench₂, hothers, heq⟩ := writing_bind_eq_ok.1 hrest
    cases heq
    rw [List.map_cons, confined_cons] at hconfined
    exact ih hconfined.2 ((written_spells hwritten).within hconfined.1 hbench) hothers

theorem elementFields_within {taken : FreshNames} {elements : List Wsdl.Element}
    (hconfined : Confined U (elements.flatMap (elementUses s))) :
    Keeps (Within U) (elementFields s taken elements) := by
  induction elements generalizing taken with
  | nil => exact .pure _
  | cons element rest ih =>
    intro bench fields bench' hbench h
    obtain ⟨kind, bench₁, hkind, hrest⟩ := writing_bind_eq_ok.1 h
    obtain ⟨written, bench₂, hwritten, hrest⟩ := writing_ite_bind_eq_ok.1 hrest
    obtain ⟨others, bench₃, hothers, heq⟩ := writing_bind_eq_ok.1 hrest
    cases heq
    obtain ⟨haliases, -⟩ := announces_kindOfLocal s element hkind
    rw [List.flatMap_cons, confined_append, elementUses, confined_cons] at hconfined
    have hspells := (Spells.of_aliases_eq haliases).trans (written_spells hwritten)
    exact ih hconfined.2 (hspells.within hconfined.1.1 hbench) hothers

theorem fieldsOf_within {record : Record}
    (hconfined : ∀ uses, contentUses s record = .ok uses → Confined U uses) :
    Keeps (Within U) (fieldsOf s record) := by
  intro bench fields bench' hbench h
  obtain ⟨uses, attributes, taken, elements, found, bench₁, huses, hattributes, helements, hfound,
    -⟩ := fieldsOf_steps h
  obtain ⟨hfirst, hrest⟩ := confined_append.1 (hconfined _ (contentUses_eq_ok huses helements))
  exact elementFields_within hrest (attributeFields_within hfirst hbench hattributes) hfound

theorem writerFunction_within {table : List (String × String)} {layout : Layout}
    (hlaid : Laid s table layout)
    (hconfined : ∀ uses, recordUses s layout.record = .ok uses → Confined U uses) :
    Keeps (Within U) (writerFunction s layout) := by
  intro bench function bench' hbench h
  obtain ⟨uses, huses, hsettled⟩ := hlaid
  obtain ⟨htype, hcontent⟩ := confined_append.1 (hconfined _ (recordUses_eq_ok huses))
  have hfields := hcontent.settled hsettled
  exact (writerFunction_texts h).within (confined_append.2 ⟨htype, hfields⟩) hbench

end Within

/-! ## Names that are written -/

/-- A name in a namespace is written for an operation, or for one of the records. -/
def IsWritten (s : Setting) (plan : Plan) (records : List Record) (uri : String) : Prop :=
  (∃ operation ∈ plan.operations, uri ∈ (operationUses s operation).filterMap NameUse.uri?) ∨
    ∃ record ∈ records, ∃ uses, recordUses s record = .ok uses ∧
      uri ∈ uses.filterMap NameUse.uri?

theorem IsWritten.mono {records records' : List Record} {uri : String}
    (h : IsWritten s plan records uri) (hrecords : ∀ record ∈ records, record ∈ records') :
    IsWritten s plan records' uri :=
  h.imp id fun ⟨record, hrecord, hwritten⟩ => ⟨record, hrecords record hrecord, hwritten⟩

theorem confined_recordUses {records : List Record} {record : Record} (hrecord : record ∈ records)
    (uses : List NameUse) (huses : recordUses s record = .ok uses) :
    Confined (IsWritten s plan records) uses :=
  fun _ huri => .inr ⟨record, hrecord, uses, huses, huri⟩

theorem confined_contentUses {records : List Record} {record : Record} (hrecord : record ∈ records)
    (uses : List NameUse) (huses : contentUses s record = .ok uses) :
    Confined (IsWritten s plan records) uses :=
  (confined_append.1 (confined_recordUses hrecord _ (recordUses_eq_ok huses))).2

/-- While layouts are completed, names are written for records that were met. -/
theorem within_setFields {index : Nat} {layout : Layout} {fields : List Field}
    (hbench : Within (IsWritten s plan bench.records) bench)
    (hlayout : bench.layouts[index]? = some layout)
    (h : fieldsOf s layout.record bench = .ok (fields, bench')) :
    Within (IsWritten s plan (bench'.setFields index fields).records)
      (bench'.setFields index fields) := by
  have hmem : layout.record ∈ bench.records :=
    List.mem_map_of_mem (List.mem_of_getElem? hlayout)
  have hkept : bench.records <+: bench'.records := (fieldsOf_eq_ok h).1.layouts.map Layout.record
  have hwithin := fieldsOf_within (confined_contentUses hmem) hbench h
  rw [records_setFields]
  exact hwithin.mono fun uri huri => huri.mono fun _ hrecord => hkept.mem hrecord

/-- The names for operations and for the records that are met are the only ones that are written. -/
theorem writeClient_within {reserved : List String} {layouts : List Layout} {items : List Item}
    (hcompletes : Completes s plan reserved layouts)
    (h : writeClient s plan (.start s.defs reserved) = .ok (items, bench')) :
    Within (IsWritten s plan (layouts.map Layout.record)) bench' := by
  obtain ⟨methods, records, bench₁, bench₂, hmethods, hcomplete, rfl, hrecords, -⟩ :=
    writeClient_completed hcompletes h
  obtain ⟨-, -, bench₃, bench₄, -, -, hlaid, -, -⟩ := writeClient_laid hcompletes h
  obtain ⟨hstart, hroots, -⟩ := completing_of_operations hmethods
  have hnone : Within (IsWritten s plan []) (.start s.defs reserved) :=
    fun uri huri => absurd huri List.not_mem_nil
  have hoperations : Within (IsWritten s plan []) bench₁ :=
    Keeps.mapM (fun operation hoperation => writeOperation_within fun uri huri =>
      .inl ⟨operation, hoperation, huri⟩) hnone hmethods
  have hlayouts : Within (IsWritten s plan bench₂.records) bench₂ :=
    hstart.run_keeps (P := fun _ bench => Within (IsWritten s plan bench.records) bench)
      within_setFields hroots (Nat.le_refl _)
      (hoperations.mono fun uri huri => huri.mono (by simp)) hcomplete
  obtain ⟨pairs, bench₅, hpairs, heq⟩ := writing_bind_eq_ok.1 hrecords
  cases heq
  refine Keeps.mapM (fun place hplace => Keeps.bind ?_ fun _ => .pure _) hlayouts hpairs
  have hlayout := List.fst_mem_of_mem_zipIdx hplace
  exact writerFunction_within (hlaid place.1 hlayout)
    (confined_recordUses (List.mem_map_of_mem hlayout))

/-- The names that are written are spelled, and so their namespaces have qualifiers. -/
theorem SpellsClient.uri_mem {layouts : List Layout} {table : List (String × String)}
    {items : List Item} {uri : String} (h : SpellsClient s plan layouts table items)
    (hwritten : IsWritten s plan (layouts.map Layout.record) uri) : uri ∈ table.map Prod.snd := by
  obtain ⟨methods, pairs, -, hoperations, hrecords⟩ := h
  rcases hwritten with ⟨operation, hoperation, huri⟩ | ⟨record, hrecord, uses, huses, huri⟩
  · obtain ⟨pair, -, -, waiting, -, -, hspelled⟩ :=
      exists_mem_of_forall₂ hoperations.flip hoperation
    exact hspelled.uri_mem huri
  · obtain ⟨layout, hlayout, rfl⟩ := List.mem_map.1 hrecord
    obtain ⟨index, hindex, rfl⟩ := List.mem_iff_getElem.1 hlayout
    have hplace : (layouts[index], index) ∈ layouts.zipIdx :=
      List.mem_zipIdx_iff_getElem?.2 (List.getElem?_eq_getElem hindex)
    obtain ⟨pair, -, writer, ⟨uses', huses', hspelled⟩, -⟩ :=
      exists_mem_of_forall₂ hrecords.flip hplace
    cases huses.symm.trans huses'
    exact hspelled.uri_mem huri

/-! ## Registrations -/

/-- The qualifiers with their namespaces that a method registers which makes a client. -/
def registration? (method : Function) : Option (List (String × String)) :=
  match method.name, method.body with
  | "with_endpoint", [.value (.record "Self" (("dispatcher", some dispatcher) :: _))] =>
    some dispatcher.registered
  | _, _ => none

theorem registration?_eq_some_iff {method : Function} {table : List (String × String)} :
    registration? method = some table ↔ method.name = "with_endpoint" ∧ ∃ dispatcher others,
      method.body = [.value (.record "Self" (("dispatcher", some dispatcher) :: others))] ∧
        dispatcher.registered = table := by
  constructor
  · intro h
    unfold registration? at h
    split at h
    · next hname hbody =>
      cases h
      exact ⟨hname, _, _, hbody, rfl⟩
    · cases h
  · rintro ⟨hname, dispatcher, others, hbody, rfl⟩
    simp only [registration?, hname, hbody]

/-- The registrations of the methods in an item. -/
def registrations : Item → List (List (String × String))
  | .methods _ _ members => members.filterMap registration?
  | _ => []

theorem registers_iff {items : List Item} {table : List (String × String)} :
    Registers table items ↔ table ∈ items.flatMap registrations := by
  rw [List.mem_flatMap]
  constructor
  · rintro ⟨typeParams, target, members, member, dispatcher, others, hitem, hmember, hname, hbody,
      hregistered⟩
    have hsome : registration? member = some table :=
      registration?_eq_some_iff.2 ⟨hname, dispatcher, others, hbody, hregistered⟩
    exact ⟨_, hitem, List.mem_filterMap.2 ⟨member, hmember, hsome⟩⟩
  · rintro ⟨item, hitem, htable⟩
    cases item with
    | methods typeParams target members =>
      obtain ⟨member, hmember, hsome⟩ := List.mem_filterMap.1 htable
      obtain ⟨hname, dispatcher, others, hbody, hregistered⟩ := registration?_eq_some_iff.1 hsome
      exact ⟨typeParams, target, members, member, dispatcher, others, hitem, hmember, hname, hbody,
        hregistered⟩
    | constant | record | function => cases htable

/-! ## Clients -/

/-- A client registers qualifiers for exactly the namespaces of the names that are written for its
operations and records. What it registers are legal declarations exactly if these namespaces are
bindable. Names in any namespace, that of XML included, are written with the qualifier that is
registered for it, and this is none of those that envelopes use themselves. -/
theorem compile_registers {defs : Definitions} {service : Option String} {name : QName}
    {items : List Item} (h : compile defs service name = .ok items) :
    ∃ plan layouts table, Compiled defs service name items plan layouts ∧
      Registers table items ∧ SpellsClient ⟨defs, plan.isEncoded⟩ plan layouts table items ∧
      (∀ uri, uri ∈ table.map Prod.snd ↔
        IsWritten ⟨defs, plan.isEncoded⟩ plan (layouts.map Layout.record) uri) ∧
      ((∀ pair ∈ table, IsLegalAlias pair) ↔
        ∀ uri, IsWritten ⟨defs, plan.isEncoded⟩ plan (layouts.map Layout.record) uri →
          IsBindable uri) ∧
      ∀ uri base text, Spelled table (.name ⟨some uri, base⟩) text →
        ∃ qualifier, (qualifier, uri) ∈ table ∧ qualifier ∉ Aliases.reserved ∧
          text = qualifier ++ ":" ++ base := by
  obtain ⟨binding, plan, bench, hbinding, hplan, hclient⟩ := compile_eq_ok h
  obtain ⟨layouts, hcompletes, -, hwrites⟩ := writeClient_eq_ok hclient
  obtain ⟨hunambiguous, hspells⟩ := writeClient_spells hcompletes hclient
  have hwritten : ∀ uri, uri ∈ bench.table.map Prod.snd ↔
      IsWritten ⟨defs, plan.isEncoded⟩ plan (layouts.map Layout.record) uri :=
    fun uri => ⟨writeClient_within hcompletes hclient uri, hspells.uri_mem⟩
  have hfree : ∀ {qualifier uri}, (qualifier, uri) ∈ bench.table →
      qualifier ∉ Aliases.reserved :=
    fun hmem => hunambiguous.free _ (List.mem_map_of_mem hmem)
  refine ⟨plan, layouts, bench.table, ⟨⟨binding, hbinding, hplan⟩, hcompletes, hwrites⟩, ?_,
    hspells, hwritten, ⟨fun hlegal uri huri => ?_, fun hbindable pair hpair => ?_⟩, ?_⟩
  · obtain ⟨methods, pairs, rfl, -, -⟩ := hspells
    exact (registers_clientItems ..).append _
  · obtain ⟨pair, hpair, rfl⟩ := List.mem_map.1 ((hwritten uri).2 huri)
    exact (hlegal pair hpair).2.2
  · have hreserved := hfree hpair
    have hxml : pair.1 ≠ "xml" := fun heq => hreserved (heq ▸ by decide)
    have hxmlns : pair.1 ≠ "xmlns" := fun heq => hreserved (heq ▸ by decide)
    exact ⟨hxml, hxmlns, hbindable pair.2 ((hwritten pair.2).1 (List.mem_map_of_mem hpair))⟩
  · intro uri base text hspelled
    cases hspelled with
    | qualified hmem => exact ⟨_, hmem, hfree hmem, rfl⟩

/-- The names that are written for encoded links and nodes are in three namespaces, all of which are
bindable. -/
theorem compile_registers_of_encoded : ∃ items plan layouts,
    Compiled encodedLinked none (linkedName "Soap") items plan layouts ∧
      Registers [("autons1", "urn:linked"), ("soapenc", Soap.encodingNamespace),
        ("xsi", Soap.instanceNamespace)] items ∧
      (∀ uri, IsWritten ⟨encodedLinked, plan.isEncoded⟩ plan (layouts.map Layout.record) uri ↔
        uri ∈ ["urn:linked", Soap.encodingNamespace, Soap.instanceNamespace]) ∧
      ∀ uri, IsWritten ⟨encodedLinked, plan.isEncoded⟩ plan (layouts.map Layout.record) uri →
        IsBindable uri := by
  have hregistered : (compile encodedLinked none (linkedName "Soap")).toOption.map
      (List.flatMap registrations) =
        some [[("autons1", "urn:linked"), ("soapenc", Soap.encodingNamespace),
          ("xsi", Soap.instanceNamespace)]] := by
    decide +kernel
  obtain ⟨items, hitems, heq⟩ := Option.map_eq_some_iff.1 hregistered
  obtain ⟨plan, layouts, table, hcompiled, hregisters, -, hwritten, hlegal, -⟩ :=
    compile_registers (toOption_eq_some.1 hitems)
  have htable := registers_iff.1 hregisters
  rw [heq, List.mem_singleton] at htable
  subst htable
  exact ⟨items, plan, layouts, hcompiled, hregisters, fun uri => (hwritten uri).symm,
    hlegal.1 (by decide)⟩

/-! ## An attribute in the namespace of XML -/

/-- The texts of the function that an item is. -/
def functionTexts : Item → Option (List String)
  | .function writer => some writer.texts
  | _ => none

/-- The name of an attribute that says in which language an element is. -/
def langName : QName := ⟨some Xml.xmlNamespace, "lang"⟩

/-- A description of one operation, which sends a value of a type with an attribute in the namespace
of XML. -/
def spoken : Definitions :=
  { attributed [(linkedName "Entry", attributeType none [] [referred langName])]
      [linkedName "Entry"] with
    attributes := ⟨[(langName, used .optional langName)]⟩ }

/-- The namespace of XML is registered under a qualifier of its own, and the attribute is written
with it. -/
theorem registers_xmlNamespace : ∃ items,
    compile spoken none (linkedName "Soap") = .ok items ∧
      Registers [("autons1", Xml.xmlNamespace)] items ∧
      ¬IsLegalAlias ("autons1", Xml.xmlNamespace) ∧
      ∃ writer, Item.function writer ∈ items ∧ writer.texts = ["autons1:lang"] := by
  have hitems : (compile spoken none (linkedName "Soap")).toOption.map (fun items =>
      (items.flatMap registrations, items.filterMap functionTexts)) =
        some ([[("autons1", Xml.xmlNamespace)]], [["autons1:lang"]]) := by
    decide +kernel
  obtain ⟨items, hitems, heq⟩ := Option.map_eq_some_iff.1 hitems
  obtain ⟨hregistrations, htexts⟩ := Prod.mk.inj heq
  refine ⟨items, toOption_eq_some.1 hitems, ?_, by decide, ?_⟩
  · exact registers_iff.2 (hregistrations ▸ List.mem_cons_self)
  · have hmem := htexts.symm ▸ List.mem_cons_self (a := ["autons1:lang"]) (l := [])
    obtain ⟨item, hitem, hsome⟩ := List.mem_filterMap.1 hmem
    cases item with
    | function writer => exact ⟨writer, hitem, Option.some.inj hsome⟩
    | constant | record | methods => cases hsome

end SoapKit.Client
