import SoapKit.Proofs.Client.Keeping
import SoapKit.Proofs.Naming.Identifiers

/-!
# Names of fields and parameters

**Theorem (`compile_memberNames`).** The fields of a record are called after names that are handed
out for its attributes, its text and its elements, and the parameters of a method after names that
are handed out for the parts of a message. Where these are ordinary names, fields have different
identifiers, and so do parameters; no parameter is called like the object of the method.

No more can be had (`not_nodup_fieldNames`): names are handed out before they are made identifiers,
in which a dot is an underscore.
-/

namespace SoapKit.Rust

/-- The names of the fields of a record. -/
def Item.fieldNames : Item → List String
  | .record _ _ _ _ fields => fields.map (·.name)
  | _ => []

/-- The methods in a block of methods. -/
def Item.members : Item → List Function
  | .methods _ _ members => members
  | _ => []

/-- The name of a parameter. -/
def Param.name : Param → String
  | .self | .refSelf => "self"
  | .typed name _ => name

end SoapKit.Rust

namespace SoapKit.Client

open Naming
open Rust (Ident Param Stmt Function Item)
open Wsdl (QName Definitions)

variable {s : Setting} {bench bench' : Workbench}

/-! ## Fields -/

/-- What the field for the text of a type is called. -/
def textBases (type : Wsdl.ComplexType) : List String :=
  ((type.derivation.filter (·.content == .simple)).map fun _ => "value").toList

/-- What the fields of a record are called in the description: attributes, text, elements. -/
def fieldBases (defs : Definitions) (record : Record) : Except Error (List String) := do
  let attributes ← attributesOf defs record.type
  let elements ← elementsOf defs record
  return attributes.entries.map (fun use => underscore use.1.base) ++ textBases record.type ++
    elements.map fun element => underscore element.name.base

/-- Fields are called after names that were handed out for their bases. -/
structure NamesFields (taken taken' : FreshNames) (bases : List String) (fields : List Field) :
    Prop where
  idents : fields.map (·.ident) = (taken.allocateAll bases).1.map Ident.ofName
  taken : taken' = (taken.allocateAll bases).2

namespace NamesFields

variable {taken taken' taken'' : FreshNames} {bases others : List String}
  {fields fields' : List Field}

theorem append (h : NamesFields taken taken' bases fields)
    (h' : NamesFields taken' taken'' others fields') :
    NamesFields taken taken'' (bases ++ others) (fields ++ fields') where
  idents := by
    rw [List.map_append, h.idents, h'.idents, h.taken, FreshNames.allocateAll_append,
      List.map_append]
  taken := by rw [h'.taken, h.taken, FreshNames.allocateAll_append]

theorem cons {base : String} {source : FieldSource}
    (h : NamesFields (fieldIdent taken base).2 taken' bases fields) :
    NamesFields taken taken' (base :: bases) (⟨(fieldIdent taken base).1, source⟩ :: fields) where
  idents := by
    rw [List.map_cons, h.idents]
    rfl
  taken := h.taken

end NamesFields

theorem attributeFields_names {taken taken' : FreshNames}
    {uses : List (QName × Wsdl.Attribute × Wsdl.Attribute)} {fields : List Field}
    (h : attributeFields s taken uses bench = .ok ((fields, taken'), bench')) :
    NamesFields taken taken' (uses.map fun use => underscore use.1.base) fields := by
  induction uses generalizing taken fields bench with
  | nil =>
    cases h
    exact ⟨rfl, rfl⟩
  | cons use rest ih =>
    obtain ⟨name, use, declared⟩ := use
    obtain ⟨written, bench₁, -, hrest⟩ := writing_ite_bind_eq_ok.1 h
    obtain ⟨⟨others, _⟩, bench₂, hothers, heq⟩ := writing_bind_eq_ok.1 hrest
    cases heq
    exact (ih hothers).cons

theorem valueFields_names (s : Setting) (taken : FreshNames) (type : Wsdl.ComplexType) :
    NamesFields taken (valueFields s taken type).2 (textBases type)
      (valueFields s taken type).1 := by
  unfold valueFields textBases
  cases type.derivation.filter (·.content == .simple) with
  | none => exact ⟨rfl, rfl⟩
  | some derivation => exact ⟨rfl, rfl⟩

theorem elementFields_names {taken : FreshNames} {elements : List Wsdl.Element}
    {fields : List Field} (h : elementFields s taken elements bench = .ok (fields, bench')) :
    ∃ taken', NamesFields taken taken' (elements.map fun element => underscore element.name.base)
      fields := by
  induction elements generalizing taken fields bench with
  | nil =>
    cases h
    exact ⟨taken, rfl, rfl⟩
  | cons element rest ih =>
    obtain ⟨kind, bench₁, -, hrest⟩ := writing_bind_eq_ok.1 h
    obtain ⟨written, bench₂, -, hrest⟩ := writing_ite_bind_eq_ok.1 hrest
    obtain ⟨others, bench₃, hothers, heq⟩ := writing_bind_eq_ok.1 hrest
    cases heq
    obtain ⟨taken', hnames⟩ := ih hothers
    exact ⟨taken', hnames.cons⟩

/-- The fields of a record share one scope of names. -/
theorem fieldsOf_names {record : Record} {fields : List Field}
    (h : fieldsOf s record bench = .ok (fields, bench')) :
    ∃ bases names, fieldBases s.defs record = .ok bases ∧
      HandedOut [] bases names (fields.map fun field => field.ident.text) := by
  obtain ⟨uses, attributes, taken, elements, found, bench₁, huses, hattributes, helements, hfound,
    rfl⟩ := fieldsOf_steps h
  obtain ⟨taken', hnames⟩ := elementFields_names hfound
  have hall := ((attributeFields_names hattributes).append (valueFields_names s taken _)).append
    hnames
  have hidents := congrArg (List.map Ident.text) hall.idents
  rw [List.map_map, List.map_map] at hidents
  have hhanded := handedOut_allocateAll List.nodup_nil
    (uses.entries.map (fun use => underscore use.1.base) ++ textBases record.type ++
      elements.map fun element => underscore element.name.base)
  refine ⟨_, _, ?_, hhanded.variants, hhanded.nodup, hidents⟩
  rw [fieldBases, huses, helements]
  rfl

/-! ## Parameters -/

theorem writeParts_names {taken : FreshNames} {parts : List Wsdl.Part} {params : List Param}
    {statements : List Stmt}
    (h : writeParts s taken parts bench = .ok ((params, statements), bench')) :
    params.map Param.name =
      (taken.allocateAll (parts.map fun part => underscore part.name)).1.map
        fun name => (Ident.ofName name).text := by
  induction parts generalizing taken params statements bench with
  | nil =>
    cases h
    rfl
  | cons part rest ih =>
    obtain ⟨⟨written, kind⟩, bench₁, -, hrest⟩ := writing_bind_eq_ok.1 h
    obtain ⟨statement, bench₂, -, hrest⟩ := writing_bind_eq_ok.1 hrest
    obtain ⟨⟨others, statements'⟩, bench₃, hothers, heq⟩ := writing_bind_eq_ok.1 hrest
    cases heq
    rw [List.map_cons, ih hothers]
    rfl

/-- The parameters of a method behind the object itself are called after names that were handed out
for the parts of a message, and none of them like the object. -/
structure NamesParams (operation : PlannedOperation) (names : List String) (method : Function) :
    Prop where
  object : ∃ params, method.params = .refSelf :: params
  handedOut : HandedOut ["self", "message"] (operation.parts.map fun part => underscore part.name)
    names (method.params.map Param.name).tail

theorem NamesParams.self_not_mem {operation : PlannedOperation} {names : List String}
    {method : Function} (h : NamesParams operation names method) :
    "self" ∉ (method.params.map Param.name).tail :=
  fun hmem => h.handedOut.not_mem_forbidden hmem (by decide)

theorem NamesParams.nodup {operation : PlannedOperation} {names : List String} {method : Function}
    (h : NamesParams operation names method)
    (hparts : ∀ part ∈ operation.parts, Ident.isOrdinary (underscore part.name) = true) :
    (method.params.map Param.name).Nodup := by
  obtain ⟨params, hparams⟩ := h.object
  have hself := h.self_not_mem
  have hnodup := h.handedOut.nodup_idents (List.forall_mem_map.2 hparts)
  rw [hparams] at hself hnodup ⊢
  exact List.nodup_cons.2 ⟨hself, hnodup⟩

theorem writeOperation_names {operation : PlannedOperation} {methods : List Function}
    (h : writeOperation s operation bench = .ok (methods, bench')) :
    ∃ names, ∀ method ∈ methods, NamesParams operation names method := by
  obtain ⟨root, bench₁, -, hrest⟩ := writing_bind_eq_ok.1 h
  obtain ⟨heading, bench₂, -, hrest⟩ := writing_bind_eq_ok.1 hrest
  obtain ⟨⟨params, parts⟩, bench₃, hparts, heq⟩ := writing_bind_eq_ok.1 hrest
  cases heq
  have hnames := writeParts_names hparts
  have hreserved : ["self", "message"].Nodup := by decide
  have hhanded := handedOut_allocateAll hreserved
    (operation.parts.map fun part => underscore part.name)
  refine ⟨(takenByMethods.allocateAll
    (operation.parts.map fun part => underscore part.name)).1, fun method hmethod => ?_⟩
  have hparams : method.params = .refSelf :: params := by
    simp only [methodsOf, List.mem_cons, List.not_mem_nil, or_false] at hmethod
    rcases hmethod with rfl | rfl <;> rfl
  refine ⟨⟨params, hparams⟩, hhanded.variants, hhanded.nodup, ?_⟩
  rw [hparams, List.map_cons, List.tail_cons, hnames]

/-! ## Clients -/

/-- The methods of a client that are for its operations. -/
def HoldsMethods (plan : Plan) (items : List Item) (methods : List Function) : Prop :=
  Item.methods [freeParam "T", hooksParam "H"]
    (.of (serviceIdent plan.name).text [.single "T", .single "H"]) methods ∈ items

/-- The methods of a client are written for one operation after the other. -/
theorem exists_methods {defs : Definitions} {service : Option String} {name : QName}
    {items : List Item} (h : compile defs service name = .ok items) :
    ∃ plan layouts methods bench, Compiled defs service name items plan layouts ∧
      HoldsMethods plan items methods.flatten ∧
      plan.operations.mapM (writeOperation ⟨defs, plan.isEncoded⟩)
        (.start defs [(serviceIdent plan.name).text]) = .ok (methods, bench) := by
  obtain ⟨binding, plan, bench, hbinding, hplan, hclient⟩ := compile_eq_ok h
  obtain ⟨layouts, hcompletes, -, hwrites⟩ := writeClient_eq_ok hclient
  obtain ⟨methods, records, bench₁, bench₂, hmethods, -, -, rfl⟩ := writeClient_steps hclient
  exact ⟨plan, layouts, methods, bench₁, ⟨⟨binding, hbinding, hplan⟩, hcompletes, hwrites⟩,
    List.mem_append_left _ (by simp [clientItems]), hmethods⟩

/-- Fields of records and parameters of methods are called after different names. They have
different identifiers where these names are ordinary. -/
theorem compile_memberNames {defs : Definitions} {service : Option String} {name : QName}
    {items : List Item} (h : compile defs service name = .ok items) :
    ∃ plan layouts methods, Compiled defs service name items plan layouts ∧
      (∀ index layout, layouts[index]? = some layout →
        recordItem layouts index layout ∈ items ∧
        ∃ bases names, fieldBases defs layout.record = .ok bases ∧
          HandedOut [] bases names (recordItem layouts index layout).fieldNames ∧
          ((names.filter Ident.isOrdinary).map fun name => (Ident.ofName name).text).Nodup ∧
          ((∀ base ∈ bases, Ident.isOrdinary base = true) →
            (recordItem layouts index layout).fieldNames.Nodup)) ∧
      HoldsMethods plan items methods.flatten ∧
      List.Forall₂ (fun operation pair => ∃ names, ∀ method ∈ pair,
        NamesParams operation names method ∧ "self" ∉ (method.params.map Param.name).tail ∧
          ((names.filter Ident.isOrdinary).map fun name => (Ident.ofName name).text).Nodup ∧
          ((∀ part ∈ operation.parts, Ident.isOrdinary (underscore part.name) = true) →
            (method.params.map Param.name).Nodup)) plan.operations methods := by
  obtain ⟨plan, layouts, methods, bench, hcompiled, hblock, hmethods⟩ := exists_methods h
  refine ⟨plan, layouts, methods, hcompiled, fun index layout hlayout => ?_, hblock, ?_⟩
  · refine ⟨hcompiled.writes.recordItem_mem hlayout, ?_⟩
    obtain ⟨bases, names, hbases, hhanded⟩ := hcompiled.completes.forall_fields fieldsOf_names
      layout (List.mem_of_getElem? hlayout)
    have hfields : (recordItem layouts index layout).fieldNames =
        layout.fields.map fun field => field.ident.text := by
      simp [recordItem, Item.fieldNames]
    rw [hfields]
    exact ⟨bases, names, hbases, hhanded, hhanded.nodup_filter, hhanded.nodup_idents⟩
  · have hall : List.Forall₂ (fun operation pair => ∃ names, ∀ method ∈ pair,
        NamesParams operation names method) plan.operations methods := by
      refine writing_mapM_eq_ok ?_ hmethods
      exact fun _ _ _ _ => writeOperation_names
    refine hall.imp ?_
    rintro operation pair ⟨names, hnames⟩
    exact ⟨names, fun method hmethod =>
      ⟨hnames method hmethod, (hnames method hmethod).self_not_mem,
        (hnames method hmethod).handedOut.nodup_filter, (hnames method hmethod).nodup⟩⟩

/-! ## Names that differ in a mark -/

/-- An attribute that is declared in a type. -/
def localAttribute (base : String) : Wsdl.Attribute :=
  { name := linkedName base, isReference := false, typeName := none, definition := none
    default := none, fixed := none, usage := .optional }

/-- A description of one operation, which sends two values of a type with some attributes and an
element. -/
def marked (parts attributes : List String) (element : String) : Definitions :=
  { Definitions.empty with
    messages := ⟨[(linkedName "Ask", ⟨linkedName "Ask",
      parts.map fun part => ⟨part, .type (linkedName "Entry")⟩⟩)]⟩
    interfaces := linked.interfaces
    bindings := linked.bindings
    types := ⟨[(linkedName "Entry", .complex
      { linkedType element "Text" with attributes := attributes.map localAttribute })]⟩ }

/-- Names that are taken, that Rust uses itself, or that occur twice, get identifiers of their own.
-/
theorem compile_memberNames_of_taken :
    ∃ (items : List Item) (plan : Plan) (layouts : List Layout) (methods : List (List Function)),
    compile (marked ["self", "message", "Entry", "entry"] ["type", "Type", "id"] "id") none
      (linkedName "Soap") = .ok items ∧
    items.map Item.fieldNames =
      [[], ["dispatcher", "hooks"], [], [], [], ["r#type", "type_2", "id", "id_2"], []] ∧
    (∀ index layout, layouts[index]? = some layout → ∃ bases names,
      HandedOut [] bases names (recordItem layouts index layout).fieldNames) ∧
    HoldsMethods plan items methods.flatten ∧
    ∀ pair ∈ methods, ∀ method ∈ pair, "self" ∉ (method.params.map Param.name).tail := by
  have hfields : (compile (marked ["self", "message", "Entry", "entry"] ["type", "Type", "id"] "id")
      none (linkedName "Soap")).toOption.map (List.map Item.fieldNames) =
        some [[], ["dispatcher", "hooks"], [], [], [], ["r#type", "type_2", "id", "id_2"], []] := by
    decide +kernel
  obtain ⟨items, hitems, heq⟩ := Option.map_eq_some_iff.1 hfields
  obtain ⟨plan, layouts, methods, -, hrecords, hblock, hmethods⟩ :=
    compile_memberNames (toOption_eq_some.1 hitems)
  refine ⟨items, plan, layouts, methods, toOption_eq_some.1 hitems, heq, ?_, hblock, ?_⟩
  · intro index layout hlayout
    obtain ⟨-, bases, names, -, hhanded, -⟩ := hrecords index layout hlayout
    exact ⟨bases, names, hhanded⟩
  · intro pair hpair method hmethod
    obtain ⟨operation, -, names, hnames⟩ := exists_mem_of_forall₂ hmethods hpair
    exact (hnames method hmethod).2.1

/-- Two fields of a record, and two parameters of a method, can have the same identifier. -/
theorem not_nodup_fieldNames : ∃ items,
    compile (marked ["first.part", "first_part"] ["a.b", "a_b"] "id") none (linkedName "Soap") =
      .ok items ∧
    (∃ item ∈ items, ¬item.fieldNames.Nodup) ∧
    ∃ item ∈ items, ∃ method ∈ item.members, ¬(method.params.map Param.name).Nodup := by
  have hnames : (compile (marked ["first.part", "first_part"] ["a.b", "a_b"] "id") none
      (linkedName "Soap")).toOption.map (fun items =>
        (items.any fun item => !decide item.fieldNames.Nodup) && (items.any fun item =>
          item.members.any fun method => !decide (method.params.map Param.name).Nodup)) =
      some true := by
    decide +kernel
  obtain ⟨items, hitems, heq⟩ := Option.map_eq_some_iff.1 hnames
  exact ⟨items, toOption_eq_some.1 hitems, by simpa using heq⟩

end SoapKit.Client
