import SoapKit.Proofs.Client.Legality

/-!
# Types that clients mention

Most types in a client have paths from the names of crates. By themselves it mentions its own type
and its records, primitive types, and a few types and type parameters that everyone calls so
(`writeClient_mentions`).

Which record a value is written by is known from the layouts (`IsKindOf`). That simple values have
types of the language or of texts is a matter of the schema types that they are made from
(`ValueType.IsKnown`), so this is seen from what each step makes.
-/

namespace SoapKit.Rust

/-! ## Mentioned types -/

mutual

/-- The names that a type mentions by themselves. -/
@[simp] def Ty.mentions : Ty → List String
  | .named path args => path.plainName ++ Ty.mentionsOfAll args
  | .ref _ target => target.mentions
  | .slice item => item.mentions

/-- The names that types mention. -/
@[simp] def Ty.mentionsOfAll : List Ty → List String
  | [] => []
  | first :: rest => first.mentions ++ Ty.mentionsOfAll rest

end

/-- The names that the type of a parameter mentions. -/
@[simp] def Param.mentions : Param → List String
  | .self | .refSelf => []
  | .typed _ type => type.mentions

/-- The names that the bound and the default of a type parameter mention. -/
@[simp] def TypeParam.mentions (param : TypeParam) : List String :=
  param.bound.toList.flatMap Path.plainName ++ param.fallback.toList.flatMap Ty.mentions

/-- The names that the types of a function mention. -/
@[simp] def Function.mentions (function : Function) : List String :=
  function.typeParams.flatMap TypeParam.mentions ++ function.params.flatMap Param.mentions ++
    function.result.toList.flatMap Ty.mentions ++
    function.bound.toList.flatMap fun bound => bound.1 :: bound.2.plainName

/-- The names that the types of an item mention. -/
@[simp] def Item.mentions : Item → List String
  | .constant _ _ type _ => type.mentions
  | .record _ _ _ typeParams fields =>
    typeParams.flatMap TypeParam.mentions ++ fields.flatMap (·.type.mentions)
  | .methods typeParams target members =>
    typeParams.flatMap TypeParam.mentions ++ target.mentions ++ members.flatMap Function.mentions
  | .function code => code.mentions

theorem Ty.mentions_single (name : String) : (Ty.single name).mentions = [name] := rfl

theorem Ty.mentions_root (names : List String) : (Ty.root names).mentions = [] := rfl

theorem Ty.mentions_of (name : String) (arg : Ty) :
    (Ty.of name [arg]).mentions = name :: arg.mentions := by
  simp [Ty.of, Path.single, Path.plainName]

end SoapKit.Rust

namespace SoapKit.Client

open Naming
open Rust
open Wsdl (QName Definitions)

variable {α : Type} {s : Setting} {bench bench' : Workbench} {layouts layouts' : List Layout}

/-- The types and type parameters that a client mentions by names that anyone may use. -/
def commonNames : List String := ["Result", "Option", "Vec", "Box", "String", "T", "H", "G"]

/-- The names of types that the language keeps for itself, or that are in small letters. -/
def languageNames : List String :=
  ["bool", "i8", "i16", "i32", "i64", "u8", "u16", "u32", "u64", "f32", "f64", "str", "Self"]

/-! ## Values -/

/-- The primitive types in the type of a value are those of the language. -/
def ValueType.IsKnown : ValueType → Prop
  | .primitive name => name ∈ languageNames
  | .text => True
  | .list item => item.IsKnown

theorem isKnown_builtInType (name : String) : (builtInType name).IsKnown := by
  unfold builtInType
  split <;> simp [ValueType.IsKnown, languageNames]

theorem isKnown_definedType {named : QName → ValueType} (h : ∀ name, (named name).IsKnown)
    (definition : Wsdl.TypeDefinition) : (definedType named definition).IsKnown := by
  cases definition with
  | simple type => exact h _
  | list type => exact h _
  | union | complex => trivial

theorem isKnown_valueType (defs : Definitions) (name : QName) : (valueType defs name).IsKnown := by
  have hwithin : ∀ levels name, (typeWithin defs levels name).IsKnown := by
    intro levels
    induction levels with
    | zero =>
      intro name
      unfold typeWithin
      split
      · exact isKnown_builtInType _
      · trivial
    | succ levels ih =>
      intro name
      unfold typeWithin
      split
      · exact isKnown_builtInType _
      · split
        · next heq _ =>
          cases heq
          exact isKnown_definedType ih _
        · trivial
  exact hwithin _ _

theorem isKnown_declaredType (defs : Definitions) (name : Option QName)
    (definition : Option Wsdl.TypeDefinition) : (declaredType defs name definition).IsKnown := by
  unfold declaredType
  split
  · exact isKnown_valueType _ _
  · exact isKnown_definedType (isKnown_valueType defs) _
  · trivial

/-- Simple values of a kind are of known types. -/
def ValueKind.IsKnown : ValueKind → Prop
  | .simple type _ => type.IsKnown
  | .complex .. => True

theorem register_makesKnown (record : Record) : Makes ValueKind.IsKnown (register record) := by
  intro bench kind bench' h
  unfold register at h
  split at h
  · split at h
    · cases h
      trivial
    · cases h
  · simp only at h
    split at h
    · cases h
    · cases h
      trivial

theorem kindOfType_makesKnown (s : Setting) (name : QName) :
    Makes ValueKind.IsKnown (kindOfType s name) := by
  have hregister : Makes (fun found => ∀ kind ∈ found, ValueKind.IsKnown kind)
      (registerType s name) := by
    unfold registerType
    split
    · rw [map_eq_pure_bind]
      exact (register_makesKnown _).bind fun kind hkind =>
        .pure fun _ hmem => Option.some.inj hmem ▸ hkind
    · exact .pure fun _ hmem => nomatch hmem
  refine hregister.bind fun found hfound => ?_
  cases found with
  | some kind => exact .pure (hfound kind rfl)
  | none => exact .pure (isKnown_valueType _ _)

theorem kindOfGlobal_makesKnown (s : Setting) (element : Wsdl.Element) :
    Makes ValueKind.IsKnown (kindOfGlobal s element) := by
  unfold kindOfGlobal
  split
  · exact kindOfType_makesKnown s _
  · exact register_makesKnown _
  · exact .pure (isKnown_definedType (isKnown_valueType s.defs) _)
  · exact .pure trivial

theorem kindOfLocal_makesKnown (s : Setting) (element : Wsdl.Element) :
    Makes ValueKind.IsKnown (kindOfLocal s element) := by
  unfold kindOfLocal
  split
  · exact (Makes.any _).bind fun declared _ => kindOfGlobal_makesKnown s declared
  · split
    · intro bench kind bench' h
      cases h
    · split
      · exact kindOfType_makesKnown s _
      · exact .pure trivial

theorem kindOfPart_makesKnown (s : Setting) (part : Wsdl.Part) :
    Makes (fun made => ValueKind.IsKnown made.2) (kindOfPart s part) := by
  unfold kindOfPart
  split
  · exact (kindOfType_makesKnown s _).bind fun kind hkind => .pure hkind
  · exact (Makes.any _).bind fun element _ => (Makes.any _).bind fun written _ =>
      (kindOfGlobal_makesKnown s element).bind fun kind hkind => .pure hkind

/-! ## Names of types -/

/-- The names of a client's type and of its records. -/
def ownNames (service : String) (layouts : List Layout) : List String :=
  service :: layouts.map fun layout => layout.ident.text

/-- Names are ones that the types of a client may mention: common ones, those of the language, and
those of the client's own types. -/
def Mentionable (own words : List String) : Prop :=
  ∀ word ∈ words, word ∈ commonNames ∨ word ∈ languageNames ∨ word ∈ own

section Mentionable

variable {own own' words words' : List String} {word : String}

theorem mentionable_nil : Mentionable own [] :=
  fun _ h => nomatch h

theorem mentionable_append :
    Mentionable own (words ++ words') ↔ Mentionable own words ∧ Mentionable own words' :=
  List.forall_mem_append

theorem mentionable_cons_iff : Mentionable own (word :: words) ↔
    (word ∈ commonNames ∨ word ∈ languageNames ∨ word ∈ own) ∧ Mentionable own words :=
  List.forall_mem_cons

theorem mentionable_flatMap {xs : List α} {f : α → List String}
    (h : ∀ x ∈ xs, Mentionable own (f x)) : Mentionable own (xs.flatMap f) := by
  intro word hword
  obtain ⟨x, hx, hword⟩ := List.mem_flatMap.1 hword
  exact h x hx word hword

theorem mentionable_common (h : word ∈ commonNames) (hwords : Mentionable own words) :
    Mentionable own (word :: words) :=
  mentionable_cons_iff.2 ⟨.inl h, hwords⟩

theorem mentionable_language (h : word ∈ languageNames) : Mentionable own [word] :=
  mentionable_cons_iff.2 ⟨.inr (.inl h), mentionable_nil⟩

theorem mentionable_own (h : word ∈ own) : Mentionable own [word] :=
  mentionable_cons_iff.2 ⟨.inr (.inr h), mentionable_nil⟩

theorem Mentionable.mono (h : Mentionable own words) (hown : own ⊆ own') :
    Mentionable own' words :=
  fun word hword => (h word hword).imp_right (Or.imp_right fun hmem => hown hmem)

theorem mentionable_owned {type : ValueType} (h : type.IsKnown) :
    Mentionable own type.owned.mentions := by
  induction type with
  | primitive name => exact mentionable_language h
  | text => exact mentionable_common (by decide) mentionable_nil
  | list item ih =>
    rw [ValueType.owned, Ty.mentions_of]
    exact mentionable_common (by decide) (ih h)

theorem mentionable_borrowed {type : ValueType} (h : type.IsKnown) :
    Mentionable own type.borrowed.mentions := by
  cases type with
  | primitive name => exact mentionable_language h
  | text => exact mentionable_language (by decide)
  | list item =>
    have hitem : item.IsKnown := h
    exact mentionable_owned hitem

end Mentionable

section Kinds

variable {service : String} {record? : Option Record} {kind : ValueKind}

theorem ownNames_subset (h : Kept layouts layouts') :
    ownNames service layouts ⊆ ownNames service layouts' := by
  have hbare : ∀ layouts : List Layout, (layouts.map fun layout => layout.ident.text) =
      (layouts.map Layout.bare).map fun layout => layout.ident.text := by
    intro layouts
    rw [List.map_map]
    rfl
  refine List.cons_subset_cons service ?_
  rw [hbare layouts, hbare layouts']
  exact (h.map _).subset

theorem IsKindOf.ident_mem (h : IsKindOf layouts record? kind) {index : Nat}
    {record writer : Ident} (hkind : kind = .complex index record writer) :
    record.text ∈ ownNames service layouts := by
  cases h with
  | simple => cases hkind
  | complex hlayout _ =>
    cases hkind
    exact List.mem_cons_of_mem _ (List.mem_map_of_mem (List.mem_of_getElem? hlayout))

theorem IsKindOf.mentionable_owned (h : IsKindOf layouts record? kind) (hknown : kind.IsKnown) :
    Mentionable (ownNames service layouts) kind.owned.mentions := by
  cases kind with
  | simple type announced => exact Client.mentionable_owned hknown
  | complex index record writer => exact mentionable_own (h.ident_mem rfl)

theorem IsKindOf.mentionable_borrowed (h : IsKindOf layouts record? kind)
    (hknown : kind.IsKnown) :
    Mentionable (ownNames service layouts) kind.borrowed.mentions := by
  cases kind with
  | simple type announced => exact Client.mentionable_borrowed hknown
  | complex index record writer => exact mentionable_own (h.ident_mem rfl)

end Kinds

/-! ## Operations -/

section Operations

variable {service : String}

theorem writeParts_mentions {taken : FreshNames} {parts : List Wsdl.Part} {params : List Param}
    {statements : List Stmt}
    (h : writeParts s taken parts bench = .ok ((params, statements), bench')) :
    Mentionable (ownNames service bench'.layouts) (params.flatMap Param.mentions) := by
  induction parts generalizing taken params statements bench with
  | nil =>
    cases h
    exact mentionable_nil
  | cons part rest ih =>
    obtain ⟨⟨written, kind⟩, bench₁, hkind, hrest⟩ := writing_bind_eq_ok.1 h
    obtain ⟨statement, bench₂, hstatement, hrest⟩ := writing_bind_eq_ok.1 hrest
    obtain ⟨⟨others, statements'⟩, bench₃, hothers, heq⟩ := writing_bind_eq_ok.1 hrest
    cases heq
    have hkept := (writeValue_eq_ok hstatement).1.kept.trans (writeParts_eq_ok hothers).1.kept
    have hisKind := (kindOfPart_eq_ok hkind).2.mono hkept
    exact mentionable_append.2
      ⟨hisKind.mentionable_borrowed (kindOfPart_makesKnown s part hkind), ih hothers⟩

/-- Methods mention types of the client only by names that it may mention. -/
def MethodsMention (service : String) (layouts : List Layout) (methods : List Function) : Prop :=
  ∀ method ∈ methods, Mentionable (ownNames service layouts) method.mentions

theorem MethodsMention.mono {methods : List Function} (h : MethodsMention service layouts methods)
    (hkept : Kept layouts layouts') : MethodsMention service layouts' methods :=
  fun method hmethod => (h method hmethod).mono (ownNames_subset hkept)

theorem writeOperation_mentions {operation : PlannedOperation} {methods : List Function}
    (h : writeOperation s operation bench = .ok (methods, bench')) :
    MethodsMention service bench'.layouts methods := by
  obtain ⟨root, bench₁, -, hrest⟩ := writing_bind_eq_ok.1 h
  obtain ⟨heading, bench₂, -, hrest⟩ := writing_bind_eq_ok.1 hrest
  obtain ⟨⟨params, parts⟩, bench₃, hparts, heq⟩ := writing_bind_eq_ok.1 hrest
  cases heq
  have hwords : Mentionable (ownNames service bench'.layouts)
      (params.flatMap Param.mentions ++ ["Result", "T"]) := by
    refine mentionable_append.2 ⟨writeParts_mentions hparts, ?_⟩
    exact mentionable_common (by decide) (mentionable_common (by decide) mentionable_nil)
  intro method hmethod
  simp only [methodsOf, List.mem_cons, List.not_mem_nil, or_false] at hmethod
  rcases hmethod with rfl | rfl
  all_goals
    simpa [resultType, Ty.of, soapType, soapPath, Path.single, Path.root, Path.plainName, Ty.root,
      transportPath, asyncTransportPath] using hwords

end Operations

/-! ## Fields -/

/-- The values in a field are of known types. -/
def FieldSource.IsKnown : FieldSource → Prop
  | .attribute _ type _ => type.IsKnown
  | .value type => type.IsKnown
  | .element _ kind _ => kind.IsKnown

/-- The values in fields are of known types. -/
def AllKnown (fields : List Field) : Prop :=
  ∀ field ∈ fields, field.source.IsKnown

theorem attributeFields_makesKnown (s : Setting) (taken : FreshNames)
    (uses : List (QName × Wsdl.Attribute × Wsdl.Attribute)) :
    Makes (fun made => AllKnown made.1) (attributeFields s taken uses) := by
  induction uses generalizing taken with
  | nil => exact .pure fun _ h => nomatch h
  | cons use rest ih =>
    obtain ⟨name, use, declared⟩ := use
    have hknown := isKnown_declaredType s.defs declared.typeName declared.definition
    unfold attributeFields
    simp only
    split
    · exact (Makes.any _).bind fun written _ => (ih _).bind fun others hothers =>
        .pure (List.forall_mem_cons.2 ⟨hknown, hothers⟩)
    · exact (Makes.any _).bind fun written _ => (ih _).bind fun others hothers =>
        .pure (List.forall_mem_cons.2 ⟨hknown, hothers⟩)

theorem allKnown_valueFields (s : Setting) (taken : FreshNames) (type : Wsdl.ComplexType) :
    AllKnown (valueFields s taken type).1 := by
  unfold valueFields
  split
  · exact List.forall_mem_singleton.2 (isKnown_valueType _ _)
  · exact fun _ h => nomatch h

theorem elementFields_makesKnown (s : Setting) (taken : FreshNames)
    (elements : List Wsdl.Element) : Makes AllKnown (elementFields s taken elements) := by
  induction elements generalizing taken with
  | nil => exact .pure fun _ h => nomatch h
  | cons element rest ih =>
    refine (kindOfLocal_makesKnown s element).bind fun kind hkind => ?_
    have hrest (field : Field) (hfield : field.source.IsKnown) (taken : FreshNames) :
        Makes AllKnown (do return field :: (← elementFields s taken rest)) :=
      (ih taken).bind fun others hothers => .pure (List.forall_mem_cons.2 ⟨hfield, hothers⟩)
    simp only
    split
    · exact (Makes.any _).bind fun written _ => hrest ⟨_, .element written kind _⟩ hkind _
    · exact (Makes.any _).bind fun written _ => hrest ⟨_, .element written kind _⟩ hkind _

theorem fieldsOf_makesKnown (s : Setting) (record : Record) :
    Makes AllKnown (fieldsOf s record) := by
  refine (Makes.any _).bind fun uses _ => ?_
  refine (attributeFields_makesKnown s _ _).bind fun (attributes, taken) hattributes => ?_
  refine (Makes.any _).bind fun elements _ => ?_
  refine (elementFields_makesKnown s _ _).bind fun found hfound => .pure ?_
  exact List.forall_mem_append.2
    ⟨List.forall_mem_append.2 ⟨hattributes, allKnown_valueFields s _ _⟩, hfound⟩

/-! ## Records -/

section Records

variable {service : String} {layout : Layout}

theorem mentionable_fieldType {field : Field} (hknown : field.source.IsKnown)
    (hkind : ∀ kind ∈ field.kind?, ∃ record?, IsKindOf layouts record? kind) (boxed : Bool) :
    Mentionable (ownNames service layouts) (fieldType field boxed).mentions := by
  obtain ⟨ident, source⟩ := field
  have hwrapped : ∀ (word : String) (type : Ty), word ∈ commonNames →
      Mentionable (ownNames service layouts) type.mentions →
      Mentionable (ownNames service layouts) (Ty.of word [type]).mentions := by
    intro word type hword htype
    rw [Ty.mentions_of]
    exact mentionable_common hword htype
  cases source with
  | «attribute» written type isRequired =>
    cases isRequired with
    | true => exact mentionable_owned hknown
    | false => exact hwrapped _ _ (by decide) (mentionable_owned hknown)
  | value type => exact mentionable_owned hknown
  | element written kind wrapper =>
    obtain ⟨record?, hisKind⟩ := hkind kind rfl
    have howned : Mentionable (ownNames service layouts) kind.owned.mentions :=
      hisKind.mentionable_owned hknown
    have hboxed : Mentionable (ownNames service layouts)
        (if boxed then Ty.of "Box" [kind.owned] else kind.owned).mentions := by
      split
      · exact hwrapped _ _ (by decide) howned
      · exact howned
    cases wrapper with
    | one => exact hboxed
    | option => exact hwrapped _ _ (by decide) hboxed
    | many => exact hwrapped _ _ (by decide) hboxed

theorem Filled.exists_kindOf {defs : Definitions} {record : Record} {fields : List Field}
    (h : Filled defs layouts record fields) {field : Field} (hfield : field ∈ fields) :
    ∀ kind ∈ field.kind?, ∃ record?, IsKindOf layouts record? kind := by
  intro kind hkind
  obtain ⟨elements, -, hkinds⟩ := h
  obtain ⟨element, -, hisKind⟩ :=
    exists_mem_of_forall₂ hkinds (List.mem_filterMap.2 ⟨field, hfield, hkind⟩)
  exact ⟨_, hisKind⟩

theorem mentionable_recordItem {defs : Definitions} {index : Nat}
    (hfilled : Filled defs layouts layout.record layout.fields) (hknown : AllKnown layout.fields) :
    Mentionable (ownNames service layouts) (recordItem layouts index layout).mentions := by
  refine mentionable_append.2 ⟨mentionable_nil, ?_⟩
  rw [List.flatMap_map]
  exact mentionable_flatMap fun field hfield =>
    mentionable_fieldType (hknown field hfield) (hfilled.exists_kindOf hfield) _

theorem writerFunction_mentions (s : Setting) (layout : Layout) :
    Makes (fun writer => writer.mentions = [layout.ident.text]) (writerFunction s layout) := by
  refine (Makes.any _).bind fun heading _ => (Makes.any _).bind fun fields _ => .pure ?_
  simp [elementType, Ty.mentions_root, Ty.mentions_single]

theorem writeRecords_mentions {defs : Definitions}
    (hfilled : ∀ layout ∈ layouts, Filled defs layouts layout.record layout.fields)
    (hknown : ∀ layout ∈ layouts, AllKnown layout.fields) :
    Makes (fun items => ∀ item ∈ items, Mentionable (ownNames service layouts) item.mentions)
      (writeRecords s layouts) := by
  refine .writeRecords (fun layout hlayout index => ?_) fun layout hlayout => ?_
  · exact mentionable_recordItem (hfilled layout hlayout) (hknown layout hlayout)
  · intro bench writer bench' h
    rw [Item.mentions, writerFunction_mentions s layout h]
    exact mentionable_own (List.mem_cons_of_mem _ (List.mem_map_of_mem hlayout))

end Records

/-! ## Clients -/

theorem mentionable_clientItems (plan : Plan) (aliases : List (String × String))
    {methods : List Function} {own : List String} (hown : (serviceIdent plan.name).text ∈ own)
    (h : ∀ method ∈ methods, Mentionable own method.mentions) :
    ∀ item ∈ clientItems plan aliases methods, Mentionable own item.mentions := by
  have hwords : Mentionable own ["T", "H", "G", "Self", (serviceIdent plan.name).text] := by
    refine mentionable_common (by decide) <| mentionable_common (by decide) <|
      mentionable_common (by decide) ?_
    exact mentionable_append.2 ⟨mentionable_language (by decide), mentionable_own hown⟩
  have hsome : ∀ words ⊆ ["T", "H", "G", "Self", (serviceIdent plan.name).text],
      Mentionable own words := fun words hsubset word hword => hwords word (hsubset hword)
  intro item hitem
  simp only [clientItems, List.mem_cons, List.not_mem_nil, or_false] at hitem
  rcases hitem with rfl | rfl | rfl | rfl | rfl
  · exact mentionable_nil
  · refine hsome _ ?_
    simp [serviceItem, freeParam, soapType, soapPath, Path.root, Path.plainName, Ty.mentions_single]
  · refine hsome _ ?_
    simp [constructors, freeParam, soapType, soapPath, Path.root, Path.plainName,
      Ty.mentions_single, Ty.mentions_of, plainMethod]
  · refine hsome _ ?_
    simp [accessors, freeParam, hooksParam, soapType, soapPath, Path.root, Path.plainName,
      Ty.mentions_single, Ty.of, Path.single, plainMethod]
  · refine mentionable_append.2 ⟨hsome _ ?_, mentionable_flatMap h⟩
    simp [freeParam, hooksParam, soapPath, Path.root, Path.plainName, Ty.of, Path.single,
      Ty.mentions_single]

/-- The types of a client mention common names, names of the language, and those of its own types.
-/
theorem writeClient_mentions {plan : Plan} {reserved : List String} {roots : List Record}
    {items : List Item} (hcompletes : Completes s plan reserved layouts)
    (hclosed : Closed s.defs roots layouts)
    (h : writeClient s plan (.start s.defs reserved) = .ok (items, bench')) :
    ∀ item ∈ items,
      Mentionable (ownNames (serviceIdent plan.name).text layouts) item.mentions := by
  have hknown : ∀ layout ∈ layouts, AllKnown layout.fields :=
    hcompletes.forall_fields fun hfields => fieldsOf_makesKnown s _ hfields
  obtain ⟨methods, records, bench₁, bench₂, hmethods, hcomplete, rfl, hrecords, rfl⟩ :=
    writeClient_completed hcompletes h
  have hkept : Kept bench₁.layouts bench₂.layouts :=
    (lasting_kept bench₁.layouts).completeFrom s _ _ .rfl hcomplete
  have hmentions := (mapM_grows (fun operation => operation.parts.filterMap (recordOfPart s.defs))
    (fun layouts _ => MethodsMention (serviceIdent plan.name).text layouts) MethodsMention.mono
    (fun h => ⟨(writeOperation_eq_ok h).1, writeOperation_mentions h⟩) hmethods).2
  refine List.forall_mem_append.2 ⟨mentionable_clientItems plan _ List.mem_cons_self
    fun method hmethod => ?_, writeRecords_mentions hclosed.filled hknown hrecords⟩
  obtain ⟨own, hown, hmethod⟩ := List.mem_flatten.1 hmethod
  obtain ⟨operation, -, hall⟩ := exists_mem_of_forall₂ hmentions hown
  exact hall.mono hkept method hmethod

end SoapKit.Client
