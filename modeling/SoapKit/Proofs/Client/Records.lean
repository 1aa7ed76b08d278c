import SoapKit.Client.Layouts
import SoapKit.Proofs.Discovery
import SoapKit.Proofs.Except

/-!
# Records of values

Which record a value is written by is a matter of the description alone: the complex type that a
part, a field or an element has names it. A step of writing meets some of these records. It adds
layouts for those whose names are new (`Grows`) and leaves the layouts before them as they are.
Later on layouts get their fields, but stay where they are (`Kept`), so that the kind of a value
goes on to point at a layout with the name of its record (`IsKindOf.mono`).
-/

namespace SoapKit.Client

open Wsdl (QName Definitions)

variable {α β : Type} {s : Setting} {bench bench' bench'' : Workbench}

/-! ## The records that are meant -/

/-- The record of a named type. -/
def recordOfType (defs : Definitions) (name : QName) : Option Record :=
  (defs.complexType? name).map fun type => ⟨name, false, type⟩

/-- The record of an element that is declared outside of types. -/
def recordOfGlobal (defs : Definitions) (element : Wsdl.Element) : Option Record :=
  match element.typeName, element.definition with
  | some name, _ => recordOfType defs name
  | none, some (.complex type) => some ⟨element.name, true, type⟩
  | none, _ => none

/-- The record of the element that is declared under a name. -/
def recordOfReference (defs : Definitions) (name : QName) : Option Record :=
  (defs.elements.get? name).bind fun element => recordOfGlobal defs { element with name }

/-- The record of a part of a message. -/
def recordOfPart (defs : Definitions) (part : Wsdl.Part) : Option Record :=
  match part.reference with
  | .type name => recordOfType defs name
  | .element name => recordOfReference defs name

/-- The record of an element in a type. -/
def recordOfLocal (defs : Definitions) (element : Wsdl.Element) : Option Record :=
  if element.isReference then recordOfReference defs element.name
  else element.typeName.bind (recordOfType defs)

/-- The records of the elements in a record, in their order. -/
def recordsIn (defs : Definitions) (record : Record) : List Record :=
  match elementsOf defs record with
  | .ok elements => elements.filterMap (recordOfLocal defs)
  | .error _ => []

/-- A record is that of a named type, or that of an element with a type in place. -/
inductive Declared (defs : Definitions) : Record → Prop
  | named {name : QName} {type : Wsdl.ComplexType} :
      defs.complexType? name = some type → Declared defs ⟨name, false, type⟩
  | inline {name : QName} {element : Wsdl.Element} {type : Wsdl.ComplexType} :
      defs.elements.get? name = some element → element.typeName = none →
      element.definition = some (.complex type) → Declared defs ⟨name, true, type⟩

section Declared

variable {defs : Definitions} {record : Record}

theorem declared_of_type {name : QName} (h : recordOfType defs name = some record) :
    Declared defs record := by
  obtain ⟨type, htype, rfl⟩ := Option.map_eq_some_iff.1 h
  exact .named htype

theorem declared_of_reference {name : QName} (h : recordOfReference defs name = some record) :
    Declared defs record := by
  obtain ⟨element, helement, h⟩ := Option.bind_eq_some_iff.1 h
  unfold recordOfGlobal at h
  split at h
  · exact declared_of_type h
  · next hname hdefinition =>
    cases h
    exact .inline helement hname hdefinition
  · cases h

theorem declared_of_part {part : Wsdl.Part} (h : recordOfPart defs part = some record) :
    Declared defs record := by
  unfold recordOfPart at h
  split at h
  · exact declared_of_type h
  · exact declared_of_reference h

theorem declared_of_local {element : Wsdl.Element} (h : recordOfLocal defs element = some record) :
    Declared defs record := by
  unfold recordOfLocal at h
  split at h
  · exact declared_of_reference h
  · obtain ⟨name, -, h⟩ := Option.bind_eq_some_iff.1 h
    exact declared_of_type h

end Declared

/-! ## Steps of writing -/

theorem writing_bind_eq_ok {w : Writing α} {f : α → Writing β} {b : β} :
    (w >>= f) bench = .ok (b, bench'') ↔
      ∃ a bench', w bench = .ok (a, bench') ∧ f a bench' = .ok (b, bench'') := by
  constructor
  · intro h
    obtain ⟨⟨a, bench'⟩, hw, hf⟩ := bind_eq_ok.1 h
    exact ⟨a, bench', hw, hf⟩
  · rintro ⟨a, bench', hw, hf⟩
    exact bind_eq_ok.2 ⟨(a, bench'), hw, hf⟩

theorem writing_map_eq_ok {w : Writing α} {f : α → β} {b : β} :
    (f <$> w) bench = .ok (b, bench') ↔ ∃ a, w bench = .ok (a, bench') ∧ f a = b := by
  rw [map_eq_pure_bind, writing_bind_eq_ok]
  constructor
  · rintro ⟨a, _, hw, h⟩
    cases h
    exact ⟨a, hw, rfl⟩
  · rintro ⟨a, hw, rfl⟩
    exact ⟨a, bench', hw, rfl⟩

theorem writing_lift_eq_ok {x : Except Error α} {a : α} :
    (liftM x : Writing α) bench = .ok (a, bench') ↔ x = .ok a ∧ bench' = bench := by
  cases x with
  | error e =>
    constructor
    · intro h
      cases h
    · rintro ⟨⟨⟩, -⟩
  | ok b =>
    constructor
    · intro h
      cases h
      exact ⟨rfl, rfl⟩
    · rintro ⟨⟨⟩, rfl⟩
      rfl

/-- A choice between two steps with the same continuation. -/
theorem writing_ite_bind_eq_ok {c : Prop} [Decidable c] {w w' : Writing α}
    {f : α → Writing β} {b : β} :
    (if c then w >>= f else w' >>= f) bench = .ok (b, bench') ↔
      ∃ a bench₁, (if c then w else w') bench = .ok (a, bench₁) ∧
        f a bench₁ = .ok (b, bench') := by
  split <;> exact writing_bind_eq_ok

/-! ## Growth -/

/-- The records that have layouts, in order. -/
def Workbench.records (bench : Workbench) : List Record :=
  bench.layouts.map (·.record)

/-- A step has met some records: those with new names were added, and nothing else has changed. -/
structure Grows (met : List Record) (bench bench' : Workbench) : Prop where
  layouts : bench.layouts <+: bench'.layouts
  records : bench'.records = met.foldl (note Record.name) bench.records

namespace Grows

variable {met met' : List Record}

protected theorem rfl : Grows [] bench bench where
  layouts := List.prefix_rfl
  records := rfl

theorem of_layouts_eq (h : bench'.layouts = bench.layouts) : Grows [] bench bench' where
  layouts := h ▸ List.prefix_rfl
  records := by simp [Workbench.records, h]

theorem trans (h : Grows met bench bench') (h' : Grows met' bench' bench'') :
    Grows (met ++ met') bench bench'' where
  layouts := h.layouts.trans h'.layouts
  records := by rw [h'.records, h.records, List.foldl_append]

end Grows

theorem filterMap_cons_toList (f : α → Option β) (x : α) (xs : List α) :
    (x :: xs).filterMap f = (f x).toList ++ xs.filterMap f := by
  cases h : f x <;> simp [h]

theorem qualifier_grows {uri written : String}
    (h : qualifier uri bench = .ok (written, bench')) : Grows [] bench bench' := by
  cases h
  exact .of_layouts_eq rfl

theorem xmlName_grows {name : QName} {written : String}
    (h : xmlName name bench = .ok (written, bench')) : Grows [] bench bench' := by
  cases h
  exact .of_layouts_eq rfl

/-! ## Kinds of values -/

/-- A kind of value is the one of a record: it points at the layout that has the record's name, with
the identifiers of that layout. Without a record it is the kind of a simple value. -/
inductive IsKindOf (layouts : List Layout) : Option Record → ValueKind → Prop
  | simple (type : ValueType) (announced : Option QName) :
      IsKindOf layouts none (.simple type announced)
  | complex {record : Record} {index : Nat} {layout : Layout} :
      layouts[index]? = some layout → layout.record.name = record.name →
      IsKindOf layouts (some record) (layout.kind index)

/-- A layout as it is registered, before its fields are known. -/
def Layout.bare (layout : Layout) : Layout :=
  { layout with fields := [] }

/-- Layouts are kept when others are added behind them, and when their fields become known. -/
def Kept (layouts layouts' : List Layout) : Prop :=
  layouts.map Layout.bare <+: layouts'.map Layout.bare

namespace Kept

variable {layouts layouts' layouts'' : List Layout}

protected theorem rfl : Kept layouts layouts :=
  List.prefix_rfl

theorem of_isPrefix (h : layouts <+: layouts') : Kept layouts layouts' :=
  h.map Layout.bare

theorem trans (h : Kept layouts layouts') (h' : Kept layouts' layouts'') :
    Kept layouts layouts'' :=
  List.IsPrefix.trans h h'

theorem getElem? (h : Kept layouts layouts') {index : Nat} {layout : Layout}
    (hlayout : layouts[index]? = some layout) :
    ∃ layout', layouts'[index]? = some layout' ∧ layout'.bare = layout.bare := by
  obtain ⟨more, hmore⟩ := h
  have hindex : index < (layouts.map Layout.bare).length := by
    simpa using (List.getElem?_eq_some_iff.1 hlayout).1
  have hbare : (layouts'.map Layout.bare)[index]? = some layout.bare := by
    rw [← hmore, List.getElem?_append_left hindex, List.getElem?_map, hlayout, Option.map_some]
  rwa [List.getElem?_map, Option.map_eq_some_iff] at hbare

end Kept

theorem Grows.kept {met : List Record} (h : Grows met bench bench') :
    Kept bench.layouts bench'.layouts :=
  .of_isPrefix h.layouts

/-- A kind of value stays what it is as long as the layouts are kept. -/
theorem IsKindOf.mono {layouts layouts' : List Layout} {record? : Option Record} {kind : ValueKind}
    (h : IsKindOf layouts record? kind) (hkept : Kept layouts layouts') :
    IsKindOf layouts' record? kind := by
  cases h with
  | simple type announced => exact .simple type announced
  | @complex record index layout hlayout hname =>
    obtain ⟨layout', hlayout', hbare⟩ := hkept.getElem? hlayout
    have hrecord : layout'.bare.record = layout.bare.record := congrArg Layout.record hbare
    have hkind : layout'.bare.kind index = layout.bare.kind index :=
      congrArg (Layout.kind · index) hbare
    have hisKind : IsKindOf layouts' (some record) (layout'.kind index) :=
      .complex hlayout' ((congrArg Record.name hrecord).trans hname)
    exact hkind ▸ hisKind

/-- What a step makes of each member of a list stays so while the others are gone through. -/
theorem mapM_grows {f : α → Writing β} (met : α → List Record)
    (post : List Layout → α → β → Prop)
    (hmono : ∀ {layouts layouts' x y}, post layouts x y → Kept layouts layouts' → post layouts' x y)
    (hstep : ∀ {x bench y bench'}, f x bench = .ok (y, bench') →
      Grows (met x) bench bench' ∧ post bench'.layouts x y)
    {xs : List α} {ys : List β} (h : xs.mapM f bench = .ok (ys, bench')) :
    Grows (xs.flatMap met) bench bench' ∧ List.Forall₂ (post bench'.layouts) xs ys := by
  induction xs generalizing bench ys with
  | nil =>
    cases h
    exact ⟨.rfl, .nil⟩
  | cons x rest ih =>
    rw [List.mapM_cons] at h
    obtain ⟨y, bench₁, hy, hrest⟩ := writing_bind_eq_ok.1 h
    obtain ⟨others, bench₂, hothers, heq⟩ := writing_bind_eq_ok.1 hrest
    cases heq
    obtain ⟨hgrows, hpost⟩ := hstep hy
    obtain ⟨hgrows', hall⟩ := ih hothers
    rw [List.flatMap_cons]
    exact ⟨hgrows.trans hgrows', .cons (hmono hpost hgrows'.kept) hall⟩

/-- A step finds out the kind of values of a record, and meets that record. -/
def Classifies (record? : Option Record) (w : Writing ValueKind) : Prop :=
  ∀ ⦃bench kind bench'⦄, w bench = .ok (kind, bench') →
    Grows record?.toList bench bench' ∧ IsKindOf bench'.layouts record? kind

theorem classifies_pure (type : ValueType) (announced : Option QName) :
    Classifies none (pure (.simple type announced)) := by
  intro bench kind bench' h
  cases h
  exact ⟨.rfl, .simple type announced⟩

theorem classifies_throw (record? : Option Record) (e : Error) :
    Classifies record? (throw e) := by
  intro bench kind bench' h
  cases h

theorem classifies_register (record : Record) : Classifies (some record) (register record) := by
  intro bench kind bench' h
  unfold register at h
  split at h
  · next index hfound =>
    obtain ⟨hindex, hname, -⟩ := List.findIdx?_eq_some_iff_getElem.1 hfound
    rw [List.getElem?_eq_getElem hindex] at h
    cases h
    have hmem : record.name ∈ bench.records.map Record.name := by
      rw [Workbench.records, List.map_map]
      exact List.mem_map.2 ⟨_, List.getElem_mem hindex, by simpa using hname⟩
    exact ⟨⟨List.prefix_rfl, (note_of_mem hmem).symm⟩,
      .complex (List.getElem?_eq_getElem hindex) (by simpa using hname)⟩
  · next hfound =>
    have hnew : record.name ∉ bench.records.map Record.name := by
      rw [List.findIdx?_eq_none_iff] at hfound
      simpa [Workbench.records] using hfound
    simp only at h
    split at h
    · cases h
    · next writer _ =>
      cases h
      refine ⟨⟨List.prefix_append .., ?_⟩, .complex (by simp) rfl⟩
      rw [Option.toList_some, List.foldl_cons, note_of_not_mem hnew]
      simp [Workbench.records]

theorem classifies_kindOfType (s : Setting) (name : QName) :
    Classifies (recordOfType s.defs name) (kindOfType s name) := by
  intro bench kind bench' h
  obtain ⟨found, bench₁, hregister, hkind⟩ := writing_bind_eq_ok.1 h
  unfold registerType at hregister
  cases htype : s.defs.complexType? name with
  | none =>
    simp only [htype] at hregister
    cases hregister
    have hrecord : recordOfType s.defs name = none := by simp [recordOfType, htype]
    rw [hrecord]
    exact classifies_pure _ _ hkind
  | some type =>
    simp only [htype] at hregister
    obtain ⟨kind', hkind', rfl⟩ := writing_map_eq_ok.1 hregister
    cases hkind
    have hrecord : recordOfType s.defs name = some ⟨name, false, type⟩ := by
      simp [recordOfType, htype]
    rw [hrecord]
    exact classifies_register _ hkind'

theorem classifies_kindOfGlobal (s : Setting) (element : Wsdl.Element) :
    Classifies (recordOfGlobal s.defs element) (kindOfGlobal s element) := by
  unfold kindOfGlobal recordOfGlobal
  cases element.typeName with
  | some name => exact classifies_kindOfType s name
  | none =>
    cases element.definition with
    | none => exact classifies_pure _ _
    | some definition =>
      cases definition with
      | complex type => exact classifies_register _
      | simple | list | union => exact classifies_pure _ _

theorem globalElement_eq_ok {name : QName} {element : Wsdl.Element}
    (h : globalElement s name bench = .ok (element, bench')) :
    bench' = bench ∧ recordOfReference s.defs name = recordOfGlobal s.defs element := by
  unfold globalElement at h
  cases hdeclared : s.defs.elements.get? name with
  | none =>
    simp only [hdeclared] at h
    cases h
  | some declared =>
    simp only [hdeclared] at h
    cases h
    exact ⟨rfl, by simp [recordOfReference, hdeclared]⟩

theorem classifies_reference (s : Setting) (name : QName) :
    Classifies (recordOfReference s.defs name)
      (globalElement s name >>= kindOfGlobal s) := by
  intro bench kind bench' h
  obtain ⟨element, bench₁, helement, hkind⟩ := writing_bind_eq_ok.1 h
  obtain ⟨rfl, hrecord⟩ := globalElement_eq_ok helement
  rw [hrecord]
  exact classifies_kindOfGlobal s element hkind

theorem classifies_kindOfLocal (s : Setting) (element : Wsdl.Element) :
    Classifies (recordOfLocal s.defs element) (kindOfLocal s element) := by
  unfold kindOfLocal recordOfLocal
  split
  · exact classifies_reference s element.name
  · split
    · exact classifies_throw _ _
    · cases element.typeName with
      | some name => exact classifies_kindOfType s name
      | none => exact classifies_pure _ _

theorem kindOfPart_eq_ok {part : Wsdl.Part} {written : String} {kind : ValueKind}
    (h : kindOfPart s part bench = .ok ((written, kind), bench')) :
    Grows (recordOfPart s.defs part).toList bench bench' ∧
      IsKindOf bench'.layouts (recordOfPart s.defs part) kind := by
  unfold kindOfPart at h
  cases hreference : part.reference with
  | type name =>
    have hrecord : recordOfPart s.defs part = recordOfType s.defs name := by
      rw [recordOfPart, hreference]
    simp only [hreference] at h
    obtain ⟨kind', bench₁, hkind, heq⟩ := writing_bind_eq_ok.1 h
    cases heq
    rw [hrecord]
    exact classifies_kindOfType s name hkind
  | element name =>
    have hrecord : recordOfPart s.defs part = recordOfReference s.defs name := by
      rw [recordOfPart, hreference]
    simp only [hreference] at h
    obtain ⟨element, bench₁, helement, hrest⟩ := writing_bind_eq_ok.1 h
    obtain ⟨written', bench₂, hwritten, hrest⟩ := writing_bind_eq_ok.1 hrest
    obtain ⟨kind', bench₃, hkind, heq⟩ := writing_bind_eq_ok.1 hrest
    cases heq
    obtain ⟨rfl, hdeclared⟩ := globalElement_eq_ok helement
    obtain ⟨hgrows, hisKind⟩ := classifies_kindOfGlobal s element hkind
    rw [hrecord, hdeclared]
    exact ⟨(xmlName_grows hwritten).trans hgrows, hisKind⟩

end SoapKit.Client
