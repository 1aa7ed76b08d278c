import SoapKit.Proofs.Client.NameUses
import SoapKit.Proofs.Client.Source

/-!
# How clients spell names

**Theorem (`compile_spells`).** The texts in the methods and functions of a client are what stands
for the names that they write, by one table of qualifiers; the client registers this table when it
is made, and the table is unambiguous.

**Phases.** Names are written in three phases: for the parts of operations, for the fields of
records, and for the functions of records. Qualifiers are given out in all of them. What was written
under a table stays right under a wider one, so each piece of code says which names it writes
(`Spells`), and the table is the one at the end.

**Fields.** The name of an element or attribute is written when the fields of its record are found
out, and the text is copied into the function of the record later. A field is therefore said to
settle a name (`Settled`): what spells the field spells the name.
-/

namespace SoapKit.Client

open Naming
open Rust (Expr Stmt Param Function Item)
open Wsdl (QName Definitions Attribute)

variable {α β : Type} {s : Setting} {bench bench' bench'' : Workbench}

/-! ## Steps that write texts -/

/-- The qualifiers of a workbench with their namespaces. -/
def Workbench.table (bench : Workbench) : List (String × String) :=
  bench.aliases.toList

/-- The namespaces that have qualifiers on a workbench. -/
def Workbench.uris (bench : Workbench) : List String :=
  bench.table.map Prod.snd

/-- A step has given out qualifiers, by which texts are what stands for names, and to no namespaces
but those of the names. -/
structure Spells (uses : List NameUse) (texts : List String) (bench bench' : Workbench) : Prop where
  widens : bench.aliases.Widens bench'.aliases
  spelled : SpelledAll bench'.table uses texts
  gains : ∀ uri ∈ bench'.uris, uri ∈ bench.uris ∨ uri ∈ uses.filterMap NameUse.uri?

namespace Spells

variable {uses uses' : List NameUse} {texts texts' : List String}

protected theorem rfl : Spells [] [] bench bench where
  widens := .rfl
  spelled := .nil
  gains := fun _ huri => .inl huri

theorem text (text : String) : Spells [.text text] [text] bench bench where
  widens := .rfl
  spelled := .cons (.text text) .nil
  gains := fun _ huri => .inl huri

theorem trans (h : Spells uses texts bench bench') (h' : Spells uses' texts' bench' bench'') :
    Spells (uses ++ uses') (texts ++ texts') bench bench'' where
  widens := h.widens.trans h'.widens
  spelled := List.rel_append (h.spelled.mono h'.widens.table) h'.spelled
  gains := by
    intro uri huri
    rw [List.filterMap_append, List.mem_append]
    rcases h'.gains uri huri with hbefore | huses
    · exact (h.gains uri hbefore).imp id .inl
    · exact .inr (.inr huses)

/-- One name is spelled. -/
theorem spell (use : NameUse) (bench : Workbench) :
    Spells [use] [(bench.aliases.spell use).1] bench
      { bench with aliases := (bench.aliases.spell use).2 } where
  widens := (bench.aliases.spell_widens use).1
  spelled := .cons (bench.aliases.spell_widens use).2 .nil
  gains := by
    intro uri huri
    refine (Aliases.uri_of_spell huri).imp id fun heq => ?_
    rw [List.filterMap_cons_some heq]
    exact List.mem_cons_self

end Spells

theorem qualifier_spells {uri written : String}
    (h : qualifier uri bench = .ok (written, bench')) :
    Spells [.qualifier uri] [written] bench bench' := by
  cases h
  exact .spell (.qualifier uri) bench

theorem xmlName_spells {name : QName} {written : String}
    (h : xmlName name bench = .ok (written, bench')) :
    Spells [.name name] [written] bench bench' := by
  cases h
  exact .spell (.name name) bench

theorem written_spells {c : Prop} [Decidable c] {name : QName} {plain written : String}
    (h : (if c then xmlName name else pure plain : Writing String) bench = .ok (written, bench')) :
    Spells [if c then .name name else .text plain] [written] bench bench' := by
  split at h
  · next hc =>
    rw [if_pos hc]
    exact xmlName_spells h
  · next hc =>
    cases h
    rw [if_neg hc]
    exact .text plain

/-- What a step makes of each member of a list stays right while qualifiers are given out for the
others. -/
theorem mapM_widens {f : α → Writing β} (pre : List (String × String) → α → Prop)
    (post : List (String × String) → α → β → Prop)
    (hpre : ∀ {table table' x}, pre table x → table <+: table' → pre table' x)
    (hpost : ∀ {table table' x y}, post table x y → table <+: table' → post table' x y)
    (hstep : ∀ {x bench y bench'}, pre bench.table x → f x bench = .ok (y, bench') →
      bench.aliases.Widens bench'.aliases ∧ post bench'.table x y)
    {xs : List α} {ys : List β} (hall : ∀ x ∈ xs, pre bench.table x)
    (h : xs.mapM f bench = .ok (ys, bench')) :
    bench.aliases.Widens bench'.aliases ∧ List.Forall₂ (post bench'.table) xs ys := by
  induction xs generalizing bench ys with
  | nil =>
    cases h
    exact ⟨.rfl, .nil⟩
  | cons x rest ih =>
    rw [List.mapM_cons] at h
    obtain ⟨y, bench₁, hy, hrest⟩ := writing_bind_eq_ok.1 h
    obtain ⟨others, bench₂, hothers, heq⟩ := writing_bind_eq_ok.1 hrest
    cases heq
    rw [List.forall_mem_cons] at hall
    obtain ⟨hwidens, hfirst⟩ := hstep hall.1 hy
    have hlater : ∀ x ∈ rest, pre bench₁.table x :=
      fun x hx => hpre (hall.2 x hx) hwidens.table
    obtain ⟨hwidens', hothers⟩ := ih hlater hothers
    exact ⟨hwidens.trans hwidens', .cons (hpost hfirst hwidens'.table) hothers⟩

/-! ## Kinds of values -/

/-- The type that is announced for values of a kind. -/
def ValueKind.announced : ValueKind → Option QName
  | .simple _ announced => announced
  | .complex .. => none

/-- A step finds out a kind of values for which a type is announced, and gives out no qualifiers. -/
def Announces (announced : Option QName) (w : Writing ValueKind) : Prop :=
  ∀ ⦃bench kind bench'⦄, w bench = .ok (kind, bench') →
    bench'.aliases = bench.aliases ∧ kind.announced = announced

theorem announces_pure (type : ValueType) (announced : Option QName) :
    Announces announced (pure (.simple type announced)) := by
  intro bench kind bench' h
  cases h
  exact ⟨rfl, rfl⟩

theorem announces_register (record : Record) : Announces none (register record) := by
  intro bench kind bench' h
  unfold register at h
  split at h
  · split at h
    · cases h
      exact ⟨rfl, rfl⟩
    · cases h
  · simp only at h
    split at h
    · cases h
    · cases h
      exact ⟨rfl, rfl⟩

theorem announces_kindOfType (s : Setting) (name : QName) :
    Announces (announcedOfType s.defs name) (kindOfType s name) := by
  intro bench kind bench' h
  obtain ⟨found, bench₁, hregister, hkind⟩ := writing_bind_eq_ok.1 h
  unfold registerType at hregister
  cases htype : s.defs.complexType? name with
  | none =>
    simp only [htype] at hregister
    cases hregister
    cases hkind
    exact ⟨rfl, by simp [announcedOfType, htype, ValueKind.announced]⟩
  | some type =>
    simp only [htype] at hregister
    obtain ⟨kind', hkind', rfl⟩ := writing_map_eq_ok.1 hregister
    cases hkind
    have hnone : announcedOfType s.defs name = none := by simp [announcedOfType, htype]
    exact hnone ▸ announces_register _ hkind'

theorem announces_kindOfGlobal (s : Setting) (element : Wsdl.Element) :
    Announces (element.typeName.bind (announcedOfType s.defs)) (kindOfGlobal s element) := by
  unfold kindOfGlobal
  cases element.typeName with
  | some name => exact announces_kindOfType s name
  | none =>
    cases element.definition with
    | none => exact announces_pure _ _
    | some definition =>
      cases definition with
      | complex type => exact announces_register _
      | simple | list | union => exact announces_pure _ _

theorem exists_of_globalElement {name : QName} {element : Wsdl.Element}
    (h : globalElement s name bench = .ok (element, bench')) :
    bench' = bench ∧ element.name = name ∧
      announcedOfReference s.defs name = element.typeName.bind (announcedOfType s.defs) := by
  unfold globalElement at h
  cases hdeclared : s.defs.elements.get? name with
  | none =>
    simp only [hdeclared] at h
    cases h
  | some declared =>
    simp only [hdeclared] at h
    cases h
    exact ⟨rfl, rfl, by simp [announcedOfReference, hdeclared]⟩

theorem announces_kindOfLocal (s : Setting) (element : Wsdl.Element) :
    Announces (announcedOfLocal s.defs element) (kindOfLocal s element) := by
  unfold kindOfLocal announcedOfLocal
  split
  · intro bench kind bench' h
    obtain ⟨declared, bench₁, hdeclared, hkind⟩ := writing_bind_eq_ok.1 h
    obtain ⟨rfl, -, hannounced⟩ := exists_of_globalElement hdeclared
    exact hannounced ▸ announces_kindOfGlobal s declared hkind
  · split
    · intro bench kind bench' h
      cases h
    · cases element.typeName with
      | some name => exact announces_kindOfType s name
      | none => exact announces_pure _ _

theorem Spells.of_aliases_eq (h : bench'.aliases = bench.aliases) : Spells [] [] bench bench' where
  widens := h ▸ .rfl
  spelled := .nil
  gains := by
    intro uri huri
    rw [Workbench.uris, Workbench.table, h] at huri
    exact .inl huri

theorem kindOfPart_spells {part : Wsdl.Part} {written : String} {kind : ValueKind}
    (h : kindOfPart s part bench = .ok ((written, kind), bench')) :
    ∃ use, partUses s part = use :: announcements s kind.announced ∧
      Spells [use] [written] bench bench' := by
  unfold kindOfPart at h
  unfold partUses
  cases hreference : part.reference with
  | type name =>
    simp only [hreference] at h
    obtain ⟨kind', bench₁, hkind, heq⟩ := writing_bind_eq_ok.1 h
    cases heq
    obtain ⟨haliases, hannounced⟩ := announces_kindOfType s name hkind
    exact ⟨_, by rw [hannounced], (Spells.text _).trans (.of_aliases_eq haliases)⟩
  | element name =>
    simp only [hreference] at h
    obtain ⟨element, bench₁, helement, hrest⟩ := writing_bind_eq_ok.1 h
    obtain ⟨written', bench₂, hwritten, hrest⟩ := writing_bind_eq_ok.1 hrest
    obtain ⟨kind', bench₃, hkind, heq⟩ := writing_bind_eq_ok.1 hrest
    cases heq
    obtain ⟨rfl, rfl, hreference⟩ := exists_of_globalElement helement
    obtain ⟨haliases, hannounced⟩ := announces_kindOfGlobal s element hkind
    exact ⟨_, by rw [hannounced, ← hreference],
      (xmlName_spells hwritten).trans (.of_aliases_eq haliases)⟩

/-! ## Statements -/

theorem announce_spells {target announced : Expr} {name : QName}
    (h : announce target name bench = .ok (announced, bench')) :
    ∃ texts, announced.texts = target.texts ++ texts ∧
      Spells (announcement name) texts bench bench' := by
  obtain ⟨key, bench₁, hkey, hrest⟩ := writing_bind_eq_ok.1 h
  obtain ⟨value, bench₂, hvalue, hrest⟩ := writing_bind_eq_ok.1 hrest
  have hspells := (xmlName_spells hkey).trans (xmlName_spells hvalue)
  cases huri : name.uri with
  | none =>
    simp only [huri] at hrest
    cases hrest
    exact ⟨[key, value], by simp, by simpa [announcement, huri] using hspells⟩
  | some uri =>
    simp only [huri] at hrest
    obtain ⟨qualifier, bench₃, hqualifier, heq⟩ := writing_bind_eq_ok.1 hrest
    cases heq
    exact ⟨[key, value, qualifier], by simp,
      by simpa [announcement, huri] using hspells.trans (qualifier_spells hqualifier)⟩

theorem writeValue_spells {parent written : String} {kind : ValueKind} {value : Expr}
    {statement : Stmt} (hvalue : value.texts = [])
    (h : writeValue s parent written kind value bench = .ok (statement, bench')) :
    ∃ texts, statement.texts = written :: texts ∧
      Spells (announcements s kind.announced) texts bench bench' := by
  cases kind with
  | complex index record writer =>
    cases h
    exact ⟨[], by simp [Expr.single, hvalue], .rfl⟩
  | simple type announced =>
    have hplain : ∀ {target : Expr} {texts : List String}, target.texts = written :: texts →
        (Stmt.drop (target.method "set_value" [value])).texts = written :: texts := by
      intro target texts htarget
      simp [htarget, hvalue]
    have hadded : ((Expr.single parent).method "add" [.text written]).texts = [written] := by
      simp [Expr.single]
    cases announced with
    | none =>
      cases h
      exact ⟨[], hplain hadded, .rfl⟩
    | some name =>
      cases hencoded : s.isEncoded with
      | false =>
        simp only [writeValue, hencoded] at h
        cases h
        exact ⟨[], hplain hadded,
          by simpa [announcements, ValueKind.announced, hencoded] using .rfl⟩
      | true =>
        simp only [writeValue, hencoded] at h
        obtain ⟨target, bench₁, htarget, heq⟩ := writing_bind_eq_ok.1 h
        cases heq
        obtain ⟨texts, htexts, hspells⟩ := announce_spells htarget
        exact ⟨texts, hplain (htexts.trans (congrArg (· ++ texts) hadded)),
          by simpa [announcements, ValueKind.announced, hencoded] using hspells⟩

/-! ## Operations -/

theorem writeParts_spells {taken : FreshNames} {parts : List Wsdl.Part} {params : List Param}
    {statements : List Stmt}
    (h : writeParts s taken parts bench = .ok ((params, statements), bench')) :
    Spells (parts.flatMap (partUses s)) (Stmt.textsOfAll statements) bench bench' := by
  induction parts generalizing taken params statements bench with
  | nil =>
    cases h
    exact .rfl
  | cons part rest ih =>
    obtain ⟨⟨written, kind⟩, bench₁, hkind, hrest⟩ := writing_bind_eq_ok.1 h
    obtain ⟨statement, bench₂, hstatement, hrest⟩ := writing_bind_eq_ok.1 hrest
    obtain ⟨⟨others, statements'⟩, bench₃, hothers, heq⟩ := writing_bind_eq_ok.1 hrest
    cases heq
    obtain ⟨use, huses, hwritten⟩ := kindOfPart_spells hkind
    obtain ⟨texts, htexts, hannounced⟩ := writeValue_spells rfl hstatement
    rw [List.flatMap_cons, huses, Stmt.textsOfAll, htexts]
    exact (hwritten.trans hannounced).trans (ih hothers)

theorem writeEncodingStyle_spells {operation : PlannedOperation} {statements : List Stmt}
    (h : writeEncodingStyle operation bench = .ok (statements, bench')) :
    Spells (styleUses operation) (Stmt.textsOfAll statements) bench bench' := by
  unfold writeEncodingStyle at h
  unfold styleUses
  cases hstyle : operation.encodingStyle with
  | none =>
    simp only [hstyle] at h
    cases h
    exact .rfl
  | some style =>
    simp only [hstyle] at h
    obtain ⟨key, bench₁, hkey, heq⟩ := writing_bind_eq_ok.1 h
    cases heq
    exact (xmlName_spells hkey).trans (.text style)

theorem writeRoot_spells {operation : PlannedOperation} {root : String}
    (h : writeRoot operation bench = .ok (root, bench')) :
    Spells [rootUse operation] [root] bench bench' := by
  unfold writeRoot at h
  unfold rootUse
  cases hroot : operation.root with
  | qualified name =>
    simp only [hroot] at h
    exact xmlName_spells h
  | plain =>
    simp only [hroot] at h
    cases h
    exact .text _

/-- The two methods of an operation write its names. -/
def SpellsOperation (s : Setting) (table : List (String × String)) (operation : PlannedOperation)
    (methods : List Function) : Prop :=
  ∃ blocking waiting, methods = [blocking, waiting] ∧
    SpelledAll table (operationUses s operation) blocking.texts ∧
    SpelledAll table (operationUses s operation) waiting.texts

theorem SpellsOperation.mono {table table' : List (String × String)}
    {operation : PlannedOperation} {methods : List Function}
    (h : SpellsOperation s table operation methods) (htable : table <+: table') :
    SpellsOperation s table' operation methods := by
  obtain ⟨blocking, waiting, hmethods, hblocking, hwaiting⟩ := h
  exact ⟨blocking, waiting, hmethods, hblocking.mono htable, hwaiting.mono htable⟩

/-- Both methods of an operation have the texts that are written for it. -/
theorem writeOperation_texts {operation : PlannedOperation} {methods : List Function}
    (h : writeOperation s operation bench = .ok (methods, bench')) :
    ∃ blocking waiting, methods = [blocking, waiting] ∧ blocking.texts = waiting.texts ∧
      Spells (operationUses s operation) waiting.texts bench bench' := by
  obtain ⟨root, bench₁, hroot, hrest⟩ := writing_bind_eq_ok.1 h
  obtain ⟨heading, bench₂, hheading, hrest⟩ := writing_bind_eq_ok.1 hrest
  obtain ⟨⟨params, parts⟩, bench₃, hparts, heq⟩ := writing_bind_eq_ok.1 hrest
  cases heq
  have hspells := ((writeRoot_spells hroot).trans (.text operation.soapAction)).trans
    ((writeEncodingStyle_spells hheading).trans (writeParts_spells hparts))
  rw [← List.append_assoc, ← Stmt.textsOfAll_append] at hspells
  refine ⟨_, _, rfl, ?_, ?_⟩
  · simp only [Function.texts, Stmt.textsOfAll, Stmt.texts, Expr.texts]
  · simp only [Function.texts, Stmt.textsOfAll, Stmt.texts, Expr.texts, Expr.textsOfAll, selfExpr,
      Expr.single, List.nil_append, List.append_nil]
    exact hspells

theorem writeOperation_spells {operation : PlannedOperation} {methods : List Function}
    (h : writeOperation s operation bench = .ok (methods, bench')) :
    bench.aliases.Widens bench'.aliases ∧
      SpellsOperation s bench'.table operation methods := by
  obtain ⟨blocking, waiting, hmethods, htexts, hspells⟩ := writeOperation_texts h
  exact ⟨hspells.widens, blocking, waiting, hmethods, htexts ▸ hspells.spelled, hspells.spelled⟩

/-! ## Fields -/

/-- What is written for a field. The name of an element or attribute is a text by now. -/
def fieldUses (s : Setting) (field : Field) : List NameUse :=
  match field.source with
  | .attribute written _ _ => [.text written]
  | .value _ => []
  | .element written kind _ => .text written :: announcements s kind.announced

theorem Spells.settled {use : NameUse} {text : String} (h : Spells [use] [text] bench bench') :
    Settled bench'.table use (.text text) :=
  .spelled (List.forall₂_cons.1 h.spelled).1

theorem attributeFields_settled {taken taken' : FreshNames}
    {uses : List (QName × Attribute × Attribute)} {fields : List Field}
    (h : attributeFields s taken uses bench = .ok ((fields, taken'), bench')) :
    bench.aliases.Widens bench'.aliases ∧
      SettledAll bench'.table (uses.map attributeUse) (fields.flatMap (fieldUses s)) := by
  induction uses generalizing taken fields bench with
  | nil =>
    cases h
    exact ⟨.rfl, .nil⟩
  | cons use rest ih =>
    obtain ⟨name, use, declared⟩ := use
    obtain ⟨written, bench₁, hwritten, hrest⟩ := writing_ite_bind_eq_ok.1 h
    obtain ⟨⟨others, _⟩, bench₂, hothers, heq⟩ := writing_bind_eq_ok.1 hrest
    cases heq
    have hspells := written_spells hwritten
    obtain ⟨hwidens, hsettled⟩ := ih hothers
    exact ⟨hspells.widens.trans hwidens, .cons (hspells.settled.mono hwidens.table) hsettled⟩

theorem elementFields_settled {taken : FreshNames} {elements : List Wsdl.Element}
    {fields : List Field} (h : elementFields s taken elements bench = .ok (fields, bench')) :
    bench.aliases.Widens bench'.aliases ∧
      SettledAll bench'.table (elements.flatMap (elementUses s))
        (fields.flatMap (fieldUses s)) := by
  induction elements generalizing taken fields bench with
  | nil =>
    cases h
    exact ⟨.rfl, .nil⟩
  | cons element rest ih =>
    obtain ⟨kind, bench₁, hkind, hrest⟩ := writing_bind_eq_ok.1 h
    obtain ⟨written, bench₂, hwritten, hrest⟩ := writing_ite_bind_eq_ok.1 hrest
    obtain ⟨others, bench₃, hothers, heq⟩ := writing_bind_eq_ok.1 hrest
    cases heq
    obtain ⟨haliases, hannounced⟩ := announces_kindOfLocal s element hkind
    have hspells := (Spells.of_aliases_eq haliases).trans (written_spells hwritten)
    obtain ⟨hwidens, hsettled⟩ := ih hothers
    refine ⟨hspells.widens.trans hwidens, ?_⟩
    rw [List.flatMap_cons, List.flatMap_cons, elementUses, ← hannounced]
    exact List.rel_append (.cons (hspells.settled.mono hwidens.table) (SettledAll.refl _)) hsettled

theorem valueFields_uses (s : Setting) (taken : FreshNames) (type : Wsdl.ComplexType) :
    (valueFields s taken type).1.flatMap (fieldUses s) = [] := by
  unfold valueFields
  split <;> rfl

/-- The fields of a layout settle the names of the attributes and elements of its record. -/
def Laid (s : Setting) (table : List (String × String)) (layout : Layout) : Prop :=
  ∃ uses, contentUses s layout.record = .ok uses ∧
    SettledAll table uses (layout.fields.flatMap (fieldUses s))

theorem Laid.mono {table table' : List (String × String)} {layout : Layout}
    (h : Laid s table layout) (htable : table <+: table') : Laid s table' layout := by
  obtain ⟨uses, huses, hsettled⟩ := h
  exact ⟨uses, huses, hsettled.mono htable⟩

theorem fieldsOf_laid {layout : Layout} {fields : List Field}
    (h : fieldsOf s layout.record bench = .ok (fields, bench')) :
    bench.aliases.Widens bench'.aliases ∧ Laid s bench'.table { layout with fields } := by
  obtain ⟨uses, attributes, taken, elements, found, bench₁, huses, hattributes, helements, hfound,
    rfl⟩ := fieldsOf_steps h
  obtain ⟨hwidens, hsettled⟩ := attributeFields_settled hattributes
  obtain ⟨hwidens', hsettled'⟩ := elementFields_settled hfound
  refine ⟨hwidens.trans hwidens', _, contentUses_eq_ok huses helements, ?_⟩
  rw [List.flatMap_append, List.flatMap_append, valueFields_uses, List.append_nil]
  exact List.rel_append (hsettled.mono hwidens'.table) hsettled'

/-! ## Completing layouts -/

/-- The layouts before a position are laid out. -/
structure Laying (s : Setting) (start : Workbench) (index : Nat) (bench : Workbench) : Prop where
  widens : start.aliases.Widens bench.aliases
  laid : ∀ i layout, i < index → bench.layouts[i]? = some layout → Laid s bench.table layout

theorem Laying.step {start : Workbench} {index : Nat} {layout : Layout} {fields : List Field}
    (h : Laying s start index bench) (hlayout : bench.layouts[index]? = some layout)
    (hfields : fieldsOf s layout.record bench = .ok (fields, bench')) :
    Laying s start (index + 1) (bench'.setFields index fields) := by
  obtain ⟨hwidens, hlaid⟩ := fieldsOf_laid hfields
  refine ⟨h.widens.trans hwidens, fun i layout' hi hlayout' => ?_⟩
  rcases cases_of_setFields (fieldsOf_eq_ok hfields).1 hlayout hi hlayout' with
    ⟨-, rfl⟩ | ⟨hbefore, hold⟩
  · exact hlaid
  · exact (h.laid i layout' hbefore hold).mono hwidens.table

/-! ## Records -/

theorem writeTypeName_spells {record : Record} {statements : List Stmt}
    (h : writeTypeName s record bench = .ok (statements, bench')) :
    Spells (typeUses s record) (Stmt.textsOfAll statements) bench bench' := by
  unfold writeTypeName at h
  unfold typeUses
  split at h
  · next hannounced =>
    obtain ⟨announced, bench₁, hannounce, heq⟩ := writing_bind_eq_ok.1 h
    cases heq
    obtain ⟨texts, htexts, hspells⟩ := announce_spells hannounce
    rw [if_pos hannounced]
    simpa [htexts, Expr.single] using hspells
  · next hplain =>
    cases h
    rw [if_neg hplain]
    exact .rfl

theorem writeFields_spells {value : String} {taken : FreshNames} {fields : List Field}
    {statements : List Stmt}
    (h : writeFields s value taken fields bench = .ok (statements, bench')) :
    Spells (fields.flatMap (fieldUses s)) (Stmt.textsOfAll statements) bench bench' := by
  induction fields generalizing taken statements bench with
  | nil =>
    cases h
    exact .rfl
  | cons field rest ih =>
    obtain ⟨ident, source⟩ := field
    rw [List.flatMap_cons]
    cases source with
    | «attribute» written type isRequired =>
      obtain ⟨others, bench₁, hothers, heq⟩ := writing_bind_eq_ok.1 h
      cases heq
      exact (Spells.text written).trans (ih hothers)
    | value type =>
      obtain ⟨others, bench₁, hothers, heq⟩ := writing_bind_eq_ok.1 h
      cases heq
      exact Spells.rfl.trans (ih hothers)
    | element written kind wrapper =>
      cases wrapper with
      | one | option | many =>
        obtain ⟨statement, bench₁, hstatement, hrest⟩ := writing_bind_eq_ok.1 h
        obtain ⟨others, bench₂, hothers, heq⟩ := writing_bind_eq_ok.1 hrest
        cases heq
        obtain ⟨texts, htexts, hspells⟩ := writeValue_spells rfl hstatement
        have hfield := ((Spells.text written).trans hspells).trans (ih hothers)
        simpa [fieldUses, htexts, Expr.single] using hfield

/-- A function writes the names of the record in a layout. -/
def SpellsRecord (s : Setting) (table : List (String × String)) (layout : Layout)
    (writer : Function) : Prop :=
  ∃ uses, recordUses s layout.record = .ok uses ∧ SpelledAll table uses writer.texts

theorem SpellsRecord.mono {table table' : List (String × String)} {layout : Layout}
    {writer : Function} (h : SpellsRecord s table layout writer) (htable : table <+: table') :
    SpellsRecord s table' layout writer := by
  obtain ⟨uses, huses, hspelled⟩ := h
  exact ⟨uses, huses, hspelled.mono htable⟩

/-- The function of a record has the texts for its type and for its fields. -/
theorem writerFunction_texts {layout : Layout} {function : Function}
    (h : writerFunction s layout bench = .ok (function, bench')) :
    Spells (typeUses s layout.record ++ layout.fields.flatMap (fieldUses s)) function.texts
      bench bench' := by
  obtain ⟨heading, bench₁, hheading, hrest⟩ := writing_bind_eq_ok.1 h
  obtain ⟨fields, bench₂, hfields, heq⟩ := writing_bind_eq_ok.1 hrest
  cases heq
  rw [Function.texts, Stmt.textsOfAll_append]
  exact (writeTypeName_spells hheading).trans (writeFields_spells hfields)

theorem writerFunction_spells {layout : Layout} {function : Function}
    (hlaid : Laid s bench.table layout)
    (h : writerFunction s layout bench = .ok (function, bench')) :
    bench.aliases.Widens bench'.aliases ∧ SpellsRecord s bench'.table layout function := by
  have hspells := writerFunction_texts h
  obtain ⟨uses, huses, hsettled⟩ := hlaid.mono hspells.widens.table
  exact ⟨hspells.widens, _, recordUses_eq_ok huses,
    SettledAll.spelledBy (List.rel_append (SettledAll.refl _) hsettled) hspells.spelled⟩

/-- The items for layouts, whose functions write the names of their records. -/
def SpellsRecords (s : Setting) (table : List (String × String)) (layouts : List Layout)
    (pairs : List (List Item)) : Prop :=
  List.Forall₂ (fun place pair => ∃ writer, SpellsRecord s table place.1 writer ∧
    pair = [recordItem layouts place.2 place.1, .function writer]) layouts.zipIdx pairs

theorem writeRecords_spells {layouts : List Layout} {items : List Item}
    (hlaid : ∀ layout ∈ layouts, Laid s bench.table layout)
    (h : writeRecords s layouts bench = .ok (items, bench')) :
    bench.aliases.Widens bench'.aliases ∧
      ∃ pairs, items = pairs.flatten ∧ SpellsRecords s bench'.table layouts pairs := by
  obtain ⟨pairs, bench₁, hpairs, heq⟩ := writing_bind_eq_ok.1 h
  cases heq
  obtain ⟨hwidens, hall⟩ := mapM_widens (fun table (place : Layout × Nat) => Laid s table place.1)
    (fun table place pair => ∃ writer, SpellsRecord s table place.1 writer ∧
      pair = [recordItem layouts place.2 place.1, .function writer])
    Laid.mono
    (fun ⟨writer, hspells, hpair⟩ htable => ⟨writer, hspells.mono htable, hpair⟩)
    (fun {place bench pair bench'} hlaid hpair => by
      obtain ⟨writer, bench₂, hwriter, heq⟩ := writing_bind_eq_ok.1 hpair
      cases heq
      obtain ⟨hwidens, hspells⟩ := writerFunction_spells hlaid hwriter
      exact ⟨hwidens, writer, hspells, rfl⟩)
    (fun place hplace => hlaid place.1 (List.fst_mem_of_mem_zipIdx hplace)) hpairs
  exact ⟨hwidens, pairs, rfl, hall⟩

/-! ## Clients -/

/-- The items of a client: its methods write the names of its operations, its functions those of its
records. -/
def SpellsClient (s : Setting) (plan : Plan) (layouts : List Layout)
    (table : List (String × String)) (items : List Item) : Prop :=
  ∃ methods pairs, items = clientItems plan table methods.flatten ++ pairs.flatten ∧
    List.Forall₂ (SpellsOperation s table) plan.operations methods ∧
    SpellsRecords s table layouts pairs

theorem unambiguous_start (defs : Definitions) (reserved : List String) :
    Unambiguous (Workbench.start defs reserved).table :=
  unambiguous_nil

/-- The layouts that are completed are those whose records are written. -/
theorem writeClient_completed {plan : Plan} {reserved : List String} {items : List Item}
    {layouts : List Layout} (hcompletes : Completes s plan reserved layouts)
    (h : writeClient s plan (.start s.defs reserved) = .ok (items, bench')) :
    ∃ methods records bench₁ bench₂,
      plan.operations.mapM (writeOperation s) (.start s.defs reserved) = .ok (methods, bench₁) ∧
      completeLayouts s bench₁ = .ok ((), bench₂) ∧ bench₂.layouts = layouts ∧
      writeRecords s layouts bench₂ = .ok (records, bench') ∧
      items = clientItems plan bench'.table methods.flatten ++ records := by
  obtain ⟨methods, records, bench₁, bench₂, hmethods, hcomplete, hrecords, rfl⟩ :=
    writeClient_steps h
  obtain ⟨hstart, hroots, -⟩ := completing_of_operations hmethods
  have hmore : ∀ more, completeFrom s (recordLimit s.defs + more) 0 bench₁ = .ok ((), bench₂) :=
    fun more => (hstart.completeFrom_add hroots (Nat.le_refl _) more).trans hcomplete
  obtain rfl : layouts = bench₂.layouts :=
    hcompletes.unique ⟨methods, bench₁, bench₂, hmethods, hmore, rfl⟩
  exact ⟨methods, records, bench₁, bench₂, hmethods, hcomplete, rfl, hrecords, rfl⟩

/-- When the functions of records are written, the fields of all layouts are laid out. -/
theorem writeClient_laid {plan : Plan} {reserved : List String} {items : List Item}
    {layouts : List Layout} (hcompletes : Completes s plan reserved layouts)
    (h : writeClient s plan (.start s.defs reserved) = .ok (items, bench')) :
    ∃ methods records bench₁ bench₂,
      plan.operations.mapM (writeOperation s) (.start s.defs reserved) = .ok (methods, bench₁) ∧
      bench₁.aliases.Widens bench₂.aliases ∧ (∀ layout ∈ layouts, Laid s bench₂.table layout) ∧
      writeRecords s layouts bench₂ = .ok (records, bench') ∧
      items = clientItems plan bench'.table methods.flatten ++ records := by
  obtain ⟨methods, records, bench₁, bench₂, hmethods, hcomplete, rfl, hrecords, rfl⟩ :=
    writeClient_completed hcompletes h
  obtain ⟨hstart, hroots, -⟩ := completing_of_operations hmethods
  have hlaying : Laying s bench₁ bench₂.layouts.length bench₂ :=
    hstart.run_keeps (P := Laying s bench₁) Laying.step hroots (Nat.le_refl _)
      ⟨.rfl, fun i _ hi => absurd hi (Nat.not_lt_zero i)⟩ hcomplete
  refine ⟨methods, records, bench₁, bench₂, hmethods, hlaying.widens, ?_, hrecords, rfl⟩
  intro layout hlayout
  obtain ⟨i, hi, rfl⟩ := List.mem_iff_getElem.1 hlayout
  exact hlaying.laid i _ hi (List.getElem?_eq_getElem hi)

theorem writeClient_spells {plan : Plan} {reserved : List String} {items : List Item}
    {layouts : List Layout} (hcompletes : Completes s plan reserved layouts)
    (h : writeClient s plan (.start s.defs reserved) = .ok (items, bench')) :
    Unambiguous bench'.table ∧ SpellsClient s plan layouts bench'.table items := by
  obtain ⟨methods, records, bench₁, bench₂, hmethods, hlaying, hlaid, hrecords, rfl⟩ :=
    writeClient_laid hcompletes h
  obtain ⟨hwidens, hoperations⟩ := mapM_widens (fun _ _ => True) (SpellsOperation s)
    (fun h _ => h) SpellsOperation.mono (fun _ h => writeOperation_spells h)
    (fun _ _ => trivial) hmethods
  obtain ⟨hwidens', pairs, rfl, hpairs⟩ := writeRecords_spells hlaid hrecords
  have hlater := hlaying.trans hwidens'
  exact ⟨(hwidens.trans hlater).unambiguous (unambiguous_start ..), methods, pairs, rfl,
    hoperations.imp fun _ _ h => h.mono hlater.table, hpairs⟩

/-- A client registers qualifiers with their namespaces when it is made for an endpoint. -/
def Registers (table : List (String × String)) (items : List Item) : Prop :=
  ∃ typeParams target members member dispatcher others,
    Item.methods typeParams target members ∈ items ∧ member ∈ members ∧
      member.name = "with_endpoint" ∧
      member.body = [.value (.record "Self" (("dispatcher", some dispatcher) :: others))] ∧
      dispatcher.registered = table

theorem registered_foldl (table : List (String × String)) (dispatcher : Expr) :
    (table.foldl (fun dispatcher pair => dispatcher.method "alias" [.text pair.1, .text pair.2])
      dispatcher).registered = dispatcher.registered ++ table := by
  induction table generalizing dispatcher with
  | nil => exact (List.append_nil _).symm
  | cons pair rest ih =>
    rw [List.foldl_cons, ih, Expr.registered, List.append_assoc, List.singleton_append]

theorem registers_clientItems (plan : Plan) (table : List (String × String))
    (methods : List Function) : Registers table (clientItems plan table methods) := by
  refine ⟨_, _, _, _, _, _, List.mem_cons_of_mem _ (List.mem_cons_of_mem _ List.mem_cons_self),
    List.mem_cons_of_mem _ List.mem_cons_self, rfl, rfl, ?_⟩
  rw [registered_foldl, Expr.registered, List.nil_append]
  simp

theorem Registers.append {table : List (String × String)} {items : List Item}
    (h : Registers table items) (others : List Item) : Registers table (items ++ others) := by
  obtain ⟨typeParams, target, members, member, dispatcher, fields, hitem, hmember⟩ := h
  exact ⟨typeParams, target, members, member, dispatcher, fields, List.mem_append_left _ hitem,
    hmember⟩

/-- Names are spelled by one unambiguous table of qualifiers, which grows while names are spelled,
for which a free qualifier is always found, and which a client that is compiled registers whole. -/
theorem compile_spells :
    (∀ (declared : OrderedMap String String) (uses later : List NameUse),
      Unambiguous ((Aliases.ofDeclared declared).spellAll uses).2.toList ∧
        SpelledAll ((Aliases.ofDeclared declared).spellAll uses).2.toList uses
          ((Aliases.ofDeclared declared).spellAll uses).1 ∧
        ((Aliases.ofDeclared declared).spellAll uses).2.toList <+:
          ((Aliases.ofDeclared declared).spellAll (uses ++ later)).2.toList) ∧
    (∀ aliases : Aliases, IsLeast
      {number | aliases.generated < number ∧ aliases.isTaken (Aliases.numbered number) = false}
      (aliases.firstFree aliases.chosen.entries.length aliases.generated)) ∧
    ∀ {defs : Definitions} {service : Option String} {name : QName} {items : List Item},
      compile defs service name = .ok items → ∃ plan layouts table,
        Compiled defs service name items plan layouts ∧ Unambiguous table ∧
        (∀ qualifier uri, (qualifier, uri) ∈ table →
          table.filter (·.1 == qualifier) = [(qualifier, uri)]) ∧
        Registers table items ∧ SpellsClient ⟨defs, plan.isEncoded⟩ plan layouts table items := by
  refine ⟨fun declared uses later => ?_, Aliases.firstFree_isLeast, ?_⟩
  · obtain ⟨hwidens, hspelled⟩ := (Aliases.ofDeclared declared).spellAll_widens uses
    refine ⟨hwidens.unambiguous unambiguous_nil, hspelled, ?_⟩
    rw [Aliases.spellAll_append]
    exact (Aliases.spellAll_widens _ later).1.table
  · intro defs service name items h
    obtain ⟨binding, plan, bench, hbinding, hplan, hclient⟩ := compile_eq_ok h
    obtain ⟨layouts, hcompletes, -, hwrites⟩ := writeClient_eq_ok hclient
    obtain ⟨hunambiguous, hspells⟩ := writeClient_spells hcompletes hclient
    refine ⟨plan, layouts, bench.table, ⟨⟨binding, hbinding, hplan⟩, hcompletes, hwrites⟩,
      hunambiguous, fun _ _ => hunambiguous.filter_eq, ?_, hspells⟩
    obtain ⟨methods, pairs, rfl, -, -⟩ := hspells
    exact (registers_clientItems ..).append _

/-- The description of links and nodes with encoded messages. -/
def encodedLinked : Definitions :=
  { linked with
    bindings := ⟨[(linkedName "Soap",
      ⟨linkedName "Soap", linkedName "Port", .soap11, .rpc, none,
        ⟨[("ask", ⟨"ask", "", none,
          ⟨[("body", ⟨"body", .encoded, none, some "urn:linked"⟩)]⟩, .empty⟩)]⟩⟩)]⟩ }

/-- The qualifier for announced types is given out for the functions of nodes and links only, and
yet it is registered. -/
theorem compile_spells_of_encoded : ∃ items plan layouts table,
    Compiled encodedLinked none (linkedName "Soap") items plan layouts ∧ Unambiguous table ∧
      Registers table items ∧
      SpellsClient ⟨encodedLinked, plan.isEncoded⟩ plan layouts table items := by
  have hexists : ∃ items, compile encodedLinked none (linkedName "Soap") = .ok items :=
    exists_eq_ok (by decide +kernel)
  obtain ⟨items, hitems⟩ := hexists
  obtain ⟨plan, layouts, table, hcompiled, hunambiguous, -, hregisters, hspells⟩ :=
    compile_spells.2.2 hitems
  exact ⟨items, plan, layouts, table, hcompiled, hunambiguous, hregisters, hspells⟩

end SoapKit.Client
