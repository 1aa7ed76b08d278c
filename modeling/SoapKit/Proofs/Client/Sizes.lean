import Mathlib.Logic.Relation
import SoapKit.Proofs.Client.Source

/-!
# Sizes of records

**Theorem (`compile_sizes`).** The record types of a client are of finite size: along fields that
are neither lists nor boxes no record leads back to itself. No box is superfluous either: a field
that is not a list is boxed only if the record in it leads back to the record of the field.

Both follow from one fact about the search (`reaches_iff`): it finds a record if and only if there
is a chain of records to it. A search that finds nothing leaves behind a set of records that is
closed and does not have the target in it (`not_leads_of_leadsTo`).
-/

namespace SoapKit.Rust

/-- A type is that of boxes, or of optional boxes. -/
inductive Ty.IsBoxed : Ty → Prop
  | box (content : Ty) : IsBoxed (.of "Box" [content])
  | option {type : Ty} : IsBoxed type → IsBoxed (.of "Option" [type])

namespace Ty

theorem not_isBoxed_single (name : String) : ¬(single name).IsBoxed := by
  generalize htype : single name = type
  intro h
  cases h <;> simp [single, of] at htype

theorem isBoxed_option_iff {type : Ty} : (of "Option" [type]).IsBoxed ↔ type.IsBoxed := by
  constructor
  · generalize hoption : of "Option" [type] = option
    intro h
    cases h with
    | box content => simp [of, Path.single] at hoption
    | option hboxed =>
      cases hoption
      exact hboxed
  · exact .option

end Ty

end SoapKit.Rust

namespace SoapKit.Client

open Relation (ReflTransGen TransGen)
open Rust (Ty FieldDecl Item)
open Wsdl (QName Definitions)

variable {layouts : List Layout} {index target : Nat} {seen pending : List Nat}

/-! ## Chains of records -/

/-- The record at one position holds the record at another one in a field that is not a list. -/
def Holds (layouts : List Layout) (index held : Nat) : Prop :=
  ∃ layout field, layouts[index]? = some layout ∧ field ∈ layout.fields ∧
    field.source.held? = some held

/-- The record at one position leads to the record at another one, or is it. -/
abbrev Leads (layouts : List Layout) : Nat → Nat → Prop :=
  ReflTransGen (Holds layouts)

theorem mem_heldBy {held : Nat} : held ∈ heldBy layouts index ↔ Holds layouts index held := by
  unfold heldBy Holds Layout.held
  cases layouts[index]? with
  | none => simp
  | some layout => simp

theorem Holds.lt_length {held : Nat} (h : Holds layouts index held) : index < layouts.length := by
  obtain ⟨layout, _, hlayout, -⟩ := h
  exact (List.getElem?_eq_some_iff.1 hlayout).1

/-! ## The search -/

theorem exists_leads_of_leadsTo (h : leadsTo layouts target seen pending = true) :
    ∃ index ∈ pending, Leads layouts index target := by
  fun_induction leadsTo layouts target seen pending with
  | case1 => cases h
  | case2 seen rest => exact ⟨target, List.mem_cons_self, .refl⟩
  | case3 seen index rest hne hnew ih =>
    obtain ⟨next, hnext, hleads⟩ := ih h
    rcases List.mem_append.1 hnext with hnext | hnext
    · exact ⟨index, List.mem_cons_self, .head (mem_heldBy.1 hnext) hleads⟩
    · exact ⟨next, List.mem_cons_of_mem _ hnext, hleads⟩
  | case4 seen index rest hne hold ih =>
    obtain ⟨next, hnext, hleads⟩ := ih h
    exact ⟨next, List.mem_cons_of_mem _ hnext, hleads⟩

/-- What a search has gone through: seen records are not the target, and hold records that were
seen, that are pending, or that do not lead to the target. -/
def Searched (layouts : List Layout) (target : Nat) (seen pending : List Nat) : Prop :=
  ∀ index ∈ seen, index ≠ target ∧ ∀ held, Holds layouts index held →
    held ∈ seen ∨ held ∈ pending ∨ ¬Leads layouts held target

theorem Searched.not_leads (h : Searched layouts target seen []) (hindex : index ∈ seen) :
    ¬Leads layouts index target := by
  intro hleads
  induction hleads using ReflTransGen.head_induction_on with
  | refl => exact (h target hindex).1 rfl
  | head hholds hleads ih =>
    rcases (h _ hindex).2 _ hholds with hseen | hpending | hnot
    · exact ih hseen
    · cases hpending
    · exact hnot hleads

theorem not_leads_of_length_le (hne : index ≠ target) (hlength : layouts.length ≤ index) :
    ¬Leads layouts index target := by
  intro hleads
  rcases hleads.cases_head with heq | ⟨held, hholds, -⟩
  · exact hne heq
  · exact absurd hholds.lt_length (Nat.not_lt.2 hlength)

theorem not_leads_of_leadsTo (hsearched : Searched layouts target seen pending)
    (h : leadsTo layouts target seen pending = false) :
    ∀ index, index ∈ seen ∨ index ∈ pending → ¬Leads layouts index target := by
  fun_induction leadsTo layouts target seen pending with
  | case1 seen =>
    rintro index (hindex | hindex)
    · exact hsearched.not_leads hindex
    · cases hindex
  | case2 => cases h
  | case3 seen index rest hne hnew ih =>
    have hnext : Searched layouts target (index :: seen) (heldBy layouts index ++ rest) := by
      intro i hi
      rcases List.mem_cons.1 hi with rfl | hi
      · exact ⟨hne, fun held hholds => .inr (.inl (List.mem_append_left _ (mem_heldBy.2 hholds)))⟩
      · refine ⟨(hsearched i hi).1, fun held hholds => ?_⟩
        rcases (hsearched i hi).2 held hholds with hseen | hpending | hnot
        · exact .inl (List.mem_cons_of_mem _ hseen)
        · rcases List.mem_cons.1 hpending with rfl | hpending
          · exact .inl List.mem_cons_self
          · exact .inr (.inl (List.mem_append_right _ hpending))
        · exact .inr (.inr hnot)
    rintro i (hi | hi)
    · exact ih hnext h i (.inl (List.mem_cons_of_mem _ hi))
    · rcases List.mem_cons.1 hi with rfl | hi
      · exact ih hnext h i (.inl List.mem_cons_self)
      · exact ih hnext h i (.inr (List.mem_append_right _ hi))
  | case4 seen index rest hne hold ih =>
    -- A position that is passed over was seen, or is behind the last layout and leads nowhere.
    have hpassed : index ∈ seen ∨ ¬Leads layouts index target := by
      by_cases hinside : index < layouts.length
      · left
        simpa [hinside] using hold
      · exact .inr (not_leads_of_length_le hne (Nat.not_lt.1 hinside))
    have hnext : Searched layouts target seen rest := by
      intro i hi
      refine ⟨(hsearched i hi).1, fun held hholds => ?_⟩
      rcases (hsearched i hi).2 held hholds with hseen | hpending | hnot
      · exact .inl hseen
      · rcases List.mem_cons.1 hpending with rfl | hpending
        · exact hpassed.imp_right .inr
        · exact .inr (.inl hpending)
      · exact .inr (.inr hnot)
    rintro i (hi | hi)
    · exact ih hnext h i (.inl hi)
    · rcases List.mem_cons.1 hi with rfl | hi
      · rcases hpassed with hseen | hnot
        · exact ih hnext h i (.inl hseen)
        · exact hnot
      · exact ih hnext h i (.inr hi)

/-- The search finds a record if and only if there is a chain of records to it. -/
theorem reaches_iff {source : Nat} :
    reaches layouts source target = true ↔ Leads layouts source target := by
  constructor
  · intro h
    obtain ⟨index, hindex, hleads⟩ := exists_leads_of_leadsTo h
    exact List.mem_singleton.1 hindex ▸ hleads
  · intro hleads
    by_contra h
    have hstart : Searched layouts target [] [source] := by simp [Searched]
    exact not_leads_of_leadsTo hstart (Bool.not_eq_true _ ▸ h) source
      (.inr List.mem_cons_self) hleads

/-! ## Boxes -/

section Boxes

variable {layout : Layout} {field : Field} {held : Nat}

/-- What holds a record is an element of a complex type, and no list of them. -/
theorem exists_of_held? {source : FieldSource} (h : source.held? = some held) :
    ∃ written record writer wrapper,
      source = .element written (.complex held record writer) wrapper ∧ wrapper ≠ .many := by
  unfold FieldSource.held? at h
  split at h
  · cases h
    exact ⟨_, _, _, _, rfl, by decide⟩
  · cases h
    exact ⟨_, _, _, _, rfl, by decide⟩
  · cases h

/-- A field of the record at a position as it is declared. -/
def fieldDecl (layouts : List Layout) (index : Nat) (field : Field) : FieldDecl :=
  ⟨true, field.ident.text, fieldType field (isBoxed layouts index field)⟩

/-- A field that holds a record is declared with a box when one is called for. -/
theorem isBoxed_fieldType_iff (hheld : field.source.held? = some held) (boxed : Bool) :
    (fieldType field boxed).IsBoxed ↔ boxed = true := by
  obtain ⟨written, record, writer, wrapper, hsource, hwrapper⟩ := exists_of_held? hheld
  have hcontent :
      (if boxed then .of "Box" [.single record.text] else .single record.text : Ty).IsBoxed ↔
        boxed = true := by
    cases boxed with
    | true => exact iff_of_true (.box _) rfl
    | false => exact iff_of_false (Ty.not_isBoxed_single _) Bool.false_ne_true
  rw [fieldType, hsource]
  cases wrapper with
  | one => exact hcontent
  | option => exact Ty.isBoxed_option_iff.trans hcontent
  | many => exact absurd rfl hwrapper

/-- A field that holds a record is boxed if and only if that record leads to the record of the
field. -/
theorem isBoxed_fieldDecl_iff (hheld : field.source.held? = some held) :
    (fieldDecl layouts index field).type.IsBoxed ↔ Leads layouts held index := by
  have hboxed : isBoxed layouts index field = reaches layouts held index := by
    rw [isBoxed, hheld]
  rw [fieldDecl, isBoxed_fieldType_iff hheld, hboxed, reaches_iff]

/-- The record at one position holds the record at another one as a part of its own memory. -/
def HoldsInline (layouts : List Layout) (index held : Nat) : Prop :=
  ∃ layout field, layouts[index]? = some layout ∧ field ∈ layout.fields ∧
    field.source.held? = some held ∧ ¬(fieldDecl layouts index field).type.IsBoxed

theorem HoldsInline.holds (h : HoldsInline layouts index held) : Holds layouts index held := by
  obtain ⟨layout, field, hlayout, hfield, hheld, -⟩ := h
  exact ⟨layout, field, hlayout, hfield, hheld⟩

/-- A field that closes a circle of records is boxed, so without boxes there are none. -/
theorem not_transGen_holdsInline (layouts : List Layout) (index : Nat) :
    ¬TransGen (HoldsInline layouts) index index := by
  intro hcircle
  obtain ⟨held, hinline, hback⟩ := TransGen.head'_iff.1 hcircle
  have hleads : Leads layouts held index :=
    ReflTransGen.mono (fun _ _ h => HoldsInline.holds h) _ _ hback
  obtain ⟨layout, field, -, -, hheld, hunboxed⟩ := hinline
  exact hunboxed ((isBoxed_fieldDecl_iff hheld).2 hleads)

end Boxes

/-! ## Clients -/

/-- A field that holds the record at a position is written by the function of the layout there. -/
theorem Filled.exists_held {defs : Definitions} {record : Record} {fields : List Field}
    (h : Filled defs layouts record fields) {field : Field} (hfield : field ∈ fields) {held : Nat}
    (hheld : field.source.held? = some held) :
    ∃ layout, layouts[held]? = some layout ∧ field.kind? = some (layout.kind held) := by
  obtain ⟨elements, -, hkinds⟩ := h
  obtain ⟨written, ident, writer, wrapper, hsource, -⟩ := exists_of_held? hheld
  have hkind : field.kind? = some (.complex held ident writer) := by
    rw [Field.kind?, hsource]
  obtain ⟨element, -, hisKind⟩ :=
    exists_mem_of_forall₂ hkinds (List.mem_filterMap.2 ⟨field, hfield, hkind⟩)
  generalize recordOfLocal defs element = record? at hisKind
  generalize hkind' : ValueKind.complex held ident writer = kind at hisKind
  cases hisKind with
  | simple => cases hkind'
  | @complex _ _ layout hlayout _ =>
    cases hkind'
    exact ⟨layout, hlayout, hkind⟩

/-- A client that is compiled declares its records with finite sizes, and with as few boxes as that
takes. -/
theorem compile_sizes {defs : Definitions} {service : Option String} {name : QName}
    {items : List Item} (h : compile defs service name = .ok items) :
    ∃ plan layouts, Compiled defs service name items plan layouts ∧
      (∀ (index : Nat) (layout : Layout), layouts[index]? = some layout → ∃ docs derives,
        Item.record docs derives layout.ident.text []
          (layout.fields.map (fieldDecl layouts index)) ∈ items) ∧
      (∀ index, ¬TransGen (HoldsInline layouts) index index) ∧
      ∀ index layout field held, layouts[index]? = some layout → field ∈ layout.fields →
        field.source.held? = some held →
        (∃ other, layouts[held]? = some other ∧ field.kind? = some (other.kind held)) ∧
          ((fieldDecl layouts index field).type.IsBoxed ↔ Leads layouts held index) := by
  obtain ⟨plan, layouts, hcompiled, hclosed⟩ := exists_compiled h
  refine ⟨plan, layouts, hcompiled, ?_, not_transGen_holdsInline layouts, ?_⟩
  · intro index layout hlayout
    exact ⟨_, _, hcompiled.writes.recordItem_mem hlayout⟩
  · intro index layout field held hlayout hfield hheld
    have hfilled := hclosed.filled layout (List.mem_of_getElem? hlayout)
    exact ⟨hfilled.exists_held hfield hheld, isBoxed_fieldDecl_iff hheld⟩

/-- Nodes hold links and links hold nodes, but not without boxes. -/
theorem compile_sizes_of_linked : ∃ items plan layouts,
    Compiled linked none (linkedName "Soap") items plan layouts ∧
      (∀ index, ¬TransGen (HoldsInline layouts) index index) ∧
      ∀ index layout field held, layouts[index]? = some layout → field ∈ layout.fields →
        field.source.held? = some held →
        ((fieldDecl layouts index field).type.IsBoxed ↔ Leads layouts held index) := by
  obtain ⟨items, hitems⟩ := exists_compile_linked
  obtain ⟨plan, layouts, hcompiled, -, hcircles, hboxes⟩ := compile_sizes hitems
  refine ⟨items, plan, layouts, hcompiled, hcircles, ?_⟩
  intro index layout field held hlayout hfield hheld
  exact (hboxes index layout field held hlayout hfield hheld).2

end SoapKit.Client
