import Mathlib.Data.List.Perm.Subperm
import Mathlib.Order.Bounds.Basic
import SoapKit.Proofs.Client.Records

/-!
# Completing layouts

To find out the fields of a record is to meet the records of the elements in it, and so completing
layouts one after the other is a breadth-first search of records. The invariant is `Completing`: the
layouts before a position are open in the search and have their fields, and those behind it wait.

* `Completing.step`: the next layout gets its fields, and the records in it are met.
* `Completing.length_le`: names of records are names of types or elements, so that there is a bound
  on the layouts; it is the number of steps that the search is granted.
* `Completing.completeFrom_add`: with this many steps the search ends by itself.
* `Completing.closed`: in the end the layouts are closed, `Closed`.
-/

namespace SoapKit.Client

open Naming (FreshNames)
open Wsdl (QName Definitions)

variable {s : Setting} {bench bench' : Workbench}

/-! ## Fields -/

/-- The kind of the values in a field, when they are elements. -/
def Field.kind? (field : Field) : Option ValueKind :=
  match field.source with
  | .element _ kind _ => some kind
  | _ => none

/-- The fields of a record are found out: those that hold elements hold the elements in the record,
in their order, and know how to write them. -/
def Filled (defs : Definitions) (layouts : List Layout) (record : Record) (fields : List Field) :
    Prop :=
  ∃ elements, elementsOf defs record = .ok elements ∧
    List.Forall₂ (fun element kind => IsKindOf layouts (recordOfLocal defs element) kind)
      elements (fields.filterMap Field.kind?)

theorem Filled.mono {defs : Definitions} {layouts layouts' : List Layout} {record : Record}
    {fields : List Field} (h : Filled defs layouts record fields) (hkept : Kept layouts layouts') :
    Filled defs layouts' record fields := by
  obtain ⟨elements, helements, hkinds⟩ := h
  exact ⟨elements, helements, hkinds.imp fun _ _ hkind => hkind.mono hkept⟩

/-- Names are written with or without a qualifier. -/
theorem written_grows {c : Prop} [Decidable c] {name : QName} {plain written : String}
    (h : (if c then xmlName name else pure plain : Writing String) bench = .ok (written, bench')) :
    Grows [] bench bench' := by
  split at h
  · exact xmlName_grows h
  · cases h
    exact .rfl

theorem attributeFields_grows {taken taken' : FreshNames}
    {uses : List (QName × Wsdl.Attribute × Wsdl.Attribute)} {fields : List Field}
    (h : attributeFields s taken uses bench = .ok ((fields, taken'), bench')) :
    Grows [] bench bench' ∧ fields.filterMap Field.kind? = [] := by
  induction uses generalizing taken fields bench with
  | nil =>
    cases h
    exact ⟨.rfl, rfl⟩
  | cons use rest ih =>
    obtain ⟨name, use, declared⟩ := use
    obtain ⟨written, bench₁, hwritten, hrest⟩ := writing_ite_bind_eq_ok.1 h
    obtain ⟨⟨others, _⟩, bench₂, hothers, heq⟩ := writing_bind_eq_ok.1 hrest
    cases heq
    obtain ⟨hgrows, hkinds⟩ := ih hothers
    exact ⟨(written_grows hwritten).trans hgrows, hkinds⟩

theorem valueFields_kinds (s : Setting) (taken : FreshNames) (type : Wsdl.ComplexType) :
    (valueFields s taken type).1.filterMap Field.kind? = [] := by
  unfold valueFields
  split <;> rfl

theorem elementFields_eq_ok {taken : FreshNames} {elements : List Wsdl.Element}
    {fields : List Field} (h : elementFields s taken elements bench = .ok (fields, bench')) :
    Grows (elements.filterMap (recordOfLocal s.defs)) bench bench' ∧
      List.Forall₂ (fun element kind => IsKindOf bench'.layouts (recordOfLocal s.defs element) kind)
        elements (fields.filterMap Field.kind?) := by
  induction elements generalizing taken fields bench with
  | nil =>
    cases h
    exact ⟨.rfl, .nil⟩
  | cons element rest ih =>
    obtain ⟨kind, bench₁, hkind, hrest⟩ := writing_bind_eq_ok.1 h
    obtain ⟨written, bench₂, hwritten, hrest⟩ := writing_ite_bind_eq_ok.1 hrest
    obtain ⟨others, bench₃, hothers, heq⟩ := writing_bind_eq_ok.1 hrest
    cases heq
    obtain ⟨hgrows, hisKind⟩ := classifies_kindOfLocal s element hkind
    obtain ⟨hgrows', hkinds⟩ := ih hothers
    have hlater := (written_grows hwritten).trans hgrows'
    refine ⟨?_, .cons (hisKind.mono hlater.kept) hkinds⟩
    rw [filterMap_cons_toList]
    exact hgrows.trans hlater

/-- The steps in which the fields of a record are found out: those of its attributes, that of its
text, and those of its elements. -/
theorem fieldsOf_steps {record : Record} {fields : List Field}
    (h : fieldsOf s record bench = .ok (fields, bench')) :
    ∃ uses attributes taken elements found bench₁,
      attributesOf s.defs record.type = .ok uses ∧
      attributeFields s .empty uses.entries bench = .ok ((attributes, taken), bench₁) ∧
      elementsOf s.defs record = .ok elements ∧
      elementFields s (valueFields s taken record.type).2 elements bench₁ = .ok (found, bench') ∧
      fields = attributes ++ (valueFields s taken record.type).1 ++ found := by
  obtain ⟨uses, bench₁, huses, hrest⟩ := writing_bind_eq_ok.1 h
  obtain ⟨⟨attributes, taken⟩, bench₂, hattributes, hrest⟩ := writing_bind_eq_ok.1 hrest
  obtain ⟨elements, bench₃, hlift, hrest⟩ := writing_bind_eq_ok.1 hrest
  obtain ⟨found, bench₄, hfound, heq⟩ := writing_bind_eq_ok.1 hrest
  have hfields : fields = attributes ++ (valueFields s taken record.type).1 ++ found ∧
      bench₄ = bench' := by
    cases heq
    exact ⟨rfl, rfl⟩
  obtain ⟨hfields, rfl⟩ := hfields
  obtain ⟨hresult, rfl⟩ := writing_lift_eq_ok.1 huses
  obtain ⟨helements, rfl⟩ := writing_lift_eq_ok.1 hlift
  exact ⟨uses, attributes, taken, elements, found, bench₃, hresult, hattributes, helements, hfound,
    hfields⟩

theorem fieldsOf_eq_ok {record : Record} {fields : List Field}
    (h : fieldsOf s record bench = .ok (fields, bench')) :
    Grows (recordsIn s.defs record) bench bench' ∧
      Filled s.defs bench'.layouts record fields := by
  obtain ⟨uses, attributes, taken, elements, found, bench₁, -, hattributes, helements, hfound,
    rfl⟩ :=
    fieldsOf_steps h
  obtain ⟨hgrows, hplain⟩ := attributeFields_grows hattributes
  obtain ⟨hgrows', hkinds⟩ := elementFields_eq_ok hfound
  have hmet : recordsIn s.defs record = elements.filterMap (recordOfLocal s.defs) := by
    rw [recordsIn, helements]
  refine ⟨hmet ▸ hgrows.trans hgrows', elements, helements, ?_⟩
  rw [List.filterMap_append, List.filterMap_append, hplain, valueFields_kinds]
  exact hkinds

theorem declared_of_recordsIn {defs : Definitions} {record record' : Record}
    (h : record' ∈ recordsIn defs record) : Declared defs record' := by
  unfold recordsIn at h
  split at h
  · obtain ⟨element, -, hrecord⟩ := List.mem_filterMap.1 h
    exact declared_of_local hrecord
  · cases h

theorem Declared.name_mem {defs : Definitions} {record : Record} (h : Declared defs record) :
    record.name ∈ defs.types.keys ++ defs.elements.keys := by
  rw [List.mem_append]
  cases h with
  | @named name type htype =>
    unfold Definitions.complexType? at htype
    split at htype
    · next hget => exact .inl (OrderedMap.mem_keys_of_get? hget)
    · cases htype
  | inline hget _ _ => exact .inr (OrderedMap.mem_keys_of_get? hget)

/-! ## Completing layouts one after the other -/

theorem records_eq (bench : Workbench) :
    bench.records = (bench.layouts.map Layout.bare).map Layout.record := by
  rw [List.map_map]
  rfl

theorem map_bare_setFields (bench : Workbench) (index : Nat) (fields : List Field) :
    (bench.setFields index fields).layouts.map Layout.bare = bench.layouts.map Layout.bare := by
  apply List.ext_getElem?
  intro i
  rw [Workbench.setFields, List.getElem?_map, List.getElem?_modify, List.getElem?_map]
  cases bench.layouts[i]? with
  | none => rfl
  | some layout =>
    by_cases hi : index = i <;> simp [hi, Layout.bare]

theorem kept_setFields (bench : Workbench) (index : Nat) (fields : List Field) :
    Kept bench.layouts (bench.setFields index fields).layouts := by
  rw [Kept, map_bare_setFields]

theorem records_setFields (bench : Workbench) (index : Nat) (fields : List Field) :
    (bench.setFields index fields).records = bench.records := by
  rw [records_eq, map_bare_setFields, ← records_eq]

/-- Once the fields of the layout at a position are set, the layouts up to there are that one with
its fields and those before it as they were. -/
theorem cases_of_setFields {met : List Record} {index : Nat} {layout layout' : Layout}
    {fields : List Field} (hgrows : Grows met bench bench')
    (hlayout : bench.layouts[index]? = some layout) {i : Nat} (hi : i < index + 1)
    (hlayout' : (bench'.setFields index fields).layouts[i]? = some layout') :
    (i = index ∧ layout' = { layout with fields }) ∨
      (i < index ∧ bench.layouts[i]? = some layout') := by
  have hindex := (List.getElem?_eq_some_iff.1 hlayout).1
  obtain ⟨more, hmore⟩ := hgrows.layouts
  rw [Workbench.setFields, List.getElem?_modify, Option.map_eq_map, Option.map_eq_some_iff]
    at hlayout'
  obtain ⟨old, hold, rfl⟩ := hlayout'
  rw [← hmore, List.getElem?_append_left (Nat.lt_of_lt_of_le hi hindex)] at hold
  by_cases heq : index = i
  · subst heq
    rw [hlayout] at hold
    obtain rfl := Option.some.inj hold
    exact .inl ⟨rfl, if_pos rfl⟩
  · rw [if_neg heq]
    exact .inr ⟨by omega, hold⟩

section Run

variable {steps index : Nat}

/-- A step looks whether there is a layout at its position. -/
theorem completeFrom_succ (s : Setting) (steps index : Nat) (bench : Workbench) :
    completeFrom s (steps + 1) index bench = match bench.layouts[index]? with
      | none => .ok ((), bench)
      | some layout => (do
        let (fields, bench') ← fieldsOf s layout.record bench
        completeFrom s steps (index + 1) (bench'.setFields index fields)) := by
  have hget : completeFrom s (steps + 1) index bench =
      (match bench.layouts[index]? with
        | none => pure ()
        | some layout => do
          let fields ← fieldsOf s layout.record
          modify fun bench => bench.setFields index fields
          completeFrom s steps (index + 1) : Writing Unit) bench :=
    rfl
  rw [hget]
  cases bench.layouts[index]? <;> rfl

theorem completeFrom_none (h : bench.layouts[index]? = none) :
    completeFrom s steps index bench = .ok ((), bench) := by
  cases steps with
  | zero => rfl
  | succ steps => rw [completeFrom_succ, h]

theorem completeFrom_some {layout : Layout} (h : bench.layouts[index]? = some layout) :
    completeFrom s (steps + 1) index bench = (do
      let (fields, bench') ← fieldsOf s layout.record bench
      completeFrom s steps (index + 1) (bench'.setFields index fields)) := by
  rw [completeFrom_succ, h]

end Run

/-- The layouts before a position are complete, in a search of records from the given ones on. -/
structure Completing (defs : Definitions) (roots : List Record) (index : Nat)
    (bench : Workbench) : Prop where
  search : Discovered Record.name (recordsIn defs) roots (bench.records.take index)
    (bench.records.drop index)
  inside : index ≤ bench.layouts.length
  filled : ∀ i layout, i < index → bench.layouts[i]? = some layout →
    Filled defs bench.layouts layout.record layout.fields

namespace Completing

variable {roots : List Record} {index : Nat} {layout : Layout} {fields : List Field}

theorem start (hrecords : bench.records = firsts Record.name roots) :
    Completing s.defs roots 0 bench where
  search := by
    rw [List.take_zero, List.drop_zero, hrecords]
    exact Discovered.start ..
  inside := Nat.zero_le _
  filled := fun i _ hi => absurd hi (Nat.not_lt_zero i)

theorem step (h : Completing s.defs roots index bench)
    (hlayout : bench.layouts[index]? = some layout)
    (hfields : fieldsOf s layout.record bench = .ok (fields, bench')) :
    Completing s.defs roots (index + 1) (bench'.setFields index fields) := by
  obtain ⟨hgrows, hfilled⟩ := fieldsOf_eq_ok hfields
  have hkept := kept_setFields bench' index fields
  have hindex := (List.getElem?_eq_some_iff.1 hlayout).1
  have hlength := hgrows.layouts.length_le
  constructor
  · have hrecord : bench.records[index]? = some layout.record := by
      simp [Workbench.records, hlayout]
    refine h.search.step_at hrecord ?_
    rw [records_setFields, hgrows.records]
  · rw [Workbench.setFields, List.length_modify]
    omega
  · intro i layout' hi hlayout'
    rcases cases_of_setFields hgrows hlayout hi hlayout' with ⟨-, rfl⟩ | ⟨hbefore, hold⟩
    · exact hfilled.mono hkept
    · exact (h.filled i layout' hbefore hold).mono (hgrows.kept.trans hkept)

/-- There are no more records than names of types and elements. -/
theorem length_le (h : Completing s.defs roots index bench)
    (hroots : ∀ record ∈ roots, Declared s.defs record) :
    bench.layouts.length ≤ recordLimit s.defs := by
  have hdeclared : ∀ record ∈ bench.records, Declared s.defs record := by
    have hmet := h.search.of_closed (P := Declared s.defs) hroots
      fun record _ _ record' hrecord' => declared_of_recordsIn hrecord'
    rwa [List.take_append_drop] at hmet
  have hnodup : (bench.records.map Record.name).Nodup := by
    have hmet := h.search.nodup
    rwa [List.take_append_drop] at hmet
  have hnames : bench.records.map Record.name ⊆ s.defs.types.keys ++ s.defs.elements.keys := by
    intro name hname
    obtain ⟨record, hrecord, rfl⟩ := List.mem_map.1 hname
    exact (hdeclared record hrecord).name_mem
  have hlength := (hnodup.subperm hnames).length_le
  simpa [Workbench.records, OrderedMap.keys, recordLimit] using hlength

theorem getElem?_of_limit (h : Completing s.defs roots index bench)
    (hroots : ∀ record ∈ roots, Declared s.defs record) (hlimit : recordLimit s.defs ≤ index) :
    bench.layouts[index]? = none :=
  List.getElem?_eq_none_iff.2 ((h.length_le hroots).trans hlimit)

/-- Steps beyond the number of records that there can be change nothing. -/
theorem completeFrom_add {steps : Nat} (h : Completing s.defs roots index bench)
    (hroots : ∀ record ∈ roots, Declared s.defs record)
    (hsteps : recordLimit s.defs ≤ steps + index) (more : Nat) :
    completeFrom s (steps + more) index bench = completeFrom s steps index bench := by
  induction steps generalizing index bench with
  | zero =>
    have hnone := h.getElem?_of_limit hroots (by omega)
    rw [completeFrom_none hnone, completeFrom_none hnone]
  | succ steps ih =>
    rw [Nat.add_right_comm]
    cases hlayout : bench.layouts[index]? with
    | none => rw [completeFrom_none hlayout, completeFrom_none hlayout]
    | some layout =>
      rw [completeFrom_some hlayout, completeFrom_some hlayout]
      cases hfields : fieldsOf s layout.record bench with
      | error e => rfl
      | ok result => exact ih (h.step hlayout hfields) (by omega)

/-- A run ends where there is no further layout. -/
theorem done {steps : Nat} (h : Completing s.defs roots index bench)
    (hnone : bench.layouts[index]? = none)
    (hrun : completeFrom s steps index bench = .ok ((), bench')) :
    bench' = bench ∧ index = bench.layouts.length := by
  rw [completeFrom_none hnone] at hrun
  cases hrun
  exact ⟨rfl, Nat.le_antisymm h.inside (List.getElem?_eq_none_iff.1 hnone)⟩

/-- As many steps as there can be records go through all layouts, so what every step keeps holds
behind the last one. -/
theorem run_keeps {P : Nat → Workbench → Prop}
    (hstep : ∀ {index bench layout fields bench'}, P index bench →
      bench.layouts[index]? = some layout → fieldsOf s layout.record bench = .ok (fields, bench') →
      P (index + 1) (bench'.setFields index fields))
    {steps : Nat} (h : Completing s.defs roots index bench)
    (hroots : ∀ record ∈ roots, Declared s.defs record)
    (hsteps : recordLimit s.defs ≤ steps + index) (hstart : P index bench)
    (hrun : completeFrom s steps index bench = .ok ((), bench')) :
    P bench'.layouts.length bench' := by
  induction steps generalizing index bench with
  | zero =>
    obtain ⟨rfl, rfl⟩ := h.done (h.getElem?_of_limit hroots (by omega)) hrun
    exact hstart
  | succ steps ih =>
    cases hlayout : bench.layouts[index]? with
    | none =>
      obtain ⟨rfl, rfl⟩ := h.done hlayout hrun
      exact hstart
    | some layout =>
      rw [completeFrom_some hlayout] at hrun
      obtain ⟨⟨fields, bench₁⟩, hfields, hrest⟩ := bind_eq_ok.1 hrun
      exact ih (h.step hlayout hfields) (by omega) (hstep hstart hlayout hfields) hrest

/-- As many steps as there can be records complete all layouts. -/
theorem run {steps : Nat} (h : Completing s.defs roots index bench)
    (hroots : ∀ record ∈ roots, Declared s.defs record)
    (hsteps : recordLimit s.defs ≤ steps + index)
    (hrun : completeFrom s steps index bench = .ok ((), bench')) :
    Completing s.defs roots bench'.layouts.length bench' ∧ Kept bench.layouts bench'.layouts := by
  refine h.run_keeps (P := fun i later => Completing s.defs roots i later ∧
    Kept bench.layouts later.layouts) ?_ hroots hsteps ⟨h, .rfl⟩ hrun
  rintro index₁ bench₁ layout fields bench₂ ⟨hcomplete, hkept⟩ hlayout hfields
  have hgrows := (fieldsOf_eq_ok hfields).1
  exact ⟨hcomplete.step hlayout hfields, (hkept.trans hgrows.kept).trans (kept_setFields ..)⟩

end Completing

/-! ## Closed layouts -/

/-- Layouts of a closed set of records, which some first records lead to. A name stands for the one
record that was met first under it. -/
structure Closed (defs : Definitions) (roots : List Record) (layouts : List Layout) : Prop where
  /-- The records come in the only order in which a search from the first ones can meet them. -/
  order : ∀ records, Discovered Record.name (recordsIn defs) roots records [] ↔
    records = layouts.map fun layout => layout.record
  nodup : (layouts.map fun layout => layout.record.name).Nodup
  /-- The names are the least set that has those of the first records and, with the name of a
  record, those of the records in it. -/
  least : IsLeast
    {names : Set QName | (∀ record ∈ roots, record.name ∈ names) ∧
      ∀ layout ∈ layouts, layout.record.name ∈ names →
        ∀ record ∈ recordsIn defs layout.record, record.name ∈ names}
    {name | name ∈ layouts.map fun layout => layout.record.name}
  limit : layouts.length ≤ recordLimit defs
  filled : ∀ layout ∈ layouts, Filled defs layouts layout.record layout.fields

theorem Completing.closed {roots : List Record}
    (h : Completing s.defs roots bench.layouts.length bench)
    (hroots : ∀ record ∈ roots, Declared s.defs record) :
    Closed s.defs roots bench.layouts := by
  have hlength : bench.layouts.length = bench.records.length := by simp [Workbench.records]
  have hsearch : Discovered Record.name (recordsIn s.defs) roots bench.records [] := by
    have hsearch := h.search
    rwa [hlength, List.take_length, List.drop_length] at hsearch
  have hnames : (bench.records ++ []).map Record.name =
      bench.layouts.map fun layout => layout.record.name := by
    simp [Workbench.records]
  have hmem : ∀ {layout}, layout ∈ bench.layouts → layout.record ∈ bench.records := fun h =>
    List.mem_map_of_mem h
  constructor
  · intro records
    exact ⟨fun hrecords => hrecords.opened_unique hsearch, fun heq => heq ▸ hsearch⟩
  · exact hnames ▸ hsearch.nodup
  · constructor
    · refine ⟨fun record hrecord => ?_, fun layout hlayout _ record hrecord => ?_⟩
      · rw [Set.mem_ofPred_eq, ← hnames]
        exact hsearch.root_mem hrecord
      · rw [Set.mem_ofPred_eq, ← hnames]
        exact hsearch.next_mem (hmem hlayout) hrecord
    · rintro names ⟨hfirst, hnext⟩ name hname
      rw [Set.mem_ofPred_eq, ← hnames] at hname
      obtain ⟨record, hrecord, rfl⟩ := List.mem_map.1 hname
      refine hsearch.of_closed (P := fun record => record.name ∈ names) hfirst ?_ record hrecord
      intro record hrecord hin
      obtain ⟨layout, hlayout, rfl⟩ := List.mem_map.1 hrecord
      exact hnext layout hlayout hin
  · exact h.length_le hroots
  · intro layout hlayout
    obtain ⟨i, hi, rfl⟩ := List.mem_iff_getElem.1 hlayout
    exact h.filled i _ hi (List.getElem?_eq_getElem hi)

end SoapKit.Client
